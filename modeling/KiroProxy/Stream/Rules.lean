import KiroProxy.Sse
import KiroProxy.Transition

/-!
# The order of events in a message

The documented order of the events of one message, as a monitor that reads them one by
one. `message_start` comes first or not at all; block indices grow from one start to the
next; at most one block is open, and every delta and stop is for that block;
`message_delta` comes once, with no block open, and only `message_stop` follows it. An
error event may stand anywhere before the end.
-/

namespace KiroProxy.Stream

inductive Phase
  | fresh
  | streaming
  | closing
  | ended
  deriving DecidableEq, Repr

structure MessageRules where
  phase : Phase
  /-- Every block started so far has a smaller index. -/
  nextIndex : ℕ
  openBlock : Option ℕ
  deriving DecidableEq, Repr

namespace MessageRules

def init : MessageRules := ⟨.fresh, 0, none⟩

/-- Content may still follow. -/
def Live (r : MessageRules) : Prop :=
  r.phase = .fresh ∨ r.phase = .streaming

instance (r : MessageRules) : Decidable r.Live :=
  inferInstanceAs (Decidable (_ ∨ _))

def step (r : MessageRules) : SseEvent → Option MessageRules
  | .messageStart => if r.phase = .fresh then some { r with phase := .streaming } else none
  | .contentBlockStart index _ =>
    if r.Live ∧ r.openBlock = none ∧ r.nextIndex ≤ index then
      some ⟨.streaming, index + 1, some index⟩
    else none
  | .contentBlockDelta index _ => if r.openBlock = some index then some r else none
  | .contentBlockStop index =>
    if r.openBlock = some index then some { r with openBlock := none } else none
  | .messageDelta _ _ =>
    if r.Live ∧ r.openBlock = none then some { r with phase := .closing } else none
  | .messageStop => if r.phase = .closing then some { r with phase := .ended } else none
  | .error _ _ => if r.Live then some { r with phase := .streaming } else none

def run (events : List SseEvent) : Option MessageRules :=
  Transition.run step init events

/-- The events keep the order so far. -/
def Accepts (events : List SseEvent) : Prop :=
  ∃ r, run events = some r

/-- The events are a whole message. -/
def Complete (events : List SseEvent) : Prop :=
  ∃ r, run events = some r ∧ r.phase = .ended

theorem run_append {events more : List SseEvent} {r r' : MessageRules}
    (h : run events = some r) (h' : Transition.run step r more = some r') :
    run (events ++ more) = some r' :=
  Transition.run_append_eq_some.mpr ⟨r, h, h'⟩

end MessageRules

end KiroProxy.Stream
