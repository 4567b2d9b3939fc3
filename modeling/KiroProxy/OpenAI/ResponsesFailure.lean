import KiroProxy.OpenAI.ResponsesAgreement

/-!
# Streams that are cut

A stream that is cut before its `messageStop` ends in a failed response, with the items of the
blocks that are over. What the open item has brought is not kept: `failureKeepsOutput_iff` says for
which cuts nothing is lost by this.
-/

namespace KiroProxy.OpenAI.Responses
open MessageStream ResponsesStreamTranslator Transducer

variable {runtime : Runtime} {declared : DeclaredTools} {translator : ResponsesStreamTranslator}
  {idx outputIndex : ℕ}

/-- How a stream ends before its `messageStop`. -/
inductive Cut
  | ended
  | unreadable (message : List Char)
  | malformed
  | error (errorType message : Option (List Char))

def Cut.frames (runtime : Runtime) (translator : ResponsesStreamTranslator) : Cut → List Frame
  | .ended => translator.onEnd.2
  | .unreadable message => (translator.fail apiError message).2
  | .malformed => (translator.onEvent runtime .malformed).2
  | .error errorType message => (translator.onEvent runtime (.event (.error errorType message))).2

def cutStream (runtime : Runtime) (shell : ResponseShell) (declared : DeclaredTools)
    (messages : List SseMessage) (cut : Cut) : List Frame :=
  let (translator, frames) := run (onEvent runtime) (new shell declared) messages
  frames ++ cut.frames runtime translator

def KeepsOutput (events : List ResponseEvent) (output : List Item) : Prop :=
  ∀ outputIndex ∈ events.filterMap addedIndex?, ∃ item ∈ output,
    deltasOf outputIndex events <+: item.text

def FailureKeepsOutput (frames : List Frame) : Prop :=
  ∃ before response,
    (frames.filterMap Frame.event?).map Prod.snd = before ++ [.failed response] ∧
      KeepsOutput before response.output

/-- The blocks that are over and the one that is open, with the deltas that came. -/
structure Progress where
  closed : List (Block × List Delta)
  current : Option (Block × List Delta)

namespace Progress

def step (progress : Progress) : SseMessage → Progress
  | .event (.contentBlockStart _ block) => { progress with current := some (block, []) }
  | .event (.contentBlockDelta _ delta) =>
    { progress with
      current := progress.current.map fun (block, deltas) => (block, deltas ++ [delta]) }
  | .event (.contentBlockStop _) => ⟨progress.closed ++ progress.current.toList, none⟩
  | _ => progress

def of (messages : List SseMessage) : Progress := messages.foldl step ⟨[], none⟩

end Progress

/-- What the item of an open block has brought, when it is announced. The input of a custom tool
comes at its end. -/
def openText? (declared : DeclaredTools) : Block × List Delta → Option (List Char)
  | (.text text, deltas) => nonEmpty (text ++ deltas.flatMap textOfDelta)
  | (.thinking thinking _, deltas) => nonEmpty (thinking ++ deltas.flatMap reasoningOfDelta)
  | (.toolUse _ name _, deltas) =>
    some (if declared.isCustom name then [] else deltas.flatMap partialJson)
  | _ => none

def closedText? (runtime : Runtime) (declared : DeclaredTools) :
    Block × List Delta → Option (List Char)
  | (.toolUse _ name input, deltas) =>
    let arguments := deltas.flatMap partialJson ++ pendingOf runtime input deltas
    some (if declared.isCustom name then customToolInput runtime.parse arguments else arguments)
  | block => openText? declared block

/-- An earlier item begins with what the open item has brought. -/
def Progress.Covered (runtime : Runtime) (declared : DeclaredTools) (progress : Progress) : Prop :=
  ∀ text ∈ progress.current.bind (openText? declared),
    ∃ closed ∈ progress.closed.filterMap (closedText? runtime declared), text <+: closed

instance (progress : Progress) : Decidable (progress.Covered runtime declared) :=
  inferInstanceAs (Decidable (∀ text ∈ progress.current.bind (openText? declared),
    ∃ closed ∈ progress.closed.filterMap (closedText? runtime declared), text <+: closed))

theorem exists_of_prefix_append {α : Type} {sent first rest : List α}
    (h : sent <+: first ++ rest) (hfirst : ¬ sent <+: first) :
    ∃ sent', sent = first ++ sent' ∧ sent' <+: rest := by
  have hle := (List.prefix_or_prefix_of_prefix h (List.prefix_append first rest)).resolve_left hfirst
  obtain ⟨sent', rfl⟩ := hle
  exact ⟨sent', rfl, (List.prefix_append_right_inj first).mp h⟩

def progressEvents (idx : ℕ) (closed : List Streamed) (current : Option Streamed) : List Event :=
  streamFrom idx closed ++ current.elim [] (Streamed.opened (idx + closed.length))

theorem prefix_streamed {streamed : Streamed} {sent : List Event}
    (h : sent <+: streamed.events idx) :
    sent = [] ∨ (∃ current : Streamed, sent = current.opened idx) ∨ sent = streamed.events idx := by
  rw [Streamed.events_eq] at h ⊢
  rcases List.prefix_concat_iff.mp h with hall | hopened
  · exact .inr (.inr hall)
  · rcases List.prefix_cons_iff.mp hopened with hnil | ⟨sent', hsent, hdeltas⟩
    · exact .inl hnil
    · obtain ⟨deltas, hle, rfl⟩ := List.prefix_map_iff.mp hdeltas
      have hfits : ∀ delta ∈ deltas, Delta.Fits streamed.start delta :=
        fun delta hmem => streamed.fits delta (hle.subset hmem)
      exact .inr (.inl ⟨⟨streamed.start, deltas, hfits⟩, hsent⟩)

theorem prefix_streamFrom {blocks : List Streamed} {sent : List Event}
    (h : sent <+: streamFrom idx blocks) :
    ∃ closed current, sent = progressEvents idx closed current := by
  induction blocks generalizing idx sent with
  | nil => exact ⟨[], none, List.prefix_nil.mp h⟩
  | cons streamed blocks ih =>
    by_cases hfirst : sent <+: streamed.events idx
    · rcases prefix_streamed hfirst with hnil | ⟨current, hopened⟩ | hall
      · exact ⟨[], none, hnil⟩
      · exact ⟨[], some current, hopened⟩
      · refine ⟨[streamed], none, hall.trans ?_⟩
        rw [progressEvents, streamFrom, streamFrom, List.append_nil]
        exact (List.append_nil _).symm
    · obtain ⟨sent', rfl, hrest⟩ := exists_of_prefix_append h hfirst
      obtain ⟨closed, current, rfl⟩ := ih hrest
      refine ⟨streamed :: closed, current, ?_⟩
      rw [progressEvents, progressEvents, streamFrom, List.append_assoc, List.length_cons,
        Nat.add_assoc, Nat.add_comm 1]

theorem prefix_events {stream : StreamedMessage} {sent : List Event} (h : sent <+: stream.events)
    (hstop : .messageStop ∉ sent) :
    sent = [] ∨
      (∃ closed current, sent = .messageStart stream.id stream.model stream.startUsage ::
        progressEvents 0 closed current) ∨
      sent = .messageStart stream.id stream.model stream.startUsage ::
        (streamFrom 0 stream.blocks ++ [.messageDelta stream.stopReason stream.deltaUsage]) := by
  have hevents : stream.events = (.messageStart stream.id stream.model stream.startUsage ::
      (streamFrom 0 stream.blocks ++ [.messageDelta stream.stopReason stream.deltaUsage])) ++
        [.messageStop] := by
    rw [StreamedMessage.events, List.cons_append, List.append_assoc]
    rfl
  rw [hevents] at h
  rcases List.prefix_concat_iff.mp h with hall | hsent
  · exact absurd (hall ▸ List.mem_append_right _ (List.mem_singleton_self _)) hstop
  · rcases List.prefix_cons_iff.mp hsent with hnil | ⟨sent', rfl, hrest⟩
    · exact .inl hnil
    · rcases List.prefix_concat_iff.mp hrest with hall | hblocks
      · exact .inr (.inr (congrArg _ hall))
      · obtain ⟨closed, current, rfl⟩ := prefix_streamFrom hblocks
        exact .inr (.inl ⟨closed, current, rfl⟩)

def parts (streamed : Streamed) : Block × List Delta := (streamed.start, streamed.deltas)

theorem foldl_step_opened (closed : List (Block × List Delta)) (streamed : Streamed) :
    ((streamed.opened idx).map .event).foldl Progress.step ⟨closed, none⟩ =
      ⟨closed, some (parts streamed)⟩ := by
  have hdeltas (deltas before : List Delta) :
      (deltas.map fun delta => SseMessage.event (.contentBlockDelta idx delta)).foldl
          Progress.step ⟨closed, some (streamed.start, before)⟩ =
        ⟨closed, some (streamed.start, before ++ deltas)⟩ := by
    induction deltas generalizing before with
    | nil => rw [List.append_nil]; rfl
    | cons delta deltas ih =>
      rw [List.map_cons, List.foldl_cons]
      exact (ih (before ++ [delta])).trans (by rw [List.append_assoc]; rfl)
  rw [map_opened, List.foldl_cons]
  exact hdeltas streamed.deltas []

theorem foldl_step_streamFrom (before : List (Block × List Delta)) (closed : List Streamed) :
    ((streamFrom idx closed).map .event).foldl Progress.step ⟨before, none⟩ =
      ⟨before ++ closed.map parts, none⟩ := by
  induction closed generalizing idx before with
  | nil => rw [List.map_nil, List.append_nil]; rfl
  | cons streamed closed ih =>
    rw [streamFrom, Streamed.events_eq, List.map_append, List.map_append, List.foldl_append,
      List.foldl_append, foldl_step_opened]
    exact (ih (before ++ [parts streamed])).trans (by rw [List.append_assoc]; rfl)

theorem of_progressEvents (start : Event) (closed : List Streamed) (current : Option Streamed)
    (hstart : Progress.step ⟨[], none⟩ (.event start) = ⟨[], none⟩) :
    Progress.of ((start :: progressEvents 0 closed current).map .event) =
      ⟨closed.map parts, current.map parts⟩ := by
  rw [Progress.of, List.map_cons, List.foldl_cons, hstart, progressEvents, List.map_append,
    List.foldl_append, foldl_step_streamFrom]
  cases current with
  | none => rfl
  | some streamed => exact foldl_step_opened _ streamed

theorem of_filter_isSilent (messages : List SseMessage) :
    Progress.of (messages.filter fun message => !message.isSilent) = Progress.of messages := by
  rw [Progress.of, List.foldl_filter]
  refine List.foldl_ext _ _ _ fun progress message _ => ?_
  split_ifs with hsilent
  · rfl
  · match message, hsilent with
    | .empty, _ => rfl
    | .other, _ => rfl
    | .event .ping, _ => rfl

theorem flatten_textPieces_parts (kind : TextKind) (streamed : Streamed) :
    (textPieces kind streamed).flatten =
      kind.ofBlock streamed.start ++ streamed.deltas.flatMap kind.ofDelta := by
  rw [textPieces, List.flatten_append, flatten_nonEmpty, deltaPieces, flatten_flatMap_nonEmpty]

theorem text_textItem (kind : TextKind) (streamed : Streamed) :
    (textItem runtime kind outputIndex (textPieces kind streamed)).map Item.text =
      nonEmpty (kind.ofBlock streamed.start ++ streamed.deltas.flatMap kind.ofDelta) := by
  rw [← flatten_textPieces_parts, textItem, nonEmpty]
  by_cases hempty : textPieces kind streamed = []
  · rw [if_pos hempty, if_pos ((textPieces_eq_nil kind streamed).mp hempty)]
    rfl
  · rw [if_neg hempty, if_neg fun h => hempty ((textPieces_eq_nil kind streamed).mpr h)]
    cases kind <;> exact congrArg some List.flatten_singleton

theorem text_blockItems (streamed : Streamed) :
    (blockItems runtime declared outputIndex streamed).map Item.text =
      (closedText? runtime declared (parts streamed)).toList := by
  have htext (kind : TextKind) :
      ((textItem runtime kind outputIndex (textPieces kind streamed)).toList).map Item.text =
        (nonEmpty (kind.ofBlock streamed.start ++
          streamed.deltas.flatMap kind.ofDelta)).toList := by
    rw [← @text_textItem runtime outputIndex]
    exact Option.toList_map.symm
  rw [blockItems, parts]
  cases hstart : streamed.start with
  | text text =>
    have hmessage := htext .message
    rw [hstart] at hmessage
    exact hmessage
  | thinking thinking signature =>
    have hreasoning := htext .reasoning
    rw [hstart] at hreasoning
    exact hreasoning
  | toolUse callId name input => exact congrArg (· :: []) (text_toolItem callId name _)
  | redactedThinking data => rfl
  | serverTool type => rfl

theorem text_streamItems (blocks : List Streamed) :
    (streamItems runtime declared outputIndex blocks).map Item.text =
      (blocks.map parts).filterMap (closedText? runtime declared) := by
  induction blocks generalizing outputIndex with
  | nil => rfl
  | cons streamed blocks ih =>
    rw [streamItems, List.map_append, ih, text_blockItems, List.map_cons, List.filterMap_cons]
    cases closedText? runtime declared (parts streamed) <;> rfl

/-- The events of a block up to its last delta. -/
def openedEvents (runtime : Runtime) (declared : DeclaredTools) (outputIndex : ℕ)
    (streamed : Streamed) : List ResponseEvent :=
  let ofKind (kind : TextKind) : List ResponseEvent :=
    moreEvents kind (kind.itemId runtime outputIndex) outputIndex [] (textPieces kind streamed)
  match streamed.start with
  | .text _ => ofKind .message
  | .thinking _ _ => ofKind .reasoning
  | .toolUse callId name _ =>
    addedEvent runtime declared outputIndex callId name ::
      argumentEvents runtime declared outputIndex name streamed.deltas
  | _ => []

theorem snapshotOutput_reserved {translator' : ResponsesStreamTranslator}
    (h : translator'.output = translator.output ++ [none]) :
    translator'.snapshotOutput = translator.snapshotOutput := by
  rw [snapshotOutput, h, List.filterMap_append]
  exact List.append_nil _

theorem snapshotOutput_withText (kind : TextKind) (pieces : List (List Char)) :
    (withText runtime translator idx kind pieces).snapshotOutput = translator.snapshotOutput := by
  cases pieces with
  | nil => rfl
  | cons piece pieces => exact snapshotOutput_reserved rfl

theorem steps_opened (h : Between translator) (streamed : Streamed) :
    ∃ translator', Steps runtime translator ((streamed.opened idx).map .event) translator'
        (openedEvents runtime translator.declared translator.output.length streamed) ∧
      Running translator' ∧ translator'.snapshotOutput = translator.snapshotOutput := by
  rw [openedEvents]
  have hskip (hstart : (∃ data, streamed.start = .redactedThinking data) ∨
      ∃ type, streamed.start = .serverTool type) :=
    @steps_opened_skip runtime translator idx streamed h (blockStart_skip h hstart)
  cases hstart : streamed.start with
  | text text =>
    have hkind : TextKind.message.Starts streamed.start := by rw [hstart]; trivial
    exact ⟨_, steps_opened_text h hkind, h.toRunning.withText _ _, snapshotOutput_withText _ _⟩
  | thinking thinking signature =>
    have hkind : TextKind.reasoning.Starts streamed.start := by rw [hstart]; trivial
    exact ⟨_, steps_opened_text h hkind, h.toRunning.withText _ _, snapshotOutput_withText _ _⟩
  | toolUse callId name input =>
    exact ⟨_, steps_opened_tool h hstart, h.toRunning.withTool _ _ _ _ _,
      snapshotOutput_reserved rfl⟩
  | redactedThinking data => exact ⟨_, hskip (.inl ⟨data, hstart⟩), ⟨h.started, h.finished⟩, rfl⟩
  | serverTool type => exact ⟨_, hskip (.inr ⟨type, hstart⟩), ⟨h.started, h.finished⟩, rfl⟩

theorem opened_moreEvents (kind : TextKind) (streamed : Streamed) {text : List Char}
    (htext : nonEmpty (kind.ofBlock streamed.start ++ streamed.deltas.flatMap kind.ofDelta) =
      some text) :
    Opened outputIndex text (moreEvents kind (kind.itemId runtime outputIndex) outputIndex []
      (textPieces kind streamed)) := by
  have hne : textPieces kind streamed ≠ [] := by
    intro hnil
    rw [← flatten_textPieces_parts, hnil] at htext
    cases htext
  have hflatten : (textPieces kind streamed).flatten = text := by
    rw [← flatten_textPieces_parts, nonEmpty] at htext
    split_ifs at htext
    exact Option.some.inj htext
  rw [moreEvents, if_neg hne, if_pos rfl, ← hflatten]
  refine opened_of_parts ?_ ?_ _
  · cases kind <;> exact ⟨rfl, rfl⟩
  · intro piece
    cases kind <;> exact ⟨rfl, rfl⟩

theorem moreEvents_eq_nil (kind : TextKind) (streamed : Streamed) (id : List Char)
    (htext : nonEmpty (kind.ofBlock streamed.start ++ streamed.deltas.flatMap kind.ofDelta) =
      none) :
    moreEvents kind id outputIndex [] (textPieces kind streamed) = [] := by
  rw [← flatten_textPieces_parts, nonEmpty] at htext
  split_ifs at htext with hflatten
  exact if_pos ((textPieces_eq_nil kind streamed).mpr hflatten)

theorem opened_tool (callId name : List Char) (deltas : List Delta) :
    Opened outputIndex (if declared.isCustom name then [] else deltas.flatMap partialJson)
      (addedEvent runtime declared outputIndex callId name ::
        argumentEvents runtime declared outputIndex name deltas) := by
  rw [argumentEvents]
  by_cases hcustom : declared.isCustom name = true
  · rw [if_pos hcustom, if_pos hcustom]
    exact ⟨rfl, rfl, List.forall_mem_nil _⟩
  · rw [if_neg hcustom, if_neg hcustom, ← flatten_flatMap_nonEmpty]
    exact @opened_of_parts _ _ [addedEvent runtime declared outputIndex callId name] ⟨rfl, rfl⟩
      (fun _ => ⟨rfl, rfl⟩) _

theorem opened_openedEvents (streamed : Streamed) :
    match openText? declared (parts streamed) with
    | none => openedEvents runtime declared outputIndex streamed = []
    | some text => Opened outputIndex text (openedEvents runtime declared outputIndex streamed) := by
  have hkind (kind : TextKind) :
      match nonEmpty (kind.ofBlock streamed.start ++ streamed.deltas.flatMap kind.ofDelta) with
      | none => moreEvents kind (kind.itemId runtime outputIndex) outputIndex []
          (textPieces kind streamed) = []
      | some text => Opened outputIndex text (moreEvents kind (kind.itemId runtime outputIndex)
          outputIndex [] (textPieces kind streamed)) := by
    split
    next htext => exact moreEvents_eq_nil kind streamed _ htext
    next text htext => exact opened_moreEvents kind streamed htext
  rw [openedEvents, parts]
  cases hstart : streamed.start with
  | text text =>
    have hmessage := hkind .message
    rw [hstart] at hmessage
    exact hmessage
  | thinking thinking signature =>
    have hreasoning := hkind .reasoning
    rw [hstart] at hreasoning
    exact hreasoning
  | toolUse callId name input => exact opened_tool callId name _
  | redactedThinking data => rfl
  | serverTool type => rfl

theorem keepsOutput_congr {events events' : List ResponseEvent} {output : List Item}
    (hadded : events.filterMap addedIndex? = events'.filterMap addedIndex?)
    (hdelta : events.filterMap delta? = events'.filterMap delta?) :
    KeepsOutput events output ↔ KeepsOutput events' output := by
  have hdeltas (outputIndex : ℕ) : deltasOf outputIndex events = deltasOf outputIndex events' := by
    rw [deltasOf, deltasOf, hdelta]
  rw [KeepsOutput, KeepsOutput, hadded]
  simp only [hdeltas]

theorem delta_lt_of_mem_streamEvents (blocks : List Streamed) :
    ∀ delta ∈ (streamEvents runtime declared outputIndex blocks).filterMap delta?,
      delta.1 < outputIndex + (streamItems runtime declared outputIndex blocks).length := by
  induction blocks generalizing outputIndex with
  | nil => nofun
  | cons streamed blocks ih =>
    intro delta hmem
    rw [streamEvents, List.filterMap_append] at hmem
    rw [streamItems, List.length_append, ← Nat.add_assoc]
    rcases List.mem_append.mp hmem with hfirst | hrest
    · rcases @ladder_block runtime declared outputIndex streamed with
        ⟨-, hevents⟩ | ⟨item, hitems, hladder⟩
      · rw [hevents] at hfirst
        cases hfirst
      · rw [hladder.deltaIndexes delta hfirst, hitems]
        exact Nat.lt_of_lt_of_le (Nat.lt_succ_self _) (Nat.le_add_right _ _)
    · exact ih delta hrest

theorem Ladders.added_lt {items : List Item} {events : List ResponseEvent}
    (h : Ladders 0 items events) {outputIndex : ℕ}
    (hmem : outputIndex ∈ events.filterMap addedIndex?) : outputIndex < items.length := by
  rw [h.added] at hmem
  have hrange := (List.mem_range'_1.mp hmem).2
  rwa [Nat.zero_add] at hrange

theorem Ladders.keepsOutput {items : List Item} {events : List ResponseEvent}
    (h : Ladders 0 items events) : KeepsOutput events items := by
  intro outputIndex hmem
  have hlt := h.added_lt hmem
  have hentry : (items[outputIndex], outputIndex) ∈ items.zipIdx 0 :=
    List.mk_mem_zipIdx_iff_getElem?.mpr (List.getElem?_eq_getElem hlt)
  rw [h.deltas _ hentry]
  exact ⟨_, List.getElem_mem hlt, List.prefix_rfl⟩

theorem Ladders.keepsOutput_opened {items : List Item} {events opened : List ResponseEvent}
    {text : List Char} (h : Ladders 0 items events) (hopened : Opened items.length text opened)
    (hbelow : ∀ delta ∈ events.filterMap delta?, delta.1 < items.length) :
    KeepsOutput (events ++ opened) items ↔ ∃ item ∈ items, text <+: item.text := by
  have hclosed {outputIndex : ℕ} (hlt : outputIndex < items.length) :
      deltasOf outputIndex (events ++ opened) = deltasOf outputIndex events := by
    rw [deltasOf_append, @deltasOf_eq_nil outputIndex opened, List.append_nil]
    intro delta hmem
    rw [hopened.deltaIndexes delta hmem]
    exact Nat.ne_of_gt hlt
  have hcurrent : deltasOf items.length (events ++ opened) = text := by
    rw [deltasOf_append, hopened.deltas,
      deltasOf_eq_nil fun delta hmem => Nat.ne_of_lt (hbelow delta hmem), List.nil_append]
  refine ⟨fun hkeeps => ?_, fun hcovered outputIndex hmem => ?_⟩
  · have hkept := hkeeps items.length (by
      rw [List.filterMap_append, hopened.added]
      exact List.mem_append_right _ (List.mem_singleton_self _))
    rwa [hcurrent] at hkept
  · rw [List.filterMap_append, hopened.added] at hmem
    rcases List.mem_append.mp hmem with hmem | hmem
    · rw [hclosed (h.added_lt hmem)]
      exact h.keepsOutput outputIndex hmem
    · rw [List.mem_singleton.mp hmem, hcurrent]
      exact hcovered

theorem keepsOutput_iff (closed : List Streamed) (current : Option Streamed) :
    let items := streamItems runtime declared 0 closed
    KeepsOutput (streamEvents runtime declared 0 closed ++
        current.elim [] (openedEvents runtime declared items.length)) items ↔
      Progress.Covered runtime declared ⟨closed.map parts, current.map parts⟩ := by
  dsimp only
  have hladders := @ladders_stream runtime declared 0 closed
  rw [Progress.Covered, ← @text_streamItems runtime declared 0]
  dsimp only
  cases current with
  | none =>
    rw [Option.elim_none, List.append_nil]
    exact ⟨fun _ => nofun, fun _ => hladders.keepsOutput⟩
  | some streamed =>
    have hopened := @opened_openedEvents runtime declared
      (streamItems runtime declared 0 closed).length streamed
    rw [Option.elim_some, Option.map_some, Option.bind_some]
    cases htext : openText? declared (parts streamed) with
    | none =>
      rw [htext] at hopened
      rw [hopened, List.append_nil]
      exact ⟨fun _ => nofun, fun _ => hladders.keepsOutput⟩
    | some text =>
      rw [htext] at hopened
      have hbelow := @delta_lt_of_mem_streamEvents runtime declared 0 closed
      rw [Nat.zero_add] at hbelow
      rw [hladders.keepsOutput_opened hopened hbelow]
      simp

theorem steps_progressEvents (h : Between translator) (hnil : translator.output = [])
    (closed : List Streamed) (current : Option Streamed) :
    let items := streamItems runtime translator.declared 0 closed
    ∃ translator', Steps runtime translator ((progressEvents 0 closed current).map .event)
        translator' (streamEvents runtime translator.declared 0 closed ++
          current.elim [] (openedEvents runtime translator.declared items.length)) ∧
      Running translator' ∧ translator'.snapshotOutput = items := by
  intro items
  let events := streamEvents runtime translator.declared 0 closed
  have hclosed : Steps runtime translator ((streamFrom 0 closed).map .event)
      (after translator items events) events := by
    have hsteps := @steps_streamFrom runtime translator 0 h closed
    rwa [hnil] at hsteps
  have hbetween := h.after items events
  have hsnapshot : (after translator items events).snapshotOutput = items := by
    rw [snapshotOutput, after, hnil, List.nil_append, List.filterMap_map]
    exact List.filterMap_some
  rw [progressEvents, List.map_append]
  cases current with
  | none => exact ⟨_, hclosed.trans (.refl _ _), hbetween.toRunning, hsnapshot⟩
  | some streamed =>
    obtain ⟨translator', hsteps, hrunning, hkept⟩ :=
      @steps_opened runtime _ (0 + closed.length) hbetween streamed
    have hlength : (after translator items events).output.length = items.length := by
      rw [after, hnil, List.nil_append, List.length_map]
    rw [hlength] at hsteps
    exact ⟨translator', hclosed.trans hsteps, hrunning, hkept.trans hsnapshot⟩

/-- The run up to a cut keeps what was put out, unless the open item is lost. -/
theorem steps_sent {stream : StreamedMessage} {sent : List Event} (h : sent <+: stream.events)
    (hstop : .messageStop ∉ sent) (shell : ResponseShell) :
    ∃ translator events, Steps runtime (new shell declared) (sent.map .event) translator events ∧
      translator.finished = false ∧
      (KeepsOutput events translator.snapshotOutput ↔
        (Progress.of (sent.map .event)).Covered runtime declared) := by
  let start := (new shell declared).messageStart runtime stream.id stream.model stream.startUsage
  let startEvent : Event := .messageStart stream.id stream.model stream.startUsage
  let response := start.1.shell.object .inProgress [] none none none
  have hbetween : Between start.1 := ⟨⟨rfl, rfl⟩, rfl, rfl⟩
  have hstart : Steps runtime (new shell declared) [.event startEvent] start.1
      [.created response, .inProgress response] := .single rfl rfl
  have hblocks (closed : List Streamed) (current : Option Streamed) :
      ∃ translator events,
        Steps runtime (new shell declared)
          ((startEvent :: progressEvents 0 closed current).map .event) translator events ∧
        Running translator ∧
        (KeepsOutput events translator.snapshotOutput ↔
          Progress.Covered runtime declared ⟨closed.map parts, current.map parts⟩) := by
    obtain ⟨translator, hsteps, hrunning, hsnapshot⟩ :=
      @steps_progressEvents runtime start.1 hbetween rfl closed current
    refine ⟨translator, _, hstart.trans hsteps, hrunning, ?_⟩
    rw [hsnapshot]
    exact (keepsOutput_congr rfl rfl).trans (keepsOutput_iff closed current)
  rcases prefix_events h hstop with rfl | ⟨closed, current, rfl⟩ | rfl
  · exact ⟨_, [], .refl _ _, rfl, fun _ => nofun, fun _ => nofun⟩
  · obtain ⟨translator, events, hsteps, hrunning, hkeeps⟩ := hblocks closed current
    rw [of_progressEvents _ _ _ rfl]
    exact ⟨translator, events, hsteps, hrunning.finished, hkeeps⟩
  · obtain ⟨translator, events, hsteps, hrunning, hkeeps⟩ := hblocks stream.blocks none
    let ending : ResponsesStreamTranslator :=
      { translator with
        usage := translator.usage.merge stream.deltaUsage
        stopReason := stream.stopReason.or translator.stopReason }
    have hdelta : Steps runtime translator
        [.event (.messageDelta stream.stopReason stream.deltaUsage)] ending [] :=
      .silent (hrunning.onEvent _) rfl
    have hall := hsteps.trans hdelta
    have hprogress := of_progressEvents startEvent stream.blocks none rfl
    rw [progressEvents, Option.elim_none, List.append_nil] at hall hprogress
    rw [List.append_nil] at hall
    rw [← List.cons_append, List.map_append]
    refine ⟨ending, events, hall, hrunning.finished, ?_⟩
    rw [Progress.of, List.foldl_append, ← Progress.of, hprogress]
    exact hkeeps

theorem events_numbered (sequence : ℕ) (events : List ResponseEvent) :
    ((numbered sequence events).filterMap Frame.event?).map Prod.snd = events := by
  rw [event?_numbered, List.map_map]
  exact List.zipIdx_map_fst sequence events

theorem frames_cut (hfinished : translator.finished = false) (cut : Cut) :
    ∃ starts response,
      ((cut.frames runtime translator).filterMap Frame.event?).map Prod.snd =
        starts ++ [.failed response] ∧
      starts.filterMap addedIndex? = [] ∧ starts.filterMap delta? = [] ∧
      response.output = translator.snapshotOutput := by
  have hfail (errorType message : List Char) :
      ∃ starts response,
        ((translator.fail errorType message).2.filterMap Frame.event?).map Prod.snd =
          starts ++ [.failed response] ∧
        starts.filterMap addedIndex? = [] ∧ starts.filterMap delta? = [] ∧
        response.output = translator.snapshotOutput := by
    rw [fail, if_neg (Bool.eq_false_iff.mp hfinished)]
    cases hstarted : translator.started with
    | true =>
      rw [ensureStarted, if_pos hstarted]
      exact ⟨[], _, rfl, rfl, rfl, rfl⟩
    | false =>
      rw [ensureStarted, if_neg (Bool.eq_false_iff.mp hstarted)]
      exact ⟨[_, _], _, rfl, rfl, rfl, rfl⟩
  cases cut with
  | ended => exact hfail _ _
  | unreadable message => exact hfail _ _
  | malformed =>
    rw [Cut.frames, onEvent, if_neg (Bool.eq_false_iff.mp hfinished)]
    exact hfail _ _
  | error errorType message =>
    rw [Cut.frames, onEvent, if_neg (Bool.eq_false_iff.mp hfinished)]
    exact hfail _ _

/-- The response that fails keeps what was put out if and only if the open block has not announced
its item, or another item begins with what it has brought. -/
theorem failureKeepsOutput_iff (runtime : Runtime) (shell : ResponseShell)
    (declared : DeclaredTools) (stream : StreamedMessage) {messages : List SseMessage}
    {sent : List Event}
    (hmessages : (messages.filter fun message => !message.isSilent) = sent.map .event)
    (hsent : sent <+: stream.events) (hstop : .messageStop ∉ sent) (cut : Cut) :
    FailureKeepsOutput (cutStream runtime shell declared messages cut) ↔
      (Progress.of messages).Covered runtime declared := by
  obtain ⟨translator, events, hsteps, hfinished, hkeeps⟩ :=
    @steps_sent runtime declared stream sent hsent hstop shell
  obtain ⟨hstate, hframes⟩ := run_of_silent (onEvent_silent runtime) (new shell declared) messages
  rw [hmessages, hsteps.run_eq] at hstate hframes
  obtain ⟨starts, response, hcut, hadded, hdelta, houtput⟩ :=
    @frames_cut runtime translator hfinished cut
  have hall : ((cutStream runtime shell declared messages cut).filterMap Frame.event?).map Prod.snd =
      (events ++ starts) ++ [.failed response] := by
    rw [cutStream]
    dsimp only
    rw [← hstate, List.filterMap_append, ← filterMap_filter_isKeepalive, ← hframes,
      filterMap_filter_isKeepalive, List.map_append, hcut, events_numbered, List.append_assoc]
  rw [← of_filter_isSilent, hmessages, ← hkeeps, ← houtput]
  have hstarts : KeepsOutput (events ++ starts) response.output ↔
      KeepsOutput events response.output := by
    refine keepsOutput_congr ?_ ?_
    · rw [List.filterMap_append, hadded, List.append_nil]
    · rw [List.filterMap_append, hdelta, List.append_nil]
  rw [← hstarts, FailureKeepsOutput, hall]
  refine ⟨?_, fun h => ⟨_, response, rfl, h⟩⟩
  rintro ⟨before, response', heq, h⟩
  obtain ⟨rfl, hresponse⟩ := List.append_inj' heq rfl
  cases hresponse
  exact h

/-- A call of a custom tool is open, and its input has not come yet. -/
theorem failureKeepsOutput_custom :
    FailureKeepsOutput (cutStream shellRuntime requestShell ⟨["shell".toList], []⟩
      (.event .ping :: ((shellStream [greeting, shellCall]).events.take 8).map .event) .ended) := by
  refine (failureKeepsOutput_iff shellRuntime requestShell ⟨["shell".toList], []⟩
    (shellStream [greeting, shellCall]) rfl (List.take_prefix 8 _) ?_ .ended).mpr ?_
  · simp [StreamedMessage.events, shellStream, streamFrom, Streamed.events, greeting, shellCall]
  · decide

/-- A text that is open at the cut is lost. -/
theorem not_failureKeepsOutput_text :
    ∃ sent, sent <+: (shellStream [greeting]).events ∧ .messageStop ∉ sent ∧
      .contentBlockDelta 0 (.textDelta "Let me".toList) ∈ sent ∧
      ∀ cut, ¬ FailureKeepsOutput
        (cutStream shellRuntime requestShell ⟨[], []⟩ (sent.map .event) cut) := by
  refine ⟨(shellStream [greeting]).events.take 3, List.take_prefix 3 _, ?_, ?_, ?_⟩
  · simp [StreamedMessage.events, shellStream, streamFrom, Streamed.events, greeting]
  · exact List.mem_cons_of_mem _ (List.mem_cons_of_mem _ List.mem_cons_self)
  · intro cut hfailure
    obtain ⟨before, response, hevents, hkeeps⟩ := hfailure
    obtain ⟨before', response', hcut, hadded, houtput⟩ : ∃ before response,
        ((cutStream shellRuntime requestShell ⟨[], []⟩
          (((shellStream [greeting]).events.take 3).map .event) cut).filterMap
            Frame.event?).map Prod.snd = before ++ [.failed response] ∧
          before.filterMap addedIndex? = [0] ∧ response.output = [] := by
      cases cut <;> exact ⟨[_, _, _, _, _], _, rfl, rfl, rfl⟩
    obtain ⟨rfl, hresponse⟩ := List.append_inj' (hevents.symm.trans hcut) rfl
    cases hresponse
    obtain ⟨item, hmem, -⟩ := hkeeps 0 (hadded ▸ List.mem_singleton_self 0)
    rw [houtput] at hmem
    cases hmem

end KiroProxy.OpenAI.Responses
