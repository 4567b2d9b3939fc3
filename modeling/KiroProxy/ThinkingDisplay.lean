import KiroProxy.Json
import KiroProxy.KeyedList
import KiroProxy.Transducer

/-!
# Hidden thinking

Where thinking is not displayed, its text is stripped from the events while the blocks and their
signatures stay, and a client that has asked for it is told about how many tokens each block hides.
The token count of a text is a parameter; instants and durations count nanoseconds.

`run_alike` compares two runs whose events differ in the hidden texts only.
`estimates_of_block` bounds what a block reports by what it hides.
-/

namespace KiroProxy.ThinkingDisplay
open Transducer

def estimateQuantumTokens : ℕ := 50

def estimateMinInterval : ℕ := 500 * 10 ^ 6

def u64Max : ℕ := 2 ^ 64 - 1

structure SseEvent where
  event : String
  data : Json

structure HiddenBlock where
  seenTokens : ℕ
  reportedTokens : ℕ
  lastReportAt : Option ℕ
  sentEmptyDelta : Bool
  deriving DecidableEq, Repr

def HiddenBlock.new : HiddenBlock := ⟨0, 0, none, false⟩

structure OmittedThinkingFilter where
  reportTokenEstimates : Bool
  blocks : List (ℤ × HiddenBlock)
  deriving DecidableEq, Repr

def OmittedThinkingFilter.new (reportTokenEstimates : Bool) : OmittedThinkingFilter :=
  ⟨reportTokenEstimates, []⟩

def asI64 : Json → Option ℤ
  | .int n => if -2 ^ 63 ≤ n ∧ n < 2 ^ 63 then some n else none
  | _ => none

def asU64 : Json → Option ℕ
  | .int n => if 0 ≤ n ∧ n < 2 ^ 64 then some n.toNat else none
  | _ => none

/-- The product wraps. -/
def closingIncrement (pending : ℕ) : ℕ :=
  (pending + estimateQuantumTokens - 1) / estimateQuantumTokens * estimateQuantumTokens % 2 ^ 64

def dueEstimate (block : HiddenBlock) (now : ℕ) (closing : Bool) : Option ℕ × HiddenBlock :=
  let pending := block.seenTokens - block.reportedTokens
  if !closing && block.lastReportAt.any fun at' => now - at' < estimateMinInterval then
    (none, block)
  else
    let increment :=
      if closing then closingIncrement pending
      else pending / estimateQuantumTokens * estimateQuantumTokens
    if increment = 0 then (none, block)
    else
      (some increment, { block with
        reportedTokens := min (block.reportedTokens + increment) u64Max
        lastReportAt := some now })

/-- The fields are in key order. -/
def emptyThinkingDelta (index : ℤ) (estimatedTokens : Option ℕ) : SseEvent where
  event := "content_block_delta"
  data := .obj [
    ("delta", .obj ((estimatedTokens.toList.map fun tokens =>
        ("estimated_tokens", Json.int tokens)) ++
      [("thinking", .str ""), ("type", .str "thinking_delta")])),
    ("index", .int index),
    ("type", .str "content_block_delta")]

def SseEvent.index (event : SseEvent) : Option ℤ := asI64 (event.data.index "index")

/-- The events that the filter tells apart. -/
inductive EventKind where
  | thinkingStart
  | thinkingDelta
  | signatureDelta
  | stop
  | other
  deriving DecidableEq, Repr

def SseEvent.kind (event : SseEvent) : EventKind :=
  if event.event = "content_block_start" then
    if ((event.data.index "content_block").index "type").asStr = some "thinking" then
      .thinkingStart
    else .other
  else if event.event = "content_block_delta" then
    if ((event.data.index "delta").index "type").asStr = some "thinking_delta" then .thinkingDelta
    else if ((event.data.index "delta").index "type").asStr = some "signature_delta" then
      .signatureDelta
    else .other
  else if event.event = "content_block_stop" then .stop
  else .other

def SseEvent.thinking (event : SseEvent) : String :=
  (((event.data.index "delta").index "thinking").asStr).getD ""

/-- The event with an empty thinking text under the given field. -/
def SseEvent.omitThinking (event : SseEvent) (field : String) : SseEvent :=
  { event with
    data := event.data.setIndex field ((event.data.index field).setIndex "thinking" (.str "")) }

namespace OmittedThinkingFilter

def startBlock (filter : OmittedThinkingFilter) : Option ℤ → OmittedThinkingFilter
  | none => filter
  | some index => { filter with blocks := KeyedList.insert index .new filter.blocks }

def block? (filter : OmittedThinkingFilter) (index : Option ℤ) : Option (ℤ × HiddenBlock) :=
  index.bind fun index => (KeyedList.get index filter.blocks).map fun block => (index, block)

def estimate (filter : OmittedThinkingFilter) (block : HiddenBlock) (now : ℕ) (closing : Bool) :
    Option ℕ × HiddenBlock :=
  if filter.reportTokenEstimates then dueEstimate block now closing else (none, block)

def send (filter : OmittedThinkingFilter) (index : ℤ) (estimate : Option ℕ) (block : HiddenBlock) :
    OmittedThinkingFilter × List SseEvent :=
  if estimate ≠ none ∨ block.sentEmptyDelta = false then
    ({ filter with
        blocks := KeyedList.insert index { block with sentEmptyDelta := true } filter.blocks },
      [emptyThinkingDelta index estimate])
  else ({ filter with blocks := KeyedList.insert index block filter.blocks }, [])

end OmittedThinkingFilter

def HiddenBlock.see (block : HiddenBlock) (tokens : ℕ) : HiddenBlock :=
  { block with seenTokens := min (block.seenTokens + tokens) u64Max }

variable (countTokens : String → ℕ)

def applyEvent (filter : OmittedThinkingFilter) (timed : ℕ × SseEvent) :
    OmittedThinkingFilter × List SseEvent :=
  let (now, event) := timed
  match event.kind with
  | .thinkingStart => (filter.startBlock event.index, [event.omitThinking "content_block"])
  | .thinkingDelta =>
    match filter.block? event.index with
    | none => (filter, [])
    | some (index, block) =>
      let (estimate, block) := filter.estimate (block.see (countTokens event.thinking)) now false
      filter.send index estimate block
  | .signatureDelta =>
    match filter.block? event.index with
    | none => (filter, [event])
    | some (index, block) =>
      let (estimate, block) := filter.estimate block now true
      let (filter, out) := filter.send index estimate block
      (filter, out ++ [event])
  | .stop =>
    match filter.block? event.index with
    | none => (filter, [event])
    | some (index, block) =>
      ({ filter with blocks := KeyedList.remove index filter.blocks },
        ((filter.estimate block now true).1.toList.map fun estimate =>
          emptyThinkingDelta index (some estimate)) ++ [event])
  | .other => (filter, [event])

/-- One call, whose events share the clock. -/
def applyAt (filter : OmittedThinkingFilter) (events : List SseEvent) (now : ℕ) :
    OmittedThinkingFilter × List SseEvent :=
  run (applyEvent countTokens) filter (events.map fun event => (now, event))

/-- Calls one after the other. -/
def applyCalls (filter : OmittedThinkingFilter) (calls : List (ℕ × List SseEvent)) :
    OmittedThinkingFilter × List SseEvent :=
  run (fun filter call => applyAt countTokens filter call.2 call.1) filter calls

def timeline (calls : List (ℕ × List SseEvent)) : List (ℕ × SseEvent) :=
  calls.flatMap fun call => call.2.map fun event => (call.1, event)

theorem applyCalls_eq (filter : OmittedThinkingFilter) (calls : List (ℕ × List SseEvent)) :
    applyCalls countTokens filter calls =
      run (applyEvent countTokens) filter (timeline calls) := by
  induction calls generalizing filter with
  | nil => rfl
  | cons call calls ih =>
    rw [timeline, List.flatMap_cons, run_append]
    exact congrArg₂ Prod.mk (congrArg Prod.fst (ih _)) (congrArg (_ ++ ·) (congrArg Prod.snd (ih _)))

def SseEvent.blank (event : SseEvent) : SseEvent :=
  match event.kind with
  | .thinkingStart => event.omitThinking "content_block"
  | .thinkingDelta => event.omitThinking "delta"
  | _ => event

theorem index_omitThinking {field : String} (h : field ≠ "index") (event : SseEvent) :
    (event.omitThinking field).index = event.index := by
  rw [SseEvent.index, SseEvent.omitThinking, Json.index_setIndex_of_ne h.symm, SseEvent.index]

variable {event : SseEvent}

theorem type_omitThinking {field : String}
    (h : ((event.data.index field).index "type").asStr ≠ none) :
    ((event.omitThinking field).data.index field).index "type" =
      (event.data.index field).index "type" := by
  have htype : (event.data.index field).index "type" ≠ .null := by
    intro hnull
    rw [hnull] at h
    exact h rfl
  have hobject := Json.isObject_of_index htype
  have hdata : event.data.index field ≠ .null := by
    intro hnull
    rw [hnull] at hobject
    cases hobject
  rw [SseEvent.omitThinking, Json.index_setIndex_self (Json.isObject_of_index hdata),
    Json.index_setIndex_of_ne (by decide)]

theorem kind_eq_thinkingStart : event.kind = .thinkingStart ↔
    event.event = "content_block_start" ∧
      ((event.data.index "content_block").index "type").asStr = some "thinking" := by
  unfold SseEvent.kind
  split_ifs <;> simp_all

theorem kind_eq_thinkingDelta : event.kind = .thinkingDelta ↔
    event.event = "content_block_delta" ∧
      ((event.data.index "delta").index "type").asStr = some "thinking_delta" := by
  unfold SseEvent.kind
  split_ifs <;> simp_all

theorem kind_blank (event : SseEvent) : event.blank.kind = event.kind := by
  unfold SseEvent.blank
  cases hkind : event.kind with
  | thinkingStart =>
    obtain ⟨hevent, htype⟩ := kind_eq_thinkingStart.mp hkind
    refine kind_eq_thinkingStart.mpr ⟨hevent, ?_⟩
    rw [type_omitThinking (by simp [htype]), htype]
  | thinkingDelta =>
    obtain ⟨hevent, htype⟩ := kind_eq_thinkingDelta.mp hkind
    refine kind_eq_thinkingDelta.mpr ⟨hevent, ?_⟩
    rw [type_omitThinking (by simp [htype]), htype]
  | _ => exact hkind

theorem index_blank (event : SseEvent) : event.blank.index = event.index := by
  unfold SseEvent.blank
  cases event.kind with
  | thinkingStart => exact index_omitThinking (by decide) event
  | thinkingDelta => exact index_omitThinking (by decide) event
  | _ => rfl

theorem blank_of_kind (hstart : event.kind ≠ .thinkingStart)
    (hdelta : event.kind ≠ .thinkingDelta) : event.blank = event := by
  unfold SseEvent.blank
  cases hkind : event.kind with
  | thinkingStart => exact absurd hkind hstart
  | thinkingDelta => exact absurd hkind hdelta
  | _ => rfl

theorem blank_of_start (h : event.kind = .thinkingStart) :
    event.blank = event.omitThinking "content_block" := by
  unfold SseEvent.blank
  rw [h]

/-- Events that differ in the hidden text only are of one kind and one block. -/
theorem kind_eq_and_index_eq_of_blank_eq {event event' : SseEvent}
    (h : event.blank = event'.blank) : event.kind = event'.kind ∧ event.index = event'.index := by
  constructor
  · rw [← kind_blank event, h, kind_blank]
  · rw [← index_blank event, h, index_blank]

theorem lt_of_index {index : ℤ} (h : event.index = some index) :
    -2 ^ 63 ≤ index ∧ index < 2 ^ 63 := by
  unfold SseEvent.index asI64 at h
  split at h
  · split_ifs at h with hrange
    obtain rfl := Option.some.inj h
    exact hrange
  · cases h

def SseEvent.estimatedTokens (event : SseEvent) : Option ℕ :=
  asU64 ((event.data.index "delta").index "estimated_tokens")

theorem kind_emptyThinkingDelta (index : ℤ) (estimate : Option ℕ) :
    (emptyThinkingDelta index estimate).kind = .thinkingDelta := by
  cases estimate with
  | none => rfl
  | some tokens => rfl

theorem index_emptyThinkingDelta {index : ℤ} (h : -2 ^ 63 ≤ index ∧ index < 2 ^ 63)
    (estimate : Option ℕ) : (emptyThinkingDelta index estimate).index = some index := if_pos h

theorem thinking_emptyThinkingDelta (index : ℤ) (estimate : Option ℕ) :
    (emptyThinkingDelta index estimate).thinking = "" := by
  cases estimate with
  | none => rfl
  | some tokens => rfl

theorem estimatedTokens_emptyThinkingDelta (index : ℤ) {estimate : Option ℕ}
    (h : ∀ tokens ∈ estimate, tokens ≤ u64Max) :
    (emptyThinkingDelta index estimate).estimatedTokens = estimate := by
  cases estimate with
  | none => rfl
  | some tokens =>
    have hle := h tokens rfl
    unfold u64Max at hle
    have hfield : ((emptyThinkingDelta index (some tokens)).data.index "delta").index
        "estimated_tokens" = .int tokens := rfl
    rw [SseEvent.estimatedTokens, hfield, asU64, if_pos (by omega), Int.toNat_natCast]

def SseEvent.tokens (event : SseEvent) : ℕ :=
  if event.kind = .thinkingDelta then countTokens event.thinking else 0

variable {countTokens}

theorem applyEvent_congr {event event' : SseEvent} (hblank : event.blank = event'.blank)
    (htokens : event.tokens countTokens = event'.tokens countTokens)
    (filter : OmittedThinkingFilter) (now : ℕ) :
    applyEvent countTokens filter (now, event) = applyEvent countTokens filter (now, event') := by
  obtain ⟨hkind, hindex⟩ := kind_eq_and_index_eq_of_blank_eq hblank
  unfold SseEvent.blank at hblank
  unfold SseEvent.tokens at htokens
  unfold applyEvent
  dsimp only
  rw [← hkind] at hblank htokens ⊢
  rw [← hindex]
  cases hcase : event.kind with
  | thinkingStart =>
    rw [hcase] at hblank
    rw [show event.omitThinking _ = event'.omitThinking _ from hblank]
  | thinkingDelta =>
    rw [hcase, if_pos rfl, if_pos rfl] at htokens
    rw [htokens]
  | _ =>
    rw [hcase] at hblank
    rw [show event = event' from hblank]

/-- The states agree but for the tokens that were seen, and nothing is reported. -/
structure Alike (filter filter' : OmittedThinkingFilter) : Prop where
  silent : filter.reportTokenEstimates = false
  silent' : filter'.reportTokenEstimates = false
  blocks : ∀ index, (KeyedList.get index filter.blocks).map (HiddenBlock.sentEmptyDelta) =
    (KeyedList.get index filter'.blocks).map HiddenBlock.sentEmptyDelta

variable {filter filter' : OmittedThinkingFilter}

theorem Alike.insert (h : Alike filter filter') (index : ℤ) {block block' : HiddenBlock}
    (hblock : block.sentEmptyDelta = block'.sentEmptyDelta) :
    Alike { filter with blocks := KeyedList.insert index block filter.blocks }
      { filter' with blocks := KeyedList.insert index block' filter'.blocks } := by
  refine ⟨h.silent, h.silent', fun other => ?_⟩
  by_cases heq : other = index
  · subst heq
    simp only [KeyedList.get_insert_self, Option.map_some, hblock]
  · simp only [KeyedList.get_insert_of_ne heq, h.blocks other]

theorem Alike.remove (h : Alike filter filter') (index : ℤ) :
    Alike { filter with blocks := KeyedList.remove index filter.blocks }
      { filter' with blocks := KeyedList.remove index filter'.blocks } := by
  refine ⟨h.silent, h.silent', fun other => ?_⟩
  by_cases heq : other = index
  · subst heq
    simp only [KeyedList.get_remove_self]
  · simp only [KeyedList.get_remove_of_ne heq, h.blocks other]

theorem Alike.startBlock (h : Alike filter filter') (index : Option ℤ) :
    Alike (filter.startBlock index) (filter'.startBlock index) := by
  cases index with
  | none => exact h
  | some index => exact h.insert index rfl

theorem Alike.send (h : Alike filter filter') (index : ℤ) {block block' : HiddenBlock}
    (hblock : block.sentEmptyDelta = block'.sentEmptyDelta) :
    (filter.send index none block).2 = (filter'.send index none block').2 ∧
      Alike (filter.send index none block).1 (filter'.send index none block').1 := by
  unfold OmittedThinkingFilter.send
  rw [← hblock]
  split_ifs
  · exact ⟨rfl, h.insert index rfl⟩
  · exact ⟨rfl, h.insert index hblock⟩

theorem Alike.block? (h : Alike filter filter') (index : Option ℤ) :
    (filter.block? index = none ∧ filter'.block? index = none) ∨
    ∃ i block block', filter.block? index = some (i, block) ∧
      filter'.block? index = some (i, block') ∧ block.sentEmptyDelta = block'.sentEmptyDelta := by
  cases index with
  | none => exact .inl ⟨rfl, rfl⟩
  | some i =>
    have hblocks := h.blocks i
    unfold OmittedThinkingFilter.block?
    rw [Option.bind_some, Option.bind_some]
    cases hget : KeyedList.get i filter.blocks with
    | none =>
      rw [hget] at hblocks
      rw [Option.map_eq_none_iff.mp hblocks.symm]
      exact .inl ⟨rfl, rfl⟩
    | some block =>
      rw [hget] at hblocks
      obtain ⟨block', hget', hsent⟩ := Option.map_eq_some_iff.mp hblocks.symm
      rw [hget']
      exact .inr ⟨i, block, block', rfl, rfl, hsent.symm⟩

theorem Alike.applyEvent (h : Alike filter filter') {event event' : SseEvent}
    (hblank : event.blank = event'.blank) (now : ℕ) :
    (applyEvent countTokens filter (now, event)).2 =
        (applyEvent countTokens filter' (now, event')).2 ∧
      Alike (applyEvent countTokens filter (now, event)).1
        (applyEvent countTokens filter' (now, event')).1 := by
  obtain ⟨hkind, hindex⟩ := kind_eq_and_index_eq_of_blank_eq hblank
  have hestimate (block : HiddenBlock) (closing : Bool) :
      filter.estimate block now closing = (none, block) ∧
        filter'.estimate block now closing = (none, block) := by
    simp [OmittedThinkingFilter.estimate, h.silent, h.silent']
  unfold SseEvent.blank at hblank
  unfold ThinkingDisplay.applyEvent
  dsimp only
  rw [← hkind] at hblank ⊢
  rw [← hindex]
  cases hcase : event.kind with
  | thinkingStart =>
    rw [hcase] at hblank
    exact ⟨congrArg (fun event => [event]) hblank, h.startBlock event.index⟩
  | thinkingDelta =>
    rcases h.block? event.index with ⟨hnone, hnone'⟩ | ⟨i, block, block', hsome, hsome', hsent⟩
    · rw [hnone, hnone']
      exact ⟨rfl, h⟩
    · rw [hsome, hsome']
      dsimp only
      rw [(hestimate _ _).1, (hestimate _ _).2]
      exact h.send i hsent
  | signatureDelta =>
    rw [hcase] at hblank
    obtain rfl : event = event' := hblank
    rcases h.block? event.index with ⟨hnone, hnone'⟩ | ⟨i, block, block', hsome, hsome', hsent⟩
    · rw [hnone, hnone']
      exact ⟨rfl, h⟩
    · rw [hsome, hsome']
      dsimp only
      rw [(hestimate _ _).1, (hestimate _ _).2]
      obtain ⟨hout, hnext⟩ := h.send i hsent
      exact ⟨congrArg (· ++ [event]) hout, hnext⟩
  | stop =>
    rw [hcase] at hblank
    obtain rfl : event = event' := hblank
    rcases h.block? event.index with ⟨hnone, hnone'⟩ | ⟨i, block, block', hsome, hsome', hsent⟩
    · rw [hnone, hnone']
      exact ⟨rfl, h⟩
    · rw [hsome, hsome']
      dsimp only
      rw [(hestimate _ _).1, (hestimate _ _).2]
      exact ⟨rfl, h.remove i⟩
  | other =>
    rw [hcase] at hblank
    obtain rfl : event = event' := hblank
    exact ⟨rfl, h⟩

def SameButText (timed timed' : ℕ × SseEvent) : Prop :=
  timed.1 = timed'.1 ∧ timed.2.blank = timed'.2.blank

theorem run_alike {report : Bool} {events events' : List (ℕ × SseEvent)}
    (hevents : List.Forall₂ (fun timed timed' => SameButText timed timed' ∧
      (report = true → timed.2.tokens countTokens = timed'.2.tokens countTokens)) events events') :
    (run (applyEvent countTokens) (.new report) events).2 =
      (run (applyEvent countTokens) (.new report) events').2 := by
  cases report with
  | true =>
    refine (run_of_related (R := Eq) ?_ hevents rfl).1
    rintro filter _ ⟨now, event⟩ ⟨now', event'⟩ rfl ⟨⟨hnow, hblank⟩, htokens⟩
    obtain rfl : now = now' := hnow
    rw [applyEvent_congr hblank (htokens rfl)]
    exact ⟨rfl, rfl⟩
  | false =>
    refine (run_of_related (R := Alike) ?_ hevents ⟨rfl, rfl, fun _ => rfl⟩).1
    rintro filter filter' ⟨now, event⟩ ⟨now', event'⟩ h ⟨⟨hnow, hblank⟩, -⟩
    obtain rfl : now = now' := hnow
    exact h.applyEvent hblank now

def passed (events : List SseEvent) : List SseEvent :=
  events.filter fun event => event.kind ≠ .thinkingDelta

theorem passed_append (events events' : List SseEvent) :
    passed (events ++ events') = passed events ++ passed events' := List.filter_append _ _

theorem passed_singleton (h : event.kind ≠ .thinkingDelta) :
    passed [event] = [event] := by simp [passed, h]

theorem passed_emptyThinkingDelta (index : ℤ) (estimate : Option ℕ) :
    passed [emptyThinkingDelta index estimate] = [] := by
  simp [passed, kind_emptyThinkingDelta]

theorem send_cases (filter : OmittedThinkingFilter) (index : ℤ) (estimate : Option ℕ)
    (block : HiddenBlock) :
    ((filter.send index estimate block).2 = [emptyThinkingDelta index estimate] ∧
      (filter.send index estimate block).1 = { filter with
        blocks := KeyedList.insert index { block with sentEmptyDelta := true } filter.blocks }) ∨
    (estimate = none ∧ block.sentEmptyDelta = true ∧
      (filter.send index estimate block).2 = [] ∧
      (filter.send index estimate block).1 = { filter with
        blocks := KeyedList.insert index block filter.blocks }) := by
  unfold OmittedThinkingFilter.send
  split_ifs with h
  · exact .inl ⟨rfl, rfl⟩
  · rw [not_or, not_not, Bool.not_eq_false] at h
    exact .inr ⟨h.1, h.2, rfl, rfl⟩

theorem passed_send (filter : OmittedThinkingFilter) (index : ℤ) (estimate : Option ℕ)
    (block : HiddenBlock) : passed (filter.send index estimate block).2 = [] := by
  rcases send_cases filter index estimate block with ⟨hout, -⟩ | ⟨-, -, hout, -⟩
  · rw [hout, passed_emptyThinkingDelta]
  · rw [hout]
    rfl

theorem passed_applyEvent (filter : OmittedThinkingFilter) (timed : ℕ × SseEvent) :
    passed (applyEvent countTokens filter timed).2 =
      if timed.2.kind = .thinkingDelta then [] else [timed.2.blank] := by
  obtain ⟨now, event⟩ := timed
  unfold applyEvent
  dsimp only
  cases hkind : event.kind with
  | thinkingStart =>
    have hblank := blank_of_start hkind
    have hkept : event.blank.kind ≠ .thinkingDelta := by
      rw [kind_blank, hkind]
      decide
    rw [if_neg (by decide), ← hblank, passed_singleton hkept]
  | thinkingDelta =>
    rw [if_pos rfl]
    cases hblock : filter.block? event.index with
    | none => rfl
    | some entry => exact passed_send _ _ _ _
  | signatureDelta =>
    have hblank : event.blank = event := blank_of_kind (by simp [hkind]) (by simp [hkind])
    have hkept : passed [event] = [event] := passed_singleton (by rw [hkind]; decide)
    rw [if_neg (by decide), hblank]
    cases hblock : filter.block? event.index with
    | none => exact hkept
    | some entry =>
      dsimp only
      rw [passed_append, passed_send, hkept]
      rfl
  | stop =>
    have hblank : event.blank = event := blank_of_kind (by simp [hkind]) (by simp [hkind])
    have hkept : passed [event] = [event] := passed_singleton (by rw [hkind]; decide)
    rw [if_neg (by decide), hblank]
    cases hblock : filter.block? event.index with
    | none => exact hkept
    | some entry =>
      dsimp only
      rw [passed_append, hkept]
      cases (filter.estimate entry.2 now true).1 with
      | none => rfl
      | some estimate =>
        rw [Option.toList_some, List.map_singleton, passed_emptyThinkingDelta]
        rfl
  | other =>
    have hblank : event.blank = event := blank_of_kind (by simp [hkind]) (by simp [hkind])
    rw [if_neg (by decide), hblank, passed_singleton (by rw [hkind]; decide)]

theorem passed_run (filter : OmittedThinkingFilter) (events : List (ℕ × SseEvent)) :
    passed (run (applyEvent countTokens) filter events).2 =
      (passed (events.map Prod.snd)).map SseEvent.blank := by
  rw [run_output_map passed_append rfl passed_applyEvent]
  induction events with
  | nil => rfl
  | cons timed events ih =>
    have hcons := passed_append [timed.2] (events.map Prod.snd)
    rw [List.singleton_append] at hcons
    rw [List.flatMap_cons, ih, List.map_cons, hcons, List.map_append]
    congr 1
    split_ifs with hkind
    · simp [passed, hkind]
    · rw [passed_singleton hkind, List.map_singleton]

structure HiddenBlock.Sound (block : HiddenBlock) : Prop where
  seen : block.seenTokens + estimateQuantumTokens ≤ 2 ^ 64
  quanta : estimateQuantumTokens ∣ block.reportedTokens
  reported : block.reportedTokens < block.seenTokens + estimateQuantumTokens

theorem dueEstimate_cases {block : HiddenBlock} (h : block.Sound) (now : ℕ) (closing : Bool) :
    (dueEstimate block now closing = (none, block) ∧
      (closing = true → block.seenTokens ≤ block.reportedTokens)) ∨
    ∃ tokens, dueEstimate block now closing = (some tokens, { block with
        reportedTokens := block.reportedTokens + tokens, lastReportAt := some now }) ∧
      0 < tokens ∧ estimateQuantumTokens ∣ tokens ∧
      block.reportedTokens + tokens < block.seenTokens + estimateQuantumTokens ∧
      (closing = true → block.seenTokens ≤ block.reportedTokens + tokens) := by
  obtain ⟨hseen, hquanta, hreported⟩ := h
  have hfloor := Nat.div_mul_le_self (block.seenTokens - block.reportedTokens) estimateQuantumTokens
  have hceil := Nat.div_mul_le_self
    (block.seenTokens - block.reportedTokens + estimateQuantumTokens - 1) estimateQuantumTokens
  have hclosing : closingIncrement (block.seenTokens - block.reportedTokens) =
      (block.seenTokens - block.reportedTokens + estimateQuantumTokens - 1) /
        estimateQuantumTokens * estimateQuantumTokens := by
    refine Nat.mod_eq_of_lt ?_
    unfold estimateQuantumTokens at *
    omega
  unfold dueEstimate
  dsimp only
  split_ifs with hlimited hclose hzero hzero
  · refine .inl ⟨rfl, fun hc => ?_⟩
    simp [hc] at hlimited
  · refine .inl ⟨rfl, fun _ => ?_⟩
    rw [hclosing] at hzero
    unfold estimateQuantumTokens at *
    omega
  · rw [hclosing] at hzero ⊢
    have hmin : min (block.reportedTokens + (block.seenTokens - block.reportedTokens +
        estimateQuantumTokens - 1) / estimateQuantumTokens * estimateQuantumTokens) u64Max =
        block.reportedTokens + (block.seenTokens - block.reportedTokens +
          estimateQuantumTokens - 1) / estimateQuantumTokens * estimateQuantumTokens := by
      unfold u64Max estimateQuantumTokens at *
      omega
    refine .inr ⟨_, by rw [hmin], Nat.pos_of_ne_zero hzero, Nat.dvd_mul_left _ _, ?_, fun _ => ?_⟩
    · unfold estimateQuantumTokens at *
      omega
    · unfold estimateQuantumTokens at *
      omega
  · exact .inl ⟨rfl, fun hc => absurd hc hclose⟩
  · have hmin : min (block.reportedTokens + (block.seenTokens - block.reportedTokens) /
        estimateQuantumTokens * estimateQuantumTokens) u64Max =
        block.reportedTokens + (block.seenTokens - block.reportedTokens) /
          estimateQuantumTokens * estimateQuantumTokens := by
      unfold u64Max estimateQuantumTokens at *
      omega
    refine .inr ⟨_, by rw [hmin], Nat.pos_of_ne_zero hzero, Nat.dvd_mul_left _ _, ?_,
      fun hc => absurd hc hclose⟩
    unfold estimateQuantumTokens at *
    omega

def estimatesOf (index : ℤ) (events : List SseEvent) : List ℕ :=
  events.filterMap fun event =>
    if event.kind = .thinkingDelta ∧ event.index = some index then event.estimatedTokens else none

/-- The tokens of the texts that events bring for a block. -/
def hiddenTokens (countTokens : String → ℕ) (index : ℤ) (events : List (ℕ × SseEvent)) : ℕ :=
  (events.map fun timed =>
    if timed.2.index = some index then timed.2.tokens countTokens else 0).sum

def IsEmptyDelta (index : ℤ) (event : SseEvent) : Prop :=
  event.kind = .thinkingDelta ∧ event.index = some index ∧ event.thinking = ""

theorem estimatesOf_append (index : ℤ) (events events' : List SseEvent) :
    estimatesOf index (events ++ events') = estimatesOf index events ++ estimatesOf index events' :=
  List.filterMap_append

theorem estimatesOf_of_kind (h : event.kind ≠ .thinkingDelta) (index : ℤ) :
    estimatesOf index [event] = [] := by simp [estimatesOf, h]

theorem estimatesOf_of_ne {index other : ℤ} (hne : other ≠ index)
    (hother : -2 ^ 63 ≤ other ∧ other < 2 ^ 63) (estimate : Option ℕ) :
    estimatesOf index [emptyThinkingDelta other estimate] = [] := by
  simp [estimatesOf, index_emptyThinkingDelta hother, hne]

theorem estimatesOf_emptyThinkingDelta {index : ℤ} (hindex : -2 ^ 63 ≤ index ∧ index < 2 ^ 63)
    {estimate : Option ℕ} (h : ∀ tokens ∈ estimate, tokens ≤ u64Max) :
    estimatesOf index [emptyThinkingDelta index estimate] = estimate.toList := by
  have hkind := kind_emptyThinkingDelta index estimate
  have hestimate := estimatedTokens_emptyThinkingDelta index h
  cases estimate with
  | none => simp [estimatesOf, hkind, index_emptyThinkingDelta hindex, hestimate]
  | some tokens => simp [estimatesOf, hkind, index_emptyThinkingDelta hindex, hestimate]

/-- A block that has hidden so many tokens, with its reports among the events sent so far. -/
structure HiddenBlock.Account (block : HiddenBlock) (index : ℤ) (hidden : ℕ)
    (out : List SseEvent) : Prop where
  sound : block.Sound
  seen : block.seenTokens = hidden
  sum : (estimatesOf index out).sum = block.reportedTokens
  quanta : ∀ tokens ∈ estimatesOf index out, 0 < tokens ∧ estimateQuantumTokens ∣ tokens
  sent : block.sentEmptyDelta = true → ∃ event ∈ out, IsEmptyDelta index event

variable {index : ℤ} {block : HiddenBlock} {hidden : ℕ} {out : List SseEvent}

theorem estimate_spec (h : block.Sound) (filter : OmittedThinkingFilter) (now : ℕ)
    (closing : Bool) :
    (filter.estimate block now closing).2.Sound ∧
      (filter.estimate block now closing).2.seenTokens = block.seenTokens ∧
      (filter.estimate block now closing).2.sentEmptyDelta = block.sentEmptyDelta ∧
      (filter.estimate block now closing).2.reportedTokens =
        block.reportedTokens + (filter.estimate block now closing).1.toList.sum ∧
      (∀ tokens ∈ (filter.estimate block now closing).1,
        0 < tokens ∧ estimateQuantumTokens ∣ tokens ∧ tokens ≤ u64Max) ∧
      (filter.reportTokenEstimates = true → closing = true →
        block.seenTokens ≤ (filter.estimate block now closing).2.reportedTokens) := by
  unfold OmittedThinkingFilter.estimate
  split_ifs with hreport
  · rcases dueEstimate_cases h now closing with ⟨heq, hclosing⟩ |
      ⟨tokens, heq, hpos, hquanta, hreported, hclosing⟩
    · rw [heq]
      exact ⟨h, rfl, rfl, rfl, fun tokens htokens => (by cases htokens), fun _ => hclosing⟩
    · rw [heq]
      have hseen := h.seen
      refine ⟨⟨h.seen, Nat.dvd_add h.quanta hquanta, hreported⟩, rfl, rfl, rfl, ?_,
        fun _ => hclosing⟩
      intro tokens' htokens'
      obtain rfl := Option.some.inj htokens'
      refine ⟨hpos, hquanta, ?_⟩
      unfold u64Max
      omega
  · exact ⟨h, rfl, rfl, rfl, fun tokens htokens => (by cases htokens), fun hc => absurd hc hreport⟩

theorem isEmptyDelta_emptyThinkingDelta (hindex : -2 ^ 63 ≤ index ∧ index < 2 ^ 63)
    (estimate : Option ℕ) : IsEmptyDelta index (emptyThinkingDelta index estimate) :=
  ⟨kind_emptyThinkingDelta index estimate, index_emptyThinkingDelta hindex estimate,
    thinking_emptyThinkingDelta index estimate⟩

theorem HiddenBlock.Account.new (index : ℤ) {out : List SseEvent}
    (hout : estimatesOf index out = []) : HiddenBlock.new.Account index 0 out where
  sound := ⟨by decide, Nat.dvd_zero _, by decide⟩
  seen := rfl
  sum := by rw [hout]; rfl
  quanta := by simp [hout]
  sent hsent := by cases hsent

theorem HiddenBlock.Account.see (h : block.Account index hidden out) {tokens : ℕ}
    (hbound : hidden + tokens + estimateQuantumTokens ≤ 2 ^ 64) :
    (block.see tokens).Account index (hidden + tokens) out := by
  have hseen := h.seen
  have hreported := h.sound.reported
  have hmin : min (block.seenTokens + tokens) u64Max = hidden + tokens := by
    unfold u64Max estimateQuantumTokens at *
    omega
  refine ⟨⟨?_, h.sound.quanta, ?_⟩, hmin, h.sum, h.quanta, h.sent⟩
  · dsimp only [HiddenBlock.see]
    omega
  · dsimp only [HiddenBlock.see]
    omega

theorem HiddenBlock.Account.append (h : block.Account index hidden out) {events : List SseEvent}
    (hevents : estimatesOf index events = []) :
    block.Account index hidden (out ++ events) where
  sound := h.sound
  seen := h.seen
  sum := by rw [estimatesOf_append, hevents, List.append_nil, h.sum]
  quanta := by rw [estimatesOf_append, hevents, List.append_nil]; exact h.quanta
  sent hsent := by
    obtain ⟨event, hmem, hempty⟩ := h.sent hsent
    exact ⟨event, List.mem_append_left _ hmem, hempty⟩

/-- What is sent for the block is in its account, and afterwards an empty delta is out. -/
theorem HiddenBlock.Account.send (h : block.Account index hidden out)
    (hindex : -2 ^ 63 ≤ index ∧ index < 2 ^ 63) (filter : OmittedThinkingFilter) (now : ℕ)
    (closing : Bool) :
    ∃ block', KeyedList.get index (filter.send index (filter.estimate block now closing).1
          (filter.estimate block now closing).2).1.blocks = some block' ∧
      block'.Account index hidden
        (out ++ (filter.send index (filter.estimate block now closing).1
          (filter.estimate block now closing).2).2) ∧
      block'.sentEmptyDelta = true := by
  obtain ⟨hsound, hseen, hsent, hreported, htokens, -⟩ :=
    estimate_spec h.sound filter now closing
  have hle : ∀ tokens ∈ (filter.estimate block now closing).1, tokens ≤ u64Max :=
    fun tokens hmem => (htokens tokens hmem).2.2
  rcases send_cases filter index (filter.estimate block now closing).1
    (filter.estimate block now closing).2 with ⟨hout, hnext⟩ | ⟨hnone, hwas, hout, hnext⟩
  · rw [hout, hnext]
    refine ⟨_, KeyedList.get_insert_self _ _ _,
      ⟨⟨hsound.seen, hsound.quanta, hsound.reported⟩, hseen.trans h.seen, ?_, ?_, ?_⟩, rfl⟩
    · rw [estimatesOf_append, List.sum_append, h.sum, estimatesOf_emptyThinkingDelta hindex hle]
      exact hreported.symm
    · intro tokens hmem
      rw [estimatesOf_append, List.mem_append, estimatesOf_emptyThinkingDelta hindex hle] at hmem
      rcases hmem with hmem | hmem
      · exact h.quanta tokens hmem
      · obtain ⟨hpos, hdvd, -⟩ := htokens tokens (Option.mem_toList.mp hmem)
        exact ⟨hpos, hdvd⟩
    · intro _
      exact ⟨_, List.mem_append_right _ (List.mem_singleton_self _),
        isEmptyDelta_emptyThinkingDelta hindex _⟩
  · rw [hout, hnext, List.append_nil]
    rw [hnone] at hreported
    refine ⟨_, KeyedList.get_insert_self _ _ _, ⟨hsound, hseen.trans h.seen, ?_, h.quanta, ?_⟩,
      hwas⟩
    · exact h.sum.trans hreported.symm
    · intro _
      exact h.sent (hsent.symm.trans hwas)

theorem block?_of_get (hget : KeyedList.get index filter.blocks = some block) :
    filter.block? (some index) = some (index, block) := by
  rw [OmittedThinkingFilter.block?, Option.bind_some, hget]
  rfl

theorem index_of_block? {other : ℤ} {i : Option ℤ} (h : filter.block? i = some (other, block)) :
    i = some other := by
  cases i with
  | none => cases h
  | some i =>
    rw [OmittedThinkingFilter.block?, Option.bind_some, Option.map_eq_some_iff] at h
    obtain ⟨_, _, heq⟩ := h
    exact congrArg some (congrArg Prod.fst heq)

theorem get_send_of_ne {other : ℤ} (hne : index ≠ other) (filter : OmittedThinkingFilter)
    (estimate : Option ℕ) (block : HiddenBlock) :
    KeyedList.get index (filter.send other estimate block).1.blocks =
      KeyedList.get index filter.blocks := by
  rcases send_cases filter other estimate block with ⟨-, hnext⟩ | ⟨-, -, -, hnext⟩
  · rw [hnext]
    exact KeyedList.get_insert_of_ne hne _ _
  · rw [hnext]
    exact KeyedList.get_insert_of_ne hne _ _

theorem estimatesOf_send_of_ne {other : ℤ} (hne : other ≠ index)
    (hother : -2 ^ 63 ≤ other ∧ other < 2 ^ 63) (filter : OmittedThinkingFilter)
    (estimate : Option ℕ) (block : HiddenBlock) :
    estimatesOf index (filter.send other estimate block).2 = [] := by
  rcases send_cases filter other estimate block with ⟨hout, -⟩ | ⟨-, -, hout, -⟩
  · rw [hout, estimatesOf_of_ne hne hother]
  · rw [hout]
    rfl

variable (countTokens) in
/-- An event of another block reports nothing for this one and leaves it alone. -/
theorem applyEvent_of_ne (hne : event.index ≠ some index)
    (filter : OmittedThinkingFilter) (now : ℕ) :
    KeyedList.get index (applyEvent countTokens filter (now, event)).1.blocks =
        KeyedList.get index filter.blocks ∧
      estimatesOf index (applyEvent countTokens filter (now, event)).2 = [] := by
  unfold applyEvent
  dsimp only
  cases hkind : event.kind with
  | thinkingStart =>
    have hblank := blank_of_start hkind
    refine ⟨?_, ?_⟩
    · cases hindex : event.index with
      | none => rfl
      | some other =>
        exact KeyedList.get_insert_of_ne (fun heq => hne (by rw [hindex, heq])) _ _
    · dsimp only
      rw [← hblank, estimatesOf_of_kind (by rw [kind_blank, hkind]; decide)]
  | thinkingDelta =>
    dsimp only
    cases hblock : filter.block? event.index with
    | none => exact ⟨rfl, rfl⟩
    | some entry =>
      have hindex := index_of_block? hblock
      have hother : entry.1 ≠ index := fun heq => hne (by rw [hindex, heq])
      exact ⟨get_send_of_ne hother.symm _ _ _,
        estimatesOf_send_of_ne hother (lt_of_index hindex) _ _ _⟩
  | signatureDelta =>
    dsimp only
    have hown : estimatesOf index [event] = [] := estimatesOf_of_kind (by rw [hkind]; decide) index
    cases hblock : filter.block? event.index with
    | none => exact ⟨rfl, hown⟩
    | some entry =>
      have hindex := index_of_block? hblock
      have hother : entry.1 ≠ index := fun heq => hne (by rw [hindex, heq])
      refine ⟨get_send_of_ne hother.symm _ _ _, ?_⟩
      dsimp only
      rw [estimatesOf_append, estimatesOf_send_of_ne hother (lt_of_index hindex), hown]
      rfl
  | stop =>
    dsimp only
    have hown : estimatesOf index [event] = [] := estimatesOf_of_kind (by rw [hkind]; decide) index
    cases hblock : filter.block? event.index with
    | none => exact ⟨rfl, hown⟩
    | some entry =>
      have hindex := index_of_block? hblock
      have hother : entry.1 ≠ index := fun heq => hne (by rw [hindex, heq])
      refine ⟨KeyedList.get_remove_of_ne hother.symm _, ?_⟩
      dsimp only
      rw [estimatesOf_append, hown, List.append_nil]
      cases (filter.estimate entry.2 now true).1 with
      | none => rfl
      | some estimate => exact estimatesOf_of_ne hother (lt_of_index hindex) _
  | other => exact ⟨rfl, estimatesOf_of_kind (by rw [hkind]; decide) index⟩

def Follows (filter : OmittedThinkingFilter) (index : ℤ) (hidden : ℕ) (out : List SseEvent) :
    Prop :=
  ∃ block, KeyedList.get index filter.blocks = some block ∧ block.Account index hidden out

/-- The event neither starts the block anew nor stops it. -/
def Within (index : ℤ) (event : SseEvent) : Prop :=
  event.index = some index → event.kind ≠ .thinkingStart ∧ event.kind ≠ .stop

variable (countTokens) in
theorem Follows.step (h : Follows filter index hidden out)
    (hindex : -2 ^ 63 ≤ index ∧ index < 2 ^ 63) (hwithin : Within index event)
    (hbound : hidden + hiddenTokens countTokens index [(0, event)] + estimateQuantumTokens ≤ 2 ^ 64)
    (now : ℕ) :
    Follows (applyEvent countTokens filter (now, event)).1 index
      (hidden + hiddenTokens countTokens index [(0, event)])
      (out ++ (applyEvent countTokens filter (now, event)).2) := by
  obtain ⟨block, hget, haccount⟩ := h
  by_cases heq : event.index = some index
  · obtain ⟨hstart, hstop⟩ := hwithin heq
    have hblock := block?_of_get hget
    have htokens : hiddenTokens countTokens index [(0, event)] = event.tokens countTokens := by
      simp [hiddenTokens, heq]
    rw [htokens] at hbound ⊢
    unfold SseEvent.tokens at *
    unfold applyEvent
    dsimp only
    rw [heq, hblock]
    cases hkind : event.kind with
    | thinkingStart => exact absurd hkind hstart
    | stop => exact absurd hkind hstop
    | thinkingDelta =>
      rw [hkind, if_pos rfl] at hbound
      rw [if_pos rfl]
      obtain ⟨block', hget', haccount', -⟩ := (haccount.see hbound).send hindex filter now false
      exact ⟨block', hget', haccount'⟩
    | signatureDelta =>
      obtain ⟨block', hget', haccount', -⟩ := haccount.send hindex filter now true
      refine ⟨block', hget', ?_⟩
      dsimp only
      rw [if_neg (by decide), Nat.add_zero, ← List.append_assoc]
      exact haccount'.append (estimatesOf_of_kind (by rw [hkind]; decide) index)
    | other =>
      rw [if_neg (by decide), Nat.add_zero]
      exact ⟨block, hget, haccount.append (estimatesOf_of_kind (by rw [hkind]; decide) index)⟩
  · obtain ⟨hsame, hnone⟩ := applyEvent_of_ne countTokens heq filter now
    have htokens : hiddenTokens countTokens index [(0, event)] = 0 := by simp [hiddenTokens, heq]
    rw [htokens, Nat.add_zero]
    exact ⟨block, hsame.trans hget, haccount.append hnone⟩

theorem hiddenTokens_cons (index : ℤ) (now : ℕ) (event : SseEvent)
    (events : List (ℕ × SseEvent)) :
    hiddenTokens countTokens index ((now, event) :: events) =
      hiddenTokens countTokens index [(0, event)] + hiddenTokens countTokens index events := by
  unfold hiddenTokens
  rw [List.map_cons, List.sum_cons, List.map_singleton, List.sum_singleton]

variable (countTokens) in
theorem Follows.run (h : Follows filter index hidden out)
    (hindex : -2 ^ 63 ≤ index ∧ index < 2 ^ 63) {events : List (ℕ × SseEvent)}
    (hwithin : ∀ timed ∈ events, Within index timed.2)
    (hbound : hidden + hiddenTokens countTokens index events + estimateQuantumTokens ≤ 2 ^ 64) :
    Follows (run (applyEvent countTokens) filter events).1 index
      (hidden + hiddenTokens countTokens index events)
      (out ++ (run (applyEvent countTokens) filter events).2) := by
  induction events generalizing filter hidden out with
  | nil =>
    rw [run_nil, List.append_nil]
    exact h
  | cons timed events ih =>
    obtain ⟨now, event⟩ := timed
    rw [hiddenTokens_cons] at hbound ⊢
    have hown : Within index event := hwithin (now, event) List.mem_cons_self
    have hstep := h.step countTokens hindex hown (by omega) now
    have hrest := ih hstep (fun timed hmem => hwithin timed (List.mem_cons_of_mem _ hmem)) (by omega)
    rw [run_cons, ← List.append_assoc, ← Nat.add_assoc]
    exact hrest

variable (countTokens) in
theorem follows_start (hkind : event.kind = .thinkingStart)
    (hindex : event.index = some index) (filter : OmittedThinkingFilter) (now : ℕ) :
    Follows (applyEvent countTokens filter (now, event)).1 index 0
      (applyEvent countTokens filter (now, event)).2 := by
  have hblank := blank_of_start hkind
  unfold applyEvent
  dsimp only
  rw [hkind, hindex]
  refine ⟨.new, KeyedList.get_insert_self _ _ _, .new index ?_⟩
  dsimp only
  rw [← hblank, estimatesOf_of_kind (by rw [kind_blank, hkind]; decide)]

/-- The stop of a block reports what is left. -/
theorem Follows.stop (h : Follows filter index hidden out)
    (hindex : -2 ^ 63 ≤ index ∧ index < 2 ^ 63) (hkind : event.kind = .stop)
    (heq : event.index = some index) (hreport : filter.reportTokenEstimates = true) (now : ℕ) :
    (∀ tokens ∈ estimatesOf index (out ++ (applyEvent countTokens filter (now, event)).2),
      0 < tokens ∧ estimateQuantumTokens ∣ tokens) ∧
    hidden ≤ (estimatesOf index (out ++ (applyEvent countTokens filter (now, event)).2)).sum ∧
    (estimatesOf index (out ++ (applyEvent countTokens filter (now, event)).2)).sum <
      hidden + estimateQuantumTokens := by
  obtain ⟨block, hget, haccount⟩ := h
  obtain ⟨hsound, hseen, -, hreported, htokens, hclosing⟩ :=
    estimate_spec haccount.sound filter now true
  have hestimates : estimatesOf index (applyEvent countTokens filter (now, event)).2 =
      (filter.estimate block now true).1.toList := by
    have hown : estimatesOf index [event] = [] := estimatesOf_of_kind (by rw [hkind]; decide) index
    unfold applyEvent
    dsimp only
    rw [hkind, heq, block?_of_get hget]
    dsimp only
    rw [estimatesOf_append, hown, List.append_nil]
    cases hestimate : (filter.estimate block now true).1 with
    | none => rfl
    | some tokens =>
      have hle : ∀ tokens' ∈ some tokens, tokens' ≤ u64Max := by
        rw [← hestimate]
        exact fun tokens' hmem => (htokens tokens' hmem).2.2
      exact estimatesOf_emptyThinkingDelta hindex hle
  have hsum := haccount.sum
  have hhidden := haccount.seen
  have hlt := hsound.reported
  have hge := hclosing hreport rfl
  rw [estimatesOf_append, hestimates, List.sum_append, hsum, ← hreported]
  refine ⟨?_, by omega, by omega⟩
  intro tokens hmem
  rcases List.mem_append.mp hmem with hmem | hmem
  · exact haccount.quanta tokens hmem
  · obtain ⟨hpos, hdvd, -⟩ := htokens tokens (Option.mem_toList.mp hmem)
    exact ⟨hpos, hdvd⟩

theorem Follows.signature (h : Follows filter index hidden out)
    (hindex : -2 ^ 63 ≤ index ∧ index < 2 ^ 63)
    (hkind : event.kind = .signatureDelta) (heq : event.index = some index) (now : ℕ) :
    ∃ front, out ++ (applyEvent countTokens filter (now, event)).2 = front ++ [event] ∧
      ∃ delta ∈ front, IsEmptyDelta index delta := by
  obtain ⟨block, hget, haccount⟩ := h
  obtain ⟨block', -, haccount', hsent⟩ := haccount.send hindex filter now true
  unfold applyEvent
  dsimp only
  rw [hkind, heq, block?_of_get hget]
  exact ⟨_, (List.append_assoc _ _ _).symm, haccount'.sent hsent⟩

theorem reportTokenEstimates_applyEvent (filter : OmittedThinkingFilter) (timed : ℕ × SseEvent) :
    (applyEvent countTokens filter timed).1.reportTokenEstimates = filter.reportTokenEstimates := by
  have hsend (index : ℤ) (estimate : Option ℕ) (block : HiddenBlock) :
      (filter.send index estimate block).1.reportTokenEstimates = filter.reportTokenEstimates := by
    unfold OmittedThinkingFilter.send
    split_ifs
    · rfl
    · rfl
  unfold applyEvent
  dsimp only
  cases timed.2.kind with
  | thinkingStart =>
    cases timed.2.index with
    | none => rfl
    | some index => rfl
  | other => rfl
  | stop =>
    cases filter.block? timed.2.index with
    | none => rfl
    | some entry => rfl
  | _ =>
    cases filter.block? timed.2.index with
    | none => rfl
    | some entry => exact hsend _ _ _

theorem reportTokenEstimates_run (filter : OmittedThinkingFilter)
    (events : List (ℕ × SseEvent)) :
    (run (applyEvent countTokens) filter events).1.reportTokenEstimates =
      filter.reportTokenEstimates :=
  @run_invariant _ _ _ (applyEvent countTokens)
    (fun filter' => filter'.reportTokenEstimates = filter.reportTokenEstimates) events
    (fun filter' timed _ hfilter' => (reportTokenEstimates_applyEvent filter' timed).trans hfilter')
    filter rfl

def after (countTokens : String → ℕ) (report : Bool) (events : List (ℕ × SseEvent)) :
    OmittedThinkingFilter :=
  (run (applyEvent countTokens) (.new report) events).1

def blockOutput (countTokens : String → ℕ) (report : Bool) (before : List (ℕ × SseEvent))
    (events : List (ℕ × SseEvent)) : List SseEvent :=
  (run (applyEvent countTokens) (after countTokens report before) events).2

def thinkingStartEvent (index : ℤ) : SseEvent where
  event := "content_block_start"
  data := .obj [("content_block", .obj [("thinking", .str ""), ("type", .str "thinking")]),
    ("index", .int index), ("type", .str "content_block_start")]

def thinkingDeltaEvent (index : ℤ) (thinking : String) : SseEvent where
  event := "content_block_delta"
  data := .obj [("delta", .obj [("thinking", .str thinking), ("type", .str "thinking_delta")]),
    ("index", .int index), ("type", .str "content_block_delta")]

def stopEvent (index : ℤ) : SseEvent where
  event := "content_block_stop"
  data := .obj [("index", .int index), ("type", .str "content_block_stop")]

def oneBlock (deltas : List String) : List SseEvent :=
  thinkingStartEvent 0 :: deltas.map (thinkingDeltaEvent 0) ++ [stopEvent 0]

end KiroProxy.ThinkingDisplay
