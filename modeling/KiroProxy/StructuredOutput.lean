import KiroProxy.KeyedList
import KiroProxy.MessageStream
import KiroProxy.Transducer

/-!
# Structured answers

An answer that must be JSON is given as the input of an internal tool, and the response side turns
the call into one text block. `rewriteContent` does this for a complete list of blocks.
`StructuredOutputStreamRewriter` does it event by event: it holds texts back until it is known
what follows them, and numbers the blocks that it forwards again.

`forwarded` says which blocks of a stream the rewriter lets through, and
`applyStream_eq` that its output is the stream of these blocks.
-/

namespace KiroProxy.StructuredOutput
open MessageStream Transducer

structure StructuredOutputTarget where
  toolName : List Char
  forced : Bool
  deriving DecidableEq, Repr

def isTargetToolBlock (target : StructuredOutputTarget) : Block → Bool
  | .toolUse _ name _ => name = target.toolName
  | _ => false

def toolUseStopReason : List Char := "tool_use".toList

def endTurn : List Char := "end_turn".toList

/-- A call of another tool than the internal one. -/
def isClientToolUse (target : StructuredOutputTarget) (block : Block) : Bool :=
  block.isToolUse && !isTargetToolBlock target block

def structuredText (print : Json → List Char) : Block → List Char
  | .toolUse _ _ input => print (.obj input)
  | _ => print (.obj [])

/-- The list before and after the first call of the internal tool is filtered alike. -/
def rewriteContent (print : Json → List Char) (target : StructuredOutputTarget)
    (content : List Block) : List Block × Option (List Char) :=
  match content.dropWhile fun block => !isTargetToolBlock target block with
  | [] => (content, none)
  | structured :: after =>
    let before := content.takeWhile fun block => !isTargetToolBlock target block
    let hasClientToolUse := content.any (isClientToolUse target)
    let keep := fun block =>
      !(isTargetToolBlock target block || (!hasClientToolUse && block.isText))
    (before.filter keep ++ .text (structuredText print structured) :: after.filter keep,
      if hasClientToolUse then none else some endTurn)

structure StructuredOutputStreamRewriter where
  target : StructuredOutputTarget
  indexMap : List (ℕ × ℕ)
  nextIndex : ℕ
  structuredIndex : Option ℕ
  structuredSeen : Bool
  clientToolSeen : Bool
  held : List (ℕ × List Event)
  heldIndexes : List ℕ

namespace StructuredOutputStreamRewriter

def new (target : StructuredOutputTarget) : StructuredOutputStreamRewriter where
  target := target
  indexMap := []
  nextIndex := 0
  structuredIndex := none
  structuredSeen := false
  clientToolSeen := false
  held := []
  heldIndexes := []

def replacedStopReason (rewriter : StructuredOutputStreamRewriter) : Bool :=
  rewriter.structuredSeen && !rewriter.clientToolSeen

def withIndex (index : ℕ) : Event → Event
  | .contentBlockStart _ block => .contentBlockStart index block
  | .contentBlockDelta _ delta => .contentBlockDelta index delta
  | .contentBlockStop _ => .contentBlockStop index
  | event => event

def forward (upstreamIndex : ℕ) (rewriter : StructuredOutputStreamRewriter) (event : Event) :
    StructuredOutputStreamRewriter × List Event :=
  match KeyedList.get upstreamIndex rewriter.indexMap with
  | some downstream => (rewriter, [withIndex downstream event])
  | none =>
    ({ rewriter with
        indexMap := KeyedList.insert upstreamIndex rewriter.nextIndex rewriter.indexMap
        nextIndex := rewriter.nextIndex + 1 }, [withIndex rewriter.nextIndex event])

def releaseFrom (rewriter : StructuredOutputStreamRewriter) :
    List (ℕ × List Event) → StructuredOutputStreamRewriter × List Event
  | [] => (rewriter, [])
  | (index, events) :: held =>
    let rewriter :=
      { rewriter with heldIndexes := rewriter.heldIndexes.filter fun other => other != index }
    let (rewriter, out) := run (forward index) rewriter events
    let (rewriter, out') := releaseFrom rewriter held
    (rewriter, out ++ out')

def releaseHeld (rewriter : StructuredOutputStreamRewriter) :
    StructuredOutputStreamRewriter × List Event :=
  releaseFrom { rewriter with held := [] } rewriter.held

def holdEvent (index : ℕ) (event : Event) : List (ℕ × List Event) → List (ℕ × List Event)
  | [] => []
  | (other, events) :: held =>
    if other = index then (other, events ++ [event]) :: held
    else (other, events) :: holdEvent index event held

/-- A delta or the stop of a block that is not the structured one, or is rewritten already. -/
def pushInner (rewriter : StructuredOutputStreamRewriter) (index : ℕ) (event : Event) :
    StructuredOutputStreamRewriter × List Event :=
  if rewriter.held.any fun held => held.1 = index then
    ({ rewriter with held := holdEvent index event rewriter.held }, [])
  else if index ∈ rewriter.heldIndexes then (rewriter, [])
  else rewriter.forward index event

def pushStart (rewriter : StructuredOutputStreamRewriter) (index : ℕ) (block : Block) :
    StructuredOutputStreamRewriter × List Event :=
  if isTargetToolBlock rewriter.target block ∧ rewriter.structuredIndex = none then
    { rewriter with
      structuredIndex := some index
      structuredSeen := true
      held := []
      heldIndexes := [] }.forward index (.contentBlockStart index (.text []))
  else if isTargetToolBlock rewriter.target block then
    ({ rewriter with heldIndexes := rewriter.heldIndexes ++ [index] }, [])
  else
    let rewriter :=
      { rewriter with clientToolSeen := rewriter.clientToolSeen || block.isToolUse }
    if !rewriter.structuredSeen && !rewriter.clientToolSeen && block.isText then
      ({ rewriter with
          heldIndexes := rewriter.heldIndexes ++ [index]
          held := rewriter.held ++ [(index, [.contentBlockStart index block])] }, [])
    else
      let (rewriter, out) := rewriter.releaseHeld
      let (rewriter, out') := rewriter.forward index (.contentBlockStart index block)
      (rewriter, out ++ out')

def push (rewriter : StructuredOutputStreamRewriter) (event : Event) :
    StructuredOutputStreamRewriter × List Event :=
  match event with
  | .contentBlockStart index block => rewriter.pushStart index block
  | .contentBlockDelta index delta =>
    if rewriter.structuredIndex = some index then
      if partialJson delta = [] then (rewriter, [])
      else rewriter.pushInner index (.contentBlockDelta index (.textDelta (partialJson delta)))
    else rewriter.pushInner index event
  | .contentBlockStop index => rewriter.pushInner index event
  | .messageDelta stopReason usage =>
    let (rewriter, out) := rewriter.releaseHeld
    (rewriter, out ++ [.messageDelta
      (if rewriter.replacedStopReason ∧ stopReason = some toolUseStopReason then some endTurn
        else stopReason) usage])
  | .error _ _ =>
    let (rewriter, out) := rewriter.releaseHeld
    (rewriter, out ++ [event])
  | .messageStop =>
    let (rewriter, out) := rewriter.releaseHeld
    (rewriter, out ++ [event])
  | _ => (rewriter, [event])

/-- The events of any number of calls of `apply`. -/
def apply (rewriter : StructuredOutputStreamRewriter) (events : List Event) :
    StructuredOutputStreamRewriter × List Event := run push rewriter events

variable {rewriter : StructuredOutputStreamRewriter} {idx downstream : ℕ} {streamed : Streamed}

theorem map_withIndex_events (downstream idx : ℕ) (streamed : Streamed) :
    (streamed.events idx).map (withIndex downstream) = streamed.events downstream := by
  rw [Streamed.events, List.map_cons, List.map_append, List.map_map]
  rfl

theorem run_forward_of_get (hget : KeyedList.get idx rewriter.indexMap = some downstream)
    (events : List Event) :
    run (forward idx) rewriter events = (rewriter, events.map (withIndex downstream)) := by
  rw [run_of_fixed (f := fun event => [withIndex downstream event]), ← List.map_eq_flatMap]
  intro event _
  rw [forward, hget]

def numbered (rewriter : StructuredOutputStreamRewriter) (idx : ℕ) :
    StructuredOutputStreamRewriter :=
  { rewriter with
    indexMap := KeyedList.insert idx rewriter.nextIndex rewriter.indexMap
    nextIndex := rewriter.nextIndex + 1 }

theorem forward_of_new (hget : KeyedList.get idx rewriter.indexMap = none) (event : Event) :
    rewriter.forward idx event = (rewriter.numbered idx, [withIndex rewriter.nextIndex event]) := by
  rw [forward, hget]
  rfl

theorem get_numbered_self (rewriter : StructuredOutputStreamRewriter) (idx : ℕ) :
    KeyedList.get idx (rewriter.numbered idx).indexMap = some rewriter.nextIndex :=
  KeyedList.get_insert_self _ _ _

theorem get_numbered_of_ne {other : ℕ} (hne : other ≠ idx) :
    KeyedList.get other (rewriter.numbered idx).indexMap =
      KeyedList.get other rewriter.indexMap := KeyedList.get_insert_of_ne hne _ _

theorem run_forward_events (hget : KeyedList.get idx rewriter.indexMap = none)
    (streamed : Streamed) :
    run (forward idx) rewriter (streamed.events idx) =
      (rewriter.numbered idx, streamed.events rewriter.nextIndex) := by
  rw [← map_withIndex_events rewriter.nextIndex idx, Streamed.events, run_cons,
    forward_of_new hget, run_forward_of_get (get_numbered_self rewriter idx)]
  rfl

variable (index : ℕ) (blocks : List Streamed) (target : StructuredOutputTarget)

theorem streamFrom_append (blocks blocks' : List Streamed) :
    streamFrom index (blocks ++ blocks') =
      streamFrom index blocks ++ streamFrom (index + blocks.length) blocks' := by
  induction blocks generalizing index with
  | nil => rfl
  | cons streamed blocks ih =>
    rw [List.cons_append, streamFrom, streamFrom, ih, List.append_assoc, List.length_cons,
      Nat.add_right_comm, Nat.add_assoc]

/-- The rewriter before the block `idx`, when these blocks are held. -/
structure Ready (idx : ℕ) (held : List (ℕ × Streamed)) (rewriter : StructuredOutputStreamRewriter) :
    Prop where
  held_eq : rewriter.held = held.map fun block => (block.1, block.2.events block.1)
  keys : (held.map Prod.fst).Nodup
  lt : ∀ block ∈ held, block.1 < idx
  unnumbered : ∀ block ∈ held, KeyedList.get block.1 rewriter.indexMap = none
  new : ∀ i, idx ≤ i → KeyedList.get i rewriter.indexMap = none
  heldIndexes : ∀ i ∈ rewriter.heldIndexes, i < idx
  structured : ∀ i, rewriter.structuredIndex = some i → i < idx
  seen : rewriter.structuredSeen = rewriter.structuredIndex.isSome

theorem ready_new : Ready 0 [] (new target) where
  held_eq := rfl
  keys := List.nodup_nil
  lt := nofun
  unnumbered := nofun
  new _ _ := rfl
  heldIndexes := nofun
  structured := nofun
  seen := rfl

/-- What the release of held blocks leaves. -/
structure Released (held : List (ℕ × Streamed))
    (rewriter rewriter' : StructuredOutputStreamRewriter) : Prop where
  target : rewriter'.target = rewriter.target
  nextIndex : rewriter'.nextIndex = rewriter.nextIndex + held.length
  structuredIndex : rewriter'.structuredIndex = rewriter.structuredIndex
  structuredSeen : rewriter'.structuredSeen = rewriter.structuredSeen
  clientToolSeen : rewriter'.clientToolSeen = rewriter.clientToolSeen
  held_eq : rewriter'.held = rewriter.held
  heldIndexes : rewriter'.heldIndexes ⊆ rewriter.heldIndexes
  get : ∀ i, i ∉ held.map Prod.fst →
    KeyedList.get i rewriter'.indexMap = KeyedList.get i rewriter.indexMap

theorem releaseFrom_spec {held : List (ℕ × Streamed)} (hkeys : (held.map Prod.fst).Nodup)
    (hget : ∀ block ∈ held, KeyedList.get block.1 rewriter.indexMap = none) :
    (rewriter.releaseFrom (held.map fun block => (block.1, block.2.events block.1))).2 =
        streamFrom rewriter.nextIndex (held.map Prod.snd) ∧
      Released held rewriter
        (rewriter.releaseFrom (held.map fun block => (block.1, block.2.events block.1))).1 := by
  induction held generalizing rewriter with
  | nil => exact ⟨rfl, rfl, rfl, rfl, rfl, rfl, rfl, List.Subset.refl _, fun _ _ => rfl⟩
  | cons block held ih =>
    obtain ⟨index, streamed⟩ := block
    rw [List.map_cons, List.nodup_cons] at hkeys
    obtain ⟨hindex, hkeys⟩ := hkeys
    let filtered : StructuredOutputStreamRewriter :=
      { rewriter with heldIndexes := rewriter.heldIndexes.filter fun other => other != index }
    have hrun : run (forward index) filtered (streamed.events index) =
        (filtered.numbered index, streamed.events rewriter.nextIndex) := by
      have hindex : KeyedList.get index filtered.indexMap = none := hget _ List.mem_cons_self
      exact run_forward_events hindex streamed
    have hrest : ∀ block ∈ held,
        KeyedList.get block.1 (filtered.numbered index).indexMap = none := by
      intro block hmem
      have hkey : block.1 ∈ held.map Prod.fst := List.mem_map_of_mem hmem
      have hne : block.1 ≠ index := fun heq => hindex (heq ▸ hkey)
      rw [get_numbered_of_ne hne]
      exact hget block (List.mem_cons_of_mem _ hmem)
    obtain ⟨hout, hreleased⟩ := ih hkeys hrest
    rw [List.map_cons, releaseFrom]
    dsimp only
    rw [hrun]
    refine ⟨?_, ?_⟩
    · rw [List.map_cons, streamFrom]
      exact congrArg (streamed.events rewriter.nextIndex ++ ·) hout
    · refine ⟨hreleased.target, ?_, hreleased.structuredIndex, hreleased.structuredSeen,
        hreleased.clientToolSeen, hreleased.held_eq, ?_, ?_⟩
      · rw [hreleased.nextIndex, List.length_cons]
        exact (Nat.add_assoc _ _ _).trans (congrArg _ (Nat.add_comm _ _))
      · exact fun i hi => (List.mem_filter.mp (hreleased.heldIndexes hi)).1
      · intro i hi
        rw [List.map_cons, List.mem_cons, not_or] at hi
        rw [hreleased.get i hi.2, get_numbered_of_ne hi.1]

theorem Ready.releaseHeld {held : List (ℕ × Streamed)} (h : Ready idx held rewriter) :
    rewriter.releaseHeld.2 = streamFrom rewriter.nextIndex (held.map Prod.snd) ∧
      Released held { rewriter with held := [] } rewriter.releaseHeld.1 ∧
      Ready idx [] rewriter.releaseHeld.1 := by
  have hspec := @releaseFrom_spec { rewriter with held := [] } held h.keys h.unnumbered
  rw [← h.held_eq] at hspec
  obtain ⟨hout, hreleased⟩ := hspec
  refine ⟨hout, hreleased, hreleased.held_eq, List.nodup_nil, nofun, nofun, ?_, ?_, ?_, ?_⟩
  · intro i hi
    rw [StructuredOutputStreamRewriter.releaseHeld, hreleased.get i]
    · exact h.new i hi
    · intro hmem
      obtain ⟨block, hblock, rfl⟩ := List.mem_map.mp hmem
      exact absurd (h.lt block hblock) (Nat.not_lt.mpr hi)
  · exact fun i hi => h.heldIndexes i (hreleased.heldIndexes hi)
  · intro i hi
    exact h.structured i (hreleased.structuredIndex.symm.trans hi)
  · rw [StructuredOutputStreamRewriter.releaseHeld, hreleased.structuredSeen,
      hreleased.structuredIndex]
    exact h.seen

def innerEvents (idx : ℕ) (deltas : List Delta) : List Event :=
  deltas.map (.contentBlockDelta idx) ++ [.contentBlockStop idx]

theorem mem_innerEvents {deltas : List Delta} {event : Event} (h : event ∈ innerEvents idx deltas) :
    (∃ delta, event = .contentBlockDelta idx delta) ∨ event = .contentBlockStop idx := by
  rcases List.mem_append.mp h with h | h
  · obtain ⟨delta, -, rfl⟩ := List.mem_map.mp h
    exact .inl ⟨delta, rfl⟩
  · exact .inr (List.mem_singleton.mp h)

theorem push_inner (hne : rewriter.structuredIndex ≠ some idx) {deltas : List Delta} {event : Event}
    (h : event ∈ innerEvents idx deltas) :
    rewriter.push event = rewriter.pushInner idx event := by
  rcases mem_innerEvents h with ⟨delta, rfl⟩ | rfl
  · rw [push, if_neg hne]
  · rfl

/-- The block has its number and is forwarded. -/
structure Open (idx downstream : ℕ) (rewriter : StructuredOutputStreamRewriter) : Prop where
  get : KeyedList.get idx rewriter.indexMap = some downstream
  notHeld : ∀ block ∈ rewriter.held, block.1 ≠ idx
  notDropped : idx ∉ rewriter.heldIndexes

theorem not_any_of_notHeld (h : ∀ block ∈ rewriter.held, block.1 ≠ idx) :
    ¬ (rewriter.held.any fun block => block.1 = idx) = true := by
  rw [List.any_eq_true]
  rintro ⟨block, hmem, heq⟩
  exact h block hmem (of_decide_eq_true heq)

theorem Open.pushInner (h : Open idx downstream rewriter) (event : Event) :
    rewriter.pushInner idx event = (rewriter, [withIndex downstream event]) := by
  rw [StructuredOutputStreamRewriter.pushInner, if_neg (not_any_of_notHeld h.notHeld),
    if_neg h.notDropped, forward, h.get]

theorem Open.run_inner (h : Open idx downstream rewriter)
    (hne : rewriter.structuredIndex ≠ some idx) (deltas : List Delta) :
    run push rewriter (innerEvents idx deltas) = (rewriter, innerEvents downstream deltas) := by
  rw [run_of_fixed (f := fun event => [withIndex downstream event])]
  · rw [← List.map_eq_flatMap, innerEvents, innerEvents, List.map_append, List.map_map]
    rfl
  · intro event hmem
    rw [push_inner hne hmem, h.pushInner]

def structuredDelta (delta : Delta) : Option Delta :=
  if partialJson delta = [] then none else some (.textDelta (partialJson delta))

theorem Open.run_structured (h : Open idx downstream rewriter)
    (heq : rewriter.structuredIndex = some idx) (deltas : List Delta) :
    run push rewriter (innerEvents idx deltas) =
      (rewriter, innerEvents downstream (deltas.filterMap structuredDelta)) := by
  have hdeltas : run push rewriter (deltas.map (Event.contentBlockDelta idx)) =
      (rewriter, (deltas.filterMap structuredDelta).map (.contentBlockDelta downstream)) := by
    induction deltas with
    | nil => rfl
    | cons delta deltas ih =>
      rw [List.map_cons, run_cons, push, if_pos heq]
      by_cases hempty : partialJson delta = []
      · have hnone : structuredDelta delta = none := by rw [structuredDelta, if_pos hempty]
        rw [if_pos hempty, List.filterMap_cons_none hnone, ih]
        rfl
      · have hsome : structuredDelta delta = some (.textDelta (partialJson delta)) := by
          rw [structuredDelta, if_neg hempty]
        rw [if_neg hempty, List.filterMap_cons_some hsome, h.pushInner, ih]
        rfl
  rw [innerEvents, run_append, hdeltas, run_singleton, push, h.pushInner]
  rfl

theorem run_dropped (hheld : ∀ block ∈ rewriter.held, block.1 ≠ idx)
    (hdropped : idx ∈ rewriter.heldIndexes) (hne : rewriter.structuredIndex ≠ some idx)
    (deltas : List Delta) :
    run push rewriter (innerEvents idx deltas) = (rewriter, []) := by
  rw [run_of_fixed (f := fun _ => [])]
  · rw [List.flatMap_eq_nil_iff.mpr fun _ _ => rfl]
  · intro event hmem
    rw [push_inner hne hmem, StructuredOutputStreamRewriter.pushInner,
      if_neg (not_any_of_notHeld hheld), if_pos hdropped]

theorem holdEvent_append {held : List (ℕ × List Event)} (hheld : ∀ block ∈ held, block.1 ≠ idx)
    (events : List Event) (event : Event) :
    holdEvent idx event (held ++ [(idx, events)]) = held ++ [(idx, events ++ [event])] := by
  induction held with
  | nil => rw [List.nil_append, holdEvent, if_pos rfl, List.nil_append]
  | cons block held ih =>
    rw [List.cons_append, holdEvent, if_neg (hheld block List.mem_cons_self),
      ih fun block hmem => hheld block (List.mem_cons_of_mem _ hmem), List.cons_append]

theorem run_held {held : List (ℕ × List Event)} (hheld : ∀ block ∈ held, block.1 ≠ idx)
    (hne : rewriter.structuredIndex ≠ some idx) {events inner : List Event}
    (hinner : ∀ event ∈ inner, ∃ deltas, event ∈ innerEvents idx deltas) :
    run push { rewriter with held := held ++ [(idx, events)] } inner =
      ({ rewriter with held := held ++ [(idx, events ++ inner)] }, []) := by
  induction inner generalizing events with
  | nil => rw [List.append_nil]; rfl
  | cons event inner ih =>
    have hany : ((held ++ [(idx, events)]).any fun block => block.1 = idx) = true := by
      rw [List.any_append]
      simp
    obtain ⟨deltas, hmem⟩ := hinner event List.mem_cons_self
    have hnext : { rewriter with held := held ++ [(idx, events)] }.structuredIndex ≠ some idx := hne
    have hpush : push { rewriter with held := held ++ [(idx, events)] } event =
        ({ rewriter with held := held ++ [(idx, events ++ [event])] }, []) := by
      rw [push_inner hnext hmem, StructuredOutputStreamRewriter.pushInner, if_pos hany,
        holdEvent_append hheld]
    rw [run_cons, hpush, ih fun event hevent => hinner event (List.mem_cons_of_mem _ hevent),
      List.append_assoc]
    rfl

def structuredStreamed (streamed : Streamed) : Streamed where
  start := .text []
  deltas := streamed.deltas.filterMap structuredDelta
  fits delta hmem := by
    obtain ⟨original, -, heq⟩ := List.mem_filterMap.mp hmem
    unfold structuredDelta at heq
    split_ifs at heq
    obtain rfl := Option.some.inj heq
    trivial

/-- The blocks that the rewriter lets through, with those that it holds. -/
def forwarded (target : StructuredOutputTarget) :
    Bool → Bool → List Streamed → List Streamed → List Streamed
  | _, _, held, [] => held
  | structuredSeen, clientToolSeen, held, streamed :: rest =>
    if isTargetToolBlock target streamed.start then
      if structuredSeen then forwarded target structuredSeen clientToolSeen held rest
      else structuredStreamed streamed :: forwarded target true clientToolSeen [] rest
    else
      if !structuredSeen && !(clientToolSeen || streamed.start.isToolUse) &&
          streamed.start.isText then
        forwarded target structuredSeen (clientToolSeen || streamed.start.isToolUse)
          (held ++ [streamed]) rest
      else held ++ streamed ::
        forwarded target structuredSeen (clientToolSeen || streamed.start.isToolUse) [] rest

/-- What a block does to a rewriter that holds some blocks. -/
structure Pushed (idx : ℕ) (held : List (ℕ × Streamed)) (streamed : Streamed)
    (rewriter : StructuredOutputStreamRewriter) (held' : List (ℕ × Streamed))
    (out : List Streamed) (rewriter' : StructuredOutputStreamRewriter) : Prop where
  run_eq : run push rewriter (streamed.events idx) =
    (rewriter', streamFrom rewriter.nextIndex out)
  ready : Ready (idx + 1) held' rewriter'
  nextIndex : rewriter'.nextIndex = rewriter.nextIndex + out.length
  target : rewriter'.target = rewriter.target
  structuredSeen : rewriter'.structuredSeen =
    (rewriter.structuredSeen || isTargetToolBlock rewriter.target streamed.start)
  clientToolSeen : rewriter'.clientToolSeen =
    (rewriter.clientToolSeen || isClientToolUse rewriter.target streamed.start)
  forwarded_eq : ∀ rest,
    forwarded rewriter.target rewriter.structuredSeen rewriter.clientToolSeen (held.map Prod.snd)
        (streamed :: rest) =
      out ++ forwarded rewriter.target rewriter'.structuredSeen rewriter'.clientToolSeen
        (held'.map Prod.snd) rest

variable {held : List (ℕ × Streamed)}

theorem events_eq (idx : ℕ) (streamed : Streamed) : streamed.events idx =
    .contentBlockStart idx streamed.start :: innerEvents idx streamed.deltas := rfl

theorem streamFrom_singleton (streamed : Streamed) :
    streamFrom index [streamed] = streamed.events index := List.append_nil _

theorem Ready.notHeld (h : Ready idx held rewriter) : ∀ block ∈ rewriter.held, block.1 ≠ idx := by
  intro block hmem
  rw [h.held_eq] at hmem
  obtain ⟨original, horiginal, rfl⟩ := List.mem_map.mp hmem
  exact (h.lt original horiginal).ne

theorem Ready.structuredIndex_ne (h : Ready idx held rewriter) :
    rewriter.structuredIndex ≠ some idx := fun heq => lt_irrefl _ (h.structured idx heq)

theorem Ready.numbered (h : Ready idx [] rewriter) :
    Ready (idx + 1) [] (rewriter.numbered idx) where
  held_eq := h.held_eq
  keys := List.nodup_nil
  lt := nofun
  unnumbered := nofun
  new i hi := by
    rw [get_numbered_of_ne (by omega)]
    exact h.new i (by omega)
  heldIndexes i hi := (h.heldIndexes i hi).trans (Nat.lt_succ_self _)
  structured i hi := (h.structured i hi).trans (Nat.lt_succ_self _)
  seen := h.seen

theorem Ready.open_numbered (h : Ready idx [] rewriter) :
    Open idx rewriter.nextIndex (rewriter.numbered idx) where
  get := get_numbered_self rewriter idx
  notHeld := h.notHeld
  notDropped hmem := lt_irrefl _ (h.heldIndexes idx hmem)

theorem Ready.push_structured (h : Ready idx held rewriter)
    (htarget : isTargetToolBlock rewriter.target streamed.start = true)
    (hseen : rewriter.structuredSeen = false) :
    ∃ held' out rewriter', Pushed idx held streamed rewriter held' out rewriter' := by
  have hindex : rewriter.structuredIndex = none := by
    rw [h.seen] at hseen
    exact Option.isSome_eq_false_iff.mp hseen |> Option.isNone_iff_eq_none.mp
  let started : StructuredOutputStreamRewriter :=
    { rewriter with
      structuredIndex := some idx
      structuredSeen := true
      held := []
      heldIndexes := [] }
  have hopen : Open idx rewriter.nextIndex (started.numbered idx) :=
    ⟨get_numbered_self started idx, nofun, nofun⟩
  have hforward : started.forward idx (.contentBlockStart idx (.text [])) =
      (started.numbered idx, [.contentBlockStart rewriter.nextIndex (.text [])]) := by
    have hnew : KeyedList.get idx started.indexMap = none := h.new idx le_rfl
    exact forward_of_new hnew _
  have hstart : rewriter.push (.contentBlockStart idx streamed.start) =
      (started.numbered idx, [.contentBlockStart rewriter.nextIndex (.text [])]) := by
    rw [push, pushStart, if_pos ⟨htarget, hindex⟩]
    exact hforward
  refine ⟨[], [structuredStreamed streamed], started.numbered idx, ?_, ?_, rfl, rfl, ?_, ?_, ?_⟩
  · rw [events_eq, run_cons, hstart, hopen.run_structured rfl, streamFrom_singleton]
    rfl
  · refine ⟨rfl, List.nodup_nil, nofun, nofun, ?_, nofun, ?_, rfl⟩
    · intro i hi
      rw [get_numbered_of_ne (by omega)]
      exact h.new i (by omega)
    · intro i hi
      obtain rfl := Option.some.inj hi
      exact Nat.lt_succ_self _
  · rw [htarget, Bool.or_true]
    rfl
  · have hclient : isClientToolUse rewriter.target streamed.start = false := by
      rw [isClientToolUse, htarget, Bool.not_true, Bool.and_false]
    rw [hclient, Bool.or_false]
    rfl
  · intro rest
    rw [forwarded, if_pos htarget, hseen, if_neg Bool.false_ne_true]
    rfl

theorem Ready.holding (h : Ready idx held rewriter) :
    Ready (idx + 1) held { rewriter with heldIndexes := rewriter.heldIndexes ++ [idx] } := by
  refine ⟨h.held_eq, h.keys, fun block hmem => (h.lt block hmem).trans (Nat.lt_succ_self _),
    h.unnumbered, fun i hi => h.new i (by omega), ?_,
    fun i hi => (h.structured i hi).trans (Nat.lt_succ_self _), h.seen⟩
  intro i hi
  rcases List.mem_append.mp hi with hi | hi
  · exact (h.heldIndexes i hi).trans (Nat.lt_succ_self _)
  · rw [List.mem_singleton.mp hi]
    exact Nat.lt_succ_self _

theorem Ready.push_again (h : Ready idx held rewriter)
    (htarget : isTargetToolBlock rewriter.target streamed.start = true)
    (hseen : rewriter.structuredSeen = true) :
    ∃ held' out rewriter', Pushed idx held streamed rewriter held' out rewriter' := by
  have hindex : rewriter.structuredIndex ≠ none := by
    rw [h.seen] at hseen
    exact Option.isSome_iff_ne_none.mp hseen
  let dropping : StructuredOutputStreamRewriter :=
    { rewriter with heldIndexes := rewriter.heldIndexes ++ [idx] }
  have hstart : rewriter.push (.contentBlockStart idx streamed.start) = (dropping, []) := by
    rw [push, pushStart, if_neg fun hboth => hindex hboth.2, if_pos htarget]
  have hdropped : idx ∈ dropping.heldIndexes := List.mem_append_right _ (List.mem_singleton_self _)
  have hinner : run push dropping (innerEvents idx streamed.deltas) = (dropping, []) :=
    @run_dropped dropping idx h.notHeld hdropped h.structuredIndex_ne _
  refine ⟨held, [], dropping, ?_, h.holding, rfl, rfl, ?_, ?_, ?_⟩
  · rw [events_eq, run_cons, hstart, hinner]
    rfl
  · rw [htarget, Bool.or_true]
    exact hseen
  · have hclient : isClientToolUse rewriter.target streamed.start = false := by
      rw [isClientToolUse, htarget, Bool.not_true, Bool.and_false]
    rw [hclient, Bool.or_false]
  · intro rest
    rw [forwarded, if_pos htarget, hseen, if_pos rfl]
    rfl

theorem Ready.push_held (h : Ready idx held rewriter)
    (htarget : isTargetToolBlock rewriter.target streamed.start = false)
    (hheld : (!rewriter.structuredSeen && !(rewriter.clientToolSeen || streamed.start.isToolUse) &&
      streamed.start.isText) = true) :
    ∃ held' out rewriter', Pushed idx held streamed rewriter held' out rewriter' := by
  have hclient : isClientToolUse rewriter.target streamed.start = streamed.start.isToolUse := by
    rw [isClientToolUse, htarget, Bool.not_false, Bool.and_true]
  let client : StructuredOutputStreamRewriter :=
    { rewriter with
      clientToolSeen := rewriter.clientToolSeen || streamed.start.isToolUse
      heldIndexes := rewriter.heldIndexes ++ [idx] }
  let holding : StructuredOutputStreamRewriter :=
    { client with held := rewriter.held ++ [(idx, [.contentBlockStart idx streamed.start])] }
  let filled : StructuredOutputStreamRewriter :=
    { client with held := rewriter.held ++ [(idx, streamed.events idx)] }
  have hstart : rewriter.push (.contentBlockStart idx streamed.start) = (holding, []) := by
    rw [push, pushStart, if_neg (by simp [htarget]), if_neg (by simp [htarget])]
    dsimp only
    rw [if_pos hheld]
  have hinner : run push holding (innerEvents idx streamed.deltas) = (filled, []) :=
    @run_held client idx rewriter.held h.notHeld h.structuredIndex_ne
      [.contentBlockStart idx streamed.start] _ fun event hmem => ⟨streamed.deltas, hmem⟩
  refine ⟨held ++ [(idx, streamed)], [], filled, ?_, ?_, rfl, rfl, ?_, ?_, ?_⟩
  · rw [events_eq, run_cons, hstart, hinner]
    rfl
  · refine ⟨?_, ?_, ?_, ?_, h.holding.new, h.holding.heldIndexes, h.holding.structured, h.seen⟩
    · rw [List.map_append]
      exact congrArg (· ++ _) h.held_eq
    · rw [List.map_append, List.nodup_append]
      refine ⟨h.keys, List.nodup_singleton _, ?_⟩
      intro i hi j hj heq
      obtain ⟨block, hmem, rfl⟩ := List.mem_map.mp hi
      rw [List.map_singleton, List.mem_singleton] at hj
      exact (h.lt block hmem).ne (heq.trans hj)
    · exact List.forall_mem_append.mpr
        ⟨h.holding.lt, List.forall_mem_singleton.mpr (Nat.lt_succ_self _)⟩
    · exact List.forall_mem_append.mpr
        ⟨h.unnumbered, List.forall_mem_singleton.mpr (h.new idx le_rfl)⟩
  · rw [htarget, Bool.or_false]
  · rw [hclient]
  · intro rest
    rw [forwarded, if_neg (by rw [htarget]; exact Bool.false_ne_true), if_pos hheld, List.map_append]
    rfl

theorem Ready.push_forwarded (h : Ready idx held rewriter)
    (htarget : isTargetToolBlock rewriter.target streamed.start = false)
    (hheld : (!rewriter.structuredSeen && !(rewriter.clientToolSeen || streamed.start.isToolUse) &&
      streamed.start.isText) = false) :
    ∃ held' out rewriter', Pushed idx held streamed rewriter held' out rewriter' := by
  have hclient : isClientToolUse rewriter.target streamed.start = streamed.start.isToolUse := by
    rw [isClientToolUse, htarget, Bool.not_false, Bool.and_true]
  let client : StructuredOutputStreamRewriter :=
    { rewriter with clientToolSeen := rewriter.clientToolSeen || streamed.start.isToolUse }
  have hready : Ready idx held client :=
    ⟨h.held_eq, h.keys, h.lt, h.unnumbered, h.new, h.heldIndexes, h.structured, h.seen⟩
  obtain ⟨hout, hreleased, hreleasedReady⟩ := hready.releaseHeld
  let released := client.releaseHeld.1
  have hforward : released.forward idx (.contentBlockStart idx streamed.start) =
      (released.numbered idx, [.contentBlockStart released.nextIndex streamed.start]) :=
    forward_of_new (hreleasedReady.new idx le_rfl) _
  have hstart : rewriter.push (.contentBlockStart idx streamed.start) =
      (released.numbered idx, streamFrom rewriter.nextIndex (held.map Prod.snd) ++
        [.contentBlockStart released.nextIndex streamed.start]) := by
    rw [push, pushStart, if_neg (by simp [htarget]), if_neg (by simp [htarget])]
    dsimp only
    rw [if_neg (by rw [hheld]; exact Bool.false_ne_true), ← hout]
    exact congrArg (fun next => (next.1, client.releaseHeld.2 ++ next.2)) hforward
  have hinner := hreleasedReady.open_numbered.run_inner hreleasedReady.structuredIndex_ne
    streamed.deltas
  have hnext : released.nextIndex = rewriter.nextIndex + held.length := hreleased.nextIndex
  refine ⟨[], held.map Prod.snd ++ [streamed], released.numbered idx, ?_, hreleasedReady.numbered,
    ?_, hreleased.target, ?_, ?_, ?_⟩
  · rw [events_eq, run_cons, hstart]
    refine (congrArg (fun next => (next.1, _ ++ next.2)) hinner).trans ?_
    rw [streamFrom_append, streamFrom_singleton, List.length_map, ← hnext, List.append_assoc]
    rfl
  · rw [List.length_append, List.length_map, List.length_singleton, ← Nat.add_assoc, ← hnext]
    rfl
  · rw [htarget, Bool.or_false]
    exact hreleased.structuredSeen
  · rw [hclient]
    exact hreleased.clientToolSeen
  · intro rest
    have hseen : (released.numbered idx).structuredSeen = rewriter.structuredSeen :=
      hreleased.structuredSeen
    have hclientSeen : (released.numbered idx).clientToolSeen =
        (rewriter.clientToolSeen || streamed.start.isToolUse) := hreleased.clientToolSeen
    rw [forwarded, if_neg (by rw [htarget]; exact Bool.false_ne_true),
      if_neg (by rw [hheld]; exact Bool.false_ne_true), hseen, hclientSeen, List.append_assoc,
      List.singleton_append]
    rfl

theorem Ready.push_block (h : Ready idx held rewriter) (streamed : Streamed) :
    ∃ held' out rewriter', Pushed idx held streamed rewriter held' out rewriter' := by
  cases htarget : isTargetToolBlock rewriter.target streamed.start with
  | true =>
    cases hseen : rewriter.structuredSeen with
    | true => exact h.push_again htarget hseen
    | false => exact h.push_structured htarget hseen
  | false =>
    cases hheld : !rewriter.structuredSeen && !(rewriter.clientToolSeen ||
      streamed.start.isToolUse) && streamed.start.isText with
    | true => exact h.push_held htarget hheld
    | false => exact h.push_forwarded htarget hheld

/-- Blocks one after the other, with their numbers. -/
def eventsAt (blocks : List (ℕ × Streamed)) : List Event :=
  blocks.flatMap fun block => block.2.events block.1

theorem Ready.mono (h : Ready idx held rewriter) {idx' : ℕ} (hle : idx ≤ idx') :
    Ready idx' held rewriter where
  held_eq := h.held_eq
  keys := h.keys
  lt block hmem := (h.lt block hmem).trans_le hle
  unnumbered := h.unnumbered
  new i hi := h.new i (hle.trans hi)
  heldIndexes i hi := (h.heldIndexes i hi).trans_le hle
  structured i hi := (h.structured i hi).trans_le hle
  seen := h.seen

theorem Ready.run_blocks (h : Ready idx held rewriter) {blocks : List (ℕ × Streamed)}
    (hfrom : ∀ block ∈ blocks, idx ≤ block.1) (hincreasing : (blocks.map Prod.fst).Pairwise (· < ·)) :
    ∃ idx' held' out rewriter', run push rewriter (eventsAt blocks) =
        (rewriter', streamFrom rewriter.nextIndex out) ∧
      Ready idx' held' rewriter' ∧
      rewriter'.nextIndex = rewriter.nextIndex + out.length ∧
      rewriter'.structuredSeen = (rewriter.structuredSeen ||
        blocks.any fun block => isTargetToolBlock rewriter.target block.2.start) ∧
      rewriter'.clientToolSeen = (rewriter.clientToolSeen ||
        blocks.any fun block => isClientToolUse rewriter.target block.2.start) ∧
      forwarded rewriter.target rewriter.structuredSeen rewriter.clientToolSeen
        (held.map Prod.snd) (blocks.map Prod.snd) = out ++ held'.map Prod.snd := by
  induction blocks generalizing idx held rewriter with
  | nil =>
    refine ⟨idx, held, [], rewriter, rfl, h, rfl, ?_, ?_, rfl⟩
    · rw [List.any_nil, Bool.or_false]
    · rw [List.any_nil, Bool.or_false]
  | cons block blocks ih =>
    rw [List.map_cons, List.pairwise_cons] at hincreasing
    obtain ⟨held', out, rewriter', hpushed⟩ :=
      (h.mono (hfrom block List.mem_cons_self)).push_block block.2
    obtain ⟨idx'', held'', out', rewriter'', hrun, hready, hnext, hseen, hclient, hforwarded⟩ :=
      ih hpushed.ready (fun later hmem => hincreasing.1 later.1 (List.mem_map_of_mem hmem))
        hincreasing.2
    rw [hpushed.target] at hseen hclient hforwarded
    refine ⟨idx'', held'', out ++ out', rewriter'', ?_, hready, ?_, ?_, ?_, ?_⟩
    · rw [eventsAt, List.flatMap_cons, run_append, hpushed.run_eq, ← eventsAt, hrun,
        hpushed.nextIndex, streamFrom_append]
    · rw [hnext, hpushed.nextIndex, List.length_append, Nat.add_assoc]
    · rw [hseen, hpushed.structuredSeen, List.any_cons, Bool.or_assoc]
    · rw [hclient, hpushed.clientToolSeen, List.any_cons, Bool.or_assoc]
    · rw [List.map_cons, hpushed.forwarded_eq, hforwarded, List.append_assoc]

/-- The output for a message is the stream of the blocks that are let through, whatever numbers the
blocks have in their increasing order. -/
theorem applyEventsAt_eq {blocks : List (ℕ × Streamed)}
    (hincreasing : (blocks.map Prod.fst).Pairwise (· < ·)) (stopReason : Option (List Char))
    (usage : UsageFields) :
    ((new target).apply
        (eventsAt blocks ++ [.messageDelta stopReason usage, .messageStop])).2 =
      streamFrom 0 (forwarded target false false [] (blocks.map Prod.snd)) ++
        [.messageDelta
          (if (blocks.any fun block => isTargetToolBlock target block.2.start) ∧
              (blocks.any fun block => isClientToolUse target block.2.start) = false ∧
              stopReason = some toolUseStopReason then some endTurn else stopReason) usage,
          .messageStop] := by
  obtain ⟨idx, held, out, rewriter, hrun, hready, hnext, hseen, hclient, hforwarded⟩ :=
    (ready_new target).run_blocks (fun _ _ => Nat.zero_le _) hincreasing
  obtain ⟨hout, hreleased, hreleasedReady⟩ := hready.releaseHeld
  obtain ⟨hout', -, -⟩ := hreleasedReady.releaseHeld
  have hrelease : rewriter.releaseHeld =
      (rewriter.releaseHeld.1, streamFrom rewriter.nextIndex (held.map Prod.snd)) :=
    Prod.ext rfl hout
  have hrelease' : rewriter.releaseHeld.1.releaseHeld.2 = [] := hout'
  have hreplaced : rewriter.releaseHeld.1.replacedStopReason =
      ((blocks.any fun block => isTargetToolBlock target block.2.start) &&
        !(blocks.any fun block => isClientToolUse target block.2.start)) := by
    rw [replacedStopReason, hreleased.structuredSeen, hreleased.clientToolSeen]
    dsimp only
    rw [hseen, hclient]
    rfl
  have hzero : rewriter.nextIndex = 0 + out.length := hnext
  have hall : forwarded target false false [] (blocks.map Prod.snd) = out ++ held.map Prod.snd :=
    hforwarded
  rw [apply, run_append, hrun, hall, streamFrom_append, ← hzero, run_cons, run_singleton, push,
    hrelease]
  dsimp only
  rw [push]
  dsimp only
  rw [hrelease', hreplaced]
  simp only [Bool.and_eq_true, Bool.not_eq_true', and_assoc, List.append_assoc, List.nil_append,
    List.singleton_append]
  rfl

def numberedFrom (index : ℕ) : List Streamed → List (ℕ × Streamed)
  | [] => []
  | streamed :: rest => (index, streamed) :: numberedFrom (index + 1) rest

theorem eventsAt_numberedFrom : eventsAt (numberedFrom index blocks) = streamFrom index blocks := by
  induction blocks generalizing index with
  | nil => rfl
  | cons streamed blocks ih => rw [numberedFrom, eventsAt, List.flatMap_cons, ← eventsAt, ih]; rfl

theorem map_snd_numberedFrom : (numberedFrom index blocks).map Prod.snd = blocks := by
  induction blocks generalizing index with
  | nil => rfl
  | cons streamed blocks ih => rw [numberedFrom, List.map_cons, ih]

theorem numberedFrom_increasing :
    (∀ block ∈ numberedFrom index blocks, index ≤ block.1) ∧
      ((numberedFrom index blocks).map Prod.fst).Pairwise (· < ·) := by
  induction blocks generalizing index with
  | nil => exact ⟨nofun, .nil⟩
  | cons streamed blocks ih =>
    obtain ⟨hfrom, hincreasing⟩ := ih (index + 1)
    refine ⟨fun block hmem => ?_, List.pairwise_cons.mpr ⟨fun i hi => ?_, hincreasing⟩⟩
    · rcases List.mem_cons.mp hmem with rfl | hmem
      · exact le_rfl
      · exact (Nat.le_succ index).trans (hfrom block hmem)
    · obtain ⟨block, hmem, rfl⟩ := List.mem_map.mp hi
      exact hfrom block hmem

theorem applyStream_eq (blocks : List Streamed) (stopReason : Option (List Char))
    (usage : UsageFields) :
    ((new target).apply
        (streamFrom 0 blocks ++ [.messageDelta stopReason usage, .messageStop])).2 =
      streamFrom 0 (forwarded target false false [] blocks) ++
        [.messageDelta
          (if (blocks.any fun streamed => isTargetToolBlock target streamed.start) ∧
              (blocks.any fun streamed => isClientToolUse target streamed.start) = false ∧
              stopReason = some toolUseStopReason then some endTurn else stopReason) usage,
          .messageStop] := by
  have hany (p : Streamed → Bool) :
      ((numberedFrom 0 blocks).any fun block => p block.2) = blocks.any p := by
    have hmap := @List.any_map _ _ Prod.snd (numberedFrom 0 blocks) p
    rw [map_snd_numberedFrom] at hmap
    exact hmap.symm
  rw [← eventsAt_numberedFrom, applyEventsAt_eq target (numberedFrom_increasing 0 blocks).2,
    map_snd_numberedFrom, hany fun streamed => isTargetToolBlock target streamed.start,
    hany fun streamed => isClientToolUse target streamed.start]

end StructuredOutputStreamRewriter

section Forwarded
open StructuredOutputStreamRewriter

variable {target : StructuredOutputTarget} {blocks before after rest held : List Streamed}
variable {structured : Streamed}

def startsText (streamed : Streamed) : Bool := streamed.start.isText

def startsTarget (target : StructuredOutputTarget) (streamed : Streamed) : Bool :=
  isTargetToolBlock target streamed.start

def startsClient (target : StructuredOutputTarget) (streamed : Streamed) : Bool :=
  isClientToolUse target streamed.start

/-- The blocks before the structured one that are let through. -/
def releasedBefore (target : StructuredOutputTarget) (before : List Streamed) : List Streamed :=
  if before.any (startsClient target) then before else before.rdropWhile startsText

theorem forwarded_after (target : StructuredOutputTarget) (clientToolSeen : Bool)
    (blocks : List Streamed) :
    forwarded target true clientToolSeen [] blocks =
      blocks.filter fun streamed => !startsTarget target streamed := by
  induction blocks generalizing clientToolSeen with
  | nil => rfl
  | cons streamed blocks ih =>
    rw [forwarded]
    cases htarget : isTargetToolBlock target streamed.start with
    | true =>
      rw [if_pos rfl, if_pos rfl, ih, List.filter_cons_of_neg (by simp [startsTarget, htarget])]
    | false =>
      rw [if_neg Bool.false_ne_true, if_neg (by simp), ih,
        List.filter_cons_of_pos (by simp [startsTarget, htarget]), List.nil_append]

theorem forwarded_client (hnot : ∀ streamed ∈ before, startsTarget target streamed = false) :
    forwarded target false true [] (before ++ rest) =
      before ++ forwarded target false true [] rest := by
  induction before with
  | nil => rfl
  | cons streamed before ih =>
    have htarget : isTargetToolBlock target streamed.start = false :=
      hnot streamed List.mem_cons_self
    rw [List.cons_append, forwarded, htarget, if_neg Bool.false_ne_true, if_neg (by simp),
      Bool.true_or, ih fun other hmem => hnot other (List.mem_cons_of_mem _ hmem),
      List.nil_append, List.cons_append]

theorem rdropWhile_append_cons {α : Type*} {p : α → Bool} {a : α} (h : p a = false)
    (l l' : List α) : (l ++ a :: l').rdropWhile p = l ++ a :: l'.rdropWhile p := by
  induction l' using List.reverseRecOn with
  | nil => rw [List.rdropWhile_concat_neg _ _ _ (by rw [h]; decide), List.rdropWhile_nil]
  | append_singleton l' b ih =>
    rw [← List.cons_append, ← List.append_assoc, List.rdropWhile_concat, List.rdropWhile_concat, ih]
    split_ifs
    · rfl
    · rw [List.append_assoc, List.cons_append]

theorem rtakeWhile_append_cons {α : Type*} {p : α → Bool} {a : α} (h : p a = false)
    (l l' : List α) : (l ++ a :: l').rtakeWhile p = l'.rtakeWhile p := by
  have hwhole : (l ++ a :: l').rdropWhile p ++ (l ++ a :: l').rtakeWhile p = l ++ a :: l' :=
    List.rdropWhile_append_rtakeWhile
  have htail : l'.rdropWhile p ++ l'.rtakeWhile p = l' := List.rdropWhile_append_rtakeWhile
  rw [rdropWhile_append_cons h, List.append_assoc, List.cons_append] at hwhole
  have hrest := (List.cons.inj (List.append_cancel_left hwhole)).2
  exact List.append_cancel_left (hrest.trans htail.symm)

/-- Texts are held until a block that is none, or a call of the client's. -/
theorem forwarded_before (hnot : ∀ streamed ∈ before, startsTarget target streamed = false)
    (hheld : ∀ streamed ∈ held, startsText streamed = true) :
    forwarded target false false held (before ++ rest) =
      if before.any (startsClient target) then
        held ++ before ++ forwarded target false true [] rest
      else (held ++ before).rdropWhile startsText ++
        forwarded target false false ((held ++ before).rtakeWhile startsText) rest := by
  induction before generalizing held with
  | nil =>
    rw [List.any_nil, if_neg Bool.false_ne_true, List.append_nil, List.nil_append,
      List.rtakeWhile_eq_self_iff.mpr hheld, List.rdropWhile_eq_nil_iff.mpr hheld, List.nil_append]
  | cons streamed before ih =>
    have htarget : isTargetToolBlock target streamed.start = false :=
      hnot streamed List.mem_cons_self
    have hrest : ∀ other ∈ before, startsTarget target other = false :=
      fun other hmem => hnot other (List.mem_cons_of_mem _ hmem)
    have hclient : startsClient target streamed = streamed.start.isToolUse := by
      rw [startsClient, isClientToolUse, htarget, Bool.not_false, Bool.and_true]
    rw [List.cons_append, forwarded, htarget, if_neg Bool.false_ne_true, List.any_cons, hclient,
      Bool.false_or, Bool.not_false, Bool.true_and]
    cases htool : streamed.start.isToolUse with
    | true =>
      rw [Bool.not_true, Bool.false_and, if_neg Bool.false_ne_true, Bool.true_or, if_pos rfl,
        forwarded_client hrest, List.append_assoc, List.cons_append]
    | false =>
      rw [Bool.not_false, Bool.true_and, Bool.false_or]
      cases htext : streamed.start.isText with
      | true =>
        have hheld' : ∀ other ∈ held ++ [streamed], startsText other = true := by
          intro other hmem
          rcases List.mem_append.mp hmem with hmem | hmem
          · exact hheld other hmem
          · rw [List.mem_singleton.mp hmem]
            exact htext
        have hassoc : held ++ [streamed] ++ before = held ++ streamed :: before := by
          rw [List.append_assoc, List.singleton_append]
        rw [if_pos rfl, ih hrest hheld', hassoc]
      | false =>
        have hnotText : startsText streamed = false := htext
        rw [if_neg Bool.false_ne_true, ih hrest fun _ hmem => (by cases hmem), List.nil_append]
        split_ifs
        · rw [List.append_assoc, List.cons_append]
        · rw [rdropWhile_append_cons hnotText, rtakeWhile_append_cons hnotText, List.append_assoc,
            List.cons_append]

theorem forwarded_split (hnot : ∀ streamed ∈ before, startsTarget target streamed = false)
    (hstructured : startsTarget target structured = true) :
    forwarded target false false [] (before ++ structured :: after) =
      releasedBefore target before ++ structuredStreamed structured ::
        after.filter fun streamed => !startsTarget target streamed := by
  have hcons (clientToolSeen : Bool) (held : List Streamed) :
      forwarded target false clientToolSeen held (structured :: after) =
        structuredStreamed structured ::
          after.filter fun streamed => !startsTarget target streamed := by
    rw [forwarded, show isTargetToolBlock target structured.start = true from hstructured,
      if_pos rfl, if_neg Bool.false_ne_true, forwarded_after]
  rw [forwarded_before hnot fun _ hmem => (by cases hmem), List.nil_append, hcons, hcons,
    releasedBefore]
  split_ifs
  · rfl
  · rfl

theorem forwarded_of_no_target
    (hnot : ∀ streamed ∈ blocks, startsTarget target streamed = false) :
    forwarded target false false [] blocks = blocks := by
  have hbefore := @forwarded_before target blocks [] [] hnot fun _ hmem => (by cases hmem)
  rw [List.append_nil, List.nil_append] at hbefore
  rw [hbefore, forwarded, forwarded, List.append_nil, List.rdropWhile_append_rtakeWhile, ite_self]

variable {parse : List Char → Option Json} {print : Json → List Char} {block : Block}

theorem kind_append (target : StructuredOutputTarget) (block : Block) (delta : Delta) :
    isTargetToolBlock target (block.append delta) = isTargetToolBlock target block ∧
      (block.append delta).isText = block.isText ∧
      (block.append delta).isToolUse = block.isToolUse := by
  cases block <;> cases delta <;> exact ⟨rfl, rfl, rfl⟩

theorem kind_foldl (target : StructuredOutputTarget) (block : Block) (deltas : List Delta) :
    isTargetToolBlock target (deltas.foldl Block.append block) = isTargetToolBlock target block ∧
      (deltas.foldl Block.append block).isText = block.isText ∧
      (deltas.foldl Block.append block).isToolUse = block.isToolUse := by
  induction deltas generalizing block with
  | nil => exact ⟨rfl, rfl, rfl⟩
  | cons delta deltas ih =>
    obtain ⟨htarget, htext, htool⟩ := kind_append target block delta
    rw [List.foldl_cons, (ih _).1, (ih _).2.1, (ih _).2.2, htarget, htext, htool]
    exact ⟨rfl, rfl, rfl⟩

theorem kind_finish (target : StructuredOutputTarget) {block block' : Block} {json : List Char}
    (h : block.finish parse json = some block') :
    isTargetToolBlock target block' = isTargetToolBlock target block ∧
      block'.isText = block.isText ∧ block'.isToolUse = block.isToolUse := by
  unfold Block.finish at h
  split at h
  · split_ifs at h
    · obtain rfl := Option.some.inj h
      exact ⟨rfl, rfl, rfl⟩
    · split at h
      · obtain rfl := Option.some.inj h
        exact ⟨rfl, rfl, rfl⟩
      · cases h
  · obtain rfl := Option.some.inj h
    exact ⟨rfl, rfl, rfl⟩

theorem kind_build (target : StructuredOutputTarget) {streamed : Streamed}
    (h : streamed.build parse = some block) :
    isTargetToolBlock target block = startsTarget target streamed ∧
      block.isText = startsText streamed ∧ block.isToolUse = streamed.start.isToolUse := by
  obtain ⟨htarget, htext, htool⟩ := kind_finish target h
  obtain ⟨htarget', htext', htool'⟩ := kind_foldl target streamed.start streamed.deltas
  exact ⟨htarget.trans htarget', htext.trans htext', htool.trans htool'⟩

theorem foldl_structured (deltas : List Delta) (text : List Char) :
    (deltas.filterMap structuredDelta).foldl Block.append (.text text) =
      .text (text ++ deltas.flatMap partialJson) := by
  induction deltas generalizing text with
  | nil => rw [List.flatMap_nil, List.append_nil]; rfl
  | cons delta deltas ih =>
    rw [List.flatMap_cons]
    by_cases hempty : partialJson delta = []
    · have hnone : structuredDelta delta = none := by rw [structuredDelta, if_pos hempty]
      rw [List.filterMap_cons_none hnone, ih, hempty, List.nil_append]
    · have hsome : structuredDelta delta = some (.textDelta (partialJson delta)) := by
        rw [structuredDelta, if_neg hempty]
      rw [List.filterMap_cons_some hsome, List.foldl_cons, Block.append, ih, List.append_assoc]

theorem build_structuredStreamed (streamed : Streamed) :
    (structuredStreamed streamed).build parse = some (.text streamed.json) := by
  rw [Streamed.build, structuredStreamed]
  dsimp only
  rw [foldl_structured]
  rfl

def SameBlocks (parse : List Char → Option Json) (blocks rewritten : List Block) : Prop :=
  blocks = rewritten ∨ ∃ before after text text' value,
    blocks = before ++ .text text :: after ∧ rewritten = before ++ .text text' :: after ∧
      parse text = some value ∧ parse text' = some value

theorem SameBlocks.length_eq {blocks rewritten : List Block}
    (h : SameBlocks parse blocks rewritten) : blocks.length = rewritten.length := by
  rcases h with rfl | ⟨before, after, text, text', value, rfl, rfl, -⟩
  · rfl
  · rw [List.length_append, List.length_append, List.length_cons, List.length_cons]

theorem not_sameBlocks_of_empty {before after : List Block} {text : List Char}
    (hempty : parse [] = none) (htext : parse text ≠ none) :
    ¬ SameBlocks parse (before ++ .text [] :: after) (before ++ .text text :: after) := by
  have hne : text ≠ [] := fun heq => htext (heq ▸ hempty)
  rintro (heq | ⟨before', after', text', text'', value, heq, heq', hparse, -⟩)
  · have htexts := (List.cons.inj (List.append_cancel_left heq)).1
    exact hne (Block.text.inj htexts).symm
  · have hget (blocks : List Block) (block : Block) :
        (blocks ++ block :: after)[blocks.length]? = some block := by
      rw [List.getElem?_append_right le_rfl, Nat.sub_self, List.getElem?_cons_zero]
    have hget' := hget before (.text [])
    have hget'' := hget before (.text text)
    rw [heq] at hget'
    rw [heq'] at hget''
    rcases Nat.lt_trichotomy before.length before'.length with hlt | hlength | hlt
    · rw [List.getElem?_append_left hlt] at hget' hget''
      have htexts := Block.text.inj (Option.some.inj (hget'.symm.trans hget''))
      exact hne htexts.symm
    · rw [hlength, List.getElem?_append_right le_rfl, Nat.sub_self, List.getElem?_cons_zero] at hget'
      have htexts := Block.text.inj (Option.some.inj hget')
      rw [htexts, hempty] at hparse
      cases hparse
    · obtain ⟨n, hn⟩ := Nat.exists_eq_add_of_lt hlt
      have hsub : before.length - before'.length = n + 1 := by omega
      rw [List.getElem?_append_right hlt.le, hsub, List.getElem?_cons_succ] at hget' hget''
      have htexts := Block.text.inj (Option.some.inj (hget'.symm.trans hget''))
      exact hne htexts.symm

theorem rewriteContent_of_no_target (print : Json → List Char) {content : List Block}
    (hnot : ∀ block ∈ content, isTargetToolBlock target block = false) :
    rewriteContent print target content = (content, none) := by
  have hdrop : (content.dropWhile fun block => !isTargetToolBlock target block) = [] := by
    rw [List.dropWhile_eq_nil_iff]
    exact fun block hmem => by rw [hnot block hmem]; rfl
  rw [rewriteContent, hdrop]

theorem rewriteContent_split (print : Json → List Char) {before after : List Block}
    (hnot : ∀ block ∈ before, isTargetToolBlock target block = false)
    (hstructured : isTargetToolBlock target block = true) :
    rewriteContent print target (before ++ block :: after) =
      if (before ++ after).any (isClientToolUse target) then
        (before ++ .text (structuredText print block) ::
          after.filter fun block => !isTargetToolBlock target block, none)
      else
        ((before.filter fun block => !block.isText) ++ .text (structuredText print block) ::
          after.filter fun block => !isTargetToolBlock target block && !block.isText,
          some endTurn) := by
  have hall : ∀ block ∈ before, (!isTargetToolBlock target block) = true :=
    fun block hmem => by rw [hnot block hmem]; rfl
  have hdrop : ((before ++ block :: after).dropWhile fun block =>
      !isTargetToolBlock target block) = block :: after := by
    rw [List.dropWhile_append_of_pos hall, List.dropWhile_cons_of_neg (by rw [hstructured]; decide)]
  have htake : ((before ++ block :: after).takeWhile fun block =>
      !isTargetToolBlock target block) = before := by
    rw [List.takeWhile_append_of_pos hall, List.takeWhile_cons_of_neg (by rw [hstructured]; decide),
      List.append_nil]
  have hclient : (before ++ block :: after).any (isClientToolUse target) =
      (before ++ after).any (isClientToolUse target) := by
    have hblock : isClientToolUse target block = false := by
      rw [isClientToolUse, hstructured, Bool.not_true, Bool.and_false]
    rw [List.any_append, List.any_cons, hblock, Bool.false_or, List.any_append]
  rw [rewriteContent, hdrop]
  dsimp only
  rw [htake, hclient]
  split_ifs with h
  · have hkeep : (before.filter fun block =>
        !(isTargetToolBlock target block || (!true && block.isText))) = before := by
      rw [List.filter_eq_self]
      exact fun block hmem => by rw [hnot block hmem]; rfl
    have hafter : (after.filter fun block =>
        !(isTargetToolBlock target block || (!true && block.isText))) =
        after.filter fun block => !isTargetToolBlock target block :=
      List.filter_congr fun block _ => by rw [Bool.not_true, Bool.false_and, Bool.or_false]
    rw [h, hkeep, hafter]
  · have hkeep : (before.filter fun block =>
        !(isTargetToolBlock target block || (!false && block.isText))) =
        before.filter fun block => !block.isText :=
      List.filter_congr fun block hmem => by rw [hnot block hmem]; rfl
    have hafter : (after.filter fun block =>
        !(isTargetToolBlock target block || (!false && block.isText))) =
        after.filter fun block => !isTargetToolBlock target block && !block.isText :=
      List.filter_congr fun block _ => by rw [Bool.not_false, Bool.true_and, Bool.not_or]
    rw [Bool.not_eq_true _ |>.mp h, hkeep, hafter]

/-- The texts around the first call of the internal tool are where the stream treats them as the
complete list does. With a call of the client's, one comes before or no text is held; without one,
the texts before are directly before and none comes after. -/
def TextsInStep (target : StructuredOutputTarget) (before after : List Streamed) : Prop :=
  if (before ++ after).any (startsClient target) then
    before.any (startsClient target) = true ∨ ∀ last ∈ before.getLast?, startsText last = false
  else (∀ streamed ∈ before.rdropWhile startsText, startsText streamed = false) ∧
    ∀ streamed ∈ after, startsText streamed = false

def keptBefore (target : StructuredOutputTarget) (before after : List Streamed) : List Streamed :=
  if (before ++ after).any (startsClient target) then before
  else before.filter fun streamed => !startsText streamed

def keptAfter (target : StructuredOutputTarget) (before after : List Streamed) : List Streamed :=
  if (before ++ after).any (startsClient target) then
    after.filter fun streamed => !startsTarget target streamed
  else after.filter fun streamed => !startsTarget target streamed && !startsText streamed

theorem filter_rdropWhile (blocks : List Streamed) :
    (blocks.filter fun streamed => !startsText streamed) =
      (blocks.rdropWhile startsText).filter fun streamed => !startsText streamed := by
  have htexts : ((blocks.rtakeWhile startsText).filter fun streamed => !startsText streamed) = [] := by
    rw [List.filter_eq_nil_iff]
    intro streamed hmem
    rw [List.mem_rtakeWhile_imp hmem]
    decide
  have hwhole : blocks.rdropWhile startsText ++ blocks.rtakeWhile startsText = blocks :=
    List.rdropWhile_append_rtakeWhile
  rw [← hwhole, List.filter_append, htexts, List.append_nil, hwhole]

theorem startsText_of_target {streamed : Streamed} (h : startsTarget target streamed = true) :
    startsText streamed = false := by
  unfold startsTarget isTargetToolBlock at h
  unfold startsText
  split at h
  · rename_i heq
    rw [heq]
    rfl
  · cases h

theorem keptAfter_eq (h : ∀ streamed ∈ after, startsText streamed = false) :
    (after.filter fun streamed => !startsTarget target streamed && !startsText streamed) =
      after.filter fun streamed => !startsTarget target streamed :=
  List.filter_congr fun streamed hmem => by rw [h streamed hmem, Bool.not_false, Bool.and_true]

theorem TextsInStep.kept (h : TextsInStep target before after) :
    releasedBefore target before = keptBefore target before after ∧
      (after.filter fun streamed => !startsTarget target streamed) =
        keptAfter target before after := by
  unfold TextsInStep at h
  unfold releasedBefore keptBefore keptAfter
  split_ifs at h ⊢ with hbefore hclient hclient
  · exact ⟨rfl, rfl⟩
  · exact absurd (by rw [List.any_append, hbefore, Bool.true_or]) hclient
  · refine ⟨?_, rfl⟩
    rw [List.rdropWhile_eq_self_iff]
    intro hne
    rw [h.resolve_left hbefore _ (List.getLast?_eq_some_getLast hne)]
    decide
  · refine ⟨?_, (keptAfter_eq h.2).symm⟩
    rw [filter_rdropWhile, eq_comm, List.filter_eq_self]
    exact fun streamed hmem => by rw [h.1 streamed hmem]; rfl

/-- What the stream and the list keep differs in number, if it differs. -/
theorem textsInStep_of_length
    (hlength : (releasedBefore target before).length +
        (after.filter fun streamed => !startsTarget target streamed).length =
      (keptBefore target before after).length + (keptAfter target before after).length) :
    TextsInStep target before after := by
  unfold TextsInStep
  unfold releasedBefore keptBefore keptAfter at hlength
  split_ifs at hlength ⊢ with hclient hbefore hbefore
  · exact .inl hbefore
  · right
    intro last hlast
    have hself : before.rdropWhile startsText = before :=
      (List.rdropWhile_prefix startsText before).eq_of_length (Nat.add_right_cancel hlength)
    rw [List.rdropWhile_eq_self_iff] at hself
    obtain ⟨hne, rfl⟩ := List.mem_getLast?_eq_getLast hlast
    exact Bool.not_eq_true _ |>.mp (hself hne)
  · exact absurd (by rw [List.any_append, hbefore, Bool.true_or]) hclient
  · rw [filter_rdropWhile] at hlength
    have hle := List.length_filter_le (fun streamed => !startsText streamed)
      (before.rdropWhile startsText)
    have hsub : (after.filter fun streamed =>
        !startsTarget target streamed && !startsText streamed) =
        (after.filter fun streamed => !startsTarget target streamed).filter fun streamed =>
          !startsText streamed := by
      rw [List.filter_filter]
      exact List.filter_congr fun streamed _ => Bool.and_comm _ _
    have hle' := List.length_filter_le (fun streamed => !startsText streamed)
      (after.filter fun streamed => !startsTarget target streamed)
    rw [hsub] at hlength
    have hbefore : ((before.rdropWhile startsText).filter fun streamed =>
        !startsText streamed).length = (before.rdropWhile startsText).length := by omega
    have hafter : ((after.filter fun streamed => !startsTarget target streamed).filter
        fun streamed => !startsText streamed).length =
        (after.filter fun streamed => !startsTarget target streamed).length := by omega
    rw [List.length_filter_eq_length_iff] at hbefore hafter
    refine ⟨fun streamed hmem => by simpa using hbefore streamed hmem, fun streamed hmem => ?_⟩
    cases htarget : startsTarget target streamed with
    | true => exact startsText_of_target htarget
    | false =>
      have hmem' : streamed ∈ after.filter fun streamed => !startsTarget target streamed :=
        List.mem_filter.mpr ⟨hmem, by rw [htarget]; rfl⟩
      simpa using hafter streamed hmem'

def built (parse : List Char → Option Json) (streamed : Streamed) : Block :=
  (streamed.build parse).getD streamed.start

theorem eq_map_built {content : List Block}
    (hbuild : List.Forall₂ (fun streamed block => streamed.build parse = some block) blocks
      content) :
    content = blocks.map (built parse) ∧
      ∀ streamed ∈ blocks, streamed.build parse = some (built parse streamed) := by
  induction hbuild with
  | nil => exact ⟨rfl, fun _ hmem => by cases hmem⟩
  | @cons streamed block blocks content hfirst _ ih =>
    have hbuilt : built parse streamed = block := by rw [built, hfirst, Option.getD_some]
    refine ⟨by rw [List.map_cons, hbuilt, ← ih.1], fun other hmem => ?_⟩
    rcases List.mem_cons.mp hmem with rfl | hmem
    · rw [hbuilt, hfirst]
    · exact ih.2 other hmem

theorem forall₂_map_built
    (h : ∀ streamed ∈ blocks, streamed.build parse = some (built parse streamed)) :
    List.Forall₂ (fun streamed block => streamed.build parse = some block) blocks
      (blocks.map (built parse)) := by
  induction blocks with
  | nil => exact .nil
  | cons streamed blocks ih =>
    exact .cons (h streamed List.mem_cons_self)
      (ih fun other hmem => h other (List.mem_cons_of_mem _ hmem))

theorem filter_map_built {p : Block → Bool} {q : Streamed → Bool}
    (h : ∀ streamed ∈ blocks, p (built parse streamed) = q streamed) :
    (blocks.map (built parse)).filter p = (blocks.filter q).map (built parse) := by
  rw [List.filter_map]
  exact congrArg (List.map (built parse)) (List.filter_congr h)

theorem any_map_built {p : Block → Bool} {q : Streamed → Bool}
    (h : ∀ streamed ∈ blocks, p (built parse streamed) = q streamed) :
    (blocks.map (built parse)).any p = blocks.any q := by
  induction blocks with
  | nil => rfl
  | cons streamed blocks ih =>
    rw [List.map_cons, List.any_cons, List.any_cons, h streamed List.mem_cons_self,
      ih fun other hmem => h other (List.mem_cons_of_mem _ hmem)]

theorem isClientToolUse_built {streamed : Streamed}
    (h : streamed.build parse = some (built parse streamed)) :
    isClientToolUse target (built parse streamed) = startsClient target streamed := by
  obtain ⟨htarget, -, htool⟩ := kind_build target h
  rw [startsClient, isClientToolUse, isClientToolUse, htarget, htool]
  rfl

theorem exists_toolUse (hstructured : startsTarget target structured = true)
    (h : structured.build parse = some block) : ∃ id name input,
    block = .toolUse id name input ∧
      (structured.json ≠ [] → parse structured.json = some (.obj input)) := by
  have htarget := (kind_build target h).1
  rw [hstructured] at htarget
  cases block with
  | toolUse id name input =>
    refine ⟨id, name, input, rfl, fun hjson => ?_⟩
    rw [Streamed.build] at h
    unfold Block.finish at h
    split at h
    · rw [if_neg hjson] at h
      split at h
      · rename_i hparse
        cases h
        exact hparse
      · cases h
    · rename_i hnot
      have heq := Option.some.inj h
      exact absurd heq (hnot id name input)
  | _ => cases htarget

/-- The client's blocks and stop reason, when the first call of the internal tool is known. -/
theorem assemble_apply_split
    (hbuilt : ∀ streamed ∈ before ++ structured :: after,
      streamed.build parse = some (built parse streamed))
    (hnot : ∀ streamed ∈ before, startsTarget target streamed = false)
    (hstructured : startsTarget target structured = true) (usage : UsageFields) :
    assemble parse ((new target).apply (streamFrom 0 (before ++ structured :: after) ++
        [.messageDelta (some toolUseStopReason) usage, .messageStop])).2 =
      some ⟨(releasedBefore target before).map (built parse) ++ .text structured.json ::
          (after.filter fun streamed => !startsTarget target streamed).map (built parse), none,
        if (before ++ after).any (startsClient target) then some toolUseStopReason
        else some endTurn⟩ := by
  have hbefore : ∀ streamed ∈ releasedBefore target before,
      streamed.build parse = some (built parse streamed) := by
    intro streamed hmem
    have hmem' : streamed ∈ before := by
      unfold releasedBefore at hmem
      split_ifs at hmem
      · exact hmem
      · exact (List.rdropWhile_prefix startsText before).subset hmem
    exact hbuilt streamed (List.mem_append_left _ hmem')
  have hafter : ∀ streamed ∈ after.filter fun streamed => !startsTarget target streamed,
      streamed.build parse = some (built parse streamed) := fun streamed hmem =>
    hbuilt streamed (List.mem_append_right _ (List.mem_cons_of_mem _ (List.mem_filter.mp hmem).1))
  have htargets : ((before ++ structured :: after).any fun streamed =>
      isTargetToolBlock target streamed.start) = true := by
    rw [List.any_append, List.any_cons, show isTargetToolBlock target structured.start = true from
      hstructured, Bool.true_or, Bool.or_true]
  have hclients : ((before ++ structured :: after).any fun streamed =>
      isClientToolUse target streamed.start) = (before ++ after).any (startsClient target) := by
    have hclient : isClientToolUse target structured.start = false := by
      rw [isClientToolUse, show isTargetToolBlock target structured.start = true from hstructured,
        Bool.not_true, Bool.and_false]
    rw [List.any_append, List.any_cons, hclient, Bool.false_or, List.any_append]
    rfl
  have hforall := List.rel_append (forall₂_map_built hbefore)
    (List.Forall₂.cons (build_structuredStreamed structured) (forall₂_map_built hafter))
  rw [applyStream_eq, forwarded_split hnot hstructured, assemble_stream hforall, htargets, hclients]
  split_ifs with hreplaced hclient hclient
  · rw [hclient] at hreplaced
    cases hreplaced.2.1
  · rfl
  · rfl
  · exact absurd ⟨rfl, Bool.not_eq_true _ |>.mp hclient, rfl⟩ hreplaced

/-- The stream of a message and its complete list of blocks come out the same. -/
def Agrees (parse : List Char → Option Json) (print : Json → List Char)
    (target : StructuredOutputTarget) (blocks : List Streamed) (content : List Block)
    (stopReason : Option (List Char)) (usage : UsageFields) : Prop :=
  ∃ assembly,
    assemble parse ((new target).apply
      (streamFrom 0 blocks ++ [.messageDelta stopReason usage, .messageStop])).2 = some assembly ∧
    SameBlocks parse assembly.blocks (rewriteContent print target content).1 ∧
    assembly.stopReason = (rewriteContent print target content).2.or stopReason ∧
    (stopReason ≠ some endTurn → (assembly.stopReason = some endTurn ↔
      (rewriteContent print target content).2 = some endTurn))

theorem rewriteContent_built (print : Json → List Char)
    (hbuilt : ∀ streamed ∈ before ++ structured :: after,
      streamed.build parse = some (built parse streamed))
    (hnot : ∀ streamed ∈ before, startsTarget target streamed = false)
    (hstructured : startsTarget target structured = true) :
    rewriteContent print target ((before ++ structured :: after).map (built parse)) =
      ((keptBefore target before after).map (built parse) ++
        .text (structuredText print (built parse structured)) ::
          (keptAfter target before after).map (built parse),
        if (before ++ after).any (startsClient target) then none else some endTurn) := by
  have hbefore : ∀ streamed ∈ before, streamed.build parse = some (built parse streamed) :=
    fun streamed hmem => hbuilt streamed (List.mem_append_left _ hmem)
  have hafter : ∀ streamed ∈ after, streamed.build parse = some (built parse streamed) :=
    fun streamed hmem => hbuilt streamed (List.mem_append_right _ (List.mem_cons_of_mem _ hmem))
  have hmap : (before ++ structured :: after).map (built parse) =
      before.map (built parse) ++ built parse structured :: after.map (built parse) := by
    rw [List.map_append, List.map_cons]
  have hkind := (kind_build target
    (hbuilt structured (List.mem_append_right _ List.mem_cons_self))).1
  have hnotBlocks : ∀ block ∈ before.map (built parse), isTargetToolBlock target block = false := by
    intro block hmem
    obtain ⟨streamed, hstreamed, rfl⟩ := List.mem_map.mp hmem
    rw [(kind_build target (hbefore streamed hstreamed)).1]
    exact hnot streamed hstreamed
  have hclient : (before.map (built parse) ++ after.map (built parse)).any
      (isClientToolUse target) = (before ++ after).any (startsClient target) := by
    rw [← List.map_append]
    refine any_map_built fun streamed hmem => isClientToolUse_built ?_
    rcases List.mem_append.mp hmem with hmem | hmem
    · exact hbefore streamed hmem
    · exact hafter streamed hmem
  rw [hmap, rewriteContent_split print hnotBlocks (hkind.trans hstructured), hclient]
  unfold keptBefore keptAfter
  split_ifs
  · rw [filter_map_built fun streamed hmem => congrArg not (kind_build target (hafter streamed hmem)).1]
  · rw [filter_map_built fun streamed hmem =>
        congrArg not (kind_build target (hbefore streamed hmem)).2.1,
      filter_map_built fun streamed hmem => congrArg₂ (fun a b => !a && !b)
        (kind_build target (hafter streamed hmem)).1 (kind_build target (hafter streamed hmem)).2.1]

theorem agrees_split_iff (hempty : parse [] = none)
    (hround : ∀ id name input,
      built parse structured = .toolUse id name input →
        parse (print (.obj input)) = some (.obj input))
    (hbuilt : ∀ streamed ∈ before ++ structured :: after,
      streamed.build parse = some (built parse streamed))
    (hnot : ∀ streamed ∈ before, startsTarget target streamed = false)
    (hstructured : startsTarget target structured = true) (usage : UsageFields) :
    Agrees parse print target (before ++ structured :: after)
        ((before ++ structured :: after).map (built parse)) (some toolUseStopReason) usage ↔
      structured.json ≠ [] ∧ TextsInStep target before after := by
  have hself := hbuilt structured (List.mem_append_right _ List.mem_cons_self)
  obtain ⟨id, name, input, hblock, hparse⟩ := exists_toolUse hstructured hself
  have htext : structuredText print (built parse structured) = print (.obj input) := by
    rw [hblock]
    rfl
  have hprint := hround id name input hblock
  unfold Agrees
  rw [assemble_apply_split hbuilt hnot hstructured usage,
    rewriteContent_built print hbuilt hnot hstructured, htext]
  constructor
  · rintro ⟨assembly, hassembly, hsame, -⟩
    obtain rfl := Option.some.inj hassembly
    have hlength := hsame.length_eq
    simp only [List.length_append, List.length_cons, List.length_map] at hlength
    have htexts : TextsInStep target before after := textsInStep_of_length (by omega)
    refine ⟨fun hjson => ?_, htexts⟩
    rw [htexts.kept.1, htexts.kept.2, hjson] at hsame
    exact not_sameBlocks_of_empty hempty (by rw [hprint]; exact Option.some_ne_none _) hsame
  · rintro ⟨hjson, htexts⟩
    refine ⟨_, rfl, ?_, ?_⟩
    · rw [htexts.kept.1, htexts.kept.2]
      exact .inr ⟨_, _, _, _, .obj input, rfl, rfl, hparse hjson, hprint⟩
    · dsimp only
      split_ifs
      · exact ⟨rfl, fun _ => by decide⟩
      · exact ⟨rfl, fun _ => Iff.rfl⟩

theorem eq_false_or_exists_first {α : Type*} (p : α → Bool) (l : List α) :
    (∀ a ∈ l, p a = false) ∨ ∃ before a after, l = before ++ a :: after ∧
      (∀ b ∈ before, p b = false) ∧ p a = true := by
  induction l with
  | nil => exact .inl fun _ hmem => by cases hmem
  | cons a l ih =>
    cases ha : p a with
    | true => exact .inr ⟨[], a, l, rfl, fun _ hmem => (by cases hmem), ha⟩
    | false =>
      rcases ih with hall | ⟨before, b, after, rfl, hbefore, hb⟩
      · exact .inl fun b hmem => (List.mem_cons.mp hmem).elim (fun heq => heq ▸ ha) (hall b)
      · exact .inr ⟨a :: before, b, after, rfl,
          fun c hmem => (List.mem_cons.mp hmem).elim (fun heq => heq ▸ ha) (hbefore c), hb⟩

/-- The JSON of the first call of the internal tool comes in deltas, and the texts around the call
are in step. -/
def InStep (target : StructuredOutputTarget) (blocks : List Streamed) : Prop :=
  ∀ before structured after, blocks = before ++ structured :: after →
    (∀ streamed ∈ before, startsTarget target streamed = false) →
    startsTarget target structured = true →
    structured.json ≠ [] ∧ TextsInStep target before after

theorem agrees_iff_inStep {content : List Block} {stopReason : Option (List Char)}
    {usage : UsageFields}
    (hbuild : List.Forall₂ (fun streamed block => streamed.build parse = some block) blocks content)
    (hempty : parse [] = none)
    (hround : ∀ id name input, .toolUse id name input ∈ content →
      parse (print (.obj input)) = some (.obj input))
    (hstop : content.any Block.isToolUse = true → stopReason = some toolUseStopReason) :
    Agrees parse print target blocks content stopReason usage ↔ InStep target blocks := by
  obtain ⟨rfl, hbuilt⟩ := eq_map_built hbuild
  -- With a call of the internal tool, the message stops for a tool.
  have hsplit {before after : List Streamed} {structured : Streamed}
      (hblocks : blocks = before ++ structured :: after)
      (hnot : ∀ streamed ∈ before, startsTarget target streamed = false)
      (hstructured : startsTarget target structured = true) :
      Agrees parse print target blocks (blocks.map (built parse)) stopReason usage ↔
        structured.json ≠ [] ∧ TextsInStep target before after := by
    subst hblocks
    have hmem : structured ∈ before ++ structured :: after :=
      List.mem_append_right _ List.mem_cons_self
    obtain ⟨id, name, input, hblock, -⟩ := exists_toolUse hstructured (hbuilt structured hmem)
    have hcontent : built parse structured ∈
        (before ++ structured :: after).map (built parse) := List.mem_map_of_mem hmem
    rw [hstop (List.any_eq_true.mpr ⟨_, hcontent, by rw [hblock]; rfl⟩)]
    refine agrees_split_iff hempty (fun id name input heq => ?_) hbuilt hnot hstructured usage
    exact hround id name input (heq ▸ hcontent)
  constructor
  · intro hagrees before structured after hblocks hnot hstructured
    exact (hsplit hblocks hnot hstructured).mp hagrees
  · intro hinStep
    rcases eq_false_or_exists_first (startsTarget target) blocks with
      hnone | ⟨before, structured, after, hblocks, hnot, hstructured⟩
    · have hnoneBlocks : ∀ block ∈ blocks.map (built parse),
          isTargetToolBlock target block = false := by
        intro block hmem
        obtain ⟨streamed, hstreamed, rfl⟩ := List.mem_map.mp hmem
        rw [(kind_build target (hbuilt streamed hstreamed)).1]
        exact hnone streamed hstreamed
      have htargets : (blocks.any fun streamed => isTargetToolBlock target streamed.start) = false :=
        List.any_eq_false.mpr fun streamed hmem => by
          rw [show isTargetToolBlock target streamed.start = false from hnone streamed hmem]
          exact Bool.false_ne_true
      unfold Agrees
      rw [applyStream_eq, forwarded_of_no_target hnone, assemble_stream hbuild, htargets,
        if_neg fun hreplaced => Bool.false_ne_true hreplaced.1,
        rewriteContent_of_no_target print hnoneBlocks]
      exact ⟨_, rfl, .inl rfl, rfl, fun hne => ⟨fun heq => absurd heq hne, nofun⟩⟩
    · exact (hsplit hblocks hnot hstructured).mpr (hinStep _ _ _ hblocks hnot hstructured)

def internalTool : StructuredOutputTarget := ⟨"structured_output".toList, true⟩

def emptyObject : List Char := ['\x7b', '\x7d']

def parseEmptyObject (text : List Char) : Option Json :=
  if text = emptyObject then some (.obj []) else none

def printEmptyObject : Json → List Char
  | .obj [] => emptyObject
  | _ => "null".toList

def answer : Streamed where
  start := .toolUse "toolu_1".toList internalTool.toolName []
  deltas := [.inputJsonDelta emptyObject]
  fits delta hmem := by
    rw [List.mem_singleton.mp hmem]
    trivial

def preamble : Streamed where
  start := .text []
  deltas := [.textDelta "Sure.".toList]
  fits delta hmem := by
    rw [List.mem_singleton.mp hmem]
    trivial

def thought : Streamed := ⟨.thinking "Hm.".toList [], [], fun _ hmem => (by cases hmem)⟩

def noUsage : UsageFields := ⟨none, none, none, none⟩

theorem agrees_iff_inStep_preamble :
    Agrees parseEmptyObject printEmptyObject internalTool [preamble, answer]
        [.text "Sure.".toList, .toolUse "toolu_1".toList internalTool.toolName []]
        (some toolUseStopReason) noUsage ↔ InStep internalTool [preamble, answer] := by
  refine agrees_iff_inStep (.cons rfl (.cons rfl .nil)) rfl ?_ fun _ => rfl
  intro id name input hmem
  have hcall := (List.mem_cons.mp hmem).resolve_left nofun
  cases List.mem_singleton.mp hcall
  rfl

/-- A text before a thinking block is let go before the structured call comes. -/
theorem not_agrees_thinkingBetween :
    List.Forall₂ (fun streamed block => streamed.build parseEmptyObject = some block)
        [preamble, thought, answer] [.text "Sure.".toList, .thinking "Hm.".toList [],
          .toolUse "toolu_1".toList internalTool.toolName []] ∧
    ¬ Agrees parseEmptyObject printEmptyObject internalTool [preamble, thought, answer]
        [.text "Sure.".toList, .thinking "Hm.".toList [],
          .toolUse "toolu_1".toList internalTool.toolName []]
        (some toolUseStopReason) noUsage := by
  refine ⟨.cons rfl (.cons rfl (.cons rfl .nil)), ?_⟩
  rintro ⟨assembly, hassembly, hsame, -⟩
  have heq : assembly = ⟨[.text "Sure.".toList, .thinking "Hm.".toList [], .text emptyObject], none,
    some endTurn⟩ := (Option.some.inj hassembly).symm
  have hlength := hsame.length_eq
  rw [heq] at hlength
  exact absurd hlength (by decide)

end Forwarded

end KiroProxy.StructuredOutput
