import KiroProxy.KeyedList
import KiroProxy.Stream.Rules

/-!
# The state manager of the event stream

The manager hands out block indices, remembers which blocks were started and stopped, and
drops events that do not fit. It does not check that another block is still open when a
block starts: only text blocks are stopped before a tool block.
-/

namespace KiroProxy.Stream

structure BlockState where
  blockType : BlockType
  started : Bool
  stopped : Bool
  deriving DecidableEq, Repr

def BlockState.isOpen (block : BlockState) : Bool :=
  block.started && !block.stopped

def BlockState.stopIf (types : BlockType → Bool) (block : BlockState) : BlockState :=
  if block.isOpen && types block.blockType then { block with stopped := true } else block

def refusalStopReason : String := "refusal"

structure SseStateManager where
  messageStarted : Bool := false
  messageDeltaSent : Bool := false
  activeBlocks : List (ℕ × BlockState) := []
  messageEnded : Bool := false
  nextBlockIndex : ℕ := 0
  stopReason : Option String := none
  hasToolUse : Bool := false
  deriving DecidableEq, Repr

namespace SseStateManager

def block (m : SseStateManager) (index : ℕ) : Option BlockState :=
  KeyedList.get index m.activeBlocks

def isBlockOpenOfType (m : SseStateManager) (index : ℕ) (expectedType : BlockType) : Bool :=
  match m.block index with
  | some b => b.isOpen && b.blockType = expectedType
  | none => false

def setStopReason (m : SseStateManager) (reason : String) : SseStateManager :=
  if m.stopReason = some refusalStopReason then m else { m with stopReason := some reason }

def hasNonThinkingBlocks (m : SseStateManager) : Bool :=
  m.activeBlocks.any fun entry => entry.2.blockType ≠ .thinking

def openBlocks (m : SseStateManager) (types : BlockType → Bool) : List ℕ :=
  (m.activeBlocks.filter fun entry => entry.2.isOpen && types entry.2.blockType).map Prod.fst

def stopBlocks (m : SseStateManager) (types : BlockType → Bool) : SseStateManager :=
  { m with activeBlocks := m.activeBlocks.map fun entry => (entry.1, entry.2.stopIf types) }

def closeOpenNonToolUseBlocks (m : SseStateManager) : List SseEvent × SseStateManager :=
  let types : BlockType → Bool := fun type => type ≠ .toolUse
  (((m.openBlocks types).insertionSort (· ≤ ·)).map .contentBlockStop, m.stopBlocks types)

def closeOpenBlocks (m : SseStateManager) : List SseEvent × SseStateManager :=
  let types : BlockType → Bool := fun _ => true
  (((m.openBlocks types).insertionSort (· ≤ ·)).map .contentBlockStop, m.stopBlocks types)

def getStopReason (m : SseStateManager) : String :=
  match m.stopReason with
  | some reason =>
    if reason = refusalStopReason then refusalStopReason
    else if reason = "model_context_window_exceeded" ∧ m.hasToolUse then "tool_use"
    else reason
  | none => if m.hasToolUse then "tool_use" else "end_turn"

def handleMessageStart (m : SseStateManager) : Option SseEvent × SseStateManager :=
  if m.messageStarted then (none, m)
  else (some .messageStart, { m with messageStarted := true })

def stopTextBlocksBefore (m : SseStateManager) (content : ContentBlock) :
    List SseEvent × SseStateManager :=
  let isText : BlockType → Bool := fun type => type = .text
  if content.type = .toolUse ∨ content.type = .serverToolUse then
    ((m.openBlocks isText).map .contentBlockStop, { m.stopBlocks isText with hasToolUse := true })
  else ([], m)

def handleContentBlockStart (m : SseStateManager) (index : ℕ) (content : ContentBlock) :
    List SseEvent × SseStateManager :=
  let (events, m) := m.stopTextBlocksBefore content
  match m.block index with
  | some b =>
    if b.started then (events, m)
    else
      (events ++ [.contentBlockStart index content],
        { m with activeBlocks :=
            KeyedList.insert index { b with started := true } m.activeBlocks })
  | none =>
    (events ++ [.contentBlockStart index content],
      { m with activeBlocks :=
          KeyedList.insert index ⟨content.type, true, false⟩ m.activeBlocks })

def handleContentBlockDelta (m : SseStateManager) (index : ℕ) (delta : Delta) :
    Option SseEvent :=
  match m.block index with
  | some b => if b.isOpen then some (.contentBlockDelta index delta) else none
  | none => none

def handleContentBlockStop (m : SseStateManager) (index : ℕ) :
    Option SseEvent × SseStateManager :=
  match m.block index with
  | some b =>
    if b.stopped then (none, m)
    else
      (some (.contentBlockStop index),
        { m with activeBlocks :=
            KeyedList.insert index { b with stopped := true } m.activeBlocks })
  | none => (none, m)

def generateFinalEventsWithUsage (m : SseStateManager) : List SseEvent × SseStateManager :=
  let (stops, m) := m.closeOpenBlocks
  let delta : List SseEvent :=
    if m.messageDeltaSent then [] else [.messageDelta m.getStopReason.toList none]
  let m := { m with messageDeltaSent := true }
  let stop : List SseEvent := if m.messageEnded then [] else [.messageStop]
  (stops ++ delta ++ stop, { m with messageEnded := true })

variable {m : SseStateManager} {i : ℕ} (types : BlockType → Bool) (b : BlockState)

theorem isBlockOpenOfType_iff {type : BlockType} :
    m.isBlockOpenOfType i type = true ↔
      ∃ b, m.block i = some b ∧ b.isOpen = true ∧ b.blockType = type := by
  unfold isBlockOpenOfType
  cases h : m.block i with
  | none => simp
  | some b => simp

theorem block_stopBlocks (m : SseStateManager) (types : BlockType → Bool) (i : ℕ) :
    (m.stopBlocks types).block i = (m.block i).map (BlockState.stopIf types) :=
  KeyedList.get_mapValues _ _ _

theorem keys_stopBlocks (m : SseStateManager) (types : BlockType → Bool) :
    (m.stopBlocks types).activeBlocks.map Prod.fst = m.activeBlocks.map Prod.fst := by
  rw [stopBlocks, List.map_map]
  rfl

theorem isOpen_stopIf :
    (b.stopIf types).isOpen = true ↔ b.isOpen = true ∧ types b.blockType = false := by
  unfold BlockState.stopIf
  by_cases h : (b.isOpen && types b.blockType) = true
  · rw [if_pos h]
    rw [Bool.and_eq_true] at h
    simp [BlockState.isOpen, h]
  · rw [if_neg h]
    rw [Bool.and_eq_true, not_and] at h
    constructor
    · intro hopen
      exact ⟨hopen, by simpa using h hopen⟩
    · exact fun hopen => hopen.1

theorem blockType_stopIf : (b.stopIf types).blockType = b.blockType := by
  unfold BlockState.stopIf
  split <;> rfl

theorem started_stopIf : (b.stopIf types).started = b.started := by
  unfold BlockState.stopIf
  split <;> rfl

theorem isBlockOpenOfType_stopBlocks (m : SseStateManager) (types : BlockType → Bool) (i : ℕ)
    (type : BlockType) : (m.stopBlocks types).isBlockOpenOfType i type = true ↔
      m.isBlockOpenOfType i type = true ∧ types type = false := by
  simp only [isBlockOpenOfType_iff, block_stopBlocks, Option.map_eq_some_iff]
  constructor
  · rintro ⟨_, ⟨b, hb, rfl⟩, hopen, rfl⟩
    rw [isOpen_stopIf] at hopen
    rw [blockType_stopIf]
    exact ⟨⟨b, hb, hopen.1, rfl⟩, hopen.2⟩
  · rintro ⟨⟨b, hb, hopen, rfl⟩, htypes⟩
    exact ⟨_, ⟨b, hb, rfl⟩, (isOpen_stopIf types b).mpr ⟨hopen, htypes⟩, blockType_stopIf types b⟩

theorem mem_openBlocks {types : BlockType → Bool} (hnodup : (m.activeBlocks.map Prod.fst).Nodup) :
    i ∈ m.openBlocks types ↔ ∃ type, types type = true ∧ m.isBlockOpenOfType i type = true := by
  simp only [openBlocks, List.mem_map, List.mem_filter, isBlockOpenOfType_iff, Prod.exists,
    Bool.and_eq_true, exists_and_right, exists_eq_right]
  constructor
  · rintro ⟨b, hmem, hopen, htypes⟩
    exact ⟨b.blockType, htypes, b, (KeyedList.get_eq_some_iff hnodup).mpr hmem, hopen, rfl⟩
  · rintro ⟨_, htypes, b, hget, hopen, rfl⟩
    exact ⟨b, KeyedList.mem_of_get hget, hopen, htypes⟩

theorem nodup_openBlocks (hnodup : (m.activeBlocks.map Prod.fst).Nodup) :
    (m.openBlocks types).Nodup :=
  hnodup.sublist ((List.filter_sublist).map Prod.fst)

theorem isBlockOpenOfType_handleContentBlockStop {i j : ℕ} (hne : i ≠ j) (type : BlockType) :
    (m.handleContentBlockStop j).2.isBlockOpenOfType i type =
      m.isBlockOpenOfType i type := by
  have hblock : (m.handleContentBlockStop j).2.block i = m.block i := by
    unfold handleContentBlockStop
    split
    · split_ifs
      · rfl
      · exact KeyedList.get_insert_of_ne hne _ _
    · rfl
  rw [isBlockOpenOfType, hblock, isBlockOpenOfType]

theorem hasNonThinkingBlocks_handleContentBlockStop (m : SseStateManager) (j : ℕ) :
    (m.handleContentBlockStop j).2.hasNonThinkingBlocks = m.hasNonThinkingBlocks := by
  unfold handleContentBlockStop
  split
  · next b hb =>
    split_ifs
    · rfl
    · exact KeyedList.any_insert_of_get hb rfl
  · rfl

theorem hasNonThinkingBlocks_of_open {type : BlockType} (h : m.isBlockOpenOfType i type = true)
    (htype : type ≠ .thinking) : m.hasNonThinkingBlocks = true := by
  obtain ⟨b, hb, -, rfl⟩ := isBlockOpenOfType_iff.mp h
  exact List.any_eq_true.mpr ⟨(i, b), KeyedList.mem_of_get hb, by simpa using htype⟩

end SseStateManager

end KiroProxy.Stream
