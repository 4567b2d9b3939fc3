import KiroProxy.Stream.StateManager

/-!
# The events sent so far

The functions of the stream context return the events they make, and their callers append
them in the order of the calls. Here they are appended to the state manager's own record.
`Serial` ties the manager to the monitor: the events sent keep the message order, and the
block that the monitor sees open is the only block that the manager has open.
-/

namespace KiroProxy.Stream

structure Output where
  manager : SseStateManager
  events : List SseEvent
  deriving DecidableEq, Repr

/-- What is known of the indices: the blocks of some were started, and some belong to
tool calls. -/
structure Marks where
  started : Set ℕ
  tools : Set ℕ

/-- Nothing is known of the indices. -/
def Marks.none : Marks := ⟨∅, ∅⟩

/-- One more index belongs to a tool call. -/
def Marks.addTool (marks : Marks) (i : ℕ) : Marks :=
  { marks with tools := insert i marks.tools }

namespace Output

def init : Output := ⟨{}, []⟩

def push (o : Output) (event : SseEvent) : Output :=
  { o with events := o.events ++ [event] }

def start (o : Output) (index : ℕ) (content : ContentBlock) : Output :=
  let (events, manager) := o.manager.handleContentBlockStart index content
  ⟨manager, o.events ++ events⟩

def takeBlockIndex (o : Output) : Output :=
  { o with manager := { o.manager with nextBlockIndex := o.manager.nextBlockIndex + 1 } }

/-- `next_block_index` followed by the start of that block. -/
def startNew (o : Output) (content : ContentBlock) : Output :=
  o.takeBlockIndex.start o.manager.nextBlockIndex content

def delta (o : Output) (index : ℕ) (delta : Delta) : Output :=
  { o with events := o.events ++ (o.manager.handleContentBlockDelta index delta).toList }

def stop (o : Output) (index : ℕ) : Output :=
  let (event, manager) := o.manager.handleContentBlockStop index
  ⟨manager, o.events ++ event.toList⟩

def setHasToolUse (o : Output) : Output :=
  { o with manager := { o.manager with hasToolUse := true } }

def setStopReason (o : Output) (reason : String) : Output :=
  { o with manager := o.manager.setStopReason reason }

def closeOpenNonToolUseBlocks (o : Output) : Output :=
  let (events, manager) := o.manager.closeOpenNonToolUseBlocks
  ⟨manager, o.events ++ events⟩

def generateFinalEventsWithUsage (o : Output) : Output :=
  let (events, manager) := o.manager.generateFinalEventsWithUsage
  ⟨manager, o.events ++ events⟩

def Started (o : Output) (index : ℕ) : Prop :=
  ∃ b, o.manager.block index = some b

/-- The manager's record of a message whose events keep the order, with the open block. -/
structure Tracks (marks : Marks) (m : SseStateManager) (r : MessageRules)
    (slot : Option (ℕ × BlockType)) : Prop where
  live : r.Live
  unfinished : m.messageDeltaSent = false ∧ m.messageEnded = false
  nodup : (m.activeBlocks.map Prod.fst).Nodup
  started : ∀ i b, m.block i = some b → b.started = true
  below : ∀ i b, m.block i = some b → i < m.nextBlockIndex
  nextIndex_le : r.nextIndex ≤ m.nextBlockIndex
  openBlock : r.openBlock = slot.map Prod.fst
  isOpen_iff : ∀ i type, m.isBlockOpenOfType i type = true ↔ slot = some (i, type)
  marks_started : ∀ i ∈ marks.started, m.block i ≠ none
  tools_below : ∀ i ∈ marks.tools, i < m.nextBlockIndex
  tools_type : ∀ i type, slot = some (i, type) → i ∈ marks.tools → type = .toolUse

/-- The events keep the message order and the given block is the open one. -/
def Serial (marks : Marks) (o : Output) (slot : Option (ℕ × BlockType)) : Prop :=
  ∃ r, MessageRules.run o.events = some r ∧ Tracks marks o.manager r slot

open SseStateManager

variable {marks : Marks} {o : Output} {m : SseStateManager} {r : MessageRules}
  {slot : Option (ℕ × BlockType)}

theorem Tracks.openBlocks_eq (h : Tracks marks m r slot) (types : BlockType → Bool) :
    m.openBlocks types = ((slot.filter fun entry => types entry.2).map Prod.fst).toList := by
  have hmem : ∀ i, i ∈ m.openBlocks types ↔ ∃ type, types type = true ∧ slot = some (i, type) := by
    intro i
    simp only [mem_openBlocks h.nodup, h.isOpen_iff]
  have hnodup := nodup_openBlocks types h.nodup
  have hempty : (∀ i, i ∉ m.openBlocks types) → m.openBlocks types = [] :=
    List.eq_nil_iff_forall_not_mem.mpr
  cases slot with
  | none => exact hempty fun i hi => by simpa using (hmem i).mp hi
  | some entry =>
    by_cases htypes : types entry.2 = true
    · have hall : ∀ i, i ∈ m.openBlocks types ↔ i = entry.1 := by
        intro i
        rw [hmem]
        constructor
        · rintro ⟨type, -, heq⟩
          rw [Option.some.injEq] at heq
          rw [heq]
        · rintro rfl
          exact ⟨entry.2, htypes, rfl⟩
      have hperm := (List.perm_ext_iff_of_nodup hnodup (List.nodup_singleton entry.1)).mpr
        fun i => (hall i).trans List.mem_singleton.symm
      rw [List.perm_singleton.mp hperm]
      simp [Option.filter, htypes]
    · rw [hempty fun i hi => ?_]
      · simp [Option.filter, htypes]
      · obtain ⟨type, htype, heq⟩ := (hmem i).mp hi
        rw [Option.some.injEq] at heq
        rw [heq] at htypes
        exact htypes htype

theorem Tracks.stopBlocks (h : Tracks marks m r slot) (types : BlockType → Bool) :
    Tracks marks (m.stopBlocks types) { r with openBlock :=
        (slot.filter fun entry => !types entry.2).map Prod.fst }
      (slot.filter fun entry => !types entry.2) where
  live := h.live
  unfinished := h.unfinished
  nodup := by
    rw [keys_stopBlocks]
    exact h.nodup
  started i b hb := by
    rw [block_stopBlocks, Option.map_eq_some_iff] at hb
    obtain ⟨b, hb, rfl⟩ := hb
    rw [started_stopIf]
    exact h.started i b hb
  below i b hb := by
    rw [block_stopBlocks, Option.map_eq_some_iff] at hb
    obtain ⟨b, hb, rfl⟩ := hb
    exact h.below i b hb
  nextIndex_le := h.nextIndex_le
  openBlock := rfl
  isOpen_iff i type := by
    rw [isBlockOpenOfType_stopBlocks, h.isOpen_iff, Option.filter_eq_some_iff]
    simp
  marks_started i hi := by
    rw [block_stopBlocks, Ne, Option.map_eq_none_iff]
    exact h.marks_started i hi
  tools_below := h.tools_below
  tools_type i type heq := h.tools_type i type (Option.filter_eq_some_iff.mp heq).1

theorem Tracks.run_stops (h : Tracks marks m r slot) (types : BlockType → Bool) :
    Transition.run MessageRules.step r ((m.openBlocks types).map .contentBlockStop) =
      some { r with openBlock := (slot.filter fun entry => !types entry.2).map Prod.fst } := by
  rw [h.openBlocks_eq]
  cases slot with
  | none =>
    have hopen := h.openBlock
    obtain ⟨phase, nextIndex, openBlock⟩ := r
    cases hopen
    rfl
  | some entry =>
    have hopen := h.openBlock
    obtain ⟨phase, nextIndex, openBlock⟩ := r
    cases hopen
    by_cases htypes : types entry.2 = true
    · simp [Option.filter, htypes, Transition.run, MessageRules.step]
    · simp [Option.filter, htypes, Transition.run]

variable {i : ℕ} {type : BlockType}

/-- Starting a block whose index was taken last, with no other block open. -/
theorem Tracks.insert (h : Tracks marks m r none) (hi : r.nextIndex ≤ i)
    (hlt : i < m.nextBlockIndex) (hnone : m.block i = none) (htools : i ∉ marks.tools)
    (type : BlockType) :
    Tracks marks { m with activeBlocks := KeyedList.insert i ⟨type, true, false⟩ m.activeBlocks }
      ⟨.streaming, i + 1, some i⟩ (some (i, type)) := by
  have hblock : ∀ j b, KeyedList.get j (KeyedList.insert i ⟨type, true, false⟩ m.activeBlocks) =
      some b → (j = i ∧ b = ⟨type, true, false⟩) ∨ (j ≠ i ∧ m.block j = some b) := by
    intro j b hb
    by_cases hji : j = i
    · subst hji
      rw [KeyedList.get_insert_self] at hb
      exact .inl ⟨rfl, (Option.some.inj hb).symm⟩
    · rw [KeyedList.get_insert_of_ne hji] at hb
      exact .inr ⟨hji, hb⟩
  constructor
  · exact .inr rfl
  · exact h.unfinished
  · rw [KeyedList.insert_of_get_eq_none hnone, List.map_append, List.map_singleton]
    refine h.nodup.append (List.nodup_singleton _) (List.disjoint_singleton.mpr ?_)
    exact KeyedList.get_eq_none_iff.mp hnone
  · intro j b hb
    rcases hblock j b hb with ⟨-, rfl⟩ | ⟨-, hb⟩
    · rfl
    · exact h.started j b hb
  · intro j b hb
    rcases hblock j b hb with ⟨rfl, -⟩ | ⟨-, hb⟩
    · exact hlt
    · exact h.below j b hb
  · exact hlt
  · rfl
  · intro j type'
    rw [isBlockOpenOfType_iff]
    constructor
    · rintro ⟨b, hb, hopen, rfl⟩
      rcases hblock j b hb with ⟨rfl, rfl⟩ | ⟨-, hb⟩
      · rfl
      · have hj := (h.isOpen_iff j b.blockType).mp (isBlockOpenOfType_iff.mpr ⟨b, hb, hopen, rfl⟩)
        cases hj
    · intro heq
      cases heq
      exact ⟨_, KeyedList.get_insert_self _ _ _, rfl, rfl⟩
  · intro j hj
    exact KeyedList.get_insert_ne_none (h.marks_started j hj) _
  · exact h.tools_below
  · intro j type' heq hj
    cases heq
    exact absurd hj htools

/-- Stopping a started block. -/
theorem Tracks.insert_stopped (h : Tracks marks m r slot) {b : BlockState} (hb : m.block i = some b) :
    Tracks marks
      { m with activeBlocks := KeyedList.insert i { b with stopped := true } m.activeBlocks }
      { r with openBlock := (slot.filter fun entry => entry.1 ≠ i).map Prod.fst }
      (slot.filter fun entry => entry.1 ≠ i) := by
  have hblock : ∀ j b', KeyedList.get j
      (KeyedList.insert i { b with stopped := true } m.activeBlocks) = some b' →
      (j = i ∧ b' = { b with stopped := true }) ∨ (j ≠ i ∧ m.block j = some b') := by
    intro j b' hb'
    by_cases hji : j = i
    · subst hji
      rw [KeyedList.get_insert_self] at hb'
      exact .inl ⟨rfl, (Option.some.inj hb').symm⟩
    · rw [KeyedList.get_insert_of_ne hji] at hb'
      exact .inr ⟨hji, hb'⟩
  constructor
  · exact h.live
  · exact h.unfinished
  · rw [KeyedList.keys_insert_of_get hb]
    exact h.nodup
  · intro j b' hb'
    rcases hblock j b' hb' with ⟨-, rfl⟩ | ⟨-, hb'⟩
    · exact h.started i b hb
    · exact h.started j b' hb'
  · intro j b' hb'
    rcases hblock j b' hb' with ⟨rfl, -⟩ | ⟨-, hb'⟩
    · exact h.below j b hb
    · exact h.below j b' hb'
  · exact h.nextIndex_le
  · rfl
  · intro j type
    rw [isBlockOpenOfType_iff, Option.filter_eq_some_iff, ← h.isOpen_iff, isBlockOpenOfType_iff]
    constructor
    · rintro ⟨b', hb', hopen, rfl⟩
      rcases hblock j b' hb' with ⟨rfl, rfl⟩ | ⟨hji, hb'⟩
      · simp [BlockState.isOpen] at hopen
      · exact ⟨⟨b', hb', hopen, rfl⟩, by simpa using hji⟩
    · rintro ⟨⟨b', hb', hopen, rfl⟩, hji⟩
      have hji : j ≠ i := by simpa using hji
      exact ⟨b', (KeyedList.get_insert_of_ne hji _ _).trans hb', hopen, rfl⟩
  · intro j hj
    exact KeyedList.get_insert_ne_none (h.marks_started j hj) _
  · exact h.tools_below
  · intro j type heq
    exact h.tools_type j type (Option.filter_eq_some_iff.mp heq).1

theorem Serial.of_run {events : List SseEvent} {m' : SseStateManager} {r' : MessageRules}
    {slot' : Option (ℕ × BlockType)} (hr : MessageRules.run o.events = some r)
    (hrun : Transition.run MessageRules.step r events = some r') (h : Tracks marks m' r' slot') :
    Serial marks ⟨m', o.events ++ events⟩ slot' :=
  ⟨r', MessageRules.run_append hr hrun, h⟩

theorem serial_init : Serial .none init none := by
  have hblock : ∀ i, init.manager.block i = none := fun _ => rfl
  refine ⟨MessageRules.init, rfl, .inl rfl, ⟨rfl, rfl⟩, List.nodup_nil, ?_, ?_, le_rfl, rfl, ?_,
    fun _ h => h.elim, fun _ h => h.elim, fun _ _ h => by cases h⟩
  · intro i b hb
    rw [hblock] at hb
    cases hb
  · intro i b hb
    rw [hblock] at hb
    cases hb
  · intro i type
    simp [isBlockOpenOfType, hblock]

theorem Serial.congr {m' : SseStateManager} (h : Serial marks o slot)
    (hdelta : m'.messageDeltaSent = o.manager.messageDeltaSent)
    (hended : m'.messageEnded = o.manager.messageEnded)
    (hblocks : m'.activeBlocks = o.manager.activeBlocks)
    (hnext : o.manager.nextBlockIndex ≤ m'.nextBlockIndex) :
    Serial marks ⟨m', o.events⟩ slot := by
  obtain ⟨r, hr, ht⟩ := h
  have hblock : ∀ i, m'.block i = o.manager.block i := fun i => by rw [block, hblocks, block]
  refine ⟨r, hr, ht.live, ?_, ?_, ?_, ?_, ht.nextIndex_le.trans hnext, ht.openBlock, ?_,
    fun i hi => ?_, fun i hi => (ht.tools_below i hi).trans_le hnext, ht.tools_type⟩
  · rw [hdelta, hended]
    exact ht.unfinished
  · rw [hblocks]
    exact ht.nodup
  · intro i b hb
    exact ht.started i b (hblock i ▸ hb)
  · intro i b hb
    exact (ht.below i b (hblock i ▸ hb)).trans_le hnext
  · intro i type
    rw [isBlockOpenOfType, hblock]
    exact ht.isOpen_iff i type
  · rw [hblock]
    exact ht.marks_started i hi

theorem Serial.started (h : Serial marks o slot) :
    Serial { marks with started := { i | o.Started i } } o slot := by
  obtain ⟨r, hr, ht⟩ := h
  refine ⟨r, hr, { ht with marks_started := fun i hi => ?_ }⟩
  obtain ⟨b, hb⟩ := hi
  rw [hb]
  exact Option.some_ne_none b

theorem Serial.addTool (h : Serial marks o slot) (hi : i < o.manager.nextBlockIndex)
    (htype : ∀ type, slot = some (i, type) → type = .toolUse) :
    Serial (marks.addTool i) o slot := by
  obtain ⟨r, hr, ht⟩ := h
  refine ⟨r, hr, { ht with tools_below := fun j hj => ?_, tools_type := fun j type heq hj => ?_ }⟩
  · rcases hj with rfl | hj
    · exact hi
    · exact ht.tools_below j hj
  · rcases hj with rfl | hj
    · exact htype type heq
    · exact ht.tools_type j type heq hj

theorem Serial.type_eq_toolUse (h : Serial marks o (some (i, type))) (hi : i ∈ marks.tools) :
    type = .toolUse := by
  obtain ⟨r, hr, ht⟩ := h
  exact ht.tools_type i type rfl hi

theorem Serial.isOpen_iff (h : Serial marks o slot) (i : ℕ) (type : BlockType) :
    o.manager.isBlockOpenOfType i type = true ↔ slot = some (i, type) := by
  obtain ⟨r, hr, ht⟩ := h
  exact ht.isOpen_iff i type

theorem Serial.accepts (h : Serial marks o slot) : MessageRules.Accepts o.events := by
  obtain ⟨r, hr, -⟩ := h
  exact ⟨r, hr⟩

theorem Serial.takeBlockIndex (h : Serial marks o slot) : Serial marks o.takeBlockIndex slot :=
  h.congr rfl rfl rfl (Nat.le_succ _)

theorem Serial.addTool_open (h : Serial marks o (some (i, .toolUse))) :
    Serial (marks.addTool i) o (some (i, .toolUse)) := by
  obtain ⟨b, hb, -⟩ := isBlockOpenOfType_iff.mp ((h.isOpen_iff i .toolUse).mpr rfl)
  obtain ⟨r, hr, ht⟩ := h
  refine Serial.addTool ⟨r, hr, ht⟩ (ht.below i b hb) fun type heq => ?_
  cases heq
  rfl

theorem Serial.takeToolIndex (h : Serial marks o slot) :
    Serial (marks.addTool o.manager.nextBlockIndex) o.takeBlockIndex slot := by
  refine h.takeBlockIndex.addTool (Nat.lt_succ_self _) fun type heq => ?_
  subst heq
  obtain ⟨b, hb, -⟩ := isBlockOpenOfType_iff.mp ((h.isOpen_iff _ type).mpr rfl)
  obtain ⟨r, hr, ht⟩ := h
  exact absurd (ht.below _ b hb) (lt_irrefl _)

theorem Serial.setHasToolUse (h : Serial marks o slot) : Serial marks o.setHasToolUse slot :=
  h.congr rfl rfl rfl le_rfl

theorem Serial.setStopReason (h : Serial marks o slot) (reason : String) :
    Serial marks (o.setStopReason reason) slot := by
  by_cases hrefusal : o.manager.stopReason = some refusalStopReason
  · simpa only [Output.setStopReason, SseStateManager.setStopReason, if_pos hrefusal] using h
  · simp only [Output.setStopReason, SseStateManager.setStopReason, if_neg hrefusal]
    exact h.congr rfl rfl rfl le_rfl

theorem Serial.push_delta (h : Serial marks o (some (i, type))) (d : Delta) :
    Serial marks (o.push (.contentBlockDelta i d)) (some (i, type)) := by
  obtain ⟨r, hr, ht⟩ := h
  have hopen : r.openBlock = some i := ht.openBlock
  exact Serial.of_run hr (by simp [Transition.run, MessageRules.step, hopen]) ht

theorem Serial.delta (h : Serial marks o slot) (i : ℕ) (d : Delta) :
    Serial marks (o.delta i d) slot := by
  unfold Output.delta handleContentBlockDelta
  cases hb : o.manager.block i with
  | none => simpa using h
  | some b =>
    by_cases hopen : b.isOpen = true
    · obtain ⟨r, hr, ht⟩ := h
      have hslot := (ht.isOpen_iff i b.blockType).mp (isBlockOpenOfType_iff.mpr ⟨b, hb, hopen, rfl⟩)
      subst hslot
      simp only [if_pos hopen]
      exact Serial.push_delta ⟨r, hr, ht⟩ d
    · simpa [hopen] using h

theorem Serial.stop (h : Serial marks o slot) (i : ℕ) :
    Serial marks (o.stop i) (slot.filter fun entry => entry.1 ≠ i) := by
  have hserial := h
  obtain ⟨r, hr, ht⟩ := h
  have hclosed : (∀ type, slot ≠ some (i, type)) → (slot.filter fun entry => entry.1 ≠ i) = slot := by
    intro hne
    cases slot with
    | none => rfl
    | some entry =>
      have : entry.1 ≠ i := fun heq => hne entry.2 (by rw [← heq])
      simp [Option.filter, this]
  unfold Output.stop handleContentBlockStop
  cases hb : o.manager.block i with
  | none =>
    rw [hclosed fun type heq => ?_]
    · simpa using hserial
    · obtain ⟨b, hb', -⟩ := isBlockOpenOfType_iff.mp ((ht.isOpen_iff i type).mpr heq)
      rw [hb] at hb'
      cases hb'
  | some b =>
    by_cases hstopped : b.stopped = true
    · rw [hclosed fun type heq => ?_]
      · simpa [hstopped] using hserial
      · obtain ⟨b', hb', hopen, -⟩ := isBlockOpenOfType_iff.mp ((ht.isOpen_iff i type).mpr heq)
        rw [hb] at hb'
        cases hb'
        simp [BlockState.isOpen, hstopped] at hopen
    · have hopen : b.isOpen = true := by
        rw [BlockState.isOpen, ht.started i b hb, Bool.true_and]
        simpa using hstopped
      have hslot := (ht.isOpen_iff i b.blockType).mp (isBlockOpenOfType_iff.mpr ⟨b, hb, hopen, rfl⟩)
      have hrules : r.openBlock = some i := by rw [ht.openBlock, hslot]; rfl
      simp only [hstopped]
      refine Serial.of_run hr ?_ (ht.insert_stopped hb)
      simp [Transition.run, MessageRules.step, hrules, hslot, Option.filter]

theorem Serial.stop_open (h : Serial marks o (some (i, type))) : Serial marks (o.stop i) none := by
  have hstop := h.stop i
  simpa [Option.filter] using hstop

theorem Serial.stop_other {i j : ℕ} (h : Serial marks o (some (j, type))) (hne : j ≠ i) :
    Serial marks (o.stop i) (some (j, type)) := by
  have hstop := h.stop i
  simpa [Option.filter, hne] using hstop

/-- What stays open when a block of this content starts. -/
def slotBefore (content : ContentBlock) (slot : Option (ℕ × BlockType)) :
    Option (ℕ × BlockType) :=
  if content.type = .toolUse ∨ content.type = .serverToolUse then
    slot.filter fun entry => entry.2 ≠ .text
  else slot

theorem Tracks.stopTextBlocksBefore (h : Tracks marks m r slot) (content : ContentBlock) :
    ∃ r', Transition.run MessageRules.step r (m.stopTextBlocksBefore content).1 = some r' ∧
      Tracks marks (m.stopTextBlocksBefore content).2 r' (slotBefore content slot) ∧
      r'.nextIndex = r.nextIndex := by
  unfold SseStateManager.stopTextBlocksBefore slotBefore
  by_cases htool : content.type = .toolUse ∨ content.type = .serverToolUse
  · simp only [if_pos htool]
    have ht := h.stopBlocks fun type => type = .text
    have hslot : (slot.filter fun entry => !decide (entry.2 = .text)) =
        slot.filter fun entry => entry.2 ≠ .text := by simp
    refine ⟨_, h.run_stops _, ?_, rfl⟩
    rw [← hslot]
    exact { ht with }
  · simp only [if_neg htool]
    exact ⟨r, rfl, h, rfl⟩

theorem block_stopTextBlocksBefore_eq_none_iff (content : ContentBlock) (i : ℕ) :
    (m.stopTextBlocksBefore content).2.block i = none ↔ m.block i = none := by
  unfold SseStateManager.stopTextBlocksBefore
  split
  · exact (iff_of_eq (congrArg (· = none) (block_stopBlocks m _ i))).trans Option.map_eq_none_iff
  · rfl

theorem nextBlockIndex_stopTextBlocksBefore (content : ContentBlock) :
    (m.stopTextBlocksBefore content).2.nextBlockIndex = m.nextBlockIndex := by
  unfold SseStateManager.stopTextBlocksBefore
  split <;> rfl

theorem Serial.startNew {content : ContentBlock} (h : Serial marks o slot)
    (hslot : slotBefore content slot = none) :
    Serial marks (o.startNew content) (some (o.manager.nextBlockIndex, content.type)) := by
  obtain ⟨r, hr, ht⟩ := h
  have hfresh : o.manager.block o.manager.nextBlockIndex = none := by
    cases hb : o.manager.block o.manager.nextBlockIndex with
    | none => rfl
    | some b => exact absurd (ht.below _ b hb) (lt_irrefl _)
  obtain ⟨r₁, hr₁, ht₁⟩ : Serial marks o.takeBlockIndex slot := Serial.takeBlockIndex ⟨r, hr, ht⟩
  obtain rfl : r₁ = r := Option.some.inj (hr₁.symm.trans hr)
  obtain ⟨r', hrun, ht', hnext⟩ := ht₁.stopTextBlocksBefore content
  rw [hslot] at ht'
  have hnone : (o.takeBlockIndex.manager.stopTextBlocksBefore content).2.block
      o.manager.nextBlockIndex = none :=
    (block_stopTextBlocksBefore_eq_none_iff content _).mpr hfresh
  have hle : r'.nextIndex ≤ o.manager.nextBlockIndex := hnext ▸ ht.nextIndex_le
  have hlt : o.manager.nextBlockIndex <
      (o.takeBlockIndex.manager.stopTextBlocksBefore content).2.nextBlockIndex := by
    rw [nextBlockIndex_stopTextBlocksBefore]
    exact Nat.lt_succ_self _
  have hopen : r'.openBlock = none := ht'.openBlock
  simp only [Output.startNew, start, handleContentBlockStart, hnone]
  refine Serial.of_run hr₁ (Transition.run_append_eq_some.mpr ⟨r', hrun, ?_⟩)
    (ht'.insert hle hlt hnone (fun hmem => absurd (ht.tools_below _ hmem) (lt_irrefl _))
      content.type)
  simp [Transition.run, MessageRules.step, ht'.live, hopen, hle]

theorem Serial.start_started (h : Serial marks o slot) (hi : i ∈ marks.started)
    (content : ContentBlock) : Serial marks (o.start i content) (slotBefore content slot) := by
  obtain ⟨r, hr, ht⟩ := h
  obtain ⟨r', hrun, ht', -⟩ := ht.stopTextBlocksBefore content
  have hsome : (o.manager.stopTextBlocksBefore content).2.block i ≠ none := by
    rw [Ne, block_stopTextBlocksBefore_eq_none_iff]
    exact ht.marks_started i hi
  obtain ⟨b, hb⟩ := Option.ne_none_iff_exists'.mp hsome
  simp only [start, handleContentBlockStart, hb, ht'.started i b hb, if_true]
  exact Serial.of_run hr hrun ht'

theorem Serial.push_error (h : Serial marks o slot) (errorType message : List Char) :
    Serial marks (o.push (.error errorType message)) slot := by
  obtain ⟨r, hr, ht⟩ := h
  have ht' : Tracks marks o.manager { r with phase := .streaming } slot := { ht with live := .inr rfl }
  refine Serial.of_run hr ?_ ht'
  simp [Transition.run, MessageRules.step, ht.live]

theorem insertionSort_toList {α : Type} (le : α → α → Prop) [DecidableRel le] (x : Option α) :
    x.toList.insertionSort le = x.toList := by
  cases x <;> rfl

theorem Tracks.insertionSort_openBlocks (h : Tracks marks m r slot) (types : BlockType → Bool) :
    (m.openBlocks types).insertionSort (· ≤ ·) = m.openBlocks types := by
  rw [h.openBlocks_eq, insertionSort_toList]

theorem Serial.closeOpenNonToolUseBlocks (h : Serial marks o slot) :
    Serial marks o.closeOpenNonToolUseBlocks (slot.filter fun entry => entry.2 = .toolUse) := by
  obtain ⟨r, hr, ht⟩ := h
  have hrun := ht.run_stops fun type => type ≠ .toolUse
  have ht' := ht.stopBlocks fun type => type ≠ .toolUse
  simp only [Output.closeOpenNonToolUseBlocks, SseStateManager.closeOpenNonToolUseBlocks]
  rw [ht.insertionSort_openBlocks]
  refine Serial.of_run hr hrun ?_
  simpa using ht'

theorem Serial.generateFinalEventsWithUsage (h : Serial marks o slot) :
    MessageRules.Complete o.generateFinalEventsWithUsage.events := by
  obtain ⟨r, hr, ht⟩ := h
  have hrun := ht.run_stops fun _ => true
  have ht' := ht.stopBlocks fun _ => true
  obtain ⟨hdelta, hended⟩ := ht'.unfinished
  have hevents : o.generateFinalEventsWithUsage.events = o.events ++
      ((o.manager.openBlocks fun _ => true).map .contentBlockStop ++
        [.messageDelta (o.manager.stopBlocks fun _ => true).getStopReason.toList none,
          .messageStop]) := by
    simp only [Output.generateFinalEventsWithUsage, SseStateManager.generateFinalEventsWithUsage,
      closeOpenBlocks, hdelta, hended, ht.insertionSort_openBlocks]
    simp
  rw [hevents]
  refine ⟨⟨.ended, r.nextIndex, none⟩, MessageRules.run_append hr ?_, rfl⟩
  refine Transition.run_append_eq_some.mpr ⟨_, hrun, ?_⟩
  have hlive : MessageRules.Live ⟨r.phase, r.nextIndex, none⟩ := ht.live
  simp [Transition.run, MessageRules.step, hlive]

end Output

end KiroProxy.Stream
