import KiroProxy.Stream.Context

/-!
# One open block at a time

The open block of a context is one of four kinds, and the flags of the context say which
kinds can be open. `Core` holds inside the functions as well; `Inv` is what an event
finds and leaves.
-/

namespace KiroProxy.Stream.Context

variable {σ : Type} {env : Environment σ} {marks : Marks} {c : Context σ}

inductive Slot
  | idle
  | text
  | xml
  | native
  | tool
  deriving DecidableEq, Repr

/-- The path of visible text may use the output. -/
def Slot.IsText (s : Slot) : Prop :=
  s = .idle ∨ s = .text

/-- The open block and the index by which its functions know it. -/
def Holds (marks : Marks) (c : Context σ) : Slot → Prop
  | .idle => c.out.Serial marks none
  | .text => ∃ i, c.out.Serial marks (some (i, .text)) ∧ c.text.textBlockIndex = some i
  | .xml => ∃ i, c.out.Serial marks (some (i, .thinking)) ∧ c.xml.thinkingBlockIndex = some i
  | .native => ∃ i, c.out.Serial marks (some (i, .thinking)) ∧ c.native.blockIndex = some i
  | .tool => ∃ i, c.out.Serial marks (some (i, .toolUse))

/-- The text may still turn out to begin with XML thinking, or is inside it. -/
def Undecided (env : Environment σ) (c : Context σ) : Prop :=
  env.xmlThinking = true ∧ c.native.seen = false ∧
    (c.xml.inThinkingBlock = true ∨ c.xml.thinkingExtracted = false)

structure PendingStarts (env : Environment σ) (tools : ToolCalls) : Prop where
  nodup : tools.pendingToolStarts.Nodup
  isPublic : ∀ id ∈ tools.pendingToolStarts, env.publicToolUseId id = id
  unstarted : ∀ id ∈ tools.pendingToolStarts, KeyedList.get id tools.toolBlockIndices = none
  admitted : ∀ id ∈ tools.pendingToolStarts,
    KeyedList.get id tools.responseToolGate.decisions = some true

structure Core (env : Environment σ) (marks : Marks) (c : Context σ) (s : Slot) : Prop where
  holds : Holds marks c s
  native_index : s ≠ .native → c.native.blockIndex = none
  native_open : s = .native → c.native.segmentOpen = true
  segment_seen : c.native.segmentOpen = true → c.native.seen = true
  segment_settled : c.native.segmentOpen = true → s ≠ .text ∧ c.text.textBlockIndex = none ∧
    env.sanitizer.Settled c.toolTranscriptSanitizer
  xml_open : s = .xml → env.xmlThinking = true ∧ c.native.seen = false ∧
    c.xml.inThinkingBlock = true
  thinking_text : env.xmlThinking = true → c.native.seen = false → c.xml.inThinkingBlock = true →
    s ≠ .text
  tool_quiet : s = .tool → env.sanitizer.Settled c.toolTranscriptSanitizer ∧
    env.sanitizer.Settled c.thinkingTranscriptSanitizer ∧ c.xml.thinkingBuffer = [] ∧
    c.pendingTrivialText = []
  thinking_settled : s ≠ .xml → c.native.segmentOpen = false →
    env.sanitizer.Settled c.thinkingTranscriptSanitizer
  pending_starts : PendingStarts env c.tools
  tool_marks : ∀ id i, KeyedList.get id c.tools.toolBlockIndices = some i → i ∈ marks.tools

structure Inv (env : Environment σ) (marks : Marks) (c : Context σ) (s : Slot) : Prop
    extends Core env marks c s where
  undecided : Undecided env c → env.sanitizer.Settled c.toolTranscriptSanitizer
  buffer_empty : c.native.seen = false →
    (env.xmlThinking = true → c.xml.inThinkingBlock = false ∧ c.xml.thinkingExtracted = true) →
    c.xml.thinkingBuffer = []

theorem settled_finishSegment (s : σ) :
    env.sanitizer.Settled (env.sanitizer.finishSegment s).2 :=
  env.sanitizer.finishSegment_finishSegment s

variable {s : Slot}

theorem Core.textual (h : Core env marks c s) (hs : s.IsText) : c.path.Textual marks := by
  rcases hs with rfl | rfl
  · exact .inl h.holds
  · exact .inr h.holds

structure TextReady (env : Environment σ) (c : Context σ) (s : Slot) : Prop where
  isText : s.IsText
  segment_closed : c.native.segmentOpen = false
  not_thinking : env.xmlThinking = true → c.native.seen = false → c.xml.inThinkingBlock = false

theorem Core.with_path (h : Core env marks c s) (hr : TextReady env c s) {path : TextPath}
    (hpath : path.Textual marks) (sanitizer : σ) :
    ∃ s' : Slot, s'.IsText ∧
      Core env marks { c with path := path, toolTranscriptSanitizer := sanitizer } s' := by
  have hs : s ≠ .native ∧ s ≠ .xml := by
    rcases hr.isText with rfl | rfl
    · exact ⟨by decide, by decide⟩
    · exact ⟨by decide, by decide⟩
  have hcore : ∀ s' : Slot, s'.IsText →
      Holds marks { c with path := path, toolTranscriptSanitizer := sanitizer } s' →
      Core env marks { c with path := path, toolTranscriptSanitizer := sanitizer } s' := by
    intro s' hs' hholds
    have hkinds : s' ≠ .native ∧ s' ≠ .xml ∧ s' ≠ .tool := by
      rcases hs' with rfl | rfl
      · exact ⟨by decide, by decide, by decide⟩
      · exact ⟨by decide, by decide, by decide⟩
    constructor
    · exact hholds
    · exact fun _ => h.native_index hs.1
    · exact fun heq => absurd heq hkinds.1
    · exact h.segment_seen
    · intro hopen
      rw [show c.native.segmentOpen = false from hr.segment_closed] at hopen
      cases hopen
    · exact fun heq => absurd heq hkinds.2.1
    · intro hxml hseen hin
      rw [show c.xml.inThinkingBlock = false from hr.not_thinking hxml hseen] at hin
      cases hin
    · exact fun heq => absurd heq hkinds.2.2
    · exact fun _ => h.thinking_settled hs.2
    · exact h.pending_starts
    · exact h.tool_marks
  rcases hpath with hidle | htext
  · exact ⟨.idle, .inl rfl, hcore .idle (.inl rfl) hidle⟩
  · exact ⟨.text, .inr rfl, hcore .text (.inr rfl) htext⟩

theorem Core.createTextDeltaEvents (h : Core env marks c s) (hr : TextReady env c s)
    (text : List Char) : ∃ s' : Slot, s'.IsText ∧
      Core env marks (createTextDeltaEvents env text c) s' := by
  unfold Context.createTextDeltaEvents
  split_ifs
  · exact ⟨s, hr.isText, h⟩
  · exact h.with_path hr ((h.textual hr.isText).createSanitizedTextDeltaEvents _ _) _

theorem createSanitizedTextDeltaEvents_nil (c : Context σ) :
    createSanitizedTextDeltaEvents env [] c = c := rfl

theorem flushTextSegment_of_settled (h : env.sanitizer.Settled c.toolTranscriptSanitizer) :
    flushTextSegment env c = { c with toolTranscriptSanitizer :=
      (env.sanitizer.finishSegment c.toolTranscriptSanitizer).2 } := by
  unfold flushTextSegment
  dsimp only
  rw [show (env.sanitizer.finishSegment c.toolTranscriptSanitizer).1 = [] from h,
    createSanitizedTextDeltaEvents_nil]

theorem Core.with_settled (h : Core env marks c s) {sanitizer : σ}
    (hsettled : env.sanitizer.Settled sanitizer) :
    Core env marks { c with toolTranscriptSanitizer := sanitizer } s :=
  { h with
    segment_settled := fun hopen =>
      ⟨(h.segment_settled hopen).1, (h.segment_settled hopen).2.1, hsettled⟩
    tool_quiet := fun hs => ⟨hsettled, (h.tool_quiet hs).2⟩ }

theorem Core.flushTextSegment (h : Core env marks c s)
    (hr : env.sanitizer.Settled c.toolTranscriptSanitizer ∨ TextReady env c s) :
    ∃ s' : Slot, (s' = s ∨ s.IsText ∧ s'.IsText) ∧
      Core env marks (flushTextSegment env c) s' := by
  rcases hr with hsettled | hr
  · refine ⟨s, .inl rfl, ?_⟩
    rw [flushTextSegment_of_settled hsettled]
    exact h.with_settled (settled_finishSegment _)
  · have hflush : ∃ s' : Slot, s'.IsText ∧
        Core env marks (Context.flushTextSegment env c) s' :=
      h.with_path hr ((h.textual hr.isText).createSanitizedTextDeltaEvents _ _) _
    obtain ⟨s', hs', hcore⟩ := hflush
    exact ⟨s', .inr ⟨hr.isText, hs'⟩, hcore⟩

structure XmlReady (env : Environment σ) (c : Context σ) (s : Slot) : Prop where
  slot : s = .idle ∨ s = .xml
  enabled : env.xmlThinking = true
  unseen : c.native.seen = false
  inside : c.xml.inThinkingBlock = true

theorem Core.segment_closed (h : Core env marks c s) (hseen : c.native.seen = false) :
    c.native.segmentOpen = false := by
  cases hopen : c.native.segmentOpen with
  | false => rfl
  | true => rw [h.segment_seen hopen] at hseen; cases hseen

theorem Core.isXmlThinkingOpen (h : Core env marks c s) (hs : s = .idle ∨ s = .xml) :
    c.isXmlThinkingOpen = true ↔ s = .xml := by
  unfold Context.isXmlThinkingOpen
  rcases hs with rfl | rfl
  · have hserial : c.out.Serial marks none := h.holds
    cases hindex : c.xml.thinkingBlockIndex with
    | none => simp
    | some i =>
      have hclosed : ¬ c.manager.isBlockOpenOfType i .thinking = true :=
        fun hopen => by cases (hserial.isOpen_iff i .thinking).mp hopen
      simp [hclosed]
  · obtain ⟨i, hserial, hindex⟩ := h.holds
    have hopen : c.manager.isBlockOpenOfType i .thinking = true :=
      (hserial.isOpen_iff i .thinking).mpr rfl
    simp [hindex, hopen]

theorem Core.startXmlThinkingBlock (h : Core env marks c .idle) (hr : XmlReady env c .idle) :
    Core env marks (startXmlThinkingBlock c) .xml := by
  have hserial : c.out.Serial marks none := h.holds
  have hseg := h.segment_closed hr.unseen
  constructor
  · exact ⟨_, hserial.startNew rfl, rfl⟩
  · exact fun _ => h.native_index (by decide)
  · exact fun heq => by cases heq
  · exact h.segment_seen
  · exact fun hopen => ⟨by decide, (h.segment_settled hopen).2⟩
  · exact fun _ => ⟨hr.enabled, hr.unseen, hr.inside⟩
  · exact fun _ _ _ => by decide
  · exact fun heq => by cases heq
  · exact fun hne => absurd rfl hne
  · exact h.pending_starts
  · exact h.tool_marks

theorem Core.push_xml_delta (h : Core env marks c .xml) (d : Delta) {i : ℕ}
    (hi : c.xml.thinkingBlockIndex = some i) :
    Core env marks (c.mapOut (·.push (.contentBlockDelta i d))) .xml := by
  obtain ⟨j, hserial, hj⟩ := h.holds
  obtain rfl : j = i := Option.some.inj (hj.symm.trans hi)
  exact { h with holds := ⟨j, hserial.push_delta d, hj⟩ }

theorem Core.sendXmlThinkingDelta (h : Core env marks c .xml) (thinking : List Char) :
    Core env marks (sendXmlThinkingDelta env thinking c) .xml := by
  unfold Context.sendXmlThinkingDelta
  have hcore : ∀ (sanitizer : σ) (content : List Char), Core env marks { c with
      thinkingTranscriptSanitizer := sanitizer
      xml := { c.xml with xmlThinkingContent := content } } .xml :=
    fun sanitizer content => { h with
      tool_quiet := fun heq => by cases heq
      thinking_settled := fun hne => absurd rfl hne }
  dsimp only
  split
  · next i hi => exact (hcore _ _).push_xml_delta _ hi
  · exact hcore _ _

theorem Core.pushXmlThinkingDelta (h : Core env marks c s) (hr : XmlReady env c s)
    (thinking : List Char) :
    Core env marks (pushXmlThinkingDelta env thinking c) (if thinking = [] then s else .xml) := by
  unfold Context.pushXmlThinkingDelta
  split_ifs with hempty hopen
  · exact h
  · obtain rfl := (h.isXmlThinkingOpen hr.slot).mp hopen
    exact h.sendXmlThinkingDelta thinking
  · have hidle : s = .idle := hr.slot.resolve_right fun heq =>
      hopen ((h.isXmlThinkingOpen hr.slot).mpr heq)
    subst hidle
    have hcleared : Core env marks
        { c with xml := { c.xml with xmlThinkingContent := [] } } .idle := { h with }
    have hstart := hcleared.startXmlThinkingBlock ⟨.inl rfl, hr.enabled, hr.unseen, hr.inside⟩
    exact hstart.sendXmlThinkingDelta thinking

theorem serial_stop_deltas {o : Output} {i : ℕ} {type : BlockType}
    (h : o.Serial marks (some (i, type))) (deltas : List Delta) :
    ((deltas.foldl (fun o delta => o.push (.contentBlockDelta i delta)) o).stop i).Serial marks
      none := by
  induction deltas generalizing o with
  | nil => exact h.stop_open
  | cons delta deltas ih => exact ih (h.push_delta delta)

theorem Core.closeXmlThinkingBlock (h : Core env marks c s) (hs : s = .idle ∨ s = .xml) :
    Core env marks (closeXmlThinkingBlock env c) .idle := by
  unfold Context.closeXmlThinkingBlock
  have hopen := h.isXmlThinkingOpen hs
  unfold Context.isXmlThinkingOpen at hopen
  cases hindex : c.xml.thinkingBlockIndex with
  | none =>
    rw [hindex] at hopen
    obtain rfl : s = .idle := hs.resolve_right fun heq => by simpa using hopen.mpr heq
    exact h
  | some i =>
    rw [hindex, Option.any_some] at hopen
    dsimp only
    by_cases hi : c.manager.isBlockOpenOfType i .thinking = true
    · rw [if_pos hi]
      obtain rfl := hopen.mp hi
      obtain ⟨j, hserial, hj⟩ := h.holds
      obtain rfl : j = i := Option.some.inj (hj.symm.trans hindex)
      obtain ⟨-, hseen, -⟩ := h.xml_open rfl
      have hseg := h.segment_closed hseen
      constructor
      · exact serial_stop_deltas hserial _
      · exact fun _ => h.native_index (by decide)
      · exact fun heq => by cases heq
      · exact h.segment_seen
      · exact fun hopen => ⟨by decide, (h.segment_settled hopen).2⟩
      · exact fun heq => by cases heq
      · exact fun _ _ _ => by decide
      · exact fun heq => by cases heq
      · exact fun _ _ => settled_finishSegment _
      · exact h.pending_starts
      · exact h.tool_marks
    · rw [if_neg hi]
      obtain rfl : s = .idle := hs.resolve_right fun heq => hi (hopen.mpr heq)
      exact h

end KiroProxy.Stream.Context
