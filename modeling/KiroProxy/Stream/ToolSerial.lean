import KiroProxy.Stream.ReasoningSerial
import KiroProxy.Stream.ToolUse

/-!
# Tool calls keep one block open

A tool event ends the reasoning and the text before it. It is in order when its own block
was started before, or when no tool block is open.
-/

namespace KiroProxy.Stream.Context

variable {σ : Type} {env : Environment σ} {marks : Marks} {c : Context σ}

variable {s s' : Slot} {tools : ToolCalls} {toolUse : ToolUse}

theorem Core.mapOut {marks' : Marks} (h : Core env marks c s) {f : Output → Output}
    (hf : ∀ slot, c.out.Serial marks slot → (f c.out).Serial marks' slot)
    (hmarks : marks.tools ⊆ marks'.tools) : Core env marks' (c.mapOut f) s := by
  refine { h with holds := ?_, tool_marks := fun id i hi => hmarks (h.tool_marks id i hi) }
  cases s with
  | idle => exact hf _ h.holds
  | text | xml | native =>
    obtain ⟨i, hserial, hi⟩ := h.holds
    exact ⟨i, hf _ hserial, hi⟩
  | tool =>
    obtain ⟨i, hserial⟩ := h.holds
    exact ⟨i, hf _ hserial⟩

theorem Core.with_xml (h : Core env marks c s) (hs : s ≠ .xml) {xml : XmlThinking}
    (hin : xml.inThinkingBlock = true → c.xml.inThinkingBlock = true)
    (hbuffer : s = .tool → xml.thinkingBuffer = []) : Core env marks { c with xml := xml } s := by
  refine { h with
    holds := ?_
    xml_open := fun heq => absurd heq hs
    thinking_text := fun hxml hseen hinside => h.thinking_text hxml hseen (hin hinside)
    tool_quiet := fun heq => ?_ }
  · cases s with
    | xml => exact absurd rfl hs
    | idle | text | native | tool => exact h.holds
  · obtain ⟨htext, hthinking, -, hpending⟩ := h.tool_quiet heq
    exact ⟨htext, hthinking, hbuffer heq, hpending⟩

/-- The open block, if any, is text or a tool call. -/
def Slot.IsQuiet (s : Slot) : Prop :=
  s.IsText ∨ s = .tool

theorem Slot.IsQuiet.ne_xml (h : s.IsQuiet) : s ≠ .xml := by
  rcases h with h | rfl
  · exact h.ne_xml
  · decide

theorem Slot.IsQuiet.ne_native (h : s.IsQuiet) : s ≠ .native := by
  rcases h with h | rfl
  · exact h.ne_native
  · decide

theorem Core.isXmlThinkingOpen_eq_false (h : Core env marks c s) (hs : s.IsQuiet) :
    c.isXmlThinkingOpen = false := by
  have hclosed : ∀ i, c.manager.isBlockOpenOfType i .thinking = false := by
    intro i
    rw [Bool.eq_false_iff]
    intro hopen
    rcases hs with (rfl | rfl) | rfl
    · have hserial : c.out.Serial marks none := h.holds
      cases (hserial.isOpen_iff i .thinking).mp hopen
    · obtain ⟨j, hserial, -⟩ := h.holds
      cases (hserial.isOpen_iff i .thinking).mp hopen
    · obtain ⟨j, hserial⟩ := h.holds
      cases (hserial.isOpen_iff i .thinking).mp hopen
  unfold Context.isXmlThinkingOpen
  cases c.xml.thinkingBlockIndex with
  | none => rfl
  | some i => exact hclosed i

theorem closeXmlThinkingBlock_of_closed (h : c.isXmlThinkingOpen = false) :
    closeXmlThinkingBlock env c = c := by
  unfold closeXmlThinkingBlock
  unfold isXmlThinkingOpen at h
  cases hindex : c.xml.thinkingBlockIndex with
  | none => rfl
  | some i =>
    rw [hindex, Option.any_some] at h
    dsimp only
    rw [h]
    rfl

theorem createTextDeltaEvents_nil (c : Context σ) : createTextDeltaEvents env [] c = c := rfl

/-- What a tool event finds when the thinking before it has ended. -/
structure BeforeTool (env : Environment σ) (marks : Marks) (c c' : Context σ) (s' : Slot) : Prop
    extends Core env marks c' s' where
  slot : s'.IsQuiet
  native_eq : c'.native = c.native
  tools_eq : c'.tools = c.tools
  trivial_eq : c'.pendingTrivialText = c.pendingTrivialText
  buffer_empty : c'.xml.thinkingBuffer = []
  ready : env.sanitizer.Settled c'.toolTranscriptSanitizer ∨ TextReady env c' s'

/-- Without text in the buffer and with no thinking block open, only flags change. -/
theorem endThinkingBeforeTool_of_empty (hbuffer : c.xml.thinkingBuffer = [])
    (hclosed : c.isXmlThinkingOpen = false) : ∃ xml : XmlThinking,
      endThinkingBeforeTool env c = { c with xml := xml } ∧ xml.thinkingBuffer = [] ∧
        (xml.inThinkingBlock = true → c.xml.inThinkingBlock = true) := by
  unfold endThinkingBeforeTool
  split_ifs
  · dsimp only
    split
    · next stop separator _ =>
      refine ⟨{ c.xml with
        thinkingBuffer := [], inThinkingBlock := false, thinkingExtracted := true },
        ?_, rfl, fun hin => by cases hin⟩
      have hfinish : finishXmlThinking env (c.xml.thinkingBuffer.take stop) c = { c with
          xml := { c.xml with inThinkingBlock := false, thinkingExtracted := true } } := by
        rw [hbuffer, List.take_nil]
        exact closeXmlThinkingBlock_of_closed hclosed
      rw [hfinish, hbuffer, List.drop_nil]
      rfl
    · refine ⟨{ c.xml with thinkingBuffer := [] }, ?_, rfl, fun hin => hin⟩
      rw [hbuffer, if_pos rfl]
      exact closeXmlThinkingBlock_of_closed hclosed
  · exact ⟨c.xml, rfl, hbuffer, fun hin => hin⟩

theorem flushUndecidedText_of_empty (hbuffer : c.xml.thinkingBuffer = []) :
    flushUndecidedText env c = c := by
  unfold flushUndecidedText
  split_ifs
  · rw [hbuffer, createTextDeltaEvents_nil, ← hbuffer]
  · rfl

theorem Core.beforeTool_of_empty (h : Core env marks c s) (hs : s.IsQuiet)
    (hbuffer : c.xml.thinkingBuffer = [])
    (hready : s = .tool ∨ c.native.seen = true ∧ c.native.segmentOpen = false) :
    BeforeTool env marks c (flushUndecidedText env (endThinkingBeforeTool env c)) s := by
  obtain ⟨xml, heq, hempty, hin⟩ :=
    endThinkingBeforeTool_of_empty hbuffer (h.isXmlThinkingOpen_eq_false hs)
  rw [heq, flushUndecidedText_of_empty hempty]
  refine ⟨h.with_xml hs.ne_xml hin fun _ => hempty, hs, rfl, rfl, rfl, hempty, ?_⟩
  by_cases htool : s = .tool
  · exact .inl (h.tool_quiet htool).1
  · obtain ⟨hseen, hclosed⟩ := hready.resolve_left htool
    exact .inr ⟨hs.resolve_right htool, hclosed,
      fun _ hunseen => absurd (hseen.symm.trans hunseen) (by decide)⟩

/-- The end of XML thinking before a tool call. -/
theorem Inv.beforeTool_of_inside (h : Inv env marks c s) (hr : XmlReady env c s) :
    ∃ s' : Slot, s'.IsText ∧
      BeforeTool env marks c (flushUndecidedText env (endThinkingBeforeTool env c)) s' := by
  have hseg := h.toCore.segment_closed hr.unseen
  unfold endThinkingBeforeTool
  rw [hr.enabled, hr.inside, Bool.and_self, if_pos rfl]
  dsimp only
  split
  · next stop separator _ =>
    obtain ⟨_, _, _, _, hframe⟩ := finishXmlThinking_eq env (c.xml.thinkingBuffer.take stop) c
    have hfinish := h.toCore.finishXmlThinking hr (c.xml.thinkingBuffer.take stop)
    generalize finishXmlThinking env (c.xml.thinkingBuffer.take stop) c = c₁ at hframe hfinish ⊢
    have hfields : c₁.native = c.native ∧ c₁.tools = c.tools ∧
        c₁.pendingTrivialText = c.pendingTrivialText ∧ c₁.xml.inThinkingBlock = false ∧
        c₁.xml.thinkingExtracted = true := by
      rw [hframe]
      exact ⟨rfl, rfl, rfl, rfl, rfl⟩
    obtain ⟨hnative, htools, htrivial, hin, hextracted⟩ := hfields
    obtain ⟨s', hs', hcore⟩ := (hfinish.with_buffer (by decide) []).createTextDeltaEvents
      ⟨.inl rfl, by rw [hnative]; exact hseg, fun _ _ => hin⟩
      (trimStart (c.xml.thinkingBuffer.drop (stop + c.thinkingTag.closeTag.length)))
    have hstep := (textStep_createTextDeltaEvents env
      (trimStart (c.xml.thinkingBuffer.drop (stop + c.thinkingTag.closeTag.length)))
      { c₁ with xml := { c₁.xml with thinkingBuffer := [] } }).frame
    generalize Context.createTextDeltaEvents env _ _ = c₂ at hcore hstep ⊢
    obtain ⟨hxml₂, hnative₂, htools₂, htrivial₂⟩ := hstep
    have hempty : c₂.xml.thinkingBuffer = [] := by rw [hxml₂]
    rw [flushUndecidedText_of_empty hempty]
    refine ⟨s', hs', hcore, .inl hs', hnative₂.trans hnative, htools₂.trans htools,
      htrivial₂.trans htrivial, hempty, .inr ⟨hs', ?_, fun _ _ => ?_⟩⟩
    · rw [hnative₂, hnative]
      exact hseg
    · rw [hxml₂]
      exact hin
  · have hcleared : Core env marks { c with xml := { c.xml with
        thinkingBuffer := []
        lastXmlThinkingChar := if c.xml.thinkingBuffer = [] then c.xml.lastXmlThinkingChar
          else c.xml.thinkingBuffer.getLast? } } s :=
      { h.toCore with tool_quiet := fun heq => absurd heq hr.ne_tool }
    have hpush := hcleared.pushXmlThinkingDelta ⟨hr.slot, hr.enabled, hr.unseen, hr.inside⟩
      c.xml.thinkingBuffer
    have hslot : (if c.xml.thinkingBuffer = [] then s else Slot.xml) = .idle ∨
        (if c.xml.thinkingBuffer = [] then s else Slot.xml) = .xml := by
      split_ifs
      · exact hr.slot
      · exact .inr rfl
    have hclose := hpush.closeXmlThinkingBlock hslot
    obtain ⟨_, _, _, _, hframe⟩ := (xmlStep_pushXmlThinkingDelta env c.xml.thinkingBuffer
      { c with xml := { c.xml with
        thinkingBuffer := []
        lastXmlThinkingChar := if c.xml.thinkingBuffer = [] then c.xml.lastXmlThinkingChar
          else c.xml.thinkingBuffer.getLast? } }).trans (xmlStep_closeXmlThinkingBlock env _)
    generalize Context.closeXmlThinkingBlock env _ = c₁ at hclose hframe ⊢
    have hempty : c₁.xml.thinkingBuffer = [] := by rw [hframe]
    rw [flushUndecidedText_of_empty hempty]
    refine ⟨.idle, .inl rfl, hclose, .inl (.inl rfl), by rw [hframe], by rw [hframe],
      by rw [hframe], hempty, .inl ?_⟩
    rw [hframe]
    exact h.undecided ⟨hr.enabled, hr.unseen, .inl hr.inside⟩

/-- Text that may have begun with thinking is sent before a tool call. -/
theorem Inv.beforeTool_of_outside (h : Inv env marks c s) (hseen : c.native.seen = false)
    (hs : s ≠ .tool) (hin : env.xmlThinking = true → c.xml.inThinkingBlock = false) :
    ∃ s' : Slot, s'.IsText ∧
      BeforeTool env marks c (flushUndecidedText env (endThinkingBeforeTool env c)) s' := by
  have hskip : endThinkingBeforeTool env c = c := by
    unfold endThinkingBeforeTool
    cases hxml : env.xmlThinking with
    | false => rfl
    | true =>
      rw [hin hxml]
      rfl
  have htext : s.IsText := by
    cases s with
    | idle => exact .inl rfl
    | text => exact .inr rfl
    | xml =>
      obtain ⟨hxml, -, hinside⟩ := h.xml_open rfl
      exact absurd (hinside.symm.trans (hin hxml)) (by decide)
    | native => exact absurd (h.segment_seen (h.native_open rfl)) (by rw [hseen]; decide)
    | tool => exact absurd rfl hs
  have hready : TextReady env c s :=
    ⟨htext, h.toCore.segment_closed hseen, fun hxml _ => hin hxml⟩
  rw [hskip]
  unfold flushUndecidedText
  split_ifs with hundecided
  · obtain ⟨s', hs', hcore⟩ := (h.toCore.with_buffer hs []).createTextDeltaEvents
      ⟨hready.isText, hready.segment_closed, hready.not_thinking⟩ c.xml.thinkingBuffer
    have hstep := (textStep_createTextDeltaEvents env c.xml.thinkingBuffer
      { c with xml := { c.xml with thinkingBuffer := [] } }).frame
    generalize Context.createTextDeltaEvents env _ _ = c₁ at hcore hstep ⊢
    obtain ⟨hxml₁, hnative₁, htools₁, htrivial₁⟩ := hstep
    refine ⟨s', hs', hcore, .inl hs', hnative₁, htools₁, htrivial₁, by rw [hxml₁],
      .inr ⟨hs', ?_, fun hxml _ => ?_⟩⟩
    · rw [hnative₁]
      exact hready.segment_closed
    · rw [hxml₁]
      exact hin hxml
  · refine ⟨s, htext, h.toCore, .inl htext, rfl, rfl, rfl,
      h.buffer_empty hseen fun hxml => ⟨hin hxml, ?_⟩, .inr hready⟩
    rw [hxml, hin hxml] at hundecided
    simpa using hundecided

/-- A context in which the block of a tool call is next. -/
structure Prepared (env : Environment σ) (marks : Marks) (c : Context σ) (s : Slot) : Prop
    extends Core env marks c s where
  slot : s.IsQuiet
  segment_closed : c.native.segmentOpen = false
  settled : env.sanitizer.Settled c.toolTranscriptSanitizer
  buffer_empty : c.xml.thinkingBuffer = []
  trivial_empty : c.pendingTrivialText = []

theorem Prepared.inv (h : Prepared env marks c s) : Inv env marks c s :=
  { h with undecided := fun _ => h.settled, buffer_empty := fun _ _ => h.buffer_empty }

theorem BeforeTool.flushTextSegment {c' : Context σ} (h : BeforeTool env marks c c' s')
    (hclosed : c.native.segmentOpen = false) (htrivial : c.pendingTrivialText = []) :
    ∃ s : Slot, (s' ≠ .tool → s.IsText) ∧
      Prepared env marks (flushTextSegment env c') s ∧
      (Context.flushTextSegment env c').tools = c.tools := by
  obtain ⟨s, hs, hcore⟩ := h.toCore.flushTextSegment h.ready
  obtain ⟨hxml, hnative, htools, hpending⟩ := (textStep_flushTextSegment env c').frame
  have hquiet : s.IsQuiet := by
    rcases hs with rfl | ⟨-, htext⟩
    · exact h.slot
    · exact .inl htext
  refine ⟨s, fun hne => ?_, ⟨hcore, hquiet, ?_, settled_flushTextSegment env c', ?_, ?_⟩, ?_⟩
  · rcases hs with rfl | ⟨-, htext⟩
    · exact h.slot.resolve_right hne
    · exact htext
  · rw [hnative, h.native_eq]
    exact hclosed
  · rw [hxml]
    exact h.buffer_empty
  · rw [hpending, h.trivial_eq]
    exact htrivial
  · rw [htools, h.tools_eq]

/-- The reasoning and the text before a tool event end; an open tool block stays open. -/
theorem Inv.prepareToolUse (h : Inv env marks c s) : ∃ s' : Slot,
    (s ≠ .tool → s'.IsText) ∧ Prepared env marks (prepareToolUse env c) s' ∧
      (Context.prepareToolUse env c).tools = c.tools := by
  have hcore : Core env marks (c.mapOut Output.setHasToolUse) s :=
    h.toCore.mapOut (fun _ hserial => hserial.setHasToolUse) subset_rfl
  have hstart : Inv env marks { c.mapOut Output.setHasToolUse with pendingTrivialText := [] } s :=
    { hcore with
      tool_quiet := fun heq =>
        ⟨(h.tool_quiet heq).1, (h.tool_quiet heq).2.1, (h.tool_quiet heq).2.2.1, rfl⟩
      undecided := h.undecided
      buffer_empty := h.buffer_empty }
  have htrivial :
      { c.mapOut Output.setHasToolUse with pendingTrivialText := [] }.pendingTrivialText = [] := rfl
  have htools : { c.mapOut Output.setHasToolUse with pendingTrivialText := [] }.tools = c.tools :=
    rfl
  unfold Context.prepareToolUse
  generalize { c.mapOut Output.setHasToolUse with pendingTrivialText := [] } = c₁
    at hstart htrivial htools ⊢
  dsimp only
  cases hseen : c₁.native.seen with
  | true =>
    have hs : s ≠ .xml := by
      rintro rfl
      exact absurd (hstart.xml_open rfl).2.1 (by rw [hseen]; decide)
    have hquiet : s.afterNative.IsQuiet := by
      cases s with
      | idle | native => exact .inl (.inl rfl)
      | text => exact .inl (.inr rfl)
      | xml => exact absurd rfl hs
      | tool => exact .inr rfl
    have hne : s ≠ .tool → s.afterNative ≠ .tool := by
      cases s with
      | tool => exact fun hne => absurd rfl hne
      | idle | text | xml | native => exact fun _ => by decide
    obtain ⟨hclose, hclosed⟩ := hstart.toCore.closeNativeReasoningBlock
    obtain ⟨-, htools₁, htrivial₁, -, hseen₁, -⟩ :=
      (nativeStep_closeNativeReasoningBlock env c₁).frame
    rw [if_pos rfl]
    generalize Context.closeNativeReasoningBlock env c₁ = c₂
      at hclose hclosed htools₁ htrivial₁ hseen₁ ⊢
    have hcleared : Core env marks { c₂ with xml := { c₂.xml with thinkingBuffer := [] } }
        s.afterNative := hclose.with_xml hquiet.ne_xml (fun hin => hin) fun _ => rfl
    have hbefore := hcleared.beforeTool_of_empty hquiet rfl
      (.inr ⟨hseen₁.trans hseen, hclosed⟩)
    obtain ⟨s', hs', hprepared, htools'⟩ :=
      hbefore.flushTextSegment hclosed (htrivial₁.trans htrivial)
    exact ⟨s', fun hs => hs' (hne hs), hprepared, htools'.trans (htools₁.trans htools)⟩
  | false =>
    have hclosed := hstart.toCore.segment_closed hseen
    have hbefore : ∃ s' : Slot, (s ≠ .tool → s' ≠ .tool) ∧
        BeforeTool env marks c₁ (flushUndecidedText env (endThinkingBeforeTool env c₁)) s' := by
      by_cases hs : s = .tool
      · exact ⟨s, fun hne => hne,
          hstart.toCore.beforeTool_of_empty (.inr hs) (hstart.tool_quiet hs).2.2.1 (.inl hs)⟩
      by_cases hinside : env.xmlThinking = true ∧ c₁.xml.inThinkingBlock = true
      · obtain ⟨s', hs', hbefore⟩ := hstart.beforeTool_of_inside
          (hstart.toCore.xmlReady hinside.1 hseen hs hinside.2)
        exact ⟨s', fun _ => hs'.ne_tool, hbefore⟩
      · obtain ⟨s', hs', hbefore⟩ := hstart.beforeTool_of_outside hseen hs fun hxml => by
          simpa using fun hin => hinside ⟨hxml, hin⟩
        exact ⟨s', fun _ => hs'.ne_tool, hbefore⟩
    obtain ⟨s₁, hs₁, hbefore⟩ := hbefore
    rw [if_neg (by decide)]
    obtain ⟨s', hs', hprepared, htools'⟩ := hbefore.flushTextSegment hclosed htrivial
    exact ⟨s', fun hs => hs' (hs₁ hs), hprepared, htools'.trans htools⟩

theorem PendingStarts.filter (h : PendingStarts env tools) (id : String) :
    PendingStarts env { tools with
      pendingToolStarts := tools.pendingToolStarts.filter (· ≠ id) } where
  nodup := h.nodup.filter _
  isPublic id' hid := h.isPublic id' (List.mem_of_mem_filter hid)
  unstarted id' hid := h.unstarted id' (List.mem_of_mem_filter hid)
  admitted id' hid := h.admitted id' (List.mem_of_mem_filter hid)

theorem PendingStarts.insert (h : PendingStarts env tools) (id : String) (index : ℕ) :
    PendingStarts env { tools with
      pendingToolStarts := tools.pendingToolStarts.filter (· ≠ id)
      toolBlockIndices := KeyedList.insert id index tools.toolBlockIndices } := by
  refine { h.filter id with unstarted := fun id' hid => ?_ }
  have hne : id' ≠ id := by simpa using (List.mem_filter.mp hid).2
  exact (KeyedList.get_insert_of_ne hne _ _).trans (h.unstarted id' (List.mem_of_mem_filter hid))

theorem Core.tool_marks_insert (h : Core env marks c s) (id : String) (index : ℕ) :
    ∀ id' i, KeyedList.get id' (KeyedList.insert id index c.tools.toolBlockIndices) = some i →
      i ∈ (marks.addTool index).tools := by
  intro id' i hi
  by_cases heq : id' = id
  · subst heq
    rw [KeyedList.get_insert_self] at hi
    cases hi
    exact Set.mem_insert _ _
  · rw [KeyedList.get_insert_of_ne heq] at hi
    exact Set.mem_insert_of_mem _ (h.tool_marks id' i hi)

theorem Core.with_tools (h : Core env marks c s) (hpending : PendingStarts env tools)
    (hmarks : ∀ id i, KeyedList.get id tools.toolBlockIndices = some i → i ∈ marks.tools) :
    Core env marks { c with tools := tools } s :=
  { h with
    holds := by
      cases s with
      | idle | text | xml | native | tool => exact h.holds
    pending_starts := hpending
    tool_marks := hmarks }

theorem Prepared.with_tools (h : Prepared env marks c s) (hpending : PendingStarts env tools)
    (hmarks : ∀ id i, KeyedList.get id tools.toolBlockIndices = some i → i ∈ marks.tools) :
    Prepared env marks { c with tools := tools } s :=
  { h with toCore := h.toCore.with_tools hpending hmarks }

theorem Prepared.mapOut {marks' : Marks} (h : Prepared env marks c s) {f : Output → Output}
    (hs' : s'.IsQuiet) (hholds : Holds marks' (c.mapOut f) s') (hmarks : marks.tools ⊆ marks'.tools)
    (htext : s' = .text → s = .text) : Prepared env marks' (c.mapOut f) s' where
  holds := hholds
  native_index _ := h.native_index h.slot.ne_native
  native_open heq := absurd heq hs'.ne_native
  segment_seen := h.segment_seen
  segment_settled hopen := absurd (h.segment_closed.symm.trans hopen) (by decide)
  xml_open heq := absurd heq hs'.ne_xml
  thinking_text hxml hseen hin heq := h.thinking_text hxml hseen hin (htext heq)
  tool_quiet _ := ⟨h.settled, h.thinking_settled h.slot.ne_xml h.segment_closed, h.buffer_empty,
    h.trivial_empty⟩
  thinking_settled _ := h.thinking_settled h.slot.ne_xml
  pending_starts := h.pending_starts
  tool_marks id i hi := hmarks (h.tool_marks id i hi)
  slot := hs'
  segment_closed := h.segment_closed
  settled := h.settled
  buffer_empty := h.buffer_empty
  trivial_empty := h.trivial_empty

theorem Prepared.start_started (h : Prepared env marks c s) {i : ℕ} (hi : i ∈ marks.started)
    (content : ContentBlock) (htype : content.type = .toolUse) :
    ∃ s' : Slot, s'.IsQuiet ∧ Prepared env marks (c.mapOut (·.start i content)) s' := by
  have hbefore : Output.slotBefore content = fun slot => slot.filter fun entry => entry.2 ≠ .text :=
    funext fun slot => if_pos (.inl htype)
  rcases h.slot with (rfl | rfl) | rfl
  · have hserial : c.out.Serial marks none := h.holds
    have hstart := hserial.start_started hi content
    rw [hbefore] at hstart
    exact ⟨.idle, .inl (.inl rfl), h.mapOut (.inl (.inl rfl)) hstart subset_rfl
      fun heq => by cases heq⟩
  · obtain ⟨j, hserial, -⟩ := h.holds
    have hstart := hserial.start_started hi content
    rw [hbefore] at hstart
    exact ⟨.idle, .inl (.inl rfl), h.mapOut (.inl (.inl rfl)) hstart subset_rfl
      fun heq => by cases heq⟩
  · obtain ⟨j, hserial⟩ := h.holds
    have hstart := hserial.start_started hi content
    rw [hbefore] at hstart
    exact ⟨.tool, .inr rfl, h.mapOut (.inr rfl) ⟨j, hstart⟩ subset_rfl fun heq => by cases heq⟩

theorem Prepared.startNew (h : Prepared env marks c s) (hs : s.IsText) (content : ContentBlock)
    (htype : content.type = .toolUse) :
    Prepared env (marks.addTool c.manager.nextBlockIndex) (c.mapOut (·.startNew content)) .tool ∧
      (c.mapOut (·.startNew content)).manager.isBlockOpenOfType c.manager.nextBlockIndex .toolUse =
        true := by
  have hstart : (c.out.startNew content).Serial marks
      (some (c.manager.nextBlockIndex, .toolUse)) := by
    rw [← htype]
    rcases hs with rfl | rfl
    · exact Output.Serial.startNew h.holds (by rw [Output.slotBefore, if_pos (.inl htype)]; rfl)
    · obtain ⟨j, hserial, -⟩ := h.holds
      exact hserial.startNew (by rw [Output.slotBefore, if_pos (.inl htype)]; rfl)
  refine ⟨?_, (hstart.isOpen_iff _ _).mpr rfl⟩
  exact h.mapOut (.inr rfl) ⟨_, hstart.addTool_open⟩ (Set.subset_insert _ _)
    fun heq => by cases heq

/-- What the functions of a tool call change. -/
def ToolStep (c c' : Context σ) : Prop :=
  ∃ out tools, c' = { c with path := ⟨out, c.text⟩, tools := tools }

theorem ToolStep.frame {c c' : Context σ} (h : ToolStep c c') :
    c'.text = c.text ∧ c'.xml = c.xml ∧ c'.native = c.native ∧
      c'.toolTranscriptSanitizer = c.toolTranscriptSanitizer ∧
      c'.pendingTrivialText = c.pendingTrivialText := by
  obtain ⟨_, _, rfl⟩ := h
  exact ⟨rfl, rfl, rfl, rfl, rfl⟩

theorem Prepared.of_toolStep {c' : Context σ} (h : Prepared env marks c s) (hstep : ToolStep c c')
    (hcore : Core env marks c' s') (hs' : s'.IsQuiet) : Prepared env marks c' s' := by
  obtain ⟨-, hxml, hnative, hsanitizer, htrivial⟩ := hstep.frame
  refine ⟨hcore, hs', ?_, ?_, ?_, ?_⟩
  · rw [hnative]
    exact h.segment_closed
  · rw [hsanitizer]
    exact h.settled
  · rw [hxml]
    exact h.buffer_empty
  · rw [htrivial]
    exact h.trivial_empty

theorem Core.delta (h : Core env marks c s) (i : ℕ) (d : Delta) :
    Core env marks (c.mapOut (·.delta i d)) s :=
  h.mapOut (fun _ hserial => hserial.delta i d) subset_rfl

theorem Prepared.delta (h : Prepared env marks c s) (i : ℕ) (d : Delta) :
    Prepared env marks (c.mapOut (·.delta i d)) s :=
  { h with toCore := h.toCore.delta i d }

theorem Prepared.forwardToolInput (h : Prepared env marks c s) (id : String) (index : ℕ)
    (resolved : ToolNameRestore.ResolvedToolName) (input : List Char) :
    Prepared env marks (forwardToolInput env id index resolved input c) s ∧
      (Context.forwardToolInput env id index resolved input c).manager = c.manager := by
  unfold Context.forwardToolInput
  split_ifs with hdefers
  · exact ⟨h, rfl⟩
  have htools : ∀ scanners, Prepared env marks
      { c with tools := { c.tools with toolInputScanners := scanners } } s :=
    fun scanners => h.with_tools { h.pending_starts with } h.tool_marks
  dsimp only
  split_ifs
  · exact ⟨htools _, rfl⟩
  · exact ⟨(htools _).delta _ _, rfl⟩

/-- The stop of a tool block: no other block has its index. -/
theorem Core.stop_tool (h : Core env marks c s) {i : ℕ} (hi : i ∈ marks.tools) :
    ∃ s' : Slot, (s' = s ∨ s = .tool ∧ s' = .idle) ∧
      (c.manager.isBlockOpenOfType i .toolUse = true → s' ≠ .tool) ∧
      Core env marks (c.mapOut (·.stop i)) s' := by
  have hother : ∀ {j : ℕ} {type : BlockType}, c.out.Serial marks (some (j, type)) →
      type ≠ .toolUse → (c.out.stop i).Serial marks (some (j, type)) := by
    intro j type hserial hne
    refine hserial.stop_other ?_
    rintro rfl
    exact hne (hserial.type_eq_toolUse hi)
  cases s with
  | idle =>
    have hserial : c.out.Serial marks none := h.holds
    exact ⟨.idle, .inl rfl, fun _ => by decide, { h with holds := hserial.stop i }⟩
  | text =>
    obtain ⟨j, hserial, hj⟩ := h.holds
    exact ⟨.text, .inl rfl, fun _ => by decide,
      { h with holds := ⟨j, hother hserial (by decide), hj⟩ }⟩
  | xml =>
    obtain ⟨j, hserial, hj⟩ := h.holds
    exact ⟨.xml, .inl rfl, fun _ => by decide,
      { h with holds := ⟨j, hother hserial (by decide), hj⟩ }⟩
  | native =>
    obtain ⟨j, hserial, hj⟩ := h.holds
    exact ⟨.native, .inl rfl, fun _ => by decide,
      { h with holds := ⟨j, hother hserial (by decide), hj⟩ }⟩
  | tool =>
    obtain ⟨j, hserial⟩ := h.holds
    by_cases hji : j = i
    · subst hji
      have hquiet := h.tool_quiet rfl
      refine ⟨.idle, .inr ⟨rfl, rfl⟩, fun _ => by decide, { h with
        holds := hserial.stop_open
        native_index := fun _ => h.native_index (by decide)
        native_open := fun heq => by cases heq
        segment_settled := fun hopen => ⟨by decide, (h.segment_settled hopen).2⟩
        xml_open := fun heq => by cases heq
        thinking_text := fun _ _ _ => by decide
        tool_quiet := fun heq => by cases heq
        thinking_settled := fun _ _ => hquiet.2.1 }⟩
    · refine ⟨.tool, .inl rfl, fun hopen => ?_,
        { h with holds := ⟨j, hserial.stop_other hji⟩ }⟩
      cases (hserial.isOpen_iff i .toolUse).mp hopen
      exact absurd rfl hji

theorem toolStep_completeToolUse (env : Environment σ) (index : ℕ)
    (resolved : ToolNameRestore.ResolvedToolName) (fullInput : List Char) (c : Context σ) :
    ToolStep c (completeToolUse env index resolved fullInput c) := by
  unfold completeToolUse
  dsimp only
  split_ifs
  · exact ⟨_, _, rfl⟩
  · exact ⟨_, _, rfl⟩

theorem Core.completeToolUse (h : Core env marks c s) {index : ℕ} (hindex : index ∈ marks.tools)
    (resolved : ToolNameRestore.ResolvedToolName) (fullInput : List Char) :
    ∃ s' : Slot, (s' = s ∨ s = .tool ∧ s' = .idle) ∧
      (c.manager.isBlockOpenOfType index .toolUse = true → s' ≠ .tool) ∧
      Core env marks (completeToolUse env index resolved fullInput c) s' := by
  unfold Context.completeToolUse
  dsimp only
  split_ifs
  · obtain ⟨s', hs', hclosed, hstop⟩ := (h.delta index
      (.inputJsonDelta (outputInput env resolved fullInput))).stop_tool hindex
    exact ⟨s', hs', hclosed, hstop.with_tools { hstop.pending_starts with } hstop.tool_marks⟩
  · obtain ⟨s', hs', hclosed, hstop⟩ := h.stop_tool hindex
    exact ⟨s', hs', hclosed, hstop.with_tools { hstop.pending_starts with } hstop.tool_marks⟩

/-- The end of a call: its block is stopped, or stays open with an invalid input. -/
theorem Prepared.finishToolUse (h : Prepared env marks c s) (id : String) {index : ℕ}
    (hindex : index ∈ marks.tools) (resolved : ToolNameRestore.ResolvedToolName) (input : List Char) :
    ∃ s' : Slot, (s' = s ∨ s = .tool ∧ s' = .idle) ∧
      Prepared env marks (finishToolUse env id index resolved input c) s' ∧
      (classifyToolInputJson env.isJson
          ((KeyedList.get id c.tools.toolInputBuffers).getD input) = .valid →
        c.manager.isBlockOpenOfType index .toolUse = true → s' ≠ .tool) := by
  have htaken : Prepared env marks { c with tools := { c.tools with
      toolInputBuffers := eraseKey id c.tools.toolInputBuffers
      toolInputNames := eraseKey id c.tools.toolInputNames
      toolInputScanners := eraseKey id c.tools.toolInputScanners } } s :=
    h.with_tools { h.pending_starts with } h.tool_marks
  have hmanager : { c with tools := { c.tools with
      toolInputBuffers := eraseKey id c.tools.toolInputBuffers
      toolInputNames := eraseKey id c.tools.toolInputNames
      toolInputScanners := eraseKey id c.tools.toolInputScanners } }.manager = c.manager := rfl
  unfold Context.finishToolUse takeToolInput
  dsimp only
  generalize { c with tools := { c.tools with
      toolInputBuffers := eraseKey id c.tools.toolInputBuffers
      toolInputNames := eraseKey id c.tools.toolInputNames
      toolInputScanners := eraseKey id c.tools.toolInputScanners } } = c₁ at htaken hmanager ⊢
  have hcomplete : ∀ fullInput : List Char, ∃ s' : Slot, (s' = s ∨ s = .tool ∧ s' = .idle) ∧
      Prepared env marks (completeToolUse env index resolved fullInput c₁) s' ∧
        (c.manager.isBlockOpenOfType index .toolUse = true → s' ≠ .tool) := by
    intro fullInput
    obtain ⟨s', hs', hclosed, hcore⟩ := htaken.toCore.completeToolUse hindex resolved fullInput
    rw [hmanager] at hclosed
    have hquiet : s'.IsQuiet := by
      rcases hs' with rfl | ⟨-, rfl⟩
      · exact h.slot
      · exact .inl (.inl rfl)
    exact ⟨s', hs', htaken.of_toolStep (toolStep_completeToolUse _ _ _ _ _) hcore hquiet,
      hclosed⟩
  split
  · obtain ⟨s', hs', hprepared, hclosed⟩ :=
      hcomplete ((KeyedList.get id c.tools.toolInputBuffers).getD input)
    exact ⟨s', hs', hprepared, fun _ => hclosed⟩
  · next cleaned _ =>
    obtain ⟨s', hs', hprepared, hclosed⟩ := hcomplete cleaned
    exact ⟨s', hs', hprepared, fun _ => hclosed⟩
  · next hinvalid =>
    refine ⟨s, .inl rfl, h.with_tools { h.pending_starts with } h.tool_marks, fun hvalid => ?_⟩
    rw [hvalid] at hinvalid
    cases hinvalid

def CanEmit (marks : Marks) (id : String) (c : Context σ) (s : Slot) : Prop :=
  match KeyedList.get id c.tools.toolBlockIndices with
  | some index => index ∈ marks.started
  | none => s.IsText

/-- The context of a call that no longer waits for its first input. -/
def dropPendingStart (id : String) (c : Context σ) : Context σ :=
  { c with tools := { c.tools with
    pendingToolStarts := c.tools.pendingToolStarts.filter (· ≠ id) } }

def startToolUse (env : Environment σ) (id : String) (toolUse : ToolUse) (c : Context σ) :
    Context σ :=
  let resolved := resolveToolName env toolUse.name
  (bufferToolInput id resolved.upstream toolUse.input
    (toolBlockIndex id (dropPendingStart id c)).2).mapOut
      (·.start (toolBlockIndex id (dropPendingStart id c)).1
        (.toolUse id.toList resolved.original.toList "{}".toList))

theorem emitToolUse_eq {id : String} (hcode : isCodeExecution env toolUse.name = false) :
    emitToolUse env id toolUse c =
      let index := (toolBlockIndex id (dropPendingStart id c)).1
      let resolved := resolveToolName env toolUse.name
      let c := forwardToolInput env id index resolved toolUse.input (startToolUse env id toolUse c)
      if toolUse.stop then finishToolUse env id index resolved toolUse.input c else c := by
  unfold emitToolUse
  dsimp only
  rw [hcode, if_neg (by decide)]
  rfl

theorem Prepared.startToolUse (h : Prepared env marks c s) {id : String} (toolUse : ToolUse)
    (hemit : CanEmit marks id c s) : ∃ marks' s',
      Prepared env marks' (startToolUse env id toolUse c) s' ∧
        (toolBlockIndex id (dropPendingStart id c)).1 ∈ marks'.tools ∧
        (KeyedList.get id c.tools.toolBlockIndices = none →
          (Context.startToolUse env id toolUse c).manager.isBlockOpenOfType
            (toolBlockIndex id (dropPendingStart id c)).1 .toolUse = true) := by
  unfold CanEmit at hemit
  unfold Context.startToolUse toolBlockIndex bufferToolInput dropPendingStart
  dsimp only
  cases hget : KeyedList.get id c.tools.toolBlockIndices with
  | some index =>
    rw [hget] at hemit
    dsimp only
    have htools : ∀ buffers names, Prepared env marks { c with tools := { c.tools with
        pendingToolStarts := c.tools.pendingToolStarts.filter (· ≠ id)
        toolInputBuffers := buffers
        toolInputNames := names } } s :=
      fun _ _ => h.with_tools { h.pending_starts.filter id with } h.tool_marks
    obtain ⟨s', -, hprepared⟩ := (htools _ _).start_started hemit (.toolUse id.toList
      (resolveToolName env toolUse.name).original.toList "{}".toList) rfl
    exact ⟨marks, s', hprepared, h.tool_marks id index hget, fun hnone => by cases hnone⟩
  | none =>
    rw [hget] at hemit
    dsimp only
    obtain ⟨hprepared, hopen⟩ := h.startNew hemit (.toolUse id.toList
      (resolveToolName env toolUse.name).original.toList "{}".toList) rfl
    refine ⟨marks.addTool c.manager.nextBlockIndex, .tool, ?_, Set.mem_insert _ _,
      fun _ => hopen⟩
    exact Prepared.with_tools hprepared { h.pending_starts.insert id _ with }
      (h.tool_marks_insert id _)

theorem Prepared.emitCodeExecution (h : Prepared env marks c s) (id : String)
    (hcode : isCodeExecution env toolUse.name = true) :
    ∃ marks', Prepared env marks' (emitToolUse env id toolUse c) s := by
  have hindex : ∃ marks' : Marks, Prepared env marks' (toolBlockIndex id { c with
      tools := { c.tools with
        pendingToolStarts := c.tools.pendingToolStarts.filter (· ≠ id) } }).2 s := by
    unfold toolBlockIndex
    dsimp only
    cases hget : KeyedList.get id c.tools.toolBlockIndices with
    | some index =>
      exact ⟨marks, h.with_tools { h.pending_starts.filter id with } h.tool_marks⟩
    | none =>
      have hcore : Core env (marks.addTool c.manager.nextBlockIndex)
          (c.mapOut Output.takeBlockIndex) s :=
        h.toCore.mapOut (fun _ hserial => hserial.takeToolIndex) (Set.subset_insert _ _)
      have htaken : Prepared env (marks.addTool c.manager.nextBlockIndex)
          (c.mapOut Output.takeBlockIndex) s := { h with toCore := hcore }
      exact ⟨marks.addTool c.manager.nextBlockIndex,
        htaken.with_tools { h.pending_starts.insert id _ with } (h.tool_marks_insert id _)⟩
  obtain ⟨marks', hprepared⟩ := hindex
  unfold emitToolUse
  dsimp only
  rw [if_pos hcode]
  generalize (toolBlockIndex id _).2 = c₁ at hprepared ⊢
  refine ⟨marks', ?_⟩
  unfold processCodeExecution bufferToolInput takeToolInput
  dsimp only
  split_ifs
  all_goals exact hprepared.with_tools { hprepared.pending_starts with } hprepared.tool_marks

theorem Prepared.emitToolUse (h : Prepared env marks c s) {id : String}
    (hemit : isCodeExecution env toolUse.name = false → CanEmit marks id c s) :
    ∃ marks' s', Prepared env marks' (emitToolUse env id toolUse c) s' := by
  cases hcode : isCodeExecution env toolUse.name with
  | true =>
    obtain ⟨marks', hprepared⟩ := h.emitCodeExecution id hcode
    exact ⟨marks', s, hprepared⟩
  | false =>
    obtain ⟨marks', s₁, hstart, hindex, -⟩ := h.startToolUse toolUse (hemit hcode)
    rw [emitToolUse_eq hcode]
    dsimp only
    have hforward := (hstart.forwardToolInput id (toolBlockIndex id (dropPendingStart id c)).1
      (resolveToolName env toolUse.name) toolUse.input).1
    split_ifs
    · obtain ⟨s', -, hfinish, -⟩ := hforward.finishToolUse id hindex
        (resolveToolName env toolUse.name) toolUse.input
      exact ⟨marks', s', hfinish⟩
    · exact ⟨marks', s₁, hforward⟩

theorem admitCall_spec (env : Environment σ) (id name : String) (c : Context σ) :
    ∃ gate : ResponseToolGate, (admitCall env id name c).2 =
        { c with tools := { c.tools with responseToolGate := gate } } ∧
      (∀ id' admitted, KeyedList.get id' c.tools.responseToolGate.decisions = some admitted →
        KeyedList.get id' gate.decisions = some admitted) ∧
      (id ≠ "" → KeyedList.get id gate.decisions = some (admitCall env id name c).1) := by
  unfold admitCall
  dsimp only
  cases hget : KeyedList.get id c.tools.responseToolGate.decisions with
  | some admitted => exact ⟨_, rfl, fun _ _ h => h, fun _ => hget⟩
  | none =>
    refine ⟨_, rfl, fun id' admitted hid => ?_, fun hne => ?_⟩
    · dsimp only
      split_ifs
      · exact hid
      · have hne : id' ≠ id := by
          rintro rfl
          rw [hget] at hid
          cases hid
        rwa [KeyedList.get_insert_of_ne hne]
    · dsimp only
      rw [if_neg hne, KeyedList.get_insert_self]

theorem admitCall_of_decided {id : String} {admitted : Bool}
    (h : KeyedList.get id c.tools.responseToolGate.decisions = some admitted) (name : String) :
    admitCall env id name c = (admitted, c) := by
  unfold admitCall
  dsimp only
  rw [h]

theorem publicToolUseId_ne_empty (env : Environment σ) (id : String) :
    env.publicToolUseId id ≠ "" := by
  intro heq
  have hpublic : "toolu_".toList.isPrefixOf (env.publicToolUseId id).toList = true := by
    unfold Environment.publicToolUseId
    split_ifs with h
    · exact h
    · rw [String.toList_append]
      rfl
  rw [heq] at hpublic
  cases hpublic

theorem Inv.with_tools (h : Inv env marks c s) (hpending : PendingStarts env tools)
    (hmarks : ∀ id i, KeyedList.get id tools.toolBlockIndices = some i → i ∈ marks.tools) :
    Inv env marks { c with tools := tools } s :=
  { h.toCore.with_tools hpending hmarks with
    undecided := h.undecided
    buffer_empty := h.buffer_empty }

theorem Inv.admitCall (h : Inv env marks c s) (id name : String) :
    Inv env marks (admitCall env id name c).2 s := by
  obtain ⟨gate, heq, hkeep, -⟩ := admitCall_spec env id name c
  rw [heq]
  exact h.with_tools { h.pending_starts with
    admitted := fun id' hid => hkeep id' true (h.pending_starts.admitted id' hid) } h.tool_marks

theorem PendingStarts.append (h : PendingStarts env tools) {id : String}
    (hpublic : env.publicToolUseId id = id)
    (hunstarted : KeyedList.get id tools.toolBlockIndices = none)
    (hadmitted : KeyedList.get id tools.responseToolGate.decisions = some true)
    (hid : id ∉ tools.pendingToolStarts) : PendingStarts env { tools with
      pendingToolStarts := tools.pendingToolStarts ++ [id] } := by
  have hmem : ∀ {p : String → Prop}, (∀ id' ∈ tools.pendingToolStarts, p id') → p id →
      ∀ id' ∈ tools.pendingToolStarts ++ [id], p id' := by
    intro p hold hnew id' hid'
    rcases List.mem_append.mp hid' with hid' | hid'
    · exact hold id' hid'
    · rw [List.mem_singleton.mp hid']
      exact hnew
  exact ⟨h.nodup.append (List.nodup_singleton id) (List.disjoint_singleton.mpr hid),
    hmem h.isPublic hpublic, hmem h.unstarted hunstarted, hmem h.admitted hadmitted⟩

theorem Prepared.deferToolStart (h : Prepared env marks c s) {id : String}
    (hpublic : env.publicToolUseId id = id)
    (hunstarted : KeyedList.get id c.tools.toolBlockIndices = none)
    (hadmitted : KeyedList.get id c.tools.responseToolGate.decisions = some true) (name : String) :
    Prepared env marks (deferToolStart id name c) s := by
  unfold Context.deferToolStart
  refine h.with_tools ?_ h.tool_marks
  by_cases hid : id ∈ c.tools.pendingToolStarts
  · rw [if_pos hid]
    exact { h.pending_starts with }
  · rw [if_neg hid]
    exact { h.pending_starts.append hpublic hunstarted hadmitted hid with }

/-- A tool event is in order: its block was started before, or it waits, or no tool block is
open. A call that is not admitted and a code execution send nothing. -/
def ToolSerial (env : Environment σ) (toolUse : ToolUse) (c : Context σ) : Prop :=
  let id := env.publicToolUseId toolUse.toolUseId
  let gateName := (KeyedList.get toolUse.name env.toolNameMap).getD toolUse.name
  (admitCall env id gateName c).1 = true → isCodeExecution env toolUse.name = false →
    match KeyedList.get id c.tools.toolBlockIndices with
    | some index => c.out.Started index
    | none => toolUse.input ≠ [] ∨ toolUse.stop = true → NoToolOpen c

theorem Inv.processToolUse (h : Inv env marks c s)
    (hmarks : ∀ i, c.out.Started i → i ∈ marks.started) (hserial : ToolSerial env toolUse c) :
    ∃ marks' s', Inv env marks' (processToolUse env toolUse c) s' := by
  unfold ToolSerial at hserial
  unfold Context.processToolUse
  dsimp only at hserial ⊢
  generalize (KeyedList.get toolUse.name env.toolNameMap).getD toolUse.name = name at hserial ⊢
  have hpublic := env.publicToolUseId_publicToolUseId toolUse.toolUseId
  have hne := publicToolUseId_ne_empty env toolUse.toolUseId
  generalize env.publicToolUseId toolUse.toolUseId = id at hserial hpublic hne ⊢
  have hgate := h.admitCall id name
  obtain ⟨gate, heq, -, hdecided⟩ := admitCall_spec env id name c
  split_ifs with hadmitted hdeferred
  · obtain ⟨s', -, hprepared, htools⟩ := hgate.prepareToolUse
    unfold isDeferred at hdeferred
    simp only [Bool.and_eq_true, Option.isNone_iff_eq_none] at hdeferred
    refine ⟨marks, s', (hprepared.deferToolStart hpublic hdeferred.1.1 ?_ _).inv⟩
    rw [htools, heq]
    exact (hdecided hne).trans (congrArg some hadmitted)
  · obtain ⟨s', hs', hprepared, htools⟩ := hgate.prepareToolUse
    have hindices :
        (Context.prepareToolUse env (Context.admitCall env id name c).2).tools.toolBlockIndices =
          c.tools.toolBlockIndices := by
      rw [htools, heq]
    have hcan : isCodeExecution env toolUse.name = false →
        CanEmit marks id (Context.prepareToolUse env (Context.admitCall env id name c).2) s' := by
      intro hcode
      have hserial := hserial hadmitted hcode
      unfold CanEmit
      rw [hindices]
      cases hget : KeyedList.get id c.tools.toolBlockIndices with
      | some index =>
        rw [hget] at hserial
        exact hmarks index hserial
      | none =>
        rw [hget] at hserial
        refine hs' (h.toCore.ne_tool (hserial ?_))
        unfold isDeferred at hdeferred
        rw [hindices, hget] at hdeferred
        cases hinput : toolUse.input with
        | nil =>
          rw [hinput] at hdeferred
          exact .inr (by simpa using hdeferred)
        | cons x xs => exact .inl (by simp)
    obtain ⟨marks', s'', hemit⟩ := hprepared.emitToolUse hcan
    exact ⟨marks', s'', hemit.inv⟩
  · exact ⟨marks, s, hgate⟩

theorem Core.emitServerToolUse (h : Core env marks c s) (hs : s.IsText) (content : ContentBlock)
    (htype : content.type = .serverToolUse) (d : Delta) :
    Core env marks (c.mapOut fun o => ((o.startNew content).delta c.manager.nextBlockIndex d).stop
      c.manager.nextBlockIndex) .idle := by
  have hstart : ∃ slot, c.out.Serial marks slot ∧ Output.slotBefore content slot = none := by
    rcases hs with rfl | rfl
    · exact ⟨none, h.holds, by rw [Output.slotBefore, if_pos (.inr htype)]; rfl⟩
    · obtain ⟨i, hserial, -⟩ := h.holds
      exact ⟨_, hserial, by rw [Output.slotBefore, if_pos (.inr htype)]; rfl⟩
  obtain ⟨slot, hserial, hslot⟩ := hstart
  exact { h with
    holds := ((hserial.startNew hslot).delta _ d).stop_open
    native_index := fun _ => h.native_index hs.ne_native
    native_open := fun heq => by cases heq
    segment_settled := fun hopen => ⟨by decide, (h.segment_settled hopen).2⟩
    xml_open := fun heq => by cases heq
    thinking_text := fun _ _ _ => by decide
    tool_quiet := fun heq => by cases heq
    thinking_settled := fun _ => h.thinking_settled hs.ne_xml }

theorem Inv.emitCodeExecutionResult (h : Inv env marks c s) (hs : s.IsText) (input : List Char)
    (result : ExecutionResult) :
    Inv env marks (emitCodeExecutionResult env input result c) .idle := by
  have hreason : Core env marks (c.mapOut (·.setStopReason "end_turn")) s :=
    h.toCore.mapOut (fun _ hserial => hserial.setStopReason "end_turn") subset_rfl
  have hstart : Inv env marks { c.mapOut (·.setStopReason "end_turn") with
      randomIds := c.randomIds + 1
      tools := { c.tools with codeExecutionHandled := true } } s :=
    { hreason with
      holds := by
        rcases hs with rfl | rfl
        · exact hreason.holds
        · exact hreason.holds
      pending_starts := { h.pending_starts with }
      undecided := h.undecided
      buffer_empty := h.buffer_empty }
  unfold Context.emitCodeExecutionResult
  dsimp only
  generalize { c.mapOut (·.setStopReason "end_turn") with
      randomIds := c.randomIds + 1
      tools := { c.tools with codeExecutionHandled := true } } = c₁ at hstart ⊢
  have hserver := hstart.toCore.emitServerToolUse hs (.serverToolUse
    (env.randomServerToolUseId c.randomIds).toList "bash_code_execution".toList "{}".toList) rfl
    (.inputJsonDelta input)
  exact { hserver.emitBlock (resultBlock (env.randomServerToolUseId c.randomIds).toList result) with
    undecided := hstart.undecided
    buffer_empty := hstart.buffer_empty }

theorem Inv.foldl_codeExecution (execute : List Char → ExecutionResult) (inputs : List (List Char))
    (h : Inv env marks c s) (hs : inputs ≠ [] → s.IsText) : ∃ s' : Slot,
      (s' = s ∨ s'.IsText) ∧ Inv env marks (inputs.foldl
        (fun c input => Context.emitCodeExecutionResult env input (execute input) c) c) s' := by
  induction inputs generalizing c s with
  | nil => exact ⟨s, .inl rfl, h⟩
  | cons input inputs ih =>
    obtain ⟨s', hs', hinv⟩ := ih (h.emitCodeExecutionResult (hs (by simp)) input (execute input))
      fun _ => .inl rfl
    refine ⟨s', .inr ?_, hinv⟩
    rcases hs' with rfl | htext
    · exact .inl rfl
    · exact htext

theorem Inv.completeCodeExecutions (h : Inv env marks c s)
    (hs : c.tools.pendingCodeExecutions ≠ [] → s.IsText) (execute : List Char → ExecutionResult) :
    ∃ s' : Slot, (s' = s ∨ s'.IsText) ∧
      Inv env marks (completeCodeExecutions env execute c) s' := by
  have hcleared : Inv env marks
      { c with tools := { c.tools with pendingCodeExecutions := [] } } s :=
    h.with_tools { h.pending_starts with } h.tool_marks
  exact hcleared.foldl_codeExecution execute c.tools.pendingCodeExecutions hs

/-- The results of code executions are in order: no tool block and no thinking block is
open. -/
def CodeSerial (c : Context σ) : Prop :=
  c.tools.pendingCodeExecutions = [] ∨
    NoToolOpen c ∧ ∀ i, c.manager.isBlockOpenOfType i .thinking = false

theorem Core.isText_of_closed (h : Core env marks c s) (htool : NoToolOpen c)
    (hthinking : ∀ i, c.manager.isBlockOpenOfType i .thinking = false) : s.IsText := by
  have hopen : ∀ {i : ℕ}, ¬ c.out.Serial marks (some (i, .thinking)) := by
    intro i hserial
    exact absurd ((hserial.isOpen_iff i .thinking).mpr rfl) (by rw [hthinking i]; decide)
  cases s with
  | idle => exact .inl rfl
  | text => exact .inr rfl
  | xml | native =>
    obtain ⟨i, hserial, -⟩ := h.holds
    exact absurd hserial hopen
  | tool => exact absurd rfl (h.ne_tool htool)

end KiroProxy.Stream.Context
