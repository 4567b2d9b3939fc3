import KiroProxy.Stream.ToolSerial
import KiroProxy.Stream.Events

/-!
# The end of the stream keeps one block open

At the end of the stream the reasoning is closed, held text and unfinished tool calls are
sent, and the blocks that are still open are stopped. Text or a tool call may follow a
block that stays open until then; the events are in order when it does not.
-/

namespace KiroProxy.Stream.Context

variable {σ : Type} {env : Environment σ} {marks : Marks} {c : Context σ}

structure TextFrame (c c' : Context σ) : Prop where
  native : c'.native = c.native
  tools : c'.tools = c.tools
  streamError : c'.streamError = c.streamError
  refusal : c'.upstreamContentFilterRefusal = c.upstreamContentFilterRefusal

theorem TextFrame.refl (c : Context σ) : TextFrame c c :=
  ⟨rfl, rfl, rfl, rfl⟩

theorem TextFrame.trans {c₁ c₂ c₃ : Context σ} (h : TextFrame c₁ c₂) (h' : TextFrame c₂ c₃) :
    TextFrame c₁ c₃ :=
  ⟨h'.native.trans h.native, h'.tools.trans h.tools, h'.streamError.trans h.streamError,
    h'.refusal.trans h.refusal⟩

theorem TextStep.textFrame {c c' : Context σ} (h : TextStep c c') : TextFrame c c' := by
  obtain ⟨_, _, rfl⟩ := h
  exact ⟨rfl, rfl, rfl, rfl⟩

theorem XmlStep.textFrame {c c' : Context σ} (h : XmlStep c c') : TextFrame c c' := by
  obtain ⟨_, _, _, _, rfl⟩ := h
  exact ⟨rfl, rfl, rfl, rfl⟩

theorem textFrame_with_xml (xml : XmlThinking) (c : Context σ) :
    TextFrame c { c with xml := xml } :=
  ⟨rfl, rfl, rfl, rfl⟩

theorem textFrame_createTextDeltaEvents (env : Environment σ) (text : List Char) (c : Context σ) :
    TextFrame c (createTextDeltaEvents env text c) :=
  (textStep_createTextDeltaEvents env text c).textFrame

theorem textFrame_emitRemainingText (env : Environment σ) (c : Context σ) :
    TextFrame c (emitRemainingText env c) :=
  (textFrame_with_xml _ c).trans (textFrame_createTextDeltaEvents env _ _)

theorem textFrame_stripLeadingNewline (c : Context σ) : TextFrame c c.stripLeadingNewline := by
  obtain ⟨_, _, heq⟩ := stripLeadingNewline_eq c
  rw [heq]
  exact textFrame_with_xml _ c

theorem textFrame_finishXmlThinking (env : Environment σ) (thinking : List Char) (c : Context σ) :
    TextFrame c (finishXmlThinking env thinking c) := by
  obtain ⟨_, _, _, _, heq⟩ := finishXmlThinking_eq env thinking c
  rw [heq]
  exact ⟨rfl, rfl, rfl, rfl⟩

theorem textFrame_emitSafeThinking (env : Environment σ) (c : Context σ) :
    TextFrame c (emitSafeThinking env c) := by
  unfold emitSafeThinking
  dsimp only
  split_ifs
  · exact TextFrame.refl c
  · exact ((textFrame_with_xml _ c).trans (xmlStep_pushXmlThinkingDelta env _ _).textFrame).trans
      (textFrame_with_xml _ _)

theorem textFrame_continueThinking (env : Environment σ) (c : Context σ) :
    TextFrame c (continueThinking env c) := by
  unfold continueThinking
  dsimp only
  split
  · exact (((textFrame_stripLeadingNewline c).trans (textFrame_finishXmlThinking env _ _)).trans
      (textFrame_with_xml _ _)).trans (textFrame_emitRemainingText env _)
  · exact (textFrame_stripLeadingNewline c).trans (textFrame_emitSafeThinking env _)

theorem textFrame_startThinking (env : Environment σ) (start : ℕ) (tag : ThinkingXmlTag)
    (c : Context σ) : TextFrame c (startThinking env start tag c) := by
  have hstart : ∀ c : Context σ, ∀ xml, TextFrame c
      (startXmlThinkingBlock { flushTextSegment env c with xml := xml }) := fun c xml =>
    ⟨rfl, rfl, rfl, rfl⟩
  unfold startThinking
  dsimp only
  split_ifs
  · exact hstart c _
  · exact (textFrame_createTextDeltaEvents env _ c).trans (hstart _ _)

theorem textFrame_detectThinking (env : Environment σ) (c : Context σ) :
    TextFrame c (detectThinking env c) := by
  unfold detectThinking
  dsimp only
  split
  · exact (textFrame_startThinking env _ _ c).trans (textFrame_continueThinking env _)
  · split_ifs
    · exact TextFrame.refl c
    · exact ((textFrame_createTextDeltaEvents env _ c).trans (textFrame_with_xml _ _)).trans
        (textFrame_emitRemainingText env _)

theorem textFrame_processContentWithThinking (env : Environment σ) (content : List Char)
    (c : Context σ) : TextFrame c (processContentWithThinking env content c) := by
  unfold processContentWithThinking
  dsimp only
  split_ifs
  · exact (textFrame_with_xml _ c).trans (textFrame_continueThinking env _)
  · exact (textFrame_with_xml _ c).trans (textFrame_emitRemainingText env _)
  · exact (textFrame_with_xml _ c).trans (textFrame_detectThinking env _)

theorem textFrame_emitAssistantResponseContent (hclosed : c.native.segmentOpen = false)
    (content : List Char) : TextFrame c (emitAssistantResponseContent env content c) := by
  have hnative : closeNativeReasoningBlock env c = c := by
    rw [closeNativeReasoningBlock, hclosed]
    rfl
  unfold emitAssistantResponseContent
  rw [hnative, ite_self]
  dsimp only
  split_ifs
  · exact textFrame_processContentWithThinking env content c
  · exact textFrame_createTextDeltaEvents env content c

theorem NativeStep.textFrame {c c' : Context σ} (h : NativeStep c c') :
    c'.streamError = c.streamError ∧
      c'.upstreamContentFilterRefusal = c.upstreamContentFilterRefusal := by
  obtain ⟨_, _, _, rfl, -⟩ := h
  exact ⟨rfl, rfl⟩

/-- The reasoning has ended. -/
structure AfterReasoning (env : Environment σ) (marks : Marks) (c c' : Context σ) (s' : Slot) :
    Prop extends Inv env marks c' s' where
  ne_native : s' ≠ .native
  segment_closed : c'.native.segmentOpen = false
  buffer_seen : c'.native.seen = true → c'.xml.thinkingBuffer = []
  tools_eq : c'.tools = c.tools
  trivial_eq : c'.pendingTrivialText = c.pendingTrivialText
  streamError_eq : c'.streamError = c.streamError
  refusal_eq : c'.upstreamContentFilterRefusal = c.upstreamContentFilterRefusal
  unchanged : c'.native.seen = false → c' = c
  tool : s' = .tool → c'.path = c.path

theorem Core.path_closeNativeReasoningBlock (h : Core env marks c .tool) :
    (Context.closeNativeReasoningBlock env c).path = c.path := by
  obtain ⟨hout, hindex⟩ := endNativeSegment_of_settled (h.tool_quiet rfl).2.1
  have hnone : (endNativeSegment env c).native.blockIndex = none :=
    hindex.trans (h.native_index (by decide))
  have htext := (nativeStep_endNativeSegment env c).frame.2.2.2.2.2
  unfold Context.closeNativeReasoningBlock
  split_ifs
  · rw [stopNativeBlock, hnone]
    exact congrArg₂ TextPath.mk hout htext
  · rfl

variable {c₂ : Context σ} {s : Slot}

theorem Inv.endReasoning (h : Inv env marks c s) :
    ∃ s', AfterReasoning env marks c (endReasoning env c) s' := by
  unfold Context.endReasoning
  cases hseen : c.native.seen with
  | false =>
    rw [if_neg (by decide)]
    have hclosed := h.toCore.segment_closed hseen
    have hne : s ≠ .native := fun heq => absurd (h.native_open heq) (by rw [hclosed]; decide)
    exact ⟨s, h, hne, hclosed, fun hseen' => absurd (hseen.symm.trans hseen') (by decide), rfl, rfl,
      rfl, rfl, fun _ => rfl, fun _ => rfl⟩
  | true =>
    rw [if_pos rfl]
    have hs : s ≠ .xml := by
      rintro rfl
      exact absurd (h.xml_open rfl).2.1 (by rw [hseen]; decide)
    have hquiet : s.afterNative.IsQuiet := by
      cases s with
      | idle | native => exact .inl (.inl rfl)
      | text => exact .inl (.inr rfl)
      | xml => exact absurd rfl hs
      | tool => exact .inr rfl
    have hpath : s.afterNative = .tool →
        (Context.closeNativeReasoningBlock env c).path = c.path := by
      intro heq
      cases s with
      | tool => exact h.toCore.path_closeNativeReasoningBlock
      | idle | text | xml | native => cases heq
    obtain ⟨hcore, hclosed⟩ := h.toCore.closeNativeReasoningBlock
    obtain ⟨-, htools, htrivial, -, hseen', -⟩ := (nativeStep_closeNativeReasoningBlock env c).frame
    obtain ⟨herror, hrefusal⟩ := (nativeStep_closeNativeReasoningBlock env c).textFrame
    rw [hseen] at hseen'
    generalize Context.closeNativeReasoningBlock env c = c₁
      at hpath hcore hclosed htools htrivial hseen' herror hrefusal ⊢
    have hflags : Core env marks { c₁ with xml := { c₁.xml with
        thinkingBuffer := [], inThinkingBlock := false, thinkingExtracted := true } }
        s.afterNative :=
      hcore.with_xml hquiet.ne_xml (fun hin => by cases hin) fun _ => rfl
    exact ⟨s.afterNative, hflags.inv_of_seen hseen', hquiet.ne_native, hclosed, fun _ => rfl,
      htools, htrivial, herror, hrefusal,
      fun hunseen => absurd (hseen'.symm.trans hunseen) (by decide), hpath⟩

/-- The trivial text that was held has been sent. -/
structure AfterHeld (env : Environment σ) (marks : Marks) (c c' : Context σ) (s' : Slot) :
    Prop extends Inv env marks c' s' where
  ne_native : s' ≠ .native
  segment_closed : c'.native.segmentOpen = false
  buffer_seen : c'.native.seen = true → c'.xml.thinkingBuffer = []
  tools_eq : c'.tools = c.tools
  streamError_eq : c'.streamError = c.streamError
  refusal_eq : c'.upstreamContentFilterRefusal = c.upstreamContentFilterRefusal
  tool : s' = .tool → c'.path = c.path
  thinking : s' = .xml → c.pendingTrivialText ≠ [] ∨ c.isXmlThinkingOpen = true
  empty_thinking : s' = .xml → c'.xml.thinkingBuffer = [] → c'.path = c.path ∧
    c.isXmlThinkingOpen = true ∧
    (extendBuffer c.pendingTrivialText c).stripLeadingNewline.xml.thinkingBuffer = []

theorem stripLeadingNewline_of_empty (h : c.xml.thinkingBuffer = []) :
    c.stripLeadingNewline.xml.thinkingBuffer = [] := by
  unfold stripLeadingNewline
  split_ifs
  · rw [h]
    exact h
  · exact h

theorem Core.slot_eq_xml (h : Core env marks c s) (hs : s ≠ .native) {j : ℕ}
    (hserial : c.out.Serial marks (some (j, .thinking))) : s = .xml := by
  have hopen := (hserial.isOpen_iff j .thinking).mpr rfl
  cases s with
  | idle =>
    have hidle : c.out.Serial marks none := h.holds
    cases (hidle.isOpen_iff j .thinking).mp hopen
  | text =>
    obtain ⟨i, htext, -⟩ := h.holds
    cases (htext.isOpen_iff j .thinking).mp hopen
  | xml => rfl
  | native => exact absurd rfl hs
  | tool =>
    obtain ⟨i, htool⟩ := h.holds
    cases (htool.isOpen_iff j .thinking).mp hopen

theorem xml_emitAssistantResponseContent (hseen : c.native.seen = true)
    (hclosed : c.native.segmentOpen = false) (content : List Char) :
    (emitAssistantResponseContent env content c).xml = c.xml := by
  have hnative : closeNativeReasoningBlock env c = c := by
    rw [closeNativeReasoningBlock, hclosed]
    rfl
  unfold emitAssistantResponseContent
  rw [hnative, ite_self]
  dsimp only
  rw [hseen, Bool.not_true, Bool.and_false, if_neg (by decide)]
  exact (textStep_createTextDeltaEvents env content c).frame.1

theorem stripLeadingNewline_with_trivial (content pending : List Char) :
    (extendBuffer content c).stripLeadingNewline.xml.thinkingBuffer =
      (extendBuffer content
        { c with pendingTrivialText := pending }).stripLeadingNewline.xml.thinkingBuffer := by
  unfold stripLeadingNewline extendBuffer
  dsimp only
  split_ifs
  · split
    · rfl
    · rfl
  · rfl

theorem AfterReasoning.flushPendingTrivialText {c₁ : Context σ} {s₁ : Slot}
    (h : AfterReasoning env marks c c₁ s₁)
    (htrivial : c.pendingTrivialText ≠ [] → AwaitsTag env c →
      env.findRealThinkingStartTagWithVariant (c.xml.thinkingBuffer ++ c.pendingTrivialText) =
        none) : ∃ s₂, AfterHeld env marks c (flushPendingTrivialText env c₁) s₂ := by
  unfold Context.flushPendingTrivialText
  by_cases hpending : c₁.pendingTrivialText = []
  · rw [if_pos hpending]
    have hsame : s₁ = .xml → c₁ = c := by
      rintro rfl
      exact h.unchanged (h.xml_open rfl).2.1
    have hopen : s₁ = .xml → c₁.isXmlThinkingOpen = true := by
      rintro rfl
      exact (h.toCore.isXmlThinkingOpen (.inr rfl)).mpr rfl
    refine ⟨s₁, h.toInv, h.ne_native, h.segment_closed, h.buffer_seen, h.tools_eq,
      h.streamError_eq, h.refusal_eq, h.tool, fun heq => .inr ?_, fun heq hbuffer => ?_⟩
    · rw [← hsame heq]
      exact hopen heq
    · have hopen' := hopen heq
      rw [hsame heq] at hbuffer hpending hopen' ⊢
      refine ⟨rfl, hopen', stripLeadingNewline_of_empty ?_⟩
      rw [extendBuffer, hpending, List.append_nil]
      exact hbuffer
  · rw [if_neg hpending]
    have hne : s₁ ≠ .tool := by
      rintro rfl
      exact hpending (h.tool_quiet rfl).2.2.2
    have hheld : c.pendingTrivialText ≠ [] := by rwa [← h.trivial_eq]
    have hawaits : AwaitsTag env c₁ → env.findRealThinkingStartTagWithVariant
        (c₁.xml.thinkingBuffer ++ c₁.pendingTrivialText) = none := by
      intro hawaits
      have hsame := h.unchanged hawaits.2.1
      rw [hsame] at hawaits ⊢
      exact htrivial hheld hawaits
    obtain ⟨s₂, hafter⟩ := (h.toInv.with_trivialText hne []).emitAssistantResponseContent hne
      c₁.pendingTrivialText fun hxml hseen hin hext start tag hfind => by
        have hnone := hawaits ⟨hxml, hseen, hin, hext⟩
        exact absurd (hfind.symm.trans hnone) (Option.some_ne_none _)
    have hframe : TextFrame { c₁ with pendingTrivialText := [] } (emitAssistantResponseContent env
        c₁.pendingTrivialText { c₁ with pendingTrivialText := [] }) := by
      refine textFrame_emitAssistantResponseContent ?_ _
      exact h.segment_closed
    have hxml : c₁.native.seen = true → (emitAssistantResponseContent env c₁.pendingTrivialText
        { c₁ with pendingTrivialText := [] }).xml = c₁.xml := by
      intro hseen
      refine xml_emitAssistantResponseContent ?_ ?_ _
      · exact hseen
      · exact h.segment_closed
    generalize Context.emitAssistantResponseContent env _ _ = c₂ at hafter hframe hxml ⊢
    have hunseen : s₂ = .xml → c₁.native.seen = false := by
      rintro rfl
      have hseen := (hafter.xml_open rfl).2.1
      rwa [hframe.native] at hseen
    refine ⟨s₂, hafter.toInv, hafter.ne_native, ?_, ?_, hframe.tools.trans h.tools_eq,
      hframe.streamError.trans h.streamError_eq, hframe.refusal.trans h.refusal_eq,
      fun heq => absurd heq hafter.ne_tool, fun _ => .inl hheld, fun heq hbuffer => ?_⟩
    · rw [hframe.native]
      exact h.segment_closed
    · intro hseen
      rw [hframe.native] at hseen
      rw [hxml hseen]
      exact h.buffer_seen hseen
    · have hsame := h.unchanged (hunseen heq)
      have hthinking := hafter.thinking heq
      cases hin : c₁.xml.inThinkingBlock with
      | false =>
        rw [hin, if_neg (by decide)] at hthinking
        subst heq
        exact absurd (hawaits ⟨(hafter.xml_open rfl).1, hunseen rfl, hin, hthinking.1⟩) hthinking.2
      | true =>
        rw [hin, if_pos rfl] at hthinking
        have hstripped : (extendBuffer c₁.pendingTrivialText
            { c₁ with pendingTrivialText := [] }).stripLeadingNewline.xml.thinkingBuffer = [] := by
          by_contra hne
          exact hthinking.1 hne hbuffer
        have hpath := hthinking.2 hstripped
        subst heq
        obtain ⟨j, hserial, -⟩ := hafter.holds
        rw [show c₂.out = c₁.out from congrArg TextPath.out hpath] at hserial
        obtain rfl := h.toCore.slot_eq_xml h.ne_native hserial
        have hopen := (h.toCore.isXmlThinkingOpen (.inr rfl)).mpr rfl
        rw [hsame] at hpath hopen hstripped
        refine ⟨hpath, hopen, ?_⟩
        rw [← hstripped]
        exact stripLeadingNewline_with_trivial _ _

/-- The parts of the calls that the end of a call leaves alone. -/
structure CallsFrame (tools tools' : ToolCalls) : Prop where
  indices : tools'.toolBlockIndices = tools.toolBlockIndices
  pendingStarts : tools'.pendingToolStarts = tools.pendingToolStarts
  gate : tools'.responseToolGate = tools.responseToolGate
  buffers : tools.toolInputBuffers = [] → tools'.toolInputBuffers = []

theorem CallsFrame.trans {tools₁ tools₂ tools₃ : ToolCalls} (h : CallsFrame tools₁ tools₂)
    (h' : CallsFrame tools₂ tools₃) : CallsFrame tools₁ tools₃ :=
  ⟨h'.indices.trans h.indices, h'.pendingStarts.trans h.pendingStarts, h'.gate.trans h.gate,
    fun hempty => h'.buffers (h.buffers hempty)⟩

theorem callsFrame_completeToolUse (env : Environment σ) (index : ℕ)
    (resolved : ToolNameRestore.ResolvedToolName) (fullInput : List Char) (c : Context σ) :
    CallsFrame c.tools (completeToolUse env index resolved fullInput c).tools ∧
      (completeToolUse env index resolved fullInput c).tools.pendingCodeExecutions =
        c.tools.pendingCodeExecutions ∧
      (completeToolUse env index resolved fullInput c).manager = (c.out.stop index).manager := by
  unfold completeToolUse
  dsimp only
  split_ifs
  · exact ⟨⟨rfl, rfl, rfl, fun h => h⟩, rfl, rfl⟩
  · exact ⟨⟨rfl, rfl, rfl, fun h => h⟩, rfl, rfl⟩

/-- What the end of an unfinished call leaves. -/
structure AfterFlush (env : Environment σ) (marks : Marks) (c c' : Context σ) (s s' : Slot) :
    Prop extends Inv env marks c' s' where
  slot : s' = s ∨ s = .tool ∧ s' = .idle
  step : ToolStep c c'
  calls : CallsFrame c.tools c'.tools
  executions : c'.tools.pendingCodeExecutions = c.tools.pendingCodeExecutions
  nonThinking : c.manager.hasNonThinkingBlocks = true → c'.manager.hasNonThinkingBlocks = true

theorem Inv.of_toolStep {c' : Context σ} {s s' : Slot} (h : Inv env marks c s)
    (hstep : ToolStep c c') (hcore : Core env marks c' s') : Inv env marks c' s' := by
  obtain ⟨-, hxml, hnative, hsanitizer, -⟩ := hstep.frame
  refine { hcore with undecided := ?_, buffer_empty := ?_ }
  · rw [Undecided, hxml, hnative, hsanitizer]
    exact h.undecided
  · rw [hxml, hnative]
    exact h.buffer_empty

theorem flushIncompleteToolInput_eq (env : Environment σ) (c : Context σ)
    (entry : String × List Char) : ∃ resolved fullInput, flushIncompleteToolInput env c entry =
      match KeyedList.get entry.1 c.tools.toolBlockIndices with
      | none => { c with tools := { c.tools with
          toolInputNames := eraseKey entry.1 c.tools.toolInputNames } }
      | some index => completeToolUse env index resolved fullInput { c with tools := { c.tools with
          toolInputNames := eraseKey entry.1 c.tools.toolInputNames } } :=
  ⟨_, _, rfl⟩

theorem Inv.flushIncompleteToolInput (h : Inv env marks c s) (entry : String × List Char) : ∃ s',
      AfterFlush env marks c (flushIncompleteToolInput env c entry) s s' ∧
        (s' = .tool → ∀ i,
          KeyedList.get entry.1 c.tools.toolBlockIndices = some i →
            c.manager.isBlockOpenOfType i .toolUse = false) ∧
        (s' = .tool → ∀ i, c.manager.isBlockOpenOfType i .toolUse = true →
          (Context.flushIncompleteToolInput env c entry).manager.isBlockOpenOfType i .toolUse =
            true) := by
  have hnames : Inv env marks { c with tools := { c.tools with
      toolInputNames := eraseKey entry.1 c.tools.toolInputNames } } s :=
    h.with_tools { h.pending_starts with } h.tool_marks
  obtain ⟨resolved, fullInput, heq⟩ := flushIncompleteToolInput_eq env c entry
  rw [heq]
  cases hget : KeyedList.get entry.1 c.tools.toolBlockIndices with
  | none =>
    exact ⟨s, ⟨hnames, .inl rfl, ⟨_, _, rfl⟩, ⟨rfl, rfl, rfl, fun hempty => hempty⟩, rfl,
      fun hnon => hnon⟩, fun _ i hi => absurd hi.symm (Option.some_ne_none i), fun _ i hi => hi⟩
  | some index =>
    dsimp only
    obtain ⟨s', hs', hclosed, hcore⟩ := hnames.toCore.completeToolUse
      (h.tool_marks entry.1 index hget) resolved fullInput
    obtain ⟨hcalls, hexecutions, hmanager⟩ := callsFrame_completeToolUse env index
      resolved fullInput { c with tools := { c.tools with
        toolInputNames := eraseKey entry.1 c.tools.toolInputNames } }
    have hstep := toolStep_completeToolUse env index resolved fullInput
      { c with tools := { c.tools with
        toolInputNames := eraseKey entry.1 c.tools.toolInputNames } }
    have hshut : s' = .tool → c.manager.isBlockOpenOfType index .toolUse = false := by
      intro heq
      rw [Bool.eq_false_iff]
      exact fun hopen => hclosed hopen heq
    refine ⟨s', ⟨hnames.of_toolStep hstep hcore, hs', ?_, ⟨hcalls.indices, hcalls.pendingStarts,
      hcalls.gate, hcalls.buffers⟩, hexecutions, fun hnon => ?_⟩, fun heq i hi => ?_,
      fun heq i hi => ?_⟩
    · obtain ⟨_, _, heq⟩ := hstep
      exact ⟨_, _, heq⟩
    · rw [hmanager]
      exact (SseStateManager.hasNonThinkingBlocks_handleContentBlockStop _ _).trans hnon
    · cases hi
      exact hshut heq
    · have hne : i ≠ index := by
        rintro rfl
        exact absurd (hi.symm.trans (hshut heq)) (by decide)
      rw [hmanager]
      exact (SseStateManager.isBlockOpenOfType_handleContentBlockStop hne _).trans hi

theorem AfterFlush.refl (h : Inv env marks c s) : AfterFlush env marks c c s s :=
  ⟨h, .inl rfl, ⟨_, _, rfl⟩, ⟨rfl, rfl, rfl, fun hempty => hempty⟩, rfl, fun hnon => hnon⟩

theorem AfterFlush.trans {c₁ c₂ : Context σ} {s s₁ s₂ : Slot}
    (h : AfterFlush env marks c c₁ s s₁) (h' : AfterFlush env marks c₁ c₂ s₁ s₂) :
    AfterFlush env marks c c₂ s s₂ := by
  obtain ⟨_, _, rfl⟩ := h.step
  obtain ⟨_, _, rfl⟩ := h'.step
  refine ⟨h'.toInv, ?_, ⟨_, _, rfl⟩, h.calls.trans h'.calls, h'.executions.trans h.executions,
    fun hnon => h'.nonThinking (h.nonThinking hnon)⟩
  rcases h.slot with rfl | ⟨rfl, rfl⟩
  · exact h'.slot
  · rcases h'.slot with rfl | ⟨hidle, -⟩
    · exact .inr ⟨rfl, rfl⟩
    · cases hidle

theorem Inv.foldl_flushIncompleteToolInput (entries : List (String × List Char))
    (h : Inv env marks c s) : ∃ s', AfterFlush env marks c
        (entries.foldl (Context.flushIncompleteToolInput env) c) s s' ∧
      (s' = .tool → ∀ entry ∈ entries, ∀ i,
        KeyedList.get entry.1 c.tools.toolBlockIndices = some i →
          c.manager.isBlockOpenOfType i .toolUse = false) := by
  induction entries generalizing c s with
  | nil => exact ⟨s, AfterFlush.refl h, fun _ entry hentry => by cases hentry⟩
  | cons entry entries ih =>
    obtain ⟨s₁, hflush, hshut, hopen⟩ := h.flushIncompleteToolInput entry
    obtain ⟨s', hrest, hshut'⟩ := ih hflush.toInv
    refine ⟨s', hflush.trans hrest, fun heq entry' hentry i hi => ?_⟩
    have hs₁ : s₁ = .tool := by
      rcases hrest.slot with rfl | ⟨-, hidle⟩
      · exact heq
      · rw [heq] at hidle
        cases hidle
    rcases List.mem_cons.mp hentry with rfl | hentry
    · exact hshut hs₁ i hi
    · rw [Bool.eq_false_iff]
      intro hopen'
      have hstill := hopen hs₁ i hopen'
      rw [hshut' heq entry' hentry i (by rw [hflush.calls.indices]; exact hi)] at hstill
      cases hstill

theorem Inv.flushIncompleteToolInputBuffers (h : Inv env marks c s) : ∃ s',
    AfterFlush env marks c (flushIncompleteToolInputBuffers env c) s s' ∧
      (Context.flushIncompleteToolInputBuffers env c).tools.toolInputBuffers = [] ∧
      (s' = .tool → ∀ entry ∈ c.tools.toolInputBuffers, ∀ i,
        KeyedList.get entry.1 c.tools.toolBlockIndices = some i →
          c.manager.isBlockOpenOfType i .toolUse = false) := by
  unfold Context.flushIncompleteToolInputBuffers
  split_ifs with hempty
  · refine ⟨s, AfterFlush.refl h, hempty, fun _ entry hentry => ?_⟩
    rw [hempty] at hentry
    cases hentry
  · have hcleared : Inv env marks { c with tools := { c.tools with
        toolInputBuffers := [], toolInputScanners := [] } } s :=
      h.with_tools { h.pending_starts with } h.tool_marks
    have hclear : AfterFlush env marks c { c with tools := { c.tools with
        toolInputBuffers := [], toolInputScanners := [] } } s s :=
      ⟨hcleared, .inl rfl, ⟨_, _, rfl⟩, ⟨rfl, rfl, rfl, fun _ => rfl⟩, rfl, fun hnon => hnon⟩
    obtain ⟨s', hflush, hshut⟩ :=
      hcleared.foldl_flushIncompleteToolInput c.tools.toolInputBuffers
    exact ⟨s', hclear.trans hflush, hflush.calls.buffers rfl, hshut⟩

theorem callsFrame_finishToolUse (env : Environment σ) (id : String) (index : ℕ)
    (resolved : ToolNameRestore.ResolvedToolName) (input : List Char) (c : Context σ) :
    CallsFrame c.tools (finishToolUse env id index resolved input c).tools := by
  have hcomplete := fun fullInput tools =>
    (callsFrame_completeToolUse env index resolved fullInput { c with tools := tools }).1
  have htaken : CallsFrame c.tools { c.tools with
      toolInputBuffers := eraseKey id c.tools.toolInputBuffers
      toolInputNames := eraseKey id c.tools.toolInputNames
      toolInputScanners := eraseKey id c.tools.toolInputScanners } := by
    refine ⟨rfl, rfl, rfl, fun hempty => ?_⟩
    dsimp only
    rw [hempty]
    rfl
  unfold finishToolUse takeToolInput
  dsimp only
  split
  · exact htaken.trans (hcomplete _ _)
  · exact htaken.trans (hcomplete _ _)
  · exact ⟨rfl, rfl, rfl, htaken.buffers⟩

theorem callsFrame_forwardToolInput (env : Environment σ) (id : String) (index : ℕ)
    (resolved : ToolNameRestore.ResolvedToolName) (input : List Char) (c : Context σ) :
    CallsFrame c.tools (forwardToolInput env id index resolved input c).tools := by
  unfold forwardToolInput
  dsimp only
  split_ifs
  · exact ⟨rfl, rfl, rfl, fun h => h⟩
  · exact ⟨rfl, rfl, rfl, fun h => h⟩
  · exact ⟨rfl, rfl, rfl, fun h => h⟩

/-- A call without input is started and stopped at once. -/
theorem Prepared.emitEmptyToolUse (h : Prepared env marks c s) (hs : s.IsText) {id : String}
    (hnone : KeyedList.get id c.tools.toolBlockIndices = none)
    (hbuffers : c.tools.toolInputBuffers = []) (toolUse : ToolUse) (hinput : toolUse.input = [])
    (hstop : toolUse.stop = true) : ∃ marks' s', s'.IsText ∧
      Prepared env marks' (Context.emitToolUse env id toolUse c) s' := by
  cases hcode : isCodeExecution env toolUse.name with
  | true =>
    obtain ⟨marks', hprepared⟩ := h.emitCodeExecution id hcode
    exact ⟨marks', s, hs, hprepared⟩
  | false =>
    have hemit : CanEmit marks id c s := by
      unfold CanEmit
      rw [hnone]
      exact hs
    obtain ⟨marks', s₁, hstart, hindex, hopen⟩ := h.startToolUse toolUse hemit
    have hempty : (Context.startToolUse env id toolUse c).tools.toolInputBuffers = [] := by
      unfold Context.startToolUse bufferToolInput toolBlockIndex
      dsimp only
      rw [hinput, if_pos rfl]
      split
      · exact hbuffers
      · exact hbuffers
    rw [emitToolUse_eq hcode]
    dsimp only
    rw [hstop, if_pos rfl]
    obtain ⟨hforward, hmanager⟩ := hstart.forwardToolInput id
      (toolBlockIndex id (dropPendingStart id c)).1 (resolveToolName env toolUse.name) toolUse.input
    have hempty' := (callsFrame_forwardToolInput env id
      (toolBlockIndex id (dropPendingStart id c)).1 (resolveToolName env toolUse.name) toolUse.input
      (Context.startToolUse env id toolUse c)).buffers hempty
    obtain ⟨s', -, hfinish, hclosed⟩ := hforward.finishToolUse id hindex
      (resolveToolName env toolUse.name) toolUse.input
    refine ⟨marks', s', hfinish.slot.resolve_right (hclosed ?_ ?_), hfinish⟩
    · rw [hempty', hinput]
      exact classifyToolInputJson_nil _
    · rw [hmanager]
      exact hopen hnone

theorem callsFrame_emitToolUse (env : Environment σ) (id : String) (toolUse : ToolUse)
    (hinput : toolUse.input = []) (hstop : toolUse.stop = true) (c : Context σ) :
    (∀ id', id' ≠ id → KeyedList.get id' (emitToolUse env id toolUse c).tools.toolBlockIndices =
        KeyedList.get id' c.tools.toolBlockIndices) ∧
      (emitToolUse env id toolUse c).tools.responseToolGate = c.tools.responseToolGate ∧
      (c.tools.toolInputBuffers = [] →
        (emitToolUse env id toolUse c).tools.toolInputBuffers = []) := by
  have hindex : ∀ id', id' ≠ id →
      KeyedList.get id' (toolBlockIndex id (dropPendingStart id c)).2.tools.toolBlockIndices =
        KeyedList.get id' c.tools.toolBlockIndices := by
    intro id' hne
    unfold toolBlockIndex dropPendingStart
    dsimp only
    split
    · rfl
    · exact KeyedList.get_insert_of_ne hne _ _
  have hframe : (toolBlockIndex id (dropPendingStart id c)).2.tools.responseToolGate =
      c.tools.responseToolGate ∧
      (toolBlockIndex id (dropPendingStart id c)).2.tools.toolInputBuffers =
        c.tools.toolInputBuffers := by
    unfold toolBlockIndex dropPendingStart
    dsimp only
    split
    · exact ⟨rfl, rfl⟩
    · exact ⟨rfl, rfl⟩
  cases hcode : isCodeExecution env toolUse.name with
  | true =>
    have heq : emitToolUse env id toolUse c = processCodeExecution env id
        (resolveToolName env toolUse.name).upstream toolUse
        (toolBlockIndex id (dropPendingStart id c)).2 := by
      unfold emitToolUse
      dsimp only
      rw [hcode]
      rfl
    rw [heq]
    unfold processCodeExecution bufferToolInput takeToolInput
    dsimp only
    rw [hstop, if_pos rfl, hinput, if_pos rfl]
    refine ⟨hindex, hframe.1, fun hempty => ?_⟩
    dsimp only
    rw [hframe.2, hempty]
    rfl
  | false =>
    have hstart : CallsFrame (toolBlockIndex id (dropPendingStart id c)).2.tools
        (startToolUse env id toolUse c).tools := by
      refine ⟨rfl, rfl, rfl, fun hempty => ?_⟩
      unfold startToolUse bufferToolInput
      dsimp only
      rw [hinput, if_pos rfl]
      exact hempty
    rw [emitToolUse_eq hcode]
    dsimp only
    rw [hstop, if_pos rfl]
    have hcalls := (hstart.trans (callsFrame_forwardToolInput env id
      (toolBlockIndex id (dropPendingStart id c)).1 (resolveToolName env toolUse.name)
      toolUse.input _)).trans (callsFrame_finishToolUse env id
        (toolBlockIndex id (dropPendingStart id c)).1 (resolveToolName env toolUse.name)
        toolUse.input _)
    refine ⟨fun id' hne => ?_, hcalls.gate.trans hframe.1, fun hempty => ?_⟩
    · rw [hcalls.indices]
      exact hindex id' hne
    · exact hcalls.buffers (hframe.2.trans hempty)

theorem Inv.flushPendingToolStart (h : Inv env marks c s) (hs : s ≠ .tool) {id : String}
    (hpublic : env.publicToolUseId id = id)
    (hunstarted : KeyedList.get id c.tools.toolBlockIndices = none)
    (hadmitted : KeyedList.get id c.tools.responseToolGate.decisions = some true)
    (hbuffers : c.tools.toolInputBuffers = []) : ∃ marks' s', s'.IsText ∧
      Prepared env marks' (flushPendingToolStart env c id) s' ∧
      (∀ id', id' ≠ id → KeyedList.get id'
          (Context.flushPendingToolStart env c id).tools.toolBlockIndices =
        KeyedList.get id' c.tools.toolBlockIndices) ∧
      (Context.flushPendingToolStart env c id).tools.responseToolGate =
        c.tools.responseToolGate ∧
      (Context.flushPendingToolStart env c id).tools.toolInputBuffers = [] := by
  unfold Context.flushPendingToolStart Context.processToolUse
  dsimp only
  generalize (KeyedList.get id c.tools.toolInputNames).getD "" = name
  rw [hpublic, admitCall_of_decided hadmitted, if_pos rfl]
  obtain ⟨s₁, hs₁, hprepared, htools⟩ := h.prepareToolUse
  have hindices : (Context.prepareToolUse env c).tools.toolBlockIndices =
      c.tools.toolBlockIndices := by rw [htools]
  have hgate : (Context.prepareToolUse env c).tools.responseToolGate =
      c.tools.responseToolGate := by rw [htools]
  have hempty : (Context.prepareToolUse env c).tools.toolInputBuffers = [] := by
    rw [htools, hbuffers]
  generalize Context.prepareToolUse env c = c₁ at hprepared hindices hgate hempty ⊢
  have hready : isDeferred id ⟨name, id, [], true⟩ c₁ = false := by
    unfold isDeferred
    rw [Bool.not_true, Bool.and_false]
  rw [hready, if_neg (by decide)]
  obtain ⟨marks', s', hs', hemit⟩ := hprepared.emitEmptyToolUse (hs₁ hs)
    (by rw [hindices]; exact hunstarted) hempty ⟨name, id, [], true⟩ rfl rfl
  obtain ⟨hothers, hgate', hbuffers'⟩ :=
    callsFrame_emitToolUse env id ⟨name, id, [], true⟩ rfl rfl c₁
  refine ⟨marks', s', hs', hemit, fun id' hne => ?_, hgate'.trans hgate, hbuffers' hempty⟩
  rw [hothers id' hne, hindices]

theorem Inv.foldl_flushPendingToolStart (id : String) (ids : List String) (h : Inv env marks c s)
    (hs : s ≠ .tool) (hpending : PendingStarts env { c.tools with pendingToolStarts := id :: ids })
    (hbuffers : c.tools.toolInputBuffers = []) : ∃ marks' s', s'.IsText ∧
      Prepared env marks' ((id :: ids).foldl (Context.flushPendingToolStart env) c) s' := by
  induction ids generalizing id c s marks with
  | nil =>
    obtain ⟨marks', s', hs', hprepared, -⟩ := h.flushPendingToolStart hs
      (hpending.isPublic id List.mem_cons_self) (hpending.unstarted id List.mem_cons_self)
      (hpending.admitted id List.mem_cons_self) hbuffers
    exact ⟨marks', s', hs', hprepared⟩
  | cons id' ids ih =>
    obtain ⟨marks₁, s₁, hs₁, hprepared, hothers, hgate, hempty⟩ := h.flushPendingToolStart hs
      (hpending.isPublic id List.mem_cons_self) (hpending.unstarted id List.mem_cons_self)
      (hpending.admitted id List.mem_cons_self) hbuffers
    obtain ⟨hnotin, hnodup⟩ := List.nodup_cons.mp hpending.nodup
    rw [List.foldl_cons]
    generalize Context.flushPendingToolStart env c id = c₁ at hprepared hothers hgate hempty ⊢
    refine ih id' hprepared.inv hs₁.ne_tool ⟨hnodup, ?_, ?_, ?_⟩ hempty
    · exact fun id'' hid => hpending.isPublic id'' (List.mem_cons_of_mem id hid)
    · intro id'' hid
      have hne : id'' ≠ id := by
        rintro rfl
        exact hnotin hid
      exact (hothers id'' hne).trans (hpending.unstarted id'' (List.mem_cons_of_mem id hid))
    · intro id'' hid
      dsimp only
      rw [hgate]
      exact hpending.admitted id'' (List.mem_cons_of_mem id hid)

theorem frame_completeCodeExecutions (env : Environment σ) (execute : List Char → ExecutionResult)
    (c : Context σ) : (completeCodeExecutions env execute c).native = c.native ∧
      (completeCodeExecutions env execute c).xml = c.xml := by
  have hfold : ∀ (inputs : List (List Char)) (c : Context σ),
      (inputs.foldl (fun c input => emitCodeExecutionResult env input (execute input) c) c).native =
        c.native ∧
      (inputs.foldl (fun c input => emitCodeExecutionResult env input (execute input) c) c).xml =
        c.xml := by
    intro inputs
    induction inputs with
    | nil => exact fun c => ⟨rfl, rfl⟩
    | cons input inputs ih =>
      exact fun c => ih (emitCodeExecutionResult env input (execute input) c)
  exact hfold _ _

/-- The unfinished tool calls are sent at the end of the stream. -/
def FlushesTools (c : Context σ) : Prop :=
  c.streamError = none ∧ c.upstreamContentFilterRefusal = none

def StaysOpen (c : Context σ) (i : ℕ) : Prop :=
  c.manager.isBlockOpenOfType i .toolUse = true ∧
    (FlushesTools c → ∀ entry ∈ c.tools.toolInputBuffers,
      KeyedList.get entry.1 c.tools.toolBlockIndices ≠ some i)

/-- No literal tool call, nor text that may begin one, is held. -/
def NothingHeld (c : Context σ) : Prop :=
  c.text.invokeSniffBuffer = [] ∧ c.text.pendingLeakedTools = []

/-- The end of the stream is in order: nothing is sent after a block that stays open, and the
trivial text that is held does not begin with thinking. -/
structure FinalSerial (env : Environment σ) (c : Context σ) : Prop where
  trivial_text : c.pendingTrivialText ≠ [] → AwaitsTag env c →
    env.findRealThinkingStartTagWithVariant (c.xml.thinkingBuffer ++ c.pendingTrivialText) = none
  open_tool : ∀ i, StaysOpen c i → NothingHeld c ∧
    (FlushesTools c → c.tools.pendingToolStarts = [] ∧ c.tools.pendingCodeExecutions = [])
  open_thinking : c.isXmlThinkingOpen = true →
    (extendBuffer c.pendingTrivialText c).stripLeadingNewline.xml.thinkingBuffer = [] →
    FlushesTools c ∧ c.tools.pendingToolStarts ≠ [] ∨
      NothingHeld c ∧ (c.streamError ≠ none ∨ c.manager.hasNonThinkingBlocks = true)
  code_executions : FlushesTools c → c.tools.pendingCodeExecutions ≠ [] →
    c.tools.pendingToolStarts ≠ [] ∨ c.isXmlThinkingOpen = false ∧ c.pendingTrivialText = []

structure AfterCalls (env : Environment σ) (marks : Marks) (c : Context σ) (s : Slot) :
    Prop extends Inv env marks c s where
  ne_native : s ≠ .native
  segment_closed : c.native.segmentOpen = false
  buffer_seen : c.native.seen = true → c.xml.thinkingBuffer = []
  tool : s = .tool → NothingHeld c
  thinking : s = .xml → c.xml.thinkingBuffer = [] →
    NothingHeld c ∧ (c.streamError ≠ none ∨ c.manager.hasNonThinkingBlocks = true)

theorem NothingHeld.of_path {c' : Context σ} (h : NothingHeld c) (hpath : c'.text = c.text) :
    NothingHeld c' := by
  unfold NothingHeld
  rw [hpath]
  exact h

theorem AfterHeld.staysOpen {i : ℕ} (h : AfterHeld env marks c c₂ .tool)
    (hopen : c₂.manager.isBlockOpenOfType i .toolUse = true)
    (hentries : FlushesTools c → ∀ entry ∈ c₂.tools.toolInputBuffers,
      KeyedList.get entry.1 c₂.tools.toolBlockIndices ≠ some i) : StaysOpen c i := by
  rw [show c₂.manager = c.manager from congrArg (fun path => path.out.manager) (h.tool rfl)]
    at hopen
  rw [h.tools_eq] at hentries
  exact ⟨hopen, hentries⟩

/-- Without the flush of the tool calls only their records change. -/
theorem AfterHeld.afterCalls_of_not_flushes {s₂ : Slot} {tools : ToolCalls}
    (h : AfterHeld env marks c c₂ s₂) (hfinal : FinalSerial env c) (hflush : ¬ FlushesTools c)
    (hinv : Inv env marks { c₂ with tools := tools } s₂) :
    AfterCalls env marks { c₂ with tools := tools } s₂ := by
  refine ⟨hinv, h.ne_native, h.segment_closed, h.buffer_seen, ?_, ?_⟩
  · rintro rfl
    obtain ⟨i, hserial⟩ := h.holds
    have hstays := h.staysOpen ((hserial.isOpen_iff i .toolUse).mpr rfl)
      fun hflush' => absurd hflush' hflush
    exact (hfinal.open_tool i hstays).1.of_path (congrArg TextPath.text (h.tool rfl))
  · rintro rfl hbuffer
    obtain ⟨hpath, hopen, hstripped⟩ := h.empty_thinking rfl hbuffer
    rcases hfinal.open_thinking hopen hstripped with ⟨hflush', -⟩ | ⟨hheld, herror⟩
    · exact absurd hflush' hflush
    · refine ⟨hheld.of_path (congrArg TextPath.text hpath), ?_⟩
      rw [← h.streamError_eq, show c.manager = c₂.manager from
        congrArg (fun path => path.out.manager) hpath.symm] at herror
      exact herror

theorem PendingStarts.of_empty {tools : ToolCalls} (h : tools.pendingToolStarts = []) :
    PendingStarts env tools := by
  have hmem : ∀ {p : String → Prop}, ∀ id ∈ tools.pendingToolStarts, p id := by
    intro p id hid
    rw [h] at hid
    cases hid
  refine ⟨?_, hmem, hmem, hmem⟩
  rw [h]
  exact List.nodup_nil

theorem AfterFlush.startPending {c₂ c₃ : Context σ} {s₂ s₃ : Slot}
    (h : AfterFlush env marks c₂ c₃ s₂ s₃) (hs : s₃ ≠ .tool)
    (hbuffers : c₃.tools.toolInputBuffers = []) (hne : c₂.tools.pendingToolStarts ≠ [])
    (execute : List Char → ExecutionResult) : ∃ marks' s', AfterCalls env marks'
      (Context.completeCodeExecutions env execute (flushPendingToolStarts env c₃)) s' := by
  rw [← h.calls.pendingStarts] at hne
  unfold flushPendingToolStarts
  obtain ⟨id, ids, hids⟩ := List.exists_cons_of_ne_nil hne
  have hpending := h.pending_starts
  have hcleared : Inv env marks { c₃ with tools := { c₃.tools with pendingToolStarts := [] } } s₃ :=
    h.toInv.with_tools (PendingStarts.of_empty rfl) h.tool_marks
  rw [hids]
  obtain ⟨marks', s', hs', hprepared⟩ := hcleared.foldl_flushPendingToolStart id ids hs
    ⟨hids ▸ hpending.nodup, hids ▸ hpending.isPublic, hids ▸ hpending.unstarted,
      hids ▸ hpending.admitted⟩ hbuffers
  generalize List.foldl (flushPendingToolStart env) _ (id :: ids) = c₄ at hprepared ⊢
  obtain ⟨s₅, hs₅, hinv⟩ := hprepared.inv.completeCodeExecutions (fun _ => hs') execute
  have htext : s₅.IsText := by
    rcases hs₅ with rfl | htext
    · exact hs'
    · exact htext
  obtain ⟨hnative, hxml⟩ := frame_completeCodeExecutions env execute c₄
  refine ⟨marks', s₅, hinv, htext.ne_native, ?_, fun _ => ?_, fun heq => absurd heq htext.ne_tool,
    fun heq => absurd heq htext.ne_xml⟩
  · rw [hnative]
    exact hprepared.segment_closed
  · rw [hxml]
    exact hprepared.buffer_empty

theorem flushPendingToolStarts_of_empty (h : c.tools.pendingToolStarts = []) :
    flushPendingToolStarts env c = c := by
  unfold flushPendingToolStarts
  rw [h, List.foldl_nil, ← h]

theorem completeCodeExecutions_of_empty (h : c.tools.pendingCodeExecutions = [])
    (execute : List Char → ExecutionResult) : completeCodeExecutions env execute c = c := by
  unfold completeCodeExecutions
  rw [h, List.foldl_nil, ← h]

theorem AfterHeld.flushToolCalls {s₂ : Slot} (h : AfterHeld env marks c c₂ s₂)
    (hfinal : FinalSerial env c) :
    ∃ marks' s', AfterCalls env marks' (flushToolCalls env c₂) s' := by
  unfold Context.flushToolCalls
  by_cases herror : c₂.streamError.isSome = true
  · rw [if_pos herror]
    refine ⟨marks, s₂, h.afterCalls_of_not_flushes hfinal (fun hflush => ?_)
      (h.toInv.with_tools (PendingStarts.of_empty rfl) h.tool_marks)⟩
    rw [h.streamError_eq, hflush.1] at herror
    cases herror
  rw [if_neg herror]
  by_cases hrefusal : c₂.upstreamContentFilterRefusal.isSome = true
  · rw [if_pos hrefusal]
    refine ⟨marks, s₂, h.afterCalls_of_not_flushes hfinal (fun hflush => ?_)
      (h.toInv.with_tools (PendingStarts.of_empty rfl) h.tool_marks)⟩
    rw [h.refusal_eq, hflush.2] at hrefusal
    cases hrefusal
  rw [if_neg hrefusal]
  rw [h.streamError_eq, Option.not_isSome_iff_eq_none] at herror
  rw [h.refusal_eq, Option.not_isSome_iff_eq_none] at hrefusal
  have hflush : FlushesTools c := ⟨herror, hrefusal⟩
  obtain ⟨s₃, hafter, hbuffers, hshut⟩ := h.toInv.flushIncompleteToolInputBuffers
  have hstays : s₃ = .tool → s₂ = .tool ∧ ∃ i, StaysOpen c i := by
    intro heq
    have hs₂ : s₂ = .tool := by
      rcases hafter.slot with rfl | ⟨hs₂, -⟩
      · exact heq
      · exact hs₂
    subst hs₂
    obtain ⟨i, hserial⟩ := h.holds
    have hopen := (hserial.isOpen_iff i .toolUse).mpr rfl
    refine ⟨rfl, i, h.staysOpen hopen fun _ entry hentry hget => ?_⟩
    rw [hshut heq entry hentry i hget] at hopen
    cases hopen
  generalize Context.flushIncompleteToolInputBuffers env c₂ = c₃ at hafter hbuffers ⊢
  by_cases hpending : c.tools.pendingToolStarts = []
  swap
  · refine hafter.startPending (fun heq => ?_) hbuffers (by rw [h.tools_eq]; exact hpending) _
    obtain ⟨-, i, hopen⟩ := hstays heq
    exact hpending ((hfinal.open_tool i hopen).2 hflush).1
  · have hempty : c₃.tools.pendingToolStarts = [] := by
      rw [hafter.calls.pendingStarts, h.tools_eq]
      exact hpending
    rw [flushPendingToolStarts_of_empty hempty]
    obtain ⟨htext, hxml, hnative, -, -⟩ := hafter.step.frame
    have hne : s₃ ≠ .native := by
      rcases hafter.slot with rfl | ⟨-, rfl⟩
      · exact h.ne_native
      · decide
    have hexecutions : c₃.tools.pendingCodeExecutions = c.tools.pendingCodeExecutions := by
      rw [hafter.executions, h.tools_eq]
    by_cases hcode : c.tools.pendingCodeExecutions = []
    · rw [completeCodeExecutions_of_empty (hexecutions.trans hcode)]
      refine ⟨marks, s₃, hafter.toInv, hne, by rw [hnative]; exact h.segment_closed,
        by rw [hnative, hxml]; exact h.buffer_seen, fun heq => ?_, fun heq hbuffer => ?_⟩
      · obtain ⟨rfl, i, hopen⟩ := hstays heq
        have hheld := (hfinal.open_tool i hopen).1.of_path (congrArg TextPath.text (h.tool rfl))
        exact hheld.of_path htext
      · have hs₂ : s₂ = .xml := by
          rcases hafter.slot with rfl | ⟨-, hidle⟩
          · exact heq
          · rw [heq] at hidle
            cases hidle
        rw [hxml] at hbuffer
        obtain ⟨hpath, hopen, hstripped⟩ := h.empty_thinking hs₂ hbuffer
        rcases hfinal.open_thinking hopen hstripped with ⟨-, hstarts⟩ | ⟨hheld, herror'⟩
        · exact absurd hpending hstarts
        · refine ⟨(hheld.of_path (congrArg TextPath.text hpath)).of_path htext, .inr ?_⟩
          refine hafter.nonThinking ?_
          rw [show c₂.manager = c.manager from
            congrArg (fun path => path.out.manager) hpath]
          exact herror'.resolve_left fun hne => hne herror
    · have hquiet : s₃.IsText := by
        obtain ⟨hclosed, htrivial⟩ :=
          (hfinal.code_executions hflush hcode).resolve_left fun hne => hne hpending
        cases s₃ with
        | idle => exact .inl rfl
        | text => exact .inr rfl
        | native => exact absurd rfl hne
        | xml =>
          have hs₂ : s₂ = .xml := by
            rcases hafter.slot with heq | ⟨-, hidle⟩
            · exact heq.symm
            · cases hidle
          rcases h.thinking hs₂ with hheld | hopen
          · exact absurd htrivial hheld
          · exact absurd (hopen.symm.trans hclosed) (by decide)
        | tool =>
          obtain ⟨-, i, hopen⟩ := hstays rfl
          exact absurd ((hfinal.open_tool i hopen).2 hflush).2 hcode
      obtain ⟨s₄, hs₄, hinv⟩ := hafter.toInv.completeCodeExecutions (fun _ => hquiet)
        fun _ => ⟨[], "code execution input was not received".toList, 1⟩
      have htext₄ : s₄.IsText := by
        rcases hs₄ with rfl | htext₄
        · exact hquiet
        · exact htext₄
      obtain ⟨hnative₄, hxml₄⟩ := frame_completeCodeExecutions env
        (fun _ => ⟨[], "code execution input was not received".toList, 1⟩) c₃
      refine ⟨marks, s₄, hinv, htext₄.ne_native, ?_, ?_, fun heq => absurd heq htext₄.ne_tool,
        fun heq => absurd heq htext₄.ne_xml⟩
      · rw [hnative₄, hnative]
        exact h.segment_closed
      · rw [hnative₄, hxml₄, hnative, hxml]
        exact h.buffer_seen

/-- The text in the thinking buffer is sent, unless the open block has to stay open. -/
theorem AfterCalls.flushThinkingBuffer (h : AfterCalls env marks c s) : ∃ s' : Slot,
    Core env marks (flushThinkingBuffer env c) s' ∧
      (env.sanitizer.Settled (Context.flushThinkingBuffer env c).toolTranscriptSanitizer ∨
        TextReady env (Context.flushThinkingBuffer env c) s') ∧
      (s'.IsText ∨ s' = s ∧ Context.flushThinkingBuffer env c = c ∧
        (s = .xml → c.xml.thinkingBuffer = [])) := by
  unfold Context.flushThinkingBuffer
  dsimp only
  split_ifs with hflush hin
  · simp only [Bool.and_eq_true, decide_eq_true_eq] at hflush
    obtain ⟨hxml, hbuffer⟩ := hflush
    have hunseen : c.native.seen = false := by
      rw [Bool.eq_false_iff]
      exact fun hseen => hbuffer (h.buffer_seen hseen)
    have hne : s ≠ .tool := by
      rintro rfl
      exact hbuffer (h.tool_quiet rfl).2.2.1
    have hready := h.toCore.xmlReady hxml hunseen hne hin
    split
    · next stop separator _ =>
      have hfinish := h.toCore.finishXmlThinking hready (c.xml.thinkingBuffer.take stop)
      obtain ⟨_, _, _, _, hframe⟩ := finishXmlThinking_eq env (c.xml.thinkingBuffer.take stop) c
      have hfields : (finishXmlThinking env (c.xml.thinkingBuffer.take stop) c).native = c.native ∧
          (finishXmlThinking env (c.xml.thinkingBuffer.take stop) c).xml.inThinkingBlock =
            false := by
        rw [hframe]
        exact ⟨rfl, rfl⟩
      generalize finishXmlThinking env (c.xml.thinkingBuffer.take stop) c = c₁ at hfinish hfields ⊢
      obtain ⟨s', hs', hcore⟩ := hfinish.createTextDeltaEvents
        ⟨.inl rfl, by rw [hfields.1]; exact h.segment_closed, fun _ _ => hfields.2⟩
        (trimStart (c.xml.thinkingBuffer.drop (stop + c.thinkingTag.closeTag.length)))
      obtain ⟨hxml₂, hnative₂, -, -⟩ := (textStep_createTextDeltaEvents env
        (trimStart (c.xml.thinkingBuffer.drop (stop + c.thinkingTag.closeTag.length))) c₁).frame
      refine ⟨s', hcore.with_buffer hs'.ne_tool [], .inr ⟨hs', ?_, fun _ _ => ?_⟩, .inl hs'⟩
      · exact (congrArg NativeReasoning.segmentOpen (hnative₂.trans hfields.1)).trans
          h.segment_closed
      · exact (congrArg XmlThinking.inThinkingBlock hxml₂).trans hfields.2
    · have hpush := h.toCore.pushXmlThinkingDelta hready c.xml.thinkingBuffer
      rw [if_neg hbuffer] at hpush
      have hclose := hpush.closeXmlThinkingBlock (.inr rfl)
      obtain ⟨_, _, _, _, hframe⟩ := (xmlStep_pushXmlThinkingDelta env c.xml.thinkingBuffer
        c).trans (xmlStep_closeXmlThinkingBlock env _)
      refine ⟨.idle, hclose.with_buffer (by decide) [], .inl ?_, .inl (.inl rfl)⟩
      rw [hframe]
      exact h.undecided ⟨hxml, hunseen, .inl hin⟩
  · simp only [Bool.and_eq_true, decide_eq_true_eq] at hflush
    obtain ⟨hxml, hbuffer⟩ := hflush
    have hunseen : c.native.seen = false := by
      rw [Bool.eq_false_iff]
      exact fun hseen => hbuffer (h.buffer_seen hseen)
    have hne : s ≠ .tool := by
      rintro rfl
      exact hbuffer (h.tool_quiet rfl).2.2.1
    rw [Bool.not_eq_true] at hin
    obtain ⟨s', hs', hcore⟩ := h.toCore.createTextDeltaEvents
      ⟨h.toCore.isText hunseen hne hin, h.segment_closed, fun _ _ => hin⟩ c.xml.thinkingBuffer
    obtain ⟨hxml₂, hnative₂, -, -⟩ :=
      (textStep_createTextDeltaEvents env c.xml.thinkingBuffer c).frame
    refine ⟨s', hcore.with_buffer hs'.ne_tool [], .inr ⟨hs', ?_, fun _ _ => ?_⟩, .inl hs'⟩
    · exact (congrArg NativeReasoning.segmentOpen hnative₂).trans h.segment_closed
    · exact (congrArg XmlThinking.inThinkingBlock hxml₂).trans hin
  · refine ⟨s, h.toCore, h.toInv.settled_or_textReady, .inr ⟨rfl, rfl, ?_⟩⟩
    rintro rfl
    simpa [(h.xml_open rfl).1] using hflush

def Ended (marks : Marks) (c : Context σ) : Prop :=
  c.path.Textual marks ∨ (∃ slot, c.out.Serial marks slot) ∧ NothingHeld c ∧
    (c.streamError = none → c.manager.hasNonThinkingBlocks = true)

theorem Core.serial (h : Core env marks c s) : ∃ slot, c.out.Serial marks slot := by
  cases s with
  | idle => exact ⟨none, h.holds⟩
  | text | xml | native =>
    obtain ⟨i, hserial, -⟩ := h.holds
    exact ⟨_, hserial⟩
  | tool =>
    obtain ⟨i, hserial⟩ := h.holds
    exact ⟨_, hserial⟩

theorem Ended.recordContamination (h : Ended marks c) :
    Ended marks (recordContamination env c) := by
  unfold Context.recordContamination
  split_ifs
  · rcases h with htext | ⟨hserial, hheld, hnon⟩
    · exact .inl htext
    · exact .inr ⟨hserial, hheld, fun herror => by cases herror⟩
  · exact h

theorem AfterCalls.ended (h : AfterCalls env marks c s) : Ended marks
    (Context.recordContamination env
      (Context.flushTextSegment env (Context.flushThinkingBuffer env c))) := by
  refine Ended.recordContamination ?_
  obtain ⟨s₁, hcore, hready, hslot⟩ := h.flushThinkingBuffer
  obtain ⟨s₂, hs₂, hflush⟩ := hcore.flushTextSegment hready
  rcases hslot with htext | ⟨rfl, hsame, hbuffer⟩
  · refine .inl (hflush.textual ?_)
    rcases hs₂ with rfl | ⟨-, htext₂⟩
    · exact htext
    · exact htext₂
  · rw [hsame] at hready hflush ⊢
    by_cases htext : s₁.IsText
    · refine .inl (hflush.textual ?_)
      rcases hs₂ with rfl | ⟨-, htext₂⟩
      · exact htext
      · exact htext₂
    · have hsettled := hready.resolve_right fun hr => htext hr.isText
      rw [flushTextSegment_of_settled hsettled]
      refine .inr ⟨h.toCore.serial, ?_⟩
      cases s₁ with
      | idle => exact absurd (.inl rfl) htext
      | text => exact absurd (.inr rfl) htext
      | native => exact absurd rfl h.ne_native
      | xml =>
        obtain ⟨hheld, hnon⟩ := h.thinking rfl (hbuffer rfl)
        exact ⟨hheld, fun herror => hnon.resolve_left fun hne => hne herror⟩
      | tool =>
        obtain ⟨i, hserial⟩ := h.holds
        exact ⟨h.tool rfl, fun _ => SseStateManager.hasNonThinkingBlocks_of_open
          ((hserial.isOpen_iff i .toolUse).mpr rfl) (by decide)⟩

theorem path_admitCall (env : Environment σ) (id name : String) (c : Context σ) :
    (admitCall env id name c).2.path = c.path := by
  obtain ⟨gate, heq, -⟩ := admitCall_spec env id name c
  rw [heq]

theorem serial_synthesized {o : Output} {slot : Option (ℕ × BlockType)}
    (h : o.Serial marks slot) {content : ContentBlock}
    (hslot : Output.slotBefore content slot = none) (input : List Char) :
    let o₁ := o.setHasToolUse.startNew content
    ((if input = [] then o₁ else o₁.delta o.manager.nextBlockIndex (.inputJsonDelta input)).stop
      o.manager.nextBlockIndex).Serial marks none := by
  have hstart : (o.setHasToolUse.startNew content).Serial marks
      (some (o.manager.nextBlockIndex, content.type)) := h.setHasToolUse.startNew hslot
  dsimp only
  split_ifs
  · exact hstart.stop_open
  · exact (hstart.delta _ _).stop_open

theorem textual_emitQueuedLeakedToolUse (h : c.path.Textual marks) (tool : LeakedTool) :
    (emitQueuedLeakedToolUse env c tool).path.Textual marks := by
  unfold emitQueuedLeakedToolUse
  by_cases hseen : tool.signature ∈ c.tools.seenToolSigs
  · rw [if_pos hseen]
    exact h
  rw [if_neg hseen]
  unfold emitSynthesizedToolUse
  dsimp only
  have hpath := path_admitCall env (env.randomToolUseId c.randomIds) tool.name { c with
    randomIds := c.randomIds + 1
    tools := { c.tools with seenToolSigs := tool.signature :: c.tools.seenToolSigs } }
  generalize admitCall env (env.randomToolUseId c.randomIds) tool.name _ = admitted at hpath ⊢
  rw [← show admitted.2.path = c.path from hpath] at h
  by_cases hadmitted : admitted.1 = true
  · rw [if_pos hadmitted]
    refine .inl ?_
    have hserial : ∃ slot, admitted.2.out.Serial marks slot ∧ Output.slotBefore (.toolUse
        (env.randomToolUseId c.randomIds).toList tool.name.toList "{}".toList) slot = none := by
      rcases h with hidle | ⟨i, htext, -⟩
      · exact ⟨none, hidle, rfl⟩
      · exact ⟨_, htext, rfl⟩
    obtain ⟨slot, hserial, hslot⟩ := hserial
    exact serial_synthesized hserial hslot tool.inputJson
  · rw [if_neg hadmitted]
    exact h

theorem textual_emitQueuedLeakedToolUses (h : c.path.Textual marks) :
    (emitQueuedLeakedToolUses env c).path.Textual marks := by
  have hfold : ∀ (tools : List LeakedTool) (c : Context σ), c.path.Textual marks →
      (tools.foldl (emitQueuedLeakedToolUse env) c).path.Textual marks := by
    intro tools
    induction tools with
    | nil => exact fun c h => h
    | cons tool tools ih => exact fun c h => ih _ (textual_emitQueuedLeakedToolUse h tool)
  exact hfold _ _ h

theorem Ended.flushLeakedTools (env : Environment σ) (h : Ended marks c) :
    ∃ slot, (flushLeakedTools env c).out.Serial marks slot := by
  have htextual : c.path.Textual marks →
      ∃ slot, (Context.flushLeakedTools env c).out.Serial marks slot := by
    intro htext
    have hflushed : (Context.flushLeakedTools env c).path.Textual marks := by
      unfold Context.flushLeakedTools
      split_ifs
      · exact textual_emitQueuedLeakedToolUses htext
      · exact textual_emitQueuedLeakedToolUses (htext.drainInvokeSniffBuffer _ _)
    rcases hflushed with hidle | ⟨i, hserial, -⟩
    · exact ⟨none, hidle⟩
    · exact ⟨_, hserial⟩
  rcases h with htext | ⟨hserial, ⟨hsniff, hleaked⟩, -⟩
  · exact htextual htext
  · unfold Context.flushLeakedTools emitQueuedLeakedToolUses
    rw [if_pos hsniff]
    dsimp only
    rw [hleaked]
    exact hserial

theorem Ended.emitThinkingOnlyText (h : Ended marks c) (herror : c.streamError = none) :
    Ended marks (emitThinkingOnlyText env c) := by
  unfold Context.emitThinkingOnlyText
  split_ifs with honly hreason
  · rcases h with htext | ⟨-, -, hnon⟩
    · refine .inl (TextPath.Textual.createSanitizedTextDeltaEvents ?_ _ _)
      rcases htext with hidle | ⟨i, hserial, hi⟩
      · exact .inl (hidle.setStopReason "end_turn")
      · exact .inr ⟨i, hserial.setStopReason "end_turn", hi⟩
    · unfold isThinkingOnly at honly
      rw [hnon herror] at honly
      simp at honly
  · rcases h with htext | ⟨-, -, hnon⟩
    · exact .inl (htext.createSanitizedTextDeltaEvents _ _)
    · unfold isThinkingOnly at honly
      rw [hnon herror] at honly
      simp at honly
  · exact h

theorem Inv.generateFinalEvents (h : Inv env marks c s) (hfinal : FinalSerial env c) :
    MessageRules.Accepts (generateFinalEvents env c).out.events ∧
      ((flushStream env c).streamError = none →
        MessageRules.Complete (Context.generateFinalEvents env c).out.events) := by
  obtain ⟨s₁, hreasoning⟩ := h.endReasoning
  obtain ⟨s₂, hheld⟩ := hreasoning.flushPendingTrivialText hfinal.trivial_text
  obtain ⟨marks', s₃, hcalls⟩ := hheld.flushToolCalls hfinal
  have hended : Ended marks' (flushStream env c) := hcalls.ended
  unfold Context.generateFinalEvents
  dsimp only
  generalize flushStream env c = c₄ at hended ⊢
  cases herror : c₄.streamError with
  | some error =>
    refine ⟨?_, fun hnone => by cases hnone⟩
    obtain ⟨slot, hserial⟩ := hended.flushLeakedTools env
    exact (hserial.closeOpenNonToolUseBlocks.push_error _ _).accepts
  | none =>
    have hcomplete : MessageRules.Complete ((Context.flushLeakedTools env
        (Context.emitThinkingOnlyText env c₄)).mapOut
          Output.generateFinalEventsWithUsage).out.events := by
      obtain ⟨slot, hserial⟩ := (hended.emitThinkingOnlyText herror).flushLeakedTools env
      exact hserial.generateFinalEventsWithUsage
    refine ⟨?_, fun _ => hcomplete⟩
    obtain ⟨r, hr, -⟩ := hcomplete
    exact ⟨r, hr⟩

end KiroProxy.Stream.Context
