import KiroProxy.Stream.ThinkingSerial

/-!
# Native reasoning and assistant text keep one block open

A segment of native reasoning is closed before text. Text is in order when no tool block
is open and a start tag of XML thinking stands at the beginning of the response only.
-/

namespace KiroProxy.Stream.Context

variable {σ : Type} {env : Environment σ} {marks : Marks} {c : Context σ}

/-- Nothing is open but the block of the native reasoning. -/
def NativeOnly (marks : Marks) (c : Context σ) : Prop :=
  (c.out.Serial marks none ∧ c.native.blockIndex = none) ∨
    ∃ i, c.out.Serial marks (some (i, .thinking)) ∧ c.native.blockIndex = some i

/-- What the functions of native reasoning change. -/
def NativeStep (c c' : Context σ) : Prop :=
  ∃ out sanitizer native, c' = { c with
    path := ⟨out, c.text⟩, thinkingTranscriptSanitizer := sanitizer, native := native } ∧
    native.seen = c.native.seen

theorem NativeStep.trans {c₁ c₂ c₃ : Context σ} (h : NativeStep c₁ c₂) (h' : NativeStep c₂ c₃) :
    NativeStep c₁ c₃ := by
  obtain ⟨_, _, _, rfl, hseen⟩ := h
  obtain ⟨_, _, _, rfl, hseen'⟩ := h'
  exact ⟨_, _, _, rfl, hseen'.trans hseen⟩

theorem NativeStep.frame {c c' : Context σ} (h : NativeStep c c') :
    c'.xml = c.xml ∧ c'.tools = c.tools ∧ c'.pendingTrivialText = c.pendingTrivialText ∧
      c'.toolTranscriptSanitizer = c.toolTranscriptSanitizer ∧
      c'.native.seen = c.native.seen ∧ c'.text = c.text := by
  obtain ⟨_, _, _, rfl, hseen⟩ := h
  exact ⟨rfl, rfl, rfl, rfl, hseen, rfl⟩

theorem nativeStep_pushNativeReasoningDelta (thinking : List Char) (c : Context σ) :
    NativeStep c (pushNativeReasoningDelta thinking c) := by
  unfold pushNativeReasoningDelta
  split_ifs
  · exact ⟨_, _, _, rfl, rfl⟩
  · exact ⟨_, _, _, rfl, rfl⟩
  · exact ⟨_, _, _, rfl, rfl⟩

theorem nativeStep_checkSignature (env : Environment σ) (c : Context σ) :
    NativeStep c (checkSignature env c) := by
  unfold checkSignature
  split
  · exact ⟨_, _, _, rfl, rfl⟩
  · exact ⟨_, _, _, rfl, rfl⟩

theorem nativeStep_endNativeSegment (env : Environment σ) (c : Context σ) :
    NativeStep c (endNativeSegment env c) := by
  have hfinish : NativeStep c { c with
      native := { c.native with segmentOpen := false }
      thinkingTranscriptSanitizer :=
        (env.sanitizer.finishSegment c.thinkingTranscriptSanitizer).2 } :=
    ⟨_, _, _, rfl, rfl⟩
  exact (hfinish.trans (nativeStep_pushNativeReasoningDelta _ _)).trans
    (nativeStep_checkSignature env _)

theorem nativeStep_closeNativeReasoningBlock (env : Environment σ) (c : Context σ) :
    NativeStep c (closeNativeReasoningBlock env c) := by
  unfold closeNativeReasoningBlock
  split_ifs
  · refine (nativeStep_endNativeSegment env c).trans ?_
    unfold stopNativeBlock
    split
    · exact ⟨_, _, _, rfl, rfl⟩
    · exact ⟨_, _, _, rfl, rfl⟩
  · exact ⟨_, _, _, rfl, rfl⟩

theorem NativeOnly.pushNativeReasoningDelta (h : NativeOnly marks c) (thinking : List Char) :
    NativeOnly marks (pushNativeReasoningDelta thinking c) := by
  unfold Context.pushNativeReasoningDelta
  split_ifs with hempty hindex
  · exact h
  · rcases h with ⟨-, hnone⟩ | ⟨i, hserial, hi⟩
    · rw [hnone] at hindex
      cases hindex
    · refine .inr ⟨i, ?_, by rw [hi]; rfl⟩
      rw [hi]
      exact hserial.push_delta _
  · rcases h with ⟨hserial, hnone⟩ | ⟨i, hserial, hi⟩
    · refine .inr ⟨c.manager.nextBlockIndex, ?_, by rw [hnone]; rfl⟩
      rw [hnone]
      have hstart : (c.out.startNew (.thinking [] [])).Serial marks
          (some (c.manager.nextBlockIndex, .thinking)) := hserial.startNew rfl
      exact hstart.push_delta _
    · rw [hi] at hindex
      exact absurd rfl hindex

theorem settled_checkSignature
    (h : env.sanitizer.Settled c.thinkingTranscriptSanitizer) :
    env.sanitizer.Settled (checkSignature env c).thinkingTranscriptSanitizer := by
  unfold checkSignature
  split
  · exact settled_finishSegment _
  · exact h

theorem settled_endNativeSegment (env : Environment σ) (c : Context σ) :
    env.sanitizer.Settled (endNativeSegment env c).thinkingTranscriptSanitizer := by
  refine settled_checkSignature ?_
  unfold pushNativeReasoningDelta
  split_ifs
  · exact settled_finishSegment _
  · exact settled_finishSegment _
  · exact settled_finishSegment _

theorem native_checkSignature (c : Context σ) :
    (checkSignature env c).native = c.native ∧ (checkSignature env c).out = c.out := by
  unfold checkSignature
  split
  · exact ⟨rfl, rfl⟩
  · exact ⟨rfl, rfl⟩

theorem segmentOpen_pushNativeReasoningDelta (thinking : List Char) (c : Context σ) :
    (pushNativeReasoningDelta thinking c).native.segmentOpen = c.native.segmentOpen := by
  unfold pushNativeReasoningDelta
  split_ifs
  · rfl
  · rfl
  · rfl

theorem segmentOpen_endNativeSegment (env : Environment σ) (c : Context σ) :
    (endNativeSegment env c).native.segmentOpen = false := by
  unfold endNativeSegment
  dsimp only
  rw [(native_checkSignature _).1, segmentOpen_pushNativeReasoningDelta]

theorem NativeOnly.checkSignature (h : NativeOnly marks c) :
    NativeOnly marks (checkSignature env c) := by
  unfold NativeOnly
  rw [(native_checkSignature c).1, (native_checkSignature c).2]
  exact h

theorem NativeOnly.endNativeSegment (h : NativeOnly marks c) :
    NativeOnly marks (endNativeSegment env c) := by
  have hclosed : NativeOnly marks { c with
      native := { c.native with segmentOpen := false }
      thinkingTranscriptSanitizer :=
        (env.sanitizer.finishSegment c.thinkingTranscriptSanitizer).2 } := h
  exact (hclosed.pushNativeReasoningDelta _).checkSignature

theorem NativeOnly.stopNativeBlock (h : NativeOnly marks c) :
    (stopNativeBlock env c).out.Serial marks none ∧
      (Context.stopNativeBlock env c).native.blockIndex = none := by
  unfold Context.stopNativeBlock
  rcases h with ⟨hserial, hnone⟩ | ⟨i, hserial, hi⟩
  · split
    · exact ⟨hserial, hnone⟩
    · next hsome =>
      rw [hnone] at hsome
      cases hsome
  · split
    · next hnone =>
      rw [hi] at hnone
      cases hnone
    · next index hindex =>
      obtain rfl : i = index := Option.some.inj (hi.symm.trans hindex)
      exact ⟨serial_stop_deltas hserial _, rfl⟩

theorem endNativeSegment_of_settled (h : env.sanitizer.Settled c.thinkingTranscriptSanitizer) :
    (endNativeSegment env c).out = c.out ∧
      (endNativeSegment env c).native.blockIndex = c.native.blockIndex := by
  unfold endNativeSegment
  dsimp only
  rw [(native_checkSignature _).1, (native_checkSignature _).2,
    show (env.sanitizer.finishSegment c.thinkingTranscriptSanitizer).1 = [] from h]
  exact ⟨rfl, rfl⟩

theorem stopNativeBlock_frame (env : Environment σ) (c : Context σ) :
    (stopNativeBlock env c).native.segmentOpen = c.native.segmentOpen ∧
      (stopNativeBlock env c).thinkingTranscriptSanitizer = c.thinkingTranscriptSanitizer := by
  unfold stopNativeBlock
  split
  · exact ⟨rfl, rfl⟩
  · exact ⟨rfl, rfl⟩

theorem Core.of_nativeStep {c' : Context σ} {s s' : Slot} (h : Core env marks c s)
    (hstep : NativeStep c c') (hholds : Holds marks c' s') (hs' : s' = .idle ∨ s' = .tool)
    (htool : s' = .tool → s = .tool) (hindex : c'.native.blockIndex = none)
    (hopen : c'.native.segmentOpen = false)
    (hsettled : env.sanitizer.Settled c'.thinkingTranscriptSanitizer) :
    Core env marks c' s' := by
  obtain ⟨hxml, htools, htrivial, hsan, hseen, -⟩ := hstep.frame
  have hkinds : s' ≠ .native ∧ s' ≠ .xml ∧ s' ≠ .text := by
    rcases hs' with rfl | rfl
    · exact ⟨by decide, by decide, by decide⟩
    · exact ⟨by decide, by decide, by decide⟩
  constructor
  · exact hholds
  · exact fun _ => hindex
  · exact fun heq => absurd heq hkinds.1
  · exact fun hopen' => absurd (hopen.symm.trans hopen') (by decide)
  · exact fun hopen' => absurd (hopen.symm.trans hopen') (by decide)
  · exact fun heq => absurd heq hkinds.2.1
  · exact fun _ _ _ => hkinds.2.2
  · intro heq
    obtain ⟨hquiet, -, hbuffer, hpending⟩ := h.tool_quiet (htool heq)
    rw [hsan, hxml, htrivial]
    exact ⟨hquiet, hsettled, hbuffer, hpending⟩
  · exact fun _ _ => hsettled
  · rw [htools]
    exact h.pending_starts
  · rw [htools]
    exact h.tool_marks

def Slot.afterNative : Slot → Slot
  | .native => .idle
  | s => s

variable {s : Slot}

theorem Core.nativeOnly (h : Core env marks c s) (hs : s = .idle ∨ s = .native) :
    NativeOnly marks c := by
  rcases hs with rfl | rfl
  · exact .inl ⟨h.holds, h.native_index (by decide)⟩
  · exact .inr h.holds

theorem Core.closeNativeReasoningBlock (h : Core env marks c s) :
    Core env marks (closeNativeReasoningBlock env c) s.afterNative ∧
      (Context.closeNativeReasoningBlock env c).native.segmentOpen = false := by
  have hstep := nativeStep_closeNativeReasoningBlock env c
  cases hopen : c.native.segmentOpen with
  | false =>
    have hslot : s.afterNative = s := by
      cases s with
      | native => exact absurd (h.native_open rfl) (by rw [hopen]; decide)
      | idle | text | xml | tool => rfl
    rw [Context.closeNativeReasoningBlock, hopen, hslot]
    exact ⟨h, hopen⟩
  | true =>
    obtain ⟨hsegment, hsan⟩ := stopNativeBlock_frame env (endNativeSegment env c)
    have hclosed := hsegment.trans (segmentOpen_endNativeSegment env c)
    have hsettled := settled_endNativeSegment env c
    rw [← hsan] at hsettled
    rw [Context.closeNativeReasoningBlock, hopen, if_pos rfl] at hstep ⊢
    refine ⟨?_, hclosed⟩
    have hend : s = .idle ∨ s = .native → Core env marks
        (stopNativeBlock env (endNativeSegment env c)) .idle := by
      intro hs
      obtain ⟨hserial, hindex⟩ := (h.nativeOnly hs).endNativeSegment.stopNativeBlock
      exact h.of_nativeStep hstep hserial (.inl rfl) (fun heq => by cases heq) hindex hclosed
        hsettled
    cases s with
    | idle => exact hend (.inl rfl)
    | native => exact hend (.inr rfl)
    | text => exact absurd rfl (h.segment_settled hopen).1
    | xml => exact absurd (h.segment_seen hopen) (by rw [(h.xml_open rfl).2.1]; decide)
    | tool =>
      obtain ⟨hout, hindex⟩ := endNativeSegment_of_settled (h.tool_quiet rfl).2.1
      have hnone : (endNativeSegment env c).native.blockIndex = none :=
        hindex.trans (h.native_index (by decide))
      have hstop : stopNativeBlock env (endNativeSegment env c) = endNativeSegment env c := by
        rw [stopNativeBlock, hnone]
      rw [hstop] at hstep hclosed hsettled ⊢
      refine h.of_nativeStep hstep ?_ (.inr rfl) (fun _ => rfl) hnone hclosed hsettled
      obtain ⟨i, hserial⟩ := h.holds
      exact ⟨i, by rwa [hout]⟩

theorem Inv.closeNativeReasoningBlock (h : Inv env marks c s) :
    Inv env marks (closeNativeReasoningBlock env c) s.afterNative := by
  obtain ⟨hxml, -, -, hsan, hseen, -⟩ := (nativeStep_closeNativeReasoningBlock env c).frame
  refine { h.toCore.closeNativeReasoningBlock.1 with undecided := ?_, buffer_empty := ?_ }
  · rw [Undecided, hxml, hsan, hseen]
    exact h.undecided
  · rw [hxml, hseen]
    exact h.buffer_empty

theorem Inv.emitAssistantResponseContent (h : Inv env marks c s) (hs : s ≠ .tool)
    (content : List Char)
    (htag : env.xmlThinking = true → c.native.seen = false → c.xml.inThinkingBlock = false →
      c.xml.thinkingExtracted = false → TagAtStart env c (c.xml.thinkingBuffer ++ content)) :
    ∃ s', AfterText env marks content c (emitAssistantResponseContent env content c) s' := by
  unfold Context.emitAssistantResponseContent
  cases hseen : c.native.seen with
  | true =>
    have hinv := h.closeNativeReasoningBlock
    have hclosed := h.toCore.closeNativeReasoningBlock.2
    obtain ⟨-, -, -, -, hseen', -⟩ := (nativeStep_closeNativeReasoningBlock env c).frame
    rw [hseen] at hseen'
    generalize Context.closeNativeReasoningBlock env c = c₁ at hinv hclosed hseen' ⊢
    have htext : s.afterNative.IsText := by
      cases s with
      | idle => exact .inl rfl
      | text => exact .inr rfl
      | native => exact .inl rfl
      | xml => exact absurd (h.xml_open rfl).2.1 (by rw [hseen]; decide)
      | tool => exact absurd rfl hs
    simp only [if_true, hseen', Bool.not_true, Bool.and_false, Bool.false_eq_true, if_false]
    obtain ⟨s', hs', hcore⟩ := hinv.toCore.createTextDeltaEvents ⟨htext, hclosed,
      fun _ hunseen => absurd (hseen'.symm.trans hunseen) (by decide)⟩ content
    obtain ⟨-, hnative, -, -⟩ := (textStep_createTextDeltaEvents env content c₁).frame
    rw [← hnative] at hseen'
    have hfalse : ∀ {p : Prop},
        (Context.createTextDeltaEvents env content c₁).native.seen = false → p :=
      fun hunseen => absurd (hseen'.symm.trans hunseen) (by decide)
    exact ⟨s', { hcore with
      undecided := fun hund => hfalse hund.2.1
      buffer_empty := fun hunseen => hfalse hunseen
      ne_native := hs'.ne_native
      ne_tool := hs'.ne_tool
      kept := fun _ hunseen => hfalse hunseen
      thinking := fun heq => absurd heq hs'.ne_xml }⟩
  | false =>
    simp only [Bool.false_eq_true, if_false, hseen, Bool.not_false, Bool.and_true]
    by_cases hxml : env.xmlThinking = true
    · rw [if_pos hxml]
      exact h.processContentWithThinking hxml hseen hs (htag hxml hseen)
    · rw [if_neg hxml]
      have htext : s.IsText := by
        cases s with
        | idle => exact .inl rfl
        | text => exact .inr rfl
        | native => exact absurd (h.segment_seen (h.native_open rfl)) (by rw [hseen]; decide)
        | xml => exact absurd (h.xml_open rfl).1 hxml
        | tool => exact absurd rfl hs
      obtain ⟨s', hs', hcore⟩ := h.toCore.createTextDeltaEvents ⟨htext,
        h.toCore.segment_closed hseen, fun hxml' => absurd hxml' hxml⟩ content
      obtain ⟨hxmlState, hnative, -, -⟩ := (textStep_createTextDeltaEvents env content c).frame
      refine ⟨s', { hcore with
        undecided := fun hund => absurd hund.1 hxml
        buffer_empty := ?_
        ne_native := hs'.ne_native
        ne_tool := hs'.ne_tool
        kept := fun hxml' => absurd hxml' hxml
        thinking := fun heq => absurd heq hs'.ne_xml }⟩
      rw [hxmlState, hnative]
      exact h.buffer_empty

def NoToolOpen (c : Context σ) : Prop :=
  ∀ i, c.manager.isBlockOpenOfType i .toolUse = false

/-- The response can still begin with XML thinking. -/
def AwaitsTag (env : Environment σ) (c : Context σ) : Prop :=
  env.xmlThinking = true ∧ c.native.seen = false ∧ c.xml.inThinkingBlock = false ∧
    c.xml.thinkingExtracted = false

/-- Assistant text is in order: no tool block is open, and a start tag in the text, after the
trivial text that is still held, stands at the beginning of the response. -/
def ContentSerial (env : Environment σ) (content : List Char) (c : Context σ) : Prop :=
  content = [] ∨ NoToolOpen c ∧
    (shouldBufferTrivialText env content c = true ∨ (AwaitsTag env c →
      let buffer := c.xml.thinkingBuffer ++ c.pendingTrivialText
      (c.pendingTrivialText ≠ [] → TagAtStart env c buffer) ∧
      (c.pendingTrivialText = [] ∨ Keeps env buffer → TagAtStart env c (buffer ++ content))))

theorem Core.ne_tool (h : Core env marks c s) (hclosed : NoToolOpen c) : s ≠ .tool := by
  rintro rfl
  obtain ⟨i, hserial⟩ := h.holds
  exact absurd ((hserial.isOpen_iff i .toolUse).mpr rfl) (by rw [hclosed i]; decide)

theorem Inv.with_trivialText (h : Inv env marks c s) (hs : s ≠ .tool) (pending : List Char) :
    Inv env marks { c with pendingTrivialText := pending } s :=
  { h with tool_quiet := fun heq => absurd heq hs }

theorem Inv.processAssistantResponse (h : Inv env marks c s) {content : List Char}
    (hserial : ContentSerial env content c) :
    ∃ s', Inv env marks (processAssistantResponse env content c) s' := by
  unfold Context.processAssistantResponse
  split_ifs with hempty hbuffer
  · exact ⟨s, h⟩
  · exact ⟨s, h.with_trivialText (h.toCore.ne_tool (hserial.resolve_left hempty).1) _⟩
  · obtain ⟨hclosed, hbuffer' | htag⟩ := hserial.resolve_left hempty
    · exact absurd hbuffer' hbuffer
    have hs := h.toCore.ne_tool hclosed
    unfold flushPendingTrivialText
    split_ifs with hpending
    · obtain ⟨s', hafter⟩ := h.emitAssistantResponseContent hs content
        fun hxml hseen hin hext => by
          have := (htag ⟨hxml, hseen, hin, hext⟩).2 (.inl hpending)
          rwa [hpending, List.append_nil] at this
      exact ⟨s', hafter.toInv⟩
    · obtain ⟨s₁, hflush⟩ := (h.with_trivialText hs []).emitAssistantResponseContent hs
        c.pendingTrivialText fun hxml hseen hin hext => (htag ⟨hxml, hseen, hin, hext⟩).1 hpending
      obtain ⟨s', hafter⟩ := hflush.toInv.emitAssistantResponseContent hflush.ne_tool
        content fun hxml hseen hin hext => by
          obtain ⟨heq, hkeeps⟩ := hflush.kept hxml hseen hin hext
          rw [heq] at hseen hin hext ⊢
          exact (htag ⟨hxml, hseen, hin, hext⟩).2 (.inr hkeeps)
      exact ⟨s', hafter.toInv⟩

theorem settled_flushTextSegment (env : Environment σ) (c : Context σ) :
    env.sanitizer.Settled (flushTextSegment env c).toolTranscriptSanitizer :=
  settled_finishSegment _

theorem textStep_flushTextSegment (env : Environment σ) (c : Context σ) :
    TextStep c (flushTextSegment env c) :=
  ⟨_, _, rfl⟩

theorem Inv.settled_or_textReady (h : Inv env marks c s) :
    env.sanitizer.Settled c.toolTranscriptSanitizer ∨ TextReady env c s := by
  by_cases hund : Undecided env c
  · exact .inl (h.undecided hund)
  cases hopen : c.native.segmentOpen with
  | true => exact .inl (h.segment_settled hopen).2.2
  | false =>
    have hready : s.IsText → TextReady env c s := fun hs => by
      refine ⟨hs, hopen, fun hxml hseen => ?_⟩
      cases hin : c.xml.inThinkingBlock with
      | false => rfl
      | true => exact absurd ⟨hxml, hseen, .inl hin⟩ hund
    cases s with
    | idle => exact .inr (hready (.inl rfl))
    | text => exact .inr (hready (.inr rfl))
    | native => exact absurd (h.native_open rfl) (by rw [hopen]; decide)
    | xml =>
      obtain ⟨hxml, hseen, hin⟩ := h.xml_open rfl
      exact absurd ⟨hxml, hseen, .inl hin⟩ hund
    | tool => exact .inl (h.tool_quiet rfl).1

theorem Inv.flushTextSegment (h : Inv env marks c s) :
    ∃ s' : Slot, (s' = s ∨ s.IsText ∧ s'.IsText) ∧
      Inv env marks (flushTextSegment env c) s' := by
  obtain ⟨s', hs', hcore⟩ := h.toCore.flushTextSegment h.settled_or_textReady
  obtain ⟨hxml, hnative, -, -⟩ := (textStep_flushTextSegment env c).frame
  refine ⟨s', hs', { hcore with
    undecided := fun _ => settled_flushTextSegment env c, buffer_empty := ?_ }⟩
  rw [hxml, hnative]
  exact h.buffer_empty

/-- The text block is stopped before native reasoning. -/
theorem Inv.stop_text (h : Inv env marks c s) (hs : s ≠ .xml) (i : ℕ)
    (hi : c.text.textBlockIndex = some i) :
    ∃ s' : Slot, s' ≠ .xml ∧ s' ≠ .text ∧ (s' = .tool → s = .tool) ∧ Inv env marks { c with
      path := ⟨c.out.stop i, { c.text with textBlockIndex := none }⟩ } s' := by
  have hclosed : c.native.segmentOpen = false := by
    cases hopen : c.native.segmentOpen with
    | false => rfl
    | true => rw [(h.segment_settled hopen).2.1] at hi; cases hi
  have hne : s ≠ .native := fun heq =>
    absurd (h.native_open heq) (by rw [hclosed]; decide)
  have hinv : ∀ s' : Slot, s' = .idle ∨ s' = .tool ∧ s = .tool → Holds marks { c with
      path := ⟨c.out.stop i, { c.text with textBlockIndex := none }⟩ } s' →
      ∃ s' : Slot, s' ≠ .xml ∧ s' ≠ .text ∧ (s' = .tool → s = .tool) ∧ Inv env marks { c with
        path := ⟨c.out.stop i, { c.text with textBlockIndex := none }⟩ } s' := by
    intro s' hs' hholds
    have hkinds : s' ≠ .native ∧ s' ≠ .xml ∧ s' ≠ .text ∧ (s' = .tool → s = .tool) := by
      rcases hs' with rfl | ⟨rfl, htool⟩
      · exact ⟨by decide, by decide, by decide, fun heq => by cases heq⟩
      · exact ⟨by decide, by decide, by decide, fun _ => htool⟩
    refine ⟨s', hkinds.2.1, hkinds.2.2.1, hkinds.2.2.2, { h with
      holds := hholds
      native_index := fun _ => h.native_index hne
      native_open := fun heq => absurd heq hkinds.1
      segment_settled := fun hopen => absurd (hclosed.symm.trans hopen) (by decide)
      xml_open := fun heq => absurd heq hkinds.2.1
      thinking_text := fun _ _ _ => hkinds.2.2.1
      tool_quiet := fun heq => h.tool_quiet (hkinds.2.2.2 heq)
      thinking_settled := fun _ => h.thinking_settled hs }⟩
  cases s with
  | idle => exact hinv .idle (.inl rfl) (Output.Serial.stop h.holds i)
  | text =>
    obtain ⟨j, hserial, hj⟩ := h.holds
    obtain rfl : j = i := Option.some.inj (hj.symm.trans hi)
    exact hinv .idle (.inl rfl) hserial.stop_open
  | xml => exact absurd rfl hs
  | native => exact absurd rfl hne
  | tool =>
    obtain ⟨j, hserial⟩ := h.holds
    by_cases hji : j = i
    · subst hji
      exact hinv .idle (.inl rfl) hserial.stop_open
    · exact hinv .tool (.inr ⟨rfl, rfl⟩) ⟨j, hserial.stop_other hji⟩

theorem Inv.endTextBeforeReasoning (h : Inv env marks c s)
    (hs : env.thinkingEnabled = true → s ≠ .xml) :
    ∃ s' : Slot, (s' = .tool → s = .tool) ∧ Inv env marks (endTextBeforeReasoning env c) s' ∧
      env.sanitizer.Settled (Context.endTextBeforeReasoning env c).toolTranscriptSanitizer ∧
      (env.thinkingEnabled = true → s' ≠ .xml ∧ s' ≠ .text ∧
        (Context.endTextBeforeReasoning env c).text.textBlockIndex = none) := by
  obtain ⟨s₁, hs₁, hflush⟩ := h.flushTextSegment
  have hsettled := settled_flushTextSegment env c
  have htool : s₁ = .tool → s = .tool := by
    rintro rfl
    rcases hs₁ with rfl | ⟨-, htext⟩
    · rfl
    · exact absurd rfl htext.ne_tool
  unfold Context.endTextBeforeReasoning
  generalize Context.flushTextSegment env c = c₁ at hflush hsettled ⊢
  dsimp only
  cases henabled : env.thinkingEnabled with
  | false => exact ⟨s₁, htool, hflush, hsettled, fun heq => by cases heq⟩
  | true =>
    have hxml : s₁ ≠ .xml := by
      rintro rfl
      rcases hs₁ with rfl | ⟨-, htext⟩
      · exact hs henabled rfl
      · exact absurd rfl htext.ne_xml
    rw [if_pos rfl]
    split
    · next i hi =>
      obtain ⟨s', hxml', htext', htool', hinv⟩ := hflush.stop_text hxml i hi
      exact ⟨s', fun heq => htool (htool' heq), hinv, hsettled, fun _ => ⟨hxml', htext', rfl⟩⟩
    · next hnone =>
      refine ⟨s₁, htool, hflush, hsettled, fun _ => ⟨hxml, ?_, hnone⟩⟩
      rintro rfl
      obtain ⟨i, -, hi⟩ := hflush.holds
      rw [hnone] at hi
      cases hi

/-- Native reasoning is in order: no XML thinking block is open, and a block of its own starts
while no tool block is open. -/
def ReasoningSerial (env : Environment σ) (reasoning : ReasoningContent) (c : Context σ) : Prop :=
  env.thinkingEnabled = true → c.isXmlThinkingOpen = false ∧
    (reasoning.redactedContent.isSome = true ∨ reasoning.text ≠ [] → NoToolOpen c)

theorem Core.inv_of_seen (h : Core env marks c s) (hseen : c.native.seen = true) :
    Inv env marks c s :=
  { h with
    undecided := fun hund => absurd (hseen.symm.trans hund.2.1) (by decide)
    buffer_empty := fun hunseen => absurd (hseen.symm.trans hunseen) (by decide) }

structure ReasoningReady (env : Environment σ) (c : Context σ) (s : Slot) : Prop where
  seen : c.native.seen = true
  ne_xml : s ≠ .xml
  ne_text : s ≠ .text
  no_text : c.text.textBlockIndex = none
  settled : env.sanitizer.Settled c.toolTranscriptSanitizer

theorem Core.openNativeSegment (h : Core env marks c s) (hr : ReasoningReady env c s) :
    Core env marks (openNativeSegment env c) s := by
  unfold Context.openNativeSegment
  split_ifs with hopen
  · exact h
  · have hne : s ≠ .native := fun heq => hopen (h.native_open heq)
    refine { h with
      holds := ?_
      native_index := fun _ => rfl
      native_open := fun heq => absurd heq hne
      segment_seen := fun _ => hr.seen
      segment_settled := fun _ => ⟨hr.ne_text, hr.no_text, hr.settled⟩
      thinking_settled := fun _ hclosed => by cases hclosed }
    cases s with
    | native => exact absurd rfl hne
    | idle | text | xml | tool => exact h.holds

theorem segmentOpen_openNativeSegment (env : Environment σ) (c : Context σ) :
    (openNativeSegment env c).native.segmentOpen = true := by
  unfold openNativeSegment
  split_ifs with hopen
  · exact hopen
  · rfl

theorem nativeStep_openNativeSegment (env : Environment σ) (c : Context σ) :
    NativeStep c (openNativeSegment env c) := by
  unfold openNativeSegment
  split_ifs
  · exact ⟨_, _, _, rfl, rfl⟩
  · exact ⟨_, _, _, rfl, rfl⟩

theorem Core.emitBlock (h : Core env marks c .idle) (content : ContentBlock) :
    Core env marks (c.mapOut fun o =>
      (o.startNew content).stop c.manager.nextBlockIndex) .idle := by
  have hserial : c.out.Serial marks none := h.holds
  have hslot : Output.slotBefore content none = none := by
    unfold Output.slotBefore
    split_ifs
    · rfl
    · rfl
  exact { h with holds := (hserial.startNew hslot).stop_open }

theorem Core.pushReasoning (h : Core env marks c s) (hs : s = .idle ∨ s = .native)
    (hopen : c.native.segmentOpen = true) (thinking : List Char) :
    ∃ s', Inv env marks (pushNativeReasoningDelta thinking c) s' := by
  have hstep := nativeStep_pushNativeReasoningDelta thinking c
  have hopen' : (pushNativeReasoningDelta thinking c).native.segmentOpen = true :=
    (segmentOpen_pushNativeReasoningDelta thinking c).trans hopen
  obtain ⟨hxml, htools, -, hsan, hseen, htext⟩ := hstep.frame
  have hseen' : (pushNativeReasoningDelta thinking c).native.seen = true :=
    hseen.trans (h.segment_seen hopen)
  have hcore : ∀ s' : Slot, s' = .idle ∨ s' = .native →
      Holds marks (pushNativeReasoningDelta thinking c) s' →
      (s' ≠ .native → (pushNativeReasoningDelta thinking c).native.blockIndex = none) →
      Inv env marks (pushNativeReasoningDelta thinking c) s' := by
    intro s' hs' hholds hindex
    have hkinds : s' ≠ .text ∧ s' ≠ .xml ∧ s' ≠ .tool := by
      rcases hs' with rfl | rfl
      · exact ⟨by decide, by decide, by decide⟩
      · exact ⟨by decide, by decide, by decide⟩
    refine Core.inv_of_seen ?_ hseen'
    constructor
    · exact hholds
    · exact hindex
    · exact fun _ => hopen'
    · exact fun _ => hseen'
    · rw [htext, hsan]
      exact fun _ => ⟨hkinds.1, (h.segment_settled hopen).2⟩
    · exact fun heq => absurd heq hkinds.2.1
    · exact fun _ hunseen => absurd (hseen'.symm.trans hunseen) (by decide)
    · exact fun heq => absurd heq hkinds.2.2
    · exact fun _ hclosed => absurd (hopen'.symm.trans hclosed) (by decide)
    · rw [htools]
      exact h.pending_starts
    · rw [htools]
      exact h.tool_marks
  rcases (h.nativeOnly hs).pushNativeReasoningDelta thinking with ⟨hserial, hnone⟩ | hnative
  · exact ⟨.idle, hcore .idle (.inl rfl) hserial fun _ => hnone⟩
  · exact ⟨.native, hcore .native (.inr rfl) hnative fun hne => absurd rfl hne⟩

theorem Core.with_nativeText (h : Core env marks c s) (content : List Char)
    (signature : Option (List Char)) (sanitizer : σ) (hopen : c.native.segmentOpen = true)
    (hs : s ≠ .tool ∨ sanitizer = c.thinkingTranscriptSanitizer) :
    Core env marks { c with
      native := { c.native with content := content, signature := signature }
      thinkingTranscriptSanitizer := sanitizer } s := by
  refine { h with holds := ?_, tool_quiet := ?_, thinking_settled := ?_ }
  · cases s with
    | idle | text | xml | native | tool => exact h.holds
  · intro heq
    obtain rfl := hs.resolve_left fun hne => hne heq
    exact h.tool_quiet heq
  · exact fun _ hclosed => absurd (hopen.symm.trans hclosed) (by decide)

theorem Inv.processReasoningContent {reasoning : ReasoningContent} (h : Inv env marks c s)
    (hsettled : env.sanitizer.Settled c.toolTranscriptSanitizer)
    (hs : env.thinkingEnabled = true → s ≠ .xml ∧ s ≠ .text ∧ c.text.textBlockIndex = none ∧
      (reasoning.redactedContent.isSome = true ∨ reasoning.text ≠ [] → s ≠ .tool)) :
    ∃ s', Inv env marks (processReasoningContent env reasoning c) s' := by
  unfold Context.processReasoningContent
  by_cases henabled : env.thinkingEnabled = true
  swap
  · rw [if_neg henabled]
    exact ⟨s, h⟩
  rw [if_pos henabled]
  obtain ⟨hxml, htext, hnone, htool⟩ := hs henabled
  have hseen : Core env marks { c with native := { c.native with seen := true } } s := by
    refine { h with
      holds := ?_
      segment_seen := fun _ => rfl
      xml_open := fun heq => absurd heq hxml
      thinking_text := fun _ hunseen => by cases hunseen }
    cases s with
    | idle | text | xml | native | tool => exact h.holds
  have hready : ReasoningReady env { c with native := { c.native with seen := true } } s :=
    ⟨rfl, hxml, htext, hnone, hsettled⟩
  generalize { c with native := { c.native with seen := true } } = c₁ at hseen hready ⊢
  dsimp only
  split
  · next redacted hredacted =>
    have hne : s ≠ .tool := htool (.inl (by rw [hredacted]; rfl))
    have hclose := hseen.closeNativeReasoningBlock.1
    obtain ⟨-, -, -, -, hseen', -⟩ := (nativeStep_closeNativeReasoningBlock env c₁).frame
    rw [hready.seen] at hseen'
    have hidle : s.afterNative = .idle := by
      cases s with
      | idle | native => rfl
      | text => exact absurd rfl htext
      | xml => exact absurd rfl hxml
      | tool => exact absurd rfl hne
    rw [hidle] at hclose
    exact ⟨.idle, (hclose.emitBlock _).inv_of_seen hseen'⟩
  · have hopen := segmentOpen_openNativeSegment env c₁
    have hcore := hseen.openNativeSegment hready
    obtain ⟨-, -, -, -, hseen', -⟩ := (nativeStep_openNativeSegment env c₁).frame
    rw [hready.seen] at hseen'
    generalize Context.openNativeSegment env c₁ = c₂ at hopen hcore hseen' ⊢
    split_ifs with hempty
    · exact ⟨s, (hcore.with_nativeText _ _ _ hopen (.inr rfl)).inv_of_seen hseen'⟩
    · have hne : s ≠ .tool := htool (.inr hempty)
      have hnative : s = .idle ∨ s = .native := by
        cases s with
        | idle => exact .inl rfl
        | native => exact .inr rfl
        | text => exact absurd rfl htext
        | xml => exact absurd rfl hxml
        | tool => exact absurd rfl hne
      refine Core.pushReasoning ?_ hnative ?_ _
      · exact hcore.with_nativeText _ _ _ hopen (.inl hne)
      · exact hopen

theorem Inv.processReasoningEvent {reasoning : ReasoningContent} (h : Inv env marks c s)
    (hserial : ReasoningSerial env reasoning c) :
    ∃ s', Inv env marks
      (Context.processReasoningContent env reasoning (Context.endTextBeforeReasoning env c)) s' := by
  have hxml : env.thinkingEnabled = true → s ≠ .xml := by
    rintro henabled rfl
    have hopen := (h.toCore.isXmlThinkingOpen (.inr rfl)).mpr rfl
    rw [(hserial henabled).1] at hopen
    cases hopen
  obtain ⟨s₁, htool, hinv, hsettled, hready⟩ := h.endTextBeforeReasoning hxml
  refine hinv.processReasoningContent hsettled fun henabled => ?_
  obtain ⟨hxml₁, htext₁, hnone⟩ := hready henabled
  exact ⟨hxml₁, htext₁, hnone, fun hsends heq =>
    h.toCore.ne_tool ((hserial henabled).2 hsends) (htool heq)⟩

end KiroProxy.Stream.Context
