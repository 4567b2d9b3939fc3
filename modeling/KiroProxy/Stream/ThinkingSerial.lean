import KiroProxy.Stream.Invariant

/-!
# XML thinking keeps one block open

Text that may contain XML thinking, from the buffer that looks for a start tag to the text
after the end tag.
-/

namespace KiroProxy.Stream.Context

variable {σ : Type} {env : Environment σ} {marks : Marks} {c : Context σ}

def XmlStep (c c' : Context σ) : Prop :=
  ∃ out sanitizer content index, c' = { c with
    path := ⟨out, c.text⟩
    thinkingTranscriptSanitizer := sanitizer
    xml := { c.xml with xmlThinkingContent := content, thinkingBlockIndex := index } }

theorem XmlStep.refl (c : Context σ) : XmlStep c c :=
  ⟨_, _, _, _, rfl⟩

theorem XmlStep.trans {c₁ c₂ c₃ : Context σ} (h : XmlStep c₁ c₂) (h' : XmlStep c₂ c₃) :
    XmlStep c₁ c₃ := by
  obtain ⟨_, _, _, _, rfl⟩ := h
  obtain ⟨_, _, _, _, rfl⟩ := h'
  exact ⟨_, _, _, _, rfl⟩

theorem xmlStep_sendXmlThinkingDelta (env : Environment σ) (thinking : List Char) (c : Context σ) :
    XmlStep c (sendXmlThinkingDelta env thinking c) := by
  unfold sendXmlThinkingDelta
  dsimp only
  split
  · exact ⟨_, _, _, _, rfl⟩
  · exact ⟨_, _, _, _, rfl⟩

theorem xmlStep_pushXmlThinkingDelta (env : Environment σ) (thinking : List Char) (c : Context σ) :
    XmlStep c (pushXmlThinkingDelta env thinking c) := by
  unfold pushXmlThinkingDelta
  split_ifs
  · exact XmlStep.refl c
  · exact xmlStep_sendXmlThinkingDelta env thinking c
  · have hstart : XmlStep c
        (startXmlThinkingBlock { c with xml := { c.xml with xmlThinkingContent := [] } }) :=
      ⟨_, _, _, _, rfl⟩
    exact hstart.trans (xmlStep_sendXmlThinkingDelta env thinking _)

theorem xmlStep_closeXmlThinkingBlock (env : Environment σ) (c : Context σ) :
    XmlStep c (closeXmlThinkingBlock env c) := by
  unfold closeXmlThinkingBlock
  cases hindex : c.xml.thinkingBlockIndex with
  | none => exact XmlStep.refl c
  | some i =>
    dsimp only
    by_cases hi : c.manager.isBlockOpenOfType i .thinking = true
    · rw [if_pos hi]
      exact ⟨_, _, _, _, rfl⟩
    · rw [if_neg hi]
      exact XmlStep.refl c

theorem closeXmlThinkingBlock_with_flags (inside extracted : Bool) (c : Context σ) :
    closeXmlThinkingBlock env { c with xml := { c.xml with
        inThinkingBlock := inside, thinkingExtracted := extracted } } =
      { closeXmlThinkingBlock env c with xml := { (closeXmlThinkingBlock env c).xml with
        inThinkingBlock := inside, thinkingExtracted := extracted } } := by
  unfold closeXmlThinkingBlock
  cases hindex : c.xml.thinkingBlockIndex with
  | none => rfl
  | some i =>
    dsimp only
    by_cases hi : c.manager.isBlockOpenOfType i .thinking = true
    · rw [if_pos hi, if_pos hi]
      rfl
    · rw [if_neg hi, if_neg hi]

def TextStep (c c' : Context σ) : Prop :=
  ∃ path sanitizer, c' = { c with path := path, toolTranscriptSanitizer := sanitizer }

theorem textStep_createTextDeltaEvents (env : Environment σ) (text : List Char) (c : Context σ) :
    TextStep c (createTextDeltaEvents env text c) := by
  unfold createTextDeltaEvents
  split_ifs
  · exact ⟨_, _, rfl⟩
  · exact ⟨_, _, rfl⟩

theorem TextStep.frame {c c' : Context σ} (h : TextStep c c') :
    c'.xml = c.xml ∧ c'.native = c.native ∧ c'.tools = c.tools ∧
      c'.pendingTrivialText = c.pendingTrivialText := by
  obtain ⟨_, _, rfl⟩ := h
  exact ⟨rfl, rfl, rfl, rfl⟩

theorem findCharBoundary_lt {cs : List Char} {target : ℕ} (h : target < utf8Length cs) :
    findCharBoundary cs target < cs.length := by
  induction cs generalizing target with
  | nil => cases h
  | cons c cs ih =>
    rw [utf8Length_cons] at h
    rw [findCharBoundary, List.length_cons]
    split_ifs with hc
    · have := ih (show target - c.utf8Size < utf8Length cs by omega)
      omega
    · omega

theorem utf8Length_pos {cs : List Char} (h : cs ≠ []) : 0 < utf8Length cs := by
  cases cs with
  | nil => exact absurd rfl h
  | cons c cs =>
    rw [utf8Length_cons]
    exact Nat.add_pos_left c.utf8Size_pos _

variable {s : Slot}

theorem Slot.IsText.ne_native (h : s.IsText) : s ≠ .native := by
  rcases h with rfl | rfl
  · decide
  · decide

theorem Slot.IsText.ne_xml (h : s.IsText) : s ≠ .xml := by
  rcases h with rfl | rfl
  · decide
  · decide

theorem Slot.IsText.ne_tool (h : s.IsText) : s ≠ .tool := by
  rcases h with rfl | rfl
  · decide
  · decide

theorem thinkingExtracted_emitRemainingText (env : Environment σ) (c : Context σ) :
    (emitRemainingText env c).xml.thinkingExtracted = c.xml.thinkingExtracted := by
  unfold emitRemainingText
  obtain ⟨_, _, hstep⟩ := textStep_createTextDeltaEvents env c.xml.thinkingBuffer
    { c with xml := { c.xml with thinkingBuffer := [] } }
  rw [hstep]

theorem Core.emitRemainingText (h : Core env marks c s) (hs : s.IsText)
    (hseen : c.native.seen = false) (hin : c.xml.inThinkingBlock = false)
    (hextracted : c.xml.thinkingExtracted = true) :
    ∃ s' : Slot, s'.IsText ∧ Inv env marks (emitRemainingText env c) s' := by
  have hcleared : Core env marks { c with xml := { c.xml with thinkingBuffer := [] } } s :=
    { h with tool_quiet := fun heq => absurd heq hs.ne_tool }
  obtain ⟨s', hs', hcore⟩ := hcleared.createTextDeltaEvents
    ⟨hs, h.segment_closed hseen, fun _ _ => hin⟩ c.xml.thinkingBuffer
  obtain ⟨path, sanitizer, hstep⟩ := textStep_createTextDeltaEvents env
    c.xml.thinkingBuffer { c with xml := { c.xml with thinkingBuffer := [] } }
  refine ⟨s', hs', ?_⟩
  unfold Context.emitRemainingText
  rw [hstep] at hcore ⊢
  refine { hcore with undecided := fun hund => ?_, buffer_empty := fun _ _ => rfl }
  rcases hund.2.2 with hin' | hext
  · exact absurd (hin'.symm.trans hin) (by decide)
  · exact absurd (hext.symm.trans hextracted) (by decide)

theorem Core.stripLeadingNewline (h : Core env marks c s) (hs : s ≠ .tool) :
    Core env marks c.stripLeadingNewline s := by
  unfold Context.stripLeadingNewline
  split_ifs
  · split
    · exact h
    · exact { h with tool_quiet := fun heq => absurd heq hs }
  · exact h

theorem stripLeadingNewline_eq (c : Context σ) : ∃ buffer strip, c.stripLeadingNewline =
    { c with xml := { c.xml with
      thinkingBuffer := buffer, stripThinkingLeadingNewline := strip } } := by
  unfold stripLeadingNewline
  split_ifs
  · split
    · exact ⟨_, _, rfl⟩
    · exact ⟨_, _, rfl⟩
  · exact ⟨_, _, rfl⟩

theorem Core.finishXmlThinking (h : Core env marks c s) (hr : XmlReady env c s)
    (thinking : List Char) : Core env marks (finishXmlThinking env thinking c) .idle := by
  unfold Context.finishXmlThinking
  have hpush := h.pushXmlThinkingDelta hr thinking
  have hslot : (if thinking = [] then s else Slot.xml) = .idle ∨
      (if thinking = [] then s else Slot.xml) = .xml := by
    split_ifs
    · exact hr.slot
    · exact .inr rfl
  have hclose := hpush.closeXmlThinkingBlock hslot
  dsimp only
  rw [closeXmlThinkingBlock_with_flags]
  exact { hclose with
    xml_open := fun heq => by cases heq
    thinking_text := fun _ _ _ => by decide }

theorem finishXmlThinking_eq (env : Environment σ) (thinking : List Char) (c : Context σ) :
    ∃ out sanitizer content index, finishXmlThinking env thinking c = { c with
      path := ⟨out, c.text⟩
      thinkingTranscriptSanitizer := sanitizer
      xml := { c.xml with
        xmlThinkingContent := content
        thinkingBlockIndex := index
        inThinkingBlock := false
        thinkingExtracted := true } } := by
  unfold finishXmlThinking
  dsimp only
  rw [closeXmlThinkingBlock_with_flags]
  obtain ⟨_, _, _, _, heq⟩ :=
    (xmlStep_pushXmlThinkingDelta env thinking c).trans (xmlStep_closeXmlThinkingBlock env _)
  rw [heq]
  exact ⟨_, _, _, _, rfl⟩

theorem Core.with_buffer (h : Core env marks c s) (hs : s ≠ .tool) (buffer : List Char) :
    Core env marks { c with xml := { c.xml with thinkingBuffer := buffer } } s :=
  { h with tool_quiet := fun heq => absurd heq hs }

theorem Core.with_decided (h : Core env marks c s) (hs : s ≠ .tool) (buffer : List Char) :
    Core env marks { c with xml := { c.xml with
      thinkingBuffer := buffer, thinkingExtracted := true } } s :=
  { h with tool_quiet := fun heq => absurd heq hs }

theorem XmlReady.stripLeadingNewline (h : XmlReady env c s) :
    XmlReady env c.stripLeadingNewline s := by
  obtain ⟨_, _, heq⟩ := stripLeadingNewline_eq c
  rw [heq]
  exact ⟨h.slot, h.enabled, h.unseen, h.inside⟩

theorem XmlReady.ne_tool (h : XmlReady env c s) : s ≠ .tool := by
  rcases h.slot with rfl | rfl
  · decide
  · decide

theorem XmlReady.ne_native (h : XmlReady env c s) : s ≠ .native := by
  rcases h.slot with rfl | rfl
  · decide
  · decide

theorem Core.inv_of_inside (h : Core env marks c s)
    (hsettled : env.sanitizer.Settled c.toolTranscriptSanitizer) (hxml : env.xmlThinking = true)
    (hin : c.xml.inThinkingBlock = true) : Inv env marks c s :=
  { h with
    undecided := fun _ => hsettled
    buffer_empty := fun _ hdone => absurd (hin.symm.trans (hdone hxml).1) (by decide) }

/-- Thinking without an end tag: the end of the text stays in the buffer. -/
theorem Core.emitSafeThinking (h : Core env marks c s) (hr : XmlReady env c s)
    (hsettled : env.sanitizer.Settled c.toolTranscriptSanitizer) :
    ∃ s' : Slot, s' ≠ .native ∧ s' ≠ .tool ∧ Inv env marks (emitSafeThinking env c) s' ∧
      (s' = .xml → c.xml.thinkingBuffer ≠ [] →
        (Context.emitSafeThinking env c).xml.thinkingBuffer ≠ []) ∧
      (c.xml.thinkingBuffer = [] → (Context.emitSafeThinking env c).path = c.path) ∧
      (Context.emitSafeThinking env c).xml.inThinkingBlock = true := by
  unfold Context.emitSafeThinking
  dsimp only
  split_ifs with hempty
  · exact ⟨s, hr.ne_native, hr.ne_tool, h.inv_of_inside hsettled hr.enabled hr.inside,
      fun _ hne => hne, fun _ => rfl, hr.inside⟩
  · have hbuffer : c.xml.thinkingBuffer ≠ [] := by
      intro heq
      rw [heq, List.take_nil] at hempty
      exact hempty rfl
    generalize hlength : findCharBoundary c.xml.thinkingBuffer
      (utf8Length c.xml.thinkingBuffer - (utf8Length c.thinkingTag.closeTag + 2)) = length
    rw [hlength] at hempty
    have hchar : Core env marks { c with xml := { c.xml with
        lastXmlThinkingChar := (c.xml.thinkingBuffer.take length).getLast? } } s := { h with }
    have hpush := hchar.pushXmlThinkingDelta ⟨hr.slot, hr.enabled, hr.unseen, hr.inside⟩
      (c.xml.thinkingBuffer.take length)
    rw [if_neg hempty] at hpush
    obtain ⟨_, _, _, _, hframe⟩ := xmlStep_pushXmlThinkingDelta env
      (c.xml.thinkingBuffer.take length) { c with xml := { c.xml with
        lastXmlThinkingChar := (c.xml.thinkingBuffer.take length).getLast? } }
    have hinside : (Context.pushXmlThinkingDelta env (c.xml.thinkingBuffer.take length) { c with
        xml := { c.xml with lastXmlThinkingChar :=
          (c.xml.thinkingBuffer.take length).getLast? } }).xml.inThinkingBlock = true := by
      rw [hframe]
      exact hr.inside
    refine ⟨.xml, by decide, by decide, (hpush.with_buffer (by decide) _).inv_of_inside ?_
      hr.enabled hinside, fun _ _ hdrop => ?_, fun heq => absurd heq hbuffer, hinside⟩
    · rw [hframe]
      exact hsettled
    · have hlt : length < c.xml.thinkingBuffer.length := by
        rw [← hlength]
        have hpos := utf8Length_pos hbuffer
        exact findCharBoundary_lt (by omega)
      exact absurd (List.drop_eq_nil_iff.mp hdrop) (not_le.mpr hlt)

/-- Text inside XML thinking: its block stays open, or the thinking ends and text follows. -/
theorem Core.continueThinking (h : Core env marks c s) (hr : XmlReady env c s)
    (hsettled : env.sanitizer.Settled c.toolTranscriptSanitizer) :
    ∃ s' : Slot, s' ≠ .native ∧ s' ≠ .tool ∧ Inv env marks (continueThinking env c) s' ∧
      (s' = .xml → c.stripLeadingNewline.xml.thinkingBuffer ≠ [] →
        (Context.continueThinking env c).xml.thinkingBuffer ≠ []) ∧
      (s' = .xml → c.stripLeadingNewline.xml.thinkingBuffer = [] →
        (Context.continueThinking env c).path = c.path) ∧
      ((Context.continueThinking env c).xml.inThinkingBlock = true ∨
        (Context.continueThinking env c).xml.thinkingExtracted = true) := by
  have hstrip := h.stripLeadingNewline hr.ne_tool
  have hready := hr.stripLeadingNewline
  have hsettled' : env.sanitizer.Settled c.stripLeadingNewline.toolTranscriptSanitizer := by
    obtain ⟨_, _, heq⟩ := stripLeadingNewline_eq c
    rw [heq]
    exact hsettled
  have hpath : c.stripLeadingNewline.path = c.path := by
    obtain ⟨_, _, heq⟩ := stripLeadingNewline_eq c
    rw [heq]
  unfold Context.continueThinking
  generalize c.stripLeadingNewline = c₁ at hstrip hready hsettled' hpath ⊢
  dsimp only
  split
  · next stop separator hend =>
    have hfinish := hstrip.finishXmlThinking hready (c₁.xml.thinkingBuffer.take stop)
    obtain ⟨_, _, _, _, hframe⟩ := finishXmlThinking_eq env (c₁.xml.thinkingBuffer.take stop) c₁
    obtain ⟨s', hs', hinv⟩ := (hfinish.with_buffer (by decide) (c₁.xml.thinkingBuffer.drop
      (stop + c₁.thinkingTag.closeTag.length + separator))).emitRemainingText (.inl rfl)
      (by rw [hframe]; exact hready.unseen) (by rw [hframe]) (by rw [hframe])
    refine ⟨s', hs'.ne_native, hs'.ne_tool, hinv, fun heq => absurd heq hs'.ne_xml,
      fun heq => absurd heq hs'.ne_xml, .inr ?_⟩
    rw [thinkingExtracted_emitRemainingText, hframe]
  · obtain ⟨s', hnative, htool, hinv, hbuffer, hkept, hinside⟩ :=
      hstrip.emitSafeThinking hready hsettled'
    exact ⟨s', hnative, htool, hinv, hbuffer, fun _ heq => (hkept heq).trans hpath,
      .inl hinside⟩

/-- A start tag is found only where the response begins: after blank text, with no text block
open. -/
def TagAtStart (env : Environment σ) (c : Context σ) (buffer : List Char) : Prop :=
  ∀ start tag, env.findRealThinkingStartTagWithVariant buffer = some (start, tag) →
    isBlank (buffer.take start) = true ∧ ∀ i, c.manager.isBlockOpenOfType i .text = false

def Keeps (env : Environment σ) (buffer : List Char) : Prop :=
  env.findRealThinkingStartTagWithVariant buffer = none ∧ releasedLength env buffer = 0

/-- The text may still begin with a start tag. -/
structure TagReady (env : Environment σ) (c : Context σ) (s : Slot) : Prop where
  slot : s.IsText
  enabled : env.xmlThinking = true
  unseen : c.native.seen = false
  outside : c.xml.inThinkingBlock = false

theorem Core.startThinking (h : Core env marks c .idle) (hr : TagReady env c .idle)
    (hsettled : env.sanitizer.Settled c.toolTranscriptSanitizer) {start : ℕ}
    (hblank : isBlank (c.xml.thinkingBuffer.take start) = true) (tag : ThinkingXmlTag) :
    Core env marks (startThinking env start tag c) .xml ∧
      XmlReady env (Context.startThinking env start tag c) .xml ∧
      env.sanitizer.Settled (Context.startThinking env start tag c).toolTranscriptSanitizer := by
  unfold Context.startThinking
  simp only [if_pos hblank, flushTextSegment_of_settled hsettled]
  have hflushed : Core env marks { c with
      toolTranscriptSanitizer := (env.sanitizer.finishSegment c.toolTranscriptSanitizer).2
      xml := { c.xml with
        inThinkingBlock := true
        stripThinkingLeadingNewline := true
        currentThinkingTag := some tag
        lastXmlThinkingChar := none
        thinkingBuffer := c.xml.thinkingBuffer.drop (start + tag.openTag.length) } } .idle :=
    { h.with_settled (settled_finishSegment _) with
      xml_open := fun heq => by cases heq
      thinking_text := fun _ _ _ => by decide
      tool_quiet := fun heq => by cases heq }
  exact ⟨hflushed.startXmlThinkingBlock ⟨.inl rfl, hr.enabled, hr.unseen, rfl⟩,
    ⟨.inr rfl, hr.enabled, hr.unseen, rfl⟩, settled_finishSegment _⟩

/-- Text that may begin with thinking: it is kept, or the response is decided. -/
theorem Core.detectThinking (h : Core env marks c s) (hr : TagReady env c s)
    (hsettled : env.sanitizer.Settled c.toolTranscriptSanitizer)
    (hextracted : c.xml.thinkingExtracted = false) (htag : TagAtStart env c c.xml.thinkingBuffer) :
    ∃ s' : Slot, s' ≠ .native ∧ s' ≠ .tool ∧ Inv env marks (detectThinking env c) s' ∧
      (Context.detectThinking env c = c ∧ Keeps env c.xml.thinkingBuffer ∨
        (Context.detectThinking env c).xml.inThinkingBlock = true ∨
        (Context.detectThinking env c).xml.thinkingExtracted = true) ∧
      (env.findRealThinkingStartTagWithVariant c.xml.thinkingBuffer = none → s'.IsText) := by
  unfold Context.detectThinking
  dsimp only
  split
  · next start tag hstart =>
    obtain ⟨hblank, hclosed⟩ := htag start tag hstart
    have hidle : s = .idle := by
      refine hr.slot.resolve_right fun heq => ?_
      subst heq
      obtain ⟨i, hserial, -⟩ := h.holds
      exact absurd ((hserial.isOpen_iff i .text).mpr rfl) (by rw [hclosed i]; decide)
    subst hidle
    obtain ⟨hcore, hready, hsettled'⟩ := h.startThinking hr hsettled hblank tag
    obtain ⟨s', hnative, htool, hinv, -, -, hdecided⟩ := hcore.continueThinking hready hsettled'
    refine ⟨s', hnative, htool, hinv, .inr hdecided, fun hnone => ?_⟩
    rw [hstart] at hnone
    cases hnone
  · split_ifs with hreleased
    · refine ⟨s, hr.slot.ne_native, hr.slot.ne_tool, { h with
        undecided := fun _ => hsettled
        buffer_empty := fun _ hdone => ?_ }, .inl ⟨rfl, by assumption, hreleased⟩,
        fun _ => hr.slot⟩
      exact absurd (hextracted.symm.trans (hdone hr.enabled).2) (by decide)
    · obtain ⟨s₁, hs₁, htext⟩ := h.createTextDeltaEvents
        ⟨hr.slot, h.segment_closed hr.unseen, fun _ _ => hr.outside⟩
        (c.xml.thinkingBuffer.take (releasedLength env c.xml.thinkingBuffer))
      obtain ⟨hxml, hnative, -⟩ := (textStep_createTextDeltaEvents env
        (c.xml.thinkingBuffer.take (releasedLength env c.xml.thinkingBuffer)) c).frame
      obtain ⟨s', hs', hinv⟩ := (htext.with_decided hs₁.ne_tool
        (c.xml.thinkingBuffer.drop (releasedLength env c.xml.thinkingBuffer))).emitRemainingText
        hs₁ (by rw [hnative]; exact hr.unseen) (by rw [hxml]; exact hr.outside) rfl
      refine ⟨s', hs'.ne_native, hs'.ne_tool, hinv, .inr (.inr ?_), fun _ => hs'⟩
      exact thinkingExtracted_emitRemainingText env _

def extendBuffer (content : List Char) (c : Context σ) : Context σ :=
  { c with xml := { c.xml with thinkingBuffer := c.xml.thinkingBuffer ++ content } }

theorem Core.xmlReady (h : Core env marks c s) (hxml : env.xmlThinking = true)
    (hseen : c.native.seen = false) (hs : s ≠ .tool) (hin : c.xml.inThinkingBlock = true) :
    XmlReady env c s := by
  refine ⟨?_, hxml, hseen, hin⟩
  cases s with
  | idle => exact .inl rfl
  | text => exact absurd rfl (h.thinking_text hxml hseen hin)
  | xml => exact .inr rfl
  | native => exact absurd (h.segment_seen (h.native_open rfl)) (by rw [hseen]; decide)
  | tool => exact absurd rfl hs

theorem Core.isText (h : Core env marks c s) (hseen : c.native.seen = false) (hs : s ≠ .tool)
    (hin : c.xml.inThinkingBlock = false) : s.IsText := by
  cases s with
  | idle => exact .inl rfl
  | text => exact .inr rfl
  | xml => exact absurd (h.xml_open rfl).2.2 (by rw [hin]; decide)
  | native => exact absurd (h.segment_seen (h.native_open rfl)) (by rw [hseen]; decide)
  | tool => exact absurd rfl hs

/-- What an event of text leaves. -/
structure AfterText (env : Environment σ) (marks : Marks) (content : List Char)
    (c c' : Context σ) (s' : Slot) : Prop extends Inv env marks c' s' where
  ne_native : s' ≠ .native
  ne_tool : s' ≠ .tool
  /-- Nothing was sent if the response can still begin with thinking. -/
  kept : env.xmlThinking = true → c'.native.seen = false → c'.xml.inThinkingBlock = false →
    c'.xml.thinkingExtracted = false → c' = extendBuffer content c ∧
      Keeps env (c.xml.thinkingBuffer ++ content)
  /-- An open thinking block has text in the buffer, unless it has just begun. -/
  thinking : s' = .xml → if c.xml.inThinkingBlock then
      ((extendBuffer content c).stripLeadingNewline.xml.thinkingBuffer ≠ [] →
        c'.xml.thinkingBuffer ≠ []) ∧
      ((extendBuffer content c).stripLeadingNewline.xml.thinkingBuffer = [] → c'.path = c.path)
    else c.xml.thinkingExtracted = false ∧
      env.findRealThinkingStartTagWithVariant (c.xml.thinkingBuffer ++ content) ≠ none

theorem Inv.processContentWithThinking (h : Inv env marks c s) (hxml : env.xmlThinking = true)
    (hseen : c.native.seen = false) (hs : s ≠ .tool) {content : List Char}
    (htag : c.xml.inThinkingBlock = false → c.xml.thinkingExtracted = false →
      TagAtStart env c (c.xml.thinkingBuffer ++ content)) :
    ∃ s', AfterText env marks content c (processContentWithThinking env content c) s' := by
  have hcore : Core env marks (extendBuffer content c) s := h.toCore.with_buffer hs _
  unfold Context.processContentWithThinking
  change ∃ s', AfterText env marks content c (if c.xml.inThinkingBlock = true then
    Context.continueThinking env (extendBuffer content c) else if c.xml.thinkingExtracted = true
    then Context.emitRemainingText env (extendBuffer content c)
    else Context.detectThinking env (extendBuffer content c)) s'
  cases hin : c.xml.inThinkingBlock with
  | true =>
    obtain ⟨s', hnative, htool, hinv, hbuffer, hkept, hdecided⟩ := hcore.continueThinking
      (hcore.xmlReady hxml hseen hs hin) (h.undecided ⟨hxml, hseen, .inl hin⟩)
    refine ⟨s', hinv, hnative, htool, fun _ _ hin' hext' => ?_, fun heq => ?_⟩
    · rcases hdecided with hdecided | hdecided
      · exact absurd (hdecided.symm.trans hin') (by decide)
      · exact absurd (hdecided.symm.trans hext') (by decide)
    · rw [hin]
      exact ⟨hbuffer heq, hkept heq⟩
  | false =>
    have htext := hcore.isText hseen hs hin
    cases hext : c.xml.thinkingExtracted with
    | true =>
      obtain ⟨s', hs', hinv⟩ := hcore.emitRemainingText htext hseen hin hext
      refine ⟨s', hinv, hs'.ne_native, hs'.ne_tool, fun _ _ _ hext' => ?_,
        fun heq => absurd heq hs'.ne_xml⟩
      have hkeep := thinkingExtracted_emitRemainingText env (extendBuffer content c)
      exact absurd (hext'.symm.trans (hkeep.trans hext)) (by decide)
    | false =>
      obtain ⟨s', hnative, htool, hinv, hdecided, hnone⟩ := hcore.detectThinking
        ⟨htext, hxml, hseen, hin⟩ (h.undecided ⟨hxml, hseen, .inr hext⟩) hext (htag hin hext)
      refine ⟨s', hinv, hnative, htool, fun _ _ hin' hext' => ?_, fun heq => ?_⟩
      · rcases hdecided with hkept | hdecided | hdecided
        · exact hkept
        · exact absurd (hdecided.symm.trans hin') (by decide)
        · exact absurd (hdecided.symm.trans hext') (by decide)
      · rw [hin]
        exact ⟨hext, fun hnone' => absurd heq (hnone hnone').ne_xml⟩

end KiroProxy.Stream.Context
