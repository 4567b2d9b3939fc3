import KiroProxy.ConversationHistory.Build

/-!
# What the merge of messages keeps

The messages of one turn are joined in their order. A user turn has all their texts. An
assistant turn has them too, unless its transcript sanitizer finds a leaked transcript.
-/

namespace KiroProxy.ConversationHistory

open Json PayloadGuard TranscriptSanitizer Transition
open Converter (ConversionError ToolNameMap)

/-- What remains of a text in a turn, where blank texts are left out. -/
def spoken (text : List Char) : List Char := if isBlank text then [] else text

theorem isBlank_of_sublist {text content : List Char} (h : text.Sublist content)
    (hcontent : isBlank content = true) : isBlank text = true := by
  unfold isBlank at hcontent ⊢
  rw [List.all_eq_true] at hcontent ⊢
  exact fun ch hch => hcontent ch (h.subset hch)

theorem spoken_sublist (text : List Char) : (spoken text).Sublist text := by
  unfold spoken
  split_ifs
  · exact List.nil_sublist _
  · exact .refl _

theorem spoken_mono {text content : List Char} (h : text.Sublist content) :
    (spoken text).Sublist (spoken content) := by
  unfold spoken
  split_ifs with htext hcontent hcontent
  · exact .refl _
  · exact List.nil_sublist _
  · exact absurd (isBlank_of_sublist h hcontent) htext
  · exact h

theorem flatMap_spoken_eq_nil {α : Type*} (text : α → List Char) {items : List α}
    {content : List Char} (h : (items.flatMap fun item => spoken (text item)).Sublist content)
    (hblank : isBlank content = true) : (items.flatMap fun item => spoken (text item)) = [] := by
  have hblank' := isBlank_of_sublist h hblank
  rw [List.flatMap_eq_nil_iff]
  intro item hitem
  have hpart : (spoken (text item)).Sublist (items.flatMap fun item => spoken (text item)) := by
    obtain ⟨before, after, rfl⟩ := List.append_of_mem hitem
    rw [List.flatMap_append, List.flatMap_cons]
    exact (List.sublist_append_left _ _).trans (List.sublist_append_right _ _)
  have hspoken := isBlank_of_sublist hpart hblank'
  unfold spoken at hspoken ⊢
  split_ifs at hspoken ⊢ with h
  · rfl
  · exact absurd hspoken h

theorem flatten_sublist_intercalate (separator : List Char) (parts : List (List Char)) :
    parts.flatten.Sublist (separator.intercalate parts) := by
  induction parts with
  | nil => exact .refl _
  | cons part parts ih =>
    cases parts with
    | nil => simp
    | cons next parts =>
      rw [List.flatten_cons, List.intercalate_cons_cons, List.append_assoc]
      exact (ih.trans (List.sublist_append_right separator _)).append_left part

variable {readers : Readers} {options : Options}

theorem joinUserTexts_ne_empty (texts : List String) (hasToolResults : Bool) :
    joinUserTexts texts hasToolResults ≠ "" := by
  unfold joinUserTexts
  dsimp only
  split_ifs with hblank
  · decide
  · decide
  · rintro hempty
    rw [hempty] at hblank
    exact hblank rfl

theorem spoken_sublist_joinUserTexts (texts : List String) (hasToolResults : Bool) :
    (texts.flatMap fun text => spoken text.toList).Sublist
      (joinUserTexts texts hasToolResults).toList := by
  have hall : (texts.flatMap fun text => spoken text.toList).Sublist
      ("\n".intercalate (texts.filter (· ≠ ""))).toList := by
    rw [String.toList_intercalate]
    refine List.Sublist.trans ?_ (flatten_sublist_intercalate _ _)
    induction texts with
    | nil => exact .refl _
    | cons text texts ih =>
      rw [List.flatMap_cons, List.filter_cons]
      split_ifs with hempty
      · rw [List.map_cons, List.flatten_cons]
        exact (spoken_sublist _).append ih
      · rw [decide_eq_true_eq, not_not] at hempty
        subst hempty
        exact ih
  unfold joinUserTexts
  dsimp only
  split
  · next hblank =>
    rw [flatMap_spoken_eq_nil String.toList hall hblank]
    exact List.nil_sublist _
  · exact hall

/-- The text of a message, unless it is blank. -/
def spokenText (readers : Readers) (message : AnthropicMessage) : List Char :=
  spoken (contentText readers message.content)

variable {item : Json} {block : ContentBlock}

theorem blockText_sublist (h : ContentBlock.fromValue item = some block) :
    (blockText readers item).Sublist (block.text.getD "").toList := by
  unfold blockText
  split_ifs
  · exact List.nil_sublist _
  · rw [h]
    split
    · next hblock =>
      cases hblock
      split_ifs
      · exact .refl _
      · exact List.nil_sublist _
    · exact List.nil_sublist _

theorem blockText_of_ne (h : ContentBlock.fromValue item = some block)
    (hne : block.blockType ≠ "text") : blockText readers item = [] := by
  unfold blockText
  rw [h]
  split_ifs
  · rfl
  · split
    · next hblock =>
      cases hblock
      exact if_neg hne
    · rfl

theorem blockText_of_none (h : ContentBlock.fromValue item = none) :
    blockText readers item = [] := by
  unfold blockText
  rw [h]
  split_ifs
  · rfl
  · split
    · next hblock => cases hblock
    · rfl

theorem blockText_of_rendered {text : String} (h : readers.renderServerToolBlock item = some text) :
    blockText readers item = [] := by
  unfold blockText
  rw [h]
  split_ifs
  · rfl
  · rfl

theorem ContentBlock.type_of_ofFields {field : String → Option Json}
    (h : ContentBlock.ofFields field = some block) :
    (field "type").bind asStr = some block.blockType := by
  unfold ContentBlock.ofFields at h
  obtain ⟨blockType, htype, h⟩ := Option.bind_eq_some_iff.mp h
  -- The other fields are read without a look at the type.
  iterate 11 obtain ⟨_, -, h⟩ := Option.bind_eq_some_iff.mp h
  obtain rfl := Option.some.inj h
  exact htype

theorem blockText_of_type {blockType : String} (h : getStr "type" item = some blockType)
    (hne : blockType ≠ "text") : blockText readers item = [] := by
  cases hblock : ContentBlock.fromValue item with
  | none => exact blockText_of_none hblock
  | some block =>
    refine blockText_of_ne hblock ?_
    cases item with
    | obj fields =>
      have htype : some blockType = some block.blockType :=
        h.symm.trans (ContentBlock.type_of_ofFields hblock)
      exact Option.some.inj htype ▸ hne
    | _ => cases h

namespace UserContent

variable {scan scan' : UserContent} {mode : UserImageMode}

theorem addResultImages_texts (images : List KiroImage) (omitted : List String) :
    (scan.addResultImages readers images omitted).1.texts = scan.texts := by
  induction images generalizing scan omitted with
  | nil => rfl
  | cons image images ih =>
    unfold addResultImages
    dsimp only
    split_ifs
    · exact ih _
    · exact ih _

theorem addImageBlock_texts {block : ContentBlock}
    (h : scan.addImageBlock readers mode block = .ok scan') :
    ∃ added, scan'.texts = scan.texts ++ added := by
  unfold addImageBlock at h
  split at h
  · cases h
  · split at h
    · cases h
      exact ⟨_, rfl⟩
    · split at h
      · cases h
        unfold addImage
        dsimp only
        split_ifs
        · exact ⟨[], (List.append_nil _).symm⟩
        · exact ⟨_, rfl⟩
      · split_ifs at h
        cases h
        exact ⟨_, rfl⟩

theorem addToolResult_texts (block : ContentBlock) :
    (scan.addToolResult readers block).texts = scan.texts := by
  unfold addToolResult
  split
  · rfl
  · exact addResultImages_texts _ _

/-- A block adds to the texts, and the text of a text block is added unchanged. -/
theorem addBlock_texts {item : Json} (h : scan.addBlock readers mode item = .ok scan') :
    ∃ added, scan'.texts = scan.texts ++ added ∧
      (blockText readers item).Sublist (added.flatMap String.toList) := by
  unfold addBlock at h
  split_ifs at h with hdocument
  · obtain ⟨text, -, h⟩ := exists_of_bind_eq_ok h
    cases h
    rw [blockText_of_type hdocument (by decide)]
    split_ifs
    · exact ⟨[], (List.append_nil _).symm, List.nil_sublist _⟩
    · exact ⟨_, rfl, List.nil_sublist _⟩
  · split at h
    · next rendered hrender =>
      cases h
      rw [blockText_of_rendered hrender]
      exact ⟨_, rfl, List.nil_sublist _⟩
    · split at h
      · next hblock =>
        cases h
        rw [blockText_of_none hblock]
        exact ⟨[], (List.append_nil _).symm, List.nil_sublist _⟩
      · next block hblock =>
        split_ifs at h with htext himage hresult
        · cases h
          refine ⟨_, rfl, (blockText_sublist hblock).trans ?_⟩
          cases block.text with
          | none => exact List.nil_sublist _
          | some text => simp
        · rw [blockText_of_ne hblock htext]
          obtain ⟨added, hadded⟩ := addImageBlock_texts h
          exact ⟨added, hadded, List.nil_sublist _⟩
        · cases h
          rw [blockText_of_ne hblock htext]
          exact ⟨[], by rw [addToolResult_texts, List.append_nil], List.nil_sublist _⟩
        · cases h
          rw [blockText_of_ne hblock htext]
          exact ⟨[], (List.append_nil _).symm, List.nil_sublist _⟩

theorem addBlocks_texts {items : List Json}
    (h : items.foldlM (fun scan item => scan.addBlock readers mode item) scan = .ok scan') :
    ∃ added, scan'.texts = scan.texts ++ added ∧
      (items.flatMap (blockText readers)).Sublist (added.flatMap String.toList) := by
  induction items generalizing scan with
  | nil =>
    cases h
    exact ⟨[], (List.append_nil _).symm, .refl _⟩
  | cons item items ih =>
    rw [List.foldlM_cons] at h
    obtain ⟨next, hfirst, hrest⟩ := exists_of_bind_eq_ok h
    obtain ⟨added, hadded, hsub⟩ := addBlock_texts hfirst
    obtain ⟨added', hadded', hsub'⟩ := ih hrest
    refine ⟨added ++ added', ?_, ?_⟩
    · rw [hadded', hadded, List.append_assoc]
    · rw [List.flatMap_cons, List.flatMap_append]
      exact hsub.append hsub'

end UserContent

theorem contentText_sublist_text {mode : UserImageMode} {seenImages : Option SeenHistoryImages}
    {content : Json} {scan : UserContent}
    (h : processMessageContent readers mode seenImages content = .ok scan) :
    (contentText readers content).Sublist scan.text.toList := by
  unfold UserContent.text
  rw [String.toList_intercalate]
  refine List.Sublist.trans ?_ (flatten_sublist_intercalate _ _)
  rw [← List.flatMap_def]
  cases content with
  | str s =>
    cases h
    simp [contentText]
  | arr items =>
    obtain ⟨added, hadded, hsub⟩ := UserContent.addBlocks_texts h
    rw [hadded, List.nil_append]
    exact hsub
  | _ =>
    cases h
    exact .refl _

theorem spokenText_sublist_processMessages {seenImages seenImages' : Option SeenHistoryImages}
    {messages : List AnthropicMessage} {contents : List UserContent}
    (h : processMessages readers seenImages messages = .ok (contents, seenImages')) :
    (messages.flatMap (spokenText readers)).Sublist
      ((contents.map UserContent.text).flatMap fun text => spoken text.toList) := by
  induction messages generalizing seenImages contents with
  | nil =>
    cases h
    exact .refl _
  | cons message messages ih =>
    obtain ⟨content, hcontent, h⟩ := exists_of_bind_eq_ok h
    obtain ⟨⟨rest, last⟩, hrest, h⟩ := exists_of_bind_eq_ok h
    cases h
    rw [List.flatMap_cons, List.map_cons, List.flatMap_cons]
    exact (spoken_mono (contentText_sublist_text hcontent)).append (ih hrest)

theorem mergeUserMessages_spec {seenImages seenImages' : Option SeenHistoryImages}
    {messages : List AnthropicMessage} {user : UserMessage}
    (h : mergeUserMessages readers seenImages messages = .ok (user, seenImages')) :
    user.content ≠ "" ∧ (messages.flatMap (spokenText readers)).Sublist user.content.toList := by
  obtain ⟨⟨contents, last⟩, hcontents, h⟩ := exists_of_bind_eq_ok h
  cases h
  exact ⟨joinUserTexts_ne_empty _ _, (spokenText_sublist_processMessages hcontents).trans
    (spoken_sublist_joinUserTexts _ _)⟩

namespace JoinScan

variable {scan : JoinScan} {text : List Char} {knownToolNames : List String}

/-- All of a text is in the scan, in its order, unless something was suppressed. -/
structure Carries (scan : JoinScan) (text : List Char) : Prop where
  sound : scan.sanitizer.Sound
  carried : scan.suppressedBlocks = 0 → scan.sanitizer.suppressedBlocks = 0 →
    scan.sanitizer.state ≠ .dropUntilBoundary ∧
      text.Sublist (scan.sanitized ++ scan.sanitizer.held)

theorem Carries.of_sublist {text' : List Char} (h : scan.Carries text) (hsub : text'.Sublist text) :
    scan.Carries text' where
  sound := h.sound
  carried hblocks hzero := (h.carried hblocks hzero).imp_right hsub.trans

theorem Carries.push (h : scan.Carries text) (chunk : List Char) :
    (scan.push chunk).Carries (text ++ chunk) := by
  have hkept := ToolTranscriptSanitizer.push_kept h.sound chunk
  refine ⟨hkept.sound, fun hblocks hzero => ?_⟩
  obtain ⟨hstate, hsub⟩ := h.carried hblocks (hkept.suppressed hzero)
  obtain ⟨hall, hstate'⟩ := hkept.all hzero hstate
  refine ⟨hstate', ?_⟩
  dsimp only [JoinScan.push]
  rw [List.append_assoc, hall, ← List.append_assoc]
  exact hsub.append_right chunk

theorem Carries.emit (h : scan.Carries text) (hheld : scan.sanitizer.held = [])
    (chunk : List Char) : (scan.emit chunk).Carries (text ++ chunk) := by
  refine ⟨h.sound, fun hblocks hzero => ?_⟩
  obtain ⟨hstate, hsub⟩ := h.carried hblocks hzero
  refine ⟨hstate, ?_⟩
  dsimp only [JoinScan.emit]
  rw [hheld, List.append_nil] at hsub ⊢
  exact hsub.append_right chunk

theorem Carries.finish (h : scan.Carries text) (hblocks : scan.finish.suppressedBlocks = 0) :
    text.Sublist scan.finish.sanitized := by
  obtain ⟨hkept, hheld⟩ := ToolTranscriptSanitizer.finishSegment_kept h.sound
  have hsum : min (scan.suppressedBlocks + scan.sanitizer.finishSegment.1.suppressedBlocks)
      (2 ^ 32 - 1) = 0 := hblocks
  have hzero : scan.sanitizer.finishSegment.1.suppressedBlocks = 0 := by omega
  obtain ⟨hstate, hsub⟩ := h.carried (by omega) (hkept.suppressed hzero)
  obtain ⟨hall, -⟩ := hkept.all hzero hstate
  rw [hheld, List.append_nil, List.append_nil] at hall
  rw [← hall] at hsub
  exact hsub

theorem Carries.restart (h : scan.Carries text) :
    ({ scan.finish with sanitizer := .new readers.sha256 knownToolNames } : JoinScan).Carries
      text := by
  refine ⟨ToolTranscriptSanitizer.sound_new _ _, fun hblocks _ => ⟨nofun, ?_⟩⟩
  exact (h.finish hblocks).trans (List.sublist_append_left _ _)

theorem Carries.addPart (h : scan.Carries text) (first : Bool) (part : List Char × Option ℕ) :
    (scan.addPart readers knownToolNames first part).Carries (text ++ part.1) := by
  obtain ⟨part, thinking⟩ := part
  cases thinking with
  | none =>
    unfold JoinScan.addPart
    dsimp only
    split_ifs
    · exact h.push part
    · refine ((h.push ['\n', '\n']).push part).of_sublist ?_
      exact (List.sublist_append_left _ _).append_right part
  | some prefixLen =>
    have hrestart := @Carries.restart readers scan text knownToolNames h
    unfold JoinScan.addPart
    dsimp only
    split_ifs
    · have hfull := (hrestart.emit rfl (part.take prefixLen)).push (part.drop prefixLen)
      rw [List.append_assoc, List.take_append_drop] at hfull
      exact hfull
    · have hfull := ((hrestart.emit rfl ['\n', '\n']).emit rfl (part.take prefixLen)).push
        (part.drop prefixLen)
      rw [List.append_assoc, List.take_append_drop] at hfull
      exact hfull.of_sublist ((List.sublist_append_left _ _).append_right part)

theorem Carries.addParts {parts : List (List Char × Option ℕ)} (h : scan.Carries text)
    (first : Bool) : (scan.addParts readers knownToolNames first parts).Carries
      (text ++ (parts.map Prod.fst).flatten) := by
  induction parts generalizing scan text first with
  | nil =>
    rw [List.map_nil, List.flatten_nil, List.append_nil]
    exact h
  | cons part parts ih =>
    rw [List.map_cons, List.flatten_cons, ← List.append_assoc]
    exact ih (h.addPart first part) false

end JoinScan

theorem sublist_joinAssistantParts (knownToolNames : List String)
    (parts : List (List Char × Option ℕ))
    (hblocks : (joinAssistantParts readers options knownToolNames parts).2.1 = 0) :
    (parts.map Prod.fst).flatten.Sublist
      (joinAssistantParts readers options knownToolNames parts).1 := by
  unfold joinAssistantParts at hblocks ⊢
  split_ifs at hblocks ⊢
  · exact flatten_sublist_intercalate _ _
  · have hstart : JoinScan.Carries ⟨[], .new readers.sha256 knownToolNames, 0, 0⟩ [] :=
      ⟨ToolTranscriptSanitizer.sound_new _ _, fun _ _ => ⟨nofun, List.nil_sublist _⟩⟩
    exact (hstart.addParts true).finish hblocks

variable {knownToolNames : List String} {toolNameMap : ToolNameMap} {before : ProxyWarnings}

namespace AssistantMerge

variable {merge merge' : AssistantMerge} {text : List Char} {message : AnthropicMessage}
  {messages : List AnthropicMessage}

/-- The parts have a text, unless a leak was counted since `before`. -/
structure Carries (before : ProxyWarnings) (merge : AssistantMerge) (text : List Char) : Prop where
  grows : before.Grows merge.warnings
  carried : before.Unchanged merge.warnings →
    text.Sublist (merge.contentParts.map Prod.fst).flatten

theorem Carries.add (h : Carries before merge text)
    (hadd : merge.add readers options knownToolNames message = .ok merge') :
    Carries before merge' (text ++ spokenText readers message) := by
  obtain ⟨converted, hconverted, hadd⟩ := exists_of_bind_eq_ok hadd
  obtain ⟨reasoning, -, hadd⟩ := exists_of_bind_eq_ok hadd
  cases hadd
  obtain ⟨hgrows, hcarried⟩ := convertAssistantMessage_spec hconverted
  refine ⟨h.grows.trans hgrows, fun hunchanged => ?_⟩
  obtain ⟨hbefore, hafter⟩ := hunchanged.split h.grows hgrows
  have hsub := hcarried hafter
  dsimp only
  split_ifs with hblank
  · rw [spokenText, spoken, if_pos (isBlank_of_sublist hsub hblank), List.append_nil]
    exact h.carried hbefore
  · rw [List.map_append, List.flatten_append, List.map_singleton, List.flatten_singleton]
    exact (h.carried hbefore).append ((spoken_sublist _).trans hsub)

theorem Carries.addAll (h : Carries before merge text)
    (hadd : messages.foldlM (fun (merge : AssistantMerge) message =>
      merge.add readers options knownToolNames message) merge = .ok merge') :
    Carries before merge' (text ++ messages.flatMap (spokenText readers)) := by
  induction messages generalizing merge text with
  | nil =>
    cases hadd
    rw [List.flatMap_nil, List.append_nil]
    exact h
  | cons message messages ih =>
    rw [List.foldlM_cons] at hadd
    obtain ⟨next, hfirst, hrest⟩ := exists_of_bind_eq_ok hadd
    rw [List.flatMap_cons, ← List.append_assoc]
    exact ih (h.add hfirst) hrest

theorem add_warnings (h : merge.add readers options knownToolNames message = .ok merge')
    (other : ProxyWarnings) :
    ∃ after, AssistantMerge.add readers options knownToolNames { merge with warnings := other }
      message = .ok { merge' with warnings := after } := by
  obtain ⟨converted, hconverted, h⟩ := exists_of_bind_eq_ok h
  obtain ⟨reasoning, hreasoning, h⟩ := exists_of_bind_eq_ok h
  cases h
  obtain ⟨after, hafter⟩ := convertAssistantMessage_warnings hconverted other
  refine ⟨after, ?_⟩
  unfold AssistantMerge.add
  dsimp only
  rw [hafter]
  change (setNativeReasoning _ _ >>= _) = _
  rw [hreasoning]
  rfl

theorem addAll_warnings (h : messages.foldlM (fun (merge : AssistantMerge) message =>
      merge.add readers options knownToolNames message) merge = .ok merge')
    (other : ProxyWarnings) :
    ∃ after, messages.foldlM (fun (merge : AssistantMerge) message =>
      merge.add readers options knownToolNames message) { merge with warnings := other } =
        .ok { merge' with warnings := after } := by
  induction messages generalizing merge other with
  | nil =>
    cases h
    exact ⟨other, rfl⟩
  | cons message messages ih =>
    rw [List.foldlM_cons] at h
    obtain ⟨next, hfirst, hrest⟩ := exists_of_bind_eq_ok h
    obtain ⟨after, hafter⟩ := add_warnings hfirst other
    obtain ⟨last, hlast⟩ := ih hrest after
    refine ⟨last, ?_⟩
    rw [List.foldlM_cons, hafter]
    exact hlast

end AssistantMerge

variable {messages : List AnthropicMessage} {merged : MergedAssistant}

theorem mergeAssistantMessages_warnings
    (h : mergeAssistantMessages readers options knownToolNames toolNameMap before messages =
      .ok merged) (other : ProxyWarnings) :
    ∃ after, mergeAssistantMessages readers options knownToolNames toolNameMap other messages =
      .ok { merged with warnings := after } := by
  obtain ⟨merge, hmerge, h⟩ := exists_of_bind_eq_ok h
  cases h
  obtain ⟨after, hafter⟩ := AssistantMerge.addAll_warnings hmerge other
  dsimp only at hafter
  unfold mergeAssistantMessages
  dsimp only
  rw [hafter]
  exact ⟨_, rfl⟩

theorem mergeAssistantMessages_spec
    (h : mergeAssistantMessages readers options knownToolNames toolNameMap before messages =
      .ok merged) :
    merged.message.content ≠ "" ∧
      (before.Unchanged merged.warnings →
        (messages.flatMap (spokenText readers)).Sublist merged.message.content.toList) := by
  obtain ⟨merge, hmerge, h⟩ := exists_of_bind_eq_ok h
  have hstart : AssistantMerge.Carries before ⟨[], none, [], toolNameMap, before⟩ [] :=
    ⟨.refl _, fun _ => List.nil_sublist _⟩
  have hcarries := hstart.addAll hmerge
  have hjoin := @sublist_joinAssistantParts readers options
    (knownToolNames ++ messages.flatMap toolUseNames ++ mapNames merge.toolNameMap)
    merge.contentParts
  dsimp only at h
  generalize joinAssistantParts readers options
    (knownToolNames ++ messages.flatMap toolUseNames ++ mapNames merge.toolNameMap)
    merge.contentParts = joined at h hjoin
  obtain ⟨content, blocks, chars⟩ := joined
  cases h
  refine ⟨?_, fun hunchanged => ?_⟩
  · dsimp only
    split_ifs with hblank
    · decide
    · rintro hempty
      have hnil : content = [] := by
        rw [← String.toList_ofList (l := content), hempty, String.toList_empty]
      rw [hnil] at hblank
      exact hblank rfl
  · obtain ⟨hfirst, hlast⟩ :=
      hunchanged.split hcarries.grows (ProxyWarnings.grows_record _ _ _)
    have hsub := (hcarries.carried hfirst).trans (hjoin hlast.eq_zero_of_record)
    dsimp only
    rw [String.toList_ofList]
    split_ifs with hblank
    · have hnil : messages.flatMap (spokenText readers) = [] :=
        flatMap_spoken_eq_nil (fun message : AnthropicMessage => contentText readers message.content)
          hsub hblank
      rw [hnil]
      exact List.nil_sublist _
    · exact hsub

end KiroProxy.ConversationHistory
