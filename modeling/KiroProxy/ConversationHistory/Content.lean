import KiroProxy.Converter.Tools
import KiroProxy.PayloadGuard.Repair
import KiroProxy.TranscriptSanitizer.Conservation
import KiroProxy.TranscriptSanitizer.History
import KiroProxy.Transition

/-!
# Conversion of single messages

The content of a user message gives text, images and tool results. That of an assistant
message gives thinking, text and tool calls; its text goes through a transcript sanitizer
unless the strict profile is selected. The readers of documents, images and blocks of
server tools are parameters.
-/

namespace KiroProxy.ConversationHistory

open Json PayloadGuard TranscriptSanitizer Transition
open Converter (ConversionError ToolNameMap)

structure ImageSource where
  sourceType : String
  mediaType : Option String
  data : Option String
  url : Option String
  fileId : Option String

structure ContentBlock where
  blockType : String
  text : Option String
  thinking : Option String
  signature : Option String
  data : Option String
  toolUseId : Option String
  content : Option Json
  name : Option String
  input : Option Json
  id : Option String
  isError : Option Bool
  source : Option ImageSource

def asBool : Json → Option Bool
  | .bool b => some b
  | _ => none

/-- An optional field: absent or null, or a value that must be readable. -/
def optionalField {α : Type} (read : Json → Option α) : Option Json → Option (Option α)
  | none | some .null => some none
  | some value => (read value).map some

def imageSourceFields : List String := ["type", "media_type", "data", "url", "file_id"]

def ImageSource.ofFields (field : String → Option Json) : Option ImageSource := do
  let sourceType ← (field "type").bind asStr
  let mediaType ← optionalField asStr (field "media_type")
  let data ← optionalField asStr (field "data")
  let url ← optionalField asStr (field "url")
  let fileId ← optionalField asStr (field "file_id")
  return ⟨sourceType, mediaType, data, url, fileId⟩

/-- The fields of a structure can also come as an array, in the order of their declaration. -/
def positional (names : List String) (items : List Json) (name : String) : Option Json :=
  (names.idxOf? name).bind fun idx => items[idx]?

def ImageSource.fromValue : Json → Option ImageSource
  | .obj fields => ofFields (getField fields)
  | .arr items =>
    if items.length ≤ imageSourceFields.length then ofFields (positional imageSourceFields items)
    else none
  | _ => none

def contentBlockFields : List String :=
  ["type", "text", "thinking", "signature", "data", "tool_use_id", "content", "name", "input", "id",
    "is_error", "source"]

def ContentBlock.ofFields (field : String → Option Json) : Option ContentBlock := do
  let blockType ← (field "type").bind asStr
  let text ← optionalField asStr (field "text")
  let thinking ← optionalField asStr (field "thinking")
  let signature ← optionalField asStr (field "signature")
  let data ← optionalField asStr (field "data")
  let toolUseId ← optionalField asStr (field "tool_use_id")
  let content ← optionalField some (field "content")
  let name ← optionalField asStr (field "name")
  let input ← optionalField some (field "input")
  let id ← optionalField asStr (field "id")
  let isError ← optionalField asBool (field "is_error")
  let source ← optionalField ImageSource.fromValue (field "source")
  return { blockType, text, thinking, signature, data, toolUseId, content, name, input, id,
           isError, source }

def ContentBlock.fromValue : Json → Option ContentBlock
  | .obj fields => ofFields (getField fields)
  | .arr items =>
    if items.length = contentBlockFields.length then ofFields (positional contentBlockFields items)
    else none
  | _ => none

/-- Readers of blocks, and the hash of a text. -/
structure Readers where
  documentBlockToText : Json → Except ConversionError String
  renderServerToolBlock : Json → Option String
  convertImageSource : ImageSource → Except ConversionError KiroImage
  parseDataUrl : String → Option (String × String)
  extractToolResultContent : Option Json → String
  /-- The images of a result, and the notes for those left out. -/
  extractToolResultImages : Option Json → List KiroImage × List String
  sanitizeToolUseId : String → Option String
  isSyntheticThinkingSignature : String → Bool
  sha256 : String → Digest

structure Options where
  /-- The profile `AnthropicStrict`. -/
  strict : Bool
  historyImageDedup : Bool
  toolNameMapping : Bool
  toolNameVerbatimWhenValid : Bool

inductive UserImageMode
  | strict
  | history
  deriving DecidableEq, Repr

abbrev SeenHistoryImages := List Digest

structure UserContent where
  texts : List String
  images : List KiroImage
  toolResults : List ToolResult
  seenImages : Option SeenHistoryImages

def historyRemoteImagePlaceholder : String :=
  "[image omitted: remote image URLs are not supported; ask the user to send the image as base64 data]"

def historyDuplicateImagePlaceholder : String :=
  "[image omitted: identical to an earlier image in this conversation]"

def errorText : ConversionError → String
  | .unsupportedModel model => "模型不支持: " ++ model
  | .emptyMessages => "消息列表为空"
  | .unsupportedContent message => "内容块不支持: " ++ message

variable (readers : Readers)

/-- Whether the image is new; it is seen from now on. -/
def firstSighting (seen : Option SeenHistoryImages) (image : KiroImage) :
    Bool × Option SeenHistoryImages :=
  match seen, image.bytes with
  | some seen, some bytes =>
    let digest := readers.sha256 bytes
    if digest ∈ seen then (false, some seen) else (true, some (digest :: seen))
  | seen, _ => (true, seen)

def isRemoteImageUrlSource (source : ImageSource) : Bool :=
  source.sourceType == "url" && source.url.any fun url => (readers.parseDataUrl url).isNone

def UserContent.addImage (scan : UserContent) (image : KiroImage) : UserContent :=
  let (first, seenImages) := firstSighting readers scan.seenImages image
  if first then { scan with images := scan.images ++ [image], seenImages }
  else { scan with texts := scan.texts ++ [historyDuplicateImagePlaceholder], seenImages }

def UserContent.addImageBlock (mode : UserImageMode) (scan : UserContent) (block : ContentBlock) :
    Except ConversionError UserContent :=
  match block.source with
  | none => .error (.unsupportedContent "image block missing source")
  | some source =>
    if mode = .history ∧ isRemoteImageUrlSource readers source = true then
      .ok { scan with texts := scan.texts ++ [historyRemoteImagePlaceholder] }
    else
      match readers.convertImageSource source with
      | .ok image => .ok (scan.addImage readers image)
      | .error error =>
        if mode = .history then
          .ok { scan with texts := scan.texts ++ ["[image omitted: " ++ errorText error ++ "]"] }
        else .error error

/-- The images of a tool result, with a note for each that was sent before. -/
def UserContent.addResultImages (scan : UserContent) :
    List KiroImage → List String → UserContent × List String
  | [], omitted => (scan, omitted)
  | image :: rest, omitted =>
    let (first, seenImages) := firstSighting readers scan.seenImages image
    if first then
      addResultImages { scan with images := scan.images ++ [image], seenImages } rest omitted
    else
      addResultImages { scan with seenImages } rest (omitted ++ [historyDuplicateImagePlaceholder])

def appendNote (text note : String) : String :=
  (if text = "" then text else text ++ "\n") ++ note

def normalizeToolResultContent (content : String) : String :=
  if isBlankText content then emptyToolResultContentPlaceholder else content

def UserContent.addToolResult (scan : UserContent) (block : ContentBlock) : UserContent :=
  match block.toolUseId.bind readers.sanitizeToolUseId with
  | none => scan
  | some toolUseId =>
    let (images, omitted) := readers.extractToolResultImages block.content
    let (scan, omitted) := scan.addResultImages readers images omitted
    let text := omitted.foldl appendNote (readers.extractToolResultContent block.content)
    let isError := block.isError.getD false
    let result : ToolResult :=
      { toolUseId
        content := [[("text", .str (normalizeToolResultContent text))]]
        status := some (if isError then "error" else "success")
        isError }
    { scan with toolResults := scan.toolResults ++ [result] }

def UserContent.addBlock (mode : UserImageMode) (scan : UserContent) (item : Json) :
    Except ConversionError UserContent :=
  if getStr "type" item = some "document" then do
    let text ← readers.documentBlockToText item
    return if text = "" then scan else { scan with texts := scan.texts ++ [text] }
  else
    match readers.renderServerToolBlock item with
    | some text => .ok { scan with texts := scan.texts ++ [text] }
    | none =>
      match ContentBlock.fromValue item with
      | none => .ok scan
      | some block =>
        if block.blockType = "text" then
          .ok { scan with texts := scan.texts ++ block.text.toList }
        else if block.blockType = "image" then scan.addImageBlock readers mode block
        else if block.blockType = "tool_result" then .ok (scan.addToolResult readers block)
        else .ok scan

/-- `process_message_content_with_dedup`, with the texts before they are joined. -/
def processMessageContent (mode : UserImageMode) (seenImages : Option SeenHistoryImages)
    (content : Json) : Except ConversionError UserContent :=
  let start : UserContent := ⟨[], [], [], seenImages⟩
  match content with
  | .str s => .ok { start with texts := [s] }
  | .arr items => items.foldlM (fun scan item => scan.addBlock readers mode item) start
  | _ => .ok start

def UserContent.text (scan : UserContent) : String := "\n".intercalate scan.texts

structure ProxyWarnings where
  sanitizedAssistantHistoryLeaks : ℕ
  sanitizedAssistantHistoryLeakChars : ℕ

/-- Counters are 32 bits wide. -/
def ProxyWarnings.record (warnings : ProxyWarnings) (blocks chars : ℕ) : ProxyWarnings :=
  if 0 < blocks then
    { sanitizedAssistantHistoryLeaks :=
        min (warnings.sanitizedAssistantHistoryLeaks + blocks) (2 ^ 32 - 1)
      sanitizedAssistantHistoryLeakChars :=
        min (warnings.sanitizedAssistantHistoryLeakChars + min chars (2 ^ 32 - 1)) (2 ^ 32 - 1) }
  else warnings

def normalizeToolUseInput : Json → Json
  | .obj fields => .obj fields
  | .null => .obj []
  | other => .obj [("value", other)]

/-- An earlier allocation for the name is used again. -/
def mapToolName (options : Options) (name : String) (toolNameMap : ToolNameMap) :
    String × ToolNameMap :=
  if !options.toolNameMapping then (name, toolNameMap)
  else
    match toolNameMap.find? fun entry => entry.2 == name with
    | some (mapped, _) => (mapped, toolNameMap)
    | none =>
      let mapped := Converter.kiroRequestToolName readers.sha256 options.toolNameVerbatimWhenValid name
      if mapped ≠ name ∧ toolNameMap.all (fun entry => entry.1 != mapped) then
        (mapped, toolNameMap ++ [(mapped, name)])
      else (mapped, toolNameMap)

def reasoningText (text signature : String) : Json :=
  .obj [("reasoningText", .obj [("signature", .str signature), ("text", .str text)])]

def redactedContent (data : String) : Json :=
  .obj [("redactedContent", .str data)]

structure AssistantScan where
  thinkingContent : List Char
  /-- Native reasoning, with the number of tool calls before it. -/
  nativeCandidates : List (Json × ℕ)
  textContent : List Char
  toolUses : List ToolUseEntry
  sanitizer : Option ToolTranscriptSanitizer
  toolNameMap : ToolNameMap

namespace AssistantScan

def pushText (scan : AssistantScan) (text : List Char) : AssistantScan :=
  match scan.sanitizer with
  | some s =>
    let (s, output) := s.push text
    { scan with sanitizer := some s, textContent := scan.textContent ++ output }
  | none => { scan with textContent := scan.textContent ++ text }

def endsLine (text : List Char) : Bool := text.getLast? == some '\n'

def hasPendingText (s : ToolTranscriptSanitizer) : Bool :=
  s.state != .scan || !s.lineProbe.isEmpty

/-- A rendered server tool block. It does not go through the sanitizer. -/
def pushRendered (scan : AssistantScan) (rendered : List Char) : AssistantScan :=
  let separator := if !scan.textContent.isEmpty && !endsLine scan.textContent then ['\n', '\n'] else []
  { scan with textContent := scan.textContent ++ separator ++ rendered ++ ['\n', '\n'] }

def pushTextBlock (scan : AssistantScan) (text : List Char) : AssistantScan :=
  let separator := text.head? != some '\n' && !scan.textContent.isEmpty &&
    !endsLine scan.textContent && !(scan.sanitizer.any hasPendingText)
  scan.pushText (if separator then '\n' :: text else text)

def boundary (scan : AssistantScan) : AssistantScan :=
  match scan.sanitizer with
  | some s =>
    let (s, output) := s.structuredToolBoundary
    { scan with sanitizer := some s, textContent := scan.textContent ++ output }
  | none => scan

def pushThinking (scan : AssistantScan) (block : ContentBlock) :
    Except ConversionError AssistantScan :=
  match block.thinking with
  | none => .error (.unsupportedContent "assistant thinking block is missing thinking text")
  | some thinking =>
    let unsigned := { scan with thinkingContent := scan.thinkingContent ++ thinking.toList }
    match block.signature.filter (· ≠ "") with
    | some signature =>
      if readers.isSyntheticThinkingSignature signature then .ok unsigned
      else .ok { scan with
        nativeCandidates := scan.nativeCandidates ++
          [(reasoningText thinking signature, scan.toolUses.length)] }
    | none => .ok unsigned

def pushRedacted (scan : AssistantScan) (data : String) : AssistantScan :=
  { scan with
    nativeCandidates := scan.nativeCandidates ++ [(redactedContent data, scan.toolUses.length)] }

def pushToolUse (options : Options) (scan : AssistantScan) (block : ContentBlock) : AssistantScan :=
  match block.id.bind readers.sanitizeToolUseId,
      (block.name.map fun name => String.ofList (trimChars name.toList)).filter (· ≠ "") with
  | some toolUseId, some name =>
    let (mapped, toolNameMap) := mapToolName readers options name scan.toolNameMap
    let input := normalizeToolUseInput (block.input.getD (.obj []))
    { scan with toolNameMap, toolUses := scan.toolUses ++ [⟨toolUseId, mapped, input⟩] }
  | _, _ => scan

def addBlock (options : Options) (scan : AssistantScan) (item : Json) :
    Except ConversionError AssistantScan :=
  if getStr "type" item = some "redacted_thinking" then
    match getStr "data" item with
    | some data => .ok (scan.pushRedacted data)
    | none => .error (.unsupportedContent "assistant redacted_thinking.data must be a JSON string")
  else
    match readers.renderServerToolBlock item with
    | some rendered => .ok (scan.pushRendered rendered.toList)
    | none =>
      match ContentBlock.fromValue item with
      | none => .ok scan
      | some block =>
        if block.blockType = "thinking" then scan.pushThinking readers block
        else if block.blockType = "redacted_thinking" then
          match block.data with
          | some data => .ok (scan.pushRedacted data)
          | none =>
            .error (.unsupportedContent "assistant redacted_thinking block is missing data")
        else if block.blockType = "text" then
          match block.text.filter (· ≠ "") with
          | some text => .ok (scan.pushTextBlock text.toList)
          | none => .ok scan
        else if block.blockType = "tool_use" then .ok (scan.boundary.pushToolUse readers options block)
        else .ok scan

def addContent (options : Options) (scan : AssistantScan) :
    Json → Except ConversionError AssistantScan
  | .str s => .ok (scan.pushText s.toList)
  | .arr items => items.foldlM (fun scan item => scan.addBlock readers options item) scan
  | _ => .ok scan

end AssistantScan

/-- The last block before the final tool call, or else the last one. -/
def selectNativeReasoning (candidates : List (Json × ℕ)) (totalToolUses : ℕ) : Option Json :=
  ((candidates.reverse.find? fun candidate => candidate.2 < totalToolUses).or
    candidates.getLast?).map Prod.fst

def thinkingTag (thinking : List Char) : List Char :=
  "<thinking>".toList ++ thinking ++ "</thinking>".toList

/-- The content of a converted message. Kiro accepts no empty content. -/
def assistantContent (thinking text : List Char) : List Char :=
  if thinking ≠ [] then
    if text ≠ [] then thinkingTag thinking ++ ['\n', '\n'] ++ text else thinkingTag thinking
  else if text = [] then [' '] else text

structure ConvertedAssistant where
  content : List Char
  toolUses : List ToolUseEntry
  reasoningContent : Option Json
  toolNameMap : ToolNameMap
  warnings : ProxyWarnings

def convertAssistantMessage (options : Options) (knownToolNames : List String)
    (toolNameMap : ToolNameMap) (warnings : ProxyWarnings) (content : Json) :
    Except ConversionError ConvertedAssistant := do
  let sanitizer :=
    if options.strict then none else some (ToolTranscriptSanitizer.new readers.sha256 knownToolNames)
  let start : AssistantScan := ⟨[], [], [], [], sanitizer, toolNameMap⟩
  let scan ← start.addContent readers options content
  let scan := scan.boundary
  let warnings := match scan.sanitizer with
    | some s => warnings.record s.suppressedBlocks s.suppressedChars
    | none => warnings
  let reasoningContent := selectNativeReasoning scan.nativeCandidates scan.toolUses.length
  -- Unsigned thinking is dropped next to native reasoning.
  let thinking := if reasoningContent.isSome then [] else scan.thinkingContent
  return ⟨assistantContent thinking scan.textContent, scan.toolUses, reasoningContent,
    scan.toolNameMap, warnings⟩

def blockText (item : Json) : List Char :=
  if getStr "type" item = some "redacted_thinking" then []
  else
    match readers.renderServerToolBlock item, ContentBlock.fromValue item with
    | none, some block => if block.blockType = "text" then (block.text.getD "").toList else []
    | _, _ => []

def contentText : Json → List Char
  | .str s => s.toList
  | .arr items => items.flatMap (blockText readers)
  | _ => []

namespace AssistantScan

/-- The text so far, with what the sanitizer holds back. -/
def visible (scan : AssistantScan) : List Char :=
  scan.textContent ++ (scan.sanitizer.map ToolTranscriptSanitizer.held).getD []

def Clean (scan : AssistantScan) : Prop :=
  ∀ s ∈ scan.sanitizer, s.suppressedBlocks = 0

/-- All of a text is in the scan, in its order, unless something was suppressed. -/
structure Carries (scan : AssistantScan) (text : List Char) : Prop where
  sound : ∀ s ∈ scan.sanitizer, s.Sound
  carried : scan.Clean →
    (∀ s ∈ scan.sanitizer, s.state ≠ .dropUntilBoundary) ∧ text.Sublist scan.visible

variable {readers} {scan scan' : AssistantScan} {text : List Char} {options : Options}

theorem Carries.congr (h : scan.Carries text) (htext : scan'.textContent = scan.textContent)
    (hsanitizer : scan'.sanitizer = scan.sanitizer) : scan'.Carries text := by
  refine ⟨hsanitizer ▸ h.sound, fun hclean => ?_⟩
  rw [Clean, hsanitizer] at hclean
  rw [visible, htext, hsanitizer]
  exact h.carried hclean

theorem Carries.pushText (h : scan.Carries text) (chunk : List Char) :
    (scan.pushText chunk).Carries (text ++ chunk) := by
  unfold AssistantScan.pushText
  cases hs : scan.sanitizer with
  | none =>
    obtain ⟨hstate, hsub⟩ := h.carried (by rw [Clean, hs]; exact nofun)
    dsimp only
    refine ⟨hs ▸ h.sound, fun _ => ⟨hs ▸ hstate, ?_⟩⟩
    simp only [visible, hs, Option.map_none, Option.getD_none, List.append_nil] at hsub ⊢
    exact hsub.append_right chunk
  | some s =>
    have hkept := ToolTranscriptSanitizer.push_kept (h.sound s hs) chunk
    refine ⟨fun s' hs' => Option.some.inj hs' ▸ hkept.sound, fun hclean => ?_⟩
    have hzero := hclean _ rfl
    obtain ⟨hstate, hsub⟩ := h.carried fun s' hs' =>
      Option.some.inj (hs.symm.trans hs') ▸ hkept.suppressed hzero
    obtain ⟨hall, hstate'⟩ := hkept.all hzero (hstate s hs)
    refine ⟨fun s' hs' => Option.some.inj hs' ▸ hstate', ?_⟩
    simp only [visible, hs, Option.map_some, Option.getD_some] at hsub ⊢
    rw [List.append_assoc, hall, ← List.append_assoc]
    exact hsub.append_right chunk

theorem Carries.boundary (h : scan.Carries text) :
    scan.boundary.Carries text ∧ scan.boundary.visible = scan.boundary.textContent := by
  unfold AssistantScan.boundary
  cases hs : scan.sanitizer with
  | none => exact ⟨h, by simp only [visible, hs, Option.map_none, Option.getD_none, List.append_nil]⟩
  | some s =>
    obtain ⟨hkept, hheld⟩ := ToolTranscriptSanitizer.finishSegment_kept (h.sound s hs)
    refine ⟨⟨fun s' hs' => Option.some.inj hs' ▸ hkept.sound, fun hclean => ?_⟩, ?_⟩
    · have hzero := hclean _ rfl
      obtain ⟨hstate, hsub⟩ := h.carried fun s' hs' =>
        Option.some.inj (hs.symm.trans hs') ▸ hkept.suppressed hzero
      obtain ⟨hall, hstate'⟩ := hkept.all hzero (hstate s hs)
      refine ⟨fun s' hs' => Option.some.inj hs' ▸ hstate', ?_⟩
      simp only [visible, hs, Option.map_some, Option.getD_some] at hsub ⊢
      rw [List.append_nil] at hall
      rw [List.append_assoc]
      exact hall ▸ hsub
    · simp only [visible, Option.map_some, Option.getD_some]
      exact (congrArg _ hheld).trans (List.append_nil _)

theorem Carries.pushRendered (h : scan.Carries text) (rendered : List Char) :
    (scan.pushRendered rendered).Carries text := by
  refine ⟨h.sound, fun hclean => ?_⟩
  obtain ⟨hstate, hsub⟩ := h.carried hclean
  refine ⟨hstate, hsub.trans ?_⟩
  simp only [visible, AssistantScan.pushRendered, List.append_assoc]
  exact List.Sublist.append_left ((List.sublist_append_right _ _).trans
    ((List.sublist_append_right _ _).trans (List.sublist_append_right _ _))) _

theorem Carries.pushTextBlock (h : scan.Carries text) (chunk : List Char) :
    (scan.pushTextBlock chunk).Carries (text ++ chunk) := by
  unfold AssistantScan.pushTextBlock
  dsimp only
  split_ifs
  · have hpush := h.pushText ('\n' :: chunk)
    refine ⟨hpush.sound, fun hclean => ?_⟩
    obtain ⟨hstate, hsub⟩ := hpush.carried hclean
    exact ⟨hstate, (List.Sublist.append_left (List.sublist_cons_self _ _) _).trans hsub⟩
  · exact h.pushText chunk

theorem pushThinking_kept {block : ContentBlock} (h : scan.pushThinking readers block = .ok scan') :
    scan'.textContent = scan.textContent ∧ scan'.sanitizer = scan.sanitizer := by
  unfold AssistantScan.pushThinking at h
  split at h
  · cases h
  · dsimp only at h
    split at h
    · split_ifs at h <;> cases h <;> exact ⟨rfl, rfl⟩
    · cases h
      exact ⟨rfl, rfl⟩

theorem pushToolUse_kept (scan : AssistantScan) (block : ContentBlock) :
    (scan.pushToolUse readers options block).textContent = scan.textContent ∧
      (scan.pushToolUse readers options block).sanitizer = scan.sanitizer := by
  unfold AssistantScan.pushToolUse
  split
  · exact ⟨rfl, rfl⟩
  · exact ⟨rfl, rfl⟩

theorem Carries.addBlock {item : Json} (h : scan.Carries text)
    (hadd : scan.addBlock readers options item = .ok scan') :
    scan'.Carries (text ++ blockText readers item) := by
  unfold AssistantScan.addBlock at hadd
  unfold blockText
  split_ifs at hadd ⊢ with hredacted
  · rw [List.append_nil]
    split at hadd
    · cases hadd
      exact h.congr rfl rfl
    · cases hadd
  · cases hrender : readers.renderServerToolBlock item with
    | some rendered =>
      rw [hrender] at hadd
      cases hadd
      rw [List.append_nil]
      exact h.pushRendered rendered.toList
    | none =>
      rw [hrender] at hadd
      cases hblock : ContentBlock.fromValue item with
      | none =>
        rw [hblock] at hadd
        cases hadd
        rw [List.append_nil]
        exact h
      | some block =>
        rw [hblock] at hadd
        dsimp only at hadd ⊢
        by_cases htext : block.blockType = "text"
        · rw [if_neg (by rw [htext]; decide), if_neg (by rw [htext]; decide), if_pos htext] at hadd
          rw [if_pos htext]
          cases hfield : block.text with
          | none =>
            rw [hfield] at hadd
            cases hadd
            rw [Option.getD_none, String.toList_empty, List.append_nil]
            exact h
          | some field =>
            rw [hfield] at hadd
            rw [Option.getD_some]
            by_cases hempty : field = ""
            · subst hempty
              cases hadd
              rw [String.toList_empty, List.append_nil]
              exact h
            · rw [Option.filter_some, decide_eq_true hempty, if_pos rfl] at hadd
              cases hadd
              exact h.pushTextBlock field.toList
        · rw [if_neg htext] at hadd
          rw [if_neg htext, List.append_nil]
          split_ifs at hadd
          · obtain ⟨htext', hsanitizer⟩ := pushThinking_kept hadd
            exact h.congr htext' hsanitizer
          · split at hadd
            · cases hadd
              exact h.congr rfl rfl
            · cases hadd
          · cases hadd
            obtain ⟨htext', hsanitizer⟩ :=
              @pushToolUse_kept readers options scan.boundary block
            exact h.boundary.1.congr htext' hsanitizer
          · cases hadd
            exact h

theorem Carries.addBlocks {items : List Json} (h : scan.Carries text)
    (hadd : items.foldlM (fun scan item => scan.addBlock readers options item) scan = .ok scan') :
    scan'.Carries (text ++ items.flatMap (blockText readers)) := by
  induction items generalizing scan text with
  | nil =>
    cases hadd
    rw [List.flatMap_nil, List.append_nil]
    exact h
  | cons item items ih =>
    rw [List.foldlM_cons] at hadd
    obtain ⟨scan₁, hfirst, hrest⟩ := exists_of_bind_eq_ok hadd
    rw [List.flatMap_cons, ← List.append_assoc]
    exact ih (h.addBlock hfirst) hrest

theorem Carries.addContent {content : Json} (h : scan.Carries [])
    (hadd : scan.addContent readers options content = .ok scan') :
    scan'.Carries (contentText readers content) := by
  cases content with
  | str s =>
    cases hadd
    exact h.pushText s.toList
  | arr items => exact h.addBlocks hadd
  | _ =>
    cases hadd
    exact h

end AssistantScan

variable {readers} {options : Options}

theorem sublist_assistantContent (thinking text : List Char) :
    text.Sublist (assistantContent thinking text) := by
  unfold assistantContent
  split_ifs with hthinking htext htext
  · exact List.sublist_append_right _ _
  · rw [not_not.mp htext]
    exact List.nil_sublist _
  · rw [htext]
    exact List.nil_sublist _
  · exact .refl _

namespace ProxyWarnings

variable {warnings before after last : ProxyWarnings} {blocks chars : ℕ}

/-- The counter of leaks does not fall, and keeps to its limit. -/
def Grows (before after : ProxyWarnings) : Prop :=
  before.sanitizedAssistantHistoryLeaks ≤ 2 ^ 32 - 1 →
    before.sanitizedAssistantHistoryLeaks ≤ after.sanitizedAssistantHistoryLeaks ∧
      after.sanitizedAssistantHistoryLeaks ≤ 2 ^ 32 - 1

/-- The counter of leaks stays below its limit and does not move. -/
def Unchanged (before after : ProxyWarnings) : Prop :=
  before.sanitizedAssistantHistoryLeaks < 2 ^ 32 - 1 ∧
    after.sanitizedAssistantHistoryLeaks = before.sanitizedAssistantHistoryLeaks

theorem Grows.refl (warnings : ProxyWarnings) : Grows warnings warnings :=
  fun hle => ⟨le_refl _, hle⟩

theorem Grows.trans (h : Grows before after) (h' : Grows after last) : Grows before last := by
  intro hle
  obtain ⟨hfirst, hlimit⟩ := h hle
  obtain ⟨hsecond, hlimit'⟩ := h' hlimit
  exact ⟨hfirst.trans hsecond, hlimit'⟩

theorem Unchanged.split (h : Grows before after) (h' : Grows after last)
    (hunchanged : Unchanged before last) : Unchanged before after ∧ Unchanged after last := by
  obtain ⟨hlt, heq⟩ := hunchanged
  obtain ⟨hfirst, hlimit⟩ := h hlt.le
  obtain ⟨hsecond, -⟩ := h' hlimit
  unfold Unchanged
  omega

theorem grows_record (warnings : ProxyWarnings) (blocks chars : ℕ) :
    Grows warnings (warnings.record blocks chars) := by
  unfold Grows record
  split_ifs
  · simp only
    omega
  · omega

theorem Unchanged.eq_zero_of_record (h : Unchanged warnings (warnings.record blocks chars)) :
    blocks = 0 := by
  obtain ⟨hlt, heq⟩ := h
  unfold record at heq
  split_ifs at heq with hpos
  · simp only at heq
    omega
  · omega

end ProxyWarnings

theorem convertAssistantMessage_spec {knownToolNames : List String} {toolNameMap : ToolNameMap}
    {warnings : ProxyWarnings} {content : Json} {converted : ConvertedAssistant}
    (h : convertAssistantMessage readers options knownToolNames toolNameMap warnings content =
      .ok converted) :
    warnings.Grows converted.warnings ∧
      (warnings.Unchanged converted.warnings →
        (contentText readers content).Sublist converted.content) := by
  obtain ⟨scan, hscan, h⟩ := exists_of_bind_eq_ok h
  cases h
  generalize hsanitizer : (if options.strict then none
    else some (ToolTranscriptSanitizer.new readers.sha256 knownToolNames)) = sanitizer at hscan
  have hsound : ∀ s ∈ sanitizer, s.Sound := by
    intro s hs
    rw [← hsanitizer] at hs
    split_ifs at hs
    · cases hs
    · cases hs
      exact ToolTranscriptSanitizer.sound_new _ _
  have hstate : ∀ s ∈ sanitizer, s.state ≠ .dropUntilBoundary := by
    intro s hs
    rw [← hsanitizer] at hs
    split_ifs at hs
    · cases hs
    · cases hs
      exact nofun
  have hstart : AssistantScan.Carries ⟨[], [], [], [], sanitizer, toolNameMap⟩ [] :=
    ⟨hsound, fun _ => ⟨hstate, List.nil_sublist _⟩⟩
  obtain ⟨hcarries, hvisible⟩ := (hstart.addContent hscan).boundary
  dsimp only at hcarries hvisible ⊢
  cases hs : scan.boundary.sanitizer with
  | none =>
    refine ⟨.refl _, fun _ => ?_⟩
    obtain ⟨-, hsub⟩ := hcarries.carried (by rw [AssistantScan.Clean, hs]; exact nofun)
    rw [hvisible] at hsub
    exact hsub.trans (sublist_assistantContent _ _)
  | some s =>
    refine ⟨ProxyWarnings.grows_record _ _ _, fun hunchanged => ?_⟩
    have hzero := hunchanged.eq_zero_of_record
    obtain ⟨-, hsub⟩ := hcarries.carried fun s' hs' =>
      Option.some.inj (hs.symm.trans hs') ▸ hzero
    rw [hvisible] at hsub
    exact hsub.trans (sublist_assistantContent _ _)

theorem convertAssistantMessage_warnings {knownToolNames : List String} {toolNameMap : ToolNameMap}
    {warnings : ProxyWarnings} {content : Json} {converted : ConvertedAssistant}
    (h : convertAssistantMessage readers options knownToolNames toolNameMap warnings content =
      .ok converted) (other : ProxyWarnings) :
    ∃ after, convertAssistantMessage readers options knownToolNames toolNameMap other content =
      .ok { converted with warnings := after } := by
  obtain ⟨scan, hscan, h⟩ := exists_of_bind_eq_ok h
  cases h
  unfold convertAssistantMessage
  dsimp only
  rw [hscan]
  exact ⟨_, rfl⟩

end KiroProxy.ConversationHistory
