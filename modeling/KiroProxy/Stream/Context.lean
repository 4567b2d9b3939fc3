import KiroProxy.Stream.TextPath

/-!
# The stream context: text, XML thinking and native reasoning

The state of one response, grouped by the part of the stream that uses it, and the
functions that turn text and reasoning into blocks. Token counts and diagnostics are left
out: no event depends on them.
-/

namespace KiroProxy.Stream

structure XmlThinking where
  thinkingBuffer : List Char := []
  xmlThinkingContent : List Char := []
  inThinkingBlock : Bool := false
  thinkingExtracted : Bool := false
  thinkingBlockIndex : Option ℕ := none
  stripThinkingLeadingNewline : Bool := false
  lastXmlThinkingChar : Option Char := none
  currentThinkingTag : Option ThinkingXmlTag := none
  deriving DecidableEq, Repr

/-- The fields `native_reasoning_*`. -/
structure NativeReasoning where
  seen : Bool := false
  content : List Char := []
  emitted : List Char := []
  blockIndex : Option ℕ := none
  suppressedBefore : ℕ := 0
  signature : Option (List Char) := none
  signatureSent : Bool := false
  segmentOpen : Bool := false
  deriving DecidableEq, Repr

structure ResponseToolGate where
  decisions : List (String × Bool) := []
  admitted : ℕ := 0
  deriving DecidableEq, Repr

structure ToolCalls where
  toolBlockIndices : List (String × ℕ) := []
  toolInputBuffers : List (String × List Char) := []
  toolInputScanners : List (String × ToolInputScanner) := []
  toolInputNames : List (String × String) := []
  pendingToolStarts : List String := []
  seenToolSigs : List (List Char) := []
  responseToolGate : ResponseToolGate := {}
  invalidCompletedToolInput : Bool := false
  pendingCodeExecutions : List (List Char) := []
  codeExecutionHandled : Bool := false
  deriving DecidableEq, Repr

structure Context (σ : Type) where
  path : TextPath
  toolTranscriptSanitizer : σ
  thinkingTranscriptSanitizer : σ
  xml : XmlThinking
  native : NativeReasoning
  tools : ToolCalls
  pendingTrivialText : List Char
  streamError : Option (String × String)
  lastStreamError : Option (String × String)
  upstreamContentFilterRefusal : Option String
  sawUpstreamAssistantContent : Bool
  sawUpstreamReasoningContent : Bool
  sawUpstreamToolUse : Bool
  /-- How many random ids were made. -/
  randomIds : ℕ

def isTrivialToolPreambleText (content : List Char) : Bool :=
  match trimChars content with
  | [] => true
  | [c] => c ∈ ".。·•…-—_*!?！？,，;；:：".toList
  | _ => false

/-- The longest prefix of at most that many bytes. -/
def findCharBoundary : List Char → ℕ → ℕ
  | [], _ => 0
  | c :: cs, target =>
    if c.utf8Size ≤ target then findCharBoundary cs (target - c.utf8Size) + 1 else 0

/-- The accumulated text and the part of it that is new: the upstream sends either the whole
text so far or only the next piece. -/
def mergeNativeReasoningText (accumulated text : List Char) : List Char × List Char :=
  if accumulated.isPrefixOf text then (text, text.drop accumulated.length)
  else (accumulated ++ text, text)

namespace Context

variable {σ : Type}

def new (env : Environment σ) : Context σ where
  path := ⟨.init, {}⟩
  toolTranscriptSanitizer := env.sanitizer.new
  thinkingTranscriptSanitizer := env.sanitizer.new
  xml := {}
  native := {}
  tools := {}
  pendingTrivialText := []
  streamError := none
  lastStreamError := none
  upstreamContentFilterRefusal := none
  sawUpstreamAssistantContent := false
  sawUpstreamReasoningContent := false
  sawUpstreamToolUse := false
  randomIds := 0

abbrev out (c : Context σ) : Output := c.path.out

abbrev manager (c : Context σ) : SseStateManager := c.path.out.manager

abbrev text (c : Context σ) : TextState := c.path.text

def mapOut (f : Output → Output) (c : Context σ) : Context σ :=
  { c with path := { c.path with out := f c.out } }

def recordStreamError (errorType message : String) (c : Context σ) : Context σ :=
  { c with streamError := some (errorType, message), lastStreamError := some (errorType, message) }

def hasMeaningfulUpstreamResponse (c : Context σ) : Bool :=
  c.upstreamContentFilterRefusal.isSome || c.sawUpstreamAssistantContent ||
    c.sawUpstreamReasoningContent || c.sawUpstreamToolUse

variable (env : Environment σ)

def createSanitizedTextDeltaEvents (text : List Char) (c : Context σ) : Context σ :=
  { c with path := c.path.createSanitizedTextDeltaEvents env c.tools.seenToolSigs text }

def drainInvokeSniffBuffer (flush : Bool) (c : Context σ) : Context σ :=
  { c with path := c.path.drainInvokeSniffBuffer env c.tools.seenToolSigs flush }

def createTextDeltaEvents (text : List Char) (c : Context σ) : Context σ :=
  if text = [] then c
  else
    let (safe, sanitizer) := env.sanitizer.push c.toolTranscriptSanitizer text
    createSanitizedTextDeltaEvents env safe { c with toolTranscriptSanitizer := sanitizer }

/-- `structured_tool_boundary` and `finish` both end the segment; what was held is text. -/
def flushTextSegment (c : Context σ) : Context σ :=
  let (safePending, sanitizer) := env.sanitizer.finishSegment c.toolTranscriptSanitizer
  createSanitizedTextDeltaEvents env safePending { c with toolTranscriptSanitizer := sanitizer }

def isXmlThinkingOpen (c : Context σ) : Bool :=
  c.xml.thinkingBlockIndex.any (c.manager.isBlockOpenOfType · .thinking)

def startXmlThinkingBlock (c : Context σ) : Context σ :=
  { c.mapOut (·.startNew (.thinking [] [])) with
    xml := { c.xml with thinkingBlockIndex := some c.manager.nextBlockIndex } }

def sendXmlThinkingDelta (thinking : List Char) (c : Context σ) : Context σ :=
  let (safe, sanitizer) := env.sanitizer.push c.thinkingTranscriptSanitizer thinking
  let c := { c with
    thinkingTranscriptSanitizer := sanitizer
    xml := { c.xml with xmlThinkingContent := c.xml.xmlThinkingContent ++ safe } }
  match c.xml.thinkingBlockIndex with
  | some index => c.mapOut (·.push (.contentBlockDelta index (.thinkingDelta safe)))
  | none => c

/-- A thinking block that a tool call has closed goes on in a new block. -/
def pushXmlThinkingDelta (thinking : List Char) (c : Context σ) : Context σ :=
  if thinking = [] then c
  else if c.isXmlThinkingOpen then sendXmlThinkingDelta env thinking c
  else
    sendXmlThinkingDelta env thinking
      (startXmlThinkingBlock { c with xml := { c.xml with xmlThinkingContent := [] } })

/-- What is held of the thinking, an empty delta, and a signature if one is made up. -/
def closingDeltas (pending content : List Char) : List Delta :=
  (if pending = [] then [] else [.thinkingDelta pending]) ++ [.thinkingDelta []] ++
    if env.syntheticThinkingSignatures then
      [.signatureDelta (env.syntheticThinkingSignature content)]
    else []

def closeXmlThinkingBlock (c : Context σ) : Context σ :=
  match c.xml.thinkingBlockIndex with
  | none => c
  | some index =>
    if c.manager.isBlockOpenOfType index .thinking then
      let (pending, sanitizer) := env.sanitizer.finishSegment c.thinkingTranscriptSanitizer
      let deltas := closingDeltas env pending (c.xml.xmlThinkingContent ++ pending)
      { c.mapOut fun o =>
          (deltas.foldl (fun o delta => o.push (.contentBlockDelta index delta)) o).stop index with
        thinkingTranscriptSanitizer := sanitizer
        xml := { c.xml with xmlThinkingContent := [] } }
    else c

/-- The thinking ends with this text. Closing the block does not read the flags. -/
def finishXmlThinking (thinking : List Char) (c : Context σ) : Context σ :=
  let c := pushXmlThinkingDelta env thinking c
  closeXmlThinkingBlock env { c with xml := { c.xml with
    inThinkingBlock := false, thinkingExtracted := true } }

def emitRemainingText (c : Context σ) : Context σ :=
  createTextDeltaEvents env c.xml.thinkingBuffer
    { c with xml := { c.xml with thinkingBuffer := [] } }

def stripLeadingNewline (c : Context σ) : Context σ :=
  if c.xml.stripThinkingLeadingNewline then
    match c.xml.thinkingBuffer with
    | [] => c
    | first :: rest => { c with xml := { c.xml with
        thinkingBuffer := if first = '\n' then rest else first :: rest
        stripThinkingLeadingNewline := false } }
  else c

def thinkingTag (c : Context σ) : ThinkingXmlTag :=
  c.xml.currentThinkingTag.getD thinkingXmlTag

/-- Without an end tag, all of the buffer is thinking but the bytes that may begin the tag
and its separator. -/
def emitSafeThinking (c : Context σ) : Context σ :=
  let buffer := c.xml.thinkingBuffer
  let safeLen := findCharBoundary buffer
    (utf8Length buffer - (utf8Length c.thinkingTag.closeTag + 2))
  let safe := buffer.take safeLen
  if safe = [] then c
  else
    let c := pushXmlThinkingDelta env safe
      { c with xml := { c.xml with lastXmlThinkingChar := safe.getLast? } }
    { c with xml := { c.xml with thinkingBuffer := buffer.drop safeLen } }

def continueThinking (c : Context σ) : Context σ :=
  let c := c.stripLeadingNewline
  let tag := c.thinkingTag
  let buffer := c.xml.thinkingBuffer
  match env.findRealThinkingEndTagFor buffer tag c.xml.lastXmlThinkingChar false with
  | some (stop, separator) =>
    let c := finishXmlThinking env (buffer.take stop) c
    emitRemainingText env { c with xml := { c.xml with
      thinkingBuffer := buffer.drop (stop + tag.closeTag.length + separator) } }
  | none => emitSafeThinking env c

def startThinking (start : ℕ) (tag : ThinkingXmlTag) (c : Context σ) : Context σ :=
  let buffer := c.xml.thinkingBuffer
  let before := buffer.take start
  let c := if isBlank before then c else createTextDeltaEvents env before c
  let c := flushTextSegment env c
  startXmlThinkingBlock { c with xml := { c.xml with
    inThinkingBlock := true
    stripThinkingLeadingNewline := true
    currentThinkingTag := some tag
    lastXmlThinkingChar := none
    thinkingBuffer := buffer.drop (start + tag.openTag.length) } }

/-- The part of a buffer without a start tag that is released as text: all of it, or what
stands before a possible start of a tag. Blank text is kept. -/
def releasedLength (buffer : List Char) : ℕ :=
  match env.thinkingOpenTagPartialStart buffer with
  | some retainStart => if isBlank (buffer.take retainStart) then 0 else retainStart
  | none => if isBlank buffer then 0 else buffer.length

/-- Each of the three branches of the source's loop is taken at most once, in this order. -/
def detectThinking (c : Context σ) : Context σ :=
  let buffer := c.xml.thinkingBuffer
  match env.findRealThinkingStartTagWithVariant buffer with
  | some (start, tag) => continueThinking env (startThinking env start tag c)
  | none =>
    let released := releasedLength env buffer
    if released = 0 then c
    else
      let c := createTextDeltaEvents env (buffer.take released) c
      emitRemainingText env { c with xml := { c.xml with
        thinkingBuffer := buffer.drop released, thinkingExtracted := true } }

def processContentWithThinking (content : List Char) (c : Context σ) : Context σ :=
  let c := { c with xml := { c.xml with thinkingBuffer := c.xml.thinkingBuffer ++ content } }
  if c.xml.inThinkingBlock then continueThinking env c
  else if c.xml.thinkingExtracted then emitRemainingText env c
  else detectThinking env c

def pushNativeReasoningDelta (thinking : List Char) (c : Context σ) : Context σ :=
  if thinking = [] then c
  else
    let index := c.native.blockIndex.getD c.manager.nextBlockIndex
    let c := if c.native.blockIndex.isSome then c else c.mapOut (·.startNew (.thinking [] []))
    { c.mapOut (·.push (.contentBlockDelta index (.thinkingDelta thinking))) with
      native := { c.native with
        blockIndex := some index, emitted := c.native.emitted ++ thinking } }

/-- The signature of a segment goes through the sanitizer, so that a transcript inside it
counts as suppressed. -/
def checkSignature (c : Context σ) : Context σ :=
  match c.native.signature with
  | some signature =>
    { c with thinkingTranscriptSanitizer := (env.sanitizer.finishSegment
        (env.sanitizer.push c.thinkingTranscriptSanitizer signature).2).2 }
  | none => c

def isPolluted (c : Context σ) : Bool :=
  c.native.suppressedBefore < env.sanitizer.suppressedBlocks c.thinkingTranscriptSanitizer

/-- The signature of the segment, unless it was sent or the segment is polluted. -/
def unsentSignature (c : Context σ) : Option (List Char) :=
  if isPolluted env c || c.native.signatureSent then none
  else c.native.signature.filter fun signature => signature ≠ []

def signatureDeltas (c : Context σ) : List Delta :=
  match unsentSignature env c with
  | some signature => [.signatureDelta signature]
  | none =>
    if !isPolluted env c && env.syntheticThinkingSignatures then
      [.signatureDelta (env.syntheticThinkingSignature c.native.emitted)]
    else []

/-- The text that is held goes out before the signature is looked at. -/
def endNativeSegment (c : Context σ) : Context σ :=
  let (pending, sanitizer) := env.sanitizer.finishSegment c.thinkingTranscriptSanitizer
  checkSignature env (pushNativeReasoningDelta pending { c with
    native := { c.native with segmentOpen := false }, thinkingTranscriptSanitizer := sanitizer })

def stopNativeBlock (c : Context σ) : Context σ :=
  match c.native.blockIndex with
  | none => c
  | some index =>
    let deltas := signatureDeltas env c
    { c.mapOut fun o =>
        (deltas.foldl (fun o delta => o.push (.contentBlockDelta index delta)) o).stop index with
      native := { c.native with
        blockIndex := none
        signatureSent := c.native.signatureSent || (unsentSignature env c).isSome } }

def closeNativeReasoningBlock (c : Context σ) : Context σ :=
  if c.native.segmentOpen then stopNativeBlock env (endNativeSegment env c) else c

/-- A reasoning event of the upstream. -/
structure ReasoningContent where
  text : List Char
  signature : Option (List Char)
  redactedContent : Option (List Char)
  deriving DecidableEq, Repr

/-- Native reasoning follows the text: what is held of it is sent and its block stopped. -/
def endTextBeforeReasoning (c : Context σ) : Context σ :=
  let c := flushTextSegment env c
  if env.thinkingEnabled then
    match c.text.textBlockIndex with
    | some index =>
      { c with path := ⟨c.out.stop index, { c.text with textBlockIndex := none }⟩ }
    | none => c
  else c

def openNativeSegment (c : Context σ) : Context σ :=
  if c.native.segmentOpen then c
  else { c with native := { c.native with
    segmentOpen := true
    content := []
    emitted := []
    blockIndex := none
    signature := none
    signatureSent := false
    suppressedBefore := env.sanitizer.suppressedBlocks c.thinkingTranscriptSanitizer } }

def processReasoningContent (reasoning : ReasoningContent) (c : Context σ) : Context σ :=
  if env.thinkingEnabled then
    let c := { c with native := { c.native with seen := true } }
    match reasoning.redactedContent with
    | some redacted =>
      let c := closeNativeReasoningBlock env c
      let index := c.manager.nextBlockIndex
      c.mapOut fun o => (o.startNew (.redactedThinking redacted)).stop index
    | none =>
      let c := openNativeSegment env c
      let signature := match reasoning.signature with
        | some signature => if signature = [] then c.native.signature else some signature
        | none => c.native.signature
      let c := { c with native := { c.native with signature := signature } }
      if reasoning.text = [] then c
      else
        let (content, delta) := mergeNativeReasoningText c.native.content reasoning.text
        let (safe, sanitizer) := env.sanitizer.push c.thinkingTranscriptSanitizer delta
        pushNativeReasoningDelta safe { c with
          native := { c.native with content := content }
          thinkingTranscriptSanitizer := sanitizer }
  else c

def emitAssistantResponseContent (content : List Char) (c : Context σ) : Context σ :=
  let c := if c.native.seen then closeNativeReasoningBlock env c else c
  if env.xmlThinking && !c.native.seen then processContentWithThinking env content c
  else createTextDeltaEvents env content c

def shouldBufferTrivialText (content : List Char) (c : Context σ) : Bool :=
  if env.knownToolNames = [] ∨ c.manager.hasToolUse ∨ 0 < c.text.visibleTextCharsEmitted ∨
      c.pendingTrivialText ≠ [] then false
  else isTrivialToolPreambleText content

def flushPendingTrivialText (c : Context σ) : Context σ :=
  if c.pendingTrivialText = [] then c
  else emitAssistantResponseContent env c.pendingTrivialText { c with pendingTrivialText := [] }

def processAssistantResponse (content : List Char) (c : Context σ) : Context σ :=
  if content = [] then c
  else if shouldBufferTrivialText env content c then
    { c with pendingTrivialText := c.pendingTrivialText ++ content }
  else emitAssistantResponseContent env content (flushPendingTrivialText env c)

end Context

end KiroProxy.Stream
