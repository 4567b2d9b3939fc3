import KiroProxy.Stream.ToolUse

/-!
# The stream context: events and the end of the stream

What one event of the upstream does, and the events at the end of the stream. Usage and
diagnostics are left out.
-/

namespace KiroProxy.Stream

/-- The upstream events, with the fields that the stream reads. A metadata event carries the
refusal of a content filter, a context usage event whether the window is used up. -/
inductive Event
  | assistantResponse (content : List Char)
  | code (content : List Char)
  | reasoningContent (reasoning : Context.ReasoningContent)
  | toolUse (toolUse : ToolUse)
  | metadata (contentFilterRefusal : Option String)
  | contextUsage (isFull : Bool)
  | messageMetadata
  | metering
  | invalidState (message : String)
  | error (message : String)
  | exception (exceptionType message : String)
  | unknown
  deriving DecidableEq, Repr

def responseProtocolContaminationDetail : String :=
  "upstream assistant response contained suppressed internal protocol transcript"

namespace Context

variable {σ : Type} (env : Environment σ)

def recordUpstreamEvent (event : Event) (c : Context σ) : Context σ :=
  match event with
  | .assistantResponse content | .code content =>
    { c with sawUpstreamAssistantContent := c.sawUpstreamAssistantContent || !content.isEmpty }
  | .reasoningContent reasoning =>
    { c with sawUpstreamReasoningContent := c.sawUpstreamReasoningContent ||
        !reasoning.text.isEmpty || reasoning.signature.any (!·.isEmpty) ||
        reasoning.redactedContent.any (!·.isEmpty) }
  | .toolUse _ => { c with sawUpstreamToolUse := true }
  | _ => c

def recordContentFilterRefusal (refusal : String) (c : Context σ) : Context σ :=
  { c.mapOut (·.setStopReason refusalStopReason) with
    upstreamContentFilterRefusal := some (c.upstreamContentFilterRefusal.getD refusal) }

def processKiroEvent (event : Event) (c : Context σ) : Context σ :=
  let c := recordUpstreamEvent event c
  match event with
  | .assistantResponse content => processAssistantResponse env content c
  | .code content => processAssistantResponse env content c
  | .reasoningContent reasoning =>
    processReasoningContent env reasoning (endTextBeforeReasoning env c)
  | .toolUse toolUse => processToolUse env toolUse c
  | .metadata (some refusal) => recordContentFilterRefusal refusal c
  | .metadata none => c
  | .contextUsage true => c.mapOut (·.setStopReason "model_context_window_exceeded")
  | .contextUsage false => c
  | .messageMetadata => c
  | .metering => c
  | .invalidState message => c.recordStreamError "invalid_request_error" message
  | .error message => c.recordStreamError "api_error" message
  | .exception exceptionType message =>
    if exceptionType = "ContentLengthExceededException" ∧ c.hasMeaningfulUpstreamResponse then
      c.mapOut (·.setStopReason "max_tokens")
    else c.recordStreamError "api_error" message
  | .unknown => c

def generateInitialEvents (c : Context σ) : Context σ :=
  c.mapOut fun o =>
    let (event, manager) := o.manager.handleMessageStart
    ⟨manager, o.events ++ event.toList⟩

def endReasoning (c : Context σ) : Context σ :=
  if c.native.seen then
    let c := closeNativeReasoningBlock env c
    { c with xml := { c.xml with
      thinkingBuffer := [], inThinkingBlock := false, thinkingExtracted := true } }
  else c

def flushToolCalls (c : Context σ) : Context σ :=
  if c.streamError.isSome then
    { c with tools := { c.tools with pendingToolStarts := [] } }
  else if c.upstreamContentFilterRefusal.isSome then
    { c with tools := { c.tools with
      toolInputBuffers := [], toolInputScanners := [], pendingToolStarts := [] } }
  else
    completeCodeExecutions env
      (fun _ => ⟨[], "code execution input was not received".toList, 1⟩)
      (flushPendingToolStarts env (flushIncompleteToolInputBuffers env c))

def flushThinkingBuffer (c : Context σ) : Context σ :=
  let buffer := c.xml.thinkingBuffer
  if env.xmlThinking && buffer ≠ [] then
    let c := if c.xml.inThinkingBlock then
        let tag := c.thinkingTag
        match env.findRealThinkingEndTagFor buffer tag c.xml.lastXmlThinkingChar true with
        | some (stop, _) =>
          createTextDeltaEvents env (trimStart (buffer.drop (stop + tag.closeTag.length)))
            (finishXmlThinking env (buffer.take stop) c)
        | none => closeXmlThinkingBlock env (pushXmlThinkingDelta env buffer c)
      else createTextDeltaEvents env buffer c
    { c with xml := { c.xml with thinkingBuffer := [] } }
  else c

def suppressedToolContextLeakBlocks (c : Context σ) : ℕ :=
  env.sanitizer.suppressedBlocks c.toolTranscriptSanitizer +
    env.sanitizer.suppressedBlocks c.thinkingTranscriptSanitizer

def recordContamination (c : Context σ) : Context σ :=
  if 0 < suppressedToolContextLeakBlocks env c ∧ c.streamError.isNone then
    c.recordStreamError "api_error" responseProtocolContaminationDetail
  else c

/-- The literal tool calls and the text that were still held. -/
def flushLeakedTools (c : Context σ) : Context σ :=
  let c := if c.text.invokeSniffBuffer = [] then c else drainInvokeSniffBuffer env true c
  emitQueuedLeakedToolUses env c

def isThinkingOnly (c : Context σ) : Bool :=
  env.thinkingEnabled && !c.manager.hasNonThinkingBlocks &&
    (c.native.seen || (env.extractXmlThinking && c.xml.thinkingBlockIndex.isSome))

/-- A response of thinking alone ends with a blank text. -/
def emitThinkingOnlyText (c : Context σ) : Context σ :=
  if isThinkingOnly env c then
    let c := if c.manager.stopReason.isNone then c.mapOut (·.setStopReason "end_turn") else c
    createSanitizedTextDeltaEvents env [' '] c
  else c

def emitStreamError (error : String × String) (c : Context σ) : Context σ :=
  let c := { flushLeakedTools env c with streamError := none }
  let message := env.publicStreamErrorMessage error.1 error.2 c.hasMeaningfulUpstreamResponse
  let errorType := if error.1 = "api_error" then "overloaded_error" else error.1
  c.mapOut fun o => o.closeOpenNonToolUseBlocks.push (.error errorType.toList message.toList)

/-- Everything before the last events of the message. -/
def flushStream (c : Context σ) : Context σ :=
  let c := flushToolCalls env (flushPendingTrivialText env (endReasoning env c))
  recordContamination env (flushTextSegment env (flushThinkingBuffer env c))

def generateFinalEvents (c : Context σ) : Context σ :=
  let c := flushStream env c
  match c.streamError with
  | some error => emitStreamError env error c
  | none =>
    (flushLeakedTools env (emitThinkingOnlyText env c)).mapOut
      Output.generateFinalEventsWithUsage

end Context

end KiroProxy.Stream
