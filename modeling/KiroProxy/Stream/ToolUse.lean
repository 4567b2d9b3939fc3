import KiroProxy.Stream.Context

/-!
# The stream context: tool calls

Fragments of tool calls, calls recovered from text, and code execution. A call's block is
started at its first input fragment or at its end, and it stays open until the call ends
with an input that is one JSON value.
-/

namespace KiroProxy.Stream

structure ToolUse where
  name : String
  toolUseId : String
  input : List Char
  stop : Bool
  deriving DecidableEq, Repr

def isCodeExecutionName (name : String) : Bool :=
  name = "code_execution" || name = "bash_code_execution"

structure ExecutionResult where
  stdout : List Char
  stderr : List Char
  returnCode : ℤ
  deriving DecidableEq, Repr

namespace Context

variable {σ : Type} (env : Environment σ)

/-- Whether the call may be forwarded. The decision of the first fragment stands. -/
def admitCall (toolUseId name : String) (c : Context σ) : Bool × Context σ :=
  let gate := c.tools.responseToolGate
  match KeyedList.get toolUseId gate.decisions with
  | some admitted => (admitted, c)
  | none =>
    let unavailable := toAsciiLowercase (trim name) ∈ env.unavailableToolNames
    let admitted : Bool := !unavailable && (env.maxToolUses.all fun max => gate.admitted < max)
    let decisions := if toolUseId = "" then gate.decisions
      else KeyedList.insert toolUseId admitted gate.decisions
    (admitted, { c with tools := { c.tools with responseToolGate :=
      ⟨decisions, if admitted then gate.admitted + 1 else gate.admitted⟩ } })

/-- Ends the thinking of XML text before a tool call. Without an end tag the thinking goes on
after the call, in a block of its own. -/
def endThinkingBeforeTool (c : Context σ) : Context σ :=
  if env.xmlThinking && c.xml.inThinkingBlock then
    let tag := c.thinkingTag
    let buffer := c.xml.thinkingBuffer
    match env.findRealThinkingEndTagFor buffer tag c.xml.lastXmlThinkingChar true with
    | some (stop, _) =>
      let c := finishXmlThinking env (buffer.take stop) c
      createTextDeltaEvents env (trimStart (buffer.drop (stop + tag.closeTag.length)))
        { c with xml := { c.xml with thinkingBuffer := [] } }
    | none =>
      let c := { c with xml := { c.xml with
        thinkingBuffer := []
        lastXmlThinkingChar :=
          if buffer = [] then c.xml.lastXmlThinkingChar else buffer.getLast? } }
      closeXmlThinkingBlock env (pushXmlThinkingDelta env buffer c)
  else c

/-- The text that was kept while looking for a start tag. -/
def flushUndecidedText (c : Context σ) : Context σ :=
  if env.xmlThinking && !c.xml.inThinkingBlock && !c.xml.thinkingExtracted then
    createTextDeltaEvents env c.xml.thinkingBuffer
      { c with xml := { c.xml with thinkingBuffer := [] } }
  else c

/-- Everything that an admitted tool event sends before its own block. -/
def prepareToolUse (c : Context σ) : Context σ :=
  let c := { c.mapOut Output.setHasToolUse with pendingTrivialText := [] }
  let c := if c.native.seen then
      let c := closeNativeReasoningBlock env c
      { c with xml := { c.xml with thinkingBuffer := [] } }
    else c
  flushTextSegment env (flushUndecidedText env (endThinkingBeforeTool env c))

def resolveToolName (name : String) : ToolNameRestore.ResolvedToolName :=
  ToolNameRestore.resolveResponseToolName env.toolNameMap env.knownToolNames name

def isCodeExecution (name : String) : Bool :=
  env.codeExecution && isCodeExecutionName (resolveToolName env name).original

/-- No input yet: the block is started later. -/
def isDeferred (toolUseId : String) (toolUse : ToolUse) (c : Context σ) : Bool :=
  (KeyedList.get toolUseId c.tools.toolBlockIndices).isNone && toolUse.input.isEmpty &&
    !toolUse.stop

def deferToolStart (toolUseId name : String) (c : Context σ) : Context σ :=
  { c with tools := { c.tools with
    toolInputNames := KeyedList.insert toolUseId name c.tools.toolInputNames
    pendingToolStarts := if toolUseId ∈ c.tools.pendingToolStarts then c.tools.pendingToolStarts
      else c.tools.pendingToolStarts ++ [toolUseId] } }

def toolBlockIndex (toolUseId : String) (c : Context σ) : ℕ × Context σ :=
  match KeyedList.get toolUseId c.tools.toolBlockIndices with
  | some index => (index, c)
  | none =>
    let index := c.manager.nextBlockIndex
    (index, { c.mapOut Output.takeBlockIndex with tools := { c.tools with
      toolBlockIndices := KeyedList.insert toolUseId index c.tools.toolBlockIndices } })

def bufferToolInput (toolUseId upstreamName : String) (input : List Char) (c : Context σ) :
    Context σ :=
  let buffers := c.tools.toolInputBuffers
  { c with tools := { c.tools with
    toolInputBuffers := if input = [] then buffers
      else KeyedList.insert toolUseId ((KeyedList.get toolUseId buffers).getD [] ++ input) buffers
    toolInputNames := KeyedList.insert toolUseId upstreamName c.tools.toolInputNames } }

def eraseKey {α : Type} (key : String) (map : List (String × α)) : List (String × α) :=
  map.filter fun entry => entry.1 ≠ key

def takeToolInput (toolUseId : String) (input : List Char) (c : Context σ) :
    List Char × Context σ :=
  ((KeyedList.get toolUseId c.tools.toolInputBuffers).getD input,
    { c with tools := { c.tools with
      toolInputBuffers := eraseKey toolUseId c.tools.toolInputBuffers
      toolInputNames := eraseKey toolUseId c.tools.toolInputNames } })

def processCodeExecution (toolUseId upstreamName : String) (toolUse : ToolUse) (c : Context σ) :
    Context σ :=
  let c := bufferToolInput toolUseId upstreamName toolUse.input c
  if toolUse.stop then
    let (fullInput, c) := takeToolInput toolUseId toolUse.input c
    let input := if isBlank fullInput then "{}".toList
      else (env.parsedJson fullInput).getD "{}".toList
    { c with tools := { c.tools with
      pendingCodeExecutions := c.tools.pendingCodeExecutions ++ [input] } }
  else c

def defersInput (resolved : ToolNameRestore.ResolvedToolName) : Bool :=
  resolved.original = "AskUserQuestion" || env.hasSchemaKeyMap resolved.upstream

/-- The input as the client sees it. -/
def outputInput (resolved : ToolNameRestore.ResolvedToolName) (fullInput : List Char) :
    List Char :=
  let input := if env.hasSchemaKeyMap resolved.upstream then
      env.reverseToolInputJson resolved.upstream fullInput
    else fullInput
  if resolved.original = "AskUserQuestion" then
    env.repairToolUseInputJsonForCli resolved.original input
  else input

def forwardToolInput (toolUseId : String) (index : ℕ)
    (resolved : ToolNameRestore.ResolvedToolName) (input : List Char) (c : Context σ) :
    Context σ :=
  if defersInput env resolved then c
  else
    let scanner := (KeyedList.get toolUseId c.tools.toolInputScanners).getD {}
    let (length, scanner) := scanner.feed input
    let c := { c with tools := { c.tools with
      toolInputScanners := KeyedList.insert toolUseId scanner c.tools.toolInputScanners } }
    if input.take length = [] then c
    else c.mapOut (·.delta index (.inputJsonDelta (input.take length)))

def completeToolUse (index : ℕ) (resolved : ToolNameRestore.ResolvedToolName)
    (fullInput : List Char) (c : Context σ) : Context σ :=
  let input := outputInput env resolved fullInput
  let c := if defersInput env resolved && input ≠ [] then
      c.mapOut (·.delta index (.inputJsonDelta input))
    else c
  { c.mapOut (·.stop index) with tools := { c.tools with
    seenToolSigs := env.toolUseSignature resolved.original input :: c.tools.seenToolSigs } }

def finishToolUse (toolUseId : String) (index : ℕ)
    (resolved : ToolNameRestore.ResolvedToolName) (input : List Char) (c : Context σ) :
    Context σ :=
  let (fullInput, c) := takeToolInput toolUseId input c
  let c := { c with tools := { c.tools with
    toolInputScanners := eraseKey toolUseId c.tools.toolInputScanners } }
  match classifyToolInputJson env.isJson fullInput with
  | .valid => completeToolUse env index resolved fullInput c
  | .cleaned cleaned => completeToolUse env index resolved cleaned c
  | .invalid => { c with tools := { c.tools with invalidCompletedToolInput := true } }

/-- The part of a tool event that belongs to the call's own block. -/
def emitToolUse (toolUseId : String) (toolUse : ToolUse) (c : Context σ) : Context σ :=
  let c := { c with tools := { c.tools with
    pendingToolStarts := c.tools.pendingToolStarts.filter (· ≠ toolUseId) } }
  let (index, c) := toolBlockIndex toolUseId c
  let resolved := resolveToolName env toolUse.name
  if isCodeExecution env toolUse.name then
    processCodeExecution env toolUseId resolved.upstream toolUse c
  else
    let c := bufferToolInput toolUseId resolved.upstream toolUse.input c
    let c := c.mapOut (·.start index
      (.toolUse toolUseId.toList resolved.original.toList "{}".toList))
    let c := forwardToolInput env toolUseId index resolved toolUse.input c
    if toolUse.stop then finishToolUse env toolUseId index resolved toolUse.input c else c

def processToolUse (toolUse : ToolUse) (c : Context σ) : Context σ :=
  let toolUseId := env.publicToolUseId toolUse.toolUseId
  let gateName := (KeyedList.get toolUse.name env.toolNameMap).getD toolUse.name
  let (admitted, c) := admitCall env toolUseId gateName c
  if admitted then
    let c := prepareToolUse env c
    if isDeferred toolUseId toolUse c then deferToolStart toolUseId toolUse.name c
    else emitToolUse env toolUseId toolUse c
  else c

def resultBlock (serverId : List Char) (result : ExecutionResult) : ContentBlock :=
  .codeExecutionToolResult serverId result.stdout result.stderr result.returnCode

def emitCodeExecutionResult (input : List Char) (result : ExecutionResult) (c : Context σ) :
    Context σ :=
  let serverId := (env.randomServerToolUseId c.randomIds).toList
  let c := { c.mapOut (·.setStopReason "end_turn") with
    randomIds := c.randomIds + 1
    tools := { c.tools with codeExecutionHandled := true } }
  let serverIndex := c.manager.nextBlockIndex
  let c := c.mapOut fun o =>
    ((o.startNew (.serverToolUse serverId "bash_code_execution".toList "{}".toList)).delta
      serverIndex (.inputJsonDelta input)).stop serverIndex
  let resultIndex := c.manager.nextBlockIndex
  c.mapOut fun o => (o.startNew (resultBlock serverId result)).stop resultIndex

/-- `take_pending_code_executions`, and `complete_code_execution` for each of them. -/
def completeCodeExecutions (execute : List Char → ExecutionResult) (c : Context σ) :
    Context σ :=
  c.tools.pendingCodeExecutions.foldl
    (fun c input => emitCodeExecutionResult env input (execute input) c)
    { c with tools := { c.tools with pendingCodeExecutions := [] } }

def emitSynthesizedToolUse (tool : LeakedTool) (c : Context σ) : Context σ :=
  let toolUseId := env.randomToolUseId c.randomIds
  let c := { c with
    randomIds := c.randomIds + 1
    tools := { c.tools with seenToolSigs := tool.signature :: c.tools.seenToolSigs } }
  let (admitted, c) := admitCall env toolUseId tool.name c
  if admitted then
    let index := c.manager.nextBlockIndex
    let c := { c with tools := { c.tools with
      toolBlockIndices := KeyedList.insert toolUseId index c.tools.toolBlockIndices } }
    let content : ContentBlock := .toolUse toolUseId.toList tool.name.toList "{}".toList
    let input := tool.inputJson
    c.mapOut fun o =>
      let o := o.setHasToolUse.startNew content
      (if input = [] then o else o.delta index (.inputJsonDelta input)).stop index
  else c

def emitQueuedLeakedToolUse (c : Context σ) (tool : LeakedTool) : Context σ :=
  if tool.signature ∈ c.tools.seenToolSigs then c else emitSynthesizedToolUse env tool c

def emitQueuedLeakedToolUses (c : Context σ) : Context σ :=
  c.text.pendingLeakedTools.foldl (emitQueuedLeakedToolUse env)
    { c with path := { c.path with text := { c.text with pendingLeakedTools := [] } } }

def flushIncompleteToolInput (c : Context σ) (entry : String × List Char) : Context σ :=
  let fullInput := match classifyToolInputJson env.isJson entry.2 with
    | .cleaned cleaned => cleaned
    | .valid => entry.2
    | .invalid => entry.2
  let name := (KeyedList.get entry.1 c.tools.toolInputNames).getD ""
  let c := { c with tools := { c.tools with
    toolInputNames := eraseKey entry.1 c.tools.toolInputNames } }
  match KeyedList.get entry.1 c.tools.toolBlockIndices with
  | none => c
  | some index => completeToolUse env index (resolveToolName env name) fullInput c

def flushIncompleteToolInputBuffers (c : Context σ) : Context σ :=
  if c.tools.toolInputBuffers = [] then c
  else
    c.tools.toolInputBuffers.foldl (flushIncompleteToolInput env)
      { c with tools := { c.tools with toolInputBuffers := [], toolInputScanners := [] } }

def flushPendingToolStart (c : Context σ) (toolUseId : String) : Context σ :=
  let name := (KeyedList.get toolUseId c.tools.toolInputNames).getD ""
  processToolUse env ⟨name, toolUseId, [], true⟩ c

def flushPendingToolStarts (c : Context σ) : Context σ :=
  c.tools.pendingToolStarts.foldl (flushPendingToolStart env)
    { c with tools := { c.tools with pendingToolStarts := [] } }

end Context

end KiroProxy.Stream
