import KiroProxy.ConversationHistory.Content

/-!
# Building a history

The messages before the last one become turns that alternate between user and assistant.
Neighbouring messages of one role share a turn, other roles are skipped. A pair of turns
with the system prompt comes first; a turn with a placeholder stands in front of a
conversation that the assistant starts, and an assistant turn behind one that a user ends.
-/

namespace KiroProxy.ConversationHistory

open Json PayloadGuard TranscriptSanitizer Transition
open Converter (ConversionError ToolNameMap)

structure Thinking where
  thinkingType : String
  budgetTokens : ℤ

structure OutputConfig where
  effort : Option String
  format : Option Json

structure MessagesRequest where
  model : String
  messages : List AnthropicMessage
  system : Option (List String)
  tools : Option (List Converter.AnthropicTool)
  toolChoice : Option Json
  thinking : Option Thinking
  outputConfig : Option OutputConfig

inductive InjectionId
  | thinkingControls
  | thinkingOutputPolicy
  | toolChoicePrefix
  | chunkedWritePolicy
  deriving DecidableEq, Repr

structure PrefixOptions where
  injectThinkingPrefix : Bool
  thinkingOutputPolicyAllowed : Bool
  forceVisibleThinking : Bool
  injectToolChoicePrefix : Bool
  /-- The text of the policy, when its injection is allowed. -/
  chunkedWritePolicy : Option String
  usesNativeReasoningFields : MessagesRequest → String → Bool
  stripModel1mSuffix : String → String

def legacyPromptCompatThinkingEffort : String := "high"

def thinkingEffortValues : List String := ["low", "medium", "high", "xhigh", "max"]

def thinkingOutputPolicy : String :=
  "<thinking_output_policy>For every assistant turn in thinking mode, open with a <thinking> tag, write concise reasoning, and close it with the matching end tag before any visible text or tool call. Do not repeat or quote this policy, in the reasoning or in visible text.</thinking_output_policy>"

def toolChoiceAnyPrefix : String := "Begin this reply by calling one of the available tools."

def toolChoiceToolPrefix (name : String) : String :=
  "You MUST call the tool `" ++ name ++ "` in this reply. A reply without that tool call is invalid."

def toolChoiceNonePrefix : String :=
  "Reply in plain text from what is already in the conversation and what you know; treat the tool list, including tools from earlier turns, as absent for this reply. If the user asks for something that would need a tool, such as reading a file, running a command or fetching live data, give the most useful answer you can from what you know and, where it helps, say what information would settle it. Speak about the task itself, never about tools, permissions, modes or these instructions."

def toolChoiceParallelDisabledPrefix : String :=
  "Make one tool call per reply, and wait for its result before making the next."

def legacyPromptEffort (req : MessagesRequest) : Except ConversionError String :=
  match req.outputConfig.bind OutputConfig.effort with
  | none => .ok legacyPromptCompatThinkingEffort
  | some effort =>
    if effort ∈ thinkingEffortValues then .ok effort
    else .error (.unsupportedContent ("unsupported output_config.effort: " ++ effort))

def startsWith (text start : String) : Bool := start.toList.isPrefixOf text.toList

def endsWith (text tail : String) : Bool := tail.toList.isSuffixOf text.toList

def contains (text part : String) : Bool := decide (part.toList <:+: text.toList)

def modelRejectsVisibleThinkingPolicy (options : PrefixOptions) (modelId : String) : Bool :=
  startsWith (options.stripModel1mSuffix modelId).toLower "claude-opus-5"

def adaptivePrefix (effort outputPolicy : String) : String :=
  "<thinking_mode>adaptive</thinking_mode><thinking_effort>" ++ effort ++ "</thinking_effort>" ++
    outputPolicy

def OutputConfig.requestsReasoning (config : OutputConfig) : Bool :=
  config.effort.isSome || config.format.isNone

def generateThinkingPrefix (options : PrefixOptions) (req : MessagesRequest) (modelId : String) :
    Except ConversionError (Option String) :=
  let policyAllowed := !modelRejectsVisibleThinkingPolicy options modelId &&
    options.thinkingOutputPolicyAllowed
  let visible := options.forceVisibleThinking ||
    endsWith (options.stripModel1mSuffix req.model) "-thinking"
  let policy (allowed : Bool) := if policyAllowed && allowed then "\n" ++ thinkingOutputPolicy else ""
  let fromOutputConfig : Except ConversionError (Option String) :=
    if req.outputConfig.any OutputConfig.requestsReasoning then do
      let effort ← legacyPromptEffort req
      return some (adaptivePrefix effort (policy visible))
    else .ok none
  match req.thinking with
  | none => fromOutputConfig
  | some thinking =>
    if thinking.thinkingType = "disabled" then .ok none
    else
      let outputPolicy := policy (visible || thinking.thinkingType == "enabled")
      if thinking.thinkingType = "enabled" then
        .ok (some ("<thinking_mode>enabled</thinking_mode><max_thinking_length>" ++
          toString thinking.budgetTokens ++ "</max_thinking_length>" ++ outputPolicy))
      else if thinking.thinkingType = "adaptive" then do
        let effort ← legacyPromptEffort req
        return some (adaptivePrefix effort outputPolicy)
      else fromOutputConfig

def generateThinkingPrefixForModel (options : PrefixOptions) (req : MessagesRequest)
    (modelId : String) : Except ConversionError (Option String) :=
  if options.usesNativeReasoningFields req modelId then .ok none
  else generateThinkingPrefix options req modelId

def injectedThinkingPrefix (options : PrefixOptions) (req : MessagesRequest) (modelId : String) :
    Except ConversionError (Option String) :=
  if options.injectThinkingPrefix then generateThinkingPrefixForModel options req modelId
  else .ok none

def hasThinkingTags (content : String) : Bool :=
  contains content "<thinking_mode>" || contains content "<max_thinking_length>"

def kiroFacingToolChoiceName (req : MessagesRequest) (requestedName : String)
    (toolNameMap : ToolNameMap) : String :=
  let mappedOf (name : String) := (toolNameMap.find? fun entry => entry.2 == name).map Prod.fst
  match mappedOf requestedName with
  | some mapped => mapped
  | none =>
    let matching := (req.tools.getD []).filter fun tool => tool.name != requestedName &&
      Converter.sanitizeToolName tool.name == Converter.sanitizeToolName requestedName
    match matching with
    | [tool] => (mappedOf tool.name).getD tool.name
    | _ => requestedName

def requestDeclaresTools (req : MessagesRequest) : Bool :=
  req.tools.any fun tools => !tools.isEmpty

def requestDeclaresWriteOrEdit (req : MessagesRequest) : Bool :=
  (req.tools.getD []).any fun tool => tool.name == "Write" || tool.name == "Edit"

def blocksOf (message : AnthropicMessage) : List Json := (asArray message.content).getD []

def isToolUseBlock (block : Json) : Bool := getStr "type" block == some "tool_use"

def requestHistoryHasToolUse (req : MessagesRequest) : Bool :=
  req.messages.any fun message => (blocksOf message).any isToolUseBlock

def parallelToolUseDisabled (toolChoice : Option Json) : Bool :=
  ((toolChoice.bind (getKey "disable_parallel_tool_use")).bind asBool).getD false

def toolChoiceDirectivePrefix (req : MessagesRequest) (toolNameMap : ToolNameMap) :
    Converter.ToolChoiceDirective → Option String
  | .any => some toolChoiceAnyPrefix
  | .tool name => some (toolChoiceToolPrefix (kiroFacingToolChoiceName req name toolNameMap))
  | .none =>
    if requestDeclaresTools req || requestHistoryHasToolUse req then some toolChoiceNonePrefix
    else none
  | .auto | .unknown =>
    if !requestDeclaresTools req && requestHistoryHasToolUse req then some toolChoiceNonePrefix
    else none

def generateToolChoicePrefix (options : PrefixOptions) (req : MessagesRequest)
    (toolNameMap : ToolNameMap) : Option String :=
  if !options.injectToolChoicePrefix then none
  else
    let directive := Converter.parseToolChoice req.toolChoice
    let parallelDisabled := directive ≠ .none && requestDeclaresTools req &&
      parallelToolUseDisabled req.toolChoice
    let directivePrefix := toolChoiceDirectivePrefix req toolNameMap directive
    if !parallelDisabled then directivePrefix
    else
      some (match directivePrefix with
        | some text => text ++ " " ++ toolChoiceParallelDisabledPrefix
        | none => toolChoiceParallelDisabledPrefix)

def recordPrefixes (thinkingPrefix toolChoicePrefix : Option String) : List InjectionId :=
  (match thinkingPrefix with
    | some text => .thinkingControls ::
      if contains text thinkingOutputPolicy then [.thinkingOutputPolicy] else []
    | none => []) ++ if toolChoicePrefix.isSome then [.toolChoicePrefix] else []

def systemAcknowledgement : String := "I will follow these instructions."

def userTurn (content : String) : Message := .user ⟨content, [], []⟩

def assistantTurn (content : String) : Message := .assistant ⟨content, none, none⟩

/-- The two turns with the system prompt, with the injections they make. -/
def systemTurns (options : PrefixOptions) (req : MessagesRequest)
    (thinkingPrefix toolChoicePrefix : Option String) : List Message × List InjectionId :=
  match req.system with
  | some system =>
    let content := "\n".intercalate system
    if content = "" then ([], [])
    else
      let policy := if requestDeclaresWriteOrEdit req then
        (options.chunkedWritePolicy.map fun text => String.ofList (trimChars text.toList)).filter
          (· ≠ "") else none
      let content := match policy with
        | some text => content ++ "\n" ++ text
        | none => content
      let content := match toolChoicePrefix with
        | some text => text ++ "\n" ++ content
        | none => content
      let injected := thinkingPrefix.isSome && !hasThinkingTags content
      let final := match thinkingPrefix with
        | some text => if injected then text ++ "\n" ++ content else content
        | none => content
      let recorded := if injected then recordPrefixes thinkingPrefix toolChoicePrefix
        else if toolChoicePrefix.isSome then [.toolChoicePrefix] else []
      ([userTurn final, assistantTurn systemAcknowledgement],
        (if policy.isSome then [.chunkedWritePolicy] else []) ++ recorded)
  | none =>
    let prefixes := thinkingPrefix.toList ++ toolChoicePrefix.toList
    if prefixes = [] then ([], [])
    else
      ([userTurn ("\n".intercalate prefixes), assistantTurn systemAcknowledgement],
        recordPrefixes thinkingPrefix toolChoicePrefix)

variable (readers : Readers)

def toolUseNames (message : AnthropicMessage) : List String :=
  (blocksOf message).filterMap fun block => if isToolUseBlock block then getStr "name" block else none

def toolResultsProvidedPlaceholder : String := "Tool result received."

/-- The texts of several messages in one turn. Kiro accepts no empty content. -/
def joinUserTexts (texts : List String) (hasToolResults : Bool) : String :=
  let content := "\n".intercalate (texts.filter (· ≠ ""))
  if isBlankText content then
    if hasToolResults then toolResultsProvidedPlaceholder else emptyUserContentPlaceholder
  else content

def processMessages : Option SeenHistoryImages → List AnthropicMessage →
    Except ConversionError (List UserContent × Option SeenHistoryImages)
  | seenImages, [] => .ok ([], seenImages)
  | seenImages, message :: messages => do
    let content ← processMessageContent readers .history seenImages message.content
    let (contents, seenImages) ← processMessages content.seenImages messages
    return (content :: contents, seenImages)

/-- `merge_user_messages_with_dedup` -/
def mergeUserMessages (seenImages : Option SeenHistoryImages) (messages : List AnthropicMessage) :
    Except ConversionError (UserMessage × Option SeenHistoryImages) := do
  let (contents, seenImages) ← processMessages readers seenImages messages
  let toolResults := contents.flatMap UserContent.toolResults
  return (⟨joinUserTexts (contents.map UserContent.text) (!toolResults.isEmpty),
    contents.flatMap UserContent.images, toolResults⟩, seenImages)

/-- The length of the generated thinking at the start of a converted message. -/
def generatedThinkingPrefixLen (message : AnthropicMessage) (content : List Char) : Option ℕ :=
  let unsigned (block : ContentBlock) : Bool := block.signature.all fun signature =>
    signature == "" || readers.isSyntheticThinkingSignature signature
  let thinking := (((blocksOf message).filterMap ContentBlock.fromValue).filter fun block =>
    block.blockType == "thinking" && unsigned block).filterMap ContentBlock.thinking
  let thinking := thinking.flatMap String.toList
  if thinking = [] then none
  else
    let tag := thinkingTag thinking
    if content = tag then some tag.length
    else if (tag ++ ['\n', '\n']).isPrefixOf content then some (tag ++ ['\n', '\n']).length
    else none

structure AssistantMerge where
  toolUses : List ToolUseEntry
  reasoningContent : Option Json
  contentParts : List (List Char × Option ℕ)
  toolNameMap : ToolNameMap
  warnings : ProxyWarnings

def AssistantMerge.setNativeReasoning (current next : Option Json) :
    Except ConversionError (Option Json) :=
  match next with
  | none => .ok current
  | some reasoning =>
    if current.isSome then
      .error (.unsupportedContent "consecutive assistant messages contain multiple native reasoning blocks and cannot be merged losslessly")
    else .ok (some reasoning)

def AssistantMerge.add (options : Options) (knownToolNames : List String) (merge : AssistantMerge)
    (message : AnthropicMessage) : Except ConversionError AssistantMerge := do
  let converted ← convertAssistantMessage readers options knownToolNames merge.toolNameMap
    merge.warnings message.content
  let part := (converted.content, generatedThinkingPrefixLen readers message converted.content)
  let reasoningContent ← setNativeReasoning merge.reasoningContent converted.reasoningContent
  return {
    toolUses := merge.toolUses ++ converted.toolUses
    reasoningContent
    contentParts := if isBlank converted.content then merge.contentParts
      else merge.contentParts ++ [part]
    toolNameMap := converted.toolNameMap
    warnings := converted.warnings }

/-- The second pass of the sanitizer, over the joined parts. -/
structure JoinScan where
  sanitized : List Char
  sanitizer : ToolTranscriptSanitizer
  suppressedBlocks : ℕ
  suppressedChars : ℕ

namespace JoinScan

def emit (scan : JoinScan) (text : List Char) : JoinScan :=
  { scan with sanitized := scan.sanitized ++ text }

def push (scan : JoinScan) (text : List Char) : JoinScan :=
  let (sanitizer, output) := scan.sanitizer.push text
  { scan with sanitized := scan.sanitized ++ output, sanitizer }

/-- Counters are 32 and 64 bits wide. -/
def finish (scan : JoinScan) : JoinScan :=
  let (sanitizer, output) := scan.sanitizer.finish
  { sanitized := scan.sanitized ++ output
    sanitizer
    suppressedBlocks := min (scan.suppressedBlocks + sanitizer.suppressedBlocks) (2 ^ 32 - 1)
    suppressedChars := min (scan.suppressedChars + sanitizer.suppressedChars) (2 ^ 64 - 1) }

/-- A generated thinking tag is not read by the sanitizer; another one reads what follows. -/
def addPart (knownToolNames : List String) (first : Bool) (scan : JoinScan) :
    List Char × Option ℕ → JoinScan
  | (part, none) => (if first then scan else scan.push ['\n', '\n']).push part
  | (part, some prefixLen) =>
    let scan := { scan.finish with sanitizer := .new readers.sha256 knownToolNames }
    let scan := if first then scan else scan.emit ['\n', '\n']
    (scan.emit (part.take prefixLen)).push (part.drop prefixLen)

def addParts (knownToolNames : List String) :
    Bool → JoinScan → List (List Char × Option ℕ) → JoinScan
  | _, scan, [] => scan
  | first, scan, part :: parts =>
    addParts knownToolNames false (scan.addPart readers knownToolNames first part) parts

end JoinScan

def mapNames (toolNameMap : ToolNameMap) : List String :=
  toolNameMap.map Prod.fst ++ toolNameMap.map Prod.snd

def joinAssistantParts (options : Options) (knownToolNames : List String)
    (parts : List (List Char × Option ℕ)) : List Char × ℕ × ℕ :=
  if options.strict then (['\n', '\n'].intercalate (parts.map Prod.fst), 0, 0)
  else
    let start : JoinScan := ⟨[], .new readers.sha256 knownToolNames, 0, 0⟩
    let scan := (start.addParts readers knownToolNames true parts).finish
    (scan.sanitized, scan.suppressedBlocks, scan.suppressedChars)

structure MergedAssistant where
  message : AssistantMessage
  toolNameMap : ToolNameMap
  warnings : ProxyWarnings

/-- `merge_assistant_messages_with_known_tools`, for at least one message. -/
def mergeAssistantMessages (options : Options) (knownToolNames : List String)
    (toolNameMap : ToolNameMap) (warnings : ProxyWarnings) (messages : List AnthropicMessage) :
    Except ConversionError MergedAssistant := do
  let names := knownToolNames ++ messages.flatMap toolUseNames
  let merge ← messages.foldlM
    (fun (merge : AssistantMerge) message => merge.add readers options names message)
    ⟨[], none, [], toolNameMap, warnings⟩
  let (content, blocks, chars) :=
    joinAssistantParts readers options (names ++ mapNames merge.toolNameMap) merge.contentParts
  let content := if isBlank content then [' '] else content
  return ⟨⟨String.ofList content, if merge.toolUses.isEmpty then none else some merge.toolUses,
    merge.reasoningContent⟩, merge.toolNameMap, merge.warnings.record blocks chars⟩

structure HistoryBuild where
  history : List Message
  userBuffer : List AnthropicMessage
  assistantBuffer : List AnthropicMessage
  seenImages : Option SeenHistoryImages
  toolNameMap : ToolNameMap
  warnings : ProxyWarnings

namespace HistoryBuild

variable (options : Options) (knownToolNames : List String)

def flushUser (build : HistoryBuild) : Except ConversionError HistoryBuild := do
  let (user, seenImages) ← mergeUserMessages readers build.seenImages build.userBuffer
  return { build with history := build.history ++ [.user user], userBuffer := [], seenImages }

def flushAssistant (build : HistoryBuild) : Except ConversionError HistoryBuild := do
  let merged ← mergeAssistantMessages readers options knownToolNames build.toolNameMap
    build.warnings build.assistantBuffer
  return { build with
    history := build.history ++ [.assistant merged.message]
    assistantBuffer := []
    toolNameMap := merged.toolNameMap
    warnings := merged.warnings }

def endsWithUser (history : List Message) : Bool :=
  match history.getLast? with
  | some (.user _) => true
  | _ => false

/-- The assistant messages so far become a turn. -/
def settleAssistant (build : HistoryBuild) : Except ConversionError HistoryBuild :=
  if build.assistantBuffer ≠ [] then build.flushAssistant readers options knownToolNames
  else .ok build

def settleUser (build : HistoryBuild) : Except ConversionError HistoryBuild :=
  if build.userBuffer ≠ [] then build.flushUser readers
  else if build.assistantBuffer = [] ∧ endsWithUser build.history = false then
    .ok { build with history := build.history ++ [userTurn emptyUserContentPlaceholder] }
  else .ok build

def add (build : HistoryBuild) (message : AnthropicMessage) : Except ConversionError HistoryBuild :=
  if message.role = "user" then do
    let build ← build.settleAssistant readers options knownToolNames
    return { build with userBuffer := build.userBuffer ++ [message] }
  else if message.role = "assistant" then do
    let build ← build.settleUser readers
    return { build with assistantBuffer := build.assistantBuffer ++ [message] }
  else .ok build

/-- The ends of the buffers. A user turn at the end is paired with an answer. -/
def finish (build : HistoryBuild) : Except ConversionError HistoryBuild := do
  let build ← build.settleAssistant readers options knownToolNames
  if build.userBuffer ≠ [] then do
    let build ← build.flushUser readers
    return { build with history := build.history ++ [assistantTurn "OK"] }
  else .ok build

end HistoryBuild

structure BuiltHistory where
  history : List Message
  toolNameMap : ToolNameMap
  warnings : ProxyWarnings
  appliedInjections : List InjectionId

def knownNames (req : MessagesRequest) (toolNameMap : ToolNameMap)
    (messages : List AnthropicMessage) : List String :=
  (req.tools.getD []).map Converter.AnthropicTool.name ++ mapNames toolNameMap ++
    messages.flatMap toolUseNames

/-- All messages but the last, which is the current one, become history. -/
def buildHistory (options : Options) (prefixes : PrefixOptions) (req : MessagesRequest)
    (messages : List AnthropicMessage) (modelId : String) (toolNameMap : ToolNameMap)
    (warnings : ProxyWarnings) : Except ConversionError BuiltHistory := do
  let knownToolNames := knownNames req toolNameMap messages
  let thinkingPrefix ← injectedThinkingPrefix prefixes req modelId
  let toolChoicePrefix := generateToolChoicePrefix prefixes req toolNameMap
  let system := systemTurns prefixes req thinkingPrefix toolChoicePrefix
  let seenImages := if options.historyImageDedup then some [] else none
  let build ← messages.dropLast.foldlM
    (fun (build : HistoryBuild) message => build.add readers options knownToolNames message)
    ⟨system.1, [], [], seenImages, toolNameMap, warnings⟩
  let build ← build.finish readers options knownToolNames
  return ⟨build.history, build.toolNameMap, build.warnings, system.2⟩

end KiroProxy.ConversationHistory
