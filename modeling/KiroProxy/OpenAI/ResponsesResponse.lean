import KiroProxy.OpenAI.Response

/-!
# Responses

`translateMessage` translates a complete message into one response, `ResponsesStreamTranslator` its
stream into numbered events. Items for texts are opened with their first text, items for calls at
their start, and each takes the next slot of the output. `Runtime` is what the code takes from its
libraries: the parser and the printer of JSON values, and the generated parts of ids.
-/

namespace KiroProxy.OpenAI

structure ResponsesUsage where
  inputTokens : ℕ
  cachedTokens : ℕ
  outputTokens : ℕ
  totalTokens : ℕ
  deriving DecidableEq, Repr

def Usage.toResponses (usage : Usage) : ResponsesUsage where
  inputTokens := usage.totalInput
  cachedTokens := usage.cacheRead
  outputTokens := usage.output
  totalTokens := saturatingAdd usage.totalInput usage.output

namespace Responses
open MessageStream Transducer

structure Runtime where
  parse : List Char → Option Json
  print : Json → List Char
  freshId : List Char
  /-- For the item in this slot of the output. -/
  freshItemId : ℕ → List Char

inductive Status
  | inProgress
  | completed
  | incomplete
  | failed
  deriving DecidableEq, Repr

def terminalStatus (stopReason : Option (List Char)) : Status × Option (List Char) :=
  if stopReason = some "max_tokens".toList ∨
      stopReason = some "model_context_window_exceeded".toList then
    (.incomplete, some "max_output_tokens".toList)
  else if stopReason = some "refusal".toList then (.incomplete, some "content_filter".toList)
  else (.completed, none)

inductive Item
  /-- The texts of the parts of its content. -/
  | message (id : List Char) (status : Status) (content : List (List Char))
  | reasoning (id : List Char) (summary : List (List Char))
  | functionCall (id callId name : List Char) (toolNamespace : Option (List Char))
      (arguments : List Char) (status : Status)
  | customToolCall (id callId name : List Char) (toolNamespace : Option (List Char))
      (input : List Char) (status : Status)
  deriving DecidableEq, Repr

/-- The arguments of a custom tool wrap a text; others are given as they are. -/
def customToolInput (parse : List Char → Option Json) (arguments : List Char) : List Char :=
  match parse arguments with
  | some (.obj fields) =>
    match Json.getField fields "input" with
    | some (.str input) => input.toList
    | _ => arguments
  | _ => arguments

/-- A tool of a group is declared under a name that stands for the group and its own name. -/
structure DeclaredTools where
  custom : List (List Char)
  namespaced : List (List Char × (List Char × List Char))

namespace DeclaredTools

def isCustom (declared : DeclaredTools) (name : List Char) : Bool := name ∈ declared.custom

def restore (declared : DeclaredTools) : Item → Item
  | .functionCall id callId flat toolNamespace arguments status =>
    match KeyedList.get flat declared.namespaced with
    | some (toolNamespace, name) =>
      .functionCall id callId name (some toolNamespace) arguments status
    | none => .functionCall id callId flat toolNamespace arguments status
  | .customToolCall id callId flat toolNamespace input status =>
    match KeyedList.get flat declared.namespaced with
    | some (toolNamespace, name) => .customToolCall id callId name (some toolNamespace) input status
    | none => .customToolCall id callId flat toolNamespace input status
  | item => item

end DeclaredTools

def toolCallItem (parse : List Char → Option Json) (id callId name arguments : List Char)
    (custom : Bool) (status : Status) : Item :=
  if custom then .customToolCall id callId name none (customToolInput parse arguments) status
  else .functionCall id callId name none arguments status

def toolCallId (runtime : Runtime) (custom : Bool) (outputIndex : ℕ) : List Char :=
  prefixedId (if custom then "ctc_".toList else "fc_".toList) (runtime.freshItemId outputIndex) none

/-- `echo` is what the response repeats of the request. -/
structure ResponseShell where
  id : List Char
  createdAt : ℤ
  model : List Char
  echo : Json.Fields

structure Response where
  shell : ResponseShell
  status : Status
  output : List Item
  usage : Option ResponsesUsage
  incompleteDetails : Option (List Char)
  error : Option (List Char × List Char)

def ResponseShell.object (shell : ResponseShell) (status : Status) (output : List Item)
    (usage : Option ResponsesUsage) (incompleteDetails : Option (List Char))
    (error : Option (List Char × List Char)) : Response :=
  ⟨shell, status, output, usage, incompleteDetails, error⟩

def ResponseShell.withId (runtime : Runtime) (shell : ResponseShell) (id : Option (List Char)) :
    ResponseShell :=
  match id with
  | some id => { shell with id := prefixedId "resp_".toList runtime.freshId (some id) }
  | none => shell

/-- The two kinds of items that hold a text. -/
inductive TextKind
  | message
  | reasoning
  deriving DecidableEq, Repr

namespace TextKind

def itemId (runtime : Runtime) (kind : TextKind) (outputIndex : ℕ) : List Char :=
  match kind with
  | message => prefixedId "msg_".toList (runtime.freshItemId outputIndex) none
  | reasoning => prefixedId "rs_".toList (runtime.freshItemId outputIndex) none

def item (kind : TextKind) (id : List Char) (status : Status) (parts : List (List Char)) : Item :=
  match kind with
  | message => .message id status parts
  | reasoning => .reasoning id parts

end TextKind

/-- The item for a block of a complete message. Empty texts have none. -/
def outputItem (runtime : Runtime) (declared : DeclaredTools) (outputIndex : ℕ) :
    Block → Option Item
  | .text text =>
    (nonEmpty text).map fun text =>
      TextKind.message.item (TextKind.message.itemId runtime outputIndex) .completed [text]
  | .thinking thinking _ =>
    (nonEmpty thinking).map fun thinking =>
      TextKind.reasoning.item (TextKind.reasoning.itemId runtime outputIndex) .completed [thinking]
  | .toolUse callId name input =>
    let custom := declared.isCustom name
    some (declared.restore (toolCallItem runtime.parse (toolCallId runtime custom outputIndex) callId
      name (toolArguments runtime.print input) custom .completed))
  | _ => none

def pushItem (runtime : Runtime) (declared : DeclaredTools) (output : List Item) (block : Block) :
    List Item :=
  output ++ (outputItem runtime declared output.length block).toList

def translateMessage (runtime : Runtime) (message : Message) (shell : ResponseShell)
    (declared : DeclaredTools) : Response :=
  let shell := { shell with model := modelOr message.model shell.model }.withId runtime message.id
  let output := message.content.foldl (pushItem runtime declared) []
  let usage := Usage.default.merge message.usage
  let (status, incompleteDetails) := terminalStatus message.stopReason
  shell.object status output (some usage.toResponses) incompleteDetails none

/-- Events of a part are those of the only part of an item. -/
inductive ResponseEvent
  | created (response : Response)
  | inProgress (response : Response)
  | completed (response : Response)
  | incomplete (response : Response)
  | failed (response : Response)
  | outputItemAdded (outputIndex : ℕ) (item : Item)
  | outputItemDone (outputIndex : ℕ) (item : Item)
  | contentPartAdded (itemId : List Char) (outputIndex : ℕ) (text : List Char)
  | contentPartDone (itemId : List Char) (outputIndex : ℕ) (text : List Char)
  | reasoningSummaryPartAdded (itemId : List Char) (outputIndex : ℕ) (text : List Char)
  | reasoningSummaryPartDone (itemId : List Char) (outputIndex : ℕ) (text : List Char)
  | outputTextDelta (itemId : List Char) (outputIndex : ℕ) (delta : List Char)
  | outputTextDone (itemId : List Char) (outputIndex : ℕ) (text : List Char)
  | reasoningSummaryTextDelta (itemId : List Char) (outputIndex : ℕ) (delta : List Char)
  | reasoningSummaryTextDone (itemId : List Char) (outputIndex : ℕ) (text : List Char)
  | functionCallArgumentsDelta (itemId : List Char) (outputIndex : ℕ) (delta : List Char)
  | functionCallArgumentsDone (itemId : List Char) (outputIndex : ℕ) (arguments : List Char)
  | customToolCallInputDelta (itemId : List Char) (outputIndex : ℕ) (delta : List Char)
  | customToolCallInputDone (itemId : List Char) (outputIndex : ℕ) (input : List Char)

inductive Frame
  | keepalive
  | event (sequenceNumber : ℕ) (event : ResponseEvent)

namespace TextKind

def opening (kind : TextKind) (id : List Char) (outputIndex : ℕ) : List ResponseEvent :=
  match kind with
  | message =>
    [.outputItemAdded outputIndex (.message id .inProgress []), .contentPartAdded id outputIndex []]
  | reasoning =>
    [.outputItemAdded outputIndex (.reasoning id []), .reasoningSummaryPartAdded id outputIndex []]

def delta (kind : TextKind) (id : List Char) (outputIndex : ℕ) (delta : List Char) :
    ResponseEvent :=
  match kind with
  | message => .outputTextDelta id outputIndex delta
  | reasoning => .reasoningSummaryTextDelta id outputIndex delta

def closing (kind : TextKind) (id : List Char) (outputIndex : ℕ) (text : List Char) :
    List ResponseEvent :=
  match kind with
  | message => [.outputTextDone id outputIndex text, .contentPartDone id outputIndex text]
  | reasoning =>
    [.reasoningSummaryTextDone id outputIndex text, .reasoningSummaryPartDone id outputIndex text]

end TextKind

inductive OpenItem
  | text (kind : TextKind) (id : List Char) (outputIndex : ℕ) (text : List Char)
  | tool (id : List Char) (outputIndex : ℕ) (callId name arguments : List Char)
      (startInput : Option (List Char)) (custom : Bool)

/-- A text block is of kind `message`, a thinking block of kind `reasoning`. -/
inductive BlockKind
  | text (kind : TextKind)
  | tool
  | skip

structure ResponsesStreamTranslator where
  shell : ResponseShell
  declared : DeclaredTools
  sequence : ℕ
  started : Bool
  finished : Bool
  blocks : List (ℕ × BlockKind)
  openItems : List (ℕ × OpenItem)
  output : List (Option Item)
  usage : Usage
  stopReason : Option (List Char)

/-- The events with the numbers from `sequence` on. -/
def numbered (sequence : ℕ) : List ResponseEvent → List Frame
  | [] => []
  | event :: events => .event sequence event :: numbered (sequence + 1) events

namespace ResponsesStreamTranslator

def new (shell : ResponseShell) (declared : DeclaredTools) : ResponsesStreamTranslator where
  shell := shell
  declared := declared
  sequence := 0
  started := false
  finished := false
  blocks := []
  openItems := []
  output := []
  usage := Usage.default
  stopReason := none

/-- The events, one after the other. -/
def emit (translator : ResponsesStreamTranslator) (events : List ResponseEvent) :
    ResponsesStreamTranslator × List Frame :=
  ({ translator with sequence := translator.sequence + events.length },
    numbered translator.sequence events)

def snapshotOutput (translator : ResponsesStreamTranslator) : List Item :=
  translator.output.filterMap id

def ensureStarted (translator : ResponsesStreamTranslator) :
    ResponsesStreamTranslator × List Frame :=
  if translator.started then (translator, [])
  else
    let response := translator.shell.object .inProgress [] none none none
    { translator with started := true }.emit [.created response, .inProgress response]

def fail (translator : ResponsesStreamTranslator) (errorType message : List Char) :
    ResponsesStreamTranslator × List Frame :=
  if translator.finished then (translator, [])
  else
    let (translator, out) := translator.ensureStarted
    let response := translator.shell.object .failed translator.snapshotOutput
      (some translator.usage.toResponses) none (some (errorType, message))
    let (translator, out') := { translator with finished := true }.emit [.failed response]
    (translator, out ++ out')

/-- The upstream ends before `messageStop`. -/
def onEnd (translator : ResponsesStreamTranslator) : ResponsesStreamTranslator × List Frame :=
  translator.fail apiError "upstream stream ended before the response completed".toList

/-- An item is opened with the first text of its block. -/
def openText (runtime : Runtime) (translator : ResponsesStreamTranslator) (index : ℕ) :
    ResponsesStreamTranslator × List Frame :=
  match KeyedList.get index translator.openItems with
  | some _ => (translator, [])
  | none =>
    let outputIndex := translator.output.length
    let translator : ResponsesStreamTranslator :=
      { translator with output := translator.output ++ [none] }
    match KeyedList.get index translator.blocks with
    | some (.text kind) =>
      let id := kind.itemId runtime outputIndex
      { translator with
        openItems := KeyedList.insert index (.text kind id outputIndex [])
          translator.openItems }.emit (kind.opening id outputIndex)
    | _ => (translator, [])

def appendText (runtime : Runtime) (translator : ResponsesStreamTranslator) (index : ℕ)
    (delta : List Char) : ResponsesStreamTranslator × List Frame :=
  let (translator, out) := translator.openText runtime index
  match KeyedList.get index translator.openItems with
  | some (.text kind id outputIndex text) =>
    let (translator, out') := { translator with
      openItems := KeyedList.insert index (.text kind id outputIndex (text ++ delta))
        translator.openItems }.emit [kind.delta id outputIndex delta]
    (translator, out ++ out')
  | _ => (translator, out)

def appendNonEmpty (runtime : Runtime) (translator : ResponsesStreamTranslator) (index : ℕ)
    (delta : List Char) : ResponsesStreamTranslator × List Frame :=
  if delta = [] then (translator, []) else translator.appendText runtime index delta

/-- The item of a call is opened at its start. -/
def openTool (runtime : Runtime) (translator : ResponsesStreamTranslator) (index : ℕ)
    (callId name : List Char) (input : Json.Fields) : ResponsesStreamTranslator × List Frame :=
  let custom := translator.declared.isCustom name
  let outputIndex := translator.output.length
  let id := toolCallId runtime custom outputIndex
  let item := toolCallItem runtime.parse id callId name [] custom .inProgress
  let startInput := if input = [] then none else some (toolArguments runtime.print input)
  { translator with
    output := translator.output ++ [none]
    openItems := KeyedList.insert index
      (.tool id outputIndex callId name [] startInput custom) translator.openItems }.emit
    [.outputItemAdded outputIndex (translator.declared.restore item)]

def blockStart (runtime : Runtime) (translator : ResponsesStreamTranslator) (index : ℕ)
    (block : Block) : ResponsesStreamTranslator × List Frame :=
  let (translator, out) := translator.ensureStarted
  let withKind (kind : BlockKind) (translator : ResponsesStreamTranslator) :=
    { translator with blocks := KeyedList.insert index kind translator.blocks }
  match block with
  | .text text =>
    let (translator, out') :=
      (withKind (.text .message) translator).appendNonEmpty runtime index text
    (translator, out ++ out')
  | .thinking thinking _ =>
    let (translator, out') :=
      (withKind (.text .reasoning) translator).appendNonEmpty runtime index thinking
    (translator, out ++ out')
  | .toolUse callId name input =>
    let (translator, out') := translator.openTool runtime index callId name input
    (withKind .tool translator, out ++ out')
  | _ => (withKind .skip translator, out)

/-- The arguments of a custom tool are not given before they are complete. -/
def appendArguments (translator : ResponsesStreamTranslator) (index : ℕ)
    (partialJson : List Char) : ResponsesStreamTranslator × List Frame :=
  match KeyedList.get index translator.openItems with
  | some (.tool id outputIndex callId name arguments _ custom) =>
    { translator with
      openItems := KeyedList.insert index
        (.tool id outputIndex callId name (arguments ++ partialJson) none custom)
        translator.openItems }.emit
      (if !custom ∧ partialJson ≠ [] then
        [.functionCallArgumentsDelta id outputIndex partialJson]
      else [])
  | _ => (translator, [])

def blockDelta (runtime : Runtime) (translator : ResponsesStreamTranslator) (index : ℕ)
    (delta : Delta) : ResponsesStreamTranslator × List Frame :=
  let (translator, out) := translator.ensureStarted
  let (translator, out') :=
    match delta, KeyedList.get index translator.blocks with
    | .textDelta text, some (.text .message) => translator.appendNonEmpty runtime index text
    | .thinkingDelta thinking, some (.text .reasoning) =>
      translator.appendNonEmpty runtime index thinking
    | .inputJsonDelta partialJson, some .tool => translator.appendArguments index partialJson
    | _, _ => (translator, [])
  (translator, out ++ out')

/-- The input at the start counts where no delta came, and no input is the empty object. -/
def pendingArguments (arguments : List Char) : Option (List Char) → List Char
  | some startInput => startInput
  | none => if arguments = [] then ['\x7b', '\x7d'] else []

/-- The item takes its slot. -/
def finishItem (translator : ResponsesStreamTranslator) (outputIndex : ℕ) (item : Item)
    (events : List ResponseEvent) : ResponsesStreamTranslator × List Frame :=
  emit { translator with output := translator.output.set outputIndex (some item) }
    (events ++ [.outputItemDone outputIndex item])

def blockStop (runtime : Runtime) (translator : ResponsesStreamTranslator) (index : ℕ) :
    ResponsesStreamTranslator × List Frame :=
  let item := KeyedList.get index translator.openItems
  let translator :=
    { translator with
      blocks := KeyedList.remove index translator.blocks
      openItems := KeyedList.remove index translator.openItems }
  match item with
  | none => (translator, [])
  | some (.text kind id outputIndex text) =>
    translator.finishItem outputIndex (kind.item id .completed [text])
      (kind.closing id outputIndex text)
  | some (.tool id outputIndex callId name arguments startInput custom) =>
    let pending := pendingArguments arguments startInput
    let arguments := arguments ++ pending
    let input := customToolInput runtime.parse arguments
    let item := toolCallItem runtime.parse id callId name arguments custom .completed
    translator.finishItem outputIndex (translator.declared.restore item)
      (if custom then
        [.customToolCallInputDelta id outputIndex input, .customToolCallInputDone id outputIndex input]
      else
        (if pending = [] then [] else [.functionCallArgumentsDelta id outputIndex pending]) ++
          [.functionCallArgumentsDone id outputIndex arguments])

def terminalEvent (response : Response) : ResponseEvent :=
  if response.status = .completed then .completed response else .incomplete response

/-- Blocks that are still open are closed. -/
def complete (runtime : Runtime) (translator : ResponsesStreamTranslator) :
    ResponsesStreamTranslator × List Frame :=
  let (translator, out) := translator.ensureStarted
  let (translator, out') := run (blockStop runtime) translator (translator.openItems.map Prod.fst)
  let (status, incompleteDetails) := terminalStatus translator.stopReason
  let response := translator.shell.object status translator.snapshotOutput
    (some translator.usage.toResponses) incompleteDetails none
  let (translator, out'') :=
    { translator with finished := true }.emit [terminalEvent response]
  (translator, out ++ out' ++ out'')

def messageStart (runtime : Runtime) (translator : ResponsesStreamTranslator)
    (id model : Option (List Char)) (usage : UsageFields) :
    ResponsesStreamTranslator × List Frame :=
  let translator :=
    if translator.started then translator
    else
      { translator with
        shell := { translator.shell with
          model := modelOr model translator.shell.model }.withId runtime id }
  { translator with usage := translator.usage.merge usage }.ensureStarted

def onEvent (runtime : Runtime) (translator : ResponsesStreamTranslator) (message : SseMessage) :
    ResponsesStreamTranslator × List Frame :=
  if translator.finished then (translator, [])
  else
    match message with
    | .empty => (translator, [])
    | .malformed => translator.fail apiError "upstream stream sent malformed data".toList
    | .other => (translator, [])
    | .event .ping => (translator, [.keepalive])
    | .event (.messageStart id model usage) => translator.messageStart runtime id model usage
    | .event (.contentBlockStart index block) => translator.blockStart runtime index block
    | .event (.contentBlockDelta index delta) => translator.blockDelta runtime index delta
    | .event (.contentBlockStop index) => translator.blockStop runtime index
    | .event (.messageDelta stopReason usage) =>
      ({ translator with
          usage := translator.usage.merge usage
          stopReason := stopReason.or translator.stopReason }, [])
    | .event .messageStop => translator.complete runtime
    | .event (.error errorType message) =>
      translator.fail (errorType.getD apiError) (message.getD "upstream error".toList)

end ResponsesStreamTranslator

end Responses

end KiroProxy.OpenAI
