/-!
# Server-sent events of the Messages API

The events that the stream context hands to its output filters. Strings are lists
of characters, so that a cut between two chunks is a cut between two characters.
-/

namespace KiroProxy

inductive BlockType
  | text
  | thinking
  | redactedThinking
  | toolUse
  | serverToolUse
  | codeExecutionToolResult
  deriving DecidableEq, Repr

inductive ContentBlock
  | text (text : List Char)
  | thinking (thinking signature : List Char)
  | redactedThinking (data : List Char)
  | toolUse (id name input : List Char)
  | serverToolUse (id name input : List Char)
  | codeExecutionToolResult (toolUseId stdout stderr : List Char) (returnCode : Int)
  deriving DecidableEq, Repr

def ContentBlock.type : ContentBlock → BlockType
  | .text _ => .text
  | .thinking _ _ => .thinking
  | .redactedThinking _ => .redactedThinking
  | .toolUse _ _ _ => .toolUse
  | .serverToolUse _ _ _ => .serverToolUse
  | .codeExecutionToolResult _ _ _ _ => .codeExecutionToolResult

inductive Delta
  | textDelta (text : List Char)
  | thinkingDelta (thinking : List Char)
  | signatureDelta (signature : List Char)
  | inputJsonDelta (partialJson : List Char)
  deriving DecidableEq, Repr

def Delta.text? : Delta → Option (List Char)
  | .textDelta text => some text
  | _ => none

/-- The usage object of `messageDelta` and the message object of `messageStart` are
not read by any filter. -/
inductive SseEvent
  | messageStart
  | contentBlockStart (index : Nat) (block : ContentBlock)
  | contentBlockDelta (index : Nat) (delta : Delta)
  | contentBlockStop (index : Nat)
  | messageDelta (stopReason : List Char) (stopSequence : Option (List Char))
  | messageStop
  | error (errorType message : List Char)
  deriving DecidableEq, Repr

def SseEvent.textFor (index : Nat) : SseEvent → List Char
  | .contentBlockDelta i (.textDelta text) => if i = index then text else []
  | _ => []

def visibleText (index : Nat) (events : List SseEvent) : List Char :=
  events.flatMap (SseEvent.textFor index)

@[simp] theorem visibleText_nil (index : Nat) : visibleText index [] = [] := rfl

@[simp] theorem visibleText_cons (index : Nat) (event : SseEvent) (events : List SseEvent) :
    visibleText index (event :: events) = event.textFor index ++ visibleText index events := rfl

@[simp] theorem visibleText_append (index : Nat) (events events' : List SseEvent) :
    visibleText index (events ++ events') =
      visibleText index events ++ visibleText index events' :=
  List.flatMap_append

def textDeltas (index : Nat) (chunks : List (List Char)) : List SseEvent :=
  chunks.map fun chunk => .contentBlockDelta index (.textDelta chunk)

def blockStream (index : Nat) (chunks : List (List Char)) : List SseEvent :=
  .contentBlockStart index (.text []) :: (textDeltas index chunks ++ [.contentBlockStop index])

end KiroProxy
