import Mathlib

/-!
# Conversation history of the upstream

The turns of a history and their tool uses and results. Payloads that no pass reads
are carried as text.
-/

namespace KiroProxy.Converter

structure ToolResult where
  toolUseId : String
  content : String
  isError : Bool
  deriving DecidableEq, Repr

structure ToolUseEntry where
  toolUseId : String
  name : String
  input : String
  deriving DecidableEq, Repr

structure UserMessage where
  content : String
  toolResults : List ToolResult
  deriving DecidableEq, Repr

structure AssistantMessage where
  content : String
  toolUses : Option (List ToolUseEntry)
  deriving DecidableEq, Repr

inductive Message
  | user (message : UserMessage)
  | assistant (message : AssistantMessage)
  deriving DecidableEq, Repr

namespace Message

def toolUseIds : Message → List String
  | .user _ => []
  | .assistant message => (message.toolUses.getD []).map ToolUseEntry.toolUseId

def toolResultIds : Message → List String
  | .user message => message.toolResults.map ToolResult.toolUseId
  | .assistant _ => []

end Message

/-- Saturating `u32` counters of repairs. -/
structure ProxyWarnings where
  orphanToolResults : Nat
  orphanToolUses : Nat
  duplicateToolResults : Nat
  deriving DecidableEq, Repr

def saturatingAdd (counter n : Nat) : Nat :=
  min (counter + n) (2 ^ 32 - 1)

def emptyUserContentPlaceholder : String := "."

/-- `char::is_whitespace`: the Unicode property `White_Space`. -/
def isWhitespace (c : Char) : Bool :=
  (9 ≤ c.toNat && c.toNat ≤ 13) || c.toNat == 0x20 || c.toNat == 0x85 || c.toNat == 0xA0 ||
    c.toNat == 0x1680 || (0x2000 ≤ c.toNat && c.toNat ≤ 0x200A) || c.toNat == 0x2028 ||
    c.toNat == 0x2029 || c.toNat == 0x202F || c.toNat == 0x205F || c.toNat == 0x3000

def isBlank (content : String) : Bool :=
  content.toList.all isWhitespace

end KiroProxy.Converter
