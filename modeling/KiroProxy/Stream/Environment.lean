import KiroProxy.Stream.ToolInput
import KiroProxy.ToolNameRestore.Resolve

/-!
# What a stream context is given

The settings of the request, and the functions that the context calls without looking
inside: the transcript sanitizer, the scanners for thinking tags and literal tool calls,
and the JSON and digest helpers. Positions count characters.
-/

namespace KiroProxy.Stream

/-- The transcript sanitizer holds back text that may belong to an internal transcript. The
end of a segment, at a tool boundary or at the end of the stream, leaves nothing held. -/
structure TranscriptSanitizer (σ : Type) where
  new : σ
  push : σ → List Char → List Char × σ
  finishSegment : σ → List Char × σ
  suppressedBlocks : σ → ℕ
  finishSegment_new : (finishSegment new).1 = []
  finishSegment_finishSegment : ∀ s, (finishSegment (finishSegment s).2).1 = []

/-- The end of the segment would release nothing. -/
def TranscriptSanitizer.Settled {σ : Type} (sanitizer : TranscriptSanitizer σ) (s : σ) : Prop :=
  (sanitizer.finishSegment s).1 = []

structure ThinkingXmlTag where
  openTag : List Char
  closeTag : List Char
  deriving DecidableEq, Repr

def thinkingXmlTag : ThinkingXmlTag := ⟨"<thinking>".toList, "</thinking>".toList⟩

def thinkXmlTag : ThinkingXmlTag := ⟨"<think>".toList, "</think>".toList⟩

inductive LiteralProtocolKind
  | functionCalls
  | searchWeb
  deriving DecidableEq, Repr

structure ParsedLiteralToolCall where
  name : String
  inputJson : List Char
  deriving DecidableEq, Repr

inductive FunctionCallsEnvelope
  | incomplete
  | complete (stop : ℕ) (calls : Option (List ParsedLiteralToolCall))
  deriving DecidableEq, Repr

inductive SearchWebEnvelope
  | incomplete
  | complete (stop : ℕ) (query : Option (List Char))
  deriving DecidableEq, Repr

structure Environment (σ : Type) where
  sanitizer : TranscriptSanitizer σ
  thinkingEnabled : Bool
  extractXmlThinking : Bool
  syntheticThinkingSignatures : Bool
  codeExecution : Bool
  toolNameMap : List (String × String)
  knownToolNames : List String
  unavailableToolNames : List String
  maxToolUses : Option ℕ
  findRealThinkingStartTagWithVariant : List Char → Option (ℕ × ThinkingXmlTag)
  thinkingOpenTagPartialStart : List Char → Option ℕ
  /-- The position of the end tag and the length of the separator after it. -/
  findRealThinkingEndTagFor : List Char → ThinkingXmlTag → Option Char → Bool → Option (ℕ × ℕ)
  findNextLiteralProtocolOpen : List Char → Option (ℕ × LiteralProtocolKind)
  trailingLiteralProtocolCandidateStart : List Char → Option ℕ
  parseFunctionCallsEnvelope : List Char → ℕ → FunctionCallsEnvelope
  parseSearchWebEnvelope : List Char → ℕ → SearchWebEnvelope
  stripTrailingStrayTokens : List Char → List Char
  knownWebsearchToolName : Option String
  searchInputJson : List Char → List Char
  isJson : List Char → Bool
  parsedJson : List Char → Option (List Char)
  hasSchemaKeyMap : String → Bool
  reverseToolInputJson : String → List Char → List Char
  repairToolUseInputJsonForCli : String → List Char → List Char
  toolUseSignature : String → List Char → List Char
  syntheticThinkingSignature : List Char → List Char
  publicIdSuffix : String → String
  randomToolUseId : ℕ → String
  randomServerToolUseId : ℕ → String
  publicStreamErrorMessage : String → String → Bool → String

namespace Environment

variable {σ : Type} (env : Environment σ)

def xmlThinking : Bool :=
  env.thinkingEnabled && env.extractXmlThinking

/-- Ids already in the public shape pass through; the others are hashed. -/
def publicToolUseId (upstreamId : String) : String :=
  if "toolu_".toList.isPrefixOf upstreamId.toList then upstreamId
  else "toolu_01" ++ env.publicIdSuffix upstreamId

theorem publicToolUseId_publicToolUseId (upstreamId : String) :
    env.publicToolUseId (env.publicToolUseId upstreamId) = env.publicToolUseId upstreamId := by
  unfold publicToolUseId
  by_cases h : "toolu_".toList.isPrefixOf upstreamId.toList = true
  · rw [if_pos h, if_pos h]
  · rw [if_neg h, String.toList_append]
    have hpublic : "toolu_".toList.isPrefixOf
        ("toolu_01".toList ++ (env.publicIdSuffix upstreamId).toList) = true := rfl
    rw [if_pos hpublic]

end Environment

end KiroProxy.Stream
