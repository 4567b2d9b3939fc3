import KiroProxy.KeyedList
import KiroProxy.Text

/-!
# Tool names of responses

The name of a tool in a response is resolved to the name that the client declared. The
tool name map and the set of known names are lists in their iteration order.
-/

namespace KiroProxy.ToolNameRestore

def toolHashMarker : List Char := "Hash".toList

def toolHashHexLen : ℕ := 8

def isAsciiHexdigit (c : Char) : Bool :=
  c.isDigit || ('a' ≤ c && c ≤ 'f') || ('A' ≤ c && c ≤ 'F')

def stripHashSuffix (name : List Char) : List Char :=
  let markerEnd := name.length - toolHashHexLen
  if toolHashHexLen ≤ name.length ∧ (name.drop markerEnd).all isAsciiHexdigit then
    match (name.take markerEnd).dropSuffix? toolHashMarker with
    | some head => if head = [] then name else head
    | none => name
  else name

def normalizedToolName (name : String) : List Char :=
  ((stripHashSuffix name.toList).filter Char.isAlphanum).map Char.toLower

structure ResolvedToolName where
  upstream : String
  original : String
  deriving DecidableEq, Repr

def pushUnique (matched : List ResolvedToolName) (candidate : ResolvedToolName) :
    List ResolvedToolName :=
  if matched.any fun m => m.original = candidate.original then matched else matched ++ [candidate]

variable (toolNameMap : List (String × String)) (knownToolNames : List String)

/-- The declared tools whose normalized name is the given one, one for each original. -/
def normalizedMatches (wanted : List Char) : List ResolvedToolName :=
  let matched := toolNameMap.foldl (fun matched (mapped, original) =>
    if normalizedToolName mapped = wanted ∨ normalizedToolName original = wanted then
      pushUnique matched ⟨mapped, original⟩
    else matched) []
  knownToolNames.foldl (fun matched name =>
    if (KeyedList.get name toolNameMap).isSome ∨ toolNameMap.any (fun entry => entry.2 = name) then
      matched
    else if normalizedToolName name = wanted then pushUnique matched ⟨name, name⟩
    else matched) matched

def resolveResponseToolName (upstreamName : String) : ResolvedToolName :=
  match KeyedList.get upstreamName toolNameMap with
  | some original => ⟨upstreamName, original⟩
  | none =>
    if toolNameMap.any (fun entry => entry.2 = upstreamName) ∨ upstreamName ∈ knownToolNames then
      ⟨upstreamName, upstreamName⟩
    else
      let wanted := normalizedToolName upstreamName
      let matched := if wanted = [] then [] else normalizedMatches toolNameMap knownToolNames wanted
      match matched with
      | [resolved] => resolved
      | _ => ⟨upstreamName, upstreamName⟩

theorem resolveResponseToolName_of_mapped {upstreamName original : String}
    (h : KeyedList.get upstreamName toolNameMap = some original) :
    resolveResponseToolName toolNameMap knownToolNames upstreamName = ⟨upstreamName, original⟩ := by
  rw [resolveResponseToolName, h]

theorem resolveResponseToolName_of_known {upstreamName : String}
    (h : KeyedList.get upstreamName toolNameMap = none) (hknown : upstreamName ∈ knownToolNames) :
    resolveResponseToolName toolNameMap knownToolNames upstreamName =
      ⟨upstreamName, upstreamName⟩ := by
  rw [resolveResponseToolName, h]
  exact if_pos (.inr hknown)

example : (resolveResponseToolName [("mcpFsListHash0123abcd", "mcp__fs.list")] ["Bash"]
    "mcp_fs_list").original = "mcp__fs.list" := by decide +kernel

end KiroProxy.ToolNameRestore
