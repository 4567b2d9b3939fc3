import KiroProxy.Json
import KiroProxy.Text

/-!
# The repair of tool calls and results

Before a request is sent upstream, the tool calls of its assistant turns and the tool results of
the turns that follow them are brought into exact pairs. Seven passes run in a fixed order, each
with a counter of what it has changed: empty results get a placeholder, empty lists of calls are
dropped, then blank and repeated calls of a turn, ids that are used again get new names, repeated
results go, results without their call, and calls without their result.

A pass gives the new history with the number of its changes.
-/

namespace KiroProxy.PayloadGuard

structure ToolResult where
  toolUseId : String
  content : List Json.Fields
  status : Option String
  isError : Bool

structure ToolUseEntry where
  toolUseId : String
  name : String
  input : Json

structure KiroImage where
  format : String
  /-- The data of the source, in base64. -/
  bytes : Option String

/-- A user turn of the history, or the current message. -/
structure UserMessage where
  content : String
  images : List KiroImage
  toolResults : List ToolResult

structure AssistantMessage where
  content : String
  toolUses : Option (List ToolUseEntry)
  reasoningContent : Option Json

inductive Message
  | user (user : UserMessage)
  | assistant (assistant : AssistantMessage)

structure Tool where
  name : String
  description : String
  inputSchema : Json

structure KiroRequest where
  history : List Message
  current : UserMessage
  /-- The tools of the current message. -/
  tools : List Tool

structure RepairStats where
  normalizedEmptyToolResults : ℕ
  removedEmptyToolUses : ℕ
  removedDuplicateToolUses : ℕ
  renamedDuplicateToolUses : ℕ
  removedOrphanToolResults : ℕ
  removedDuplicateToolResults : ℕ
  removedOrphanToolUses : ℕ
  deriving DecidableEq, Repr

def RepairStats.default : RepairStats := ⟨0, 0, 0, 0, 0, 0, 0⟩

def RepairStats.wasModified (stats : RepairStats) : Bool :=
  0 < stats.normalizedEmptyToolResults || 0 < stats.removedEmptyToolUses ||
    0 < stats.removedDuplicateToolUses || 0 < stats.renamedDuplicateToolUses ||
    0 < stats.removedOrphanToolResults || 0 < stats.removedDuplicateToolResults ||
    0 < stats.removedOrphanToolUses

def emptyToolResultContentPlaceholder : String := "Tool result content was empty."

def emptyUserContentPlaceholder : String := "."

/-- The text is empty when it is trimmed. -/
def isBlankText (text : String) : Bool := isBlank text.toList

def resultIds (results : List ToolResult) : List String := results.map ToolResult.toolUseId

def useIds (toolUses : List ToolUseEntry) : List String := toolUses.map ToolUseEntry.toolUseId

def AssistantMessage.ids (assistant : AssistantMessage) : List String :=
  useIds (assistant.toolUses.getD [])

/-- The ids of the results that may answer an assistant turn before these turns. -/
def nextToolResultIds (current : List ToolResult) : List Message → List String
  | [] => resultIds current
  | .user user :: _ => resultIds user.toolResults
  | .assistant _ :: _ => []

/-- The ids of the last turn, if it is the assistant's; `previous` are those before the turns. -/
def lastAssistantToolUseIds (previous : List String) : List Message → List String
  | [] => previous
  | .user _ :: rest => lastAssistantToolUseIds [] rest
  | .assistant assistant :: rest => lastAssistantToolUseIds assistant.ids rest

def toolResultItemHasContent (item : Json.Fields) : Bool :=
  (((Json.getField item "text").bind Json.asStr).any fun text => !isBlankText text) ||
    item.any fun field => field.1 != "type" && field.1 != "text" &&
      match field.2 with
      | .null => false
      | _ => true

def toolResultHasNonEmptyContent (result : ToolResult) : Bool :=
  result.content.any toolResultItemHasContent

def normalizeToolResult (result : ToolResult) : ToolResult :=
  if toolResultHasNonEmptyContent result then result
  else { result with content := [[("text", .str emptyToolResultContentPlaceholder)]] }

def normalizeToolResultsContent (results : List ToolResult) : List ToolResult × ℕ :=
  (results.map normalizeToolResult,
    results.countP fun result => !toolResultHasNonEmptyContent result)

/-- Work on the results of every user turn. -/
def onUserResults (pass : List ToolResult → List ToolResult × ℕ) :
    List Message → List Message × ℕ
  | [] => ([], 0)
  | .user user :: rest =>
    let (results, changed) := pass user.toolResults
    let (rest, changes) := onUserResults pass rest
    (.user { user with toolResults := results } :: rest, changed + changes)
  | .assistant assistant :: rest =>
    let (rest, changes) := onUserResults pass rest
    (.assistant assistant :: rest, changes)

def normalizeEmptyToolResultContents : List Message → List Message × ℕ :=
  onUserResults normalizeToolResultsContent

/-- Work on the calls of every assistant turn, which may depend on the turns after it. -/
def onToolUses (pass : List Message → Option (List ToolUseEntry) →
    Option (List ToolUseEntry) × ℕ) : List Message → List Message × ℕ
  | [] => ([], 0)
  | .user user :: rest =>
    let (rest, changes) := onToolUses pass rest
    (.user user :: rest, changes)
  | .assistant assistant :: rest =>
    let (toolUses, changed) := pass rest assistant.toolUses
    let (rest, changes) := onToolUses pass rest
    (.assistant { assistant with toolUses := toolUses } :: rest, changed + changes)

def stripEmptyToolUses : List Message → List Message × ℕ :=
  onToolUses fun _ toolUses =>
    match toolUses with
    | some [] => (none, 1)
    | _ => (toolUses, 0)

def keepFirst {α : Type} (key : α → String) : List String → List α → List α
  | _, [] => []
  | seen, item :: items =>
    if key item ∈ seen then keepFirst key seen items
    else item :: keepFirst key (key item :: seen) items

/-- What is left of the calls of a turn; no calls are `none`. -/
def retainToolUses (retain : List ToolUseEntry → List ToolUseEntry) :
    Option (List ToolUseEntry) → Option (List ToolUseEntry) × ℕ
  | none => (none, 0)
  | some toolUses =>
    let kept := retain toolUses
    (if kept.isEmpty then none else some kept, toolUses.length - kept.length)

def dedupeToolUses : List Message → List Message × ℕ :=
  onToolUses fun _ => retainToolUses fun toolUses =>
    keepFirst ToolUseEntry.toolUseId []
      (toolUses.filter fun toolUse => !isBlankText toolUse.toolUseId)

def dedupeToolResultsKeepFirst (results : List ToolResult) : List ToolResult × ℕ :=
  if results.length ≤ 1 then (results, 0)
  else
    let kept := keepFirst ToolResult.toolUseId [] results
    (kept, results.length - kept.length)

def dedupeHistoryToolResults : List Message → List Message × ℕ :=
  onUserResults dedupeToolResultsKeepFirst

def duplicateToolUseId (originalId : String) (assistantIndex candidateIndex : ℕ) : String :=
  originalId ++ "__dup" ++ toString assistantIndex ++ "_" ++ toString candidateIndex

/-- The loop over candidates, which ends when one is not seen. -/
def findUnseen (originalId : String) (seen : Finset String) (assistantIndex : ℕ) : ℕ → ℕ → String
  | 0, candidateIndex => duplicateToolUseId originalId assistantIndex candidateIndex
  | fuel + 1, candidateIndex =>
    let candidate := duplicateToolUseId originalId assistantIndex candidateIndex
    if candidate ∉ seen then candidate
    else findUnseen originalId seen assistantIndex fuel (candidateIndex + 1)

/-- As many candidates as there are seen ids cannot all be seen, and one more. -/
def makeUniqueDuplicateToolUseId (originalId : String) (seen : Finset String)
    (assistantIndex : ℕ) : String :=
  findUnseen originalId seen assistantIndex seen.card 1

def renameMatchingToolResults (oldId newId : String) (results : List ToolResult) :
    List ToolResult :=
  results.map fun result =>
    if result.toolUseId = oldId then { result with toolUseId := newId } else result

structure Renamed where
  seen : Finset String
  toolUses : List ToolUseEntry
  /-- The results of the turn after the assistant's. -/
  results : List ToolResult
  renamed : ℕ

def renameToolUses (idx : ℕ) (seen : Finset String) (results : List ToolResult) :
    List ToolUseEntry → Renamed
  | [] => ⟨seen, [], results, 0⟩
  | toolUse :: toolUses =>
    let toolUseId := trim toolUse.toolUseId
    if toolUseId = "" then
      let next := renameToolUses idx seen results toolUses
      { next with toolUses := toolUse :: next.toolUses }
    else if toolUseId ∉ seen then
      let next := renameToolUses idx (insert toolUseId seen) results toolUses
      { next with toolUses := toolUse :: next.toolUses }
    else
      let newId := makeUniqueDuplicateToolUseId toolUseId seen idx
      let next := renameToolUses idx (insert newId seen)
        (renameMatchingToolResults toolUseId newId results) toolUses
      { next with
        toolUses := { toolUse with toolUseId := newId } :: next.toolUses
        renamed := next.renamed + 1 }

/-- The renaming from a turn on, with the ids seen before it and the results of the current
message. An assistant turn after an assistant turn has no results to rename. -/
def renameFrom (idx : ℕ) (seen : Finset String) (current : List ToolResult) :
    List Message → List Message × List ToolResult × ℕ
  | [] => ([], current, 0)
  | .user user :: rest =>
    let (rest, current, renamed) := renameFrom (idx + 1) seen current rest
    (.user user :: rest, current, renamed)
  | .assistant ⟨content, none, reasoning⟩ :: rest =>
    let (rest, current, renamed) := renameFrom (idx + 1) seen current rest
    (.assistant ⟨content, none, reasoning⟩ :: rest, current, renamed)
  | [.assistant ⟨content, some toolUses, reasoning⟩] =>
    let next := renameToolUses idx seen current toolUses
    ([.assistant ⟨content, some next.toolUses, reasoning⟩], next.results, next.renamed)
  | .assistant ⟨content, some toolUses, reasoning⟩ :: .user user :: rest =>
    let next := renameToolUses idx seen user.toolResults toolUses
    let (rest, current, renamed) := renameFrom (idx + 2) next.seen current rest
    (.assistant ⟨content, some next.toolUses, reasoning⟩ ::
      .user { user with toolResults := next.results } :: rest, current, next.renamed + renamed)
  | .assistant ⟨content, some toolUses, reasoning⟩ :: .assistant assistant :: rest =>
    let next := renameToolUses idx seen [] toolUses
    let (rest, current, renamed) :=
      renameFrom (idx + 1) next.seen current (.assistant assistant :: rest)
    (.assistant ⟨content, some next.toolUses, reasoning⟩ :: rest, current, next.renamed + renamed)

def renameRepeatedToolUseIds (history : List Message) (current : List ToolResult) :
    List Message × List ToolResult × ℕ := renameFrom 0 ∅ current history

def repairToolResults (validIds : List String) (user : UserMessage) : UserMessage × ℕ :=
  if user.toolResults.isEmpty then (user, 0)
  else
    let kept := user.toolResults.filter fun result => result.toolUseId ∈ validIds
    ({ user with
       content :=
        if user.toolResults.length ≠ kept.length ∧ kept.isEmpty ∧ isBlankText user.content then
          emptyUserContentPlaceholder
        else user.content
       toolResults := kept }, user.toolResults.length - kept.length)

/-- The calls of the turn before are valid. -/
def repairOrphansFrom (validIds : List String) : List Message → List Message × ℕ
  | [] => ([], 0)
  | .user user :: rest =>
    let (user, removed) := repairToolResults validIds user
    let (rest, changes) := repairOrphansFrom [] rest
    (.user user :: rest, removed + changes)
  | .assistant assistant :: rest =>
    let (rest, changes) := repairOrphansFrom assistant.ids rest
    (.assistant assistant :: rest, changes)

def repairOrphanToolResults : List Message → List Message × ℕ := repairOrphansFrom []

def removeUnpairedToolUses (current : List ToolResult) : List Message → List Message × ℕ :=
  onToolUses fun rest => retainToolUses fun toolUses =>
    toolUses.filter fun toolUse => toolUse.toolUseId ∈ nextToolResultIds current rest

def repairRequest (request : KiroRequest) : KiroRequest × RepairStats :=
  let ⟨history, ⟨content, images, results⟩, tools⟩ := request
  let (history, normalized) := normalizeEmptyToolResultContents history
  let (results, normalizedCurrent) := normalizeToolResultsContent results
  let (history, stripped) := stripEmptyToolUses history
  let (history, removedDuplicateUses) := dedupeToolUses history
  let (history, results, renamed) := renameRepeatedToolUseIds history results
  let (history, removedDuplicates) := dedupeHistoryToolResults history
  let (history, orphans) := repairOrphanToolResults history
  let (results, removedCurrentDuplicates) := dedupeToolResultsKeepFirst results
  let (current, currentOrphans) :=
    repairToolResults (lastAssistantToolUseIds [] history) ⟨content, images, results⟩
  let (history, unpaired) := removeUnpairedToolUses current.toolResults history
  (⟨history, current, tools⟩,
    { normalizedEmptyToolResults := normalized + normalizedCurrent
      removedEmptyToolUses := stripped
      removedDuplicateToolUses := removedDuplicateUses
      renamedDuplicateToolUses := renamed
      removedOrphanToolResults := orphans + currentOrphans
      removedDuplicateToolResults := removedDuplicates + removedCurrentDuplicates
      removedOrphanToolUses := unpaired })

end KiroProxy.PayloadGuard
