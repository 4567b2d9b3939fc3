import KiroProxy.PayloadGuard.Trim
import KiroProxy.TranscriptSanitizer.History

/-!
# The repair of client messages

The messages of a client are brought into pairs of tool calls and results before they are
converted: empty results get a placeholder, assistant messages at the front go, then results
without a call in the message before, and calls without a result in the message after.

A result without an id passes for one with the empty id when it is compared with the calls, and
for none when the calls are compared with it. `repairAnthropicMessages_sound_iff` says that this is
the one case in which the repair leaves a broken list.
-/

namespace KiroProxy.AnthropicRepair
open TranscriptSanitizer (AnthropicMessage getKey getStr asArray putKey)
open PayloadGuard (isBlankText emptyToolResultContentPlaceholder
  jsonArrayPrefixReductionFromItemBytes)

structure AnthropicRepairStats where
  normalizedEmptyToolResults : ℕ
  alignedLeadingEntries : ℕ
  removedOrphanToolResults : ℕ
  removedDuplicateToolResults : ℕ
  removedOrphanToolUses : ℕ
  deriving DecidableEq, Repr

def AnthropicRepairStats.default : AnthropicRepairStats := ⟨0, 0, 0, 0, 0⟩

def blockType (block : Json) : Option String := getStr "type" block

def isToolResult (block : Json) : Bool := blockType block = some "tool_result"

def isToolUse (block : Json) : Bool := blockType block = some "tool_use"

def contentBlocks (message : AnthropicMessage) : List Json := (asArray message.content).getD []

def anthropicToolUseIds (message : AnthropicMessage) : List String :=
  ((contentBlocks message).filter isToolUse).filterMap (getStr "id")

def anthropicToolResultIds (message : AnthropicMessage) : List String :=
  ((contentBlocks message).filter isToolResult).filterMap (getStr "tool_use_id")

def textBlock (text : String) : Json := .obj [("text", .str text), ("type", .str "text")]

/-- What stays when everything is removed. -/
def orBlank (blocks : List Json) : List Json := if blocks.isEmpty then [textBlock " "] else blocks

def anthropicToolResultItemHasContent (item : Json) : Bool :=
  match item with
  | .str text => !isBlankText text
  | .null => false
  | .obj fields =>
    ((getStr "text" item).any fun text => !isBlankText text) ||
      fields.any fun field => field.1 != "type" && field.1 != "text" &&
        match field.2 with
        | .null => false
        | _ => true
  | _ => true

def anthropicToolResultHasNonEmptyContent (block : Json) : Bool :=
  match getKey "content" block with
  | some (.str text) => !isBlankText text
  | some (.arr items) => items.any anthropicToolResultItemHasContent
  | some .null => false
  | none => false
  | some (.obj fields) => !fields.isEmpty
  | some _ => true

def isEmptyToolResult (block : Json) : Bool :=
  isToolResult block && !anthropicToolResultHasNonEmptyContent block

def normalizeBlock (block : Json) : Json :=
  if isEmptyToolResult block then
    putKey "content" (.arr [textBlock emptyToolResultContentPlaceholder]) block
  else block

def normalizeMessage (message : AnthropicMessage) : AnthropicMessage × ℕ :=
  match message with
  | ⟨role, .arr blocks⟩ =>
    if role = "user" then (⟨role, .arr (blocks.map normalizeBlock)⟩, blocks.countP isEmptyToolResult)
    else (message, 0)
  | _ => (message, 0)

def normalizeEmptyAnthropicToolResultContents (messages : List AnthropicMessage) :
    List AnthropicMessage × ℕ :=
  (messages.map fun message => (normalizeMessage message).1,
    (messages.map fun message => (normalizeMessage message).2).sum)

/-- The last message stays. -/
def alignAnthropicMessagesToUser (messages : List AnthropicMessage) : List AnthropicMessage × ℕ :=
  let removed := ((messages.take (messages.length - 1)).takeWhile fun message =>
    message.role = "assistant").length
  (messages.drop removed, removed)

structure AnthropicToolResultFilterStats where
  removedOrphans : ℕ
  removedDuplicates : ℕ

def comparedId (block : Json) : String := (getStr "tool_use_id" block).getD ""

def retainToolResults (validIds : List String) :
    List String → List Json → List Json × AnthropicToolResultFilterStats
  | _, [] => ([], ⟨0, 0⟩)
  | seen, block :: blocks =>
    if !isToolResult block then
      let (kept, stats) := retainToolResults validIds seen blocks
      (block :: kept, stats)
    else if comparedId block ∉ validIds then
      let (kept, stats) := retainToolResults validIds seen blocks
      (kept, { stats with removedOrphans := stats.removedOrphans + 1 })
    else if comparedId block ∈ seen then
      let (kept, stats) := retainToolResults validIds seen blocks
      (kept, { stats with removedDuplicates := stats.removedDuplicates + 1 })
    else
      let (kept, stats) := retainToolResults validIds (comparedId block :: seen) blocks
      (block :: kept, stats)

def filterToolResults (validIds : List String) (message : AnthropicMessage) :
    AnthropicMessage × AnthropicToolResultFilterStats :=
  match message with
  | ⟨role, .arr blocks⟩ =>
    if role = "user" then
      let (kept, stats) := retainToolResults validIds [] blocks
      (⟨role, .arr (orBlank kept)⟩, stats)
    else (message, ⟨0, 0⟩)
  | _ => (message, ⟨0, 0⟩)

/-- The ids that the results of the next message may have. -/
def callIds (message : AnthropicMessage) : List String :=
  if message.role = "assistant" then anthropicToolUseIds message else []

/-- The pass when the calls of the message before have these ids. -/
def filterInvalidFrom (validIds : List String) :
    List AnthropicMessage → List AnthropicMessage × AnthropicToolResultFilterStats
  | [] => ([], ⟨0, 0⟩)
  | message :: rest =>
    let (filtered, stats) := filterToolResults validIds message
    let (rest, stats') := filterInvalidFrom (callIds message) rest
    (filtered :: rest, ⟨stats.removedOrphans + stats'.removedOrphans,
      stats.removedDuplicates + stats'.removedDuplicates⟩)

def filterInvalidAnthropicToolResults (messages : List AnthropicMessage) :
    List AnthropicMessage × AnthropicToolResultFilterStats := filterInvalidFrom [] messages

def pairedIds : List AnthropicMessage → List String
  | [] => []
  | next :: _ => if next.role = "user" then anthropicToolResultIds next else []

def isPairedUse (ids : List String) (block : Json) : Bool :=
  !isToolUse block || (getStr "id" block).any fun id => id ∈ ids

def removeUnpairedUses (ids : List String) (message : AnthropicMessage) : AnthropicMessage × ℕ :=
  match message with
  | ⟨role, .arr blocks⟩ =>
    if role = "assistant" then
      let kept := blocks.filter (isPairedUse ids)
      let delta := blocks.length - kept.length
      (⟨role, .arr (if 0 < delta then orBlank kept else kept)⟩, delta)
    else (message, 0)
  | _ => (message, 0)

def removeUnpairedAnthropicToolUses :
    List AnthropicMessage → List AnthropicMessage × ℕ
  | [] => ([], 0)
  | message :: rest =>
    let (message, delta) := removeUnpairedUses (pairedIds rest) message
    let (rest, removed) := removeUnpairedAnthropicToolUses rest
    (message :: rest, delta + removed)

def repairAnthropicMessages (messages : List AnthropicMessage) :
    List AnthropicMessage × AnthropicRepairStats :=
  let (messages, normalized) := normalizeEmptyAnthropicToolResultContents messages
  let (messages, aligned) := alignAnthropicMessagesToUser messages
  let (messages, stats) := filterInvalidAnthropicToolResults messages
  let (messages, removed) := removeUnpairedAnthropicToolUses messages
  (messages, ⟨normalized, aligned, stats.removedOrphans, stats.removedDuplicates, removed⟩)

def startsTurn (message : AnthropicMessage) : Bool :=
  message.role = "user" && !(contentBlocks message).any isToolResult

/-- The loop over turns, from a prefix with items of these bytes; `jsonLen` is the length of a
message in JSON. Each round adds a message to the prefix, so there are no more rounds than
messages. -/
def trimPrefix (jsonLen : AnthropicMessage → ℕ) (messages : List AnthropicMessage)
    (currentBytes targetBytes : ℕ) : ℕ → ℕ → ℕ → ℕ → ℕ
  | 0, prefixLen, _, _ => prefixLen
  | fuel + 1, prefixLen, removedItemBytes, estimatedBytes =>
    if targetBytes < estimatedBytes ∧ prefixLen + 1 < messages.length then
      match (messages.drop (prefixLen + 1)).findIdx? startsTurn with
      | none => prefixLen
      | some idx =>
        let removedItemBytes := removedItemBytes +
          (((messages.drop prefixLen).take (idx + 1)).map jsonLen).sum
        let prefixLen := prefixLen + (idx + 1)
        trimPrefix jsonLen messages currentBytes targetBytes fuel prefixLen removedItemBytes
          (currentBytes -
            jsonArrayPrefixReductionFromItemBytes messages.length prefixLen removedItemBytes)
    else prefixLen

def trimAnthropicHistoryToEstimatedBudget (jsonLen : AnthropicMessage → ℕ)
    (messages : List AnthropicMessage) (currentBytes targetBytes : ℕ) :
    List AnthropicMessage × ℕ :=
  if messages.length ≤ 1 ∨ currentBytes ≤ targetBytes then (messages, 0)
  else
    let prefixLen :=
      trimPrefix jsonLen messages currentBytes targetBytes messages.length 0 0 currentBytes
    (messages.drop prefixLen, prefixLen)

/-- Each call of an assistant message has a result in the next message, which is the user's. -/
def UsesAnswered (message : AnthropicMessage) (next : Option AnthropicMessage) : Prop :=
  message.role = "assistant" → ∀ block ∈ contentBlocks message, isToolUse block = true →
    ∃ id user, getStr "id" block = some id ∧ next = some user ∧ user.role = "user" ∧
      id ∈ anthropicToolResultIds user

/-- Each result of a user message is of a call in the message before, which is the assistant's, and
no two are of one id. -/
structure ResultsAsked (previous : Option AnthropicMessage) (message : AnthropicMessage) : Prop where
  nodup : (anthropicToolResultIds message).Nodup
  asked : ∀ block ∈ contentBlocks message, isToolResult block = true →
    ∃ id assistant, getStr "tool_use_id" block = some id ∧ previous = some assistant ∧
      assistant.role = "assistant" ∧ id ∈ anthropicToolUseIds assistant

def Linked : Option AnthropicMessage → List AnthropicMessage → Prop
  | _, [] => True
  | previous, message :: rest =>
    (message.role = "user" → ResultsAsked previous message) ∧ UsesAnswered message rest.head? ∧
      Linked (some message) rest

structure Repaired (messages : List AnthropicMessage) : Prop where
  linked : Linked none messages
  first : ∀ message rest, messages = message :: rest → rest ≠ [] → message.role ≠ "assistant"
  /-- Another repair changes nothing. -/
  stable : repairAnthropicMessages messages = (messages, .default)

structure SoundRepair (jsonLen : AnthropicMessage → ℕ) (messages : List AnthropicMessage) : Prop where
  repaired : Repaired (repairAnthropicMessages messages).1
  trimmed : ∀ currentBytes targetBytes,
    let repaired := (repairAnthropicMessages messages).1
    let trimmed :=
      trimAnthropicHistoryToEstimatedBudget jsonLen repaired currentBytes targetBytes
    trimmed.1 = repaired.drop trimmed.2 ∧ (repaired ≠ [] → trimmed.2 < repaired.length) ∧
      Repaired trimmed.1

def NamelessFirst (blocks : List Json) : Prop :=
  ∃ block, blocks.find? (fun block => isToolResult block && comparedId block = "") = some block ∧
    getStr "tool_use_id" block = none

/-- No user message has such a result after a call with the empty id. -/
def Named : List String → List AnthropicMessage → Prop
  | _, [] => True
  | validIds, message :: rest =>
    (message.role = "user" → "" ∈ validIds → ¬ NamelessFirst (contentBlocks message)) ∧
      Named (callIds message) rest

section Message

variable {validIds seen : List String} {blocks : List Json} {block : Json} {key key' : String}
variable {message : AnthropicMessage}

theorem getStr_putKey (hne : key' ≠ key) (value block : Json) :
    getStr key' (putKey key value block) = getStr key' block := by
  cases block with
  | obj fields =>
    exact congrArg (·.bind Json.asStr) (Json.getField_insertField_of_ne hne fields value)
  | _ => rfl

theorem getStr_normalizeBlock (hne : key ≠ "content") (block : Json) :
    getStr key (normalizeBlock block) = getStr key block := by
  unfold normalizeBlock
  split_ifs
  · exact getStr_putKey hne _ _
  · rfl

theorem isToolResult_normalizeBlock (block : Json) :
    isToolResult (normalizeBlock block) = isToolResult block := by
  rw [isToolResult, blockType, getStr_normalizeBlock (by decide), isToolResult, blockType]

theorem comparedId_normalizeBlock (block : Json) :
    comparedId (normalizeBlock block) = comparedId block := by
  rw [comparedId, getStr_normalizeBlock (by decide), comparedId]

theorem isEmptyToolResult_normalizeBlock (block : Json) :
    isEmptyToolResult (normalizeBlock block) = false := by
  unfold normalizeBlock
  split_ifs with hempty
  · cases block with
    | obj fields =>
      have hcontent : anthropicToolResultHasNonEmptyContent
          (.obj (Json.insertField fields "content"
            (.arr [textBlock emptyToolResultContentPlaceholder]))) = true := by
        rw [anthropicToolResultHasNonEmptyContent, getKey, Json.getField_insertField_self]
        decide
      rw [isEmptyToolResult, putKey, hcontent, Bool.not_true, Bool.and_false]
    | _ => cases hempty
  · exact Bool.eq_false_iff.mpr hempty

theorem mem_orBlank (h : block ∈ orBlank blocks) : block ∈ blocks ∨ block = textBlock " " := by
  unfold orBlank at h
  split_ifs at h
  · exact .inr (List.mem_singleton.mp h)
  · exact .inl h

theorem filter_orBlank {p : Json → Bool} (hp : p (textBlock " ") = false) (blocks : List Json) :
    (orBlank blocks).filter p = blocks.filter p := by
  unfold orBlank
  split_ifs with hempty
  · rw [List.isEmpty_iff.mp hempty, List.filter_cons_of_neg (by rw [hp]; decide)]
  · rfl

theorem retainToolResults_sublist (validIds seen : List String) (blocks : List Json) :
    (retainToolResults validIds seen blocks).1.Sublist blocks := by
  induction blocks generalizing seen with
  | nil => exact List.Sublist.refl _
  | cons block blocks ih =>
    rw [retainToolResults]
    split_ifs
    · exact (ih seen).cons_cons block
    · exact (ih seen).cons block
    · exact (ih _).cons_cons block
    · exact (ih seen).cons block

theorem retainToolResults_ids (validIds seen : List String) (blocks : List Json) :
    ((((retainToolResults validIds seen blocks).1.filter isToolResult).map comparedId)).Nodup ∧
      ∀ id ∈ ((retainToolResults validIds seen blocks).1.filter isToolResult).map comparedId,
        id ∈ validIds ∧ id ∉ seen := by
  induction blocks generalizing seen with
  | nil => exact ⟨List.nodup_nil, fun _ hmem => (by cases hmem)⟩
  | cons block blocks ih =>
    rw [retainToolResults]
    split_ifs with hresult hvalid hseen
    · dsimp only
      rw [List.filter_cons_of_neg (by simpa using hresult)]
      exact ih seen
    · exact ih seen
    · obtain ⟨hnodup, hids⟩ := ih (comparedId block :: seen)
      dsimp only
      rw [List.filter_cons_of_pos (by simpa using hresult), List.map_cons]
      refine ⟨List.nodup_cons.mpr ⟨fun hmem => (hids _ hmem).2 List.mem_cons_self, hnodup⟩, ?_⟩
      intro id hid
      rcases List.mem_cons.mp hid with rfl | hid
      · exact ⟨hvalid, hseen⟩
      · exact ⟨(hids id hid).1, fun hmem => (hids id hid).2 (List.mem_cons_of_mem _ hmem)⟩
    · exact ih seen

theorem retainToolResults_eq_self
    (hvalid : ∀ block ∈ blocks, isToolResult block = true → comparedId block ∈ validIds)
    (hnodup : ((blocks.filter isToolResult).map comparedId).Nodup)
    (hseen : ∀ block ∈ blocks, isToolResult block = true → comparedId block ∉ seen) :
    retainToolResults validIds seen blocks = (blocks, ⟨0, 0⟩) := by
  induction blocks generalizing seen with
  | nil => rfl
  | cons block blocks ih =>
    have hvalid' := fun other hmem => hvalid other (List.mem_cons_of_mem block hmem)
    have hseen' := fun other hmem => hseen other (List.mem_cons_of_mem block hmem)
    rw [retainToolResults]
    cases hresult : isToolResult block with
    | false =>
      rw [List.filter_cons_of_neg (by rw [hresult]; decide)] at hnodup
      rw [Bool.not_false, if_pos rfl, ih hvalid' hnodup hseen']
    | true =>
      rw [List.filter_cons_of_pos hresult, List.map_cons, List.nodup_cons] at hnodup
      rw [Bool.not_true, if_neg Bool.false_ne_true,
        if_neg (not_not.mpr (hvalid block List.mem_cons_self hresult)),
        if_neg (hseen block List.mem_cons_self hresult), ih hvalid' hnodup.2]
      intro other hmem hother hin
      rcases List.mem_cons.mp hin with heq | hin
      · exact hnodup.1 (heq ▸ List.mem_map_of_mem (List.mem_filter.mpr ⟨hmem, hother⟩))
      · exact hseen' other hmem hother hin

/-- A result without an id is kept when it is the first one that is compared as empty. -/
theorem exists_nameless_iff :
    (∃ block ∈ (retainToolResults validIds seen blocks).1,
        isToolResult block = true ∧ getStr "tool_use_id" block = none) ↔
      "" ∈ validIds ∧ "" ∉ seen ∧ NamelessFirst blocks := by
  induction blocks generalizing seen with
  | nil => exact ⟨nofun, nofun⟩
  | cons block blocks ih =>
    have hskip (hnot : ¬ (isToolResult block = true ∧ comparedId block = "")) :
        NamelessFirst (block :: blocks) ↔ NamelessFirst blocks := by
      rw [NamelessFirst, List.find?_cons_of_neg (by simpa using hnot), NamelessFirst]
    have hstop (hresult : isToolResult block = true) (hid : comparedId block = "") :
        NamelessFirst (block :: blocks) ↔ getStr "tool_use_id" block = none := by
      rw [NamelessFirst, List.find?_cons_of_pos (by simp [hresult, hid])]
      simp
    rw [retainToolResults]
    split_ifs with hresult hvalid hseen
    · have hnot : isToolResult block = false := by simpa using hresult
      rw [hskip (by simp [hnot]), ← ih]
      simp [hnot]
    · by_cases hid : comparedId block = ""
      · rw [ih, ← hid]
        exact iff_of_false (fun h => h.2.1 hseen) (fun h => h.2.1 hseen)
      · rw [hskip (fun h => hid h.2), ← ih]
    · have hresult : isToolResult block = true := by simpa using hresult
      by_cases hid : comparedId block = ""
      · rw [hstop hresult hid, ← hid]
        have hlater := @ih (comparedId block :: seen)
        rw [hid] at hvalid hseen hlater ⊢
        simp [hresult, hlater, hvalid, hseen]
      · have hsome : getStr "tool_use_id" block ≠ none :=
          fun hnone => hid (by rw [comparedId, hnone, Option.getD_none])
        have hlater := @ih (comparedId block :: seen)
        rw [hskip fun h => hid h.2]
        simp [hsome, hlater, Ne.symm hid]
    · by_cases hid : comparedId block = ""
      · rw [ih, ← hid]
        exact iff_of_false (fun h => hvalid h.1) (fun h => hvalid h.1)
      · rw [hskip (fun h => hid h.2), ← ih]

theorem filterToolResults_of_ne (hne : message.role ≠ "user") :
    filterToolResults validIds message = (message, ⟨0, 0⟩) := by
  obtain ⟨role, content⟩ := message
  cases content with
  | arr blocks => exact if_neg hne
  | _ => rfl

theorem removeUnpairedUses_of_ne {ids : List String} (hne : message.role ≠ "assistant") :
    removeUnpairedUses ids message = (message, 0) := by
  obtain ⟨role, content⟩ := message
  cases content with
  | arr blocks => exact if_neg hne
  | _ => rfl

theorem normalizeMessage_of_ne (hne : message.role ≠ "user") :
    normalizeMessage message = (message, 0) := by
  obtain ⟨role, content⟩ := message
  cases content with
  | arr blocks => exact if_neg hne
  | _ => rfl

theorem role_filterToolResults (validIds : List String) (message : AnthropicMessage) :
    (filterToolResults validIds message).1.role = message.role := by
  obtain ⟨role, content⟩ := message
  cases content with
  | arr blocks => rw [filterToolResults]; split_ifs <;> rfl
  | _ => rfl

theorem role_removeUnpairedUses (ids : List String) (message : AnthropicMessage) :
    (removeUnpairedUses ids message).1.role = message.role := by
  obtain ⟨role, content⟩ := message
  cases content with
  | arr blocks => rw [removeUnpairedUses]; split_ifs <;> rfl
  | _ => rfl

theorem role_normalizeMessage (message : AnthropicMessage) :
    (normalizeMessage message).1.role = message.role := by
  obtain ⟨role, content⟩ := message
  cases content with
  | arr blocks => rw [normalizeMessage]; split_ifs <;> rfl
  | _ => rfl

theorem results_filterToolResults (validIds : List String) (hrole : message.role = "user") :
    (contentBlocks (filterToolResults validIds message).1).filter isToolResult =
      (retainToolResults validIds [] (contentBlocks message)).1.filter isToolResult := by
  obtain ⟨role, content⟩ := message
  cases content with
  | arr blocks =>
    rw [filterToolResults, if_pos hrole]
    exact filter_orBlank (by decide) _
  | _ => rfl

theorem uses_removeUnpairedUses (ids : List String) (hrole : message.role = "assistant") :
    (contentBlocks (removeUnpairedUses ids message).1).filter isToolUse =
      ((contentBlocks message).filter isToolUse).filter (isPairedUse ids) := by
  obtain ⟨role, content⟩ := message
  cases content with
  | arr blocks =>
    rw [List.filter_comm, removeUnpairedUses, if_pos hrole]
    dsimp only
    split_ifs
    · exact filter_orBlank (by decide) _
    · rfl
  | _ => rfl

theorem namelessFirst_normalizeMessage (hrole : message.role = "user") :
    NamelessFirst (contentBlocks (normalizeMessage message).1) ↔
      NamelessFirst (contentBlocks message) := by
  obtain ⟨role, content⟩ := message
  cases content with
  | arr blocks =>
    rw [normalizeMessage, if_pos hrole]
    change NamelessFirst (blocks.map normalizeBlock) ↔ NamelessFirst blocks
    have hsame (block : Json) : (isToolResult (normalizeBlock block) &&
        decide (comparedId (normalizeBlock block) = "")) =
        (isToolResult block && decide (comparedId block = "")) := by
      rw [isToolResult_normalizeBlock, comparedId_normalizeBlock]
    unfold NamelessFirst
    rw [List.find?_map]
    simp only [Function.comp_def, hsame, Option.map_eq_some_iff]
    constructor
    · rintro ⟨_, ⟨block, hfind, rfl⟩, hnone⟩
      exact ⟨block, hfind, (getStr_normalizeBlock (by decide) block).symm.trans hnone⟩
    · rintro ⟨block, hfind, hnone⟩
      exact ⟨_, ⟨block, hfind, rfl⟩, (getStr_normalizeBlock (by decide) block).trans hnone⟩
  | _ => rfl

/-- The results of a filtered message are asked for when none of them is without an id. -/
theorem resultsAsked_iff {previous : Option AnthropicMessage} (hrole : message.role = "user")
    (hasked : ∀ id ∈ validIds, id ∈ anthropicToolResultIds (filterToolResults validIds message).1 →
      ∃ assistant, previous = some assistant ∧ assistant.role = "assistant" ∧
        id ∈ anthropicToolUseIds assistant) :
    ResultsAsked previous (filterToolResults validIds message).1 ↔
      ("" ∈ validIds → ¬ NamelessFirst (contentBlocks message)) := by
  have hresults := results_filterToolResults validIds hrole
  have hmem {block : Json} : (block ∈ contentBlocks (filterToolResults validIds message).1 ∧
      isToolResult block = true) ↔
      block ∈ (retainToolResults validIds [] (contentBlocks message)).1 ∧
        isToolResult block = true := by
    rw [← List.mem_filter, hresults, List.mem_filter]
  have hnameless := @exists_nameless_iff validIds [] (contentBlocks message)
  simp only [List.not_mem_nil, not_false_eq_true, true_and] at hnameless
  constructor
  · intro h hvalid hfirst
    obtain ⟨block, hblock, hresult, hnone⟩ := hnameless.mpr ⟨hvalid, hfirst⟩
    obtain ⟨hblock, hresult⟩ := hmem.mpr ⟨hblock, hresult⟩
    obtain ⟨id, assistant, hsome, -⟩ := h.asked block hblock hresult
    rw [hnone] at hsome
    cases hsome
  · intro h
    obtain ⟨hnodup, hids⟩ := retainToolResults_ids validIds [] (contentBlocks message)
    rw [← hresults] at hnodup hids
    have hnamed : ∀ block ∈ (contentBlocks (filterToolResults validIds message).1).filter
        isToolResult, getStr "tool_use_id" block = some (comparedId block) := by
      intro block hblock
      cases hid : getStr "tool_use_id" block with
      | some id => rw [comparedId, hid, Option.getD_some]
      | none =>
        have hnone := hnameless.mp ⟨block, (hmem.mp (List.mem_filter.mp hblock)).1,
          (List.mem_filter.mp hblock).2, hid⟩
        exact absurd hnone.2 (h hnone.1)
    have hmap := List.filterMap_eq_map_iff_forall_eq_some.mpr hnamed
    refine ⟨?_, fun block hblock hresult => ?_⟩
    · rw [anthropicToolResultIds, hmap]
      exact hnodup
    · have hblock := List.mem_filter.mpr ⟨hblock, hresult⟩
      have hid := List.mem_map_of_mem (f := comparedId) hblock
      obtain ⟨assistant, hassistant⟩ := hasked _ (hids _ hid).1 (by
        rw [anthropicToolResultIds, hmap]
        exact hid)
      exact ⟨_, assistant, hnamed block hblock, hassistant⟩

end Message

section List

variable {validIds : List String} {messages : List AnthropicMessage} {message : AnthropicMessage}
variable {previous : Option AnthropicMessage}

theorem callIds_of_ne (hne : message.role ≠ "assistant") : callIds message = [] := if_neg hne

theorem named_normalize (validIds : List String) (messages : List AnthropicMessage) :
    Named validIds (messages.map fun message => (normalizeMessage message).1) ↔
      Named validIds messages := by
  induction messages generalizing validIds with
  | nil => exact Iff.rfl
  | cons message rest ih =>
    have hcalls : callIds (normalizeMessage message).1 = callIds message := by
      by_cases hrole : message.role = "user"
      · have hne : message.role ≠ "assistant" := by rw [hrole]; decide
        rw [callIds_of_ne hne, callIds_of_ne (by rw [role_normalizeMessage]; exact hne)]
      · rw [normalizeMessage_of_ne hrole]
    rw [List.map_cons, Named, Named, role_normalizeMessage, hcalls, ih]
    exact and_congr_left fun _ => imp_congr_right fun hrole =>
      imp_congr_right fun _ => not_congr (namelessFirst_normalizeMessage hrole)

theorem mem_anthropicToolUseIds {id : String} : id ∈ anthropicToolUseIds message ↔
    ∃ block, (block ∈ contentBlocks message ∧ isToolUse block = true) ∧
      getStr "id" block = some id := by
  simp only [anthropicToolUseIds, List.mem_filterMap, List.mem_filter]

theorem isPairedUse_iff {ids : List String} {block : Json} (h : isToolUse block = true) :
    isPairedUse ids block = true ↔ ∃ id ∈ ids, getStr "id" block = some id := by
  rw [isPairedUse, h, Bool.not_true, Bool.false_or, Option.any_eq_true]
  simp only [decide_eq_true_eq, and_comm]

theorem head?_removeUnpaired {id : String} (h : id ∈ pairedIds messages) :
    ∃ user, (removeUnpairedAnthropicToolUses messages).1.head? = some user ∧ user.role = "user" ∧
      id ∈ anthropicToolResultIds user := by
  cases messages with
  | nil => cases h
  | cons next rest =>
    rw [pairedIds] at h
    split_ifs at h with huser
    · have hsame := congrArg Prod.fst (@removeUnpairedUses_of_ne next (pairedIds rest)
        (by rw [huser]; decide))
      exact ⟨next, congrArg some hsame, huser, h⟩
    · cases h

/-- The repaired list is linked when no result is without an id where one is needed. -/
theorem linked_iff (hasked : ∀ id ∈ validIds, id ∈ pairedIds (filterInvalidFrom validIds messages).1 →
      ∃ assistant, previous = some assistant ∧ assistant.role = "assistant" ∧
        id ∈ anthropicToolUseIds assistant) :
    Linked previous (removeUnpairedAnthropicToolUses (filterInvalidFrom validIds messages).1).1 ↔
      Named validIds messages := by
  induction messages generalizing previous validIds with
  | nil => exact Iff.rfl
  | cons message rest ih =>
    let filtered := (filterToolResults validIds message).1
    let later := (filterInvalidFrom (callIds message) rest).1
    let removed := (removeUnpairedUses (pairedIds later) filtered).1
    have hrole : removed.role = message.role :=
      (role_removeUnpairedUses _ _).trans (role_filterToolResults _ _)
    change (removed.role = "user" → ResultsAsked previous removed) ∧
      UsesAnswered removed (removeUnpairedAnthropicToolUses later).1.head? ∧
      Linked (some removed) (removeUnpairedAnthropicToolUses later).1 ↔ _
    -- The calls that are left have ids of the results after them.
    have huse : message.role = "assistant" → ∀ block, (block ∈ contentBlocks removed ∧
        isToolUse block = true) ↔ (block ∈ contentBlocks message ∧ isToolUse block = true) ∧
          isPairedUse (pairedIds later) block = true := by
      intro hassistant block
      have hsame : filtered = message :=
        congrArg Prod.fst (filterToolResults_of_ne (by rw [hassistant]; decide))
      have huses := uses_removeUnpairedUses (pairedIds later) hassistant
      rw [← hsame] at huses
      rw [← List.mem_filter, huses, List.mem_filter, List.mem_filter, hsame]
    have hanswered : UsesAnswered removed (removeUnpairedAnthropicToolUses later).1.head? := by
      intro hassistant block hblock hisUse
      have hpaired := ((huse (hrole.symm.trans hassistant) block).mp ⟨hblock, hisUse⟩).2
      obtain ⟨id, hid, hsome⟩ := (isPairedUse_iff hisUse).mp hpaired
      obtain ⟨user, huser⟩ := head?_removeUnpaired hid
      exact ⟨id, user, hsome, huser⟩
    have hfirst : (removed.role = "user" → ResultsAsked previous removed) ↔
        (message.role = "user" → "" ∈ validIds → ¬ NamelessFirst (contentBlocks message)) := by
      rw [hrole]
      refine imp_congr_right fun huser => ?_
      have hsame : removed = filtered := congrArg Prod.fst (removeUnpairedUses_of_ne (by
        rw [role_filterToolResults, huser]; decide))
      rw [hsame]
      refine resultsAsked_iff huser fun id hid hmem => hasked id hid ?_
      change id ∈ if filtered.role = "user" then anthropicToolResultIds filtered else []
      rw [if_pos ((role_filterToolResults _ _).trans huser)]
      exact hmem
    have hrest := @ih (callIds message) (some removed) fun id hid hmem => by
      unfold callIds at hid
      split_ifs at hid with hassistant
      · obtain ⟨block, hblock, hsome⟩ := mem_anthropicToolUseIds.mp hid
        have hpaired := (isPairedUse_iff hblock.2).mpr ⟨id, hmem, hsome⟩
        exact ⟨removed, rfl, hrole.trans hassistant, mem_anthropicToolUseIds.mpr
          ⟨block, (huse hassistant block).mpr ⟨hblock, hpaired⟩, hsome⟩⟩
      · cases hid
    rw [Named, hfirst, hrest]
    exact ⟨fun h => ⟨h.1, h.2.2⟩, fun h => ⟨h.1, hanswered, h.2⟩⟩

def Filled (message : AnthropicMessage) : Prop :=
  message.role = "user" →
    (∀ block ∈ contentBlocks message, isEmptyToolResult block = false) ∧ message.content ≠ .arr []

theorem filled_passes (ids validIds : List String) (message : AnthropicMessage) :
    Filled (removeUnpairedUses ids (filterToolResults validIds (normalizeMessage message).1).1).1 := by
  intro huser
  rw [role_removeUnpairedUses] at huser
  rw [removeUnpairedUses_of_ne (by rw [huser]; decide)]
  rw [role_filterToolResults, role_normalizeMessage] at huser
  obtain ⟨role, content⟩ := message
  cases content with
  | arr blocks =>
    rw [normalizeMessage, if_pos huser, filterToolResults, if_pos huser]
    refine ⟨fun block hblock => ?_, fun heq => ?_⟩
    · rcases mem_orBlank hblock with hblock | rfl
      · have hblock := (retainToolResults_sublist _ _ _).subset hblock
        obtain ⟨original, -, rfl⟩ := List.mem_map.mp hblock
        exact isEmptyToolResult_normalizeBlock original
      · decide
    · have hnil := Json.arr.inj heq
      unfold orBlank at hnil
      split_ifs at hnil with hempty
      exact hempty (List.isEmpty_iff.mpr hnil)
  | _ => exact ⟨nofun, nofun⟩

theorem filled_repaired (validIds : List String) (messages : List AnthropicMessage) :
    ∀ message ∈ (removeUnpairedAnthropicToolUses (filterInvalidFrom validIds
      (messages.map fun message => (normalizeMessage message).1)).1).1, Filled message := by
  induction messages generalizing validIds with
  | nil => exact nofun
  | cons original rest ih =>
    intro message hmem
    rcases List.mem_cons.mp hmem with rfl | hmem
    · exact filled_passes _ _ _
    · exact ih _ message hmem

theorem roles_repaired (validIds : List String) (messages : List AnthropicMessage) :
    (removeUnpairedAnthropicToolUses (filterInvalidFrom validIds messages).1).1.map
      AnthropicMessage.role = messages.map AnthropicMessage.role := by
  induction messages generalizing validIds with
  | nil => rfl
  | cons message rest ih =>
    exact congrArg₂ List.cons
      ((role_removeUnpairedUses _ _).trans (role_filterToolResults validIds message)) (ih _)

def StartsRight (roles : List String) : Prop := 1 < roles.length → roles.head? ≠ some "assistant"

theorem startsRight_align (messages : List AnthropicMessage) :
    StartsRight ((alignAnthropicMessagesToUser messages).1.map AnthropicMessage.role) := by
  intro hlength hhead
  let leading := messages.take (messages.length - 1)
  let isAssistant := fun message : AnthropicMessage => decide (message.role = "assistant")
  have hsplit : (alignAnthropicMessagesToUser messages).1 =
      leading.dropWhile isAssistant ++ messages.drop (messages.length - 1) := by
    have hwhole : messages = leading.takeWhile isAssistant ++
        (leading.dropWhile isAssistant ++ messages.drop (messages.length - 1)) := by
      rw [← List.append_assoc, List.takeWhile_append_dropWhile, List.take_append_drop]
    change messages.drop (leading.takeWhile isAssistant).length = _
    conv_lhs => rw [hwhole]
    exact List.drop_left
  rw [hsplit] at hlength hhead
  have hnot := List.head?_dropWhile_not isAssistant leading
  cases hdrop : leading.dropWhile isAssistant with
  | nil =>
    rw [hdrop, List.nil_append, List.length_map, List.length_drop] at hlength
    omega
  | cons message rest =>
    rw [hdrop] at hhead hnot
    have hrole : message.role = "assistant" := Option.some.inj hhead
    exact absurd (decide_eq_true hrole) (Bool.eq_false_iff.mp hnot)

theorem align_normalize (messages : List AnthropicMessage) :
    (alignAnthropicMessagesToUser (normalizeEmptyAnthropicToolResultContents messages).1).1 =
      (alignAnthropicMessagesToUser messages).1.map fun message => (normalizeMessage message).1 := by
  have hroles : (fun message : AnthropicMessage => decide (message.role = "assistant")) ∘
      (fun message => (normalizeMessage message).1) =
      fun message => decide (message.role = "assistant") :=
    funext fun message => by rw [Function.comp_apply, role_normalizeMessage]
  rw [alignAnthropicMessagesToUser, normalizeEmptyAnthropicToolResultContents]
  dsimp only
  rw [List.length_map, ← List.map_take, List.takeWhile_map, hroles, List.length_map, ← List.map_drop]
  rfl

/-- What the passes establish, from which the repair has nothing more to do. -/
structure Settled (messages : List AnthropicMessage) : Prop where
  linked : Linked none messages
  starts : StartsRight (messages.map AnthropicMessage.role)
  filled : ∀ message ∈ messages, Filled message

theorem normalizeMessage_eq_self (h : Filled message) : normalizeMessage message = (message, 0) := by
  by_cases huser : message.role = "user"
  · have hempty := (h huser).1
    obtain ⟨role, content⟩ := message
    cases content with
    | arr blocks =>
      have hmap : blocks.map normalizeBlock = blocks := by
        conv_rhs => rw [← List.map_id blocks]
        exact List.map_congr_left fun block hmem =>
          if_neg (Bool.eq_false_iff.mp (hempty block hmem))
      have hcount : blocks.countP isEmptyToolResult = 0 :=
        List.countP_eq_zero.mpr fun block hmem => Bool.eq_false_iff.mp (hempty block hmem)
      rw [normalizeMessage, if_pos huser, hmap, hcount]
    | _ => rfl
  · exact normalizeMessage_of_ne huser

theorem filterToolResults_eq_self (hfilled : Filled message)
    (hasked : message.role = "user" → ResultsAsked previous message)
    (hvalid : ∀ id assistant, previous = some assistant → assistant.role = "assistant" →
      id ∈ anthropicToolUseIds assistant → id ∈ validIds) :
    filterToolResults validIds message = (message, ⟨0, 0⟩) := by
  by_cases huser : message.role = "user"
  · obtain ⟨hnodup, hasked⟩ := hasked huser
    have hnamed : ∀ block ∈ (contentBlocks message).filter isToolResult,
        getStr "tool_use_id" block = some (comparedId block) := by
      intro block hmem
      obtain ⟨id, -, hsome, -⟩ := hasked block (List.mem_filter.mp hmem).1 (List.mem_filter.mp hmem).2
      rw [comparedId, hsome, Option.getD_some]
    rw [anthropicToolResultIds, List.filterMap_eq_map_iff_forall_eq_some.mpr hnamed] at hnodup
    have hretain : retainToolResults validIds [] (contentBlocks message) =
        (contentBlocks message, ⟨0, 0⟩) := by
      refine retainToolResults_eq_self (fun block hmem hresult => ?_) hnodup fun _ _ _ => nofun
      obtain ⟨id, assistant, hsome, hprevious, hrole, hid⟩ := hasked block hmem hresult
      rw [comparedId, hsome, Option.getD_some]
      exact hvalid id assistant hprevious hrole hid
    have hne := (hfilled huser).2
    obtain ⟨role, content⟩ := message
    cases content with
    | arr blocks =>
      have hblank : orBlank blocks = blocks := by
        rw [orBlank, if_neg]
        exact fun hempty => hne (by rw [List.isEmpty_iff.mp hempty])
      rw [filterToolResults, if_pos huser, show retainToolResults validIds [] blocks = _ from hretain]
      exact congrArg (fun kept => (AnthropicMessage.mk role (.arr kept), _)) hblank
    | _ => rfl
  · exact filterToolResults_of_ne huser

theorem removeUnpairedUses_eq_self {ids : List String}
    (h : ∀ block ∈ contentBlocks message, isPairedUse ids block = true) :
    removeUnpairedUses ids message = (message, 0) := by
  obtain ⟨role, content⟩ := message
  cases content with
  | arr blocks =>
    have hkept : blocks.filter (isPairedUse ids) = blocks := List.filter_eq_self.mpr h
    rw [removeUnpairedUses]
    dsimp only
    rw [hkept, Nat.sub_self, if_neg (lt_irrefl 0), ite_self]
  | _ => rfl

theorem filterInvalidFrom_eq_self (h : Linked previous messages)
    (hfilled : ∀ message ∈ messages, Filled message)
    (hvalid : ∀ id assistant, previous = some assistant → assistant.role = "assistant" →
      id ∈ anthropicToolUseIds assistant → id ∈ validIds) :
    filterInvalidFrom validIds messages = (messages, ⟨0, 0⟩) := by
  induction messages generalizing previous validIds with
  | nil => rfl
  | cons message rest ih =>
    obtain ⟨hasked, -, hrest⟩ := h
    have hcalls : ∀ id assistant, some message = some assistant → assistant.role = "assistant" →
        id ∈ anthropicToolUseIds assistant → id ∈ callIds message := by
      rintro id _ ⟨⟩ hrole hid
      rw [callIds, if_pos hrole]
      exact hid
    rw [filterInvalidFrom, filterToolResults_eq_self (hfilled _ List.mem_cons_self) hasked hvalid,
      ih hrest (fun other hmem => hfilled other (List.mem_cons_of_mem _ hmem)) hcalls]
    rfl

theorem removeUnpaired_eq_self (h : Linked previous messages) :
    removeUnpairedAnthropicToolUses messages = (messages, 0) := by
  induction messages generalizing previous with
  | nil => rfl
  | cons message rest ih =>
    obtain ⟨-, hanswered, hrest⟩ := h
    have hturn : removeUnpairedUses (pairedIds rest) message = (message, 0) := by
      by_cases hrole : message.role = "assistant"
      · refine removeUnpairedUses_eq_self fun block hmem => ?_
        cases huse : isToolUse block with
        | false => rw [isPairedUse, huse, Bool.not_false, Bool.true_or]
        | true =>
          obtain ⟨id, user, hsome, hhead, huser, hid⟩ := hanswered hrole block hmem huse
          obtain ⟨later, rfl⟩ := List.head?_eq_some_iff.mp hhead
          refine (isPairedUse_iff huse).mpr ⟨id, ?_, hsome⟩
          rw [pairedIds, if_pos huser]
          exact hid
      · exact removeUnpairedUses_of_ne hrole
    rw [removeUnpairedAnthropicToolUses, hturn, ih hrest]

theorem align_eq_self (h : StartsRight (messages.map AnthropicMessage.role)) :
    alignAnthropicMessagesToUser messages = (messages, 0) := by
  match messages, h with
  | [], _ => rfl
  | [message], _ => rfl
  | message :: next :: rest, h =>
    have hrole : message.role ≠ "assistant" := fun heq => h (by simp) (congrArg some heq)
    have htake : (message :: next :: rest).take ((message :: next :: rest).length - 1) =
        message :: (next :: rest).take rest.length := rfl
    rw [alignAnthropicMessagesToUser, htake,
      List.takeWhile_cons_of_neg (by rw [decide_eq_true_eq]; exact hrole)]
    rfl

theorem Settled.repaired (h : Settled messages) : Repaired messages where
  linked := h.linked
  first message rest heq hne hrole := by
    subst heq
    refine h.starts ?_ (congrArg some hrole)
    rw [List.length_map, List.length_cons]
    exact Nat.succ_lt_succ (List.length_pos_iff.mpr hne)
  stable := by
    have hnormalize : normalizeEmptyAnthropicToolResultContents messages = (messages, 0) := by
      have hself : ∀ message ∈ messages, normalizeMessage message = (message, 0) :=
        fun message hmem => normalizeMessage_eq_self (h.filled message hmem)
      rw [normalizeEmptyAnthropicToolResultContents,
        List.map_congr_left fun message hmem => congrArg Prod.fst (hself message hmem),
        List.map_congr_left fun message hmem => congrArg Prod.snd (hself message hmem), List.map_id']
      simp
    unfold repairAnthropicMessages filterInvalidAnthropicToolResults
    rw [hnormalize]
    dsimp only
    rw [align_eq_self h.starts]
    dsimp only
    rw [filterInvalidFrom_eq_self h.linked h.filled fun _ _ hnone => by cases hnone]
    dsimp only
    rw [removeUnpaired_eq_self h.linked]
    rfl

theorem Linked.drop (h : Linked previous messages) (n : ℕ) :
    ∃ previous', Linked previous' (messages.drop n) := by
  induction n generalizing previous messages with
  | zero => exact ⟨previous, h⟩
  | succ n ih =>
    cases messages with
    | nil => exact ⟨previous, trivial⟩
    | cons message rest => exact ih h.2.2

theorem Settled.drop (h : Settled messages) {n : ℕ}
    (hstart : n = 0 ∨ ∃ message, messages[n]? = some message ∧ startsTurn message = true) :
    Settled (messages.drop n) := by
  rcases hstart with rfl | ⟨message, hget, hturn⟩
  · exact h
  · obtain ⟨previous, hlinked⟩ := h.linked.drop n
    obtain ⟨rest, hrest⟩ : ∃ rest, messages.drop n = message :: rest := by
      rw [← List.head?_eq_some_iff, List.head?_drop]
      exact hget
    simp only [startsTurn, Bool.and_eq_true, decide_eq_true_eq, Bool.not_eq_true',
      List.any_eq_false] at hturn
    obtain ⟨huser, hresults⟩ := hturn
    refine ⟨?_, fun _ hhead => ?_, fun other hmem => h.filled other (List.mem_of_mem_drop hmem)⟩
    · rw [hrest] at hlinked ⊢
      refine ⟨fun _ => ⟨?_, fun block hblock hresult => absurd hresult (hresults block hblock)⟩,
        hlinked.2⟩
      exact (hlinked.1 huser).nodup
    · rw [hrest] at hhead
      have hrole : message.role = "assistant" := Option.some.inj hhead
      rw [huser] at hrole
      exact absurd hrole (by decide)

theorem trimPrefix_spec (jsonLen : AnthropicMessage → ℕ) (messages : List AnthropicMessage)
    (currentBytes targetBytes fuel : ℕ) {prefixLen : ℕ} (removedItemBytes estimatedBytes : ℕ)
    (hstart : prefixLen = 0 ∨
      ∃ message, messages[prefixLen]? = some message ∧ startsTurn message = true) :
    let n := trimPrefix jsonLen messages currentBytes targetBytes fuel prefixLen removedItemBytes
      estimatedBytes
    n = 0 ∨ ∃ message, messages[n]? = some message ∧ startsTurn message = true := by
  induction fuel generalizing prefixLen removedItemBytes estimatedBytes with
  | zero => exact hstart
  | succ fuel ih =>
    rw [trimPrefix]
    split_ifs
    · cases hfind : (messages.drop (prefixLen + 1)).findIdx? startsTurn with
      | none => exact hstart
      | some idx =>
        obtain ⟨hlt, hturn, -⟩ := List.findIdx?_eq_some_iff_getElem.mp hfind
        refine ih _ _ (.inr ⟨_, ?_, hturn⟩)
        rw [List.getElem_drop, List.getElem?_eq_some_iff]
        refine ⟨?_, ?_⟩
        · rw [List.length_drop] at hlt
          omega
        · congr 1
          omega
    · exact hstart

theorem repairAnthropicMessages_fst (messages : List AnthropicMessage) :
    (repairAnthropicMessages messages).1 = (removeUnpairedAnthropicToolUses (filterInvalidFrom []
      ((alignAnthropicMessagesToUser messages).1.map fun message =>
        (normalizeMessage message).1)).1).1 := by
  rw [← align_normalize]
  rfl

theorem settled_repairAnthropicMessages
    (h : Named [] (alignAnthropicMessagesToUser messages).1) :
    Settled (repairAnthropicMessages messages).1 := by
  rw [repairAnthropicMessages_fst]
  refine ⟨(linked_iff fun _ hmem => by cases hmem).mpr ((named_normalize _ _).mpr h), ?_,
    filled_repaired _ _⟩
  rw [roles_repaired, List.map_map]
  have hroles : AnthropicMessage.role ∘ (fun message => (normalizeMessage message).1) =
      AnthropicMessage.role := funext fun message => role_normalizeMessage message
  rw [hroles]
  exact startsRight_align messages

theorem repairAnthropicMessages_sound_iff (jsonLen : AnthropicMessage → ℕ)
    (messages : List AnthropicMessage) : SoundRepair jsonLen messages ↔
      Named [] (alignAnthropicMessagesToUser messages).1 := by
  constructor
  · intro h
    have hlinked := h.repaired.linked
    rw [repairAnthropicMessages_fst] at hlinked
    exact (named_normalize _ _).mp ((linked_iff fun _ hmem => by cases hmem).mp hlinked)
  · intro h
    have hsettled := settled_repairAnthropicMessages h
    refine ⟨hsettled.repaired, fun currentBytes targetBytes => ?_⟩
    unfold trimAnthropicHistoryToEstimatedBudget
    dsimp only
    split_ifs
    · exact ⟨rfl, List.length_pos_iff.mpr, hsettled.repaired⟩
    · have hstart := trimPrefix_spec jsonLen (repairAnthropicMessages messages).1 currentBytes
        targetBytes (repairAnthropicMessages messages).1.length 0 currentBytes (.inl rfl)
      refine ⟨rfl, fun hne => ?_, (hsettled.drop hstart).repaired⟩
      rcases hstart with hzero | ⟨message, hget, -⟩
      · dsimp only
        rw [hzero]
        exact List.length_pos_iff.mpr hne
      · exact (List.getElem?_eq_some_iff.mp hget).1

/-- A call with the empty id and a result without one. -/
def namelessMessages : List AnthropicMessage :=
  [⟨"user", .str "Hello"⟩,
    ⟨"assistant", .arr [.obj [("id", .str ""), ("type", .str "tool_use")]]⟩,
    ⟨"user", .arr [.obj [("content", .str "done"), ("type", .str "tool_result")]]⟩]

/-- The call goes for want of a result, and the result stays. -/
theorem not_soundRepair_nameless : ¬ SoundRepair (fun _ => 0) namelessMessages := by
  intro h
  have hstats := congrArg (fun result => result.2.removedOrphanToolResults) h.repaired.stable
  have horphan : (repairAnthropicMessages
      (repairAnthropicMessages namelessMessages).1).2.removedOrphanToolResults = 1 := by decide
  rw [horphan] at hstats
  exact absurd hstats (by decide)

end List

end KiroProxy.AnthropicRepair
