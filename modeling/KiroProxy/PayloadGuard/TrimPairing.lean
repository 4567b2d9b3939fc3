import KiroProxy.PayloadGuard.Trim

/-!
# What trimming leaves of the pairs

Entries go up to the start of a turn, so that no call loses its result. An exception is the pair
that is taken for the system prompt: calls of its answer have their results behind it.
-/

namespace KiroProxy.PayloadGuard

theorem length_onUserResults (pass : List ToolResult → List ToolResult × ℕ)
    (history : List Message) : (onUserResults pass history).1.length = history.length := by
  induction history with
  | nil => rfl
  | cons message rest ih =>
    cases message with
    | user user => exact congrArg (· + 1) ih
    | assistant assistant => exact congrArg (· + 1) ih

theorem length_onToolUses (pass : List Message → Option (List ToolUseEntry) →
    Option (List ToolUseEntry) × ℕ) (history : List Message) :
    (onToolUses pass history).1.length = history.length := by
  induction history with
  | nil => rfl
  | cons message rest ih =>
    cases message with
    | user user => exact congrArg (· + 1) ih
    | assistant assistant => exact congrArg (· + 1) ih

theorem length_repairOrphansFrom (validIds : List String) (history : List Message) :
    (repairOrphansFrom validIds history).1.length = history.length := by
  induction history generalizing validIds with
  | nil => rfl
  | cons message rest ih =>
    cases message with
    | user user => exact congrArg (· + 1) (ih [])
    | assistant assistant => exact congrArg (· + 1) (ih assistant.ids)

theorem length_renameFrom (idx : ℕ) (seen : Finset String) (current : List ToolResult)
    (history : List Message) : (renameFrom idx seen current history).1.length = history.length := by
  fun_induction renameFrom idx seen current history with
  | case1 => rfl
  | case2 idx seen user rest rest' current' renamed heq ih =>
    rw [heq] at ih
    exact congrArg (· + 1) ih
  | case3 idx seen content reasoning rest rest' current' renamed heq ih =>
    rw [heq] at ih
    exact congrArg (· + 1) ih
  | case4 => rfl
  | case5 idx seen content toolUses reasoning user rest next rest' current' renamed heq ih =>
    rw [heq] at ih
    exact congrArg (· + 2) ih
  | case6 idx seen content toolUses reasoning assistant rest next rest' current' renamed heq ih =>
    rw [heq] at ih
    exact congrArg (· + 1) ih

theorem length_repairRequest (request : KiroRequest) :
    (repairRequest request).1.history.length = request.history.length := by
  obtain ⟨history, ⟨content, images, results⟩, tools⟩ := request
  unfold repairRequest removeUnpairedToolUses repairOrphanToolResults dedupeHistoryToolResults
    renameRepeatedToolUseIds dedupeToolUses stripEmptyToolUses normalizeEmptyToolResultContents
  dsimp only
  rw [length_onToolUses, length_repairOrphansFrom, length_onUserResults, length_renameFrom,
    length_onToolUses, length_onToolUses, length_onUserResults]

theorem trimToWeight_isSome (serialize : KiroRequest → Except StepError (List Char))
    (encoding : Encoding) (maxWeight : ℕ) {fuel : ℕ} (request : KiroRequest) (finalWeight : ℕ)
    (hfuel : request.history.length < fuel) :
    (trimToWeight serialize encoding maxWeight fuel request finalWeight).isSome = true := by
  induction fuel generalizing request finalWeight with
  | zero => exact absurd hfuel (Nat.not_lt_zero _)
  | succ fuel ih =>
    unfold trimToWeight
    split
    · have hremoved := @removed_trimHistoryToEstimatedBudget encoding true
        request.current.toolResults finalWeight maxWeight request.history
      generalize trimHistoryToEstimatedBudget encoding true request.history
        request.current.toolResults finalWeight maxWeight = left at hremoved
      dsimp only
      split
      · rfl
      · next hpos =>
        split
        · rfl
        · refine ih _ _ ?_
          rw [length_repairRequest]
          have hle : (alignHistoryToUser left.history).length ≤ left.history.length :=
            (List.dropWhile_suffix _).length_le
          dsimp only
          omega
    · rfl

variable {calls : List String} {current : List ToolResult} {kept removed rest : List Message}
variable {request : KiroRequest}

theorem repairRequest_eq_self_iff : (repairRequest request).1 = request ↔ Repaired request := by
  constructor
  · intro heq
    exact heq ▸ repaired_repairRequest request
  · intro h
    exact congrArg Prod.fst h.repairRequest_eq_self

theorem Paired.eq_nil_of_boundary (h : Paired calls rest current)
    (hboundary : turnBoundary current rest = true) : calls = [] := by
  match rest, h with
  | [], h =>
    rw [turnBoundary, List.isEmpty_iff] at hboundary
    subst hboundary
    exact h.symm.eq_nil
  | .user user :: rest, h =>
    have hresults : user.toolResults = [] := List.isEmpty_iff.mp hboundary
    have hperm := h.1
    rw [hresults] at hperm
    exact hperm.symm.eq_nil
  | .assistant assistant :: rest, h => cases hboundary

theorem paired_append_iff (hboundary : turnBoundary current rest = true) :
    Paired calls (kept ++ rest) current ↔ Paired calls kept [] ∧ Paired [] rest current := by
  induction kept generalizing calls with
  | nil =>
    constructor
    · intro h
      have hcalls := Paired.eq_nil_of_boundary h hboundary
      subst hcalls
      exact ⟨List.Perm.refl _, h⟩
    · rintro ⟨hcalls, h⟩
      have hnil : calls = [] := hcalls.symm.eq_nil
      subst hnil
      exact h
  | cons message kept ih =>
    cases message with
    | user user => exact (and_congr_right fun _ => ih).trans and_assoc.symm
    | assistant assistant => exact (and_congr_right fun _ => ih).trans and_assoc.symm

theorem Repaired.removal_iff (h : Repaired request)
    (hhistory : request.history = kept ++ removed ++ rest)
    (hboundary : turnBoundary request.current.toolResults rest = true) :
    Repaired { request with history := kept ++ rest } ↔ Paired [] kept [] := by
  have hsub : (kept ++ rest).Sublist request.history := by
    rw [hhistory]
    exact (List.sublist_append_left _ _).append_right _
  have hpaired := h.paired
  rw [hhistory, paired_append_iff hboundary] at hpaired
  constructor
  · intro hleft
    exact ((paired_append_iff hboundary).mp hleft.paired).1
  · intro hkept
    exact
      { history := fun user hmem => h.history user (hsub.subset hmem)
        current := h.current
        strict := fun assistant hmem => h.strict assistant (hsub.subset hmem)
        distinct := h.distinct.sublist (hsub.flatMap _)
        paired := (paired_append_iff hboundary).mpr ⟨hkept, hpaired.2⟩ }

variable {encoding : Encoding} {weighted : Bool} {targetSize : ℕ} {left : Trimmed}

/-- A turn of the client has the text of the acknowledgement, and calls of its own. The history is
too large, and turns can go from behind it. -/
def PairCut (encoding : Encoding) (weighted : Bool) (request : KiroRequest) (targetSize : ℕ) :
    Prop :=
  ∃ user assistant tail rest, request.history = .user user :: .assistant assistant :: tail ∧
    assistant.content = syntheticSystemAck ∧ assistant.ids ≠ [] ∧
    targetSize < requestSize encoding weighted request request.history ∧
    rest <:+ tail ∧ rest ≠ tail ∧ turnBoundary request.current.toolResults rest = true ∧
    (request.current.toolResults ≠ [] ∨
      requestSize encoding weighted request (.user user :: .assistant assistant :: rest) ≤
        targetSize)

theorem isRemoval_history (request : KiroRequest) : IsRemoval request request.history :=
  .inl ⟨_, ⟨List.suffix_refl _, .inl rfl⟩, (List.take_append_drop _ _).symm⟩

/-- Where there is no pair, or its answer has no calls, the entries before a cut are by themselves. -/
theorem Repaired.of_cut (h : Repaired request)
    (hcut : IsCut request.current.toolResults
      (request.history.drop (syntheticSystemPrefixLen request.history)) rest)
    (hne : rest ≠ request.history.drop (syntheticSystemPrefixLen request.history)) :
    Repaired { request with
      history := request.history.take (syntheticSystemPrefixLen request.history) ++ rest } ↔
      ∀ user assistant tail, request.history = .user user :: .assistant assistant :: tail →
        assistant.content = syntheticSystemAck → assistant.ids = [] := by
  obtain ⟨removed, hremoved⟩ := hcut.suffix
  have hboundary := hcut.boundary.resolve_left hne
  have hhistory : request.history =
      request.history.take (syntheticSystemPrefixLen request.history) ++ removed ++ rest := by
    rw [List.append_assoc, hremoved, List.take_append_drop]
  rw [h.removal_iff hhistory hboundary]
  by_cases hpair : syntheticSystemPrefixLen request.history = 0
  · rw [hpair, List.take_zero]
    refine ⟨fun _ user assistant tail heq hack => ?_, fun _ => List.Perm.refl _⟩
    rw [heq, syntheticSystemPrefixLen, if_pos hack] at hpair
    cases hpair
  · obtain ⟨user, assistant, tail, heq, hack, htwo⟩ := exists_pair hpair
    have hpaired := h.paired
    rw [htwo, heq]
    rw [heq] at hpaired
    constructor
    · rintro hkept user' assistant' tail' heq' -
      cases heq'
      exact hkept.2.2.symm.eq_nil
    · intro hids
      refine ⟨hpaired.1, rfl, ?_⟩
      rw [hids user assistant tail rfl hack]
      exact List.Perm.refl _

theorem isRemoval_pair {user : UserMessage} {assistant : AssistantMessage} {tail : List Message}
    (hhistory : request.history = .user user :: .assistant assistant :: tail)
    (hack : assistant.content = syntheticSystemAck) (hsuffix : rest <:+ tail)
    (hboundary : turnBoundary request.current.toolResults rest = true) :
    IsRemoval request (.user user :: .assistant assistant :: rest) := by
  have htwo : syntheticSystemPrefixLen request.history = 2 := by
    rw [hhistory]
    exact if_pos hack
  refine .inl ⟨rest, ⟨?_, .inr hboundary⟩, ?_⟩
  · rw [htwo, hhistory]
    exact hsuffix
  · rw [htwo, hhistory]
    rfl

theorem repaired_nil (h : Repaired request) (hresults : request.current.toolResults = []) :
    Repaired { request with history := [] } where
  history := eachUser_nil
  current := h.current
  strict := eachAssistant_nil
  distinct := h.distinct.sublist (List.nil_sublist _)
  paired := by
    change (resultIds request.current.toolResults).Perm []
    rw [hresults]
    exact List.Perm.refl _

/-- Which removals keep the pairs, said of the best one. -/
theorem Repaired.trim_iff (h : Repaired request)
    (hbest : BestRemoval encoding weighted request targetSize left) :
    Repaired { request with history := left.history } ↔
      ¬PairCut encoding weighted request targetSize := by
  rcases hbest.removal with ⟨rest, hcut, hleft⟩ | ⟨hnil, hresults⟩
  · by_cases hsame : rest = request.history.drop (syntheticSystemPrefixLen request.history)
    · -- Nothing has gone, so nothing could go.
      rw [hsame, List.take_append_drop] at hleft
      rw [hleft]
      refine ⟨fun _ => ?_, fun _ => h⟩
      rintro ⟨user, assistant, tail, rest', heq, hack, -, hover, hsuffix, hne, hboundary, -⟩
      have hall := hbest.longest (hleft ▸ hover) _ (isRemoval_pair heq hack hsuffix hboundary)
      rw [hleft, heq] at hall
      refine hne (hsuffix.eq_of_length (Nat.le_antisymm hsuffix.length_le ?_))
      simpa using hall
    · rw [hleft, h.of_cut hcut hsame]
      constructor
      · rintro hids ⟨user, assistant, tail, -, heq, hack, hcalls, -⟩
        exact hcalls (hids user assistant tail heq hack)
      · intro hnot user assistant tail heq hack
        by_contra hcalls
        have htwo : syntheticSystemPrefixLen request.history = 2 := by
          rw [heq]
          exact if_pos hack
        rw [htwo, heq] at hcut hsame hleft
        change left.history = .user user :: .assistant assistant :: rest at hleft
        have hlt : rest.length < tail.length :=
          lt_of_le_of_ne hcut.suffix.length_le fun hlength =>
            hsame (hcut.suffix.eq_of_length hlength)
        have hover := hbest.shortest _ (isRemoval_history request) (by
          rw [hleft, heq]
          simpa using hlt)
        refine hnot ⟨user, assistant, tail, rest, heq, hack, hcalls, hover, hcut.suffix, hsame,
          hcut.boundary.resolve_left hsame, ?_⟩
        by_contra hneither
        rw [not_or, not_not, Nat.not_le] at hneither
        have hall := hbest.longest (hleft ▸ hneither.2) [] (.inr ⟨rfl, hneither.1⟩)
        rw [hleft] at hall
        exact absurd hall (Nat.not_succ_le_zero _)
  · rw [hnil]
    refine ⟨fun _ => ?_, fun _ => repaired_nil h hresults⟩
    rintro ⟨user, assistant, tail, rest, heq, hack, -, -, hsuffix, -, hboundary, hfits⟩
    have hover := hbest.shortest _ (isRemoval_pair heq hack hsuffix hboundary) (by
      rw [hnil]
      exact Nat.succ_pos _)
    exact absurd (hfits.resolve_left (not_not.mpr hresults)) (Nat.not_le.mpr hover)

theorem alignHistoryToUser_removal {history : List Message} {user : UserMessage}
    {tail : List Message} (hremoval : IsRemoval request history)
    (hstart : request.history = .user user :: tail) : alignHistoryToUser history = history := by
  rcases hremoval with ⟨rest, hcut, rfl⟩ | ⟨rfl, -⟩
  · by_cases hpair : syntheticSystemPrefixLen request.history = 0
    · rw [hpair, List.take_zero, List.nil_append]
      rw [hpair, List.drop_zero] at hcut
      rcases hcut.boundary with rfl | hboundary
      · rw [hstart]
        rfl
      · match rest, hboundary with
        | [], _ => rfl
        | .user user :: rest, _ => rfl
        | .assistant assistant :: rest, hboundary => cases hboundary
    · obtain ⟨user', assistant, tail', heq, -, htwo⟩ := exists_pair hpair
      rw [htwo, heq]
      rfl
  · rfl

theorem bestRemoval_of_weight (encoding : Encoding) (request : KiroRequest) (targetSize : ℕ) :
    BestRemoval encoding true request targetSize
      (trimHistoryToEstimatedBudget encoding true request.history request.current.toolResults
        (kiroPayloadWeight (serializeRequest encoding request)) targetSize) :=
  bestRemoval_trimHistoryToEstimatedBudget rfl

/-- The calls of what is left keep their results unless a pair is cut; all else holds always. -/
theorem trimHistoryToEstimatedBudget_correct (encoding : Encoding) (request : KiroRequest)
    (targetSize : ℕ) (h : (repairRequest request).1 = request) :
    let currentSize := kiroPayloadWeight (serializeRequest encoding request)
    let left := trimHistoryToEstimatedBudget encoding true request.history
      request.current.toolResults currentSize targetSize
    BestRemoval encoding true request targetSize left ∧
      left.history.length + left.removed = request.history.length ∧
      (∀ user tail, request.history = .user user :: tail →
        alignHistoryToUser left.history = left.history) ∧
      (∀ serialize maxWeight finalWeight fuel, request.history.length < fuel →
        (trimToWeight serialize encoding maxWeight fuel request finalWeight).isSome = true) ∧
      ((repairRequest { request with history := left.history }).1 =
          { request with history := left.history } ↔
        ¬PairCut encoding true request targetSize) := by
  intro currentSize left
  have hbest : BestRemoval encoding true request targetSize left :=
    bestRemoval_of_weight encoding request targetSize
  refine ⟨hbest, removed_trimHistoryToEstimatedBudget, ?_, ?_, ?_⟩
  · exact fun user tail hstart => alignHistoryToUser_removal hbest.removal hstart
  · exact fun serialize maxWeight finalWeight fuel hfuel =>
      trimToWeight_isSome serialize encoding maxWeight request finalWeight hfuel
  · rw [repairRequest_eq_self_iff]
    exact (repairRequest_eq_self_iff.mp h).trim_iff hbest

/-- Texts of turns with at most one call and one result, and without escapes. -/
def plainMessageText : Message → String
  | .user user => "\x7b\"userInputMessage\":\x7b\"content\":\"" ++ user.content ++
    "\",\"modelId\":\"m\"" ++ String.join (user.toolResults.map fun result =>
      ",\"userInputMessageContext\":\x7b\"toolResults\":[\x7b\"toolUseId\":\"" ++
        result.toolUseId ++
        "\",\"content\":[\x7b\"text\":\"ok\"\x7d],\"status\":\"success\"\x7d]\x7d") ++ "\x7d\x7d"
  | .assistant assistant => "\x7b\"assistantResponseMessage\":\x7b\"content\":\"" ++
    assistant.content ++ "\"" ++ String.join ((assistant.toolUses.getD []).map fun toolUse =>
      ",\"toolUses\":[\x7b\"toolUseId\":\"" ++ toolUse.toolUseId ++ "\",\"name\":\"" ++
        toolUse.name ++ "\",\"input\":\x7b\x7d\x7d]") ++ "\x7d\x7d"

def plainEncoding : Encoding where
  message turn := (plainMessageText turn).toList
  entry turn := (plainMessageText turn).toList
  entry_perm _ := List.Perm.refl _
  head current _ := ("\x7b\"conversationState\":\x7b\"currentMessage\":\x7b\"userInputMessage\":" ++
    "\x7b\"userInputMessageContext\":\x7b\x7d,\"content\":\"" ++ current.content ++
    "\",\"modelId\":\"m\"\x7d\x7d,\"conversationId\":\"c\"").toList
  tail := "\x7d\x7d".toList

def acknowledgingHistory (calls : Option (List ToolUseEntry)) (results : List ToolResult) :
    List Message :=
  [.user ⟨"Follow the guide.", [], []⟩, .assistant ⟨syntheticSystemAck, calls, none⟩,
    .user ⟨"Result", [], results⟩, .assistant ⟨"Done", none, none⟩,
    .user ⟨"Next", [], []⟩, .assistant ⟨"Sure", none, none⟩]

def acknowledgingRequest (calls : Option (List ToolUseEntry)) (results : List ToolResult) :
    KiroRequest where
  history := acknowledgingHistory calls results
  current := ⟨"Go", [], []⟩
  tools := []

def guideCalls : Option (List ToolUseEntry) := some [⟨"t1", "Bash", .obj []⟩]

def guideResults : List ToolResult := [⟨"t1", [[("text", .str "ok")]], some "success", false⟩]

theorem repaired_acknowledgingRequest :
    Repaired (acknowledgingRequest guideCalls guideResults) where
  history := by
    simp only [acknowledgingRequest, acknowledgingHistory, eachUser_user, eachUser_assistant,
      eachUser_nil, and_true]
    exact ⟨List.forall_mem_nil _, by unfold Normalized; decide, List.forall_mem_nil _⟩
  current := List.forall_mem_nil _
  strict := by simp [acknowledgingRequest, acknowledgingHistory, guideCalls]
  distinct := ⟨by decide, by decide⟩
  paired := ⟨.refl _, rfl, .refl _, rfl, .refl _, rfl, .refl _⟩

theorem repaired_systemRequest : Repaired (acknowledgingRequest none []) where
  history := by
    simp only [acknowledgingRequest, acknowledgingHistory, eachUser_user, eachUser_assistant,
      eachUser_nil, and_true]
    exact ⟨List.forall_mem_nil _, List.forall_mem_nil _, List.forall_mem_nil _⟩
  current := List.forall_mem_nil _
  strict := by simp [acknowledgingRequest, acknowledgingHistory]
  distinct := ⟨by decide, by decide⟩
  paired := ⟨.refl _, rfl, .refl _, rfl, .refl _, rfl, .refl _⟩

theorem removed_systemRequest :
    (trimHistoryToEstimatedBudget plainEncoding true (acknowledgingRequest none []).history
      (acknowledgingRequest none []).current.toolResults
      (kiroPayloadWeight (serializeRequest plainEncoding (acknowledgingRequest none []))) 500
        ).removed = 2 := by
  decide +kernel

theorem not_pairCut_systemRequest :
    ¬PairCut plainEncoding true (acknowledgingRequest none []) 500 := by
  rintro ⟨user, assistant, tail, rest, heq, -, hcalls, -⟩
  cases heq
  exact hcalls rfl

theorem trimHistoryToEstimatedBudget_correct_system :
    let request := acknowledgingRequest none []
    let left := trimHistoryToEstimatedBudget plainEncoding true request.history
      request.current.toolResults (kiroPayloadWeight (serializeRequest plainEncoding request)) 500
    (repairRequest request).1 = request ∧ left.removed = 2 ∧
      (repairRequest { request with history := left.history }).1 =
        { request with history := left.history } := by
  have h := repairRequest_eq_self_iff.mpr repaired_systemRequest
  refine ⟨h, removed_systemRequest, ?_⟩
  exact (trimHistoryToEstimatedBudget_correct plainEncoding (acknowledgingRequest none []) 500
    h).2.2.2.2.mpr not_pairCut_systemRequest

theorem lt_requestSize_acknowledgingRequest :
    500 < requestSize plainEncoding true (acknowledgingRequest guideCalls guideResults)
      (acknowledgingHistory guideCalls guideResults) := by
  rw [requestSize, payloadSize_eq]
  decide +kernel

theorem requestSize_acknowledgingRequest_le :
    requestSize plainEncoding true (acknowledgingRequest guideCalls guideResults)
      [.user ⟨"Follow the guide.", [], []⟩, .assistant ⟨syntheticSystemAck, guideCalls, none⟩,
        .user ⟨"Next", [], []⟩, .assistant ⟨"Sure", none, none⟩] ≤ 500 := by
  rw [requestSize, payloadSize_eq]
  decide +kernel

/-- The result of the call goes, and the call stays. -/
theorem trimHistoryToEstimatedBudget_orphans_call :
    let request := acknowledgingRequest guideCalls guideResults
    let left := trimHistoryToEstimatedBudget plainEncoding true request.history
      request.current.toolResults (kiroPayloadWeight (serializeRequest plainEncoding request)) 500
    (repairRequest request).1 = request ∧
      (repairRequest { request with history := left.history }).1 ≠
        { request with history := left.history } := by
  intro request left
  refine ⟨repairRequest_eq_self_iff.mpr repaired_acknowledgingRequest, ?_⟩
  have hbest : BestRemoval plainEncoding true request 500 left :=
    bestRemoval_of_weight plainEncoding request 500
  rw [Ne, repairRequest_eq_self_iff, repaired_acknowledgingRequest.trim_iff hbest, not_not]
  have htail : [Message.user ⟨"Next", [], []⟩, .assistant ⟨"Sure", none, none⟩] <:+
      request.history.drop 2 :=
    ⟨[.user ⟨"Result", [], guideResults⟩, .assistant ⟨"Done", none, none⟩], rfl⟩
  exact ⟨_, _, _, _, rfl, rfl, nofun, lt_requestSize_acknowledgingRequest, htail,
    fun heq => absurd (congrArg List.length heq) (by decide), rfl,
    .inr requestSize_acknowledgingRequest_le⟩

end KiroProxy.PayloadGuard
