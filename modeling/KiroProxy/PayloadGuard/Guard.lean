import KiroProxy.PayloadGuard.Pairing

/-!
# The check of the pairs

After its last repair the guard counts the calls and results that have no partner and refuses a
request that has any. A repaired request has none, so the check never fails, whatever the steps
between the repairs do.
-/

namespace KiroProxy.PayloadGuard

inductive StepError
  | serialize (message : String)
  | oversizedImage (currentImages currentImageBytes historicalImages historicalImageBytes
      maxSourceBytes : ℕ)
  deriving DecidableEq, Repr

inductive PayloadGuardError
  | step (error : StepError)
  | toolPairingInvariant (orphanToolUses orphanToolResults : ℕ)
  deriving DecidableEq, Repr

/-- How many of the ids have no partner; blank ids never have one. -/
def countMismatches (ids others : List String) : ℕ :=
  (ids.dedup.map fun id =>
    if isBlankText id then ids.count id else ids.count id - others.count id).sum

def toolPairCountMismatches (toolUseIds toolResultIds : List String) : ℕ × ℕ :=
  (countMismatches toolUseIds toolResultIds, countMismatches toolResultIds toolUseIds)

/-- The calls and the results without a partner from a turn on. -/
def orphansFrom (previousHasToolUses : Bool) (current : List ToolResult) :
    List Message → ℕ × ℕ
  | [] => (0, if previousHasToolUses then 0 else current.length)
  | .user user :: rest =>
    let (uses, results) := orphansFrom false current rest
    (uses, (if previousHasToolUses then 0 else user.toolResults.length) + results)
  | .assistant assistant :: rest =>
    if assistant.ids.isEmpty then orphansFrom false current rest
    else
      let (missing, extra) :=
        toolPairCountMismatches assistant.ids (nextToolResultIds current rest)
      let (uses, results) := orphansFrom true current rest
      (missing + uses, extra + results)

def validateKiroToolPairingInvariant (request : KiroRequest) : Except PayloadGuardError Unit :=
  let (uses, results) := orphansFrom false request.current.toolResults request.history
  if uses = 0 ∧ results = 0 then .ok () else .error (.toolPairingInvariant uses results)

def alignHistoryToUser (history : List Message) : List Message :=
  history.dropWhile fun message =>
    match message with
    | .assistant _ => true
    | .user _ => false

def reserialize (serialize : KiroRequest → Except StepError String) (modified : Bool)
    (request : KiroRequest) (body : String) : Except PayloadGuardError String :=
  if modified then (serialize request).mapError .step else .ok body

/-- The body that is sent, with the request as the guard leaves it. `shape` stands for the shaping,
trimming and fitting between the first and the last repair. -/
def guardKiroRequest (serialize : KiroRequest → Except StepError String) (enabled : Bool)
    (shape : KiroRequest → String → Except StepError (KiroRequest × String))
    (request : KiroRequest) : Except PayloadGuardError (String × KiroRequest) := do
  let originalBody ← (serialize request).mapError .step
  if !enabled then return (originalBody, request)
  let initial := repairRequest { request with history := alignHistoryToUser request.history }
  let body ← reserialize serialize initial.2.wasModified initial.1 originalBody
  let shaped ← (shape initial.1 body).mapError .step
  let final := repairRequest shaped.1
  let body ← reserialize serialize final.2.wasModified final.1 shaped.2
  validateKiroToolPairingInvariant final.1
  return (body, final.1)

variable {ids ids' : List String} {calls : List String} {history : List Message}
variable {current : List ToolResult}

theorem countMismatches_eq_zero (hids : ∀ id ∈ ids, isBlankText id = false)
    (hperm : ids'.Perm ids) : countMismatches ids ids' = 0 := by
  refine List.sum_eq_zero fun count hcount => ?_
  obtain ⟨id, hid, rfl⟩ := List.mem_map.mp hcount
  have hnotBlank := hids id (List.mem_dedup.mp hid)
  rw [hnotBlank, if_neg Bool.false_ne_true, hperm.count_eq, Nat.sub_self]

theorem Paired.toolPairCountMismatches (h : Paired calls history current)
    (hcalls : ∀ id ∈ calls, isBlankText id = false) :
    toolPairCountMismatches calls (nextToolResultIds current history) = (0, 0) := by
  have hperm := h.next_perm
  have hnext : ∀ id ∈ nextToolResultIds current history, isBlankText id = false :=
    fun id hid => hcalls id (hperm.subset hid)
  rw [PayloadGuard.toolPairCountMismatches, countMismatches_eq_zero hcalls hperm,
    countMismatches_eq_zero hnext hperm.symm]

theorem length_eq_zero_of_perm {results : List ToolResult} {b : Bool}
    (hperm : (resultIds results).Perm calls) (hcalls : b = false → calls = []) :
    (if b then 0 else results.length) = 0 := by
  cases b with
  | true => rfl
  | false =>
    rw [hcalls rfl] at hperm
    rw [if_neg Bool.false_ne_true, ← List.length_map ToolResult.toolUseId]
    exact List.length_eq_zero_iff.mpr hperm.eq_nil

theorem Paired.orphansFrom {previousHasToolUses : Bool} (h : Paired calls history current)
    (hcalls : previousHasToolUses = false → calls = [])
    (hids : ∀ id ∈ toolUseIds history, isBlankText id = false) :
    orphansFrom previousHasToolUses current history = (0, 0) := by
  induction history generalizing calls previousHasToolUses with
  | nil => rw [PayloadGuard.orphansFrom, length_eq_zero_of_perm h hcalls]
  | cons message rest ih =>
    cases message with
    | user user =>
      rw [PayloadGuard.orphansFrom, ih h.2 (fun _ => rfl) hids]
      dsimp only
      rw [length_eq_zero_of_perm h.1 hcalls]
    | assistant assistant =>
      have hturn : ∀ id ∈ assistant.ids, isBlankText id = false :=
        fun id hid => hids id (List.mem_append_left _ hid)
      have hrest : ∀ id ∈ toolUseIds rest, isBlankText id = false :=
        fun id hid => hids id (List.mem_append_right _ hid)
      rw [PayloadGuard.orphansFrom]
      split_ifs with hempty
      · exact ih h.2 (fun _ => List.isEmpty_iff.mp hempty) hrest
      · rw [h.2.toolPairCountMismatches hturn, ih h.2 (fun hfalse => by cases hfalse) hrest]

theorem Repaired.validate {request : KiroRequest} (h : Repaired request) :
    validateKiroToolPairingInvariant request = .ok () := by
  rw [validateKiroToolPairingInvariant, h.paired.orphansFrom (fun _ => rfl) h.distinct.notBlank]
  rfl

def Passes {α : Type} (result : Except PayloadGuardError α) : Prop :=
  ∀ uses results, result ≠ .error (.toolPairingInvariant uses results)

theorem Passes.bind {α β : Type} {result : Except PayloadGuardError α}
    {next : α → Except PayloadGuardError β} (h : Passes result) (hnext : ∀ a, Passes (next a)) :
    Passes (result >>= next) := by
  cases result with
  | ok a => exact hnext a
  | error error =>
    intro uses results heq
    exact h uses results (congrArg Except.error (Except.error.inj heq))

theorem passes_ok {α : Type} (a : α) : Passes (.ok a) := fun _ _ heq => by cases heq

theorem passes_step {α : Type} (result : Except StepError α) : Passes (result.mapError .step) := by
  cases result with
  | ok a => exact passes_ok a
  | error error => exact fun _ _ heq => by cases heq

theorem passes_reserialize (serialize : KiroRequest → Except StepError String) (modified : Bool)
    (request : KiroRequest) (body : String) :
    Passes (reserialize serialize modified request body) := by
  unfold reserialize
  split_ifs
  · exact passes_step _
  · exact passes_ok body

theorem passes_guardKiroRequest (serialize : KiroRequest → Except StepError String)
    (enabled : Bool) (shape : KiroRequest → String → Except StepError (KiroRequest × String))
    (request : KiroRequest) : Passes (guardKiroRequest serialize enabled shape request) := by
  unfold guardKiroRequest
  refine (passes_step _).bind fun originalBody => ?_
  split_ifs
  · exact passes_ok _
  · refine (passes_reserialize _ _ _ _).bind fun body => (passes_step _).bind fun shaped => ?_
    refine (passes_reserialize _ _ _ _).bind fun body => ?_
    rw [(repaired_repairRequest shaped.1).validate]
    exact passes_ok _

variable {rest : List Message}

theorem Paired.drop {before : List Message} {message : Message}
    (h : Paired calls (before ++ message :: rest) current) :
    Paired message.toolUseIds rest current := by
  induction before generalizing calls with
  | nil =>
    cases message with
    | user user => exact h.2
    | assistant assistant => exact h.2
  | cons first before ih =>
    cases first with
    | user user => exact ih h.2
    | assistant assistant => exact ih h.2

theorem Paired.next_eq_nil {before : List Message} (h : Paired [] (before ++ rest) current)
    (hbefore : ∀ before' assistant, before ≠ before' ++ [.assistant assistant]) :
    nextToolResultIds current rest = [] := by
  rcases List.eq_nil_or_concat' before with rfl | ⟨before', message, rfl⟩
  · exact h.next_perm.eq_nil
  · cases message with
    | user user =>
      rw [List.append_assoc, List.singleton_append] at h
      exact h.drop.next_perm.eq_nil
    | assistant assistant => exact absurd rfl (hbefore before' assistant)

theorem repairRequest_pairs (request : KiroRequest) :
    (∀ id ∈ toolUseIds (repairRequest request).1.history, trim id ≠ "") ∧
    (toolUseIds (repairRequest request).1.history).Nodup ∧
    (∀ before assistant rest,
      (repairRequest request).1.history = before ++ .assistant assistant :: rest →
      (nextToolResultIds (repairRequest request).1.current.toolResults rest).Perm assistant.ids) ∧
    (∀ before user rest, (repairRequest request).1.history = before ++ .user user :: rest →
      (∀ before' assistant, before ≠ before' ++ [.assistant assistant]) → user.toolResults = []) ∧
    ((∀ before assistant,
        (repairRequest request).1.history ≠ before ++ [.assistant assistant]) →
      (repairRequest request).1.current.toolResults = []) ∧
    validateKiroToolPairingInvariant (repairRequest request).1 = .ok () ∧
    (∀ serialize enabled shape orphanToolUses orphanToolResults,
      guardKiroRequest serialize enabled shape request ≠
        .error (.toolPairingInvariant orphanToolUses orphanToolResults)) ∧
    (repairRequest (repairRequest request).1).2.wasModified = false ∧
    (repairRequest (repairRequest request).1).1 = (repairRequest request).1 := by
  have h := repaired_repairRequest request
  refine ⟨fun id hid => isBlankText_eq_false_iff.mp (h.distinct.notBlank id hid),
    h.distinct.ids_nodup, ?_, ?_, ?_, h.validate, ?_, ?_, ?_⟩
  · intro before assistant rest heq
    have hpaired := h.paired
    rw [heq] at hpaired
    exact hpaired.drop.next_perm
  · intro before user rest heq hbefore
    have hpaired := h.paired
    rw [heq] at hpaired
    exact List.map_eq_nil_iff.mp (hpaired.next_eq_nil hbefore)
  · intro hlast
    have hpaired := h.paired
    rw [← List.append_nil (repairRequest request).1.history] at hpaired
    exact List.map_eq_nil_iff.mp (hpaired.next_eq_nil hlast)
  · intro serialize enabled shape orphanToolUses orphanToolResults
    exact passes_guardKiroRequest serialize enabled shape request _ _
  · rw [h.repairRequest_eq_self]
    rfl
  · rw [h.repairRequest_eq_self]

end KiroProxy.PayloadGuard
