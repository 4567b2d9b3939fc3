import KiroProxy.BoundedInsertion
import KiroProxy.Degrade
import KiroProxy.ModelSupport

/-!
# The choice of a credential

The candidates of a request go through five filters, each of which leaves one of them at least: the
catalog of the model, the suspension of degraded credentials, the Fast tier, the priority tier and
the warm-up share. The mode orders what is left. Shares and degrade scores are values of an ordered
field, scores those of any linear order, and what the generator yields is arbitrary.
-/

namespace KiroProxy.Selection

open Degrade (Decay Scores isSuspended)

inductive LoadBalancingMode
  | priority
  | balanced
  | healthBalanced
  | weightedLeastInflight
  deriving DecidableEq, Repr

def LoadBalancingMode.fillsPriorityTiersInOrder : LoadBalancingMode → Bool
  | .priority => true
  | _ => false

def LoadBalancingMode.usesScores : LoadBalancingMode → Bool
  | .healthBalanced => true
  | .weightedLeastInflight => true
  | _ => false

structure KiroCredentials where
  priority : ℕ
  fast : ℕ
  maxConcurrentRequests : Option ℕ
  supportedModels : List String
  deriving DecidableEq, Repr

structure CredentialEntry (K : Type) [Field K] [LinearOrder K] where
  id : ℕ
  credentials : KiroCredentials
  inFlightRequests : ℕ
  warmupRemaining : ℕ
  recentSelectionCount60s : ℕ
  selectionEvents : List ℕ
  degradeScores : Scores K

structure Config (K : Type) where
  credentialDegradeEnabled : Bool
  credentialDegradeSuspendScore : K
  credentialDegradeResumeRatio : K
  credentialDegradeHalfLifeSecs : ℕ
  credentialDegradeProbePercent : ℕ
  credentialWarmupSelectionPercent : ℕ
  credentialWarmupMaxSelectionPercent : ℕ
  credentialMaxConcurrentRequests : ℕ
  schedulerTopK : ℕ

/-- The decay by half-lives, the score of an entry under a pressure, the number below 100 drawn for
a probe, and whether the roll is used up by the entry at that place of the scores. -/
structure Environment (K S : Type) [Field K] [LinearOrder K] where
  halfLife : K → Decay K
  score : CredentialEntry K → K → S
  probe : ℕ
  stops : List S → ℕ → Bool

section Filters

variable {K : Type} [Field K] [LinearOrder K]

def credentialCatalogListsModel (entry : CredentialEntry K) (model : Option String) : Bool :=
  match model with
  | none => false
  | some model =>
    !(trimChars model.toList).isEmpty && !entry.credentials.supportedModels.isEmpty &&
      ModelSupport.modelIsSupportedByList (entry.credentials.supportedModels.map String.toList)
        [model.toList]

def preferCatalogListed (dispatchable : List (CredentialEntry K)) (model : Option String) :
    List (CredentialEntry K) :=
  if dispatchable.any fun entry => credentialCatalogListsModel entry model then
    dispatchable.filter fun entry => credentialCatalogListsModel entry model
  else dispatchable

def Config.resumeScore (config : Config K) : K :=
  max (config.credentialDegradeSuspendScore *
    max 0 (min config.credentialDegradeResumeRatio 1)) 0

def Config.halfLifeMs (config : Config K) : K :=
  (max config.credentialDegradeHalfLifeSecs 1 : ℕ) * 1000

def retainNonDegraded (halfLife : K → Decay K) (probe : ℕ) (available : List (CredentialEntry K))
    (model : Option String) (nowMs : ℤ) (config : Config K) : List (CredentialEntry K) :=
  if !config.credentialDegradeEnabled || config.resumeScore ≤ 0 || available.length ≤ 1 then
    available
  else
    let isDegraded (entry : CredentialEntry K) : Bool :=
      isSuspended (halfLife config.halfLifeMs) entry.degradeScores model nowMs config.resumeScore
    let healthyCount := (available.filter fun entry => !isDegraded entry).length
    if healthyCount = 0 || healthyCount = available.length then available
    else
      let probePercent := min config.credentialDegradeProbePercent 100
      if 0 < probePercent && probe < probePercent then available
      else available.filter fun entry => !isDegraded entry

def retainTopFastTier (available : List (CredentialEntry K)) : List (CredentialEntry K) :=
  let topFast := (available.map fun entry => entry.credentials.fast).max?.getD 0
  if 0 < topFast then available.filter fun entry => entry.credentials.fast = topFast else available

def preferredPriority (candidates : List (CredentialEntry K)) : Option ℕ :=
  (candidates.map fun entry => entry.credentials.priority).min?

def retainPreferredPriorityTier (available : List (CredentialEntry K)) :
    List (CredentialEntry K) :=
  match preferredPriority available with
  | some preferred => available.filter fun entry => entry.credentials.priority = preferred
  | none => available

local instance atLeastTwo_hundred : Nat.AtLeastTwo 100 := inferInstance

def warmupTargetShareWithConfig (config : Config K) (warmingCount : ℕ) : K :=
  if warmingCount = 0 then 0
  else
    let perWarming : K := (min config.credentialWarmupSelectionPercent 100 : ℕ) / 100
    let maxShare : K := (min config.credentialWarmupMaxSelectionPercent 100 : ℕ) / 100
    min (min (perWarming * warmingCount) maxShare) 1

def shouldSelectWarmingFromTotals (config : Config K)
    (readyCount warmingCount totalRecent warmingRecent : ℕ) : Bool :=
  if warmingCount = 0 then false
  else if readyCount = 0 then true
  else
    let targetShare := warmupTargetShareWithConfig config warmingCount
    if targetShare ≤ 0 then false
    else if totalRecent = 0 then true
    else
      let currentShare : K := warmingRecent / totalRecent
      currentShare < targetShare

def recentSelections (entries : List (CredentialEntry K)) : ℕ :=
  (entries.map fun entry => entry.recentSelectionCount60s).sum

def warmupGroup (available : List (CredentialEntry K)) (config : Config K) :
    List (CredentialEntry K) :=
  let (warming, ready) := available.partition fun entry => 0 < entry.warmupRemaining
  let warmingRecent := recentSelections warming
  let totalRecent := warmingRecent + recentSelections ready
  if shouldSelectWarmingFromTotals config ready.length warming.length totalRecent warmingRecent then
    warming
  else ready

abbrev SpreadKey := ℕ ×ₗ ℕ ×ₗ ℕ ×ₗ ℕ ×ₗ WithBot ℕ ×ₗ ℕ

def effectiveMaxConcurrentRequests (entry : CredentialEntry K)
    (globalMaxConcurrentRequests : ℕ) : ℕ :=
  entry.credentials.maxConcurrentRequests.getD globalMaxConcurrentRequests

def spreadKey (entry : CredentialEntry K) (globalMaxConcurrentRequests boundSessions : ℕ) :
    SpreadKey :=
  let maxConcurrent := effectiveMaxConcurrentRequests entry globalMaxConcurrentRequests
  let loadPerMille :=
    if 0 < maxConcurrent then entry.inFlightRequests * 1000 / maxConcurrent else 0
  toLex (entry.credentials.priority, toLex (loadPerMille, toLex (boundSessions,
    toLex (entry.recentSelectionCount60s,
      toLex ((entry.selectionEvents.getLast?.map WithBot.some).getD ⊥, entry.id)))))

def selectionPressureFromTotals (entry : CredentialEntry K) (totalRecent candidateCount : ℕ) : K :=
  if candidateCount ≤ 1 || totalRecent = 0 then 0
  else
    let share : K := entry.recentSelectionCount60s / totalRecent
    let expectedShare : K := 1 / candidateCount
    max (share / expectedShare - 1) 0

variable {S : Type} [LinearOrder S]

def candidateScore (env : Environment K S) (candidates : List (CredentialEntry K))
    (entry : CredentialEntry K) : S :=
  env.score entry
    (selectionPressureFromTotals entry (recentSelections candidates) candidates.length)

/-- Lower scores first, and ties by the id. -/
def rank (scored : CredentialEntry K × S) : S ×ₗ ℕ := toLex (scored.2, scored.1.id)

def candidateRank (env : Environment K S) (candidates : List (CredentialEntry K))
    (entry : CredentialEntry K) : S ×ₗ ℕ :=
  rank (entry, candidateScore env candidates entry)

/-- The first entry that uses up the roll, or else the last one. -/
def roll (stops : ℕ → Bool) (top : List (CredentialEntry K × S)) : Option (CredentialEntry K) :=
  match top.zipIdx.find? fun item => stops item.2 with
  | some (scored, _) => some scored.1
  | none => top.getLast?.map Prod.fst

def selectHealthWeighted (env : Environment K S) (candidates : List (CredentialEntry K))
    (config : Config K) : Option (CredentialEntry K) :=
  let topK := min (max config.schedulerTopK 1) candidates.length
  let top := BoundedInsertion.select rank topK
    (candidates.map fun entry => (entry, candidateScore env candidates entry))
  roll (env.stops (top.map Prod.snd)) top

def orderByMode (env : Environment K S) (mode : LoadBalancingMode)
    (candidates : List (CredentialEntry K)) (config : Config K) (boundSessions : List (ℕ × ℕ)) :
    Option (CredentialEntry K) :=
  if mode.usesScores then selectHealthWeighted env candidates config
  else
    candidates.argmin fun entry =>
      spreadKey entry config.credentialMaxConcurrentRequests
        ((KeyedList.get entry.id boundSessions).getD 0)

def selectCandidate (env : Environment K S) (mode : LoadBalancingMode)
    (dispatchable : List (CredentialEntry K)) (model : Option String) (nowMs : ℤ)
    (config : Config K) (boundSessions : List (ℕ × ℕ)) : Option (CredentialEntry K) :=
  let available := preferCatalogListed dispatchable model
  if available.isEmpty then none
  else
    let available := retainNonDegraded env.halfLife env.probe available model nowMs config
    let available := retainTopFastTier available
    let available :=
      if mode.fillsPriorityTiersInOrder then retainPreferredPriorityTier available else available
    let candidates := warmupGroup available config
    orderByMode env mode candidates config boundSessions

def chosenGroup (env : Environment K S) (mode : LoadBalancingMode)
    (dispatchable : List (CredentialEntry K)) (model : Option String) (nowMs : ℤ)
    (config : Config K) : List (CredentialEntry K) :=
  let available := retainTopFastTier (retainNonDegraded env.halfLife env.probe
    (preferCatalogListed dispatchable model) model nowMs config)
  warmupGroup
    (if mode.fillsPriorityTiersInOrder then retainPreferredPriorityTier available else available)
    config

/-- Some of the entries in their order, and one at least where there is one. -/
structure Narrows (available group : List (CredentialEntry K)) : Prop where
  sublist : group.Sublist available
  ne_nil : available ≠ [] → group ≠ []

variable {available group : List (CredentialEntry K)} {config : Config K}

theorem Narrows.refl (available : List (CredentialEntry K)) : Narrows available available :=
  ⟨.refl _, id⟩

theorem Narrows.trans {group' : List (CredentialEntry K)} (h : Narrows available group)
    (h' : Narrows group group') : Narrows available group' :=
  ⟨h'.sublist.trans h.sublist, fun hne => h'.ne_nil (h.ne_nil hne)⟩

theorem Narrows.filter {p : CredentialEntry K → Bool}
    (h : available ≠ [] → ∃ entry ∈ available, p entry = true) :
    Narrows available (available.filter p) := by
  refine ⟨List.filter_sublist, fun hne hnil => ?_⟩
  obtain ⟨entry, hmem, hp⟩ := h hne
  have hfilter : entry ∈ available.filter p := List.mem_filter.mpr ⟨hmem, hp⟩
  rw [hnil] at hfilter
  cases hfilter

theorem preferCatalogListed_narrows (dispatchable : List (CredentialEntry K))
    (model : Option String) : Narrows dispatchable (preferCatalogListed dispatchable model) := by
  unfold preferCatalogListed
  split_ifs with h
  · exact Narrows.filter fun _ => List.any_eq_true.mp h
  · exact .refl _

theorem lists_of_mem_preferCatalogListed {dispatchable : List (CredentialEntry K)}
    {model : Option String} {entry : CredentialEntry K}
    (h : ∃ other ∈ dispatchable, credentialCatalogListsModel other model = true)
    (hmem : entry ∈ preferCatalogListed dispatchable model) :
    credentialCatalogListsModel entry model = true := by
  unfold preferCatalogListed at hmem
  rw [if_pos (List.any_eq_true.mpr h)] at hmem
  exact (List.mem_filter.mp hmem).2

theorem retainNonDegraded_narrows (halfLife : K → Decay K) (probe : ℕ)
    (available : List (CredentialEntry K)) (model : Option String) (nowMs : ℤ)
    (config : Config K) :
    Narrows available (retainNonDegraded halfLife probe available model nowMs config) := by
  unfold retainNonDegraded
  dsimp only
  split_ifs with hoff hcount hprobe
  · exact .refl _
  · exact .refl _
  · exact .refl _
  · refine ⟨List.filter_sublist, fun _ hnil => hcount ?_⟩
    rw [hnil]
    rfl

theorem retainNonDegraded_of_off (halfLife : K → Decay K) (probe : ℕ)
    (available : List (CredentialEntry K)) (model : Option String) (nowMs : ℤ)
    (hoff : config.credentialDegradeEnabled = false ∨ config.resumeScore ≤ 0) :
    retainNonDegraded halfLife probe available model nowMs config = available := by
  unfold retainNonDegraded
  refine if_pos ?_
  rcases hoff with h | h
  · rw [h]
    rfl
  · rw [decide_eq_true h, Bool.or_true, Bool.true_or]

theorem le_topFast {entry : CredentialEntry K} (hmem : entry ∈ available) :
    entry.credentials.fast ≤
      (available.map fun entry => entry.credentials.fast).max?.getD 0 := by
  have hfast := List.mem_map_of_mem (f := fun entry => entry.credentials.fast) hmem
  cases htop : (available.map fun entry => entry.credentials.fast).max? with
  | none =>
    rw [List.max?_eq_none_iff] at htop
    rw [htop] at hfast
    cases hfast
  | some topFast => exact (List.max?_eq_some_iff.mp htop).2 _ hfast

theorem retainTopFastTier_narrows (available : List (CredentialEntry K)) :
    Narrows available (retainTopFastTier available) := by
  unfold retainTopFastTier
  dsimp only
  split_ifs with hpos
  · refine Narrows.filter fun _ => ?_
    cases htop : (available.map fun entry => entry.credentials.fast).max? with
    | none =>
      rw [htop] at hpos
      cases hpos
    | some topFast =>
      obtain ⟨entry, hmem, hfast⟩ := List.mem_map.mp (List.max?_mem htop)
      exact ⟨entry, hmem, decide_eq_true hfast⟩
  · exact .refl _

theorem mem_retainTopFastTier {entry : CredentialEntry K} (hmem : entry ∈ available) :
    entry ∈ retainTopFastTier available ↔
      ∀ other ∈ available, other.credentials.fast ≤ entry.credentials.fast := by
  have hle := le_topFast hmem
  constructor
  · intro hleft other hother
    have hother := le_topFast hother
    unfold retainTopFastTier at hleft
    dsimp only at hleft
    split_ifs at hleft with hpos
    · exact hother.trans_eq (of_decide_eq_true (List.mem_filter.mp hleft).2).symm
    · omega
  · intro hall
    unfold retainTopFastTier
    dsimp only
    split_ifs with hpos
    · refine List.mem_filter.mpr ⟨hmem, decide_eq_true (hle.antisymm ?_)⟩
      cases htop : (available.map fun entry => entry.credentials.fast).max? with
      | none => exact Nat.zero_le _
      | some topFast =>
        obtain ⟨top, htopmem, hfast⟩ := List.mem_map.mp (List.max?_mem htop)
        exact hfast.symm.trans_le (hall top htopmem)
    · exact hmem

theorem retainPreferredPriorityTier_narrows (available : List (CredentialEntry K)) :
    Narrows available (retainPreferredPriorityTier available) := by
  unfold retainPreferredPriorityTier
  split
  · rename_i preferred hpreferred
    refine Narrows.filter fun _ => ?_
    obtain ⟨entry, hmem, hpriority⟩ := List.mem_map.mp (List.min?_mem hpreferred)
    exact ⟨entry, hmem, decide_eq_true hpriority⟩
  · exact .refl _

theorem le_of_mem_retainPreferredPriorityTier {entry other : CredentialEntry K}
    (hmem : entry ∈ retainPreferredPriorityTier available) (hother : other ∈ available) :
    entry.credentials.priority ≤ other.credentials.priority := by
  have hpriority := List.mem_map_of_mem (f := fun entry => entry.credentials.priority) hother
  unfold retainPreferredPriorityTier at hmem
  split at hmem
  · rename_i preferred hpreferred
    have hentry := of_decide_eq_true (List.mem_filter.mp hmem).2
    exact hentry.trans_le ((List.min?_eq_some_iff.mp hpreferred).2 _ hpriority)
  · rename_i hnone
    rw [preferredPriority, List.min?_eq_none_iff] at hnone
    rw [hnone] at hpriority
    cases hpriority

theorem warmupGroup_narrows (available : List (CredentialEntry K)) (config : Config K) :
    Narrows available (warmupGroup available config) := by
  unfold warmupGroup
  rw [List.partition_eq_filter_filter]
  dsimp only
  split_ifs with hwarming
  · refine ⟨List.filter_sublist, fun _ hnil => ?_⟩
    rw [hnil] at hwarming
    cases hwarming
  · refine ⟨List.filter_sublist, fun hne hnil => hwarming ?_⟩
    -- Without ready entries all are warming.
    have hall : (available.filter fun entry => 0 < entry.warmupRemaining) = available :=
      List.filter_eq_self.mpr fun entry hmem => by
        by_contra hready
        have hmem' : entry ∈ available.filter (not ∘ fun entry => 0 < entry.warmupRemaining) :=
          List.mem_filter.mpr ⟨hmem, by simpa using hready⟩
        rw [hnil] at hmem'
        cases hmem'
    rw [hnil, hall, shouldSelectWarmingFromTotals, if_neg (by simpa using hne)]
    rfl

section Modes

variable {S : Type} {env : Environment K S} {mode : LoadBalancingMode}
  {candidates dispatchable : List (CredentialEntry K)} {boundSessions : List (ℕ × ℕ)}
  {entry entry' : CredentialEntry K} {model : Option String} {nowMs : ℤ}

theorem id_eq_of_spreadKey_eq {globalMaxConcurrentRequests sessions sessions' : ℕ}
    (h : spreadKey entry globalMaxConcurrentRequests sessions =
      spreadKey entry' globalMaxConcurrentRequests sessions') : entry.id = entry'.id := by
  simp only [spreadKey, EmbeddingLike.apply_eq_iff_eq, Prod.mk.injEq] at h
  exact h.2.2.2.2.2

theorem roll_eq_none_iff {stops : ℕ → Bool} {top : List (CredentialEntry K × S)} :
    roll stops top = none ↔ top = [] := by
  unfold roll
  constructor
  · intro h
    split at h
    · cases h
    · exact List.getLast?_eq_none_iff.mp (Option.map_eq_none_iff.mp h)
  · rintro rfl
    rfl

theorem mem_of_roll {stops : ℕ → Bool} {top : List (CredentialEntry K × S)}
    (h : roll stops top = some entry) : entry ∈ top.map Prod.fst := by
  unfold roll at h
  split at h
  · rename_i scored place hfind
    cases h
    exact List.mem_map_of_mem (List.fst_mem_of_mem_zipIdx (List.mem_of_find?_eq_some hfind))
  · obtain ⟨scored, hlast, rfl⟩ := Option.map_eq_some_iff.mp h
    exact List.mem_map_of_mem (List.mem_of_getLast? hlast)

theorem chosenGroup_narrows (env : Environment K S) (mode : LoadBalancingMode)
    (dispatchable : List (CredentialEntry K)) (model : Option String) (nowMs : ℤ)
    (config : Config K) :
    Narrows (preferCatalogListed dispatchable model)
      (chosenGroup env mode dispatchable model nowMs config) := by
  unfold chosenGroup
  dsimp only
  refine (retainNonDegraded_narrows env.halfLife env.probe _ model nowMs config).trans
    ((retainTopFastTier_narrows _).trans (.trans ?_ (warmupGroup_narrows _ config)))
  split_ifs
  · exact retainPreferredPriorityTier_narrows _
  · exact .refl _

/-- Without suspensions the group is of the highest Fast tier, and in priority mode of the lowest
priority value in it. -/
theorem tier_of_mem_chosenGroup
    (hoff : config.credentialDegradeEnabled = false ∨ config.resumeScore ≤ 0)
    (hmem : entry ∈ chosenGroup env mode dispatchable model nowMs config) :
    (∀ other ∈ preferCatalogListed dispatchable model,
      other.credentials.fast ≤ entry.credentials.fast) ∧
    (mode = .priority → ∀ other ∈ preferCatalogListed dispatchable model,
      other.credentials.fast = entry.credentials.fast →
        entry.credentials.priority ≤ other.credentials.priority) := by
  have hpreferred := (chosenGroup_narrows env mode dispatchable model nowMs config).sublist.subset
    hmem
  unfold chosenGroup at hmem
  dsimp only at hmem
  rw [retainNonDegraded_of_off _ _ _ _ _ hoff] at hmem
  have htier := (warmupGroup_narrows _ config).sublist.subset hmem
  have htop : entry ∈ retainTopFastTier (preferCatalogListed dispatchable model) := by
    split_ifs at htier
    · exact (retainPreferredPriorityTier_narrows _).sublist.subset htier
    · exact htier
  have hfast := (mem_retainTopFastTier hpreferred).mp htop
  refine ⟨hfast, ?_⟩
  rintro rfl other hother heq
  have hfills : LoadBalancingMode.priority.fillsPriorityTiersInOrder = true := rfl
  rw [if_pos hfills] at htier
  exact le_of_mem_retainPreferredPriorityTier htier
    ((mem_retainTopFastTier hother).mpr fun another hanother =>
      (hfast another hanother).trans_eq heq.symm)

variable [LinearOrder S]

theorem map_fst_select (env : Environment K S) (hids : (candidates.map CredentialEntry.id).Nodup)
    (bound : ℕ) :
    (BoundedInsertion.select rank bound
      (candidates.map fun entry => (entry, candidateScore env candidates entry))).map Prod.fst =
    (candidates.insertionSort fun entry entry' =>
      candidateRank env candidates entry ≤ candidateRank env candidates entry').take bound := by
  have hnodup : ((candidates.map fun entry =>
      (entry, candidateScore env candidates entry)).map rank).Nodup := by
    refine List.Nodup.of_map (fun key => (ofLex key).2) ?_
    rw [List.map_map, List.map_map]
    exact hids
  have hsort := List.map_insertionSort (fun entry entry' =>
      candidateRank env candidates entry ≤ candidateRank env candidates entry')
    (fun scored scored' : CredentialEntry K × S => rank scored ≤ rank scored')
    (fun entry => (entry, candidateScore env candidates entry)) candidates
    fun _ _ _ _ => Iff.rfl
  rw [BoundedInsertion.select_eq_take hnodup, ← hsort, ← List.map_take, List.map_map]
  exact List.map_id _

theorem orderByMode_ne_none (hids : (candidates.map CredentialEntry.id).Nodup)
    (hne : candidates ≠ []) : orderByMode env mode candidates config boundSessions ≠ none := by
  have hlength : 0 < candidates.length := List.length_pos_iff.mpr hne
  unfold orderByMode
  split_ifs with hmode
  · intro hnone
    have hempty := congrArg (List.map Prod.fst) (roll_eq_none_iff.mp hnone)
    rw [map_fst_select env hids, List.map_nil] at hempty
    have hcount := congrArg List.length hempty
    rw [List.length_take, List.length_insertionSort, List.length_nil] at hcount
    omega
  · exact fun hnone => hne (List.argmin_eq_none.mp hnone)

theorem mem_of_orderByMode_scores (hids : (candidates.map CredentialEntry.id).Nodup)
    (hmode : mode.usesScores = true)
    (h : orderByMode env mode candidates config boundSessions = some entry) :
    entry ∈ (candidates.insertionSort fun entry entry' =>
      candidateRank env candidates entry ≤ candidateRank env candidates entry').take
        (min (max config.schedulerTopK 1) candidates.length) := by
  rw [orderByMode, if_pos hmode] at h
  rw [← map_fst_select env hids]
  exact mem_of_roll h

def boundSpreadKey (config : Config K) (boundSessions : List (ℕ × ℕ))
    (entry : CredentialEntry K) : SpreadKey :=
  spreadKey entry config.credentialMaxConcurrentRequests
    ((KeyedList.get entry.id boundSessions).getD 0)

theorem least_of_orderByMode (hids : (candidates.map CredentialEntry.id).Nodup)
    (hmode : mode.usesScores = false)
    (h : orderByMode env mode candidates config boundSessions = some entry) :
    entry ∈ candidates ∧ ∀ other ∈ candidates, other ≠ entry →
      boundSpreadKey config boundSessions entry < boundSpreadKey config boundSessions other := by
  rw [orderByMode, if_neg (by rw [hmode]; exact Bool.false_ne_true)] at h
  have hmem : entry ∈ candidates := List.argmin_mem h
  refine ⟨hmem, fun other hother hne => ?_⟩
  refine lt_of_le_of_ne (List.le_of_mem_argmin hother h) fun heq => hne ?_
  exact List.inj_on_of_nodup_map hids hother hmem (id_eq_of_spreadKey_eq heq).symm

theorem mem_of_orderByMode (hids : (candidates.map CredentialEntry.id).Nodup)
    (h : orderByMode env mode candidates config boundSessions = some entry) :
    entry ∈ candidates := by
  cases hmode : mode.usesScores with
  | false => exact (least_of_orderByMode hids hmode h).1
  | true =>
    exact (List.mem_insertionSort _).mp
      (List.mem_of_mem_take (mem_of_orderByMode_scores hids hmode h))

theorem selectCandidate_eq (env : Environment K S) (mode : LoadBalancingMode)
    (dispatchable : List (CredentialEntry K)) (model : Option String) (nowMs : ℤ)
    (config : Config K) (boundSessions : List (ℕ × ℕ)) :
    selectCandidate env mode dispatchable model nowMs config boundSessions =
      if (preferCatalogListed dispatchable model).isEmpty then none
      else orderByMode env mode (chosenGroup env mode dispatchable model nowMs config) config
        boundSessions := rfl

end Modes

end Filters

def credential (id fast : ℕ) : CredentialEntry ℚ where
  id := id
  credentials := ⟨0, fast, none, []⟩
  inFlightRequests := 0
  warmupRemaining := 0
  recentSelectionCount60s := 0
  selectionEvents := []
  degradeScores := []

def withoutDegrade (schedulerTopK : ℕ) : Config ℚ where
  credentialDegradeEnabled := false
  credentialDegradeSuspendScore := 6
  credentialDegradeResumeRatio := 1 / 2
  credentialDegradeHalfLifeSecs := 600
  credentialDegradeProbePercent := 0
  credentialWarmupSelectionPercent := 5
  credentialWarmupMaxSelectionPercent := 20
  credentialMaxConcurrentRequests := 4
  schedulerTopK := schedulerTopK

/-- Scores do not decay, and the first candidate uses up the roll. -/
def firstCandidate : Environment ℚ ℕ where
  halfLife _ := ⟨fun _ score => score, fun _ _ h => h, fun _ _ _ _ => le_rfl,
    fun _ _ _ _ _ => le_rfl⟩
  score _ _ := 0
  probe := 0
  stops _ _ := true

end KiroProxy.Selection
