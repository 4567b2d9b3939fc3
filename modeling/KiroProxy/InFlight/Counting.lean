import KiroProxy.InFlight.Entries
import KiroProxy.Transition

/-!
# The count of an entry

Acquisition, release, expiry, both ways to clear a credential and the states of Redis all change
the leases of an entry and its count beside them. The count stays the weight of the leases.
-/

namespace KiroProxy.InFlight

open Transition

def CredentialEntry.weight (entry : CredentialEntry) : ℕ :=
  (entry.inFlightLeases.map InFlightLease.weight).sum

def CredentialEntry.leaseIds (entry : CredentialEntry) : List ℕ :=
  entry.inFlightLeases.map InFlightLease.id

structure CredentialEntry.Accounted (entry : CredentialEntry) : Prop where
  count : entry.inFlightRequests = entry.weight
  nodup : entry.leaseIds.Nodup
  bound : entry.weight ≤ u32Max

section Entry

variable {entry entry' : CredentialEntry} {leaseId : ℕ} {time : SyncTime}
  {state : SchedulerCredentialState}

theorem CredentialEntry.weight_push (entry : CredentialEntry) (leaseId : ℕ) (now : Instant)
    {weightUnits : ℕ} (hweight : 1 ≤ weightUnits) :
    (entry.push leaseId now weightUnits).weight = entry.weight + weightUnits := by
  have hmax : max weightUnits 1 = weightUnits := Nat.max_eq_left hweight
  simp [CredentialEntry.weight, CredentialEntry.push, InFlightLease.weight, hmax]

theorem CredentialEntry.Accounted.push (h : entry.Accounted) (hfresh : leaseId ∉ entry.leaseIds)
    (now : Instant) {weightUnits : ℕ} (hweight : 1 ≤ weightUnits)
    (hbound : (entry.push leaseId now weightUnits).weight ≤ u32Max) :
    (entry.push leaseId now weightUnits).Accounted where
  count := by
    rw [entry.weight_push leaseId now hweight] at hbound ⊢
    rw [← h.count] at hbound ⊢
    exact saturatingAdd_of_le hbound
  nodup := by
    have hids : (entry.push leaseId now weightUnits).leaseIds = entry.leaseIds ++ [leaseId] := by
      simp [CredentialEntry.leaseIds, CredentialEntry.push]
    rw [hids, List.nodup_append_comm]
    exact h.nodup.cons hfresh
  bound := hbound

variable {lease : InFlightLease} {leases : List InFlightLease}

theorem sum_eraseP {p : InFlightLease → Bool} (h : leases.find? p = some lease) :
    ((leases.eraseP p).map InFlightLease.weight).sum + lease.weight =
      (leases.map InFlightLease.weight).sum := by
  induction leases with
  | nil => cases h
  | cons head leases ih =>
    cases hp : p head with
    | true =>
      rw [List.find?_cons_of_pos hp] at h
      cases h
      rw [List.eraseP_cons_of_pos hp, List.map_cons, List.sum_cons, Nat.add_comm]
    | false =>
      have hneg : ¬ p head = true := by simp [hp]
      rw [List.find?_cons_of_neg hneg] at h
      rw [List.eraseP_cons_of_neg hneg, List.map_cons, List.map_cons, List.sum_cons,
        List.sum_cons, Nat.add_assoc, ih h]

theorem CredentialEntry.weight_release {weight : ℕ}
    (hrelease : entry.release leaseId = some (weight, entry')) :
    entry'.weight + weight = entry.weight := by
  obtain ⟨lease, hfind, rfl, hleases, -⟩ := release_eq_some hrelease
  rw [CredentialEntry.weight, CredentialEntry.weight, hleases]
  exact sum_eraseP hfind

theorem CredentialEntry.Accounted.release (h : entry.Accounted) {weight : ℕ}
    (hrelease : entry.release leaseId = some (weight, entry')) : entry'.Accounted where
  count := by
    obtain ⟨-, -, -, -, hcount, -⟩ := release_eq_some hrelease
    rw [hcount, h.count, ← weight_release hrelease, Nat.add_sub_cancel]
  nodup := by
    obtain ⟨-, -, -, hleases, -⟩ := release_eq_some hrelease
    rw [leaseIds, hleases]
    exact h.nodup.sublist (List.eraseP_sublist.map InFlightLease.id)
  bound := by
    have hweight := weight_release hrelease
    have hbound := h.bound
    omega

theorem CredentialEntry.weight_retain (keep : InFlightLease → Bool) (entry : CredentialEntry) :
    (entry.retain keep).weight +
      ((entry.inFlightLeases.filter fun lease => !keep lease).map InFlightLease.weight).sum =
      entry.weight := by
  rw [weight, weight, retain, ← List.sum_append, ← List.map_append]
  exact ((List.filter_append_perm keep entry.inFlightLeases).map _).sum_eq

theorem CredentialEntry.Accounted.retain (h : entry.Accounted) (keep : InFlightLease → Bool) :
    (entry.retain keep).Accounted where
  count := by
    have hweight := entry.weight_retain keep
    have hbound := h.bound
    have hcount := h.count
    change ite (0 < List.length _) (entry.inFlightRequests - _) entry.inFlightRequests = _
    split_ifs with hremoved
    · rw [saturatingSum_eq]
      omega
    · rw [List.length_eq_zero_iff.mp (Nat.eq_zero_of_not_pos hremoved)] at hweight
      exact hcount.trans hweight.symm
  nodup := h.nodup.sublist (List.filter_sublist.map InFlightLease.id)
  bound := by
    have hweight := entry.weight_retain keep
    have hbound := h.bound
    omega

theorem mem_unseenLocalLeases {seen : List ℕ} (h : lease ∈ unseenLocalLeases seen leases) :
    lease.locallyOwned = true ∧ lease.id ∉ seen ∧ lease ∈ leases := by
  induction leases generalizing seen with
  | nil => cases h
  | cons head leases ih =>
    rw [unseenLocalLeases] at h
    split_ifs at h with hhead
    · rcases List.mem_cons.mp h with rfl | h
      · exact ⟨hhead.1, hhead.2, List.mem_cons_self⟩
      · obtain ⟨hown, hseen, hmem⟩ := ih h
        exact ⟨hown, fun h' => hseen (List.mem_cons_of_mem _ h'), List.mem_cons_of_mem _ hmem⟩
    · obtain ⟨hown, hseen, hmem⟩ := ih h
      exact ⟨hown, hseen, List.mem_cons_of_mem _ hmem⟩

theorem nodup_unseenLocalLeases (seen : List ℕ) (leases : List InFlightLease) :
    ((unseenLocalLeases seen leases).map InFlightLease.id).Nodup := by
  induction leases generalizing seen with
  | nil => exact List.nodup_nil
  | cons head leases ih =>
    rw [unseenLocalLeases]
    split_ifs with hhead
    · rw [List.map_cons, List.nodup_cons]
      refine ⟨fun hmem => ?_, ih _⟩
      obtain ⟨lease, hlease, hid⟩ := List.mem_map.mp hmem
      exact (mem_unseenLocalLeases hlease).2.1 (hid ▸ List.mem_cons_self)
    · exact ih seen

/-- A local lease is among the appended ones unless its id has been seen. -/
theorem exists_unseenLocalLeases {seen : List ℕ} (hmem : lease ∈ leases)
    (hown : lease.locallyOwned = true) (hseen : lease.id ∉ seen) :
    ∃ kept ∈ unseenLocalLeases seen leases, kept.id = lease.id := by
  induction leases generalizing seen with
  | nil => cases hmem
  | cons head leases ih =>
    rw [unseenLocalLeases]
    rcases List.mem_cons.mp hmem with rfl | hmem
    · rw [if_pos ⟨hown, hseen⟩]
      exact ⟨lease, List.mem_cons_self, rfl⟩
    · split_ifs with hhead
      · by_cases hid : lease.id = head.id
        · exact ⟨head, List.mem_cons_self, hid.symm⟩
        · obtain ⟨kept, hkept, hid'⟩ := ih hmem (List.not_mem_cons_of_ne_of_not_mem hid hseen)
          exact ⟨kept, List.mem_cons_of_mem _ hkept, hid'⟩
      · exact ih hmem hseen

theorem ids_mergedLeases (time : SyncTime) (previous : List InFlightLease)
    (leases : List SchedulerInFlightLease) :
    (leases.map (mergedLease time previous)).map InFlightLease.id =
      leases.map SchedulerInFlightLease.id := by
  rw [List.map_map]
  rfl

theorem nodup_mergedInFlightLeases (time : SyncTime) (previous : List InFlightLease)
    (hstate : (state.inFlightLeases.map SchedulerInFlightLease.id).Nodup) :
    ((mergedInFlightLeases time previous state).map InFlightLease.id).Nodup := by
  rw [mergedInFlightLeases, List.map_append, ids_mergedLeases]
  refine (hstate.sublist (List.filter_sublist.map _)).append (nodup_unseenLocalLeases _ _) ?_
  intro id hfresh hunseen
  obtain ⟨lease, hlease, rfl⟩ := List.mem_map.mp hunseen
  exact (mem_unseenLocalLeases hlease).2.1 hfresh

theorem CredentialEntry.accounted_applySchedulerStateToEntry
    (hstate : (state.inFlightLeases.map SchedulerInFlightLease.id).Nodup)
    (hbound : (applySchedulerStateToEntry time entry state).weight ≤ u32Max) :
    (applySchedulerStateToEntry time entry state).Accounted where
  count := by
    change saturatingSum _ = _
    rw [saturatingSum_eq]
    exact Nat.min_eq_left hbound
  nodup := nodup_mergedInFlightLeases time entry.inFlightLeases hstate
  bound := hbound

/-- Every lease of this process is still a lease of this process. -/
def CredentialEntry.OwnedKept (entry entry' : CredentialEntry) : Prop :=
  ∀ lease ∈ entry.inFlightLeases, lease.locallyOwned = true →
    ∃ kept ∈ entry'.inFlightLeases, kept.id = lease.id ∧ kept.locallyOwned = true

theorem CredentialEntry.ownedKept_applySchedulerStateToEntry (time : SyncTime)
    (entry : CredentialEntry) (state : SchedulerCredentialState) :
    entry.OwnedKept (applySchedulerStateToEntry time entry state) := by
  intro lease hlease hown
  change ∃ kept ∈ mergedInFlightLeases time entry.inFlightLeases state, _
  by_cases hseen : lease.id ∈ (freshLeases time state).map SchedulerInFlightLease.id
  · obtain ⟨redis, hredis, hid⟩ := List.mem_map.mp hseen
    refine ⟨mergedLease time entry.inFlightLeases redis,
      List.mem_append_left _ (List.mem_map_of_mem hredis), hid, ?_⟩
    change Option.isSome _ = true
    rw [List.find?_isSome]
    exact ⟨lease, hlease, by simp [hid, hown]⟩
  · obtain ⟨kept, hkept, hid⟩ := exists_unseenLocalLeases hlease hown hseen
    exact ⟨kept, List.mem_append_right _ hkept, hid, (mem_unseenLocalLeases hkept).1⟩

end Entry

structure InFlightLeaseGuard where
  credentialId : ℕ
  leaseId : ℕ
  released : Bool
  deriving DecidableEq, Repr

structure System where
  entries : Entries
  guards : List InFlightLeaseGuard
  lastLocalInFlightLeaseScanAt : Option Instant
  deriving DecidableEq, Repr

structure CredentialConfig where
  disabled : Bool
  maxConcurrentRequests : Option ℕ
  deriving DecidableEq, Repr

def CredentialEntry.new (config : CredentialConfig) : CredentialEntry where
  disabled := config.disabled
  maxConcurrentRequests := config.maxConcurrentRequests
  inFlightRequests := 0
  inFlightLeases := []
  redisFullUntil := none

def new (configs : List (ℕ × CredentialConfig)) : System where
  entries := configs.map fun config => (config.1, .new config.2)
  guards := []
  lastLocalInFlightLeaseScanAt := none

/-- A released guard is also a dropped one: `drop` releases. -/
inductive Action
  | acquireLocal (id leaseId : ℕ) (now checkedAt : Instant) (limits : Limits) (weight : ℕ)
  | acquireProvisional (id leaseId : ℕ) (now : Instant) (limits : Limits) (weight : ℕ)
  | release (guard : ℕ)
  | cleanupExpired (maxAge : Duration) (now : Instant)
  | clearLeases (credentialId : ℕ) (minIdle : Option Duration) (now : Instant)
  | clearSchedulerState (id : ℕ) (clearInFlight : Bool)
  | applyStates (time : SyncTime) (states : SchedulerStates)
  | applyStatesForIds (time : SyncTime) (states : SchedulerStates)
  deriving DecidableEq, Repr

/-- The guard of the request if it was admitted. -/
def System.prepared (s : System) (id leaseId : ℕ) : Option Entries → System
  | none => s
  | some entries => { s with
      entries := entries
      guards := s.guards ++ [{ credentialId := id, leaseId := leaseId, released := false }] }

def System.release (s : System) (i : ℕ) (guard : InFlightLeaseGuard) : System :=
  if guard.released then s
  else { s with
    guards := s.guards.set i { guard with released := true }
    entries := (releaseInFlightLeaseFromEntries s.entries guard.credentialId guard.leaseId).2 }

def step (s : System) : Action → Option System
  | .acquireLocal id leaseId now checkedAt limits weight =>
    some (s.prepared id leaseId
      (acquireLocalInFlightSlotWithId s.entries id leaseId now checkedAt limits weight))
  | .acquireProvisional id leaseId now limits weight =>
    some (s.prepared id leaseId
      (acquireProvisionalLocalInFlightSlotWithId s.entries id leaseId now limits weight))
  | .release i => s.guards[i]?.map (s.release i)
  | .cleanupExpired maxAge now =>
    let (_, nextScanAt, entries) := cleanupExpiredLocalInFlightLeases s.entries maxAge now
    some { s with entries := entries, lastLocalInFlightLeaseScanAt := some nextScanAt }
  | .clearLeases credentialId minIdle now =>
    some { s with entries := (clearInFlightLeases s.entries credentialId minIdle now).2 }
  | .clearSchedulerState id clearInFlight =>
    some { s with
      entries := clearSchedulerStateForCredentialLocal s.entries id clearInFlight }
  | .applyStates time states =>
    some { s with entries := applySchedulerStates time states s.entries }
  | .applyStatesForIds time states =>
    some { s with entries := applySchedulerStatesForIds time states s.entries }

variable {s t : System} {a : Action} {actions : List Action}

def Entries.Accounted (entries : Entries) : Prop := ∀ entry ∈ entries, entry.2.Accounted

theorem Entries.Accounted.insert {entries : Entries} (h : entries.Accounted) (id : ℕ)
    {entry : CredentialEntry} (hentry : entry.Accounted) :
    Entries.Accounted (KeyedList.insert id entry entries) := by
  intro entry' hentry'
  rcases KeyedList.mem_insert hentry' with rfl | hmem
  · exact hentry
  · exact h entry' hmem

def distinctIds (states : SchedulerStates) : Prop :=
  ∀ state ∈ states, (state.2.inFlightLeases.map SchedulerInFlightLease.id).Nodup

/-- A lease id is new to its credential, Redis lists no id twice for one credential and no
weights add up to `2 ^ 32`. -/
def Admitted (s : System) (a : Action) : Prop :=
  (match a with
    | .acquireLocal id leaseId _ _ _ _ | .acquireProvisional id leaseId _ _ _ =>
      ∀ entry ∈ KeyedList.get id s.entries, leaseId ∉ entry.leaseIds
    | .applyStates _ states | .applyStatesForIds _ states => distinctIds states
    | _ => True) ∧
    ∀ t ∈ step s a, ∀ entry ∈ t.entries, entry.2.weight < 2 ^ 32

instance (states : SchedulerStates) : Decidable (distinctIds states) := by
  unfold distinctIds
  infer_instance

instance (s : System) (a : Action) : Decidable (Admitted s a) := by
  unfold Admitted
  split <;> infer_instance

theorem accounted_prepared {id leaseId : ℕ} (now : Instant) {acquired : Option Entries}
    (hs : s.entries.Accounted)
    (hfresh : ∀ entry ∈ KeyedList.get id s.entries, leaseId ∉ entry.leaseIds)
    (hacquired : ∀ entries ∈ acquired, ∃ entry weightUnits,
      KeyedList.get id s.entries = some entry ∧ 1 ≤ weightUnits ∧
        KeyedList.insert id (entry.push leaseId now weightUnits) s.entries = entries)
    (hbound : ∀ entry ∈ (s.prepared id leaseId acquired).entries, entry.2.weight < 2 ^ 32) :
    (s.prepared id leaseId acquired).entries.Accounted := by
  cases acquired with
  | none => exact hs
  | some entries =>
    obtain ⟨entry, weightUnits, hget, hweight, rfl⟩ := hacquired entries rfl
    have hpushed := hbound (id, entry.push leaseId now weightUnits)
      (KeyedList.mem_of_get (KeyedList.get_insert_self _ _ _))
    exact hs.insert id ((hs _ (KeyedList.mem_of_get hget)).push (hfresh entry hget) now hweight
      (Nat.le_pred_of_lt hpushed))

theorem step_accounted (ha : Admitted s a) (hs : s.entries.Accounted)
    (hstep : step s a = some t) : t.entries.Accounted := by
  obtain ⟨ha, hbound⟩ := ha
  replace hbound := hbound t hstep
  cases a with
  | acquireLocal id leaseId now checkedAt limits weight =>
    cases hstep
    refine accounted_prepared now hs ha (fun entries hentries => ?_) hbound
    obtain ⟨entry, hget, -, -, -, hinsert⟩ :=
      acquireLocalInFlightSlotWithId_eq_some.mp hentries
    exact ⟨entry, _, hget, one_le_effectiveWeightForLimit _ _, hinsert⟩
  | acquireProvisional id leaseId now limits weight =>
    cases hstep
    refine accounted_prepared now hs ha (fun entries hentries => ?_) hbound
    obtain ⟨entry, hget, -, -, -, hinsert⟩ :=
      acquireProvisionalLocalInFlightSlotWithId_eq_some.mp hentries
    exact ⟨entry, _, hget, one_le_effectiveWeightForLimit _ _, hinsert⟩
  | release i =>
    obtain ⟨guard, -, rfl⟩ := Option.map_eq_some_iff.mp hstep
    rw [System.release]
    split_ifs
    · exact hs
    · change Entries.Accounted (releaseInFlightLeaseFromEntries _ _ _).2
      rw [releaseInFlightLeaseFromEntries]
      split
      · exact hs
      · rename_i weightUnits entry' hrelease
        obtain ⟨entry, hget, hrelease⟩ := Option.bind_eq_some_iff.mp hrelease
        exact hs.insert _ ((hs _ (KeyedList.mem_of_get hget)).release hrelease)
  | cleanupExpired maxAge now =>
    cases hstep
    intro entry hentry
    obtain ⟨entry, hmem, rfl⟩ := List.mem_map.mp hentry
    exact (hs entry hmem).retain _
  | clearLeases credentialId minIdle now =>
    cases hstep
    change Entries.Accounted (clearInFlightLeases _ _ _ _).2
    rw [clearInFlightLeases]
    split
    · exact hs
    · rename_i entry hget
      exact hs.insert _ ((hs _ (KeyedList.mem_of_get hget)).retain _)
  | clearSchedulerState id clearInFlight =>
    cases hstep
    change Entries.Accounted (clearSchedulerStateForCredentialLocal _ _ _)
    rw [clearSchedulerStateForCredentialLocal]
    split
    · exact hs
    · split_ifs
      · exact hs.insert _ ⟨rfl, List.nodup_nil, Nat.zero_le _⟩
      · exact hs
  | applyStates time states =>
    cases hstep
    intro entry hentry
    have hweight := hbound entry hentry
    obtain ⟨entry, hmem, rfl⟩ := List.mem_map.mp hentry
    refine CredentialEntry.accounted_applySchedulerStateToEntry ?_ (Nat.le_pred_of_lt hweight)
    cases hget : KeyedList.get entry.1 states with
    | none => exact List.nodup_nil
    | some state => exact ha _ (KeyedList.mem_of_get hget)
  | applyStatesForIds time states =>
    cases hstep
    intro entry hentry
    have hweight := hbound entry hentry
    obtain ⟨entry, hmem, rfl⟩ := List.mem_map.mp hentry
    cases hget : KeyedList.get entry.1 states with
    | none => exact hs entry hmem
    | some state =>
      simp only [hget] at hweight
      exact CredentialEntry.accounted_applySchedulerStateToEntry
        (ha _ (KeyedList.mem_of_get hget)) (Nat.le_pred_of_lt hweight)

theorem accounted_new (configs : List (ℕ × CredentialConfig)) :
    (new configs).entries.Accounted := by
  intro entry hentry
  obtain ⟨config, -, rfl⟩ := List.mem_map.mp hentry
  exact ⟨rfl, List.nodup_nil, Nat.zero_le _⟩

theorem run_new_accounted {configs : List (ℕ × CredentialConfig)}
    (hadmitted : Along step Admitted (new configs) actions)
    (h : run step (new configs) actions = some t) : t.entries.Accounted :=
  run_invariant_along (fun _ _ _ ha hs hstep => step_accounted ha hs hstep) hadmitted
    (accounted_new configs) h

theorem step_guards (hstep : step s a = some t) :
    (∃ added, (∀ guard ∈ added, guard.released = false) ∧ t.guards = s.guards ++ added ∧
        ∀ i, a ≠ .release i) ∨
      ∃ i guard, a = .release i ∧ s.guards[i]? = some guard ∧
        t.guards = s.guards.set i { guard with released := true } := by
  have hprepared (id leaseId : ℕ) (acquired : Option Entries) :
      ∃ added, (∀ guard ∈ added, guard.released = false) ∧
        (s.prepared id leaseId acquired).guards = s.guards ++ added := by
    cases acquired with
    | none => exact ⟨[], by simp, (List.append_nil _).symm⟩
    | some entries => exact ⟨_, by simp, rfl⟩
  cases a with
  | acquireLocal id leaseId now checkedAt limits weight =>
    cases hstep
    obtain ⟨added, hadded, heq⟩ := hprepared id leaseId _
    exact .inl ⟨added, hadded, heq, by simp⟩
  | acquireProvisional id leaseId now limits weight =>
    cases hstep
    obtain ⟨added, hadded, heq⟩ := hprepared id leaseId _
    exact .inl ⟨added, hadded, heq, by simp⟩
  | release i =>
    obtain ⟨guard, hguard, rfl⟩ := Option.map_eq_some_iff.mp hstep
    refine .inr ⟨i, guard, rfl, hguard, ?_⟩
    rw [System.release]
    split_ifs with hreleased
    · obtain ⟨hi, hget⟩ := List.getElem?_eq_some_iff.mp hguard
      rw [← hreleased, ← hget, List.set_getElem_self]
    · rfl
  | cleanupExpired | clearLeases | clearSchedulerState | applyStates | applyStatesForIds =>
    cases hstep
    exact .inl ⟨[], by simp, (List.append_nil _).symm, by simp⟩

def System.hasReleased (s : System) (i : ℕ) : Prop :=
  ∃ guard, s.guards[i]? = some guard ∧ guard.released = true

theorem step_hasReleased_iff (hstep : step s a = some t) (i : ℕ) :
    t.hasReleased i ↔ s.hasReleased i ∨ a = .release i := by
  rw [System.hasReleased, System.hasReleased]
  rcases step_guards hstep with ⟨added, hadded, hguards, hne⟩ | ⟨j, guard, rfl, hguard, hguards⟩
  · rw [hguards]
    constructor
    · rintro ⟨guard, hget, hreleased⟩
      rcases Nat.lt_or_ge i s.guards.length with hlt | hge
      · rw [List.getElem?_append_left hlt] at hget
        exact .inl ⟨guard, hget, hreleased⟩
      · rw [List.getElem?_append_right hge] at hget
        have hfalse := hadded guard (List.mem_of_getElem? hget)
        rw [hreleased] at hfalse
        cases hfalse
    · rintro (⟨guard, hget, hreleased⟩ | heq)
      · obtain ⟨hlt, -⟩ := List.getElem?_eq_some_iff.mp hget
        exact ⟨guard, (List.getElem?_append_left hlt).trans hget, hreleased⟩
      · exact absurd heq (hne i)
  · obtain ⟨hlt, -⟩ := List.getElem?_eq_some_iff.mp hguard
    rw [hguards]
    by_cases hij : i = j
    · subst hij
      exact ⟨fun _ => .inr rfl, fun _ => ⟨_, List.getElem?_set_self hlt, rfl⟩⟩
    · rw [List.getElem?_set_ne fun h => hij h.symm]
      exact ⟨.inl, fun h => h.resolve_right fun heq => hij (Action.release.inj heq).symm⟩

theorem run_hasReleased_iff (h : run step s actions = some t) (i : ℕ) :
    t.hasReleased i ↔ s.hasReleased i ∨ .release i ∈ actions := by
  induction actions generalizing s with
  | nil =>
    cases h
    simp
  | cons a actions ih =>
    obtain ⟨s', hstep, hrun⟩ := run_cons_eq_some.mp h
    rw [ih hrun, step_hasReleased_iff hstep, List.mem_cons, or_assoc, eq_comm]

def System.inFlightRequests (s : System) (id : ℕ) : ℕ :=
  ((KeyedList.get id s.entries).map CredentialEntry.inFlightRequests).getD 0

def System.recordedWeight (s : System) (guard : InFlightLeaseGuard) : ℕ :=
  (((KeyedList.get guard.credentialId s.entries).bind fun entry =>
    entry.inFlightLeases.find? (·.id == guard.leaseId)).map InFlightLease.weight).getD 0

theorem release_inFlightRequests (hs : s.entries.Accounted) (guard : InFlightLeaseGuard)
    {entries : Entries}
    (h : (releaseInFlightLeaseFromEntries s.entries guard.credentialId guard.leaseId).2 =
      entries) (id : ℕ) :
    { s with entries := entries : System }.inFlightRequests id +
        (if id = guard.credentialId then s.recordedWeight guard else 0) =
      s.inFlightRequests id := by
  rw [releaseInFlightLeaseFromEntries] at h
  cases hget : KeyedList.get guard.credentialId s.entries with
  | none =>
    have hweight : s.recordedWeight guard = 0 := by simp [System.recordedWeight, hget]
    rw [hget] at h
    rw [hweight, ite_self, ← h]
    rfl
  | some entry =>
    rw [hget, Option.bind_some] at h
    cases hrelease : entry.release guard.leaseId with
    | none =>
      have hfind := Option.map_eq_none_iff.mp hrelease
      have hweight : s.recordedWeight guard = 0 := by
        simp only [System.recordedWeight, hget, Option.bind_some, hfind]
        rfl
      rw [hrelease] at h
      rw [hweight, ite_self, ← h]
      rfl
    | some result =>
      obtain ⟨weight, entry'⟩ := result
      obtain ⟨lease, hfind, hlease, -, hcount, -⟩ := CredentialEntry.release_eq_some hrelease
      have hbefore : entry.inFlightRequests = entry.weight :=
        (hs _ (KeyedList.mem_of_get hget)).count
      have hafter := CredentialEntry.weight_release hrelease
      rw [hrelease] at h
      subst h
      split_ifs with hid
      · subst hid
        simp only [System.inFlightRequests, System.recordedWeight, KeyedList.get_insert_self,
          hget, Option.bind_some, hfind, Option.map_some, Option.getD_some, hlease, hcount]
        omega
      · simp only [System.inFlightRequests, KeyedList.get_insert_of_ne hid, Nat.add_zero]

/-- Over every run the counts are the weights of the leases, a guard releases the weight that is
still recorded for its lease and only once, and Redis takes no lease from this process. -/
theorem run_new_counts (configs : List (ℕ × CredentialConfig)) (actions : List Action)
    (hadmitted : Along step Admitted (new configs) actions)
    (h : run step (new configs) actions = some t) :
    (∀ entry ∈ t.entries,
      entry.2.inFlightRequests = entry.2.weight ∧ entry.2.leaseIds.Nodup) ∧
    (∀ i guard t', t.guards[i]? = some guard → step t (.release i) = some t' →
      (.release i ∉ actions → ∀ id, t'.inFlightRequests id +
        (if id = guard.credentialId then t.recordedWeight guard else 0) =
          t.inFlightRequests id) ∧
      (.release i ∈ actions → t' = t)) ∧
    ∀ time states, ∀ a ∈ [Action.applyStates time states, .applyStatesForIds time states],
      ∀ t', step t a = some t' → ∀ id entry, KeyedList.get id t.entries = some entry →
        ∃ entry', KeyedList.get id t'.entries = some entry' ∧ entry.OwnedKept entry' := by
  have haccounted := run_new_accounted hadmitted h
  refine ⟨fun entry hentry => ⟨(haccounted entry hentry).count, (haccounted entry hentry).nodup⟩,
    ?_, ?_⟩
  · intro i guard t' hguard hstep
    have hreleased : guard.released = true ↔ .release i ∈ actions := by
      have hiff := run_hasReleased_iff h i
      simpa [System.hasReleased, hguard, new] using hiff
    have hrelease : t.release i guard = t' := by simpa [step, hguard] using hstep
    rw [System.release] at hrelease
    constructor
    · intro hnotin id
      rw [if_neg fun hflag => hnotin (hreleased.mp hflag)] at hrelease
      rw [← release_inFlightRequests haccounted guard rfl id, ← hrelease]
      rfl
    · intro hin
      rw [if_pos (hreleased.mpr hin)] at hrelease
      exact hrelease.symm
  · intro time states a ha t' hstep id entry hget
    simp only [List.mem_cons, List.not_mem_nil, or_false] at ha
    rcases ha with rfl | rfl
    · cases hstep
      refine ⟨_, ?_, CredentialEntry.ownedKept_applySchedulerStateToEntry time entry
        ((KeyedList.get id states).getD {})⟩
      exact (KeyedList.get_mapWithKey (fun id entry => applySchedulerStateToEntry time entry
        ((KeyedList.get id states).getD {})) id t.entries).trans (congrArg _ hget)
    · cases hstep
      have happlied : applySchedulerStatesForIds time states t.entries =
          t.entries.map fun entry => (entry.1, (KeyedList.get entry.1 states).elim entry.2
            (applySchedulerStateToEntry time entry.2)) := by
        refine List.map_congr_left fun entry _ => ?_
        cases KeyedList.get entry.1 states <;> rfl
      refine ⟨_, (congrArg (KeyedList.get id) happlied).trans
        ((KeyedList.get_mapWithKey (fun id entry => (KeyedList.get id states).elim entry
          (applySchedulerStateToEntry time entry)) id t.entries).trans (congrArg _ hget)), ?_⟩
      cases KeyedList.get id states with
      | none => exact fun lease hlease hown => ⟨lease, hlease, rfl, hown⟩
      | some state => exact CredentialEntry.ownedKept_applySchedulerStateToEntry time entry state

/-- A state of Redis that knows one of the two leases and one of another process. -/
def mergedStateRun : List Action :=
  [.acquireProvisional 1 8 9 ⟨30, 512⟩ 2, .acquireProvisional 1 7 9 ⟨30, 512⟩ 2,
    .applyStates ⟨none, 4, 9⟩
      [(1, ⟨[⟨8, 5, 5, "api".toList, 2⟩, ⟨9, 3, 4, "stream".toList, 0⟩]⟩)],
    .release 1]

theorem run_new_counts_mergedState :
    ∃ t, run step (new [(1, ⟨false, some 4⟩)]) mergedStateRun = some t ∧
      t.inFlightRequests 1 = 3 ∧
      ∀ entry ∈ t.entries,
        entry.2.inFlightRequests = entry.2.weight ∧ entry.2.leaseIds.Nodup :=
  ⟨_, rfl, rfl, (run_new_counts [(1, ⟨false, some 4⟩)] mergedStateRun (by decide) rfl).1⟩

/-- A cleared lease is released a second time without a change of the count. -/
theorem cleared_release_changes_nothing :
    let acquire := Action.acquireLocal 1 7 0 0 ⟨30, 512⟩ 3
    Along step Admitted (new [(1, ⟨false, none⟩)])
        [acquire, .clearLeases 1 none 0, .release 0] ∧
      ((run step (new [(1, ⟨false, none⟩)]) [acquire]).map fun s =>
        s.entries.map fun entry => entry.2.inFlightLeases.map InFlightLease.weight) =
          some [[3]] ∧
      ((run step (new [(1, ⟨false, none⟩)]) [acquire, .clearLeases 1 none 0]).map
        (·.inFlightRequests 1)) = some 0 ∧
      ((run step (new [(1, ⟨false, none⟩)]) [acquire, .clearLeases 1 none 0, .release 0]).map
        (·.inFlightRequests 1)) = some 0 := by
  decide

end KiroProxy.InFlight
