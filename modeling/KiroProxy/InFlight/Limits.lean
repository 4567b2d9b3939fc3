import KiroProxy.InFlight.Counting

/-!
# Limits of a process without Redis

The weight of a request is reduced to the default limit and to the global one, and this weight
is recorded. The capacity of the credential is checked with the weight reduced once more, to the
limit of the credential. Before Redis is asked, the weight is reduced to the limit of the
credential at once.
-/

namespace KiroProxy.InFlight

open Transition

variable {s t : System} {a : Action} {actions : List Action} {limits : Limits}

def Limits.ofCredential (limits : Limits) (entry : CredentialEntry) : ℕ :=
  effectiveMaxConcurrentRequests entry limits.maxConcurrentRequests

/-- Acquisitions of a process without Redis under fixed limits, and releases. -/
def Action.IsLocal (limits : Limits) : Action → Prop
  | .acquireLocal _ _ _ _ limits' _ => limits' = limits
  | .release _ => True
  | _ => False

instance (limits : Limits) : (a : Action) → Decidable (a.IsLocal limits)
  | .acquireLocal _ _ _ _ limits' _ => decEq limits' limits
  | .release _ => .isTrue trivial
  | .acquireProvisional .. | .cleanupExpired .. | .clearLeases .. | .clearSchedulerState ..
  | .applyStates .. | .applyStatesForIds .. => .isFalse id

def Entries.total (entries : Entries) : ℕ :=
  (entries.map fun entry => entry.2.inFlightRequests).sum

structure System.Within (limits : Limits) (s : System) : Prop where
  credential : ∀ entry ∈ s.entries, 0 < limits.ofCredential entry.2 →
    entry.2.inFlightRequests ≤ limits.ofCredential entry.2
  global : 0 < limits.globalMaxConcurrentRequests →
    s.entries.total ≤ limits.globalMaxConcurrentRequests

theorem normalize_effectiveWeightForLimit (requestWeightUnits limit : ℕ) :
    normalizeCapacityWeightUnits (effectiveWeightForLimit requestWeightUnits limit) =
      effectiveWeightForLimit requestWeightUnits limit := by
  rw [effectiveWeightForLimit, normalizeCapacityWeightUnits, normalizeCapacityWeightUnits]
  split_ifs with h
  · omega
  · omega

theorem effectiveWeightForLimit_le_64 (requestWeightUnits limit : ℕ) :
    effectiveWeightForLimit requestWeightUnits limit ≤ 64 := by
  rw [effectiveWeightForLimit, normalizeCapacityWeightUnits]
  split_ifs with h
  · omega
  · omega

theorem effectiveWeightForLimit_effectiveWeightForLimit {limit : ℕ} (h : 0 < limit)
    (requestWeightUnits limit' : ℕ) :
    effectiveWeightForLimit (effectiveWeightForLimit requestWeightUnits limit') limit =
      min (effectiveWeightForLimit requestWeightUnits limit') limit := by
  rw [effectiveWeightForLimit.eq_1 (effectiveWeightForLimit _ _), if_pos h,
    normalize_effectiveWeightForLimit]

theorem provisionalWeight_le (limits : Limits) (entry : CredentialEntry) (weight : ℕ)
    (h : 0 < limits.ofCredential entry) :
    limits.provisionalWeight entry weight ≤ limits.ofCredential entry := by
  have hle := effectiveWeightForLimit_le h weight
  rw [Limits.provisionalWeight, effectiveWeightForLimit, normalize_effectiveWeightForLimit]
  split_ifs
  · exact Nat.le_trans (Nat.min_le_left _ _) hle
  · exact hle

theorem local_step_cases (ha : a.IsLocal limits) (hstep : step s a = some t) :
    t.entries = s.entries ∨
      (∃ id leaseId now checkedAt weight entry,
        a = .acquireLocal id leaseId now checkedAt limits weight ∧
        KeyedList.get id s.entries = some entry ∧ entry.disabled = false ∧
        ¬ (0 < limits.globalMaxConcurrentRequests ∧ limits.globalMaxConcurrentRequests <
          saturatingAdd s.entries.inFlightRequests (limits.localWeight weight)) ∧
        entryHasConcurrencyCapacity entry checkedAt limits.maxConcurrentRequests
          (limits.localWeight weight) = true ∧
        t.entries =
          KeyedList.insert id (entry.push leaseId now (limits.localWeight weight)) s.entries) ∨
      ∃ id leaseId entry weight entry', KeyedList.get id s.entries = some entry ∧
        entry.release leaseId = some (weight, entry') ∧
        t.entries = KeyedList.insert id entry' s.entries := by
  cases a with
  | acquireLocal id leaseId now checkedAt limits' weight =>
    cases ha
    cases hstep
    cases hacquired : acquireLocalInFlightSlotWithId s.entries id leaseId now checkedAt limits
      weight with
    | none => exact .inl rfl
    | some entries =>
      obtain ⟨entry, hget, hdisabled, hglobal, hcapacity, rfl⟩ :=
        acquireLocalInFlightSlotWithId_eq_some.mp hacquired
      exact .inr (.inl ⟨id, leaseId, now, checkedAt, weight, entry, rfl, hget, hdisabled,
        hglobal, hcapacity, rfl⟩)
  | release i =>
    obtain ⟨guard, -, rfl⟩ := Option.map_eq_some_iff.mp hstep
    rw [System.release]
    split_ifs
    · exact .inl rfl
    · rw [releaseInFlightLeaseFromEntries]
      split
      · exact .inl rfl
      · rename_i weight entry' hrelease
        obtain ⟨entry, hget, hrelease⟩ := Option.bind_eq_some_iff.mp hrelease
        exact .inr (.inr ⟨_, _, entry, weight, entry', hget, hrelease, rfl⟩)
  | acquireProvisional | cleanupExpired | clearLeases | clearSchedulerState | applyStates |
      applyStatesForIds => exact ha.elim

variable {id : ℕ} {entry : CredentialEntry}

theorem Entries.total_insert {entries : Entries} (h : KeyedList.get id entries = some entry)
    (entry' : CredentialEntry) :
    Entries.total (KeyedList.insert id entry' entries) + entry.inFlightRequests =
      entries.total + entry'.inFlightRequests :=
  KeyedList.sum_insert_of_get CredentialEntry.inFlightRequests h entry'

theorem Entries.le_total {entries : Entries} (h : KeyedList.get id entries = some entry) :
    entry.inFlightRequests ≤ entries.total :=
  List.single_le_sum (by simp) _ (List.mem_map.mpr ⟨_, KeyedList.mem_of_get h, rfl⟩)

/-- A limit that is set and that no saturated count can meet. -/
def Bounds (limit : ℕ) : Prop := 0 < limit ∧ limit < u32Max

structure CredentialEntry.Tallied (limits : Limits) (entry : CredentialEntry) : Prop where
  owned : ∀ lease ∈ entry.inFlightLeases, lease.locallyOwned = true ∧ 1 ≤ lease.weightUnits
  hint : entry.redisFullUntil = none
  count_le : entry.inFlightRequests ≤ u32Max
  count : Bounds (limits.ofCredential entry) ∨ Bounds limits.globalMaxConcurrentRequests →
    entry.inFlightRequests = entry.weight

structure System.Tallied (limits : Limits) (s : System) : Prop where
  entry : ∀ entry ∈ s.entries, entry.2.Tallied limits
  total : Bounds limits.globalMaxConcurrentRequests →
    s.entries.total ≤ limits.globalMaxConcurrentRequests

theorem hasCapacity_iff (hhint : entry.redisFullUntil = none) (checkedAt : Instant)
    (limits : Limits) (weight : ℕ) :
    entryHasConcurrencyCapacity entry checkedAt limits.maxConcurrentRequests
        (limits.localWeight weight) = true ↔
      (0 < limits.ofCredential entry →
        saturatingAdd entry.inFlightRequests
          (min (limits.localWeight weight) (limits.ofCredential entry)) ≤
            limits.ofCredential entry) := by
  have hinactive : entryRedisFullHintActive entry checkedAt = false := by
    rw [entryRedisFullHintActive, hhint]
    rfl
  rw [entryHasConcurrencyCapacity, if_neg (by simp [hinactive])]
  change (decide (limits.ofCredential entry = 0) || decide (saturatingAdd entry.inFlightRequests
    (effectiveWeightForLimit (limits.localWeight weight) (limits.ofCredential entry)) ≤
      limits.ofCredential entry)) = true ↔ _
  rw [Bool.or_eq_true, decide_eq_true_iff, decide_eq_true_iff]
  rcases Nat.eq_zero_or_pos (limits.ofCredential entry) with hzero | hpos
  · simp [hzero]
  · rw [Limits.localWeight, effectiveWeightForLimit_effectiveWeightForLimit hpos]
    have hne : limits.ofCredential entry ≠ 0 := Nat.ne_of_gt hpos
    simp [hpos, hne]

theorem tallied_insert {entry' : CredentialEntry} (hs : s.Tallied limits)
    (hentries : t.entries = KeyedList.insert id entry' s.entries) (hentry : entry'.Tallied limits)
    (htotal : Bounds limits.globalMaxConcurrentRequests →
      t.entries.total ≤ limits.globalMaxConcurrentRequests) : t.Tallied limits where
  entry := by
    intro entry hmem
    rw [hentries] at hmem
    rcases KeyedList.mem_insert hmem with rfl | hmem
    · exact hentry
    · exact hs.entry entry hmem
  total := htotal

theorem step_tallied (ha : a.IsLocal limits) (hs : s.Tallied limits)
    (hstep : step s a = some t) : t.Tallied limits := by
  have hmax : u32Max = 4294967295 := rfl
  rcases local_step_cases ha hstep with hentries | ⟨id, leaseId, now, checkedAt, weight, entry,
    rfl, hget, -, hglobal, hcapacity, hentries⟩ | ⟨id, leaseId, entry, weight, entry', hget,
    hrelease, hentries⟩
  · exact ⟨hentries ▸ hs.entry, hentries ▸ hs.total⟩
  · have hentry : entry.Tallied limits := hs.entry _ (KeyedList.mem_of_get hget)
    have hcapacity := (hasCapacity_iff hentry.hint checkedAt limits weight).mp hcapacity
    have hweight : 1 ≤ limits.localWeight weight := one_le_effectiveWeightForLimit _ _
    have hweight' : limits.localWeight weight ≤ 64 := effectiveWeightForLimit_le_64 _ _
    have hle := Entries.le_total hget
    have hroom (h : Bounds limits.globalMaxConcurrentRequests) :
        s.entries.total + limits.localWeight weight ≤ limits.globalMaxConcurrentRequests := by
      have htotal := hs.total h
      obtain ⟨hpos, hlt⟩ := h
      have hmod : s.entries.inFlightRequests = s.entries.total :=
        Nat.mod_eq_of_lt (show s.entries.total < 2 ^ 32 by omega)
      rw [hmod, saturatingAdd] at hglobal
      omega
    have hexact (h : Bounds (limits.ofCredential entry) ∨
        Bounds limits.globalMaxConcurrentRequests) :
        entry.inFlightRequests + limits.localWeight weight ≤ u32Max := by
      rcases h with ⟨hpos, hlt⟩ | h
      · have hcapacity := hcapacity hpos
        rw [saturatingAdd] at hcapacity
        omega
      · have hroom := hroom h
        obtain ⟨-, hlt⟩ := h
        omega
    refine tallied_insert hs hentries ⟨?_, hentry.hint, Nat.min_le_right _ _, fun h => ?_⟩
      fun h => ?_
    · intro lease hlease
      rcases List.mem_append.mp hlease with hlease | hlease
      · exact hentry.owned lease hlease
      · cases List.mem_singleton.mp hlease
        exact ⟨rfl, hweight⟩
    · change saturatingAdd _ _ = _
      rw [entry.weight_push leaseId now hweight, ← hentry.count h,
        saturatingAdd_of_le (hexact h)]
    · have htotal := Entries.total_insert hget (entry.push leaseId now (limits.localWeight weight))
      have hpush : (entry.push leaseId now (limits.localWeight weight)).inFlightRequests =
          entry.inFlightRequests + limits.localWeight weight :=
        saturatingAdd_of_le (hexact (.inr h))
      have hroom := hroom h
      rw [hentries]
      omega
  · have hentry : entry.Tallied limits := hs.entry _ (KeyedList.mem_of_get hget)
    obtain ⟨lease, -, -, hleases, hcount, -, hlimit, hhint⟩ :=
      CredentialEntry.release_eq_some hrelease
    have hweight := CredentialEntry.weight_release hrelease
    have hof : limits.ofCredential entry' = limits.ofCredential entry := by
      rw [Limits.ofCredential, effectiveMaxConcurrentRequests, hlimit]
      rfl
    have hle := hentry.count_le
    refine tallied_insert hs hentries ⟨?_, hhint, by omega, fun h => ?_⟩ fun h => ?_
    · intro lease hlease
      rw [hleases] at hlease
      exact hentry.owned lease (List.mem_of_mem_eraseP hlease)
    · rw [hof] at h
      have hcount' := hentry.count h
      omega
    · have htotal := Entries.total_insert hget entry'
      have hbefore := hs.total h
      rw [hentries]
      omega

theorem total_new (configs : List (ℕ × CredentialConfig)) : (new configs).entries.total = 0 := by
  rw [Entries.total, new, List.map_map]
  refine List.sum_eq_zero fun count hcount => ?_
  obtain ⟨config, -, rfl⟩ := List.mem_map.mp hcount
  rfl

theorem tallied_new (limits : Limits) (configs : List (ℕ × CredentialConfig)) :
    (new configs).Tallied limits where
  entry := by
    intro entry hentry
    obtain ⟨config, -, rfl⟩ := List.mem_map.mp hentry
    exact ⟨by simp [CredentialEntry.new], rfl, Nat.zero_le _, fun _ => rfl⟩
  total _ := by simp [total_new]

theorem run_new_tallied {configs : List (ℕ × CredentialConfig)}
    (hlocal : ∀ a ∈ actions, a.IsLocal limits) (h : run step (new configs) actions = some t) :
    t.Tallied limits :=
  run_invariant (Action.IsLocal limits) (fun _ _ _ ha hs hstep => step_tallied ha hs hstep)
    hlocal (tallied_new limits configs) h

/-- A request that starts on an idle credential weighs no more than the credential may carry. -/
def OverrideFits (limits : Limits) (s : System) : Action → Prop
  | .acquireLocal id _ _ _ _ weight =>
    ∀ entry ∈ KeyedList.get id s.entries, entry.disabled = false →
      ¬ (0 < limits.globalMaxConcurrentRequests ∧ limits.globalMaxConcurrentRequests <
        saturatingAdd s.entries.inFlightRequests (limits.localWeight weight)) →
      entry.inFlightRequests = 0 → 0 < limits.ofCredential entry →
      limits.localWeight weight ≤ limits.ofCredential entry
  | _ => True

/-- Under a global limit that a saturated sum can meet, the sum is not saturated. -/
def SumFits (limits : Limits) (s : System) : Action → Prop
  | .acquireLocal id _ _ checkedAt _ weight =>
    ∀ entry ∈ KeyedList.get id s.entries, entry.disabled = false →
      entryHasConcurrencyCapacity entry checkedAt limits.maxConcurrentRequests
        (limits.localWeight weight) = true →
      u32Max ≤ limits.globalMaxConcurrentRequests →
      s.entries.total + limits.localWeight weight ≤ u32Max
  | _ => True

instance (limits : Limits) (s : System) : (a : Action) → Decidable (OverrideFits limits s a)
  | .acquireLocal .. => by unfold OverrideFits; infer_instance
  | .acquireProvisional .. | .release _ | .cleanupExpired .. | .clearLeases ..
  | .clearSchedulerState .. | .applyStates .. | .applyStatesForIds .. => .isTrue trivial

instance (limits : Limits) (s : System) : (a : Action) → Decidable (SumFits limits s a)
  | .acquireLocal .. => by unfold SumFits; infer_instance
  | .acquireProvisional .. | .release _ | .cleanupExpired .. | .clearLeases ..
  | .clearSchedulerState .. | .applyStates .. | .applyStatesForIds .. => .isTrue trivial

/-- An acquisition keeps the limits unless it starts an idle credential above its own. -/
theorem acquired_within_iff {id leaseId : ℕ} {now checkedAt : Instant} {weight : ℕ}
    (hs : s.Tallied limits) (hwithin : s.Within limits)
    (hsum : SumFits limits s (.acquireLocal id leaseId now checkedAt limits weight))
    (hget : KeyedList.get id s.entries = some entry) (hdisabled : entry.disabled = false)
    (hglobal : ¬ (0 < limits.globalMaxConcurrentRequests ∧ limits.globalMaxConcurrentRequests <
      saturatingAdd s.entries.inFlightRequests (limits.localWeight weight)))
    (hcapacity : entryHasConcurrencyCapacity entry checkedAt limits.maxConcurrentRequests
      (limits.localWeight weight) = true) (hentries : t.entries =
      KeyedList.insert id (entry.push leaseId now (limits.localWeight weight)) s.entries) :
    t.Within limits ↔
      (entry.inFlightRequests = 0 → 0 < limits.ofCredential entry →
        limits.localWeight weight ≤ limits.ofCredential entry) := by
  have hmax : u32Max = 4294967295 := rfl
  have hentry : entry.Tallied limits := hs.entry _ (KeyedList.mem_of_get hget)
  have hsum := hsum entry hget hdisabled hcapacity
  have hcapacity := (hasCapacity_iff hentry.hint checkedAt limits weight).mp hcapacity
  have hweight : limits.localWeight weight ≤ 64 := effectiveWeightForLimit_le_64 _ _
  have hpush : (entry.push leaseId now (limits.localWeight weight)).inFlightRequests =
      min (entry.inFlightRequests + limits.localWeight weight) u32Max := rfl
  constructor
  · intro ht hidle hpos
    have hmem : (id, entry.push leaseId now (limits.localWeight weight)) ∈ t.entries := by
      rw [hentries]
      exact KeyedList.mem_of_get (KeyedList.get_insert_self _ _ _)
    have hle : (entry.push leaseId now (limits.localWeight weight)).inFlightRequests ≤
        limits.ofCredential entry := ht.credential _ hmem hpos
    rw [hpush, hidle] at hle
    omega
  · intro hfits
    refine ⟨fun entry' hmem hpos => ?_, fun hpos => ?_⟩
    · rw [hentries] at hmem
      rcases KeyedList.mem_insert hmem with rfl | hmem
      · have hcapacity := hcapacity hpos
        have hpos : 0 < limits.ofCredential entry := hpos
        change _ ≤ limits.ofCredential entry
        rw [saturatingAdd] at hcapacity
        rw [hpush]
        omega
      · exact hwithin.credential entry' hmem hpos
    · have htotal := Entries.total_insert hget (entry.push leaseId now (limits.localWeight weight))
      have hbefore := hwithin.global hpos
      rw [hpush] at htotal
      rw [hentries]
      by_cases hlarge : u32Max ≤ limits.globalMaxConcurrentRequests
      · have hsum := hsum hlarge
        omega
      · have hmod : s.entries.inFlightRequests = s.entries.total :=
          Nat.mod_eq_of_lt (show s.entries.total < 2 ^ 32 by omega)
        rw [hmod, saturatingAdd] at hglobal
        omega

theorem step_within_iff (ha : a.IsLocal limits) (hs : s.Tallied limits)
    (hwithin : s.Within limits) (hsum : SumFits limits s a) :
    (∀ t ∈ step s a, t.Within limits) ↔ OverrideFits limits s a := by
  constructor
  · intro ht
    cases a with
    | acquireLocal id leaseId now checkedAt limits' weight =>
      cases ha
      intro entry hget hdisabled hglobal hidle hpos
      have hentry : entry.Tallied limits := hs.entry _ (KeyedList.mem_of_get hget)
      have hcapacity : entryHasConcurrencyCapacity entry checkedAt limits.maxConcurrentRequests
          (limits.localWeight weight) = true := by
        refine (hasCapacity_iff hentry.hint checkedAt limits weight).mpr fun _ => ?_
        rw [hidle, saturatingAdd]
        omega
      have hacquired : acquireLocalInFlightSlotWithId s.entries id leaseId now checkedAt limits
          weight = some (KeyedList.insert id
            (entry.push leaseId now (limits.localWeight weight)) s.entries) :=
        acquireLocalInFlightSlotWithId_eq_some.mpr
          ⟨entry, hget, hdisabled, hglobal, hcapacity, rfl⟩
      have ht : (s.prepared id leaseId (acquireLocalInFlightSlotWithId s.entries id leaseId now
          checkedAt limits weight)).Within limits := ht _ rfl
      rw [hacquired] at ht
      exact (acquired_within_iff hs hwithin hsum hget hdisabled hglobal hcapacity rfl).mp ht
        hidle hpos
    | release => trivial
    | _ => trivial
  · intro hfits t hstep
    rcases local_step_cases ha hstep with hentries | ⟨id, leaseId, now, checkedAt, weight, entry,
      rfl, hget, hdisabled, hglobal, hcapacity, hentries⟩ | ⟨id, leaseId, entry, weight, entry',
      hget, hrelease, hentries⟩
    · exact ⟨hentries ▸ hwithin.credential, hentries ▸ hwithin.global⟩
    · exact (acquired_within_iff hs hwithin hsum hget hdisabled hglobal hcapacity hentries).mpr
        (hfits entry hget hdisabled hglobal)
    · obtain ⟨lease, -, -, -, hcount, -, hlimit, -⟩ := CredentialEntry.release_eq_some hrelease
      have hof : limits.ofCredential entry' = limits.ofCredential entry := by
        rw [Limits.ofCredential, effectiveMaxConcurrentRequests, hlimit]
        rfl
      refine ⟨fun entry'' hmem hpos => ?_, fun hpos => ?_⟩
      · rw [hentries] at hmem
        rcases KeyedList.mem_insert hmem with rfl | hmem
        · have hle : entry.inFlightRequests ≤ limits.ofCredential entry :=
            hwithin.credential _ (KeyedList.mem_of_get hget) (hof ▸ hpos)
          change entry'.inFlightRequests ≤ limits.ofCredential entry'
          omega
        · exact hwithin.credential entry'' hmem hpos
      · have htotal := Entries.total_insert hget entry'
        have hbefore := hwithin.global hpos
        rw [hentries]
        omega

def Exceeds (limit count weight : ℕ) : Prop := 0 < limit ∧ limit < saturatingAdd count weight

instance (limit count weight : ℕ) : Decidable (Exceeds limit count weight) :=
  inferInstanceAs (Decidable (_ ∧ _))

theorem exceeds_congr {limit count count' : ℕ} (h : Bounds limit → count = count')
    (weight : ℕ) : Exceeds limit count weight ↔ Exceeds limit count' weight := by
  by_cases hbounds : Bounds limit
  · rw [h hbounds]
  · have hnot (count : ℕ) : ¬ Exceeds limit count weight := by
      rintro ⟨hpos, hlt⟩
      exact hbounds ⟨hpos, Nat.lt_of_lt_of_le hlt (Nat.min_le_right _ _)⟩
    exact iff_of_false (hnot count) (hnot count')

def Refused (limits : Limits) (s : System) (entry : CredentialEntry) (weight : ℕ) : Prop :=
  Exceeds limits.globalMaxConcurrentRequests s.entries.inFlightRequests weight ∨
    Exceeds (limits.ofCredential entry) entry.inFlightRequests
      (min weight (limits.ofCredential entry))

instance (limits : Limits) (s : System) (entry : CredentialEntry) (weight : ℕ) :
    Decidable (Refused limits s entry weight) :=
  inferInstanceAs (Decidable (_ ∨ _))

section Acquisitions

variable {id leaseId weight : ℕ} {now checkedAt : Instant} {entry : CredentialEntry}

theorem acquireLocal_eq (hs : s.Tallied limits) (hget : KeyedList.get id s.entries = some entry)
    (hdisabled : entry.disabled = false) :
    acquireLocalInFlightSlotWithId s.entries id leaseId now checkedAt limits weight =
      if Refused limits s entry (limits.localWeight weight) then none
      else some (KeyedList.insert id (entry.push leaseId now (limits.localWeight weight))
        s.entries) := by
  have hentry : entry.Tallied limits := hs.entry _ (KeyedList.mem_of_get hget)
  have hcapacity := hasCapacity_iff hentry.hint checkedAt limits weight
  apply Option.ext
  intro entries
  rw [acquireLocalInFlightSlotWithId_eq_some]
  split_ifs with hrefused
  · refine ⟨?_, fun h => by cases h⟩
    rintro ⟨entry', hget', -, hglobal, hcapacity', -⟩
    cases hget.symm.trans hget'
    rcases hrefused with hexceeds | ⟨hpos, hlt⟩
    · exact absurd hexceeds hglobal
    · exact absurd (hcapacity.mp hcapacity' hpos) (Nat.not_le_of_lt hlt)
  · obtain ⟨hglobal, hcredential⟩ := not_or.mp hrefused
    constructor
    · rintro ⟨entry', hget', -, -, -, rfl⟩
      cases hget.symm.trans hget'
      rfl
    · intro h
      cases h
      exact ⟨entry, hget, hdisabled, hglobal,
        hcapacity.mpr fun hpos => Nat.le_of_not_lt fun hlt => hcredential ⟨hpos, hlt⟩, rfl⟩

theorem sum_locallyOwnedWeights {leases : List InFlightLease}
    (howned : ∀ lease ∈ leases, lease.locallyOwned = true ∧ 1 ≤ lease.weightUnits) :
    (locallyOwnedWeights leases).sum = (leases.map InFlightLease.weight).sum := by
  have hfilter : leases.filter InFlightLease.locallyOwned = leases :=
    List.filter_eq_self.mpr fun lease hlease => (howned lease hlease).1
  rw [locallyOwnedWeights, hfilter]
  congr 1
  exact List.map_congr_left fun lease hlease => (Nat.max_eq_left (howned lease hlease).2).symm

theorem sum_flatMap_weights (entries : Entries) :
    ((entries.flatMap fun entry => entry.2.inFlightLeases).map InFlightLease.weight).sum =
      (entries.map fun entry => entry.2.weight).sum := by
  induction entries with
  | nil => rfl
  | cons entry entries ih =>
    rw [List.flatMap_cons, List.map_append, List.sum_append, ih, List.map_cons, List.sum_cons,
      CredentialEntry.weight]

theorem locallyOwned_global (hs : s.Tallied limits)
    (hbounds : Bounds limits.globalMaxConcurrentRequests) :
    saturatingSum
        (locallyOwnedWeights (s.entries.flatMap fun entry => entry.2.inFlightLeases)) =
      s.entries.inFlightRequests := by
  have hmax : u32Max = 4294967295 := rfl
  have howned : ∀ lease ∈ s.entries.flatMap fun entry => entry.2.inFlightLeases,
      lease.locallyOwned = true ∧ 1 ≤ lease.weightUnits := by
    intro lease hlease
    obtain ⟨entry, hentry, hlease⟩ := List.mem_flatMap.mp hlease
    exact (hs.entry entry hentry).owned lease hlease
  have hcounts : (s.entries.map fun entry => entry.2.weight).sum = s.entries.total := by
    rw [Entries.total]
    congr 1
    exact List.map_congr_left fun entry hentry =>
      ((hs.entry entry hentry).count (.inr hbounds)).symm
  have htotal := hs.total hbounds
  obtain ⟨-, hlt⟩ := hbounds
  have hmod : s.entries.inFlightRequests = s.entries.total :=
    Nat.mod_eq_of_lt (show s.entries.total < 2 ^ 32 by omega)
  rw [saturatingSum_eq, sum_locallyOwnedWeights howned, sum_flatMap_weights, hcounts, hmod]
  omega

theorem locallyOwned_credential (hentry : entry.Tallied limits)
    (hbounds : Bounds (limits.ofCredential entry)) :
    saturatingSum (locallyOwnedWeights entry.inFlightLeases) = entry.inFlightRequests := by
  have hcount := hentry.count (.inl hbounds)
  have hle := hentry.count_le
  rw [hcount] at hle
  rw [saturatingSum_eq, sum_locallyOwnedWeights hentry.owned]
  exact (Nat.min_eq_left hle).trans hcount.symm

theorem acquireProvisional_eq (hs : s.Tallied limits)
    (hget : KeyedList.get id s.entries = some entry) (hdisabled : entry.disabled = false) :
    acquireProvisionalLocalInFlightSlotWithId s.entries id leaseId now limits weight =
      if Refused limits s entry (limits.provisionalWeight entry weight) then none
      else some (KeyedList.insert id
        (entry.push leaseId now (limits.provisionalWeight entry weight)) s.entries) := by
  have hentry : entry.Tallied limits := hs.entry _ (KeyedList.mem_of_get hget)
  have hglobal := exceeds_congr (locallyOwned_global hs) (limits.provisionalWeight entry weight)
  have hcredential := exceeds_congr (locallyOwned_credential hentry)
    (limits.provisionalWeight entry weight)
  have hmin : Exceeds (limits.ofCredential entry) entry.inFlightRequests
      (limits.provisionalWeight entry weight) ↔
      Exceeds (limits.ofCredential entry) entry.inFlightRequests
        (min (limits.provisionalWeight entry weight) (limits.ofCredential entry)) := by
    refine and_congr_right fun hpos => ?_
    rw [Nat.min_eq_left (provisionalWeight_le limits entry weight hpos)]
  rw [hmin] at hcredential
  apply Option.ext
  intro entries
  rw [acquireProvisionalLocalInFlightSlotWithId_eq_some]
  split_ifs with hrefused
  · refine ⟨?_, fun h => by cases h⟩
    rintro ⟨entry', hget', -, hglobal', hcredential', -⟩
    cases hget.symm.trans hget'
    rcases hrefused with hexceeds | hexceeds
    · exact absurd (hglobal.mpr hexceeds) hglobal'
    · exact absurd (hcredential.mpr hexceeds) hcredential'
  · obtain ⟨hnot, hnot'⟩ := not_or.mp hrefused
    constructor
    · rintro ⟨entry', hget', -, -, -, rfl⟩
      cases hget.symm.trans hget'
      rfl
    · intro h
      cases h
      exact ⟨entry, hget, hdisabled, fun h => hnot (hglobal.mp h),
        fun h => hnot' (hcredential.mp h), rfl⟩

theorem weight_of_push_eq {entries : Entries} {weightUnits weightUnits' : ℕ}
    (h : KeyedList.insert id (entry.push leaseId now weightUnits) entries =
      KeyedList.insert id (entry.push leaseId now weightUnits') entries) :
    weightUnits = weightUnits' := by
  have hget := congrArg (KeyedList.get id) h
  rw [KeyedList.get_insert_self, KeyedList.get_insert_self] at hget
  have hleases := congrArg CredentialEntry.inFlightLeases (Option.some.inj hget)
  have hlast := List.append_cancel_left hleases
  exact congrArg InFlightLease.weightUnits (List.head_eq_of_cons_eq hlast)

/-- Both limits leave the request the same weight, or both weights are refused. -/
def Alike (limits : Limits) (s : System) (id weight : ℕ) : Prop :=
  ∀ entry ∈ KeyedList.get id s.entries, entry.disabled = false →
    limits.localWeight weight = limits.provisionalWeight entry weight ∨
      Refused limits s entry (limits.localWeight weight) ∧
        Refused limits s entry (limits.provisionalWeight entry weight)

instance (limits : Limits) (s : System) (id weight : ℕ) : Decidable (Alike limits s id weight) :=
  inferInstanceAs (Decidable (∀ entry ∈ KeyedList.get id s.entries, _ → _))

theorem acquisitions_eq_iff (hs : s.Tallied limits) :
    acquireLocalInFlightSlotWithId s.entries id leaseId now checkedAt limits weight =
        acquireProvisionalLocalInFlightSlotWithId s.entries id leaseId now limits weight ↔
      Alike limits s id weight := by
  cases hget : KeyedList.get id s.entries with
  | none =>
    rw [acquireLocalInFlightSlotWithId, acquireProvisionalLocalInFlightSlotWithId, Alike, hget]
    exact iff_of_true rfl (by simp)
  | some entry =>
    by_cases hdisabled : entry.disabled = true
    · rw [acquireLocalInFlightSlotWithId, acquireProvisionalLocalInFlightSlotWithId, Alike, hget]
      simp [hdisabled]
    · have hdisabled := Bool.eq_false_iff.mpr hdisabled
      have halike : Alike limits s id weight ↔
          limits.localWeight weight = limits.provisionalWeight entry weight ∨
            Refused limits s entry (limits.localWeight weight) ∧
              Refused limits s entry (limits.provisionalWeight entry weight) := by
        simp [Alike, hget, hdisabled]
      rw [halike, acquireLocal_eq hs hget hdisabled, acquireProvisional_eq hs hget hdisabled]
      split_ifs with hlocal hprovisional hprovisional
      · exact iff_of_true rfl (.inr ⟨hlocal, hprovisional⟩)
      · refine iff_of_false (by simp) ?_
        rintro (heq | ⟨-, h⟩)
        · exact hprovisional (heq ▸ hlocal)
        · exact hprovisional h
      · refine iff_of_false (by simp) ?_
        rintro (heq | ⟨h, -⟩)
        · exact hlocal (heq ▸ hprovisional)
        · exact hlocal h
      · refine ⟨fun h => .inl (weight_of_push_eq (Option.some.inj h)), ?_⟩
        rintro (heq | ⟨h, -⟩)
        · rw [heq]
        · exact absurd h hlocal

end Acquisitions

/-- A process without Redis keeps its limits if and only if every request that starts an idle
credential fits into it, and the two acquisitions differ only by the weights they check. -/
theorem run_new_within_iff (configs : List (ℕ × CredentialConfig)) (limits : Limits)
    (actions : List Action) (hlocal : ∀ a ∈ actions, a.IsLocal limits)
    (hsum : Along step (SumFits limits) (new configs) actions)
    (h : run step (new configs) actions = some t) :
    (Along step (fun s a => ∀ t ∈ step s a, t.Within limits) (new configs) actions ↔
      Along step (OverrideFits limits) (new configs) actions) ∧
    ∀ id leaseId now checkedAt weight,
      acquireLocalInFlightSlotWithId t.entries id leaseId now checkedAt limits weight =
          acquireProvisionalLocalInFlightSlotWithId t.entries id leaseId now limits weight ↔
        Alike limits t id weight := by
  have hwithin : (new configs).Within limits := by
    refine ⟨fun entry hentry _ => ?_, fun _ => ?_⟩
    · obtain ⟨config, -, rfl⟩ := List.mem_map.mp hentry
      exact Nat.zero_le _
    · simp [total_new]
  exact ⟨along_good_iff (fun _ _ _ ha hs hstep => step_tallied ha.1 hs hstep)
      (fun _ _ ha hs hwithin => step_within_iff ha.1 hs hwithin ha.2)
      (along_and_of_forall hsum hlocal) (tallied_new limits configs) hwithin,
    fun _ _ _ _ _ => acquisitions_eq_iff (run_new_tallied hlocal h)⟩

/-- Two requests on a credential with a limit of its own, of which one is finished. -/
def overrideRun : List Action :=
  [.acquireLocal 1 7 0 0 ⟨10, 512⟩ 3, .acquireLocal 1 8 5 5 ⟨10, 512⟩ 1, .release 0]

theorem run_new_within_iff_override :
    ∃ t, run step (new [(1, ⟨false, some 4⟩)]) overrideRun = some t ∧
      Along step (fun s a => ∀ t ∈ step s a, t.Within ⟨10, 512⟩) (new [(1, ⟨false, some 4⟩)])
        overrideRun ∧
      acquireLocalInFlightSlotWithId t.entries 1 9 6 6 ⟨10, 512⟩ 2 =
        acquireProvisionalLocalInFlightSlotWithId t.entries 1 9 6 ⟨10, 512⟩ 2 := by
  have h := run_new_within_iff [(1, ⟨false, some 4⟩)] ⟨10, 512⟩ overrideRun (by decide)
    (by decide) rfl
  exact ⟨_, rfl, h.1.mpr (by decide), (h.2 1 9 6 6 2).mpr (by decide)⟩

/-- A weight of five is reduced to the default limit of ten, checked as two and recorded as
five. The other acquisition records two. -/
theorem override_exceeded :
    (∃ t, run step (new [(1, ⟨false, some 2⟩)]) [.acquireLocal 1 7 0 0 ⟨10, 512⟩ 5] = some t ∧
      t.inFlightRequests 1 = 5 ∧ ¬ t.Within ⟨10, 512⟩) ∧
    acquireLocalInFlightSlotWithId (new [(1, ⟨false, some 2⟩)]).entries 1 7 0 0 ⟨10, 512⟩ 5 ≠
      acquireProvisionalLocalInFlightSlotWithId (new [(1, ⟨false, some 2⟩)]).entries 1 7 0
        ⟨10, 512⟩ 5 := by
  refine ⟨⟨_, rfl, rfl, fun h => ?_⟩, by decide⟩
  have hle : 5 ≤ 2 := h.credential _ List.mem_cons_self (by decide)
  omega

end KiroProxy.InFlight
