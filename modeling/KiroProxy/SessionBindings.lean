import KiroProxy.NestedMap

/-!
# Bindings of sessions to credentials

The table that remembers which credential served a session. A binding prunes the table first: the
bindings that have expired go, and where there are too many, those used longest ago.
-/

namespace KiroProxy.SessionBindings

open NestedMap

def sessionBindingTtlSecs : ℤ := 6 * 60 * 60

def maxSessionBindings : ℕ := 10000

def sessionBindingPruneIntervalSecs : ℤ := 60

structure SessionBinding where
  credentialId : ℕ
  /-- In nanoseconds. -/
  lastUsedAt : ℤ
  softFailureCount : ℕ

/-- Bindings in their iteration order. -/
abbrev Bindings := List (String × SessionBinding)

structure Table where
  bindings : Bindings
  /-- In seconds. -/
  lastPruneAt : ℤ

def new : Table := ⟨[], -2 ^ 63⟩

def saturatingSub (a b : ℤ) : ℤ := max (-2 ^ 63) (min (a - b) (2 ^ 63 - 1))

def SessionBinding.isExpired (now : ℤ) (binding : SessionBinding) : Bool :=
  sessionBindingTtlSecs < (now - binding.lastUsedAt).tdiv (10 ^ 9)

def removeOldest (bindings : Bindings) : Bindings :=
  if bindings.length ≤ maxSessionBindings then bindings
  else
    let removed := smallest (fun entry => entry.2.lastUsedAt) (bindings.length - maxSessionBindings)
      bindings
    bindings.filter fun entry => entry.1 ∉ removed.map Prod.fst

def pruneSessionBindings (now : ℤ) (t : Table) : Table :=
  if t.bindings.length ≤ maxSessionBindings ∧
      saturatingSub (now / 10 ^ 9) t.lastPruneAt < sessionBindingPruneIntervalSecs then t
  else ⟨removeOldest (t.bindings.filter fun entry => !entry.2.isExpired now), now / 10 ^ 9⟩

/-- A call on one session with the clock values that it reads. -/
inductive Operation
  | cacheRedisBinding (now : ℤ) (binding : Option SessionBinding)
  | bindSessionToCredential (now usedAt : ℤ) (credentialId : ℕ)
  | unbindSessionIfBoundTo (credentialId : ℕ)
  | recordSessionSoftFailure (usedAt : ℤ) (credentialId : ℕ)
  | clearSessionSoftFailure (usedAt : ℤ) (credentialId : ℕ)

def Operation.prunesAt : Operation → Option ℤ
  | .cacheRedisBinding now _ => some now
  | .bindSessionToCredential now _ _ => some now
  | _ => none

/-- The binding of the session after the call. -/
def Operation.result (bound : Option SessionBinding) : Operation → Option SessionBinding
  | .cacheRedisBinding _ binding => binding
  | .bindSessionToCredential _ usedAt credentialId =>
    match bound.filter fun binding => binding.credentialId = credentialId with
    | some binding => some { binding with lastUsedAt := usedAt }
    | none => some ⟨credentialId, usedAt, 0⟩
  | .unbindSessionIfBoundTo credentialId =>
    bound.filter fun binding => binding.credentialId ≠ credentialId
  | .recordSessionSoftFailure usedAt credentialId =>
    bound.map fun binding => if binding.credentialId = credentialId then
      ⟨credentialId, usedAt, min (binding.softFailureCount + 1) (2 ^ 32 - 1)⟩ else binding
  | .clearSessionSoftFailure usedAt credentialId =>
    bound.map fun binding => if binding.credentialId = credentialId then
      ⟨credentialId, usedAt, 0⟩ else binding

def Table.pruned (t : Table) (operation : Operation) : Table :=
  operation.prunesAt.elim t (pruneSessionBindings · t)

def Table.operate (t : Table) (session : String) (operation : Operation) : Table :=
  let t := t.pruned operation
  match operation.result (KeyedList.get session t.bindings) with
  | some binding => { t with bindings := KeyedList.insert session binding t.bindings }
  | none => { t with bindings := KeyedList.remove session t.bindings }

inductive Call
  | operate (session : String) (operation : Operation)
  | unbindSessionsForCredential (credentialId : ℕ)

def Table.call (t : Table) : Call → Table
  | .operate session operation => t.operate session operation
  | .unbindSessionsForCredential credentialId =>
    { t with bindings := t.bindings.filter fun entry => entry.2.credentialId ≠ credentialId }

def run (calls : List Call) : Table := calls.foldl Table.call new

/-- There are too many bindings, and those that are kept were used after this one. -/
def Oldest (bindings kept : Bindings) (binding : SessionBinding) : Prop :=
  maxSessionBindings < bindings.length ∧ ∀ entry ∈ kept, binding.lastUsedAt ≤ entry.2.lastUsedAt

theorem removeOldest_spec {bindings : Bindings} (hnodup : (bindings.map Prod.fst).Nodup) :
    (removeOldest bindings).Sublist bindings ∧
      (removeOldest bindings).length ≤ maxSessionBindings ∧
      ∀ entry ∈ bindings, entry ∉ removeOldest bindings →
        Oldest bindings (removeOldest bindings) entry.2 := by
  rw [removeOldest]
  split_ifs with hlength
  · exact ⟨.refl _, hlength, fun entry hmem hnot => absurd hmem hnot⟩
  · refine ⟨List.filter_sublist, ?_, fun entry hmem hnot => ⟨Nat.lt_of_not_le hlength, ?_⟩⟩
    · rw [length_filter_smallest hnodup fun entry => decide_eq_true_iff]
      omega
    · intro kept hkept
      obtain ⟨hmem', hkept⟩ := List.mem_filter.mp hkept
      have hkey := of_not_not fun hkey => hnot (List.mem_filter.mpr ⟨hmem, decide_eq_true hkey⟩)
      obtain ⟨other, hother, heq⟩ := List.mem_map.mp hkey
      obtain rfl := List.inj_on_of_nodup_map hnodup (mem_of_mem_smallest hother) hmem heq
      have hle := rank_le_of_smallest hother hmem' (mt List.mem_map_of_mem (of_decide_eq_true hkept))
      exact hle

variable {t : Table}

theorem pruned_spec (hnodup : (t.bindings.map Prod.fst).Nodup) (operation : Operation) :
    (t.pruned operation).bindings.Sublist t.bindings ∧
      (operation.prunesAt ≠ none → (t.pruned operation).bindings.length ≤ maxSessionBindings) ∧
      ∀ entry ∈ t.bindings, entry ∉ (t.pruned operation).bindings →
        ∃ now ∈ operation.prunesAt, entry.2.isExpired now = true ∨
          Oldest t.bindings (t.pruned operation).bindings entry.2 := by
  rw [Table.pruned]
  cases operation.prunesAt with
  | none => exact ⟨.refl _, fun h => absurd rfl h, fun entry hmem hnot => absurd hmem hnot⟩
  | some now =>
    rw [Option.elim_some, pruneSessionBindings]
    split_ifs with hskip
    · exact ⟨.refl _, fun _ => hskip.1, fun entry hmem hnot => absurd hmem hnot⟩
    · have hsub : (t.bindings.filter fun entry => !entry.2.isExpired now).Sublist t.bindings :=
        List.filter_sublist
      obtain ⟨hsub', hle, hold⟩ := removeOldest_spec (hnodup.sublist (hsub.map Prod.fst))
      refine ⟨hsub'.trans hsub, fun _ => hle, fun entry hmem hnot => ⟨now, rfl, ?_⟩⟩
      cases hexpired : entry.2.isExpired now with
      | true => exact .inl rfl
      | false =>
        obtain ⟨hlt, hall⟩ := hold entry (List.mem_filter.mpr ⟨hmem, by simp [hexpired]⟩) hnot
        exact .inr ⟨hlt.trans_le hsub.length_le, hall⟩

theorem result_none {operation : Operation} (h : operation.prunesAt = none) :
    operation.result none = none := by
  cases operation <;> first | rfl | cases h

structure Table.Sound (t : Table) : Prop where
  nodup : (t.bindings.map Prod.fst).Nodup
  length_le : t.bindings.length ≤ maxSessionBindings + 1

theorem Table.Sound.call (h : t.Sound) (call : Call) : (t.call call).Sound := by
  cases call with
  | unbindSessionsForCredential =>
    exact ⟨h.nodup.sublist (List.filter_sublist.map Prod.fst),
      (List.length_filter_le _ _).trans h.length_le⟩
  | operate session operation =>
    obtain ⟨hsub, hpruned, -⟩ := pruned_spec h.nodup operation
    have hnodup := h.nodup.sublist (hsub.map Prod.fst)
    have hle := hsub.length_le.trans h.length_le
    rw [Table.call, Table.operate]
    generalize t.pruned operation = t' at hnodup hle hpruned
    cases hresult : operation.result (KeyedList.get session t'.bindings) with
    | none =>
      exact ⟨KeyedList.nodup_keys_remove hnodup session, (List.length_filter_le _ _).trans hle⟩
    | some binding =>
      refine ⟨KeyedList.nodup_keys_insert hnodup session binding, ?_⟩
      dsimp only
      cases hget : KeyedList.get session t'.bindings with
      | some bound =>
        rwa [← List.length_map Prod.fst, KeyedList.keys_insert_of_get hget, List.length_map]
      | none =>
        rw [KeyedList.insert_of_get_eq_none hget, List.length_append, List.length_singleton]
        refine Nat.succ_le_succ (hpruned fun hnone => ?_)
        rw [hget, result_none hnone] at hresult
        cases hresult

theorem sound_run (calls : List Call) : (run calls).Sound := by
  induction calls using List.reverseRecOn with
  | nil => exact ⟨List.nodup_nil, Nat.zero_le _⟩
  | append_singleton calls call ih =>
    rw [run, List.foldl_append]
    exact ih.call call

/-- The table is bounded, and a call on one session takes the binding of another one away only where
it has expired or nothing older is kept. -/
theorem run_keeps_bindings (calls : List Call) :
    (run calls).bindings.length ≤ maxSessionBindings + 1 ∧
      ∀ session other operation, other ≠ session →
        let t := (run calls).operate session operation
        KeyedList.get other t.bindings = KeyedList.get other (run calls).bindings ∨
          KeyedList.get other t.bindings = none ∧
            ∃ now ∈ operation.prunesAt, ∃ binding,
              KeyedList.get other (run calls).bindings = some binding ∧
              (binding.isExpired now = true ∨
                Oldest (run calls).bindings ((run calls).pruned operation).bindings binding) := by
  have hs := sound_run calls
  refine ⟨hs.length_le, fun session other operation hne => ?_⟩
  generalize run calls = t at hs
  obtain ⟨hsub, -, hold⟩ := pruned_spec hs.nodup operation
  have hget' : KeyedList.get other (t.operate session operation).bindings =
      KeyedList.get other (t.pruned operation).bindings := by
    rw [Table.operate]
    split
    · exact KeyedList.get_insert_of_ne hne _ _
    · exact KeyedList.get_remove_of_ne hne _
  dsimp only
  rw [hget']
  cases hpruned : KeyedList.get other (t.pruned operation).bindings with
  | some binding =>
    rw [KeyedList.get_eq_some_iff (hs.nodup.sublist (hsub.map Prod.fst))] at hpruned
    exact .inl ((KeyedList.get_eq_some_iff hs.nodup).mpr (hsub.subset hpruned)).symm
  | none =>
    cases hget : KeyedList.get other t.bindings with
    | none => exact .inl rfl
    | some binding =>
      obtain ⟨now, hnow, hremoved⟩ := hold _ (KeyedList.mem_of_get hget) fun hin =>
        KeyedList.get_eq_none_iff.mp hpruned (List.mem_map_of_mem hin)
      exact .inr ⟨rfl, now, hnow, binding, rfl, hremoved⟩

end KiroProxy.SessionBindings
