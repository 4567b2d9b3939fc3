import KiroProxy.RequestFacts.Probe
import KiroProxy.Transition

/-!
# The strict pass

The pass over a document succeeds if and only if no object repeats a key and the keys are within
their limits.
-/

namespace KiroProxy.RequestFacts

open JsonBytes Transition

/-- An object has few enough keys, and none twice. -/
def Fits (members : Members) : Prop :=
  (names members).Nodup ∧ (names members).length ≤ maxJsonObjectKeys

def keyCount (objects : List Members) : ℕ := (objects.map fun members => (names members).length).sum

theorem keyCount_append (a b : List Members) : keyCount (a ++ b) = keyCount a + keyCount b := by
  rw [keyCount, List.map_append, List.sum_append, keyCount, keyCount]

theorem keyCount_cons (members : Members) (objects : List Members) :
    keyCount (members :: objects) = (names members).length + keyCount objects := by
  rw [keyCount, List.map_cons, List.sum_cons, keyCount]

theorem bind_eq_ok_iff {ε α β : Type} {x : Except ε α} {f : α → Except ε β} {b : β} :
    x >>= f = .ok b ↔ ∃ a, x = .ok a ∧ f a = .ok b := by
  constructor
  · exact exists_of_bind_eq_ok
  · rintro ⟨a, rfl, hb⟩
    exact hb

theorem visitKey_eq_ok_iff {name : Bytes} {seen : List Bytes} {n m : ℕ}
    (hn : n ≤ maxJsonDocumentKeys) : visitKey name seen n = .ok m ↔
      m = n + 1 ∧ m ≤ maxJsonDocumentKeys ∧ seen.length < maxJsonObjectKeys ∧ name ∉ seen := by
  have hmin : min (n + 1) (2 ^ 64 - 1) = n + 1 := by
    unfold maxJsonDocumentKeys at hn
    omega
  unfold visitKey
  dsimp only
  rw [hmin]
  split_ifs with hlimit hseen
  · constructor
    · rintro ⟨⟩
    · rintro ⟨rfl, htotal, hkeys, -⟩
      rcases hlimit with hlimit | hlimit <;> omega
  · constructor
    · rintro ⟨⟩
    · rintro ⟨-, -, -, hnot⟩
      exact absurd hseen hnot
  · obtain ⟨htotal, hkeys⟩ := not_or.mp hlimit
    rw [Except.ok.injEq]
    constructor
    · rintro rfl
      exact ⟨rfl, not_lt.mp htotal, not_le.mp hkeys, hseen⟩
    · exact fun h => h.1.symm

theorem visit_plain {n m : ℕ} (hn : n ≤ maxJsonDocumentKeys) :
    (.ok n : Except JsonDocumentValidationFailure ℕ) = .ok m ↔
      m = n + keyCount [] ∧ m ≤ maxJsonDocumentKeys ∧ ∀ members ∈ ([] : List Members), Fits members := by
  rw [Except.ok.injEq]
  constructor
  · rintro rfl
    exact ⟨rfl, hn, by simp⟩
  · exact fun h => h.1.symm

mutual

theorem visit_eq_ok_iff : ∀ (tree : Tree) {n m : ℕ}, n ≤ maxJsonDocumentKeys →
    (visit tree n = .ok m ↔ m = n + keyCount (objects tree) ∧ m ≤ maxJsonDocumentKeys ∧
      ∀ members ∈ objects tree, Fits members)
  | .array items, n, m, hn => visitSeq_eq_ok_iff items hn
  | .object members, n, m, hn => by
    rw [visit, visitMap_eq_ok_iff members hn, objects, keyCount_cons, List.forall_mem_cons, Fits]
    simp only [List.length_nil, Nat.zero_add, List.not_mem_nil, not_false_eq_true, implies_true,
      true_and, and_assoc]
  | .null, n, m, hn => visit_plain hn
  | .true, n, m, hn => visit_plain hn
  | .false, n, m, hn => visit_plain hn
  | .number _, n, m, hn => visit_plain hn
  | .string _, n, m, hn => visit_plain hn
  | .emptyArray _, n, m, hn => visit_plain hn
  | .emptyObject _, n, m, hn => visit_plain hn

theorem visitSeq_eq_ok_iff : ∀ (items : Items) {n m : ℕ}, n ≤ maxJsonDocumentKeys →
    (visitSeq items n = .ok m ↔ m = n + keyCount (objectsOfItems items) ∧ m ≤ maxJsonDocumentKeys ∧
      ∀ members ∈ objectsOfItems items, Fits members)
  | .last _ value _, n, m, hn => visit_eq_ok_iff value hn
  | .cons _ value _ rest, n, m, hn => by
    rw [visitSeq, bind_eq_ok_iff, objectsOfItems, keyCount_append, List.forall_mem_append]
    constructor
    · rintro ⟨k, hvalue, hrest⟩
      obtain ⟨rfl, hk, hfits⟩ := (visit_eq_ok_iff value hn).mp hvalue
      obtain ⟨rfl, hm, hfits'⟩ := (visitSeq_eq_ok_iff rest hk).mp hrest
      exact ⟨Nat.add_assoc _ _ _, hm, hfits, hfits'⟩
    · rintro ⟨rfl, hm, hfits, hfits'⟩
      have hk : n + keyCount (objects value) ≤ maxJsonDocumentKeys := by omega
      exact ⟨_, (visit_eq_ok_iff value hn).mpr ⟨rfl, hk, hfits⟩,
        (visitSeq_eq_ok_iff rest hk).mpr ⟨(Nat.add_assoc _ _ _).symm, hm, hfits'⟩⟩

/-- The keys seen so far belong to the object, too. -/
theorem visitMap_eq_ok_iff : ∀ (members : Members) {seen : List Bytes} {n m : ℕ},
    n ≤ maxJsonDocumentKeys →
    (visitMap members seen n = .ok m ↔
      m = n + ((names members).length + keyCount (objectsOfMembers members)) ∧
      m ≤ maxJsonDocumentKeys ∧ ((names members).Nodup ∧ ∀ name ∈ names members, name ∉ seen) ∧
      seen.length + (names members).length ≤ maxJsonObjectKeys ∧
      ∀ inner ∈ objectsOfMembers members, Fits inner)
  | .last _ name _ _ value _, seen, n, m, hn => by
    rw [visitMap, bind_eq_ok_iff, names, objectsOfMembers, List.length_singleton]
    constructor
    · rintro ⟨k, hkey, hvalue⟩
      obtain ⟨rfl, hk, hseen, hnew⟩ := (visitKey_eq_ok_iff hn).mp hkey
      obtain ⟨rfl, hm, hfits⟩ := (visit_eq_ok_iff value hk).mp hvalue
      exact ⟨Nat.add_assoc _ _ _, hm, ⟨List.nodup_cons.mpr ⟨List.not_mem_nil, List.nodup_nil⟩,
        List.forall_mem_singleton.mpr hnew⟩,
        hseen, hfits⟩
    · rintro ⟨rfl, hm, ⟨-, hnew⟩, hseen, hfits⟩
      have hk : n + 1 ≤ maxJsonDocumentKeys := by omega
      exact ⟨_, (visitKey_eq_ok_iff hn).mpr ⟨rfl, hk, hseen, hnew _ List.mem_cons_self⟩,
        (visit_eq_ok_iff value hk).mpr ⟨(Nat.add_assoc _ _ _).symm, hm, hfits⟩⟩
  | .cons _ name _ _ value _ rest, seen, n, m, hn => by
    rw [visitMap, bind_eq_ok_iff, names, objectsOfMembers, keyCount_append, List.length_cons,
      List.forall_mem_append, List.nodup_cons, List.forall_mem_cons]
    constructor
    · rintro ⟨k, hkey, hrest⟩
      obtain ⟨rfl, hk, hseen, hnew⟩ := (visitKey_eq_ok_iff hn).mp hkey
      obtain ⟨k, hvalue, hrest⟩ := bind_eq_ok_iff.mp hrest
      obtain ⟨rfl, hk', hfits⟩ := (visit_eq_ok_iff value hk).mp hvalue
      obtain ⟨rfl, hm, ⟨hnodup, hnew'⟩, hlength, hfits'⟩ := (visitMap_eq_ok_iff rest hk').mp hrest
      rw [List.length_cons] at hlength
      refine ⟨by omega, hm, ⟨⟨fun hmem => ?_, hnodup⟩, hnew, fun other hmem hother => ?_⟩, by omega,
        hfits, hfits'⟩
      · exact hnew' _ hmem List.mem_cons_self
      · exact hnew' other hmem (List.mem_cons_of_mem _ hother)
    · rintro ⟨rfl, hm, ⟨⟨hnot, hnodup⟩, hnew, hnew'⟩, hlength, hfits, hfits'⟩
      have hk : n + 1 ≤ maxJsonDocumentKeys := by omega
      have hk' : n + 1 + keyCount (objects value) ≤ maxJsonDocumentKeys := by omega
      refine ⟨_, (visitKey_eq_ok_iff hn).mpr ⟨rfl, hk, by omega, hnew⟩, bind_eq_ok_iff.mpr
        ⟨_, (visit_eq_ok_iff value hk).mpr ⟨rfl, hk', hfits⟩,
          (visitMap_eq_ok_iff rest hk').mpr ⟨by omega, hm, ⟨hnodup, fun other hmem => ?_⟩, ?_, hfits'⟩⟩⟩
      · refine fun hother => (List.mem_cons.mp hother).elim (fun heq => ?_) (hnew' other hmem)
        exact hnot (heq ▸ hmem)
      · rw [List.length_cons]
        omega

end

theorem visit_root_iff (tree : Tree) : (∃ m, visit tree 0 = .ok m) ↔
    (∀ members ∈ objects tree, Fits members) ∧ keyCount (objects tree) ≤ maxJsonDocumentKeys := by
  constructor
  · rintro ⟨m, h⟩
    obtain ⟨rfl, hm, hfits⟩ := (visit_eq_ok_iff tree (Nat.zero_le _)).mp h
    exact ⟨hfits, (Nat.zero_add _).symm.trans_le hm⟩
  · rintro ⟨hfits, hm⟩
    exact ⟨_, (visit_eq_ok_iff tree (Nat.zero_le _)).mpr
      ⟨rfl, (Nat.zero_add _).trans_le hm, hfits⟩⟩

end KiroProxy.RequestFacts
