import Mathlib.Data.List.Basic
import Mathlib.Order.Nat

/-!
# Removing blocks from a growing text

A rule recognises a block at the start of a text and the beginnings of texts that may still
become a block. The text without its blocks can then be put out while it arrives, if an end
that may become a block is held back and nothing is held back from before a removed block.
-/

namespace KiroProxy.Excision

variable {α : Type}

def find (matchAt : List α → Option ℕ) : List α → Option (ℕ × ℕ)
  | [] => none
  | a :: text =>
    match matchAt (a :: text) with
    | some n => some (0, n)
    | none => (find matchAt text).map fun found => (found.1 + 1, found.2)

theorem find_cons_of_some {matchAt : List α → Option ℕ} {a : α} {text : List α} {n : ℕ}
    (h : matchAt (a :: text) = some n) : find matchAt (a :: text) = some (0, n) := by
  rw [find, h]

theorem find_cons_of_none {matchAt : List α → Option ℕ} {a : α} {text : List α}
    (h : matchAt (a :: text) = none) :
    find matchAt (a :: text) = (find matchAt text).map fun found => (found.1 + 1, found.2) := by
  rw [find, h]

theorem match_of_find {matchAt : List α → Option ℕ} {text : List α} {s n : ℕ}
    (h : find matchAt text = some (s, n)) :
    s < text.length ∧ matchAt (text.drop s) = some n := by
  induction text generalizing s with
  | nil => cases h
  | cons a text ih =>
    cases hmatch : matchAt (a :: text) with
    | some m =>
      rw [find_cons_of_some hmatch] at h
      cases h
      exact ⟨Nat.zero_lt_succ _, hmatch⟩
    | none =>
      rw [find_cons_of_none hmatch] at h
      obtain ⟨⟨s', n'⟩, hfound, heq⟩ := Option.map_eq_some_iff.mp h
      cases heq
      obtain ⟨hlt, hmatch'⟩ := ih hfound
      exact ⟨Nat.succ_lt_succ hlt, hmatch'⟩

/-- Nothing matches before the earliest place. -/
theorem find_eq_none_iff {matchAt : List α → Option ℕ} {text : List α} :
    find matchAt text = none ↔ ∀ k < text.length, matchAt (text.drop k) = none := by
  induction text with
  | nil => simp [find]
  | cons a text ih =>
    cases hmatch : matchAt (a :: text) with
    | some n =>
      rw [find_cons_of_some hmatch]
      constructor
      · intro h
        cases h
      · intro h
        have hzero := h 0 (Nat.zero_lt_succ _)
        rw [List.drop_zero, hmatch] at hzero
        cases hzero
    | none =>
      rw [find_cons_of_none hmatch, Option.map_eq_none_iff, ih]
      constructor
      · intro h k hk
        cases k with
        | zero => exact hmatch
        | succ k => exact h k (Nat.lt_of_succ_lt_succ hk)
      · intro h k hk
        exact h (k + 1) (Nat.succ_lt_succ hk)

/-- The search may start behind places that do not match. -/
theorem find_of_drop {matchAt : List α → Option ℕ} {text : List α} {m : ℕ}
    (hm : m ≤ text.length) (h : ∀ k < m, matchAt (text.drop k) = none) :
    find matchAt text = (find matchAt (text.drop m)).map fun found => (m + found.1, found.2) := by
  induction m generalizing text with
  | zero => simp
  | succ m ih =>
    cases text with
    | nil => exact absurd hm (Nat.not_succ_le_zero m)
    | cons a text =>
      rw [find_cons_of_none (h 0 (Nat.zero_lt_succ m)), List.drop_succ_cons,
        ih (Nat.le_of_succ_le_succ hm) fun k hk => h (k + 1) (Nat.succ_lt_succ hk),
        Option.map_map]
      congr 1
      funext found
      simp only [Function.comp_apply, Prod.mk.injEq, and_true]
      omega

theorem find_eq_some {matchAt : List α → Option ℕ} {text : List α} {s n : ℕ}
    (hs : s < text.length) (h : ∀ k < s, matchAt (text.drop k) = none)
    (hmatch : matchAt (text.drop s) = some n) : find matchAt text = some (s, n) := by
  have hne : text.drop s ≠ [] := by
    apply List.ne_nil_of_length_pos
    rw [List.length_drop]
    omega
  obtain ⟨a, rest, hdrop⟩ := List.exists_cons_of_ne_nil hne
  rw [hdrop] at hmatch
  rw [find_of_drop hs.le h, hdrop, find_cons_of_some hmatch]
  rfl

/-- The first of the elements with the smallest key. -/
def minByKey {β : Type} (key : β → ℕ) : List β → Option β
  | [] => none
  | x :: xs =>
    match minByKey key xs with
    | none => some x
    | some y => if key y < key x then some y else some x

theorem minByKey_cons {β : Type} (key : β → ℕ) (x : β) (xs : List β) :
    minByKey key (x :: (minByKey key xs).toList) = minByKey key (x :: xs) := by
  rw [minByKey, minByKey]
  cases minByKey key xs with
  | none => rfl
  | some y => rfl

theorem minByKey_map {β γ : Type} {key : β → ℕ} {key' : γ → ℕ} {f : β → γ}
    (h : ∀ x, key' (f x) = key x) (xs : List β) :
    minByKey key' (xs.map f) = (minByKey key xs).map f := by
  induction xs with
  | nil => rfl
  | cons x xs ih =>
    rw [List.map_cons, minByKey, minByKey, ih]
    cases minByKey key xs with
    | none => rfl
    | some y =>
      simp only [Option.map_some, h]
      split_ifs
      · rfl
      · rfl

/-- Of two ways to match, the earlier one; at the same place the first way. -/
theorem find_or (first second : List α → Option ℕ) (text : List α) :
    find (fun text => (first text).or (second text)) text =
      minByKey Prod.fst ((find first text).toList ++ (find second text).toList) := by
  induction text with
  | nil => rfl
  | cons a text ih =>
    rw [find, find, find, ih]
    cases first (a :: text) with
    | some n =>
      cases second (a :: text) with
      | some m => simp [minByKey]
      | none => cases find second text <;> simp [minByKey]
    | none =>
      cases second (a :: text) with
      | some m => cases find first text <;> simp [minByKey]
      | none =>
        cases find first text <;> cases find second text <;> simp [minByKey]
        split_ifs
        · rfl
        · rfl

/-- The earliest of several matches is the earliest place at which one of them matches, and
there the first one. -/
theorem minByKey_find (ways : List (List α → Option ℕ)) (text : List α) :
    minByKey Prod.fst (ways.filterMap fun matchAt => find matchAt text) =
      find (fun text => ways.findSome? fun matchAt => matchAt text) text := by
  induction ways with
  | nil =>
    symm
    rw [List.filterMap_nil, minByKey, find_eq_none_iff]
    intro k _
    rfl
  | cons matchAt ways ih =>
    have hways : (fun text => (matchAt :: ways).findSome? fun matchAt => matchAt text) =
        fun text => (matchAt text).or (ways.findSome? fun matchAt => matchAt text) := by
      funext text
      rw [List.findSome?_cons]
      cases matchAt text with
      | none => rfl
      | some n => rfl
    rw [hways, find_or, ← ih, List.filterMap_cons]
    cases find matchAt text with
    | none =>
      cases minByKey Prod.fst (ways.filterMap fun matchAt => find matchAt text) with
      | none => rfl
      | some found => rfl
    | some found => exact (minByKey_cons Prod.fst found _).symm

/-- A way to match that does not change its mind while the text grows, and the texts that it
may still match when they grow. -/
structure Recognises (matchAt : List α → Option ℕ) (begins : List α → Bool) : Prop where
  pos : ∀ {text n}, matchAt text = some n → 0 < n
  le_length : ∀ {text n}, matchAt text = some n → n ≤ text.length
  stable : ∀ {text n} tail, matchAt text = some n → matchAt (text ++ tail) = some n
  settled : ∀ {text tail n}, matchAt (text ++ tail) = some n → n ≤ text.length →
    matchAt text = some n
  begins_of_match : ∀ {text tail n}, matchAt (text ++ tail) = some n → text.length < n →
    text ≠ [] → begins text = true
  begins_of_append : ∀ {text tail}, begins (text ++ tail) = true → text ≠ [] →
    begins text = true

namespace Recognises

variable {first second : List α → Option ℕ} {begins begins' : List α → Bool}

theorem congr (h : Recognises first begins) (heq : ∀ text ≠ [], begins' text = begins text) :
    Recognises first begins' where
  pos := h.pos
  le_length := h.le_length
  stable := h.stable
  settled := h.settled
  begins_of_match hmatch hlt hne := by
    rw [heq _ hne]
    exact h.begins_of_match hmatch hlt hne
  begins_of_append happend hne := by
    rw [heq _ (by simp [hne])] at happend
    rw [heq _ hne]
    exact h.begins_of_append happend hne

theorem ne_nil (h : Recognises first begins) {text : List α} {n : ℕ}
    (hmatch : first text = some n) : text ≠ [] := by
  intro hnil
  have hpos := h.pos hmatch
  have hle := h.le_length hmatch
  rw [hnil, List.length_nil] at hle
  omega

theorem none_of_append (h : Recognises first begins) {text tail : List α}
    (hnone : first (text ++ tail) = none) : first text = none := by
  cases hmatch : first text with
  | none => rfl
  | some n =>
    rw [h.stable tail hmatch] at hnone
    cases hnone

/-- Two ways to match, if the second one does not match what may become a first one. -/
theorem or (h : Recognises first begins) (h' : Recognises second begins')
    (hapart : ∀ text, begins text = true → second text = none) :
    Recognises (fun text => (first text).or (second text))
      (fun text => begins text || begins' text) where
  pos hmatch := by
    rcases Option.or_eq_some_iff.mp hmatch with hfirst | ⟨-, hsecond⟩
    · exact h.pos hfirst
    · exact h'.pos hsecond
  le_length hmatch := by
    rcases Option.or_eq_some_iff.mp hmatch with hfirst | ⟨-, hsecond⟩
    · exact h.le_length hfirst
    · exact h'.le_length hsecond
  stable {text n} tail hmatch := by
    apply Option.or_eq_some_iff.mpr
    rcases Option.or_eq_some_iff.mp hmatch with hfirst | ⟨hnone, hsecond⟩
    · exact Or.inl (h.stable tail hfirst)
    · refine Or.inr ⟨?_, h'.stable tail hsecond⟩
      cases hfirst : first (text ++ tail) with
      | none => rfl
      | some m =>
        by_cases hle : m ≤ text.length
        · rw [h.settled hfirst hle] at hnone
          cases hnone
        · have hbegins := h.begins_of_match hfirst (not_le.mp hle) (h'.ne_nil hsecond)
          rw [hapart text hbegins] at hsecond
          cases hsecond
  settled hmatch hle := by
    apply Option.or_eq_some_iff.mpr
    rcases Option.or_eq_some_iff.mp hmatch with hfirst | ⟨hnone, hsecond⟩
    · exact Or.inl (h.settled hfirst hle)
    · exact Or.inr ⟨h.none_of_append hnone, h'.settled hsecond hle⟩
  begins_of_match hmatch hlt hne := by
    rw [Bool.or_eq_true]
    rcases Option.or_eq_some_iff.mp hmatch with hfirst | ⟨-, hsecond⟩
    · exact Or.inl (h.begins_of_match hfirst hlt hne)
    · exact Or.inr (h'.begins_of_match hsecond hlt hne)
  begins_of_append happend hne := by
    rw [Bool.or_eq_true] at happend ⊢
    rcases happend with hfirst | hsecond
    · exact Or.inl (h.begins_of_append hfirst hne)
    · exact Or.inr (h'.begins_of_append hsecond hne)

end Recognises

structure Rule (α : Type) where
  /-- The length of the block at the start of a text. -/
  block : List α → Option ℕ
  /-- The text may be the beginning of a block. -/
  begins : List α → Bool
  /-- One of these is removed after a block. -/
  isSeparator : α → Bool
  recognises : Recognises block begins

namespace Rule

variable (rule : Rule α)

def skipSeparator : List α → List α
  | [] => []
  | a :: text => if rule.isSeparator a then text else a :: text

def exciseWithin : ℕ → List α → List α × Bool
  | 0, text => (text, false)
  | fuel + 1, text =>
    match find rule.block text with
    | none => (text, false)
    | some (s, n) =>
      if text.drop (s + n) = [] then (text.take s, true)
      else
        let (kept, ended) := exciseWithin fuel (rule.skipSeparator (text.drop (s + n)))
        (text.take s ++ kept, ended)

/-- The text without its blocks, and whether it ended with one. -/
def excise (text : List α) : List α × Bool :=
  rule.exciseWithin text.length text

/-- The end of the text that may become a block. -/
def held : List α → List α
  | [] => []
  | a :: text => if rule.begins (a :: text) then a :: text else held text

/-- The text before the end that is held back. -/
def released : List α → List α
  | [] => []
  | a :: text => if rule.begins (a :: text) then [] else a :: released text

/-- Nothing before a removed block may still become one, neither in the text nor in what is
kept of it. -/
inductive Settled : List α → Prop
  | clean {text} : find rule.block text = none → Settled text
  | block {text s n} : find rule.block text = some (s, n) →
      (∀ k < s, rule.begins (text.drop k) = false) →
      (∀ k < s, rule.begins ((rule.excise text).1.drop k) = false) →
      Settled (rule.skipSeparator (text.drop (s + n))) → Settled text

variable {rule} {text tail : List α} {s n : ℕ}

theorem length_skipSeparator_le (rule : Rule α) (text : List α) :
    (rule.skipSeparator text).length ≤ text.length := by
  cases text with
  | nil => exact le_rfl
  | cons a text =>
    rw [skipSeparator]
    split_ifs
    · exact Nat.le_succ _
    · exact le_rfl

theorem skipSeparator_append (hne : text ≠ []) (tail : List α) :
    rule.skipSeparator (text ++ tail) = rule.skipSeparator text ++ tail := by
  obtain ⟨a, text, rfl⟩ := List.exists_cons_of_ne_nil hne
  rw [List.cons_append, skipSeparator, skipSeparator]
  split_ifs
  · rfl
  · rfl

theorem add_le_length_of_find (h : find rule.block text = some (s, n)) :
    0 < n ∧ s + n ≤ text.length := by
  obtain ⟨hlt, hmatch⟩ := match_of_find h
  have hpos := rule.recognises.pos hmatch
  have hle := rule.recognises.le_length hmatch
  rw [List.length_drop] at hle
  omega

theorem length_after_lt (h : find rule.block text = some (s, n)) :
    (rule.skipSeparator (text.drop (s + n))).length < text.length := by
  have hskip := rule.length_skipSeparator_le (text.drop (s + n))
  have hbounds := add_le_length_of_find h
  rw [List.length_drop] at hskip
  omega

theorem exciseWithin_congr {fuel fuel' : ℕ} (h : text.length ≤ fuel) (h' : text.length ≤ fuel') :
    rule.exciseWithin fuel text = rule.exciseWithin fuel' text := by
  induction fuel generalizing text fuel' with
  | zero =>
    have hnil : text = [] := List.length_eq_zero_iff.mp (Nat.le_zero.mp h)
    subst hnil
    cases fuel' with
    | zero => rfl
    | succ fuel' => rfl
  | succ fuel ih =>
    cases hfind : find rule.block text with
    | none =>
      cases fuel' with
      | zero => rw [exciseWithin, exciseWithin, hfind]
      | succ fuel' => rw [exciseWithin, exciseWithin, hfind]
    | some found =>
      obtain ⟨s, n⟩ := found
      have hlt := length_after_lt hfind
      obtain ⟨fuel', rfl⟩ : ∃ m, fuel' = m + 1 := ⟨fuel' - 1, by omega⟩
      rw [exciseWithin, exciseWithin, hfind]
      dsimp only
      rw [ih (Nat.le_of_lt_succ (hlt.trans_le h)) (Nat.le_of_lt_succ (hlt.trans_le h'))]

theorem excise_of_none (h : find rule.block text = none) : rule.excise text = (text, false) := by
  rw [excise]
  cases text.length with
  | zero => rfl
  | succ _ => rw [exciseWithin, h]

theorem excise_of_some (h : find rule.block text = some (s, n)) :
    rule.excise text =
      if text.drop (s + n) = [] then (text.take s, true)
      else (text.take s ++ (rule.excise (rule.skipSeparator (text.drop (s + n)))).1,
        (rule.excise (rule.skipSeparator (text.drop (s + n)))).2) := by
  have hlt := length_after_lt h
  rw [excise, exciseWithin_congr le_rfl (Nat.le_succ text.length), exciseWithin, h]
  dsimp only
  rw [exciseWithin_congr (Nat.le_of_lt hlt) le_rfl]
  rfl

theorem released_append_held (rule : Rule α) (text : List α) :
    rule.released text ++ rule.held text = text := by
  induction text with
  | nil => rfl
  | cons a text ih =>
    rw [released, held]
    split_ifs
    · rfl
    · rw [List.cons_append, ih]

theorem take_released (text : List α) :
    text.take (rule.released text).length = rule.released text := by
  have h : (rule.released text ++ rule.held text).take (rule.released text).length =
      rule.released text := List.take_left
  rwa [released_append_held] at h

theorem drop_released (text : List α) :
    text.drop (rule.released text).length = rule.held text := by
  have h : (rule.released text ++ rule.held text).drop (rule.released text).length =
      rule.held text := List.drop_left
  rwa [released_append_held] at h

theorem begins_drop_released {k : ℕ} (h : k < (rule.released text).length) :
    rule.begins (text.drop k) = false := by
  induction text generalizing k with
  | nil => exact absurd h (Nat.not_lt_zero _)
  | cons a text ih =>
    rw [released] at h
    split_ifs at h with hbegins
    · exact absurd h (Nat.not_lt_zero _)
    · cases k with
      | zero => exact Bool.not_eq_true _ ▸ hbegins
      | succ k => exact ih (Nat.lt_of_succ_lt_succ h)

/-- Where no beginning of a block starts in the first part, nothing of it is held back. -/
theorem held_append {before : List α}
    (h : ∀ k < before.length, rule.begins ((before ++ tail).drop k) = false) :
    rule.held (before ++ tail) = rule.held tail ∧
      rule.released (before ++ tail) = before ++ rule.released tail := by
  induction before with
  | nil => exact ⟨rfl, rfl⟩
  | cons a before ih =>
    have hzero := h 0 (Nat.zero_lt_succ _)
    obtain ⟨hheld, hreleased⟩ := ih fun k hk => h (k + 1) (Nat.succ_lt_succ hk)
    rw [List.drop_zero, List.cons_append] at hzero
    rw [List.cons_append, held, released, hzero, hheld, hreleased]
    exact ⟨rfl, rfl⟩

/-- A text that is not the beginning of a block has the blocks that it has later. -/
theorem block_append_of_none (h : rule.block text = none) (hbegins : rule.begins text = false)
    (hne : text ≠ []) (tail : List α) : rule.block (text ++ tail) = none := by
  cases hblock : rule.block (text ++ tail) with
  | none => rfl
  | some n =>
    by_cases hle : n ≤ text.length
    · rw [rule.recognises.settled hblock hle] at h
      cases h
    · rw [rule.recognises.begins_of_match hblock (not_le.mp hle) hne] at hbegins
      cases hbegins

/-- A block that is complete is found in every longer text, unless one may begin before it. -/
theorem find_append (h : find rule.block text = some (s, n))
    (hbegins : ∀ k < s, rule.begins (text.drop k) = false) (tail : List α) :
    find rule.block (text ++ tail) = some (s, n) := by
  induction text generalizing s with
  | nil => cases h
  | cons a text ih =>
    cases hblock : rule.block (a :: text) with
    | some m =>
      rw [find_cons_of_some hblock] at h
      have hlonger := rule.recognises.stable tail hblock
      rw [List.cons_append] at hlonger ⊢
      rw [find_cons_of_some hlonger]
      exact h
    | none =>
      rw [find_cons_of_none hblock] at h
      obtain ⟨⟨s', n'⟩, hfound, heq⟩ := Option.map_eq_some_iff.mp h
      cases heq
      have hzero := hbegins 0 (Nat.zero_lt_succ _)
      have hnone := block_append_of_none hblock hzero (List.cons_ne_nil a text) tail
      rw [List.cons_append] at hnone ⊢
      rw [find_cons_of_none hnone, ih hfound fun k hk => hbegins (k + 1) (Nat.succ_lt_succ hk)]
      rfl

/-- Without a complete block the search goes on where the text is held back. -/
theorem find_append_of_none (h : find rule.block text = none) (tail : List α) :
    find rule.block (text ++ tail) =
      (find rule.block (rule.held text ++ tail)).map fun found =>
        ((rule.released text).length + found.1, found.2) := by
  induction text with
  | nil => simp [held, released]
  | cons a text ih =>
    rw [held, released]
    split_ifs with hbegins
    · simp
    · rw [Bool.not_eq_true] at hbegins
      cases hblock : rule.block (a :: text) with
      | some m =>
        rw [find_cons_of_some hblock] at h
        cases h
      | none =>
        rw [find_cons_of_none hblock, Option.map_eq_none_iff] at h
        have hnone := block_append_of_none hblock hbegins (List.cons_ne_nil a text) tail
        rw [List.cons_append] at hnone ⊢
        rw [find_cons_of_none hnone, ih h, Option.map_map, List.length_cons]
        congr 1
        funext found
        simp only [Function.comp_apply, Prod.mk.injEq, and_true]
        omega

/-- Text before which no block starts is kept. -/
theorem excise_append_of_find {before : List α}
    (h : find rule.block (before ++ tail) =
      (find rule.block tail).map fun found => (before.length + found.1, found.2)) :
    rule.excise (before ++ tail) = (before ++ (rule.excise tail).1, (rule.excise tail).2) := by
  cases hfind : find rule.block tail with
  | none =>
    rw [hfind, Option.map_none] at h
    rw [excise_of_none h, excise_of_none hfind]
  | some found =>
    obtain ⟨s, n⟩ := found
    rw [hfind, Option.map_some] at h
    rw [excise_of_some h, excise_of_some hfind]
    simp only [Nat.add_assoc, List.drop_length_add_append, List.take_length_add_append]
    split_ifs
    · rfl
    · rw [List.append_assoc]

theorem Settled.skip_append (h : find rule.block text = some (s, n))
    (hne : text.drop (s + n) ≠ []) (hfind : find rule.block (text ++ tail) = some (s, n))
    (hsettled : rule.Settled (text ++ tail)) :
    rule.Settled (rule.skipSeparator (text.drop (s + n)) ++ tail) := by
  cases hsettled with
  | clean hnone =>
    rw [hfind] at hnone
    cases hnone
  | block hsome _ _ hrest =>
    rw [hfind] at hsome
    cases hsome
    rw [List.drop_append_of_le_length (add_le_length_of_find h).2, skipSeparator_append hne]
      at hrest
    exact hrest

theorem Settled.begins_excise (hsettled : rule.Settled text)
    (h : find rule.block text = some (s, n)) {k : ℕ} (hk : k < s) :
    rule.begins ((rule.excise text).1.drop k) = false := by
  cases hsettled with
  | clean hnone =>
    rw [h] at hnone
    cases hnone
  | block hsome _ hbegins _ =>
    rw [h] at hsome
    cases hsome
    exact hbegins k hk

/-- Before the place where a text without blocks is held back, what is kept later does not
begin a block. -/
theorem begins_excise_append (h : find rule.block text = none)
    (hsettled : rule.Settled (text ++ tail)) {k : ℕ} (hk : k < (rule.released text).length) :
    rule.begins ((rule.excise (text ++ tail)).1.drop k) = false := by
  cases hfind : find rule.block (text ++ tail) with
  | some found =>
    obtain ⟨s, n⟩ := found
    apply hsettled.begins_excise hfind
    rw [find_append_of_none h] at hfind
    obtain ⟨found, -, heq⟩ := Option.map_eq_some_iff.mp hfind
    cases heq
    omega
  | none =>
    have hlength : k < text.length := by
      have hle := congrArg List.length (rule.released_append_held text)
      rw [List.length_append] at hle
      omega
    have hbegins := begins_drop_released hk
    rw [excise_of_none hfind, List.drop_append_of_le_length hlength.le]
    cases hlonger : rule.begins (text.drop k ++ tail) with
    | false => rfl
    | true =>
      rw [rule.recognises.begins_of_append hlonger (List.ne_nil_of_length_pos
        (by rw [List.length_drop]; omega))] at hbegins
      cases hbegins

/-- The text that is left to process when a text grows. -/
def resumed (rule : Rule α) (text tail : List α) : List α :=
  rule.held (rule.excise text).1 ++
    if (rule.excise text).2 then rule.skipSeparator tail else tail

/-- The longer text is processed from the end that was held back. -/
structure Resumes (rule : Rule α) (text tail : List α) : Prop where
  released : rule.released (rule.excise (text ++ tail)).1 =
    rule.released (rule.excise text).1 ++
      rule.released (rule.excise (rule.resumed text tail)).1
  held : rule.held (rule.excise (text ++ tail)).1 =
    rule.held (rule.excise (rule.resumed text tail)).1
  ended : ((rule.excise text).2 = true → tail ≠ []) →
    (rule.excise (text ++ tail)).2 = (rule.excise (rule.resumed text tail)).2

theorem excise_fst_of_some (h : find rule.block text = some (s, n)) :
    (rule.excise text).1 =
      text.take s ++ (rule.excise (rule.skipSeparator (text.drop (s + n)))).1 := by
  rw [excise_of_some h]
  split_ifs with hnil
  · rw [hnil]
    exact (List.append_nil _).symm
  · rfl

/-- In a settled text nothing is held back from before a block. -/
theorem Settled.held_of_find (hsettled : rule.Settled text)
    (h : find rule.block text = some (s, n)) :
    rule.held (rule.excise text).1 =
        rule.held (rule.excise (rule.skipSeparator (text.drop (s + n)))).1 ∧
      rule.released (rule.excise text).1 = text.take s ++
        rule.released (rule.excise (rule.skipSeparator (text.drop (s + n)))).1 := by
  have hbegins : ∀ k < (text.take s).length,
      rule.begins ((rule.excise text).1.drop k) = false := by
    intro k hk
    exact hsettled.begins_excise h (lt_of_lt_of_le hk (List.length_take_le _ _))
  rw [excise_fst_of_some h] at hbegins ⊢
  exact held_append hbegins

theorem Settled.held_of_ended (hsettled : rule.Settled text) (h : (rule.excise text).2 = true) :
    rule.held (rule.excise text).1 = [] := by
  induction hsettled with
  | clean hnone =>
    rw [excise_of_none hnone] at h
    cases h
  | @block text s n hfind hbegins hkept hrest ih =>
    rw [((Settled.block hfind hbegins hkept hrest).held_of_find hfind).1]
    rw [excise_of_some hfind] at h
    split_ifs at h with hnil
    · rw [hnil]
      rfl
    · exact ih h

theorem Settled.resumes (hsettled : rule.Settled text) (hlonger : rule.Settled (text ++ tail)) :
    rule.Resumes text tail := by
  induction hsettled with
  | @clean text hnone =>
    have hfind := find_append_of_none hnone tail
    have hbegins := fun k (hk : k < (rule.released text).length) =>
      begins_excise_append hnone hlonger hk
    have hresumed : rule.resumed text tail = rule.held text ++ tail := by
      rw [resumed, excise_of_none hnone]
      rfl
    have htext : text ++ tail = rule.released text ++ rule.resumed text tail := by
      rw [hresumed, ← List.append_assoc, released_append_held]
    rw [← hresumed, htext] at hfind
    have hexcise := excise_append_of_find hfind
    rw [← htext] at hexcise
    rw [hexcise] at hbegins
    obtain ⟨hheld, hreleased⟩ := held_append hbegins
    constructor
    · rw [hexcise, hreleased, excise_of_none hnone]
    · rw [hexcise, hheld]
    · intro _
      rw [hexcise]
  | @block text s n hfind hbegins hkept hrest ih =>
    have hsettled := Settled.block hfind hbegins hkept hrest
    have hfind' := find_append hfind hbegins tail
    have hbounds := (add_le_length_of_find hfind).2
    obtain ⟨hheld, hreleased⟩ := hsettled.held_of_find hfind
    obtain ⟨hheld', hreleased'⟩ := hlonger.held_of_find hfind'
    rw [List.take_append_of_le_length (by omega), List.drop_append_of_le_length hbounds]
      at hreleased'
    rw [List.drop_append_of_le_length hbounds] at hheld'
    have hended := excise_of_some hfind
    have hended' := excise_of_some hfind'
    rw [List.drop_append_of_le_length hbounds] at hended'
    by_cases hnil : text.drop (s + n) = []
    · -- the block ends the text, and the longer text goes on behind it
      rw [hnil] at hheld hreleased hheld' hreleased' hended'
      rw [if_pos hnil] at hended
      have hresumed : rule.resumed text tail = rule.skipSeparator tail := by
        rw [resumed, hheld, hended]
        rfl
      constructor
      · rw [hreleased', hreleased, hresumed, List.nil_append, List.append_assoc]
        rfl
      · rw [hheld', hresumed, List.nil_append]
      · intro hne
        rw [hended] at hne
        rw [hended', List.nil_append, if_neg (hne rfl), hresumed]
    · have hne : text.drop (s + n) ++ tail ≠ [] := by simp [hnil]
      rw [if_neg hnil] at hended
      rw [if_neg hne] at hended'
      rw [skipSeparator_append hnil] at hheld' hreleased' hended'
      have hrec := ih (Settled.skip_append hfind hnil hfind' hlonger)
      have hresumed : rule.resumed text tail =
          rule.resumed (rule.skipSeparator (text.drop (s + n))) tail := by
        rw [resumed, hheld, hended]
        rfl
      constructor
      · rw [hreleased', hreleased, hresumed, hrec.released, List.append_assoc]
      · rw [hheld', hresumed, hrec.held]
      · intro hne'
        rw [hended] at hne'
        rw [hended', hresumed, hrec.ended hne']

/-- An end that was held back is kept when nothing follows. -/
theorem Settled.excise_held (hsettled : rule.Settled text) :
    (rule.excise (rule.held (rule.excise text).1)).1 = rule.held (rule.excise text).1 := by
  have hsame : rule.Settled (text ++ []) := by rwa [List.append_nil]
  have hresumes := hsettled.resumes hsame
  have hresumed : rule.resumed text [] = rule.held (rule.excise text).1 := by
    rw [resumed]
    split_ifs
    · exact List.append_nil _
    · exact List.append_nil _
  have hreleased := hresumes.released
  have hheld := hresumes.held
  rw [hresumed, List.append_nil] at hreleased hheld
  have hnil := List.self_eq_append_right.mp hreleased
  have hall := rule.released_append_held (rule.excise (rule.held (rule.excise text).1)).1
  rw [hnil, ← hheld, List.nil_append] at hall
  exact hall.symm

/-- One more chunk: the end held back, whether a block ended the text, and the output. -/
def feed (rule : Rule α) (state : List α × Bool) (chunk : List α) :
    (List α × Bool) × List α :=
  if state.1 ++ chunk = [] then (state, [])
  else
    let (kept, ended) := rule.excise
      (if state.2 then rule.skipSeparator (state.1 ++ chunk) else state.1 ++ chunk)
    ((rule.held kept, ended), rule.released kept)

theorem Settled.feed {chunk : List α} (hsettled : rule.Settled text)
    (hlonger : rule.Settled (text ++ chunk)) :
    (rule.feed (rule.held (rule.excise text).1, (rule.excise text).2) chunk).1 =
        (rule.held (rule.excise (text ++ chunk)).1, (rule.excise (text ++ chunk)).2) ∧
      rule.released (rule.excise text).1 ++
          (rule.feed (rule.held (rule.excise text).1, (rule.excise text).2) chunk).2 =
        rule.released (rule.excise (text ++ chunk)).1 := by
  have hresumes := hsettled.resumes hlonger
  rw [Rule.feed]
  dsimp only
  by_cases hnil : rule.held (rule.excise text).1 ++ chunk = []
  · rw [if_pos hnil]
    obtain ⟨-, hchunk⟩ := List.append_eq_nil_iff.mp hnil
    rw [hchunk, List.append_nil]
    exact ⟨rfl, List.append_nil _⟩
  · have hresumed : (if (rule.excise text).2 = true then
        rule.skipSeparator (rule.held (rule.excise text).1 ++ chunk)
        else rule.held (rule.excise text).1 ++ chunk) = rule.resumed text chunk := by
      rw [resumed]
      split_ifs with hended
      · rw [hsettled.held_of_ended hended]
        rfl
      · rfl
    have hended := hresumes.ended (by
      intro hended hchunk
      rw [hsettled.held_of_ended hended, hchunk] at hnil
      exact hnil rfl)
    rw [if_neg hnil, hresumed, hresumes.held, hended, hresumes.released]
    exact ⟨rfl, rfl⟩

end Rule

end KiroProxy.Excision
