import Mathlib.Data.List.Infix
import Mathlib.Data.List.Basic
import Mathlib.Data.Nat.Find

/-!
# Occurrences of patterns in a text

Search for one pattern, the earliest and longest occurrence of several patterns,
and the suffix of a text that must be held back while the text still grows:
an occurrence that the next chunk completes starts inside a held suffix.
-/

namespace KiroProxy.Matching

variable {α : Type*}

def OccursAt (pat text : List α) (p : ℕ) : Prop :=
  pat <+: text.drop p

instance [DecidableEq α] (pat text : List α) (p : ℕ) : Decidable (OccursAt pat text p) :=
  inferInstanceAs (Decidable (pat <+: text.drop p))

variable {pat text : List α} {p : ℕ} {tail : List α} {pats : List (List α)} {chunk : List α}

theorem OccursAt.add_length_le (h : OccursAt pat text p) (hpat : pat ≠ []) :
    p + pat.length ≤ text.length := by
  have hle := h.length_le
  have hpos := List.length_pos_of_ne_nil hpat
  rw [List.length_drop] at hle
  omega

theorem OccursAt.append (h : OccursAt pat text p) (tail : List α) (hp : p ≤ text.length) :
    OccursAt pat (text ++ tail) p := by
  rw [OccursAt, List.drop_append_of_le_length hp]
  exact h.trans (List.prefix_append _ _)

theorem OccursAt.of_append (h : OccursAt pat (text ++ tail) p) (hp : p + pat.length ≤ text.length) :
    OccursAt pat text p := by
  rw [OccursAt, List.drop_append_of_le_length (by omega)] at h
  exact List.prefix_of_prefix_length_le h (List.prefix_append _ _) (by rw [List.length_drop]; omega)

theorem occursAt_append_left {pat head text : List α} :
    OccursAt pat (head ++ text) (head.length + p) ↔ OccursAt pat text p := by
  rw [OccursAt, OccursAt, List.drop_length_add_append]

theorem exists_occursAt_iff : (∃ p, OccursAt pat text p) ↔ pat <:+: text := by
  constructor
  · rintro ⟨p, h⟩
    exact h.isInfix.trans (List.drop_suffix p text).isInfix
  · rintro ⟨head, tail, rfl⟩
    exact ⟨head.length, by simp [OccursAt]⟩

section Find

variable [DecidableEq α]

/-- First position at which the pattern occurs. -/
def find (pat : List α) : List α → Option ℕ
  | [] => if pat = [] then some 0 else none
  | c :: text => if pat <+: c :: text then some 0 else (find pat text).map (· + 1)

theorem find_eq_some_iff {pat text : List α} {p : ℕ} :
    find pat text = some p ↔ OccursAt pat text p ∧ ∀ q < p, ¬ OccursAt pat text q := by
  induction text generalizing p with
  | nil =>
    by_cases hpat : pat = []
    · subst hpat
      simp only [find, if_true, Option.some.injEq, OccursAt, List.nil_prefix, true_and]
      constructor
      · rintro rfl q hq
        omega
      · intro h
        by_contra hne
        exact h 0 (by omega) trivial
    · simp [find, hpat, OccursAt]
  | cons c text ih =>
    by_cases hhead : pat <+: c :: text
    · simp only [find, if_pos hhead, Option.some.injEq]
      constructor
      · rintro rfl
        exact ⟨hhead, fun q hq => absurd hq (Nat.not_lt_zero q)⟩
      · rintro ⟨-, hfirst⟩
        by_contra hne
        exact hfirst 0 (by omega) hhead
    · simp only [find, if_neg hhead, Option.map_eq_some_iff]
      constructor
      · rintro ⟨p', hp', rfl⟩
        obtain ⟨hocc, hfirst⟩ := ih.mp hp'
        refine ⟨hocc, fun q hq => ?_⟩
        cases q with
        | zero => exact hhead
        | succ q => exact hfirst q (by omega)
      · rintro ⟨hocc, hfirst⟩
        cases p with
        | zero => exact absurd hocc hhead
        | succ p => exact ⟨p, ih.mpr ⟨hocc, fun q hq => hfirst (q + 1) (by omega)⟩, rfl⟩

theorem find_eq_none_iff {pat text : List α} :
    find pat text = none ↔ ∀ p, ¬ OccursAt pat text p := by
  constructor
  · intro hnone p hp
    have hex : ∃ p, OccursAt pat text p := ⟨p, hp⟩
    classical
    have hfind : find pat text = some (Nat.find hex) :=
      find_eq_some_iff.mpr ⟨Nat.find_spec hex, fun q hq => Nat.find_min hex hq⟩
    rw [hnone] at hfind
    cases hfind
  · intro h
    cases hfind : find pat text with
    | none => rfl
    | some p => exact absurd (find_eq_some_iff.mp hfind).1 (h p)

end Find

structure Earliest (pats : List (List α)) (text : List α) (p : ℕ) (pat : List α) : Prop where
  mem : pat ∈ pats
  occurs : OccursAt pat text p
  le : ∀ pat' ∈ pats, ∀ q, OccursAt pat' text q → p < q ∨ p = q ∧ pat'.length ≤ pat.length

theorem Earliest.unique {p q : ℕ} {s t : List α} (hs : Earliest pats text p s)
    (ht : Earliest pats text q t) : p = q ∧ s = t := by
  have hst := hs.le t ht.mem q ht.occurs
  have hts := ht.le s hs.mem p hs.occurs
  have hpq : p = q := by omega
  subst hpq
  have hlen : s.length = t.length := by omega
  exact ⟨rfl, (List.prefix_of_prefix_length_le hs.occurs ht.occurs hlen.le).eq_of_length hlen⟩

/-- The earliest occurrence in a prefix is the one of the whole text as soon as the
prefix contains the latter. -/
theorem Earliest.of_append (h : Earliest pats (text ++ tail) p pat) (hpats : ∀ s ∈ pats, s ≠ [])
    (hp : p + pat.length ≤ text.length) : Earliest pats text p pat where
  mem := h.mem
  occurs := h.occurs.of_append hp
  le s hs q hq := by
    have hle := hq.add_length_le (hpats s hs)
    exact h.le s hs q (hq.append tail (by omega))

def Free (pats : List (List α)) (text : List α) : Prop :=
  ∀ pat ∈ pats, ∀ p, ¬ OccursAt pat text p

theorem free_iff : Free pats text ↔ ∀ pat ∈ pats, ¬ pat <:+: text := by
  simp only [Free, ← exists_occursAt_iff, not_exists]

theorem free_nil (hpats : ∀ s ∈ pats, s ≠ []) : Free pats [] := by
  rw [free_iff]
  intro s hs hocc
  exact hpats s hs (List.infix_nil.mp hocc)

theorem Free.of_append (h : Free pats (text ++ tail)) : Free pats text := by
  rw [free_iff] at h ⊢
  exact fun s hs hocc => h s hs (hocc.trans (List.prefix_append text tail).isInfix)

/-- A text none of whose suffixes longer than `held` starts an occurrence that is
still incomplete. -/
def HoldsBack (pats : List (List α)) (text : List α) (held : ℕ) : Prop :=
  held ≤ text.length ∧ ∀ pat ∈ pats, ∀ n < pat.length, pat.take n <:+ text → n ≤ held

theorem holdsBack_nil (pats : List (List α)) : HoldsBack pats [] 0 := by
  refine ⟨le_rfl, fun pat _ n hn h => ?_⟩
  have hle := h.length_le
  rw [List.length_take, List.length_nil] at hle
  omega

theorem take_isSuffix_of_occursAt (h : OccursAt pat (text ++ tail) p) (hp : p ≤ text.length)
    (hlong : text.length ≤ p + pat.length) : pat.take (text.length - p) <:+ text := by
  rw [OccursAt, List.drop_append_of_le_length hp] at h
  have hpre : pat.take (text.length - p) <+: text.drop p := by
    refine List.prefix_of_prefix_length_le ((List.take_prefix _ _).trans h)
      (List.prefix_append _ _) ?_
    rw [List.length_take, List.length_drop]
    omega
  have heq : pat.take (text.length - p) = text.drop p := by
    refine hpre.eq_of_length ?_
    rw [List.length_take, List.length_drop]
    omega
  rw [heq]
  exact List.drop_suffix p text

/-- Without an occurrence in `text`, every occurrence in an extension of it starts in
the held suffix or later. -/
theorem HoldsBack.le_of_occursAt_append {held p : ℕ} (h : HoldsBack pats text held)
    (hpat : pat ∈ pats) (hfree : ∀ q, ¬ OccursAt pat text q) (hocc : OccursAt pat (text ++ chunk) p) :
    text.length - held ≤ p := by
  by_cases hp : p < text.length
  · have hcross : text.length < p + pat.length := by
      by_contra hle
      exact hfree p (hocc.of_append (by omega))
    have hsuffix := take_isSuffix_of_occursAt hocc hp.le hcross.le
    have hheld := h.2 pat hpat (text.length - p) (by omega) hsuffix
    omega
  · omega

/-- What a chunk leaves to hold back can be read off the held suffix and the chunk. -/
theorem HoldsBack.append {held held' : ℕ} (h : HoldsBack pats text held)
    (h' : HoldsBack pats (text.drop (text.length - held) ++ chunk) held') :
    HoldsBack pats (text ++ chunk) held' := by
  have hdrop : (text.drop (text.length - held)).length = held := by
    rw [List.length_drop]
    have := h.1
    omega
  have hsplit : text ++ chunk =
      text.take (text.length - held) ++ (text.drop (text.length - held) ++ chunk) := by
    rw [← List.append_assoc, List.take_append_drop]
  refine ⟨?_, fun pat hpat n hn hsuffix => ?_⟩
  · have hle := h'.1
    rw [List.length_append, hdrop] at hle
    rw [List.length_append]
    have := h.1
    omega
  · by_cases hshort : n ≤ held + chunk.length
    · refine h'.2 pat hpat n hn ?_
      refine List.suffix_of_suffix_length_le hsuffix ?_ ?_
      · rw [hsplit]
        exact List.suffix_append _ _
      · rw [List.length_take, List.length_append, hdrop]
        omega
    · -- a longer partial occurrence would already cross the held suffix of `text`
      exfalso
      have hpart : pat.take (n - chunk.length) <:+ text := by
        obtain ⟨head, hhead⟩ := hsuffix
        have hlen := congrArg List.length hhead
        rw [List.length_append, List.length_append, List.length_take,
          Nat.min_eq_left hn.le] at hlen
        have htake := congrArg (List.take text.length) hhead
        have hhead' : head.take text.length = head := List.take_of_length_le (by omega)
        have hrest : text.length - head.length = n - chunk.length := by omega
        rw [List.take_left, List.take_append, hhead', hrest, List.take_take,
          Nat.min_eq_left (by omega)] at htake
        exact ⟨head, htake⟩
      have := h.2 pat hpat (n - chunk.length) (by omega) hpart
      omega

/-- The search for an earliest occurrence may start at the held suffix. -/
theorem HoldsBack.earliest_append_iff {held p : ℕ} (h : HoldsBack pats text held)
    (hfree : Free pats text) :
    Earliest pats (text ++ chunk) (text.length - held + p) pat ↔
      Earliest pats (text.drop (text.length - held) ++ chunk) p pat := by
  have hsplit : text ++ chunk =
      text.take (text.length - held) ++ (text.drop (text.length - held) ++ chunk) := by
    rw [← List.append_assoc, List.take_append_drop]
  have hlen : (text.take (text.length - held)).length = text.length - held := by
    rw [List.length_take]
    omega
  have hshift : ∀ s q, OccursAt s (text ++ chunk) (text.length - held + q) ↔
      OccursAt s (text.drop (text.length - held) ++ chunk) q := by
    intro s q
    have happend : OccursAt s
        (text.take (text.length - held) ++ (text.drop (text.length - held) ++ chunk))
        ((text.take (text.length - held)).length + q) ↔ _ := occursAt_append_left
    rwa [← hsplit, hlen] at happend
  constructor
  · intro he
    refine ⟨he.mem, (hshift _ _).mp he.occurs, fun s hs q hq => ?_⟩
    have := he.le s hs _ ((hshift s q).mpr hq)
    omega
  · intro he
    refine ⟨he.mem, (hshift _ _).mpr he.occurs, fun s hs q hq => ?_⟩
    have hge := h.le_of_occursAt_append hs (hfree s hs) hq
    obtain ⟨q', rfl⟩ := Nat.exists_eq_add_of_le hge
    have := he.le s hs q' ((hshift s q').mp hq)
    omega

end KiroProxy.Matching
