import Mathlib.Data.List.Basic
import Mathlib.Data.Nat.Find

/-!
# Cutting a growing text into segments

A rule says where the first segment of a text ends, if that is settled yet. It never changes
its mind when the text grows, so the segments that are complete in a part of the text are
those of the whole, however the text arrives.
-/

namespace KiroProxy.Segmentation

variable {α : Type}

/-- Where the first segment ends. -/
structure Rule (α : Type) where
  cut : List α → Option ℕ
  pos : ∀ {text n}, cut text = some n → 0 < n
  le_length : ∀ {text n}, cut text = some n → n ≤ text.length
  stable : ∀ {text n} tail, cut text = some n → cut (text ++ tail) = some n
  /-- An end with an element behind it is settled. -/
  settled : ∀ {text tail n}, cut (text ++ tail) = some n → n < text.length → cut text = some n

namespace Rule

variable (rule : Rule α)

def completedWithin : ℕ → List α → List (List α) × List α
  | 0, text => ([], text)
  | fuel + 1, text =>
    match rule.cut text with
    | none => ([], text)
    | some n =>
      let (segments, rest) := completedWithin fuel (text.drop n)
      (text.take n :: segments, rest)

def completed (text : List α) : List (List α) × List α :=
  rule.completedWithin text.length text

/-- All segments; what is left at the end is one more. -/
def segments (text : List α) : List (List α) :=
  (rule.completed text).1 ++ if (rule.completed text).2 = [] then [] else [(rule.completed text).2]

variable {rule} {text tail : List α} {n fuel : ℕ}

theorem length_drop_lt (rule : Rule α) {text : List α} {n : ℕ} (h : rule.cut text = some n) :
    (text.drop n).length < text.length := by
  have hpos := rule.pos h
  have hle := rule.le_length h
  rw [List.length_drop]
  omega

theorem completedWithin_congr {m : ℕ} (hn : text.length ≤ n) (hm : text.length ≤ m) :
    rule.completedWithin n text = rule.completedWithin m text := by
  induction n generalizing text m with
  | zero =>
    have hnil : text = [] := List.length_eq_zero_iff.mp (Nat.le_zero.mp hn)
    subst hnil
    cases m with
    | zero => rfl
    | succ m =>
      rw [completedWithin, completedWithin]
      cases hcut : rule.cut [] with
      | none => rfl
      | some n => exact absurd (rule.length_drop_lt hcut) (Nat.not_lt_zero _)
  | succ n ih =>
    cases hcut : rule.cut text with
    | none =>
      cases m with
      | zero => rw [completedWithin, completedWithin, hcut]
      | succ m => rw [completedWithin, completedWithin, hcut]
    | some k =>
      have hlt := rule.length_drop_lt hcut
      obtain ⟨m, rfl⟩ : ∃ m', m = m' + 1 := ⟨m - 1, by omega⟩
      rw [completedWithin, completedWithin, hcut]
      dsimp only
      rw [ih (m := m) (by omega) (by omega)]

theorem completed_of_none (rule : Rule α) {text : List α} (h : rule.cut text = none) :
    rule.completed text = ([], text) := by
  rw [completed]
  cases text.length with
  | zero => rfl
  | succ _ => rw [completedWithin, h]

theorem completed_of_some (rule : Rule α) {text : List α} {n : ℕ} (h : rule.cut text = some n) :
    rule.completed text =
      (text.take n :: (rule.completed (text.drop n)).1, (rule.completed (text.drop n)).2) := by
  have hlt := rule.length_drop_lt h
  rw [completed, completedWithin_congr le_rfl (Nat.le_succ text.length), completedWithin, h]
  dsimp only
  rw [completedWithin_congr (Nat.le_of_lt hlt) le_rfl]
  rfl

/-- Induction along the segments of a text. -/
theorem induction_on (rule : Rule α) {motive : List α → Prop} (text : List α)
    (stuck : ∀ text, rule.cut text = none → motive text)
    (step : ∀ text n, rule.cut text = some n → motive (text.drop n) → motive text) :
    motive text := by
  induction hlength : text.length using Nat.strong_induction_on generalizing text with
  | _ length ih =>
    cases hcut : rule.cut text with
    | none => exact stuck text hcut
    | some n =>
      exact step text n hcut (ih _ (hlength ▸ rule.length_drop_lt hcut) _ rfl)

theorem flatten_completed (rule : Rule α) (text : List α) :
    (rule.completed text).1.flatten ++ (rule.completed text).2 = text := by
  induction text using rule.induction_on with
  | stuck text h => rw [rule.completed_of_none h]; rfl
  | step text n h ih =>
    rw [rule.completed_of_some h, List.flatten_cons, List.append_assoc, ih, List.take_append_drop]

theorem cut_rest (rule : Rule α) (text : List α) : rule.cut (rule.completed text).2 = none := by
  induction text using rule.induction_on with
  | stuck text h => rwa [rule.completed_of_none h]
  | step text n h ih => rwa [rule.completed_of_some h]

theorem ne_nil_of_mem_completed {segment : List α} (h : segment ∈ (rule.completed text).1) :
    segment ≠ [] := by
  induction text using rule.induction_on with
  | stuck text hcut =>
    rw [rule.completed_of_none hcut] at h
    cases h
  | step text n hcut ih =>
    rw [rule.completed_of_some hcut] at h
    rcases List.mem_cons.mp h with rfl | h
    · intro hnil
      have hpos := rule.pos hcut
      have hle := rule.le_length hcut
      have hlength := congrArg List.length hnil
      rw [List.length_take, List.length_nil] at hlength
      omega
    · exact ih h

/-- The segments that are complete before the text grows are the first of the longer text. -/
theorem completed_append (rule : Rule α) (text tail : List α) :
    rule.completed (text ++ tail) =
      ((rule.completed text).1 ++ (rule.completed ((rule.completed text).2 ++ tail)).1,
        (rule.completed ((rule.completed text).2 ++ tail)).2) := by
  induction text using rule.induction_on with
  | stuck text h => rw [rule.completed_of_none h]; rfl
  | step text n h ih =>
    have hle := rule.le_length h
    rw [rule.completed_of_some (rule.stable tail h), List.take_append_of_le_length hle,
      List.drop_append_of_le_length hle, ih, rule.completed_of_some h]
    rfl

theorem segments_append (rule : Rule α) (text tail : List α) :
    rule.segments (text ++ tail) =
      (rule.completed text).1 ++ rule.segments ((rule.completed text).2 ++ tail) := by
  rw [segments, completed_append, segments, List.append_assoc]

theorem flatten_segments (rule : Rule α) (text : List α) :
    (rule.segments text).flatten = text := by
  have hflatten := rule.flatten_completed text
  rw [segments, List.flatten_append]
  split_ifs with h
  · rw [h] at hflatten
    exact hflatten
  · simpa using hflatten

theorem ne_nil_of_mem_segments {segment : List α} (h : segment ∈ rule.segments text) :
    segment ≠ [] := by
  rw [segments, List.mem_append] at h
  rcases h with h | h
  · exact ne_nil_of_mem_completed h
  · split_ifs at h with hrest
    · cases h
    · rw [List.mem_singleton.mp h]
      exact hrest

/-- What is left of a text is the beginning of a segment of every longer one. -/
theorem rest_prefix_of_segments (rule : Rule α) (text tail : List α)
    (hne : (rule.completed text).2 ≠ []) :
    ∃ segment ∈ rule.segments (text ++ tail), (rule.completed text).2 <+: segment := by
  have hcut := rule.cut_rest text
  rw [segments_append]
  generalize (rule.completed text).2 = rest at hne hcut
  cases h : rule.cut (rest ++ tail) with
  | none =>
    refine ⟨rest ++ tail, ?_, List.prefix_append rest tail⟩
    rw [segments, rule.completed_of_none h, if_neg (by simp [hne])]
    simp
  | some n =>
    have hle : rest.length ≤ n := by
      by_contra hlt
      rw [rule.settled h (not_le.mp hlt)] at hcut
      cases hcut
    refine ⟨(rest ++ tail).take n, ?_, ?_⟩
    · rw [segments, rule.completed_of_some h]
      simp
    · rw [List.take_append, List.take_of_length_le hle]
      exact List.prefix_append _ _

section EndingWith

variable {isEnd : α → Bool}

theorem lt_of_findIdx? {n : ℕ} (h : text.findIdx? isEnd = some n) : n < text.length :=
  (List.findIdx?_eq_some_iff_getElem.mp h).1

/-- A segment ends with the first such element. -/
def endingWith (isEnd : α → Bool) : Rule α where
  cut text := (text.findIdx? isEnd).map (· + 1)
  pos h := by
    obtain ⟨n, -, rfl⟩ := Option.map_eq_some_iff.mp h
    exact Nat.succ_pos n
  le_length h := by
    obtain ⟨n, hn, rfl⟩ := Option.map_eq_some_iff.mp h
    exact lt_of_findIdx? hn
  stable tail h := by
    obtain ⟨n, hn, rfl⟩ := Option.map_eq_some_iff.mp h
    rw [List.findIdx?_append, hn]
    rfl
  settled {text tail n} h hlt := by
    obtain ⟨n, hn, rfl⟩ := Option.map_eq_some_iff.mp h
    rw [List.findIdx?_append] at hn
    cases htext : text.findIdx? isEnd with
    | some n' =>
      rw [htext] at hn
      exact congrArg _ hn
    | none =>
      rw [htext, Option.none_or] at hn
      obtain ⟨n', -, rfl⟩ := Option.map_eq_some_iff.mp hn
      omega

theorem completed_endingWith_append {line : List α} (hline : ∀ x ∈ line, isEnd x = false) {e : α}
    (he : isEnd e = true) (rest : List α) :
    (endingWith isEnd).completed (line ++ e :: rest) =
      ((line ++ [e]) :: ((endingWith isEnd).completed rest).1,
        ((endingWith isEnd).completed rest).2) := by
  have hcut : (endingWith isEnd).cut (line ++ e :: rest) = some (line.length + 1) := by
    have hnone : line.findIdx? isEnd = none := List.findIdx?_eq_none_iff.mpr hline
    simp [endingWith, List.findIdx?_append, hnone, List.findIdx?_cons, he]
  have hlength : (line ++ [e]).length = line.length + 1 := List.length_append
  rw [(endingWith isEnd).completed_of_some hcut, List.append_cons, ← hlength, List.take_left,
    List.drop_left]

theorem exists_of_mem_completed_endingWith {segment : List α}
    (h : segment ∈ ((endingWith isEnd).completed text).1) :
    ∃ line e, segment = line ++ [e] ∧ isEnd e = true := by
  induction text using (endingWith isEnd).induction_on with
  | stuck text hcut =>
    rw [(endingWith isEnd).completed_of_none hcut] at h
    cases h
  | step text n hcut ih =>
    rw [(endingWith isEnd).completed_of_some hcut] at h
    rcases List.mem_cons.mp h with rfl | h
    · obtain ⟨n, hn, rfl⟩ := Option.map_eq_some_iff.mp hcut
      obtain ⟨hlt, hend, -⟩ := List.findIdx?_eq_some_iff_getElem.mp hn
      exact ⟨text.take n, text[n], (List.take_append_getElem hlt).symm, hend⟩
    · exact ih h

end EndingWith

end Rule

end KiroProxy.Segmentation
