import Mathlib.Data.Rat.Floor

/-!
# Floating-point numbers

The numbers that a program computes in floating-point arithmetic are arbitrary here. Only what
comes out of them as an integer is described: a conversion saturates, and a number that was clamped
between integers gives an integer between them, unless it is not a number and gives zero.
-/

namespace KiroProxy

structure Floats (F : Type) where
  ofInt : ℤ → F
  ofRat : ℚ → F
  add : F → F → F
  sub : F → F → F
  mul : F → F → F
  div : F → F → F
  min : F → F → F
  max : F → F → F
  clamp : F → F → F → F
  round : F → F
  ceil : F → F
  floor : F → F
  le : F → F → Bool
  lt : F → F → Bool
  isFinite : F → Bool
  isNan : F → Bool
  /-- Not below zero, or not a number. -/
  isNonneg : F → Bool
  /-- Above zero, or not a number. -/
  isPos : F → Bool
  toI32 : F → ℤ
  toI64 : F → ℤ
  toI32_mem : ∀ x, -2 ^ 31 ≤ toI32 x ∧ toI32 x ≤ 2 ^ 31 - 1
  toI32_clamp : ∀ x low high, low ≤ high → -2 ^ 31 ≤ low → high ≤ 2 ^ 31 - 1 → isNan x = false →
    low ≤ toI32 (clamp x (ofInt low) (ofInt high)) ∧
      toI32 (clamp x (ofInt low) (ofInt high)) ≤ high
  toI32_clamp_nan : ∀ x low high, isNan x = true → toI32 (clamp x low high) = 0
  toI32_min : ∀ x n, -2 ^ 31 ≤ n → n ≤ 2 ^ 31 - 1 → toI32 (min x (ofInt n)) ≤ n
  toI64_clamp : ∀ x low high, low ≤ high → -2 ^ 31 ≤ low → high ≤ 2 ^ 31 - 1 → isNan x = false →
    low ≤ toI64 (clamp x (ofInt low) (ofInt high)) ∧
      toI64 (clamp x (ofInt low) (ofInt high)) ≤ high
  toI64_clamp_nan : ∀ x low high, isNan x = true → toI64 (clamp x low high) = 0
  toI64_mem : ∀ x, -2 ^ 63 ≤ toI64 x ∧ toI64 x ≤ 2 ^ 63 - 1
  toI64_nonneg : ∀ x, isNonneg x = true → 0 ≤ toI64 x
  isNonneg_ofInt : ∀ n, 0 ≤ n → isNonneg (ofInt n) = true
  isNonneg_clamp : ∀ x q, 0 ≤ q → isNonneg (clamp x (ofInt 0) (ofRat q)) = true
  isPos_sub_clamp : ∀ x q, 0 ≤ q → q < 1 →
    isPos (sub (ofInt 1) (clamp x (ofInt 0) (ofRat q))) = true
  isNonneg_mul : ∀ x y, isNonneg x = true → isNonneg y = true → isNonneg (mul x y) = true
  isNonneg_div : ∀ x y, isNonneg x = true → isPos y = true → isNonneg (div x y) = true
  isNonneg_round : ∀ x, isNonneg x = true → isNonneg (round x) = true
  isNan_of_isFinite : ∀ x, isFinite x = true → isNan x = false
  isNan_round_mul : ∀ n x, isFinite x = true → isNan (round (mul (ofInt n) x)) = false
  isFinite_clamp : ∀ x low high, isFinite x = true → isFinite (clamp x low high) = true
  isFinite_zero : isFinite (ofInt 0) = true

namespace Floats

variable {F : Type} (fl : Floats F)

/-- A clamp to the counts of 32 bits gives a count, also of what is not a number. -/
theorem toI32_clamp_count (x : F) {high : ℤ} (hzero : 0 ≤ high) (hhigh : high ≤ 2 ^ 31 - 1) :
    0 ≤ fl.toI32 (fl.clamp x (fl.ofInt 0) (fl.ofInt high)) ∧
      fl.toI32 (fl.clamp x (fl.ofInt 0) (fl.ofInt high)) ≤ high := by
  cases hnan : fl.isNan x with
  | false => exact fl.toI32_clamp x 0 high hzero (by omega) hhigh hnan
  | true =>
    rw [fl.toI32_clamp_nan x _ _ hnan]
    exact ⟨le_rfl, hzero⟩

theorem toI64_clamp_count (x : F) {high : ℤ} (hzero : 0 ≤ high) (hhigh : high ≤ 2 ^ 31 - 1) :
    0 ≤ fl.toI64 (fl.clamp x (fl.ofInt 0) (fl.ofInt high)) ∧
      fl.toI64 (fl.clamp x (fl.ofInt 0) (fl.ofInt high)) ≤ high := by
  cases hnan : fl.isNan x with
  | false => exact fl.toI64_clamp x 0 high hzero (by omega) hhigh hnan
  | true =>
    rw [fl.toI64_clamp_nan x _ _ hnan]
    exact ⟨le_rfl, hzero⟩

end Floats

/-- The part of a number before the point. -/
def truncate (x : ℚ) : ℤ := if 0 ≤ x then ⌊x⌋ else ⌈x⌉

theorem truncate_clamp (x : ℚ) {low high : ℤ} (h : low ≤ high) :
    low ≤ truncate (max (low : ℚ) (min x high)) ∧ truncate (max (low : ℚ) (min x high)) ≤ high := by
  have hlow : (low : ℚ) ≤ max (low : ℚ) (min x high) := le_max_left _ _
  have hhigh : max (low : ℚ) (min x high) ≤ high :=
    max_le (by exact_mod_cast h) (min_le_right _ _)
  generalize max (low : ℚ) (min x high) = y at hlow hhigh ⊢
  unfold truncate
  split_ifs with hsign
  · exact ⟨Int.le_floor.mpr hlow, by exact_mod_cast (Int.floor_le y).trans hhigh⟩
  · exact ⟨by exact_mod_cast hlow.trans (Int.le_ceil y), Int.ceil_le.mpr hhigh⟩

theorem truncate_le {x : ℚ} {n : ℤ} (h : x ≤ n) : truncate x ≤ n := by
  unfold truncate
  split_ifs
  · exact_mod_cast (Int.floor_le x).trans h
  · exact Int.ceil_le.mpr h

theorem truncate_nonneg {x : ℚ} (h : 0 ≤ x) : 0 ≤ truncate x := by
  unfold truncate
  rw [if_pos h]
  exact Int.floor_nonneg.mpr h

/-- Exact arithmetic, in which every number is finite. -/
def rationalFloats : Floats ℚ where
  ofInt n := n
  ofRat x := x
  add x y := x + y
  sub x y := x - y
  mul x y := x * y
  div x y := x / y
  min x y := min x y
  max x y := max x y
  clamp x low high := max low (min x high)
  round x := if 0 ≤ x then ⌊x + 1 / 2⌋ else ⌈x - 1 / 2⌉
  ceil x := ⌈x⌉
  floor x := ⌊x⌋
  le x y := decide (x ≤ y)
  lt x y := decide (x < y)
  isFinite _ := true
  isNan _ := false
  isNonneg x := decide (0 ≤ x)
  isPos x := decide (0 < x)
  toI32 x := max (-2 ^ 31) (min (truncate x) (2 ^ 31 - 1))
  toI64 x := max (-2 ^ 63) (min (truncate x) (2 ^ 63 - 1))
  toI32_mem x := by omega
  toI32_clamp x low high h hlow hhigh _ := by
    obtain ⟨hge, hle⟩ := truncate_clamp x h
    omega
  toI32_clamp_nan x low high h := absurd h Bool.false_ne_true
  toI32_min x n hlow hhigh := by
    have hle := @truncate_le (min x n) n (min_le_right _ _)
    omega
  toI64_clamp x low high h hlow hhigh _ := by
    obtain ⟨hge, hle⟩ := truncate_clamp x h
    omega
  toI64_clamp_nan x low high h := absurd h Bool.false_ne_true
  toI64_mem x := by omega
  toI64_nonneg x h := by
    have hpos := truncate_nonneg (of_decide_eq_true h)
    omega
  isNonneg_ofInt n h := decide_eq_true (by exact_mod_cast h)
  isNonneg_clamp x q _ := decide_eq_true (le_max_left _ _)
  isPos_sub_clamp x q h hlt := by
    have hle : max ((0 : ℤ) : ℚ) (min x q) ≤ q := max_le h (min_le_right _ _)
    refine decide_eq_true (sub_pos.mpr (hle.trans_lt ?_))
    rw [Int.cast_one]
    exact hlt
  isNonneg_mul x y hx hy :=
    decide_eq_true (mul_nonneg (of_decide_eq_true hx) (of_decide_eq_true hy))
  isNonneg_div x y hx hy :=
    decide_eq_true (div_nonneg (of_decide_eq_true hx) (of_decide_eq_true hy).le)
  isNonneg_round x h := by
    have hx : 0 ≤ x := of_decide_eq_true h
    refine decide_eq_true ?_
    rw [if_pos hx]
    exact_mod_cast Int.floor_nonneg.mpr (add_nonneg hx (by norm_num))
  isNan_of_isFinite _ _ := rfl
  isNan_round_mul _ _ _ := rfl
  isFinite_clamp _ _ _ _ := rfl
  isFinite_zero := rfl

end KiroProxy
