import Mathlib

/-!
# Days and months

Days are counted from the first of March of the year zero, so that a leap day is the last day of
its year, and months from that March on. A day belongs to one month, which starts at its first day.
-/

namespace KiroProxy.Calendar

/-- The first day of a year that starts in March. -/
def yearStart (year : ℤ) : ℤ := 365 * year + year / 4 - year / 100 + year / 400

/-- The days of a year before its month, counted from March. -/
def monthOffset (month : ℤ) : ℤ := (153 * month + 2) / 5

def monthStart (month : ℤ) : ℤ := yearStart (month / 12) + monthOffset (month % 12)

def yearOf (day : ℤ) : ℤ :=
  let year := day * 400 / 146097
  if yearStart (year + 1) ≤ day then year + 1 else year

def monthOf (day : ℤ) : ℤ :=
  let year := yearOf day
  12 * year + (5 * (day - yearStart year) + 2) / 153

theorem yearStart_yearOf (day : ℤ) :
    yearStart (yearOf day) ≤ day ∧ day < yearStart (yearOf day + 1) := by
  unfold yearOf yearStart
  dsimp only
  split_ifs with h
  · exact ⟨h, by omega⟩
  · exact ⟨by omega, by omega⟩

theorem monthStart_monthOf (day : ℤ) :
    monthStart (monthOf day) ≤ day ∧ day < monthStart (monthOf day + 1) := by
  obtain ⟨hstart, hend⟩ := yearStart_yearOf day
  unfold monthOf
  generalize yearOf day = year at hstart hend ⊢
  have hlength : yearStart (year + 1) ≤ yearStart year + 366 := by
    unfold yearStart
    omega
  obtain ⟨month, hmonth⟩ : ∃ month, month = (5 * (day - yearStart year) + 2) / 153 := ⟨_, rfl⟩
  have hoffset : monthOffset month ≤ day - yearStart year ∧
      day - yearStart year < monthOffset (month + 1) := by
    unfold monthOffset
    omega
  have hyear : (12 * year + month) / 12 = year ∧ (12 * year + month) % 12 = month := by omega
  dsimp only
  rw [← hmonth, monthStart, monthStart, hyear.1, hyear.2]
  refine ⟨by omega, ?_⟩
  by_cases hlast : month = 11
  · have hnext : (12 * year + month + 1) / 12 = year + 1 ∧ (12 * year + month + 1) % 12 = 0 := by
      omega
    rw [hnext.1, hnext.2, monthOffset]
    omega
  · have hnext : (12 * year + month + 1) / 12 = year ∧ (12 * year + month + 1) % 12 = month + 1 := by
      omega
    rw [hnext.1, hnext.2]
    omega

theorem monthStart_strictMono : StrictMono monthStart := by
  refine strictMono_int_of_lt_succ fun month => ?_
  unfold monthStart monthOffset yearStart
  omega

/-- The days of a month are those from its start to the start of the next one. -/
theorem monthOf_eq_iff {day month : ℤ} :
    monthOf day = month ↔ monthStart month ≤ day ∧ day < monthStart (month + 1) := by
  obtain ⟨hstart, hend⟩ := monthStart_monthOf day
  constructor
  · rintro rfl
    exact ⟨hstart, hend⟩
  · rintro ⟨hstart', hend'⟩
    have hle := monthStart_strictMono.lt_iff_lt.mp (hstart.trans_lt hend')
    have hge := monthStart_strictMono.lt_iff_lt.mp (hstart'.trans_lt hend)
    omega

theorem monthOf_mono : Monotone monthOf := by
  intro day day' hle
  by_contra hlt
  obtain ⟨hstart, -⟩ := monthStart_monthOf day
  obtain ⟨-, hend⟩ := monthStart_monthOf day'
  have hnext := monthStart_strictMono.monotone (Int.add_one_le_of_lt (not_le.mp hlt))
  omega

@[ext] structure Date where
  year : ℤ
  month : ℕ
  day : ℕ
  deriving DecidableEq

def dateOf (day : ℤ) : Date where
  year := (monthOf day + 2) / 12
  month := ((monthOf day + 2) % 12 + 1).toNat
  day := (day - monthStart (monthOf day) + 1).toNat

theorem monthStart_succ_le (month : ℤ) : monthStart (month + 1) ≤ monthStart month + 31 := by
  unfold monthStart
  by_cases hlast : month % 12 = 11
  · have hnext : (month + 1) / 12 = month / 12 + 1 ∧ (month + 1) % 12 = 0 := by omega
    rw [hnext.1, hnext.2, hlast]
    unfold yearStart monthOffset
    omega
  · have hnext : (month + 1) / 12 = month / 12 ∧ (month + 1) % 12 = month % 12 + 1 := by omega
    rw [hnext.1, hnext.2]
    unfold monthOffset
    omega

theorem dateOf_lt (day : ℤ) : (dateOf day).month < 100 ∧ (dateOf day).day < 100 := by
  obtain ⟨hstart, hend⟩ := monthStart_monthOf day
  have hlength := monthStart_succ_le (monthOf day)
  unfold dateOf
  dsimp only
  omega

theorem monthOf_eq_of_dateOf {day day' : ℤ} (hyear : (dateOf day).year = (dateOf day').year)
    (hmonth : (dateOf day).month = (dateOf day').month) : monthOf day = monthOf day' := by
  unfold dateOf at hyear hmonth
  dsimp only at hyear hmonth
  omega

theorem dateOf_injective {day day' : ℤ} (h : dateOf day = dateOf day') : day = day' := by
  have hmonth := monthOf_eq_of_dateOf (congrArg Date.year h) (congrArg Date.month h)
  have hday := congrArg Date.day h
  have hstart := (monthStart_monthOf day).1
  have hstart' := (monthStart_monthOf day').1
  unfold dateOf at hday
  dsimp only at hday
  rw [hmonth] at hday hstart
  omega

def twoDigits (n : ℕ) : List Char := [Nat.digitChar (n / 10), Nat.digitChar (n % 10)]

/-- Years of more than four digits and those before the year zero have a sign. -/
def yearText (year : ℤ) : List Char :=
  if 0 ≤ year ∧ year ≤ 9999 then
    twoDigits (year / 100).toNat ++ twoDigits (year % 100).toNat
  else (if year < 0 then '-' else '+') :: (Nat.toDigits 10 year.natAbs).leftpad 4 '0'

def valueOf (text : List Char) : ℕ := Nat.ofDigitChars 10 text 0

theorem valueOf_twoDigits : ∀ n < 100, valueOf (twoDigits n) = n := by decide

theorem twoDigits_injective {n n' : ℕ} (hn : n < 100) (hn' : n' < 100)
    (h : twoDigits n = twoDigits n') : n = n' := by
  rw [← valueOf_twoDigits n hn, h, valueOf_twoDigits n' hn']

theorem valueOf_leftpad (n width : ℕ) : valueOf ((Nat.toDigits 10 n).leftpad width '0') = n := by
  rw [valueOf, List.leftpad, Nat.ofDigitChars_append, Nat.ofDigitChars_replicate_zero, Nat.mul_zero,
    Nat.ofDigitChars_ten_toDigits]

theorem digitChar_ne_sign : ∀ n < 10, Nat.digitChar n ≠ '-' ∧ Nat.digitChar n ≠ '+' := by decide

theorem yearText_of_four {year : ℤ} (h : 0 ≤ year ∧ year ≤ 9999) :
    yearText year = twoDigits (year / 100).toNat ++ twoDigits (year % 100).toNat := if_pos h

theorem yearText_of_sign {year : ℤ} (h : ¬(0 ≤ year ∧ year ≤ 9999)) :
    yearText year =
      (if year < 0 then '-' else '+') :: (Nat.toDigits 10 year.natAbs).leftpad 4 '0' := if_neg h

/-- Only a year without four digits starts with a sign. -/
theorem yearText_ne {year year' : ℤ} (h : 0 ≤ year ∧ year ≤ 9999)
    (h' : ¬(0 ≤ year' ∧ year' ≤ 9999)) : yearText year ≠ yearText year' := by
  intro heq
  rw [yearText_of_four h, yearText_of_sign h'] at heq
  have hfirst := (List.cons.inj heq).1
  obtain ⟨hminus, hplus⟩ := digitChar_ne_sign ((year / 100).toNat / 10) (by omega)
  split_ifs at hfirst
  · exact hminus hfirst
  · exact hplus hfirst

theorem yearText_injective {year year' : ℤ} (h : yearText year = yearText year') :
    year = year' := by
  by_cases hfour : 0 ≤ year ∧ year ≤ 9999 <;> by_cases hfour' : 0 ≤ year' ∧ year' ≤ 9999
  · rw [yearText_of_four hfour, yearText_of_four hfour'] at h
    obtain ⟨hhigh, hlow⟩ := List.append_inj h rfl
    have hhigh := twoDigits_injective (by omega) (by omega) hhigh
    have hlow := twoDigits_injective (by omega) (by omega) hlow
    omega
  · exact absurd h (yearText_ne hfour hfour')
  · exact absurd h.symm (yearText_ne hfour' hfour)
  · rw [yearText_of_sign hfour, yearText_of_sign hfour'] at h
    obtain ⟨hsign, hdigits⟩ := List.cons.inj h
    have habs : year.natAbs = year'.natAbs := by
      rw [← valueOf_leftpad year.natAbs 4, hdigits, valueOf_leftpad]
    have hnegative : year < 0 ↔ year' < 0 := by
      by_cases hy : year < 0 <;> by_cases hy' : year' < 0 <;> simp [hy, hy'] at hsign ⊢
    omega

end KiroProxy.Calendar
