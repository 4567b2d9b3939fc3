import KiroProxy.UsageShaping.Breakdown

/-!
# Usages of cold requests

A request that hit no cache reports no read, and its input and its write together are no more than
the input it really had. The input and the write are set in three splits: they are fitted to the
real input, what is over the limit of the input goes to the write, and a write that is too small
goes back to the input.
-/

namespace KiroProxy.UsageShaping

open PromptCache.CreationControl

/-- The input and the write. -/
abbrev Split := ℤ × ℤ

def fitToRaw (usage : CacheUsage) (rawTotal : ℤ) : Split :=
  let input := min (max usage.inputTokens 0) rawTotal
  let input := if 0 < rawTotal ∧ input = 0 then 1 else input
  if 0 < usage.cacheCreationInputTokens then
    if input < rawTotal then (input, rawTotal - input)
    else
      let creation := max (min usage.cacheCreationInputTokens (saturate (rawTotal - 1))) 0
      (rawTotal - creation, creation)
  else if usageHasCache usage = true then (rawTotal, 0)
  else (input, 0)

def capInput (writes : Bool) (inputMaxTokens : ℤ) (split : Split) : Split :=
  if writes = true ∧ 0 < inputMaxTokens ∧ inputMaxTokens < split.1 then
    (inputMaxTokens, split.2 + (split.1 - inputMaxTokens))
  else split

def dropSmallWrite (minCacheCreationTokens : ℤ) (split : Split) : Split :=
  if 0 < split.2 ∧ split.2 < max minCacheCreationTokens 0 then (split.1 + split.2, 0) else split

def coldSplit (usage : CacheUsage) (rawTotal inputMaxTokens minCacheCreationTokens : ℤ) : Split :=
  dropSmallWrite minCacheCreationTokens
    (capInput (decide (0 < usage.cacheCreationInputTokens)) inputMaxTokens
      (fitToRaw usage rawTotal))

def constrainColdCacheUsage (usage raw : CacheUsage)
    (inputMaxTokens minCacheCreationTokens : ℤ) : CacheUsage :=
  if usageHasCache raw = true then usage
  else
    let split := coldSplit usage (reportedTotal raw) inputMaxTokens minCacheCreationTokens
    normalizeShapedCacheUsage { usage with
      cacheReadInputTokens := 0
      inputTokens := split.1
      cacheCreationInputTokens := split.2 }

/-- What every split keeps, with the real input and what the usage said before. -/
structure Fitted (usage : CacheUsage) (rawTotal : ℤ) (split : Split) : Prop where
  input : 0 ≤ split.1
  creation : 0 ≤ split.2
  sum : split.1 + split.2 ≤ rawTotal
  full : usageHasCache usage = true → split.1 + split.2 = rawTotal
  input_pos : 0 < rawTotal → 1 ≤ split.1
  written : usage.cacheCreationInputTokens ≤ 0 → split.2 = 0

section Splits

variable {usage : CacheUsage} {rawTotal inputMaxTokens minCacheCreationTokens : ℤ} {split : Split}

theorem usageHasCache_of_writes (h : 0 < usage.cacheCreationInputTokens) :
    usageHasCache usage = true := by
  simp [usageHasCache, h]

theorem fitted_fitToRaw (usage : CacheUsage) (hzero : 0 ≤ rawTotal) (hmax : rawTotal ≤ i32Max) :
    Fitted usage rawTotal (fitToRaw usage rawTotal) := by
  have hlow : i32Min ≤ -1 := by decide
  have hminus : saturate (rawTotal - 1) = rawTotal - 1 := saturate_of_isI32 ⟨by omega, by omega⟩
  unfold fitToRaw
  dsimp only
  rw [hminus]
  generalize hinput : (if 0 < rawTotal ∧ min (max usage.inputTokens 0) rawTotal = 0 then 1
    else min (max usage.inputTokens 0) rawTotal) = input
  have hbounds : 0 ≤ input ∧ input ≤ rawTotal ∧ (0 < rawTotal → 1 ≤ input) := by
    rw [← hinput]
    split_ifs <;> omega
  obtain ⟨hnonneg, hle, hpos⟩ := hbounds
  split_ifs with hwrites hless hcache
  · exact
      { input := hnonneg
        creation := by dsimp only; omega
        sum := by dsimp only; omega
        full := fun _ => by dsimp only; omega
        input_pos := hpos
        written := fun h => absurd h (by omega) }
  · exact
      { input := by dsimp only; omega
        creation := le_max_right _ _
        sum := by dsimp only; omega
        full := fun _ => by dsimp only; omega
        input_pos := fun h => by dsimp only; omega
        written := fun h => absurd h (by omega) }
  · exact
      { input := hzero
        creation := le_rfl
        sum := by dsimp only; omega
        full := fun _ => by dsimp only; omega
        input_pos := fun h => by dsimp only; omega
        written := fun _ => rfl }
  · exact
      { input := hnonneg
        creation := le_rfl
        sum := by dsimp only; omega
        full := fun h => absurd h hcache
        input_pos := hpos
        written := fun _ => rfl }

theorem Fitted.shift {split' : Split} (h : Fitted usage rawTotal split)
    (hsum : split'.1 + split'.2 = split.1 + split.2) (hinput : 1 ≤ split'.1)
    (hcreation : 0 ≤ split'.2) (hwritten : usage.cacheCreationInputTokens ≤ 0 → split'.2 = 0) :
    Fitted usage rawTotal split' where
  input := by omega
  creation := hcreation
  sum := hsum.trans_le h.sum
  full hcache := hsum.trans (h.full hcache)
  input_pos _ := hinput
  written := hwritten

theorem fitted_capInput (h : Fitted usage rawTotal split) : Fitted usage rawTotal
    (capInput (decide (0 < usage.cacheCreationInputTokens)) inputMaxTokens split) := by
  have hcreation := h.creation
  unfold capInput
  split_ifs with hcap
  · obtain ⟨hwrites, hpos, hlt⟩ := hcap
    rw [decide_eq_true_eq] at hwrites
    exact h.shift (by dsimp only; omega) (by dsimp only; omega) (by dsimp only; omega)
      (fun hnone => absurd hnone (by omega))
  · exact h

theorem fitted_dropSmallWrite (h : Fitted usage rawTotal split) :
    Fitted usage rawTotal (dropSmallWrite minCacheCreationTokens split) := by
  have hinput := h.input
  unfold dropSmallWrite
  split_ifs with hsmall
  · exact h.shift (by dsimp only; omega) (by dsimp only; omega) le_rfl (fun _ => rfl)
  · exact h

theorem fitted_coldSplit (usage : CacheUsage) (hzero : 0 ≤ rawTotal) (hmax : rawTotal ≤ i32Max) :
    Fitted usage rawTotal
      (coldSplit usage rawTotal inputMaxTokens minCacheCreationTokens) :=
  fitted_dropSmallWrite (fitted_capInput (fitted_fitToRaw usage hzero hmax))

theorem dropSmallWrite_le (h : 0 ≤ split.2) :
    (dropSmallWrite minCacheCreationTokens split).2 = 0 ∨
      minCacheCreationTokens ≤ (dropSmallWrite minCacheCreationTokens split).2 := by
  unfold dropSmallWrite
  split_ifs with hsmall
  · exact .inl rfl
  · omega

theorem capInput_le (hwrites : 0 < usage.cacheCreationInputTokens) (hpos : 0 < inputMaxTokens) :
    (capInput (decide (0 < usage.cacheCreationInputTokens)) inputMaxTokens split).1 ≤
      inputMaxTokens := by
  unfold capInput
  split_ifs with hcap
  · exact le_rfl
  · by_contra hlt
    exact hcap ⟨decide_eq_true hwrites, hpos, not_le.mp hlt⟩

theorem input_dropSmallWrite (h : 0 < (dropSmallWrite minCacheCreationTokens split).2) :
    dropSmallWrite minCacheCreationTokens split = split := by
  unfold dropSmallWrite at h ⊢
  split_ifs at h ⊢
  · exact absurd h (lt_irrefl 0)
  · rfl

theorem coldSplit_input_le (hwrites : 0 < usage.cacheCreationInputTokens)
    (hpos : 0 < inputMaxTokens)
    (h : 0 < (coldSplit usage rawTotal inputMaxTokens minCacheCreationTokens).2) :
    (coldSplit usage rawTotal inputMaxTokens minCacheCreationTokens).1 ≤ inputMaxTokens := by
  unfold coldSplit at h ⊢
  rw [input_dropSmallWrite h]
  exact capInput_le hwrites hpos

/-- A split that is fitted, capped and without a small write is its own split. -/
theorem coldSplit_eq_self {usage : CacheUsage} (hread : usage.cacheReadInputTokens = 0)
    (hinput : 0 ≤ usage.inputTokens) (hcreation : 0 ≤ usage.cacheCreationInputTokens)
    (hsum : usage.inputTokens + usage.cacheCreationInputTokens ≤ rawTotal)
    (hfull : 0 < usage.cacheCreationInputTokens →
      usage.inputTokens + usage.cacheCreationInputTokens = rawTotal)
    (hpos : 0 < rawTotal → 1 ≤ usage.inputTokens)
    (hmin : usage.cacheCreationInputTokens = 0 ∨
      minCacheCreationTokens ≤ usage.cacheCreationInputTokens)
    (hcap : 0 < usage.cacheCreationInputTokens → 0 < inputMaxTokens →
      usage.inputTokens ≤ inputMaxTokens) :
    coldSplit usage rawTotal inputMaxTokens minCacheCreationTokens =
      (usage.inputTokens, usage.cacheCreationInputTokens) := by
  have hfit : fitToRaw usage rawTotal = (usage.inputTokens, usage.cacheCreationInputTokens) := by
    unfold fitToRaw
    dsimp only
    have hone : ¬(0 < rawTotal ∧ usage.inputTokens = 0) := by omega
    rw [max_eq_left hinput, min_eq_left (by omega), if_neg hone]
    by_cases hwrites : 0 < usage.cacheCreationInputTokens
    · have hsplit := hfull hwrites
      rw [if_pos hwrites, if_pos (by omega), ← hsplit, add_sub_cancel_left]
    · have hnone : usageHasCache usage = false := by
        rw [usageHasCache_eq_false]
        omega
      have hzero : usage.cacheCreationInputTokens = 0 := by omega
      rw [if_neg hwrites, hnone, if_neg Bool.false_ne_true, hzero]
  have hcapped : capInput (decide (0 < usage.cacheCreationInputTokens)) inputMaxTokens
      (usage.inputTokens, usage.cacheCreationInputTokens) =
        (usage.inputTokens, usage.cacheCreationInputTokens) := by
    refine if_neg fun ⟨hwrites, hlimit, hlt⟩ => ?_
    exact absurd (hcap (of_decide_eq_true hwrites) hlimit) (not_le.mpr hlt)
  have hkept : dropSmallWrite minCacheCreationTokens
      (usage.inputTokens, usage.cacheCreationInputTokens) =
        (usage.inputTokens, usage.cacheCreationInputTokens) := by
    refine if_neg fun ⟨hwrites, hlt⟩ => ?_
    dsimp only at hwrites hlt
    omega
  rw [coldSplit, hfit, hcapped, hkept]

end Splits

/-- What a cold request may report. -/
structure ColdUsage (usage raw : CacheUsage) (inputMaxTokens minCacheCreationTokens : ℤ)
    (result : CacheUsage) : Prop where
  read : result.cacheReadInputTokens = 0
  input : 0 ≤ result.inputTokens
  creation : 0 ≤ result.cacheCreationInputTokens
  sum : result.inputTokens + result.cacheCreationInputTokens ≤ reportedTotal raw
  full : usageHasCache usage = true →
    result.inputTokens + result.cacheCreationInputTokens = reportedTotal raw
  input_pos : 0 < reportedTotal raw → 1 ≤ result.inputTokens
  creation_min : result.cacheCreationInputTokens = 0 ∨
    minCacheCreationTokens ≤ result.cacheCreationInputTokens
  written : usage.cacheCreationInputTokens ≤ 0 → result.cacheCreationInputTokens = 0
  capped : 0 < result.cacheCreationInputTokens → 0 < inputMaxTokens →
    result.inputTokens ≤ inputMaxTokens
  parts : result.cacheCreation5mInputTokens + result.cacheCreation1hInputTokens =
    result.cacheCreationInputTokens

section Constrain

variable {usage raw : CacheUsage} {inputMaxTokens minCacheCreationTokens : ℤ}

theorem fits_of_split {split : Split} (h : Fits usage)
    (hsplit : Fitted usage (reportedTotal raw) split) :
    Fits { usage with
      cacheReadInputTokens := 0
      inputTokens := split.1
      cacheCreationInputTokens := split.2 } := by
  have hmax := reportedTotal_le raw
  have hlow : i32Min ≤ 0 := by decide
  have hhigh : 0 ≤ i32Max := by decide
  have hinput := hsplit.input
  have hcreation := hsplit.creation
  have hsum := hsplit.sum
  exact { h with
    input := ⟨by dsimp only; omega, by dsimp only; omega⟩
    creation := ⟨by dsimp only; omega, by dsimp only; omega⟩
    read := ⟨hlow, hhigh⟩ }

theorem not_overfull_of_split {split : Split} (hsplit : Fitted usage (reportedTotal raw) split) :
    ¬OverfullUsage { usage with
      cacheReadInputTokens := 0
      inputTokens := split.1
      cacheCreationInputTokens := split.2 } := by
  rintro ⟨hlimit, -⟩
  have hmax := reportedTotal_le raw
  have hpos := hsplit.input_pos
  have hsum := hsplit.sum
  have hinput := hsplit.input
  have hhigh : 0 < i32Max := by decide
  dsimp only at hlimit
  omega

theorem constrainColdCacheUsage_eq (hraw : usageHasCache raw = false) :
    constrainColdCacheUsage usage raw inputMaxTokens minCacheCreationTokens =
      normalizeShapedCacheUsage { usage with
        cacheReadInputTokens := 0
        inputTokens :=
          (coldSplit usage (reportedTotal raw) inputMaxTokens minCacheCreationTokens).1
        cacheCreationInputTokens :=
          (coldSplit usage (reportedTotal raw) inputMaxTokens minCacheCreationTokens).2 } := by
  rw [constrainColdCacheUsage, hraw, if_neg Bool.false_ne_true]

theorem cacheReadInputTokens_constrain (hraw : usageHasCache raw = false) :
    (constrainColdCacheUsage usage raw inputMaxTokens
      minCacheCreationTokens).cacheReadInputTokens = 0 := by
  rw [constrainColdCacheUsage_eq hraw, cacheReadInputTokens_normalizeShaped, max_self]

theorem inputTokens_constrain (hraw : usageHasCache raw = false) :
    (constrainColdCacheUsage usage raw inputMaxTokens minCacheCreationTokens).inputTokens =
      (coldSplit usage (reportedTotal raw) inputMaxTokens minCacheCreationTokens).1 := by
  have hsplit := @fitted_coldSplit _ inputMaxTokens minCacheCreationTokens usage
    (reportedTotal_nonneg raw) (reportedTotal_le raw)
  rw [constrainColdCacheUsage_eq hraw, inputTokens_normalizeShaped]
  exact max_eq_left hsplit.input

theorem cacheCreationInputTokens_constrain (hraw : usageHasCache raw = false) :
    (constrainColdCacheUsage usage raw inputMaxTokens
      minCacheCreationTokens).cacheCreationInputTokens =
        (coldSplit usage (reportedTotal raw) inputMaxTokens minCacheCreationTokens).2 := by
  have hsplit := @fitted_coldSplit _ inputMaxTokens minCacheCreationTokens usage
    (reportedTotal_nonneg raw) (reportedTotal_le raw)
  rw [constrainColdCacheUsage_eq hraw, cacheCreationInputTokens_normalizeShaped]
  exact max_eq_left hsplit.creation

theorem coldUsage_constrain (h : Fits usage) (hraw : usageHasCache raw = false) :
    ColdUsage usage raw inputMaxTokens minCacheCreationTokens
      (constrainColdCacheUsage usage raw inputMaxTokens minCacheCreationTokens) := by
  have hsplit := @fitted_coldSplit _ inputMaxTokens minCacheCreationTokens usage
    (reportedTotal_nonneg raw) (reportedTotal_le raw)
  have hinput := @inputTokens_constrain usage raw inputMaxTokens minCacheCreationTokens hraw
  have hcreation :=
    @cacheCreationInputTokens_constrain usage raw inputMaxTokens minCacheCreationTokens hraw
  have hparts := (parts_normalizeShaped_iff (fits_of_split h hsplit)).mpr
    (not_overfull_of_split hsplit)
  rw [← constrainColdCacheUsage_eq hraw] at hparts
  refine
    { read := cacheReadInputTokens_constrain hraw
      input := hinput.symm ▸ hsplit.input
      creation := hcreation.symm ▸ hsplit.creation
      sum := ?_
      full := ?_
      input_pos := hinput.symm ▸ hsplit.input_pos
      creation_min := ?_
      written := hcreation.symm ▸ hsplit.written
      capped := ?_
      parts := hparts }
  · rw [hinput, hcreation]
    exact hsplit.sum
  · rw [hinput, hcreation]
    exact hsplit.full
  · rw [hcreation]
    exact dropSmallWrite_le (fitted_capInput
      (fitted_fitToRaw usage (reportedTotal_nonneg raw) (reportedTotal_le raw))).creation
  · rw [hinput, hcreation]
    intro hpos hlimit
    by_cases hwrites : 0 < usage.cacheCreationInputTokens
    · exact coldSplit_input_le hwrites hlimit hpos
    · exact absurd (hsplit.written (not_lt.mp hwrites)) hpos.ne'

/-- A constrained usage is settled, so that constraining it again finds its own split. -/
theorem constrain_of_coldUsage {result : CacheUsage} (hsettled : Settled result)
    (h : ColdUsage usage raw inputMaxTokens minCacheCreationTokens result)
    (hraw : usageHasCache raw = false) :
    constrainColdCacheUsage result raw inputMaxTokens minCacheCreationTokens = result := by
  have hfull : 0 < result.cacheCreationInputTokens →
      result.inputTokens + result.cacheCreationInputTokens = reportedTotal raw := by
    intro hpos
    refine h.full (usageHasCache_of_writes ?_)
    by_contra hnone
    exact hpos.ne' (h.written (not_lt.mp hnone))
  have hsplit : coldSplit result (reportedTotal raw) inputMaxTokens minCacheCreationTokens =
      (result.inputTokens, result.cacheCreationInputTokens) :=
    coldSplit_eq_self h.read h.input h.creation h.sum hfull h.input_pos h.creation_min h.capped
  rw [constrainColdCacheUsage_eq hraw, hsplit]
  dsimp only
  rw [← h.read]
  exact normalizeShaped_of_settled hsettled

/-- A cold request reports no read, and input and write within its real input; constraining its
usage again changes nothing. -/
theorem constrainColdCacheUsage_cold (usage raw : CacheUsage)
    (inputMaxTokens minCacheCreationTokens : ℤ) (h : Fits usage)
    (hraw : usageHasCache raw = false) :
    ColdUsage usage raw inputMaxTokens minCacheCreationTokens
        (constrainColdCacheUsage usage raw inputMaxTokens minCacheCreationTokens) ∧
      constrainColdCacheUsage
          (constrainColdCacheUsage usage raw inputMaxTokens minCacheCreationTokens) raw
          inputMaxTokens minCacheCreationTokens =
        constrainColdCacheUsage usage raw inputMaxTokens minCacheCreationTokens := by
  have hsplit := @fitted_coldSplit _ inputMaxTokens minCacheCreationTokens usage
    (reportedTotal_nonneg raw) (reportedTotal_le raw)
  have hcold := @coldUsage_constrain usage raw inputMaxTokens minCacheCreationTokens h hraw
  refine ⟨hcold, constrain_of_coldUsage ?_ hcold hraw⟩
  rw [constrainColdCacheUsage_eq hraw]
  exact settled_normalizeShaped (fits_of_split h hsplit)

theorem constrainColdCacheUsage_cold_of_small :
    (constrainColdCacheUsage ⟨0, 60000, 10, 5000, 70, 5000, 0⟩ ⟨40000, 40000, 0, 0, 0, 0, 0⟩ 20000
      1024).inputTokens ≤ 20000 := by
  have hcold := (constrainColdCacheUsage_cold ⟨0, 60000, 10, 5000, 70, 5000, 0⟩
    ⟨40000, 40000, 0, 0, 0, 0, 0⟩ 20000 1024
    ⟨by decide, by decide, by decide, by decide, by decide, by decide, by decide⟩ (by decide)).1
  exact hcold.capped (by decide) (by decide)

end Constrain

end KiroProxy.UsageShaping
