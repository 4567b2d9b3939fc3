import KiroProxy.UsageShaping.SplitInput

/-!
# Totals of split usages

Input, read and write make up the total, and moving the input into its range keeps them so. Two sums
are taken with saturation: that of the cached tokens before they are cut to the total, and that of
the parts of a write of the largest size.
-/

namespace KiroProxy.UsageShaping

open PromptCache.CreationControl

structure Balanced (total : ℤ) (usage : CacheUsage) : Prop where
  input : 0 ≤ usage.inputTokens
  read : 0 ≤ usage.cacheReadInputTokens
  creation : 0 ≤ usage.cacheCreationInputTokens
  sum : usage.inputTokens + usage.cacheReadInputTokens + usage.cacheCreationInputTokens = total
  total_eq : usage.totalInputTokens = total

section Balanced

variable {usage : CacheUsage} {total target : ℤ}

theorem balanced_uncachedUsage (h : 0 ≤ total) (outputTokens : ℤ) :
    Balanced total (uncachedUsage total outputTokens) where
  input := h
  read := le_rfl
  creation := le_rfl
  sum := by simp [uncachedUsage]
  total_eq := rfl

theorem balanced_normalizeBreakdown (h : Balanced total usage) (hmax : total ≤ i32Max) :
    Balanced total (normalizeCacheUsageBreakdown usage) := by
  obtain ⟨hinput, hread, hcreation, hsum, -⟩ := h
  have htotal : reportedTotal usage = total := by
    rw [reportedTotal_eq]
    omega
  unfold normalizeCacheUsageBreakdown
  dsimp only
  rw [max_eq_left hinput, max_eq_left hread, max_eq_left hcreation]
  exact
    { input := hinput
      read := hread
      creation := hcreation
      sum := hsum
      total_eq := htotal }

theorem saturate_eq_self {value : ℤ} (hzero : 0 ≤ value) (hmax : value ≤ i32Max) :
    saturate value = value := by
  rw [saturate_eq_min hzero, min_eq_left hmax]

namespace CacheSimulation

variable {F : Type} {fl : Floats F} {sim : CacheSimulation F}

theorem cacheCreation5m_moveInput (usage : CacheUsage) (total target : ℤ) :
    (moveInput usage total target).cacheCreation5mInputTokens =
      usage.cacheCreation5mInputTokens := by
  unfold moveInput
  dsimp only
  split_ifs <;> rfl

theorem cacheCreation1h_moveInput (usage : CacheUsage) (total target : ℤ) :
    (moveInput usage total target).cacheCreation1hInputTokens =
      usage.cacheCreation1hInputTokens := by
  unfold moveInput
  dsimp only
  split_ifs <;> rfl

theorem balanced_moveInput (h : Balanced total usage) (hmax : total ≤ i32Max) (hzero : 0 ≤ target)
    (hle : target ≤ total) :
    Balanced total (moveInput usage total target) ∧
      (moveInput usage total target).inputTokens = target := by
  obtain ⟨hinput, hread, hcreation, hsum, htotal⟩ := h
  unfold moveInput
  dsimp only
  split_ifs with hless hmore
  · generalize hcut : min usage.cacheCreationInputTokens (target - usage.inputTokens) = cut
    generalize hcutRead : min usage.cacheReadInputTokens (target - usage.inputTokens - cut) = cutRead
    have hrest : total - (usage.cacheCreationInputTokens - cut) -
        (usage.cacheReadInputTokens - cutRead) = target := by omega
    have hinner : saturate (total - (usage.cacheCreationInputTokens - cut)) =
        total - (usage.cacheCreationInputTokens - cut) :=
      saturate_eq_self (by omega) (by omega)
    have hmoved : max (saturate (saturate (total - (usage.cacheCreationInputTokens - cut)) -
        (usage.cacheReadInputTokens - cutRead))) 0 = target := by
      rw [hinner, hrest, saturate_eq_self hzero (by omega), max_eq_left hzero]
    rw [hmoved]
    exact ⟨⟨hzero, by dsimp only; omega, by dsimp only; omega, by dsimp only; omega, htotal⟩, rfl⟩
  · have hgrown : saturate (usage.cacheCreationInputTokens + (usage.inputTokens - target)) =
        usage.cacheCreationInputTokens + (usage.inputTokens - target) :=
      saturate_eq_self (by omega) (by omega)
    rw [hgrown]
    exact ⟨⟨hzero, hread, by dsimp only; omega, by dsimp only; omega, htotal⟩, rfl⟩
  · exact ⟨⟨hinput, hread, hcreation, hsum, htotal⟩, by omega⟩

theorem splitInputRangeTarget_mem {minTokens maxTokens : ℤ} (hzero : 0 ≤ minTokens)
    (h : minTokens ≤ maxTokens) :
    minTokens ≤ sim.splitInputRangeTarget usage minTokens maxTokens ∧
      sim.splitInputRangeTarget usage minTokens maxTokens ≤ maxTokens := by
  unfold splitInputRangeTarget
  dsimp only
  rw [max_eq_left hzero, max_eq_left h]
  split_ifs with hpoint
  · exact ⟨le_rfl, h⟩
  · generalize (splitmix64 _).toNat = hash
    have hmod := Nat.mod_lt hash (show 0 < (maxTokens - minTokens + 1).toNat by omega)
    omega

theorem rangeMin_nonneg (h : 0 ≤ total) : 0 ≤ sim.rangeMin total := by
  unfold rangeMin
  omega

theorem rangeMin_le_rangeMax : sim.rangeMin total ≤ sim.rangeMax total := by
  unfold rangeMax rangeMin
  split_ifs <;> omega

theorem rangeMax_le : sim.rangeMax total ≤ total := by
  unfold rangeMax
  split_ifs <;> omega

def Ranged (sim : CacheSimulation F) : Prop :=
  0 < sim.splitInputMinTokens ∨ 0 < sim.splitInputMaxTokens

/-- The input is left alone, or moved to a target in the range. -/
theorem applySplitInputRange_cases (hsplit : sim.splitCachedInput = true)
    (h : Balanced total usage) :
    (¬(0 < total ∧ sim.Ranged) ∧ sim.applySplitInputRange usage = usage) ∨
      (0 < total ∧ sim.Ranged) ∧ ∃ target, sim.rangeMin total ≤ target ∧
        target ≤ sim.rangeMax total ∧
        (sim.rangeMin total ≤ usage.inputTokens → usage.inputTokens ≤ sim.rangeMax total →
          target = usage.inputTokens) ∧
        sim.applySplitInputRange usage =
          normalizeCacheUsageBreakdown (moveInput usage total target) := by
  obtain ⟨hinput, hread, hcreation, hsum, htotal⟩ := h
  have hpos : 0 ≤ total := by omega
  have hmax : max usage.totalInputTokens 0 = total := by rw [htotal, max_eq_left hpos]
  have hle : usage.inputTokens ≤ total := by omega
  unfold applySplitInputRange
  rw [hsplit, if_neg Bool.true_eq_false_eq_False]
  dsimp only
  rw [hmax, max_eq_left hinput, max_eq_left hread, max_eq_left hcreation, min_eq_left hle]
  by_cases hzero : total ≤ 0
  · rw [if_pos hzero]
    exact .inl ⟨fun hrange => absurd hzero (by omega), rfl⟩
  · rw [if_neg hzero]
    have hranged : ¬(sim.rangeMin total ≤ 0 ∧ sim.splitInputMaxTokens ≤ 0) ↔ sim.Ranged := by
      unfold rangeMin Ranged
      omega
    by_cases hset : sim.Ranged
    · rw [if_neg (hranged.mpr hset)]
      refine .inr ⟨⟨by omega, hset⟩, ?_⟩
      split_ifs with hin
      · refine ⟨usage.inputTokens, hin.1, hin.2, fun _ _ => rfl, ?_⟩
        rw [moveInput, if_neg (lt_irrefl _), if_neg (lt_irrefl _)]
      · have hmem : sim.rangeMin total ≤
              sim.splitInputRangeTarget usage (sim.rangeMin total) (sim.rangeMax total) ∧
            sim.splitInputRangeTarget usage (sim.rangeMin total) (sim.rangeMax total) ≤
              sim.rangeMax total :=
          splitInputRangeTarget_mem (rangeMin_nonneg hpos) rangeMin_le_rangeMax
        obtain ⟨hlow, hhigh⟩ := hmem
        exact ⟨_, hlow, hhigh, fun hge hle => absurd ⟨hge, hle⟩ hin, rfl⟩
    · rw [if_pos (not_not.mp (mt hranged.mp hset))]
      exact .inl ⟨fun hrange => hset hrange.2, rfl⟩

structure Parted (usage : CacheUsage) : Prop where
  creation5m : 0 ≤ usage.cacheCreation5mInputTokens
  creation5m_le : usage.cacheCreation5mInputTokens ≤ i32Max
  creation1h : 0 ≤ usage.cacheCreation1hInputTokens
  parts : OverfullUsage usage ∨
    usage.cacheCreation5mInputTokens + usage.cacheCreation1hInputTokens ≤
      usage.cacheCreationInputTokens

theorem Parted.le_iff (h : Parted usage) :
    usage.cacheCreation5mInputTokens + usage.cacheCreation1hInputTokens ≤
      usage.cacheCreationInputTokens ↔ ¬OverfullUsage usage := by
  have h5m := h.creation5m
  have h1h := h.creation1h
  have hparts := h.parts
  unfold OverfullUsage Overfull at *
  omega

theorem parted_normalizeBreakdown (h5m : usage.cacheCreation5mInputTokens ≤ i32Max)
    (hzero : 0 ≤ usage.cacheCreationInputTokens) (hmax : usage.cacheCreationInputTokens ≤ i32Max) :
    Parted (normalizeCacheUsageBreakdown usage) ∧
      (OverfullUsage (normalizeCacheUsageBreakdown usage) ↔ OverfullUsage usage) := by
  have hpos : 0 ≤ i32Max := by decide
  unfold normalizeCacheUsageBreakdown
  dsimp only
  rw [max_eq_left hzero]
  by_cases hover : OverfullUsage usage
  · rw [capCacheCreationBreakdown_of_overfull hover]
    obtain ⟨hlimit, hlt⟩ := hover
    have hsame : OverfullUsage usage := ⟨hlimit, hlt⟩
    have hkept : Overfull (max usage.cacheCreation5mInputTokens 0)
        (max usage.cacheCreation1hInputTokens 0) usage.cacheCreationInputTokens :=
      ⟨hlimit, by omega⟩
    exact ⟨⟨le_max_right _ _, max_le h5m hpos, le_max_right _ _, .inl hkept⟩,
      fun _ => hsame, fun _ => hkept⟩
  · obtain ⟨h5m', h1h', hsum⟩ := capCacheCreationBreakdown_le h5m hzero hmax hover
    have hwithin : Parted { usage with
        totalInputTokens := 0
        cacheCreation5mInputTokens := (capCacheCreationBreakdown usage.cacheCreation5mInputTokens
          usage.cacheCreation1hInputTokens usage.cacheCreationInputTokens).1
        cacheCreation1hInputTokens := (capCacheCreationBreakdown usage.cacheCreation5mInputTokens
          usage.cacheCreation1hInputTokens usage.cacheCreationInputTokens).2 } :=
      ⟨h5m', by dsimp only; omega, h1h', .inr hsum⟩
    have hnot := hwithin.le_iff.mp hsum
    exact ⟨⟨h5m', hwithin.creation5m_le, h1h', .inr hsum⟩,
      fun hkept => absurd hkept hnot, fun hkept => absurd hkept hover⟩

/-- Only a write that stays of the largest size stays overfull. -/
theorem overfull_moveInput_iff (h : Balanced total usage) (hparted : Parted usage)
    (hmax : total ≤ i32Max) (hzero : 0 ≤ target) (hle : target ≤ total) :
    OverfullUsage (moveInput usage total target) ↔ OverfullUsage usage ∧ target = 0 := by
  obtain ⟨hmoved, htarget⟩ := @balanced_moveInput usage total target h hmax hzero hle
  obtain ⟨-, hread', hcreation', hsum', -⟩ := hmoved
  obtain ⟨hinput, hread, hcreation, hsum, -⟩ := h
  have hover := hparted.le_iff
  unfold OverfullUsage at hover ⊢
  rw [cacheCreation5m_moveInput, cacheCreation1h_moveInput]
  constructor
  · rintro ⟨hlimit, hlt⟩
    have hfive := hparted.creation5m
    have hone := hparted.creation1h
    exact ⟨not_not.mp fun hnot => absurd (hover.mpr hnot) (by omega), by omega⟩
  · rintro ⟨⟨hlimit, hlt⟩, rfl⟩
    have hzeroInput : usage.inputTokens = 0 := by omega
    refine ⟨?_, hlt⟩
    rw [moveInput, hzeroInput, if_neg (lt_irrefl _), if_neg (lt_irrefl _)]
    exact hlimit

/-- What moving the input into its range does to a balanced usage. -/
theorem applySplitInputRange_spec (hsplit : sim.splitCachedInput = true)
    (h : Balanced total usage) (hparted : Parted usage) (hmax : total ≤ i32Max) :
    Balanced total (sim.applySplitInputRange usage) ∧
      Parted (sim.applySplitInputRange usage) ∧
      (OverfullUsage (sim.applySplitInputRange usage) ↔
        OverfullUsage usage ∧ sim.splitInputMinTokens ≤ 0) ∧
      (0 < total → sim.Ranged →
        sim.rangeMin total ≤ (sim.applySplitInputRange usage).inputTokens ∧
          (sim.applySplitInputRange usage).inputTokens ≤ sim.rangeMax total) := by
  obtain ⟨hnot, heq⟩ | ⟨⟨hpos, hranged⟩, target, hlow, hhigh, hkeep, heq⟩ :=
    @applySplitInputRange_cases usage total F sim hsplit h
  · rw [heq]
    refine ⟨h, hparted, ⟨fun hover => ⟨hover, ?_⟩, And.left⟩,
      fun hpos hranged => absurd ⟨hpos, hranged⟩ hnot⟩
    obtain ⟨hlimit, -⟩ := hover
    have hbig : 0 < i32Max := by decide
    have hsum := h.sum
    have hinput := h.input
    have hread := h.read
    by_contra hmin
    exact hnot ⟨by omega, .inl (not_le.mp hmin)⟩
  · have hle : target ≤ total := hhigh.trans rangeMax_le
    have hzero : 0 ≤ target := (rangeMin_nonneg hpos.le).trans hlow
    obtain ⟨hmoved, htarget⟩ := @balanced_moveInput usage total target h hmax hzero hle
    have h5m : (moveInput usage total target).cacheCreation5mInputTokens ≤ i32Max :=
      (cacheCreation5m_moveInput usage total target).trans_le hparted.creation5m_le
    have hcreation : (moveInput usage total target).cacheCreationInputTokens ≤ i32Max := by
      have hsum := hmoved.sum
      have hinput := hmoved.input
      have hread := hmoved.read
      omega
    obtain ⟨hpartedMoved, hoverMoved⟩ := parted_normalizeBreakdown h5m hmoved.creation hcreation
    have hresult := balanced_normalizeBreakdown hmoved hmax
    have hinput : (normalizeCacheUsageBreakdown (moveInput usage total target)).inputTokens =
        target := (max_eq_left hmoved.input).trans htarget
    rw [heq]
    refine ⟨hresult, hpartedMoved, ?_, fun _ _ => hinput.symm ▸ ⟨hlow, hhigh⟩⟩
    rw [hoverMoved, overfull_moveInput_iff h hparted hmax hzero hle]
    refine and_congr_right fun ⟨hlimit, _⟩ => ?_
    have hsum := h.sum
    have hinputNonneg := h.input
    have hread := h.read
    have hmin : sim.rangeMin total ≤ 0 ↔ sim.splitInputMinTokens ≤ 0 := by
      unfold rangeMin
      omega
    rw [← hmin]
    constructor
    · rintro rfl
      exact hlow
    · intro hmin
      have hzeroInput : usage.inputTokens = 0 := by omega
      rw [hkeep (hmin.trans hinputNonneg) (by omega), hzeroInput]

theorem isI32_coveredTokens (total : ℤ) (coveredRatio : F) :
    IsI32 (coveredTokens fl total coveredRatio) :=
  fl.toI32_mem _

theorem parted_fill {parts : ℤ × ℤ} {creation : ℤ} (h5m : 0 ≤ parts.1) (h1h : 0 ≤ parts.2)
    (hsum : parts.1 + parts.2 ≤ creation) (hmax : creation ≤ i32Max) :
    0 ≤ (fillBreakdown parts creation).1 ∧ 0 ≤ (fillBreakdown parts creation).2 ∧
      (fillBreakdown parts creation).1 + (fillBreakdown parts creation).2 = creation := by
  have hassigned := @saturate_eq_self (parts.1 + parts.2) (by omega) (by omega)
  unfold fillBreakdown
  dsimp only
  rw [hassigned, saturate_eq_self (by omega) (by omega), max_eq_left (by omega)]
  split_ifs with hrest hhour
  · exact ⟨h5m, by dsimp only; omega, by dsimp only; omega⟩
  · exact ⟨by dsimp only; omega, h1h, by dsimp only; omega⟩
  · exact ⟨h5m, h1h, by omega⟩

/-- The parts that are cut to a write and filled up to it. -/
theorem fill_cap {cache5m cache1h creation : ℤ} (h5m : cache5m ≤ i32Max) (hzero : 0 ≤ creation)
    (hmax : creation ≤ i32Max) :
    let parts := fillBreakdown (capCacheCreationBreakdown cache5m cache1h creation) creation
    0 ≤ parts.1 ∧ parts.1 ≤ i32Max ∧ 0 ≤ parts.2 ∧
      (Overfull parts.1 parts.2 creation ∨ parts.1 + parts.2 ≤ creation) ∧
      (Overfull parts.1 parts.2 creation ↔ Overfull cache5m cache1h creation) := by
  dsimp only
  have hpos : 0 ≤ i32Max := by decide
  by_cases hover : Overfull cache5m cache1h creation
  · have hsame : fillBreakdown (capCacheCreationBreakdown cache5m cache1h creation) creation =
        (max cache5m 0, max cache1h 0) := by
      rw [capCacheCreationBreakdown_of_overfull hover]
      obtain ⟨rfl, hlt⟩ := hover
      unfold fillBreakdown
      dsimp only
      rw [remainder_eq_zero le_rfl hlt.le, if_neg (lt_irrefl _)]
    rw [hsame]
    have hkept : Overfull (max cache5m 0) (max cache1h 0) creation := by
      unfold Overfull at hover ⊢
      omega
    exact ⟨le_max_right _ _, max_le h5m hpos, le_max_right _ _, .inl hkept, fun _ => hover,
      fun _ => hkept⟩
  · obtain ⟨hcap5m, hcap1h, hcap⟩ := capCacheCreationBreakdown_le h5m hzero hmax hover
    obtain ⟨hfill5m, hfill1h, hfill⟩ := parted_fill hcap5m hcap1h hcap hmax
    generalize fillBreakdown (capCacheCreationBreakdown cache5m cache1h creation) creation = parts
      at hfill5m hfill1h hfill ⊢
    have hnot : ¬Overfull parts.1 parts.2 creation := by
      unfold Overfull
      omega
    exact ⟨hfill5m, by omega, hfill1h, .inr hfill.le, fun h => absurd h hnot,
      fun h => absurd h hover⟩

/-- The numbers of a simulation have 32 bits. -/
structure Fits (sim : CacheSimulation F) : Prop where
  creation : IsI32 sim.cacheCreationInputTokens
  read : IsI32 sim.cacheReadInputTokens
  creation5m : IsI32 sim.cacheCreation5mInputTokens
  creation1h : IsI32 sim.cacheCreation1hInputTokens

def cachedTokens (sim : CacheSimulation F) : ℤ :=
  saturate (max sim.cacheReadInputTokens 0 + max sim.cacheCreationInputTokens 0)

/-- The whole total is a write of the largest size, and its parts are too many. -/
def OverfullRatio (fl : Floats F) (sim : CacheSimulation F) (total : ℤ) (coveredRatio : F) : Prop :=
  total = i32Max ∧ coveredTokens fl i32Max coveredRatio = i32Max ∧ 0 < sim.cachedTokens ∧
    readTokens fl i32Max (max sim.cacheReadInputTokens 0) sim.cachedTokens ≤ 0 ∧
    i32Max < max sim.cacheCreation5mInputTokens 0 + max sim.cacheCreation1hInputTokens 0

theorem parted_uncachedUsage (total outputTokens : ℤ) :
    Parted (uncachedUsage total outputTokens) ∧ ¬OverfullUsage (uncachedUsage total outputTokens) := by
  have hbig : 0 < i32Max := by decide
  exact ⟨⟨le_rfl, hbig.le, le_rfl, .inr le_rfl⟩, fun hover => absurd hover.1 hbig.ne⟩

theorem toSplitRatioUsage_spec (hfits : sim.Fits) {outputTokens : ℤ} {coveredRatio : F}
    (hzero : 0 ≤ total) (hmax : total ≤ i32Max) :
    Balanced total (sim.toSplitRatioUsage fl total total outputTokens coveredRatio) ∧
      Parted (sim.toSplitRatioUsage fl total total outputTokens coveredRatio) ∧
      (OverfullUsage (sim.toSplitRatioUsage fl total total outputTokens coveredRatio) ↔
        OverfullRatio fl sim total coveredRatio) := by
  have hbig : 0 < i32Max := by decide
  obtain ⟨-, hcovered⟩ := @isI32_coveredTokens F fl total coveredRatio
  obtain ⟨hparted, hover⟩ := parted_uncachedUsage total outputTokens
  have huncached := balanced_uncachedUsage hzero outputTokens
  have hnone (h : ¬OverfullRatio fl sim total coveredRatio) :
      OverfullUsage (uncachedUsage total outputTokens) ↔ OverfullRatio fl sim total coveredRatio :=
    ⟨fun hkept => absurd hkept hover, fun hratio => absurd hratio h⟩
  unfold toSplitRatioUsage
  dsimp only
  rw [max_eq_left hzero, max_self, if_neg (lt_irrefl total)]
  by_cases hempty : total ≤ 0
  · rw [if_pos hempty]
    refine ⟨huncached, hparted, hnone fun hratio => ?_⟩
    have htotal := hratio.1
    omega
  rw [if_neg hempty]
  generalize hcache : clampInt (coveredTokens fl total coveredRatio) 0 total = cacheTotal
  have hcacheLe : 0 ≤ cacheTotal ∧ cacheTotal ≤ total := by
    unfold clampInt at hcache
    omega
  have hcached : saturate (max sim.cacheReadInputTokens 0 + max sim.cacheCreationInputTokens 0) =
      sim.cachedTokens := rfl
  rw [hcached]
  by_cases hnothing : sim.cachedTokens ≤ 0 ∨ cacheTotal ≤ 0
  · rw [if_pos hnothing]
    refine ⟨huncached, hparted, hnone fun ⟨htotal, hfull, hcachedPos, _⟩ => ?_⟩
    unfold clampInt at hcache
    rw [htotal, hfull] at hcache
    omega
  rw [if_neg hnothing]
  generalize hread : clampInt (readTokens fl cacheTotal (max sim.cacheReadInputTokens 0)
    sim.cachedTokens) 0 cacheTotal = read
  have hreadLe : 0 ≤ read ∧ read ≤ cacheTotal := by
    unfold clampInt at hread
    omega
  have hwrite : saturate (cacheTotal - read) = cacheTotal - read :=
    saturate_eq_self (by omega) (by omega)
  have hinput : saturate (total - cacheTotal) = total - cacheTotal :=
    saturate_eq_self (by omega) (by omega)
  have hsum : saturate (saturate (total - cacheTotal + read) + (cacheTotal - read)) = total := by
    rw [@saturate_eq_self (total - cacheTotal + read) (by omega) (by omega),
      saturate_eq_self (by omega) (by omega)]
    omega
  obtain ⟨h5m, h5mLe, h1h, hparts, hkept⟩ := @fill_cap sim.cacheCreation5mInputTokens
    sim.cacheCreation1hInputTokens (cacheTotal - read) hfits.creation5m.2 (by omega) (by omega)
  rw [hwrite, hinput, hsum]
  refine ⟨⟨by dsimp only; omega, hreadLe.1, by dsimp only; omega, by dsimp only; omega, rfl⟩,
    ⟨h5m, h5mLe, h1h, hparts⟩, hkept.trans ?_⟩
  unfold Overfull OverfullRatio
  unfold clampInt at hcache hread
  constructor
  · rintro ⟨hlimit, hlt⟩
    obtain rfl : total = i32Max := by omega
    obtain rfl : cacheTotal = i32Max := by omega
    exact ⟨rfl, by omega, by omega, by omega, hlt⟩
  · rintro ⟨rfl, hfull, hcachedPos, hreadZero, hlt⟩
    obtain rfl : cacheTotal = i32Max := by omega
    exact ⟨by omega, hlt⟩

theorem cutCached_eq (hsum : max sim.cacheCreationInputTokens 0 + max sim.cacheReadInputTokens 0 ≤
    i32Max) (hzero : 0 ≤ total) :
    0 ≤ (sim.cutCached total).1 ∧ 0 ≤ (sim.cutCached total).2 ∧
      (sim.cutCached total).1 + (sim.cutCached total).2 =
        min (max sim.cacheCreationInputTokens 0 + max sim.cacheReadInputTokens 0) total := by
  have htotal := saturate_eq_self
    (show 0 ≤ max sim.cacheCreationInputTokens 0 + max sim.cacheReadInputTokens 0 by omega) hsum
  unfold cutCached
  dsimp only
  rw [htotal]
  split_ifs with hover
  · generalize hcut : min (max sim.cacheReadInputTokens 0) (max sim.cacheCreationInputTokens 0 +
      max sim.cacheReadInputTokens 0 - total) = cut
    rw [saturate_eq_self (by omega) (by omega)]
    exact ⟨by dsimp only; omega, by dsimp only; omega, by dsimp only; omega⟩
  · exact ⟨le_max_right _ _, le_max_right _ _, by dsimp only; omega⟩

theorem lt_cutCached (hfits : sim.Fits)
    (hsum : i32Max < max sim.cacheCreationInputTokens 0 + max sim.cacheReadInputTokens 0)
    (hzero : 0 ≤ total) (hmax : total ≤ i32Max) :
    0 ≤ (sim.cutCached total).1 ∧ 0 ≤ (sim.cutCached total).2 ∧
      total < (sim.cutCached total).1 + (sim.cutCached total).2 := by
  obtain ⟨-, hcreation⟩ := isI32_max_zero hfits.creation
  have htotal : saturate (max sim.cacheCreationInputTokens 0 + max sim.cacheReadInputTokens 0) =
      i32Max := by
    rw [saturate_eq_min (by omega), min_eq_right hsum.le]
  unfold cutCached
  dsimp only
  rw [htotal]
  split_ifs with hover
  · generalize hcut : min (max sim.cacheReadInputTokens 0) (i32Max - total) = cut
    rw [saturate_eq_self (by omega) (by omega)]
    exact ⟨by dsimp only; omega, by dsimp only; omega, by dsimp only; omega⟩
  · exact ⟨le_max_right _ _, le_max_right _ _, by dsimp only; omega⟩

theorem toCutUsage_spec (hsplit : sim.splitCachedInput = true)
    (hsum : max sim.cacheCreationInputTokens 0 + max sim.cacheReadInputTokens 0 ≤ i32Max)
    {outputTokens : ℤ} (hzero : 0 ≤ total) (hmax : total ≤ i32Max) :
    Balanced total (sim.toCutUsage total total outputTokens) ∧
      Parted (sim.toCutUsage total total outputTokens) ∧
      ¬OverfullUsage (sim.toCutUsage total total outputTokens) := by
  obtain ⟨hread, hcreation, hcut⟩ := @cutCached_eq total F sim hsum hzero
  unfold toCutUsage
  rw [hsplit]
  generalize sim.cutCached total = cached at hread hcreation hcut ⊢
  obtain ⟨read, creation⟩ := cached
  dsimp only at hread hcreation hcut ⊢
  rw [if_pos rfl, if_pos rfl]
  generalize hfive : min (max sim.cacheCreation5mInputTokens 0) creation = five
  have hrest : saturate (creation - five) = creation - five :=
    saturate_eq_self (by omega) (by omega)
  have hcached : saturate (creation + read) = creation + read :=
    saturate_eq_self (by omega) (by omega)
  have hinput : max (saturate (total - (creation + read))) 0 = total - (creation + read) := by
    rw [saturate_eq_self (by omega) (by omega), max_eq_left (by omega)]
  rw [hrest, hcached, hinput]
  generalize hone : min (max sim.cacheCreation1hInputTokens 0) (creation - five) = one
  have hparted : Parted
      { totalInputTokens := total
        inputTokens := total - (creation + read)
        outputTokens := max outputTokens 0
        cacheCreationInputTokens := creation
        cacheReadInputTokens := read
        cacheCreation5mInputTokens := five
        cacheCreation1hInputTokens := one } :=
    ⟨by dsimp only; omega, by dsimp only; omega, by dsimp only; omega,
      .inr (by dsimp only; omega)⟩
  exact ⟨⟨by dsimp only; omega, hread, hcreation, by dsimp only; omega, rfl⟩, hparted,
    hparted.le_iff.mp (by dsimp only; omega)⟩

/-- Nothing is left for the input, and moving it into a range without a minimum leaves it so. -/
theorem lt_sum_of_saturated (hsplit : sim.splitCachedInput = true) (hfits : sim.Fits)
    (hsum : i32Max < max sim.cacheCreationInputTokens 0 + max sim.cacheReadInputTokens 0)
    (hmin : sim.splitInputMinTokens ≤ 0) {outputTokens : ℤ} (hzero : 0 ≤ total)
    (hmax : total ≤ i32Max) :
    total < (sim.applySplitInputRange (sim.toCutUsage total total outputTokens)).inputTokens +
      (sim.applySplitInputRange (sim.toCutUsage total total outputTokens)).cacheReadInputTokens +
      (sim.applySplitInputRange
        (sim.toCutUsage total total outputTokens)).cacheCreationInputTokens := by
  obtain ⟨hread, hcreation, hcut⟩ := @lt_cutCached total F sim hfits hsum hzero hmax
  have hpos : 0 < i32Max := by decide
  unfold toCutUsage
  rw [hsplit]
  generalize sim.cutCached total = cached at hread hcreation hcut ⊢
  obtain ⟨read, creation⟩ := cached
  dsimp only at hread hcreation hcut ⊢
  rw [if_pos rfl, if_pos rfl]
  have hinput : max (saturate (total - saturate (creation + read))) 0 = 0 := by
    have hlow : i32Min ≤ 0 := by decide
    unfold saturate
    omega
  rw [hinput]
  unfold applySplitInputRange
  rw [hsplit, if_neg Bool.true_eq_false_eq_False]
  dsimp only
  have hlow : sim.rangeMin (max total 0) ≤ 0 := by
    unfold rangeMin
    omega
  have hhigh : 0 ≤ sim.rangeMax (max total 0) := by
    unfold rangeMax
    split_ifs <;> omega
  have hmid : min (max (0 : ℤ) 0) (max total 0) = 0 := by omega
  rw [hmid]
  split_ifs with hempty hunset hin
  · dsimp only
    omega
  · dsimp only
    omega
  · unfold normalizeCacheUsageBreakdown
    dsimp only
    omega
  · exact absurd ⟨hlow, hhigh⟩ hin

/-- What a split usage of a total has to be. -/
structure Conserved (sim : CacheSimulation F) (totalInputTokens : ℤ) (usage : CacheUsage) :
    Prop where
  output : 0 ≤ usage.outputTokens
  balanced : Balanced (max totalInputTokens 0) usage
  creation5m : 0 ≤ usage.cacheCreation5mInputTokens
  creation1h : 0 ≤ usage.cacheCreation1hInputTokens
  parts : usage.cacheCreation5mInputTokens + usage.cacheCreation1hInputTokens ≤
    usage.cacheCreationInputTokens
  range : 0 < totalInputTokens → sim.Ranged → sim.rangeMin totalInputTokens ≤ usage.inputTokens ∧
    usage.inputTokens ≤ sim.rangeMax totalInputTokens

/-- Without a ratio the sum of the cached tokens has 32 bits; with one the parts of the write do not
overfill it, or a minimum of the input takes from it. -/
def Sound (fl : Floats F) (sim : CacheSimulation F) (totalInputTokens : ℤ) : Prop :=
  match sim.targetCacheRatio with
  | none => max sim.cacheCreationInputTokens 0 + max sim.cacheReadInputTokens 0 ≤ i32Max
  | some ratio => ¬(OverfullRatio fl sim (max totalInputTokens 0) ratio ∧
      sim.splitInputMinTokens ≤ 0)

theorem outputTokens_applySplitInputRange (usage : CacheUsage) :
    (sim.applySplitInputRange usage).outputTokens = usage.outputTokens := by
  have hmove (usage : CacheUsage) (total target : ℤ) :
      (moveInput usage total target).outputTokens = usage.outputTokens := by
    unfold moveInput
    dsimp only
    split_ifs <;> rfl
  have hnormal (usage : CacheUsage) :
      (normalizeCacheUsageBreakdown usage).outputTokens = usage.outputTokens := rfl
  unfold applySplitInputRange
  dsimp only
  split_ifs
  · rfl
  · rfl
  · rfl
  · exact hnormal _
  · exact (hnormal _).trans (hmove _ _ _)

/-- A usage that is balanced and parted is conserved by the range unless it stays overfull. -/
theorem conserved_applySplitInputRange (hsplit : sim.splitCachedInput = true)
    {totalInputTokens : ℤ} (hmax : totalInputTokens ≤ i32Max) (houtput : 0 ≤ usage.outputTokens)
    (h : Balanced (max totalInputTokens 0) usage) (hparted : Parted usage) :
    sim.Conserved totalInputTokens (sim.applySplitInputRange usage) ↔
      ¬(OverfullUsage usage ∧ sim.splitInputMinTokens ≤ 0) := by
  have hbig : 0 ≤ i32Max := by decide
  obtain ⟨hbalanced, hresult, hover, hrange⟩ :=
    @applySplitInputRange_spec _ _ _ sim hsplit h hparted (max_le hmax hbig)
  rw [← hover, ← hresult.le_iff]
  refine ⟨Conserved.parts, fun hparts => ?_⟩
  refine ⟨(outputTokens_applySplitInputRange usage).symm ▸ houtput, hbalanced, hresult.creation5m,
    hresult.creation1h, hparts, fun hpos hranged => ?_⟩
  rw [max_eq_left hpos.le] at hrange
  exact hrange hpos hranged

/-- A split simulation without amplification conserves the total if it is sound, and, unless it has
no ratio and a minimum of the input, only then. -/
theorem toUsage_conserved (fl : Floats F) (sim : CacheSimulation F)
    (totalInputTokens outputTokens : ℤ) (hfits : sim.Fits) (htotal : IsI32 totalInputTokens)
    (hsplit : sim.splitCachedInput = true) (hamplification : sim.amplification = none) :
    (Sound fl sim totalInputTokens →
      sim.Conserved totalInputTokens (sim.toUsage fl totalInputTokens outputTokens)) ∧
    (sim.Conserved totalInputTokens (sim.toUsage fl totalInputTokens outputTokens) →
      Sound fl sim totalInputTokens ∨
        sim.targetCacheRatio = none ∧ 0 < sim.splitInputMinTokens) := by
  have hbig : 0 ≤ i32Max := by decide
  have hzero : 0 ≤ max totalInputTokens 0 := le_max_right _ _
  have hmax : max totalInputTokens 0 ≤ i32Max := max_le htotal.2 hbig
  unfold toUsage Sound
  rw [hamplification]
  dsimp only
  cases hratio : sim.targetCacheRatio with
  | some ratio =>
    dsimp only
    rw [if_pos hsplit]
    obtain ⟨hbalanced, hparted, hover⟩ := @toSplitRatioUsage_spec (max totalInputTokens 0) F fl sim
      hfits outputTokens ratio hzero hmax
    have houtput : 0 ≤ (sim.toSplitRatioUsage fl (max totalInputTokens 0) (max totalInputTokens 0)
        outputTokens ratio).outputTokens := by
      unfold toSplitRatioUsage uncachedUsage
      dsimp only
      split_ifs <;> exact le_max_right _ _
    have hiff := conserved_applySplitInputRange hsplit htotal.2 houtput hbalanced hparted
    rw [hover] at hiff
    exact ⟨hiff.mpr, fun hconserved => .inl (hiff.mp hconserved)⟩
  | none =>
    dsimp only
    rw [if_pos hsplit]
    constructor
    · intro hsum
      obtain ⟨hbalanced, hparted, hover⟩ := @toCutUsage_spec (max totalInputTokens 0) F sim hsplit
        hsum outputTokens hzero hmax
      exact (conserved_applySplitInputRange hsplit htotal.2 (le_max_right _ _) hbalanced
        hparted).mpr fun h => hover h.1
    · intro hconserved
      by_cases hsum : max sim.cacheCreationInputTokens 0 + max sim.cacheReadInputTokens 0 ≤ i32Max
      · exact .inl hsum
      · refine .inr ⟨rfl, ?_⟩
        by_contra hmin
        have hlt := @lt_sum_of_saturated (max totalInputTokens 0) F sim hsplit hfits
          (not_le.mp hsum) (not_lt.mp hmin) outputTokens hzero hmax
        exact absurd hconserved.balanced.sum hlt.ne'

/-- A read and a write that together have more than 32 bits. -/
def saturatingSimulation : CacheSimulation ℚ where
  cacheCreationInputTokens := 2147483647
  cacheReadInputTokens := 1
  cacheCreation5mInputTokens := 0
  cacheCreation1hInputTokens := 0
  targetCacheRatio := none
  amplification := none
  splitCachedInput := true
  splitInputMinTokens := 0
  splitInputMaxTokens := 0
  splitInputJitterSeed := 0

theorem not_conserved_saturatingSimulation :
    ¬saturatingSimulation.Conserved 100 (saturatingSimulation.toUsage rationalFloats 100 0) := by
  intro hconserved
  exact absurd hconserved.balanced.sum (by decide)

def readSimulation : CacheSimulation ℚ :=
  { saturatingSimulation with cacheCreationInputTokens := 0 }

theorem toUsage_conserved_of_read :
    readSimulation.Conserved 100 (readSimulation.toUsage rationalFloats 100 0) :=
  (toUsage_conserved rationalFloats readSimulation 100 0
    ⟨by decide, by decide, by decide, by decide⟩ (by decide) rfl rfl).1
    (show max (0 : ℤ) 0 + max 1 0 ≤ i32Max by decide)

end CacheSimulation

end Balanced

end KiroProxy.UsageShaping
