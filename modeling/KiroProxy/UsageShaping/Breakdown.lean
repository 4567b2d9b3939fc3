import KiroProxy.PromptCache.CreationControl

/-!
# Written tokens by their time to live

The tokens of a write are reported in two parts, those kept for five minutes and those kept for an
hour. The parts are cut to the write, and what they leave of it goes to one of them. The sum of the
parts is taken with saturation, so two parts that do not fit into 32 bits together pass for a write
of the largest size.
-/

namespace KiroProxy.UsageShaping

open PromptCache.CreationControl

def IsI32 (value : ℤ) : Prop := i32Min ≤ value ∧ value ≤ i32Max

instance (value : ℤ) : Decidable (IsI32 value) :=
  inferInstanceAs (Decidable (i32Min ≤ value ∧ value ≤ i32Max))

/-- Every field is a number of 32 bits. -/
structure Fits (usage : CacheUsage) : Prop where
  total : IsI32 usage.totalInputTokens
  input : IsI32 usage.inputTokens
  output : IsI32 usage.outputTokens
  creation : IsI32 usage.cacheCreationInputTokens
  read : IsI32 usage.cacheReadInputTokens
  creation5m : IsI32 usage.cacheCreation5mInputTokens
  creation1h : IsI32 usage.cacheCreation1hInputTokens

def reportedTotal (usage : CacheUsage) : ℤ :=
  saturate (saturate (max usage.inputTokens 0 + max usage.cacheReadInputTokens 0) +
    max usage.cacheCreationInputTokens 0)

def usageHasCache (usage : CacheUsage) : Bool :=
  decide (0 < usage.cacheReadInputTokens) || decide (0 < usage.cacheCreationInputTokens)

def capCacheCreationBreakdown (cache5m cache1h limit : ℤ) : ℤ × ℤ :=
  let limit := max limit 0
  let cache5m := max cache5m 0
  let cache1h := max cache1h 0
  let total := saturate (cache5m + cache1h)
  if limit ≤ 0 ∨ total ≤ 0 then (0, 0)
  else if total ≤ limit then (cache5m, cache1h)
  else
    let capped5m := cache5m * limit / total
    (capped5m, saturate (limit - capped5m))

def normalizeCacheUsageBreakdown (usage : CacheUsage) : CacheUsage :=
  let usage := { usage with
    inputTokens := max usage.inputTokens 0
    cacheReadInputTokens := max usage.cacheReadInputTokens 0
    cacheCreationInputTokens := max usage.cacheCreationInputTokens 0 }
  let breakdown := capCacheCreationBreakdown usage.cacheCreation5mInputTokens
    usage.cacheCreation1hInputTokens usage.cacheCreationInputTokens
  let usage := { usage with
    cacheCreation5mInputTokens := breakdown.1
    cacheCreation1hInputTokens := breakdown.2 }
  { usage with totalInputTokens := reportedTotal usage }

def normalizeShapedCacheUsage (usage : CacheUsage) : CacheUsage :=
  let usage := normalizeCacheUsageBreakdown usage
  let assigned := saturate (usage.cacheCreation5mInputTokens + usage.cacheCreation1hInputTokens)
  let remainder := max (saturate (usage.cacheCreationInputTokens - assigned)) 0
  if 0 < usage.cacheCreation1hInputTokens ∧ usage.cacheCreation5mInputTokens = 0 then
    { usage with
      cacheCreation1hInputTokens := saturate (usage.cacheCreation1hInputTokens + remainder) }
  else
    { usage with
      cacheCreation5mInputTokens := saturate (usage.cacheCreation5mInputTokens + remainder) }

variable {value : ℤ} (usage : CacheUsage)

theorem saturate_eq_min (h : 0 ≤ value) : saturate value = min value i32Max := by
  have hmin : i32Min ≤ 0 := by decide
  have hmax : 0 ≤ i32Max := by decide
  unfold saturate
  omega

theorem saturate_of_isI32 (h : IsI32 value) : saturate value = value := by
  obtain ⟨hlow, hhigh⟩ := h
  unfold saturate
  omega

theorem saturate_nonneg (h : 0 ≤ value) : 0 ≤ saturate value := by
  have hmax : 0 ≤ i32Max := by decide
  rw [saturate_eq_min h]
  omega

theorem isI32_max_zero (h : IsI32 value) : IsI32 (max value 0) := by
  have hmin : i32Min ≤ 0 := by decide
  have hmax : 0 ≤ i32Max := by decide
  unfold IsI32 at h ⊢
  omega

theorem reportedTotal_eq : reportedTotal usage =
    min (max usage.inputTokens 0 + max usage.cacheReadInputTokens 0 +
      max usage.cacheCreationInputTokens 0) i32Max := by
  have hinput : 0 ≤ max usage.inputTokens 0 + max usage.cacheReadInputTokens 0 := by omega
  have hmax : 0 ≤ i32Max := by decide
  unfold reportedTotal
  rw [saturate_eq_min hinput, saturate_eq_min (by omega)]
  omega

theorem reportedTotal_nonneg : 0 ≤ reportedTotal usage := by
  have hmax : 0 ≤ i32Max := by decide
  rw [reportedTotal_eq]
  omega

theorem reportedTotal_le : reportedTotal usage ≤ i32Max := by
  rw [reportedTotal_eq]
  omega

theorem usageHasCache_eq_false {usage : CacheUsage} : usageHasCache usage = false ↔
    usage.cacheReadInputTokens ≤ 0 ∧ usage.cacheCreationInputTokens ≤ 0 := by
  simp [usageHasCache]

section Cap

variable {cache5m cache1h limit : ℤ}

/-- The parts are within the write, unless their sum saturates at a write of the largest size. -/
def Overfull (cache5m cache1h limit : ℤ) : Prop :=
  limit = i32Max ∧ i32Max < max cache5m 0 + max cache1h 0

theorem capCacheCreationBreakdown_of_overfull (h : Overfull cache5m cache1h limit) :
    capCacheCreationBreakdown cache5m cache1h limit = (max cache5m 0, max cache1h 0) := by
  obtain ⟨rfl, hover⟩ := h
  have hpos : 0 < i32Max := by decide
  have htotal : saturate (max cache5m 0 + max cache1h 0) = i32Max := by
    rw [saturate_eq_min (by omega), min_eq_right hover.le]
  unfold capCacheCreationBreakdown
  dsimp only
  rw [htotal, max_eq_left hpos.le, if_neg (by omega), if_pos le_rfl]

theorem capCacheCreationBreakdown_eq_self (hlimit : limit ≤ i32Max) (h5m : 0 ≤ cache5m)
    (h1h : 0 ≤ cache1h) (h : cache5m + cache1h = limit) :
    capCacheCreationBreakdown cache5m cache1h limit = (cache5m, cache1h) := by
  have htotal : saturate (cache5m + cache1h) = limit := by
    rw [saturate_eq_min (by omega)]
    omega
  unfold capCacheCreationBreakdown
  dsimp only
  rw [max_eq_left h5m, max_eq_left h1h, max_eq_left (by omega), htotal]
  split_ifs with hzero
  · obtain rfl : cache5m = 0 := by omega
    obtain rfl : cache1h = 0 := by omega
    rfl
  · rfl
  · exact absurd le_rfl ‹_›

theorem capCacheCreationBreakdown_le (h5m : cache5m ≤ i32Max) (hzero : 0 ≤ limit)
    (hlimit : limit ≤ i32Max) (h : ¬Overfull cache5m cache1h limit) :
    0 ≤ (capCacheCreationBreakdown cache5m cache1h limit).1 ∧
      0 ≤ (capCacheCreationBreakdown cache5m cache1h limit).2 ∧
      (capCacheCreationBreakdown cache5m cache1h limit).1 +
        (capCacheCreationBreakdown cache5m cache1h limit).2 ≤ limit := by
  have hmax : 0 ≤ i32Max := by decide
  unfold Overfull at h
  unfold capCacheCreationBreakdown
  dsimp only
  rw [saturate_eq_min (by omega), max_eq_left hzero]
  split_ifs with hnone hfits
  · exact ⟨le_rfl, le_rfl, hzero⟩
  · exact ⟨le_max_right _ _, le_max_right _ _, by omega⟩
  · generalize htotal : min (max cache5m 0 + max cache1h 0) i32Max = total at hnone hfits ⊢
    have hpos : 0 < total := by omega
    have hshare : max cache5m 0 * limit / total ≤ limit := by
      refine Int.ediv_le_of_le_mul hpos ?_
      rw [mul_comm]
      exact Int.mul_le_mul_of_nonneg_left (by omega) hzero
    have hnonneg : 0 ≤ max cache5m 0 * limit / total :=
      Int.ediv_nonneg (Int.mul_nonneg (le_max_right _ _) hzero) hpos.le
    have hrest : saturate (limit - max cache5m 0 * limit / total) =
        limit - max cache5m 0 * limit / total := by
      rw [saturate_eq_min (by omega)]
      omega
    rw [hrest]
    exact ⟨hnonneg, by omega, by omega⟩

end Cap

section Normalize

variable {usage : CacheUsage}

@[simp] theorem inputTokens_normalizeShaped (usage : CacheUsage) :
    (normalizeShapedCacheUsage usage).inputTokens = max usage.inputTokens 0 := by
  unfold normalizeShapedCacheUsage
  dsimp only
  split_ifs <;> rfl

@[simp] theorem outputTokens_normalizeShaped (usage : CacheUsage) :
    (normalizeShapedCacheUsage usage).outputTokens = usage.outputTokens := by
  unfold normalizeShapedCacheUsage
  dsimp only
  split_ifs <;> rfl

@[simp] theorem cacheReadInputTokens_normalizeShaped (usage : CacheUsage) :
    (normalizeShapedCacheUsage usage).cacheReadInputTokens = max usage.cacheReadInputTokens 0 := by
  unfold normalizeShapedCacheUsage
  dsimp only
  split_ifs <;> rfl

@[simp] theorem cacheCreationInputTokens_normalizeShaped (usage : CacheUsage) :
    (normalizeShapedCacheUsage usage).cacheCreationInputTokens =
      max usage.cacheCreationInputTokens 0 := by
  unfold normalizeShapedCacheUsage
  dsimp only
  split_ifs <;> rfl

theorem totalInputTokens_normalizeShaped (usage : CacheUsage) :
    (normalizeShapedCacheUsage usage).totalInputTokens =
      reportedTotal (normalizeShapedCacheUsage usage) := by
  unfold normalizeShapedCacheUsage
  dsimp only
  split_ifs <;> rfl

/-- The parts of a usage are too many for its write of the largest size. -/
def OverfullUsage (usage : CacheUsage) : Prop :=
  Overfull usage.cacheCreation5mInputTokens usage.cacheCreation1hInputTokens
    usage.cacheCreationInputTokens

/-- What normalising leaves as it is. -/
structure Settled (usage : CacheUsage) : Prop where
  input : 0 ≤ usage.inputTokens
  read : 0 ≤ usage.cacheReadInputTokens
  creation : 0 ≤ usage.cacheCreationInputTokens
  creation_le : usage.cacheCreationInputTokens ≤ i32Max
  creation5m : 0 ≤ usage.cacheCreation5mInputTokens
  creation5m_le : usage.cacheCreation5mInputTokens ≤ i32Max
  creation1h : 0 ≤ usage.cacheCreation1hInputTokens
  creation1h_le : usage.cacheCreation1hInputTokens ≤ i32Max
  total : usage.totalInputTokens = reportedTotal usage
  parts : OverfullUsage usage ∨
    usage.cacheCreation5mInputTokens + usage.cacheCreation1hInputTokens =
      usage.cacheCreationInputTokens

theorem overfull_max_iff {cache5m cache1h limit : ℤ} :
    Overfull cache5m cache1h (max limit 0) ↔ Overfull cache5m cache1h limit := by
  have hmax : 0 < i32Max := by decide
  unfold Overfull
  omega

theorem remainder_eq_zero {creation assigned : ℤ} (hmax : creation ≤ i32Max)
    (h : creation ≤ assigned) : max (saturate (creation - saturate assigned)) 0 = 0 := by
  have hmin : i32Min ≤ 0 := by decide
  have hpos : 0 ≤ i32Max := by decide
  unfold saturate
  omega

theorem parts_of_overfull (h : Fits usage) (hover : OverfullUsage usage) :
    (normalizeShapedCacheUsage usage).cacheCreation5mInputTokens =
        max usage.cacheCreation5mInputTokens 0 ∧
      (normalizeShapedCacheUsage usage).cacheCreation1hInputTokens =
        max usage.cacheCreation1hInputTokens 0 := by
  have hcap := capCacheCreationBreakdown_of_overfull (overfull_max_iff.mpr hover)
  have h5m := saturate_of_isI32 (isI32_max_zero h.creation5m)
  have h1h := saturate_of_isI32 (isI32_max_zero h.creation1h)
  have hremainder : max (saturate (max usage.cacheCreationInputTokens 0 -
      saturate (max usage.cacheCreation5mInputTokens 0 +
        max usage.cacheCreation1hInputTokens 0))) 0 = 0 := by
    obtain ⟨hlimit, hsum⟩ := hover
    exact remainder_eq_zero (isI32_max_zero h.creation).2 (by omega)
  unfold normalizeShapedCacheUsage normalizeCacheUsageBreakdown
  dsimp only
  rw [hcap]
  dsimp only
  rw [hremainder, add_zero, add_zero, h5m, h1h]
  split_ifs <;> exact ⟨rfl, rfl⟩

theorem parts_of_not_overfull (h : Fits usage) (hover : ¬OverfullUsage usage) :
    0 ≤ (normalizeShapedCacheUsage usage).cacheCreation5mInputTokens ∧
      0 ≤ (normalizeShapedCacheUsage usage).cacheCreation1hInputTokens ∧
      (normalizeShapedCacheUsage usage).cacheCreation5mInputTokens +
        (normalizeShapedCacheUsage usage).cacheCreation1hInputTokens =
          max usage.cacheCreationInputTokens 0 := by
  obtain ⟨-, hcreation⟩ := isI32_max_zero h.creation
  obtain ⟨h5m, h1h, hsum⟩ := capCacheCreationBreakdown_le h.creation5m.2
    (le_max_right usage.cacheCreationInputTokens 0) hcreation
    (fun hmax => hover (overfull_max_iff.mp hmax))
  unfold normalizeShapedCacheUsage normalizeCacheUsageBreakdown
  dsimp only
  generalize capCacheCreationBreakdown usage.cacheCreation5mInputTokens
    usage.cacheCreation1hInputTokens (max usage.cacheCreationInputTokens 0) = breakdown at h5m h1h hsum ⊢
  have hassigned : saturate (breakdown.1 + breakdown.2) = breakdown.1 + breakdown.2 := by
    rw [saturate_eq_min (by omega)]
    omega
  rw [hassigned, @saturate_eq_min (max usage.cacheCreationInputTokens 0 - _) (by omega)]
  split_ifs with hhour
  · dsimp only
    rw [saturate_eq_min (by omega)]
    omega
  · dsimp only
    rw [saturate_eq_min (by omega)]
    omega

/-- With the parts of a normalised usage, only a write that came in overfull and is of the largest
size is overfull. -/
theorem overfull_of_parts_iff (h : Fits usage) {shaped : CacheUsage}
    (h5m : shaped.cacheCreation5mInputTokens =
      (normalizeShapedCacheUsage usage).cacheCreation5mInputTokens)
    (h1h : shaped.cacheCreation1hInputTokens =
      (normalizeShapedCacheUsage usage).cacheCreation1hInputTokens) :
    OverfullUsage shaped ↔ OverfullUsage usage ∧ shaped.cacheCreationInputTokens = i32Max := by
  unfold OverfullUsage Overfull
  rw [h5m, h1h]
  by_cases hover : OverfullUsage usage
  · obtain ⟨hfive, hone⟩ := parts_of_overfull h hover
    obtain ⟨hlimit, hlt⟩ := hover
    rw [hfive, hone]
    constructor
    · exact fun hshaped => ⟨⟨hlimit, hlt⟩, hshaped.1⟩
    · exact fun hshaped => ⟨hshaped.2, by omega⟩
  · obtain ⟨hfive, hone, hsum⟩ := parts_of_not_overfull h hover
    have hmax := (isI32_max_zero h.creation).2
    constructor
    · exact fun hshaped => absurd hshaped.2 (by omega)
    · exact fun hshaped => absurd hshaped.1 hover

theorem settled_normalizeShaped (h : Fits usage) : Settled (normalizeShapedCacheUsage usage) := by
  obtain ⟨-, hcreation⟩ := isI32_max_zero h.creation
  have hparts : 0 ≤ (normalizeShapedCacheUsage usage).cacheCreation5mInputTokens ∧
      (normalizeShapedCacheUsage usage).cacheCreation5mInputTokens ≤ i32Max ∧
      0 ≤ (normalizeShapedCacheUsage usage).cacheCreation1hInputTokens ∧
      (normalizeShapedCacheUsage usage).cacheCreation1hInputTokens ≤ i32Max ∧
      (OverfullUsage (normalizeShapedCacheUsage usage) ∨
        (normalizeShapedCacheUsage usage).cacheCreation5mInputTokens +
          (normalizeShapedCacheUsage usage).cacheCreation1hInputTokens =
            (normalizeShapedCacheUsage usage).cacheCreationInputTokens) := by
    unfold OverfullUsage
    rw [cacheCreationInputTokens_normalizeShaped, overfull_max_iff]
    by_cases hover : OverfullUsage usage
    · obtain ⟨h5m, h1h⟩ := parts_of_overfull h hover
      obtain ⟨-, h5mMax⟩ := isI32_max_zero h.creation5m
      obtain ⟨-, h1hMax⟩ := isI32_max_zero h.creation1h
      rw [h5m, h1h]
      obtain ⟨hlimit, hsum⟩ := hover
      exact ⟨le_max_right _ _, h5mMax, le_max_right _ _, h1hMax, .inl ⟨hlimit, by omega⟩⟩
    · obtain ⟨h5m, h1h, hsum⟩ := parts_of_not_overfull h hover
      exact ⟨h5m, by omega, h1h, by omega, .inr hsum⟩
  obtain ⟨h5m, h5mMax, h1h, h1hMax, hsum⟩ := hparts
  exact
    { input := by simp
      read := by simp
      creation := by simp
      creation_le := by rw [cacheCreationInputTokens_normalizeShaped]; exact hcreation
      creation5m := h5m
      creation5m_le := h5mMax
      creation1h := h1h
      creation1h_le := h1hMax
      total := totalInputTokens_normalizeShaped usage
      parts := hsum }

theorem normalizeShaped_of_settled (h : Settled usage) :
    normalizeShapedCacheUsage usage = usage := by
  have hcap : capCacheCreationBreakdown usage.cacheCreation5mInputTokens
      usage.cacheCreation1hInputTokens usage.cacheCreationInputTokens =
        (usage.cacheCreation5mInputTokens, usage.cacheCreation1hInputTokens) := by
    rcases h.parts with hover | hsum
    · rw [capCacheCreationBreakdown_of_overfull hover, max_eq_left h.creation5m,
        max_eq_left h.creation1h]
    · exact capCacheCreationBreakdown_eq_self h.creation_le h.creation5m h.creation1h hsum
  have hremainder : max (saturate (usage.cacheCreationInputTokens -
      saturate (usage.cacheCreation5mInputTokens + usage.cacheCreation1hInputTokens))) 0 = 0 := by
    have h5m := h.creation5m
    have h1h := h.creation1h
    refine remainder_eq_zero h.creation_le ?_
    rcases h.parts with ⟨hlimit, hsum⟩ | hsum <;> omega
  have hnormal : normalizeCacheUsageBreakdown usage = usage := by
    unfold normalizeCacheUsageBreakdown
    dsimp only
    rw [max_eq_left h.input, max_eq_left h.read, max_eq_left h.creation, hcap]
    dsimp only
    rw [← h.total]
  have h5m : saturate usage.cacheCreation5mInputTokens = usage.cacheCreation5mInputTokens := by
    rw [saturate_eq_min h.creation5m, min_eq_left h.creation5m_le]
  have h1h : saturate usage.cacheCreation1hInputTokens = usage.cacheCreation1hInputTokens := by
    rw [saturate_eq_min h.creation1h, min_eq_left h.creation1h_le]
  unfold normalizeShapedCacheUsage
  rw [hnormal]
  dsimp only
  rw [hremainder, add_zero, add_zero, h5m, h1h, ite_self]

/-- The parts of a normalised usage make up its write if and only if they do not overfill it. -/
theorem parts_normalizeShaped_iff (h : Fits usage) :
    (normalizeShapedCacheUsage usage).cacheCreation5mInputTokens +
        (normalizeShapedCacheUsage usage).cacheCreation1hInputTokens =
      (normalizeShapedCacheUsage usage).cacheCreationInputTokens ↔ ¬OverfullUsage usage := by
  rw [cacheCreationInputTokens_normalizeShaped]
  constructor
  · intro hsum hover
    obtain ⟨h5m, h1h⟩ := parts_of_overfull h hover
    obtain ⟨hlimit, hlt⟩ := hover
    have hmax : 0 ≤ i32Max := by decide
    omega
  · exact fun hover => (parts_of_not_overfull h hover).2.2

end Normalize

end KiroProxy.UsageShaping
