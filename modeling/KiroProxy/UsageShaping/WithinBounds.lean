import KiroProxy.UsageShaping.BoundedShaping

/-!
# Shaped usages are within their bounds

Whatever the steps of the shaping do to the three counts, the last clamp brings them into their
ranges, and clamping again changes nothing. The steps leave the parts of the write alone.
-/

namespace KiroProxy.UsageShaping.BoundedShaping

open PromptCache.CreationControl

variable {F : Type} {fl : Floats F} {input : BoundedShapingInput F} {bounds : FinalUsageBounds}

theorem jitteredCap_le (limit percent : ℤ) (seed : UInt64) :
    jitteredCap limit percent seed ≤ limit := by
  unfold jitteredCap
  dsimp only
  split_ifs with hplain hspan
  · exact le_rfl
  · exact le_rfl
  · exact Int.sub_le_self _ (Int.natCast_nonneg _)

theorem jitteredCap_pos {limit : ℤ} (h : 0 < limit) (percent : ℤ) (seed : UInt64) :
    0 < jitteredCap limit percent seed := by
  unfold jitteredCap
  dsimp only
  split_ifs with hplain hspan
  · exact h
  · exact h
  · generalize (splitmix64 seed).toNat = hash
    generalize limit * percent / 100 = share at hspan ⊢
    have hmod := Nat.mod_lt hash (show 0 < (min share (limit - 1)).toNat + 1 by omega)
    omega

/-- The numbers of an input have 32 bits. -/
structure BoundedShapingInput.Fits (input : BoundedShapingInput F) : Prop where
  minRead : IsI32 input.policy.minCacheReadTokens
  minCreation : IsI32 input.policy.minCacheCreationTokens
  inputMax : IsI32 input.inputMaxTokens
  maxRead : IsI32 input.maxCacheReadTokens
  maxCreation : IsI32 input.maxCacheCreationTokens
  maxEvent : IsI32 input.maxCreationEventTokens

/-- The bounds are within the configured limits and leave room. -/
structure Limited (input : BoundedShapingInput F) (bounds : FinalUsageBounds) : Prop where
  inputMax : bounds.inputMax ≤ limitOf input.inputMaxTokens
  readMin : 0 ≤ bounds.readMin
  readMax : bounds.readMax ≤ limitOf input.maxCacheReadTokens
  readMax_pos : 0 < bounds.readMax
  creationMin : 0 ≤ bounds.creationMin
  creationMax : bounds.creationMax ≤ limitOf input.maxCacheCreationTokens
  creationMax_event : bounds.creationMax ≤ limitOf input.maxCreationEventTokens
  creationMax_pos : input.creationAllowed = true → 0 < bounds.creationMax
  creationMax_none : input.creationAllowed = false → bounds.creationMax = 0

theorem readLimit_mem (fl : Floats F) (input : BoundedShapingInput F) :
    0 < input.readLimit fl ∧ input.readLimit fl ≤ limitOf input.maxCacheReadTokens := by
  have hlimit := limitOf_pos input.maxCacheReadTokens
  unfold BoundedShapingInput.readLimit
  dsimp only
  split_ifs
  · obtain ⟨hcap, -⟩ := multiplierCap_mem fl input.policy (reportedTotal input.raw)
    omega
  · exact ⟨hlimit, le_rfl⟩

theorem limited_new (fl : Floats F) (input : BoundedShapingInput F) :
    Limited input (FinalUsageBounds.new fl input) := by
  obtain ⟨hreadPos, hreadLe⟩ := readLimit_mem fl input
  have hcreation := jitteredCap_le input.creationLimit cacheCapJitterPercent
    (input.seed ^^^ 0x7c8f1e2b5a3d9f01)
  have hcreationPos := limitOf_pos input.maxCacheCreationTokens
  have heventPos := limitOf_pos input.maxCreationEventTokens
  exact
    { inputMax := jitteredCap_le _ _ _
      readMin := by
        unfold FinalUsageBounds.new
        dsimp only
        split_ifs
        · exact le_max_right _ _
        · exact le_rfl
      readMax := (jitteredCap_le _ _ _).trans hreadLe
      readMax_pos := jitteredCap_pos hreadPos _ _
      creationMin := by
        unfold FinalUsageBounds.new
        dsimp only
        split_ifs
        · exact le_max_right _ _
        · exact le_rfl
      creationMax := by
        refine hcreation.trans ?_
        unfold BoundedShapingInput.creationLimit
        split_ifs <;> omega
      creationMax_event := by
        refine hcreation.trans ?_
        unfold BoundedShapingInput.creationLimit
        split_ifs <;> omega
      creationMax_pos := by
        intro hallowed
        refine jitteredCap_pos ?_ _ _
        rw [BoundedShapingInput.creationLimit, if_pos hallowed]
        omega
      creationMax_none := by
        intro hallowed
        unfold FinalUsageBounds.new BoundedShapingInput.creationLimit
        dsimp only
        rw [hallowed]
        rfl }

/-- The counts are not negative, and all else is as it was. -/
structure Counts (usage shaped : CacheUsage) : Prop where
  input : 0 ≤ shaped.inputTokens
  read : 0 ≤ shaped.cacheReadInputTokens
  creation : 0 ≤ shaped.cacheCreationInputTokens
  total : shaped.totalInputTokens = usage.totalInputTokens
  output : shaped.outputTokens = usage.outputTokens
  creation5m : shaped.cacheCreation5mInputTokens = usage.cacheCreation5mInputTokens
  creation1h : shaped.cacheCreation1hInputTokens = usage.cacheCreation1hInputTokens

section Counts

variable {usage shaped : CacheUsage}

theorem counts_of_settled (h : Settled usage) : Counts usage usage :=
  ⟨h.input, h.read, h.creation, rfl, rfl, rfl, rfl⟩

theorem le_raise (current tokens low high : ℤ) : current ≤ raise current tokens low high := by
  unfold raise
  split_ifs
  · exact le_rfl
  · exact le_max_right _ _

theorem counts_splitByRatio (h : Counts usage shaped) (hread : 0 ≤ bounds.readMax)
    (hcreation : 0 ≤ bounds.creationMax) {total : ℤ} {ratio : F} {allowCreation : Bool} :
    Counts usage (splitByRatio fl shaped total ratio bounds allowCreation) := by
  unfold splitByRatio
  dsimp only
  generalize hcounted : clampInt (fl.toI32 _) 0 total = counted
  have hcountedNonneg : 0 ≤ counted := by
    unfold clampInt at hcounted
    omega
  have hclamp (value : ℤ) : 0 ≤ bounds.clampInput value := by
    unfold FinalUsageBounds.clampInput clampInt
    omega
  refine { h with input := hclamp _, read := saturate_nonneg ?_, creation := ?_ }
  · split_ifs <;> omega
  · dsimp only
    split_ifs <;> omega

theorem counts_dropCreation (h : Counts usage shaped) :
    Counts usage { shaped with cacheCreationInputTokens := 0 } :=
  { h with creation := le_rfl }

theorem counts_raiseCreationToMin (h : Counts usage shaped)
    {policy : CacheHitShapingPolicy F} :
    Counts usage (raiseCreationToMin fl shaped input policy bounds) := by
  unfold raiseCreationToMin
  dsimp only
  split_ifs with hskip hless
  · exact h
  · exact { h with creation := h.creation.trans hless.le }
  · exact h

theorem counts_raiseReadToRatio (h : Counts usage shaped) {ratio : F} {readMax : ℤ} :
    Counts usage (raiseReadToRatio fl shaped ratio readMax) := by
  unfold raiseReadToRatio
  dsimp only
  split_ifs with hskip hless
  · exact h
  · exact { h with read := h.read.trans hless.le }
  · exact h

variable {pricing : ModelPricing F} {cost : F}

theorem counts_raiseCreationCost (h : Counts usage shaped) :
    Counts usage (raiseCreationCost fl pricing cost bounds shaped) := by
  unfold raiseCreationCost
  split_ifs
  · exact { h with creation := h.creation.trans (le_raise _ _ _ _) }
  · exact h

theorem counts_raiseReadCost (h : Counts usage shaped) {allowRead : Bool} :
    Counts usage (raiseReadCost fl pricing cost bounds allowRead shaped) := by
  unfold raiseReadCost
  split_ifs
  · exact { h with read := h.read.trans (le_raise _ _ _ _) }
  · exact h

theorem counts_raiseInputCost (h : Counts usage shaped) {topUpInput : Bool} :
    Counts usage (raiseInputCost fl pricing cost bounds topUpInput shaped) := by
  unfold raiseInputCost
  split_ifs
  · exact { h with input := h.input.trans (le_raise _ _ _ _) }
  · exact h

theorem counts_raiseCostWithinBounds (h : Counts usage shaped) {allowRead topUpInput : Bool} :
    Counts usage (raiseCostWithinBounds fl pricing cost bounds allowRead topUpInput shaped) :=
  counts_raiseInputCost (counts_raiseReadCost (counts_raiseCreationCost h))

theorem counts_shapeEnabled (h : Counts usage usage) (hread : 0 ≤ bounds.readMax)
    (hcreation : 0 ≤ bounds.creationMax) {total : ℤ} :
    Counts usage (shapeEnabled fl input bounds usage total) := by
  unfold shapeEnabled
  dsimp only
  generalize shapesRatio fl input usage = shapeRatio
  have hsplit : Counts usage (if shapeRatio = true then splitByRatio fl usage total
      (targetRatio fl (input.policy.normalized fl) input.seed) bounds input.creationAllowed
        else usage) := by
    split_ifs
    · exact counts_splitByRatio h hread hcreation
    · exact h
  generalize (if shapeRatio = true then splitByRatio fl usage total
    (targetRatio fl (input.policy.normalized fl) input.seed) bounds input.creationAllowed
      else usage) = split at hsplit ⊢
  have hallowed : Counts usage (if input.creationAllowed = false then
      { split with cacheCreationInputTokens := 0 } else split) := by
    split_ifs
    · exact counts_dropCreation hsplit
    · exact hsplit
  generalize (if input.creationAllowed = false then
    { split with cacheCreationInputTokens := 0 } else split) = allowed at hallowed ⊢
  have hraised := @counts_raiseCreationToMin F fl input bounds usage allowed hallowed
    (input.policy.normalized fl)
  generalize raiseCreationToMin fl allowed input (input.policy.normalized fl) bounds = raised
    at hraised ⊢
  split_ifs
  · refine counts_raiseReadToRatio ?_
    split
    · exact counts_raiseCostWithinBounds hraised
    · exact hraised
  · split
    · exact counts_raiseCostWithinBounds hraised
    · exact hraised

theorem counts_shapeWithin (h : Fits usage) :
    Counts (normalizeShapedCacheUsage usage) (shapeWithin fl usage input) := by
  have hcounts := counts_of_settled (settled_normalizeShaped h)
  have hlimited := limited_new fl input
  have hcreation : 0 ≤ (FinalUsageBounds.new fl input).creationMax := by
    cases hallowed : input.creationAllowed with
    | true => exact (hlimited.creationMax_pos hallowed).le
    | false => exact (hlimited.creationMax_none hallowed).ge
  unfold shapeWithin
  dsimp only
  split_ifs
  · exact hcounts
  · exact hcounts
  · exact counts_shapeEnabled hcounts hlimited.readMax_pos.le hcreation

end Counts

section Enforce

variable {usage shaped : CacheUsage}

theorem clampCacheField_mem (value : ℤ) {low high : ℤ} (hlow : 0 ≤ low) :
    0 ≤ clampCacheField value low high ∧
      (clampCacheField value low high = 0 ∨
        low ≤ clampCacheField value low high ∧ clampCacheField value low high ≤ high) := by
  unfold clampCacheField clampInt
  dsimp only
  split_ifs <;> omega

theorem clampCacheField_idem (value : ℤ) {low high : ℤ} (hlow : 0 ≤ low) :
    clampCacheField (clampCacheField value low high) low high = clampCacheField value low high := by
  unfold clampCacheField clampInt
  dsimp only
  split_ifs <;> omega

theorem clampCacheField_of_nonpos {value : ℤ} (h : value ≤ 0) (low high : ℤ) :
    clampCacheField value low high = 0 := by
  unfold clampCacheField
  rw [max_eq_right h]
  exact if_pos (.inl rfl)

theorem clampCacheField_le (value low high : ℤ) :
    clampCacheField value low high ≤ max high 0 := by
  unfold clampCacheField clampInt
  dsimp only
  split_ifs <;> omega

theorem clampCacheField_of_mem {value low high : ℤ} (hpos : 0 < value) (hlow : low ≤ value)
    (hhigh : value ≤ high) : clampCacheField value low high = value := by
  unfold clampCacheField clampInt
  dsimp only
  split_ifs <;> omega

/-- The counts that are clamped, before the parts of the write are settled. -/
def clamped (bounds : FinalUsageBounds) (usage : CacheUsage) : CacheUsage :=
  { usage with
    inputTokens :=
      if 0 < usage.inputTokens ∨ 0 < usage.cacheReadInputTokens ∨
        0 < usage.cacheCreationInputTokens then bounds.clampInput (max usage.inputTokens 0) else 0
    cacheReadInputTokens :=
      clampCacheField usage.cacheReadInputTokens bounds.readMin bounds.readMax
    cacheCreationInputTokens :=
      clampCacheField usage.cacheCreationInputTokens bounds.creationMin bounds.creationMax }

theorem enforce_eq (bounds : FinalUsageBounds) (usage : CacheUsage) :
    bounds.enforce usage = normalizeShapedCacheUsage (clamped bounds usage) := rfl

theorem limited_le (hfits : input.Fits) (h : Limited input bounds) :
    bounds.inputMax ≤ i32Max ∧ bounds.readMax ≤ i32Max ∧ 0 ≤ bounds.creationMax ∧
      bounds.creationMax ≤ i32Max := by
  have hinput := limitOf_le hfits.inputMax.2
  have hread := limitOf_le hfits.maxRead.2
  have hcreation := limitOf_le hfits.maxCreation.2
  refine ⟨h.inputMax.trans hinput, h.readMax.trans hread, ?_, h.creationMax.trans hcreation⟩
  cases hallowed : input.creationAllowed with
  | true => exact (h.creationMax_pos hallowed).le
  | false => exact (h.creationMax_none hallowed).ge

theorem fits_clamped (hfits : input.Fits) (hlimited : Limited input bounds) (husage : Fits usage)
    (h : Counts (normalizeShapedCacheUsage usage) shaped) : Fits (clamped bounds shaped) := by
  have hsettled := settled_normalizeShaped husage
  obtain ⟨hinput, hread, -, hcreation⟩ := limited_le hfits hlimited
  obtain ⟨hreadNonneg, -⟩ :=
    @clampCacheField_mem shaped.cacheReadInputTokens _ bounds.readMax hlimited.readMin
  obtain ⟨hcreationNonneg, -⟩ :=
    @clampCacheField_mem shaped.cacheCreationInputTokens _ bounds.creationMax hlimited.creationMin
  have hreadLe := clampCacheField_le shaped.cacheReadInputTokens bounds.readMin bounds.readMax
  have hcreationLe :=
    clampCacheField_le shaped.cacheCreationInputTokens bounds.creationMin bounds.creationMax
  have hlow : i32Min ≤ 0 := by decide
  have hhigh : 1 ≤ i32Max := by decide
  have hclamp (value : ℤ) :
      0 ≤ bounds.clampInput value ∧ bounds.clampInput value ≤ max bounds.inputMax 1 := by
    unfold FinalUsageBounds.clampInput clampInt
    omega
  obtain ⟨hclampLow, hclampHigh⟩ := hclamp (max shaped.inputTokens 0)
  have hcount {value : ℤ} (hzero : 0 ≤ value) (hmax : value ≤ i32Max) : IsI32 value :=
    ⟨hlow.trans hzero, hmax⟩
  exact
    { total := by
        refine (congrArg IsI32 h.total).mpr ?_
        rw [hsettled.total]
        exact hcount (reportedTotal_nonneg _) (reportedTotal_le _)
      input := by
        unfold clamped
        dsimp only
        split_ifs
        · exact hcount hclampLow (by omega)
        · exact hcount le_rfl (by omega)
      output := by
        refine (congrArg IsI32 h.output).mpr ?_
        rw [outputTokens_normalizeShaped]
        exact husage.output
      creation := hcount hcreationNonneg (hcreationLe.trans (by omega))
      read := hcount hreadNonneg (hreadLe.trans (by omega))
      creation5m := (congrArg IsI32 h.creation5m).mpr
        (hcount hsettled.creation5m hsettled.creation5m_le)
      creation1h := (congrArg IsI32 h.creation1h).mpr
        (hcount hsettled.creation1h hsettled.creation1h_le) }

theorem clamped_input (bounds : FinalUsageBounds) (shaped : CacheUsage) :
    (1 ≤ (clamped bounds shaped).inputTokens ∧
        (clamped bounds shaped).inputTokens ≤ max bounds.inputMax 1) ∨
      (clamped bounds shaped).inputTokens = 0 ∧
        (clamped bounds shaped).cacheReadInputTokens = 0 ∧
        (clamped bounds shaped).cacheCreationInputTokens = 0 ∧
        shaped.inputTokens ≤ 0 ∧ shaped.cacheReadInputTokens ≤ 0 ∧
        shaped.cacheCreationInputTokens ≤ 0 := by
  unfold clamped
  dsimp only
  split_ifs with hany
  · left
    unfold FinalUsageBounds.clampInput clampInt
    omega
  · simp only [not_or, not_lt] at hany
    obtain ⟨hinput, hread, hcreation⟩ := hany
    exact .inr ⟨rfl, clampCacheField_of_nonpos hread _ _, clampCacheField_of_nonpos hcreation _ _,
      hinput, hread, hcreation⟩

theorem inputTokens_enforce : (bounds.enforce shaped).inputTokens =
    (clamped bounds shaped).inputTokens := by
  rw [enforce_eq, inputTokens_normalizeShaped]
  rcases clamped_input bounds shaped with h | h <;> omega

section Clamped

variable (hlimited : Limited input bounds)

include hlimited

theorem cacheReadInputTokens_enforce : (bounds.enforce shaped).cacheReadInputTokens =
    (clamped bounds shaped).cacheReadInputTokens := by
  rw [enforce_eq, cacheReadInputTokens_normalizeShaped]
  exact max_eq_left (clampCacheField_mem _ hlimited.readMin).1

theorem cacheCreationInputTokens_enforce : (bounds.enforce shaped).cacheCreationInputTokens =
    (clamped bounds shaped).cacheCreationInputTokens := by
  rw [enforce_eq, cacheCreationInputTokens_normalizeShaped]
  exact max_eq_left (clampCacheField_mem _ hlimited.creationMin).1

theorem enforce_enforce (hfits : Fits (clamped bounds shaped)) :
    bounds.enforce (bounds.enforce shaped) = bounds.enforce shaped := by
  have hinput := @inputTokens_enforce bounds shaped
  have hread := @cacheReadInputTokens_enforce F input bounds shaped hlimited
  have hcreation := @cacheCreationInputTokens_enforce F input bounds shaped hlimited
  generalize hresult : bounds.enforce shaped = result at hinput hread hcreation
  have hreadKept : clampCacheField result.cacheReadInputTokens bounds.readMin bounds.readMax =
      result.cacheReadInputTokens := by
    rw [hread]
    exact clampCacheField_idem _ hlimited.readMin
  have hcreationKept : clampCacheField result.cacheCreationInputTokens bounds.creationMin
      bounds.creationMax = result.cacheCreationInputTokens := by
    rw [hcreation]
    exact clampCacheField_idem _ hlimited.creationMin
  have hinputKept : (if 0 < result.inputTokens ∨ 0 < result.cacheReadInputTokens ∨
      0 < result.cacheCreationInputTokens then bounds.clampInput (max result.inputTokens 0)
        else 0) = result.inputTokens := by
    rcases clamped_input bounds shaped with ⟨hlow, hhigh⟩ | ⟨hzero, hreadZero, hcreationZero, -⟩
    · rw [if_pos (.inl (by omega))]
      unfold FinalUsageBounds.clampInput clampInt
      omega
    · rw [if_neg (by omega), hinput, hzero]
  have hkept : clamped bounds result = result := by
    unfold clamped
    rw [hinputKept, hreadKept, hcreationKept]
  rw [enforce_eq, hkept, ← hresult, enforce_eq]
  exact normalizeShaped_of_settled (settled_normalizeShaped hfits)

end Clamped

end Enforce

/-- A write of the largest size comes in with too many parts, and nothing limits it. -/
def Overfilled (input : BoundedShapingInput F) (usage : CacheUsage) : Prop :=
  OverfullUsage usage ∧ input.creationAllowed = true ∧
    limitOf input.maxCacheCreationTokens = i32Max ∧ limitOf input.maxCreationEventTokens = i32Max

/-- What a usage shaped within bounds has to be. -/
structure InBounds (fl : Floats F) (usage : CacheUsage) (input : BoundedShapingInput F)
    (bounds : FinalUsageBounds) (result : CacheUsage) : Prop where
  limited : Limited input bounds
  input_zero : result.inputTokens = 0 → (shapeWithin fl usage input).inputTokens = 0 ∧
    (shapeWithin fl usage input).cacheReadInputTokens = 0 ∧
    (shapeWithin fl usage input).cacheCreationInputTokens = 0
  input_mem : result.inputTokens = 0 ∨
    1 ≤ result.inputTokens ∧ result.inputTokens ≤ max bounds.inputMax 1
  read_mem : result.cacheReadInputTokens = 0 ∨
    bounds.readMin ≤ result.cacheReadInputTokens ∧ result.cacheReadInputTokens ≤ bounds.readMax
  creation_mem : result.cacheCreationInputTokens = 0 ∨
    bounds.creationMin ≤ result.cacheCreationInputTokens ∧
      result.cacheCreationInputTokens ≤ bounds.creationMax
  creation_none : input.creationAllowed = false → result.cacheCreationInputTokens = 0
  total : result.totalInputTokens = reportedTotal result
  parts : result.cacheCreation5mInputTokens + result.cacheCreation1hInputTokens =
    result.cacheCreationInputTokens
  again : enforceBoundedUsage fl result input = result

section Shaped

variable {usage : CacheUsage}

theorem overfull_clamped_iff (husage : Fits usage) {shaped : CacheUsage}
    (h : Counts (normalizeShapedCacheUsage usage) shaped) :
    OverfullUsage (clamped bounds shaped) ↔
      OverfullUsage usage ∧ (clamped bounds shaped).cacheCreationInputTokens = i32Max :=
  overfull_of_parts_iff husage h.creation5m h.creation1h

theorem not_overfull_clamped (hfits : input.Fits) (hlimited : Limited input bounds)
    (husage : Fits usage) (h : ¬Overfilled input usage) {shaped : CacheUsage}
    (hcounts : Counts (normalizeShapedCacheUsage usage) shaped) :
    ¬OverfullUsage (clamped bounds shaped) := by
  intro hover
  obtain ⟨husageOver, hlargest⟩ := (overfull_clamped_iff husage hcounts).mp hover
  have hle : (clamped bounds shaped).cacheCreationInputTokens ≤ max bounds.creationMax 0 :=
    clampCacheField_le _ _ _
  have hpos : 0 < i32Max := by decide
  have hcreation := limitOf_le hfits.maxCreation.2
  have hevent := limitOf_le hfits.maxEvent.2
  have hmax := hlimited.creationMax
  have hmaxEvent := hlimited.creationMax_event
  refine h ⟨husageOver, ?_, by omega, by omega⟩
  cases hallowed : input.creationAllowed with
  | true => rfl
  | false =>
    have hnone := hlimited.creationMax_none hallowed
    omega

theorem inBounds_of_not_overfull (hfits : input.Fits) (husage : Fits usage)
    (h : ¬OverfullUsage (clamped (FinalUsageBounds.new fl input) (shapeWithin fl usage input))) :
    InBounds fl usage input (FinalUsageBounds.new fl input) (shapeBoundedUsage fl usage input) := by
  have hlimited := limited_new fl input
  have hcounts := @counts_shapeWithin F fl input usage husage
  have hclamped := fits_clamped hfits hlimited husage hcounts
  have hinput := @inputTokens_enforce (FinalUsageBounds.new fl input) (shapeWithin fl usage input)
  have hread := @cacheReadInputTokens_enforce F input _ (shapeWithin fl usage input) hlimited
  have hcreation :=
    @cacheCreationInputTokens_enforce F input _ (shapeWithin fl usage input) hlimited
  have hcreationMem := (@clampCacheField_mem
    (shapeWithin fl usage input).cacheCreationInputTokens _
    (FinalUsageBounds.new fl input).creationMax hlimited.creationMin).2
  rw [← shapeBoundedUsage] at hinput hread hcreation
  exact
    { limited := hlimited
      input_zero := by
        intro hzero
        rcases clamped_input (FinalUsageBounds.new fl input) (shapeWithin fl usage input) with
          hpos | ⟨-, -, -, hin, hre, hcr⟩
        · omega
        · exact ⟨hin.antisymm hcounts.input, hre.antisymm hcounts.read,
            hcr.antisymm hcounts.creation⟩
      input_mem := by
        rw [hinput]
        rcases clamped_input (FinalUsageBounds.new fl input) (shapeWithin fl usage input) with
          hpos | ⟨hzero, -⟩
        · exact .inr hpos
        · exact .inl hzero
      read_mem := by
        rw [hread]
        exact (clampCacheField_mem _ hlimited.readMin).2
      creation_mem := by
        rw [hcreation]
        exact hcreationMem
      creation_none := by
        intro hallowed
        have hle := clampCacheField_le (shapeWithin fl usage input).cacheCreationInputTokens
          (FinalUsageBounds.new fl input).creationMin (FinalUsageBounds.new fl input).creationMax
        have hnonneg := (@clampCacheField_mem
          (shapeWithin fl usage input).cacheCreationInputTokens _
          (FinalUsageBounds.new fl input).creationMax hlimited.creationMin).1
        rw [hlimited.creationMax_none hallowed] at hle hnonneg
        rw [hcreation]
        unfold clamped
        dsimp only
        rw [hlimited.creationMax_none hallowed]
        omega
      total := totalInputTokens_normalizeShaped _
      parts := (parts_normalizeShaped_iff hclamped).mpr h
      again := enforce_enforce hlimited hclamped }

variable {pricing : ModelPricing F} {cost : F}

theorem creation_raiseReadCost {allowRead : Bool} :
    (raiseReadCost fl pricing cost bounds allowRead usage).cacheCreationInputTokens =
      usage.cacheCreationInputTokens := by
  unfold raiseReadCost
  split_ifs <;> rfl

theorem creation_raiseInputCost {topUpInput : Bool} :
    (raiseInputCost fl pricing cost bounds topUpInput usage).cacheCreationInputTokens =
      usage.cacheCreationInputTokens := by
  unfold raiseInputCost
  split_ifs <;> rfl

theorem raise_of_largest {tokens low high : ℤ} (h : high ≤ i32Max) :
    raise i32Max tokens low high = i32Max := by
  unfold raise
  split_ifs <;> omega

theorem creation_raiseCreationCost (hmax : bounds.creationMax ≤ i32Max)
    (hlargest : usage.cacheCreationInputTokens = i32Max) :
    (raiseCreationCost fl pricing cost bounds usage).cacheCreationInputTokens = i32Max := by
  unfold raiseCreationCost
  split_ifs
  · dsimp only
    rw [hlargest, raise_of_largest hmax]
  · exact hlargest

/-- A write of the largest size that nothing limits is kept by the steps that do not split the
tokens by a ratio. -/
theorem creation_shapeEnabled (hallowed : input.creationAllowed = true)
    (hmax : bounds.creationMax ≤ i32Max) (hratio : shapesRatio fl input usage = false)
    (hlargest : usage.cacheCreationInputTokens = i32Max) {total : ℤ} :
    (shapeEnabled fl input bounds usage total).cacheCreationInputTokens = i32Max := by
  have hmin : raiseCreationToMin fl usage input (input.policy.normalized fl) bounds = usage := by
    unfold raiseCreationToMin
    dsimp only
    rw [if_neg (show ¬usage.cacheCreationInputTokens < _ by omega), ite_self]
  have hcost {pricing : ModelPricing F} {cost : F} {allowRead topUpInput : Bool} :
      (raiseCostWithinBounds fl pricing cost bounds allowRead topUpInput
        usage).cacheCreationInputTokens = i32Max := by
    rw [raiseCostWithinBounds, creation_raiseInputCost, creation_raiseReadCost]
    exact creation_raiseCreationCost hmax hlargest
  unfold shapeEnabled
  dsimp only
  rw [hratio, hallowed, if_neg Bool.false_ne_true, if_neg Bool.true_eq_false_eq_False,
    if_neg Bool.false_ne_true, hmin]
  split
  · exact hcost
  · exact hlargest

theorem creationMax_of_overfilled (h : Overfilled input usage) :
    (FinalUsageBounds.new fl input).creationMax = i32Max := by
  obtain ⟨-, hallowed, hcreation, hevent⟩ := h
  have hlimit : input.creationLimit = i32Max := by
    rw [BoundedShapingInput.creationLimit, if_pos hallowed, hcreation, hevent, min_self]
  unfold FinalUsageBounds.new
  dsimp only
  rw [hlimit]
  exact if_pos (.inr rfl)

/-- Unless the tokens are split by a ratio, a write that came in overfull and that nothing limits
stays so. -/
theorem overfull_of_overfilled (hfits : input.Fits) (husage : Fits usage)
    (h : Overfilled input usage)
    (hratio : ¬(input.shapingEnabled fl = true ∧
      shapesRatio fl input (normalizeShapedCacheUsage usage) = true)) :
    OverfullUsage (clamped (FinalUsageBounds.new fl input) (shapeWithin fl usage input)) := by
  have hmax := @creationMax_of_overfilled F fl input usage h
  have hpos : 0 < i32Max := by decide
  have hlargest : (normalizeShapedCacheUsage usage).cacheCreationInputTokens = i32Max := by
    rw [cacheCreationInputTokens_normalizeShaped, h.1.1]
    exact max_eq_left hpos.le
  have hshaped : (shapeWithin fl usage input).cacheCreationInputTokens = i32Max := by
    unfold shapeWithin
    dsimp only
    split_ifs with henabled htotal
    · exact hlargest
    · exact hlargest
    · refine creation_shapeEnabled h.2.1 hmax.le ?_ hlargest
      rw [Bool.not_eq_false] at henabled
      rw [← Bool.not_eq_true]
      exact fun hsplit => hratio ⟨henabled, hsplit⟩
  have hmin : (FinalUsageBounds.new fl input).creationMin ≤ i32Max := by
    unfold FinalUsageBounds.new
    dsimp only
    split_ifs
    · have hmin := hfits.minCreation.2
      unfold CacheHitShapingPolicy.normalized
      dsimp only
      omega
    · exact hpos.le
  have hclamp : (clamped (FinalUsageBounds.new fl input)
      (shapeWithin fl usage input)).cacheCreationInputTokens = i32Max := by
    unfold clamped
    dsimp only
    rw [hshaped]
    exact clampCacheField_of_mem hpos hmin hmax.ge
  exact (overfull_clamped_iff husage (counts_shapeWithin husage)).mpr ⟨h.1, hclamp⟩

/-- A shaped usage is within its bounds, unless a write of the largest size comes in with too many
parts and nothing limits it; and only then, unless the tokens are split by a ratio. -/
theorem shapeBoundedUsage_inBounds (fl : Floats F) (usage : CacheUsage)
    (input : BoundedShapingInput F) (husage : Fits usage) (hfits : input.Fits) :
    (¬Overfilled input usage → InBounds fl usage input (FinalUsageBounds.new fl input)
      (shapeBoundedUsage fl usage input)) ∧
    (InBounds fl usage input (FinalUsageBounds.new fl input) (shapeBoundedUsage fl usage input) →
      ¬Overfilled input usage ∨ input.shapingEnabled fl = true ∧
        shapesRatio fl input (normalizeShapedCacheUsage usage) = true) := by
  have hcounts := @counts_shapeWithin F fl input usage husage
  have hlimited := limited_new fl input
  constructor
  · exact fun h => inBounds_of_not_overfull hfits husage
      (not_overfull_clamped hfits hlimited husage h hcounts)
  · intro h
    by_contra hnot
    obtain ⟨hover, hratio⟩ := not_or.mp hnot
    have hclamped := overfull_of_overfilled hfits husage (not_not.mp hover) hratio
    exact (parts_normalizeShaped_iff (fits_clamped hfits hlimited husage hcounts)).mp h.parts
      hclamped

end Shaped

/-- Shaping is off, and nothing is limited. -/
def openInput : BoundedShapingInput ℚ where
  policy :=
    { enabled := false
      targetHitRatio := 0
      ratioJitter := 0
      minCacheReadTokens := 0
      minCacheCreationTokens := 0
      minCostRatio := 0
      maxReadMultiplier := 0
      minCreationRatio := 0
      readAwareCostFloor := false
      costFloorTopUpInput := true }
  hasReusablePrefix := false
  creationAllowed := true
  raw := ⟨0, 0, 0, 0, 0, 0, 0⟩
  pricing := none
  inputMaxTokens := 0
  maxCacheReadTokens := 0
  maxCacheCreationTokens := 0
  maxCreationEventTokens := 0
  carriedCostDeficitUsd := 0
  seed := 0

theorem fits_openInput : openInput.Fits :=
  ⟨by decide, by decide, by decide, by decide, by decide, by decide⟩

theorem not_inBounds_openInput :
    ¬InBounds rationalFloats ⟨0, 1, 0, 2147483647, 0, 2147483647, 1⟩ openInput
      (FinalUsageBounds.new rationalFloats openInput)
      (shapeBoundedUsage rationalFloats ⟨0, 1, 0, 2147483647, 0, 2147483647, 1⟩ openInput) := by
  intro h
  exact absurd h.parts (by decide)

theorem shapeBoundedUsage_inBounds_openInput :
    InBounds rationalFloats ⟨0, 10, 0, 20, 30, 20, 0⟩ openInput
      (FinalUsageBounds.new rationalFloats openInput)
      (shapeBoundedUsage rationalFloats ⟨0, 10, 0, 20, 30, 20, 0⟩ openInput) :=
  (shapeBoundedUsage_inBounds rationalFloats ⟨0, 10, 0, 20, 30, 20, 0⟩ openInput
    ⟨by decide, by decide, by decide, by decide, by decide, by decide, by decide⟩
    fits_openInput).1 fun h => absurd h.1.1 (by decide)

end KiroProxy.UsageShaping.BoundedShaping
