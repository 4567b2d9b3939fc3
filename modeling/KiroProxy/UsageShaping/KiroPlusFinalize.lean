import KiroProxy.UsageShaping.KiroPlusBounds

/-!
# The priority of the bounds

The bounds of the four counts hold in the end unless the minimum of the input was taken from a read
or a write that had only just been raised to its own minimum. The parts of a write add up to it
unless they were too many for it from the start and the write was never changed.
-/

namespace KiroProxy.UsageShaping.KiroPlus

open PromptCache.CreationControl

variable {F : Type} {fl : Floats F}

structure UsageShapingProfile.Fits (profile : UsageShapingProfile F) : Prop where
  input : profile.input.Fits
  output : profile.output.Fits
  cacheRead : profile.cacheRead.Fits
  cacheCreation : profile.cacheCreation.Fits

/-- The largest number of tokens that the bounds of a field let through. -/
def limit (shaping : UsageFieldShaping F) (seed : UInt64) : ℤ :=
  (effectiveMax shaping seed).getD i32Max

section Limit

variable {shaping : UsageFieldShaping F}

theorem effectiveMax_limit (h : Regular shaping) (seed : UInt64) :
    effectiveMax shaping seed = some (limit shaping seed) := by
  obtain ⟨maxTokens, hmax, -⟩ := effectiveMax_eq h seed
  rw [limit, hmax, Option.getD_some]

theorem limit_pos (h : Regular shaping) (seed : UInt64) : 1 ≤ limit shaping seed := by
  obtain ⟨maxTokens, hmax, hpos, -⟩ := effectiveMax_eq h seed
  rwa [limit, hmax, Option.getD_some]

theorem limit_le (h : Regular shaping) (seed : UInt64) : limit shaping seed ≤ i32Max := by
  obtain ⟨maxTokens, hmax, -, hle, -⟩ := effectiveMax_eq h seed
  rwa [limit, hmax, Option.getD_some]

theorem limit_of_max_eq_zero (h : Regular shaping) (seed : UInt64)
    (hzero : shaping.maxTokens = 0) : limit shaping seed = i32Max := by
  obtain ⟨maxTokens, hmax, -, -, hnone⟩ := effectiveMax_eq h seed
  rw [limit, hmax, Option.getD_some, hnone hzero]

end Limit

/-- A step over a usage, which either leaves its write as it is or parts it anew. -/
structure Step (usage usage' : CacheUsage) : Prop where
  counts : Counts usage'
  output : usage'.outputTokens = usage.outputTokens
  overfull : OverfullUsage usage' ↔
    OverfullUsage usage ∧ usage'.cacheCreationInputTokens = usage.cacheCreationInputTokens
  same : usage'.inputTokens = usage.inputTokens →
    usage'.cacheReadInputTokens = usage.cacheReadInputTokens →
    usage'.cacheCreationInputTokens = usage.cacheCreationInputTokens → usage' = usage

/-- The input with what was cut off the read and the write. -/
def inputWithCuts (profile : UsageShapingProfile F) (maxRead maxCreation : ℤ)
    (usage : CacheUsage) : ℤ :=
  if profile.capOverflowToInput = true then
    min (usage.inputTokens + max (usage.cacheReadInputTokens - maxRead) 0 +
      max (usage.cacheCreationInputTokens - maxCreation) 0) i32Max
  else usage.inputTokens

/-- The tokens that an input of zero takes from the read and from the write. -/
def wantedTokens (profile : UsageShapingProfile F) (input : ℤ) : ℤ :=
  if input ≤ 0 then profile.input.minTokens else 0

section Steps

variable {profile : UsageShapingProfile F} {usage : CacheUsage}
  {maxRead maxCreation : ℤ}

theorem cutOff_eq (shaping : UsageFieldShaping F) {maxTokens value : ℤ} (hpos : 1 ≤ maxTokens)
    (hmax : maxTokens ≤ i32Max) (hvalue : 0 ≤ value) (hle : value ≤ i32Max) :
    max (saturate (max value 0 - bounded shaping maxTokens value)) 0 = max (value - maxTokens) 0 := by
  rw [max_eq_left hvalue]
  unfold bounded saturate
  rw [i32Min_eq]
  split_ifs <;> omega

theorem saturate_add_cuts {input : ℤ} (hinput : 0 ≤ input) (readCut creationCut : ℤ) :
    saturate (saturate (input + max readCut 0) + max creationCut 0) =
      min (input + max readCut 0 + max creationCut 0) i32Max := by
  have hmax := i32Max_eq
  rw [saturate_eq_min (show 0 ≤ input + max readCut 0 by omega), saturate_eq_min (by omega)]
  omega

theorem parted_eq (usage : CacheUsage) {usage' : CacheUsage} (h : Counts usage')
    (h5m : usage'.cacheCreation5mInputTokens = usage.cacheCreation5mInputTokens)
    (h1h : usage'.cacheCreation1hInputTokens = usage.cacheCreation1hInputTokens) : ∃ parted,
    (if usage'.cacheCreationInputTokens = usage.cacheCreationInputTokens then some usage'
      else rescaleCreationBreakdown usage' usage.cacheCreationInputTokens) = some parted ∧
      SameSums usage' parted ∧ Counts parted ∧
      (OverfullUsage parted ↔ OverfullUsage usage ∧
        usage'.cacheCreationInputTokens = usage.cacheCreationInputTokens) ∧
      (usage'.cacheCreationInputTokens = usage.cacheCreationInputTokens → parted = usage') := by
  by_cases hcreation : usage'.cacheCreationInputTokens = usage.cacheCreationInputTokens
  · refine ⟨usage', if_pos hcreation, ⟨rfl, rfl, rfl, rfl⟩, h, ?_, fun _ => rfl⟩
    unfold OverfullUsage
    rw [h5m, h1h, hcreation]
    exact (and_iff_left rfl).symm
  · obtain ⟨parted, hparted, hsums, hcounts, hnot⟩ := rescale_eq h usage.cacheCreationInputTokens
    exact ⟨parted, (if_neg hcreation).trans hparted, hsums, hcounts,
      iff_of_false hnot fun hsame => hcreation hsame.2, fun hsame => absurd hsame hcreation⟩

theorem inputWithCuts_mem (h : Counts usage) :
    0 ≤ inputWithCuts profile maxRead maxCreation usage ∧
      inputWithCuts profile maxRead maxCreation usage ≤ i32Max := by
  have hmax := i32Max_eq
  have hinput := h.input_nonneg
  have hinputMax := h.input.2
  unfold inputWithCuts
  split_ifs <;> omega

theorem boundCache_eq (seed : UInt64) (h : Counts usage)
    (hread : effectiveMax profile.cacheRead (seed ^^^ saltRead ^^^ saltCap) = some maxRead)
    (hcreation : effectiveMax profile.cacheCreation (seed ^^^ saltCreation ^^^ saltCap) =
      some maxCreation)
    (hreadMem : 1 ≤ maxRead ∧ maxRead ≤ i32Max)
    (hcreationMem : 1 ≤ maxCreation ∧ maxCreation ≤ i32Max) : ∃ usage',
    boundCache profile seed usage = some usage' ∧ Step usage usage' ∧
      usage'.inputTokens = inputWithCuts profile maxRead maxCreation usage ∧
      usage'.cacheReadInputTokens = bounded profile.cacheRead maxRead usage.cacheReadInputTokens ∧
      usage'.cacheCreationInputTokens =
        bounded profile.cacheCreation maxCreation usage.cacheCreationInputTokens := by
  have hreadCut := cutOff_eq profile.cacheRead hreadMem.1 hreadMem.2 h.read_nonneg h.read.2
  have hcreationCut := cutOff_eq profile.cacheCreation hcreationMem.1 hcreationMem.2
    h.creation_nonneg h.creation.2
  have hinput := h.input_nonneg
  obtain ⟨hreadNonneg, hreadLe⟩ :=
    bounded_mem profile.cacheRead hreadMem.1 usage.cacheReadInputTokens
  obtain ⟨hcreationNonneg, hcreationLe⟩ :=
    bounded_mem profile.cacheCreation hcreationMem.1 usage.cacheCreationInputTokens
  unfold boundCache
  rw [boundCacheField_eq hread, boundCacheField_eq hcreation, hreadCut, hcreationCut]
  generalize bounded profile.cacheRead maxRead usage.cacheReadInputTokens = read
    at hreadNonneg hreadLe ⊢
  generalize bounded profile.cacheCreation maxCreation usage.cacheCreationInputTokens = creation
    at hcreationNonneg hcreationLe ⊢
  have hbounded : Counts { usage with
      cacheReadInputTokens := read
      cacheCreationInputTokens := creation } := { h with
    read := isI32_of_mem hreadNonneg (hreadLe.trans hreadMem.2)
    read_nonneg := hreadNonneg
    creation := isI32_of_mem hcreationNonneg (hcreationLe.trans hcreationMem.2)
    creation_nonneg := hcreationNonneg }
  obtain ⟨parted, hparted, hsums, hcounts, hoverfull, hsame⟩ :=
    parted_eq usage hbounded rfl rfl
  have hresult : inputWithCuts profile maxRead maxCreation usage =
      if profile.capOverflowToInput = true then
        saturate (saturate (parted.inputTokens + max (usage.cacheReadInputTokens - maxRead) 0) +
          max (usage.cacheCreationInputTokens - maxCreation) 0)
      else parted.inputTokens := by
    rw [inputWithCuts, hsums.input, saturate_add_cuts hinput]
  refine ⟨{ parted with inputTokens := inputWithCuts profile maxRead maxCreation usage }, ?_, ?_,
    rfl, hsums.read, hsums.creation⟩
  · simp only [Option.bind_eq_bind, Option.bind_some]
    rw [hresult]
    by_cases hsameCreation : creation = usage.cacheCreationInputTokens
    · rw [if_pos hsameCreation, hsame hsameCreation]
      split_ifs <;> rfl
    · dsimp only at hparted
      rw [if_neg hsameCreation] at hparted ⊢
      rw [hparted, Option.bind_some]
      split_ifs <;> rfl
  · refine ⟨?_, hsums.output, ?_, ?_⟩
    · exact { hcounts with
        input := isI32_of_mem (inputWithCuts_mem h).1 (inputWithCuts_mem h).2
        input_nonneg := (inputWithCuts_mem h).1 }
    · exact hoverfull.trans (and_congr_right fun _ => by rw [← hsums.creation])
    · intro hinputSame hreadSame hcreationSame
      rw [hsame (hsums.creation.symm.trans hcreationSame)]
      dsimp only at hinputSame hreadSame hcreationSame ⊢
      rw [hsums.read] at hreadSame
      rw [hsums.creation] at hcreationSame
      dsimp only at hreadSame hcreationSame
      rw [hinputSame, hreadSame, hcreationSame]

theorem raiseInput_eq (h : Counts usage) (hregular : Regular profile.input) : ∃ usage',
    raiseInput profile usage = some usage' ∧ Step usage usage' ∧
      usage'.inputTokens = usage.inputTokens + min (wantedTokens profile usage.inputTokens)
        (usage.cacheReadInputTokens + usage.cacheCreationInputTokens) ∧
      usage'.cacheReadInputTokens =
        max (usage.cacheReadInputTokens - wantedTokens profile usage.inputTokens) 0 ∧
      usage'.cacheCreationInputTokens = max (usage.cacheCreationInputTokens -
        max (wantedTokens profile usage.inputTokens - usage.cacheReadInputTokens) 0) 0 := by
  have hmin := i32Min_eq
  have hwanted := hregular.min_nonneg
  have hwantedMax := hregular.min_le
  have hinput := h.input_nonneg
  have hread := h.read_nonneg
  have hreadMax := h.read.2
  have hcreation := h.creation_nonneg
  have hcreationMax := h.creation.2
  unfold raiseInput
  by_cases hraised : usage.inputTokens ≤ 0 ∧ 0 < profile.input.minTokens
  · rw [if_pos hraised, max_eq_left hread, wantedTokens, if_pos hraised.1]
    dsimp only
    generalize profile.input.minTokens = wanted at hwanted hwantedMax hraised ⊢
    have hplainRead : plain (usage.cacheReadInputTokens - min wanted usage.cacheReadInputTokens) =
        some (usage.cacheReadInputTokens - min wanted usage.cacheReadInputTokens) :=
      plain_of_mem (by omega) (by omega)
    have hplainMissing : plain (wanted - min wanted usage.cacheReadInputTokens) =
        some (wanted - min wanted usage.cacheReadInputTokens) :=
      plain_of_mem (by omega) (by omega)
    rw [hplainRead, hplainMissing]
    simp only [Option.bind_eq_bind, Option.bind_some]
    rw [max_eq_left hcreation]
    generalize hfromCreation : min (wanted - min wanted usage.cacheReadInputTokens)
      usage.cacheCreationInputTokens = fromCreation
    have hplainInput : plain (min wanted usage.cacheReadInputTokens + fromCreation) =
        some (min wanted usage.cacheReadInputTokens + fromCreation) :=
      plain_of_mem (by omega) (by omega)
    have hplainCreation : plain (usage.cacheCreationInputTokens - fromCreation) =
        some (usage.cacheCreationInputTokens - fromCreation) := plain_of_mem (by omega) (by omega)
    have htaken : Counts { usage with
        cacheReadInputTokens :=
          usage.cacheReadInputTokens - min wanted usage.cacheReadInputTokens
        cacheCreationInputTokens := usage.cacheCreationInputTokens - fromCreation } := { h with
      read := isI32_of_mem (by dsimp only; omega) (by dsimp only; omega)
      read_nonneg := by dsimp only; omega
      creation := isI32_of_mem (by dsimp only; omega) (by dsimp only; omega)
      creation_nonneg := by dsimp only; omega }
    obtain ⟨parted, hparted, hsums, hcounts, hoverfull, hsame⟩ :=
      parted_eq usage htaken rfl rfl
    have hpartedRead := hsums.read
    have hpartedCreation := hsums.creation
    dsimp only at hparted hoverfull hsame hpartedRead hpartedCreation
    refine ⟨{ parted with
      inputTokens := min wanted usage.cacheReadInputTokens + fromCreation }, ?_, ?_,
      by dsimp only; omega, by dsimp only; omega, by dsimp only; omega⟩
    · by_cases hnone : 0 < fromCreation
      · rw [if_neg (by omega)] at hparted
        rw [if_pos hnone, hplainCreation, Option.bind_some, hparted, Option.bind_some, hplainInput]
        rfl
      · have hzero : fromCreation = 0 := by omega
        rw [if_neg hnone, hplainInput, hsame (by omega), hzero, sub_zero]
        rfl
    · refine ⟨?_, hsums.output, ?_, ?_⟩
      · exact { hcounts with
          input := isI32_of_mem (by dsimp only; omega) (by dsimp only; omega)
          input_nonneg := by dsimp only; omega }
      · exact hoverfull.trans (and_congr_right fun _ => by rw [← hpartedCreation])
      · intro hinputSame hreadSame hcreationSame
        dsimp only at hinputSame hreadSame hcreationSame ⊢
        rw [hsame (hpartedCreation.symm.trans hcreationSame)]
        dsimp only
        rw [hinputSame, ← hpartedRead, hreadSame, ← hpartedCreation, hcreationSame]
  · have hnone : wantedTokens profile usage.inputTokens = 0 := by
      unfold wantedTokens
      split_ifs <;> omega
    rw [if_neg hraised, hnone]
    exact ⟨usage, rfl, ⟨h, rfl, (and_iff_left rfl).symm, fun _ _ _ => rfl⟩, by omega, by omega,
      by omega⟩

end Steps

/-- A profile that asks for no least cost, or a price at which none can be reached. -/
def NoCostFloor (fl : Floats F) (profile : UsageShapingProfile F)
    (pricing : Option (ModelPricing F)) : Prop :=
  fl.le profile.minCostRatio (fl.ofInt 0) = true ∨
    ∀ price ∈ pricing, fl.le price.inputCostPerToken (fl.ofInt 0) = true

structure UsageShapingProfile.Unbounded (profile : UsageShapingProfile F) : Prop where
  input : profile.input.minTokens = 0 ∧ profile.input.maxTokens = 0
  output : profile.output.minTokens = 0 ∧ profile.output.maxTokens = 0
  cacheRead : profile.cacheRead.minTokens = 0 ∧ profile.cacheRead.maxTokens = 0
  cacheCreation : profile.cacheCreation.minTokens = 0 ∧ profile.cacheCreation.maxTokens = 0

/-- What the bounds of a profile ask of the result for a usage. -/
structure Respects (profile : UsageShapingProfile F) (seed : UInt64) (usage result : CacheUsage) :
    Prop where
  read : InRange profile.cacheRead (seed ^^^ saltRead ^^^ saltCap) result.cacheReadInputTokens
  creation : InRange profile.cacheCreation (seed ^^^ saltCreation ^^^ saltCap)
    result.cacheCreationInputTokens
  input : InRange profile.input (seed ^^^ saltInput ^^^ saltCap) result.inputTokens
  output : InRange profile.output (seed ^^^ saltOutput ^^^ saltCap) result.outputTokens
  input_pos : 0 < profile.input.minTokens →
    0 < usage.inputTokens ∨ 0 < usage.cacheReadInputTokens ∨ 0 < usage.cacheCreationInputTokens →
      0 < result.inputTokens
  parts : result.cacheCreation5mInputTokens + result.cacheCreation1hInputTokens =
    result.cacheCreationInputTokens
  total : result.totalInputTokens = reportedTotal result

/-- Some tokens are left, but fewer than the bounds of their field allow. -/
def LeavesTooFew (shaping : UsageFieldShaping F) (maxTokens rest : ℤ) : Prop :=
  0 < rest ∧ rest < min shaping.minTokens maxTokens

section Kept

variable (profile : UsageShapingProfile F) (seed : UInt64) (usage : CacheUsage)

def boundedRead : ℤ :=
  bounded profile.cacheRead (limit profile.cacheRead (seed ^^^ saltRead ^^^ saltCap))
    usage.cacheReadInputTokens

def boundedCreation : ℤ :=
  bounded profile.cacheCreation (limit profile.cacheCreation (seed ^^^ saltCreation ^^^ saltCap))
    usage.cacheCreationInputTokens

/-- The tokens that the minimum of the input takes from the bounded read and write. -/
def inputDemand : ℤ :=
  wantedTokens profile (inputWithCuts profile
    (limit profile.cacheRead (seed ^^^ saltRead ^^^ saltCap))
    (limit profile.cacheCreation (seed ^^^ saltCreation ^^^ saltCap)) usage)

/-- The input leaves the other bounds as they are, and the parts of the write fit. -/
structure KeepsBounds : Prop where
  read : ¬LeavesTooFew profile.cacheRead
    (limit profile.cacheRead (seed ^^^ saltRead ^^^ saltCap))
    (boundedRead profile seed usage - inputDemand profile seed usage)
  creation : ¬LeavesTooFew profile.cacheCreation
    (limit profile.cacheCreation (seed ^^^ saltCreation ^^^ saltCap))
    (boundedCreation profile seed usage -
      max (inputDemand profile seed usage - boundedRead profile seed usage) 0)
  parts : OverfullUsage usage →
    limit profile.cacheCreation (seed ^^^ saltCreation ^^^ saltCap) = i32Max →
      boundedRead profile seed usage < inputDemand profile seed usage

end Kept

structure UsageShapingProfile.Regular (profile : UsageShapingProfile F) : Prop where
  input : KiroPlus.Regular profile.input
  output : KiroPlus.Regular profile.output
  cacheRead : KiroPlus.Regular profile.cacheRead
  cacheCreation : KiroPlus.Regular profile.cacheCreation

theorem UsageShapingProfile.Fits.regular_normalized {profile : UsageShapingProfile F}
    (h : profile.Fits) : (profile.normalized fl).Regular :=
  ⟨KiroPlus.regular_normalized h.input, KiroPlus.regular_normalized h.output,
    KiroPlus.regular_normalized h.cacheRead, KiroPlus.regular_normalized h.cacheCreation⟩

/-- What the bounds make of a usage. -/
structure Shaped (profile : UsageShapingProfile F) (seed : UInt64) (usage shaped : CacheUsage) :
    Prop where
  counts : Counts shaped
  read : shaped.cacheReadInputTokens =
    max (boundedRead profile seed usage - inputDemand profile seed usage) 0
  creation : shaped.cacheCreationInputTokens = max (boundedCreation profile seed usage -
    max (inputDemand profile seed usage - boundedRead profile seed usage) 0) 0
  input : shaped.inputTokens =
    bounded profile.input (limit profile.input (seed ^^^ saltInput ^^^ saltCap))
      (inputWithCuts profile (limit profile.cacheRead (seed ^^^ saltRead ^^^ saltCap))
          (limit profile.cacheCreation (seed ^^^ saltCreation ^^^ saltCap)) usage +
        min (inputDemand profile seed usage)
          (boundedRead profile seed usage + boundedCreation profile seed usage))
  output : shaped.outputTokens =
    bounded profile.output (limit profile.output (seed ^^^ saltOutput ^^^ saltCap))
      (raiseOutput profile usage)
  overfull : OverfullUsage shaped ↔ OverfullUsage usage ∧
    boundedCreation profile seed usage = usage.cacheCreationInputTokens ∧
      shaped.cacheCreationInputTokens = boundedCreation profile seed usage
  same : inputWithCuts profile (limit profile.cacheRead (seed ^^^ saltRead ^^^ saltCap))
      (limit profile.cacheCreation (seed ^^^ saltCreation ^^^ saltCap)) usage = usage.inputTokens →
    inputDemand profile seed usage = 0 →
    boundedRead profile seed usage = usage.cacheReadInputTokens →
    boundedCreation profile seed usage = usage.cacheCreationInputTokens →
    shaped.inputTokens = usage.inputTokens → shaped.outputTokens = usage.outputTokens →
      shaped = usage

section Finalize

variable {profile : UsageShapingProfile F} {seed : UInt64} {usage shaped : CacheUsage}

theorem applyCostFloor_eq {pricing : Option (ModelPricing F)}
    (h : NoCostFloor fl profile pricing) (usage raw : CacheUsage) :
    applyCostFloor profile fl usage pricing raw = usage := by
  unfold applyCostFloor
  split_ifs with hratio
  · rfl
  · obtain hratio' | hprice := h
    · exact absurd hratio' hratio
    · cases pricing with
      | none => rfl
      | some price => exact if_pos (hprice price rfl)

def shape (profile : UsageShapingProfile F) (seed : UInt64) (usage : CacheUsage) :
    Option CacheUsage := do
  let usage ← boundCache profile seed usage
  let usage ← raiseInput profile usage
  let inputTokens ← boundField profile.input (seed ^^^ saltInput ^^^ saltCap) usage.inputTokens
  let outputTokens ← boundField profile.output (seed ^^^ saltOutput ^^^ saltCap)
    (raiseOutput profile usage)
  return { usage with inputTokens, outputTokens }

theorem shape_eq (seed : UInt64) (hprofile : profile.Regular) (h : Counts usage) :
    ∃ shaped, shape profile seed usage = some shaped ∧ Shaped profile seed usage shaped := by
  obtain ⟨capped, hcapped, hstep, hinput, hread, hcreation⟩ := boundCache_eq seed h
    (effectiveMax_limit hprofile.cacheRead _) (effectiveMax_limit hprofile.cacheCreation _)
    ⟨limit_pos hprofile.cacheRead _, limit_le hprofile.cacheRead _⟩
    ⟨limit_pos hprofile.cacheCreation _, limit_le hprofile.cacheCreation _⟩
  obtain ⟨raised, hraised, hstep', hinput', hread', hcreation'⟩ :=
    raiseInput_eq hstep.counts hprofile.input
  have hboundInput := boundField_eq
    (effectiveMax_limit hprofile.input (seed ^^^ saltInput ^^^ saltCap)) raised.inputTokens
  have hboundOutput := boundField_eq
    (effectiveMax_limit hprofile.output (seed ^^^ saltOutput ^^^ saltCap))
    (raiseOutput profile raised)
  have houtput : raised.outputTokens = usage.outputTokens := hstep'.output.trans hstep.output
  have hraiseOutput : raiseOutput profile raised = raiseOutput profile usage := by
    unfold raiseOutput
    rw [houtput]
  change capped.cacheReadInputTokens = boundedRead profile seed usage at hread
  change capped.cacheCreationInputTokens = boundedCreation profile seed usage at hcreation
  have hdemand : wantedTokens profile capped.inputTokens = inputDemand profile seed usage := by
    rw [hinput, inputDemand]
  rw [hdemand, hread] at hread'
  rw [hdemand, hread, hcreation] at hcreation'
  rw [hdemand, hread, hcreation, hinput] at hinput'
  refine ⟨{ raised with
    inputTokens := bounded profile.input
      (limit profile.input (seed ^^^ saltInput ^^^ saltCap)) raised.inputTokens
    outputTokens := bounded profile.output
      (limit profile.output (seed ^^^ saltOutput ^^^ saltCap)) (raiseOutput profile raised) },
    ?_, ?_⟩
  · unfold shape
    rw [hcapped]
    simp only [Option.bind_eq_bind, Option.bind_some]
    rw [hraised]
    simp only [Option.bind_some]
    rw [hboundInput, hboundOutput]
    rfl
  · exact
      { counts := { hstep'.counts with
          input := isI32_of_mem ((bounded_mem profile.input (limit_pos hprofile.input _) _).1)
            ((bounded_mem profile.input (limit_pos hprofile.input _) _).2.trans
              (limit_le hprofile.input _))
          input_nonneg := (bounded_mem profile.input (limit_pos hprofile.input _) _).1
          output := isI32_of_mem ((bounded_mem profile.output (limit_pos hprofile.output _) _).1)
            ((bounded_mem profile.output (limit_pos hprofile.output _) _).2.trans
              (limit_le hprofile.output _))
          output_nonneg := (bounded_mem profile.output (limit_pos hprofile.output _) _).1 }
        read := hread'
        creation := hcreation'
        input := by rw [← hinput']
        output := by rw [← hraiseOutput]
        overfull := by
          refine hstep'.overfull.trans ?_
          rw [hstep.overfull, hcreation, and_assoc]
        same := by
          intro hcuts hnone hreadSame hcreationSame hinputSame houtputSame
          have hcapped : capped = usage :=
            hstep.same (hinput.trans hcuts) (hread.trans hreadSame) (hcreation.trans hcreationSame)
          have hreadNonneg := h.read_nonneg
          have hcreationNonneg := h.creation_nonneg
          have hraised : raised = capped := by
            refine hstep'.same ?_ ?_ ?_
            · rw [hinput', hinput, hnone, hreadSame, hcreationSame]
              omega
            · rw [hread', hread, hnone, hreadSame]
              omega
            · rw [hcreation', hcreation, hnone, hreadSame, hcreationSame]
              omega
          dsimp only at hinputSame houtputSame
          rw [hinputSame, houtputSame, hraised, hcapped] }

theorem inRange_iff {shaping : UsageFieldShaping F} (hshaping : Regular shaping) {rest : ℤ}
    (hrest : rest ≤ limit shaping seed) :
    InRange shaping seed (max rest 0) ↔ ¬LeavesTooFew shaping (limit shaping seed) rest := by
  have hmin := hshaping.min_nonneg
  have hpos := limit_pos hshaping seed
  unfold InRange LeavesTooFew
  rw [effectiveMax_limit hshaping seed]
  simp only [Option.mem_some_iff, forall_eq']
  omega

theorem inRange_bounded {shaping : UsageFieldShaping F} (hshaping : Regular shaping) (value : ℤ) :
    InRange shaping seed (bounded shaping (limit shaping seed) value) :=
  bounded_inRange (effectiveMax_limit hshaping seed) value

theorem boundedCreation_of_overfull (h : OverfullUsage usage) (hprofile : profile.Regular) :
    boundedCreation profile seed usage =
      limit profile.cacheCreation (seed ^^^ saltCreation ^^^ saltCap) := by
  have hmax := i32Max_eq
  have hle := limit_le hprofile.cacheCreation (seed ^^^ saltCreation ^^^ saltCap)
  obtain ⟨hcreation, -⟩ := h
  unfold boundedCreation bounded
  rw [hcreation]
  split_ifs <;> omega

theorem Shaped.overfull_iff (h : Shaped profile seed usage shaped) (hprofile : profile.Regular) :
    OverfullUsage shaped ↔ OverfullUsage usage ∧
      limit profile.cacheCreation (seed ^^^ saltCreation ^^^ saltCap) = i32Max ∧
        inputDemand profile seed usage ≤ boundedRead profile seed usage := by
  rw [h.overfull, h.creation]
  refine and_congr_right fun hoverfull => ?_
  have hpos := limit_pos hprofile.cacheCreation (seed ^^^ saltCreation ^^^ saltCap)
  rw [boundedCreation_of_overfull hoverfull hprofile, hoverfull.1]
  omega

theorem Shaped.input_pos (h : Shaped profile seed usage shaped) (hprofile : profile.Regular)
    (husage : Counts usage) (hmin : 0 < profile.input.minTokens)
    (hsome : 0 < usage.inputTokens ∨ 0 < usage.cacheReadInputTokens ∨
      0 < usage.cacheCreationInputTokens) : 0 < shaped.inputTokens := by
  have hread : 0 < usage.cacheReadInputTokens → 0 < boundedRead profile seed usage :=
    bounded_pos (limit_pos hprofile.cacheRead _)
  have hcreation : 0 < usage.cacheCreationInputTokens → 0 < boundedCreation profile seed usage :=
    bounded_pos (limit_pos hprofile.cacheCreation _)
  have hreadNonneg : 0 ≤ boundedRead profile seed usage :=
    (bounded_mem _ (limit_pos hprofile.cacheRead _) _).1
  have hcreationNonneg : 0 ≤ boundedCreation profile seed usage :=
    (bounded_mem _ (limit_pos hprofile.cacheCreation _) _).1
  have hinput := husage.input_nonneg
  have hmax := i32Max_eq
  rw [h.input]
  refine bounded_pos (limit_pos hprofile.input _) ?_
  unfold inputDemand wantedTokens inputWithCuts
  split_ifs <;> omega

theorem Shaped.respects_iff (h : Shaped profile seed usage shaped) (hprofile : profile.Regular)
    (husage : Counts usage) :
    Respects profile seed usage (normalizeShapedCacheUsage shaped) ↔
      KeepsBounds profile seed usage := by
  have hdemand : 0 ≤ inputDemand profile seed usage := by
    have hmin := hprofile.input.min_nonneg
    unfold inputDemand wantedTokens
    split_ifs <;> omega
  have hreadLe : boundedRead profile seed usage ≤ _ :=
    (bounded_mem profile.cacheRead (limit_pos hprofile.cacheRead _) _).2
  have hcreationLe : boundedCreation profile seed usage ≤ _ :=
    (bounded_mem profile.cacheCreation (limit_pos hprofile.cacheCreation _) _).2
  have hread := inRange_iff hprofile.cacheRead
    (show boundedRead profile seed usage - inputDemand profile seed usage ≤
      limit profile.cacheRead (seed ^^^ saltRead ^^^ saltCap) by omega)
  have hcreation := inRange_iff hprofile.cacheCreation
    (show boundedCreation profile seed usage -
      max (inputDemand profile seed usage - boundedRead profile seed usage) 0 ≤
        limit profile.cacheCreation (seed ^^^ saltCreation ^^^ saltCap) by omega)
  have hparts := parts_normalizeShaped_iff h.counts.toFits
  rw [h.overfull_iff hprofile] at hparts
  rw [← h.read, ← max_eq_left h.counts.read_nonneg,
    ← cacheReadInputTokens_normalizeShaped] at hread
  rw [← h.creation, ← max_eq_left h.counts.creation_nonneg,
    ← cacheCreationInputTokens_normalizeShaped] at hcreation
  constructor
  · intro hrespects
    exact ⟨hread.mp hrespects.read, hcreation.mp hrespects.creation, fun hoverfull hlimit =>
      not_le.mp fun hle => hparts.mp hrespects.parts ⟨hoverfull, hlimit, hle⟩⟩
  · intro hkeeps
    refine ⟨hread.mpr hkeeps.read, hcreation.mpr hkeeps.creation, ?_, ?_, ?_, ?_, ?_⟩
    · rw [inputTokens_normalizeShaped, max_eq_left h.counts.input_nonneg, h.input]
      exact inRange_bounded hprofile.input _
    · rw [outputTokens_normalizeShaped, h.output]
      exact inRange_bounded hprofile.output _
    · intro hmin hsome
      rw [inputTokens_normalizeShaped]
      exact lt_max_of_lt_left (h.input_pos hprofile husage hmin hsome)
    · exact hparts.mpr fun ⟨hoverfull, hlimit, hle⟩ =>
        absurd (hkeeps.parts hoverfull hlimit) (not_lt.mpr hle)
    · exact totalInputTokens_normalizeShaped shaped

theorem bounded_of_unbounded {shaping : UsageFieldShaping F} (hshaping : Regular shaping)
    (h : shaping.minTokens = 0 ∧ shaping.maxTokens = 0) {value : ℤ} (hzero : 0 ≤ value)
    (hmax : value ≤ i32Max) : bounded shaping (limit shaping seed) value = value := by
  rw [limit_of_max_eq_zero hshaping seed h.2, bounded, h.1]
  split_ifs <;> omega

/-- Without bounds nothing is changed. -/
theorem Shaped.eq_of_unbounded (h : Shaped profile seed usage shaped) (hprofile : profile.Regular)
    (husage : Counts usage) (hunbounded : profile.Unbounded) : shaped = usage := by
  have hread : boundedRead profile seed usage = usage.cacheReadInputTokens :=
    bounded_of_unbounded hprofile.cacheRead hunbounded.cacheRead husage.read_nonneg husage.read.2
  have hcreation : boundedCreation profile seed usage = usage.cacheCreationInputTokens :=
    bounded_of_unbounded hprofile.cacheCreation hunbounded.cacheCreation husage.creation_nonneg
      husage.creation.2
  have hdemand : inputDemand profile seed usage = 0 := by
    unfold inputDemand wantedTokens
    rw [hunbounded.input.1, ite_self]
  have hinputNonneg := husage.input_nonneg
  have hreadNonneg := husage.read_nonneg
  have hcreationNonneg := husage.creation_nonneg
  have hinputMax := husage.input.2
  have hreadMax := husage.read.2
  have hcreationMax := husage.creation.2
  have hcuts : inputWithCuts profile (limit profile.cacheRead (seed ^^^ saltRead ^^^ saltCap))
      (limit profile.cacheCreation (seed ^^^ saltCreation ^^^ saltCap)) usage =
        usage.inputTokens := by
    rw [limit_of_max_eq_zero hprofile.cacheRead _ hunbounded.cacheRead.2,
      limit_of_max_eq_zero hprofile.cacheCreation _ hunbounded.cacheCreation.2]
    unfold inputWithCuts
    split_ifs <;> omega
  refine h.same hcuts hdemand hread hcreation ?_ ?_
  · rw [h.input, hcuts, hdemand, hread, hcreation, min_eq_left (by omega), add_zero]
    exact bounded_of_unbounded hprofile.input hunbounded.input hinputNonneg hinputMax
  · have houtput : raiseOutput profile usage = usage.outputTokens := by
      unfold raiseOutput
      rw [hunbounded.output.1, if_neg fun hraised => lt_irrefl 0 hraised.2]
    rw [h.output, houtput]
    exact bounded_of_unbounded hprofile.output hunbounded.output husage.output_nonneg
      husage.output.2

end Finalize

section Main

variable (fl) (shaper : KiroPlusShaper F) (profile : UsageShapingProfile F)
  (amplified controlled : CacheUsage) (pricing : Option (ModelPricing F)) (raw : CacheUsage)

/-- The shaper has a result, which keeps to the profile and is no other one where the profile is
without bounds and nothing was held back. -/
def FinalizeRespects : Prop :=
  ∃ result, shaper.finalize fl amplified controlled pricing raw = some result ∧
    Respects profile shaper.seed
      (redirected shaper.suppressedCreationTarget amplified controlled) result ∧
    (profile.Unbounded →
      amplified.cacheCreationInputTokens ≤ controlled.cacheCreationInputTokens →
        result = normalizeShapedCacheUsage controlled)

variable {fl shaper profile amplified controlled pricing}

theorem finalize_eq (hselected : shaper.selected = .profile profile)
    (hprofile : profile.Regular) (hamplified : Counts amplified)
    (hheld : HeldBack amplified controlled) (hfloor : NoCostFloor fl profile pricing) : ∃ shaped,
    shaper.finalize fl amplified controlled pricing raw =
      some (normalizeShapedCacheUsage shaped) ∧
    Shaped profile shaper.seed
      (redirected shaper.suppressedCreationTarget amplified controlled) shaped := by
  obtain ⟨shaped, hshape, hshaped⟩ := shape_eq shaper.seed hprofile
    (hheld.counts_redirected hamplified shaper.suppressedCreationTarget)
  refine ⟨shaped, ?_, hshaped⟩
  have hfinalize : shaper.finalize fl amplified controlled pricing raw =
      (shape profile shaper.seed
        (redirected shaper.suppressedCreationTarget amplified controlled)).bind fun usage =>
          some (normalizeShapedCacheUsage (applyCostFloor profile fl usage pricing raw)) := by
    unfold KiroPlusShaper.finalize shape
    rw [hselected]
    dsimp only
    rw [hheld.redirect_eq hamplified]
    simp only [Option.bind_eq_bind, Option.bind_some, Option.bind_assoc, Option.pure_def]
  rw [hfinalize, hshape, Option.bind_some, applyCostFloor_eq hfloor]

theorem finalizeRespects_iff (hselected : shaper.selected = .profile profile)
    (hprofile : profile.Regular) (hamplified : Counts amplified)
    (hheld : HeldBack amplified controlled) (hfloor : NoCostFloor fl profile pricing) :
    FinalizeRespects fl shaper profile amplified controlled pricing raw ↔
      KeepsBounds profile shaper.seed
        (redirected shaper.suppressedCreationTarget amplified controlled) := by
  obtain ⟨shaped, hfinalize, hshaped⟩ :=
    finalize_eq raw hselected hprofile hamplified hheld hfloor
  have husage := hheld.counts_redirected hamplified shaper.suppressedCreationTarget
  rw [← hshaped.respects_iff hprofile husage]
  constructor
  · rintro ⟨result, hresult, hrespects, -⟩
    rwa [← Option.some.inj (hfinalize.symm.trans hresult)] at hrespects
  · intro hrespects
    refine ⟨_, hfinalize, hrespects, fun hunbounded hle => ?_⟩
    rw [hshaped.eq_of_unbounded hprofile husage hunbounded,
      hheld.redirected_of_le hamplified _ hle]

end Main

theorem finalize_respects_iff {profile : UsageShapingProfile F} (hprofile : profile.Fits)
    (target : SuppressedCreationTarget) (seed : UInt64) {amplified controlled : CacheUsage}
    (hamplified : Counts amplified) (hcontrolled : Controlled amplified controlled)
    {pricing : Option (ModelPricing F)}
    (hfloor : NoCostFloor fl (profile.normalized fl) pricing) (raw : CacheUsage) :
    FinalizeRespects fl ⟨target, .profile (profile.normalized fl), seed⟩ (profile.normalized fl)
        amplified controlled pricing raw ↔
      KeepsBounds (profile.normalized fl) seed (redirected target amplified controlled) :=
  finalizeRespects_iff raw rfl hprofile.regular_normalized hamplified
    (hcontrolled.heldBack hamplified) hfloor

def openShaping : UsageFieldShaping ℚ := ⟨1, 0, 0, 0, 0⟩

def twoMinima : UsageShapingProfile ℚ where
  input := { openShaping with minTokens := 100 }
  output := openShaping
  cacheRead := { openShaping with minTokens := 2000 }
  cacheCreation := openShaping
  capOverflowToInput := false
  minCostRatio := 0

def onlyRead (read : ℤ) : CacheUsage where
  totalInputTokens := read
  inputTokens := 0
  outputTokens := 7
  cacheCreationInputTokens := 0
  cacheReadInputTokens := read
  cacheCreation5mInputTokens := 0
  cacheCreation1hInputTokens := 0

def uncontrolled : PromptCacheCreationControlConfig where
  enabled := false
  scopeMode := .conversationModel
  minSuccessfulRequestsBetweenCreation := 0
  minCreationIntervalSecs := 0
  minCreationDeltaTokens := 0
  maxCreationTokensPerEvent := 0
  creationBudgetWindowSecs := 0
  maxCreationTokensPerWindow := 0
  expireAfterIdleSecs := 0

theorem noCostFloor_none (profile : UsageShapingProfile ℚ) :
    NoCostFloor rationalFloats profile none :=
  .inr fun _ hprice => absurd hprice (Option.not_mem_none _)

theorem controlled_self (usage : CacheUsage) : Controlled usage usage :=
  ⟨fun _ => 0, uncontrolled, [], ⟨0, none, usage, none, none, false⟩, rfl, rfl⟩

theorem fits_twoMinima : twoMinima.Fits :=
  ⟨⟨by decide, by decide, by decide⟩, ⟨by decide, by decide, by decide⟩,
    ⟨by decide, by decide, by decide⟩, ⟨by decide, by decide, by decide⟩⟩

theorem counts_onlyRead {read : ℤ} (hzero : 0 ≤ read) (hmax : read ≤ i32Max) :
    Counts (onlyRead read) where
  total := isI32_of_mem hzero hmax
  input := show IsI32 0 by decide
  output := show IsI32 7 by decide
  creation := show IsI32 0 by decide
  read := isI32_of_mem hzero hmax
  creation5m := show IsI32 0 by decide
  creation1h := show IsI32 0 by decide
  input_nonneg := le_rfl
  output_nonneg := show 0 ≤ 7 by decide
  creation_nonneg := le_rfl
  read_nonneg := hzero
  creation5m_nonneg := le_rfl
  creation1h_nonneg := le_rfl

/-- Of a read of two thousand tokens only nineteen hundred are left. -/
theorem not_respects_onlyRead : ¬∀ (profile : UsageShapingProfile ℚ) (target seed)
    (amplified controlled : CacheUsage) (pricing : Option (ModelPricing ℚ)) (raw : CacheUsage),
    profile.Fits → Counts amplified → Controlled amplified controlled →
      NoCostFloor rationalFloats (profile.normalized rationalFloats) pricing →
        FinalizeRespects rationalFloats
          ⟨target, .profile (profile.normalized rationalFloats), seed⟩
          (profile.normalized rationalFloats) amplified controlled pricing raw := by
  intro h
  obtain ⟨result, hresult, hrespects, -⟩ := h twoMinima .input 0 (onlyRead 2000) (onlyRead 2000)
    none (onlyRead 2000) fits_twoMinima (counts_onlyRead (by decide) (by decide))
    (controlled_self _) (noCostFloor_none _)
  have hread : result.cacheReadInputTokens = 1900 := by
    have hfinalize : KiroPlusShaper.finalize rationalFloats
        ⟨.input, .profile (twoMinima.normalized rationalFloats), 0⟩ (onlyRead 2000)
        (onlyRead 2000) none (onlyRead 2000) = some ⟨2000, 100, 7, 0, 1900, 0, 0⟩ := by
      rfl
    rw [← Option.some.inj (hfinalize.symm.trans hresult)]
  have hmax : effectiveMax (twoMinima.normalized rationalFloats).cacheRead
      (0 ^^^ saltRead ^^^ saltCap) = some i32Max := rfl
  obtain hzero | hrange := hrespects.read
  · exact absurd (hread.symm.trans hzero) (by decide)
  · have hle := (hrange i32Max hmax).1
    rw [hread] at hle
    exact absurd hle (by decide)

theorem finalize_respects_iff_onlyRead :
    FinalizeRespects rationalFloats
        ⟨.input, .profile (twoMinima.normalized rationalFloats), 0⟩
        (twoMinima.normalized rationalFloats) (onlyRead 2100) (onlyRead 2100) none
        (onlyRead 2100) ↔
      KeepsBounds (twoMinima.normalized rationalFloats) 0
        (redirected .input (onlyRead 2100) (onlyRead 2100)) :=
  finalize_respects_iff fits_twoMinima .input 0 (counts_onlyRead (by decide) (by decide))
    (controlled_self _) (noCostFloor_none _) _

end KiroProxy.UsageShaping.KiroPlus
