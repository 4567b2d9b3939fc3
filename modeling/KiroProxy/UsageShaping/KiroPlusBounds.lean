import KiroProxy.UsageShaping.KiroPlus

/-!
# When the shaped counts are within their bounds

Each count is brought into its bounds, but an input of zero then takes its minimum from the read and
from the write, which are not looked at again: what is left of them may be below their own minimum.
-/

namespace KiroProxy.UsageShaping.KiroPlus

open PromptCache.CreationControl

variable {F : Type} {fl : Floats F}

/-- What holds of the bounds of a normalised field. -/
structure Regular (shaping : UsageFieldShaping F) : Prop where
  min_nonneg : 0 ≤ shaping.minTokens
  min_le : shaping.minTokens ≤ i32Max
  max_nonneg : 0 ≤ shaping.maxTokens
  max_le : shaping.maxTokens ≤ i32Max
  jitter_nonneg : 0 ≤ shaping.maxJitterTokens

structure UsageFieldShaping.Fits (shaping : UsageFieldShaping F) : Prop where
  min : IsI32 shaping.minTokens
  max : IsI32 shaping.maxTokens
  jitter : IsI32 shaping.maxJitterTokens

theorem i32Max_eq : i32Max = 2147483647 := by decide

theorem i32Min_eq : i32Min = -2147483648 := by decide

theorem plain_of_mem {value : ℤ} (hlow : i32Min ≤ value) (hhigh : value ≤ i32Max) :
    plain value = some value := if_pos ⟨hlow, hhigh⟩

theorem regular_normalized {shaping : UsageFieldShaping F} (h : shaping.Fits) :
    Regular (shaping.normalized fl) := by
  have hmin := h.min.2
  have hmax := h.max.2
  have hpos : 0 ≤ i32Max := by decide
  refine ⟨?_, ?_, ?_, ?_, ?_⟩ <;> dsimp only [UsageFieldShaping.normalized]
  · split_ifs <;> omega
  · split_ifs <;> omega
  · omega
  · omega
  · omega

section Field

variable {shaping : UsageFieldShaping F} {seed : UInt64} {maxTokens value : ℤ}

theorem effectiveMax_eq (h : Regular shaping) (seed : UInt64) : ∃ maxTokens,
    effectiveMax shaping seed = some maxTokens ∧ 1 ≤ maxTokens ∧ maxTokens ≤ i32Max ∧
      (shaping.maxTokens = 0 → maxTokens = i32Max) := by
  have hmax := h.max_le
  have hnonneg := h.max_nonneg
  have hi32 := i32Max_eq
  unfold effectiveMax
  dsimp only
  split_ifs with hnone hjitter
  · exact ⟨i32Max, rfl, by omega, le_rfl, fun _ => rfl⟩
  · exact ⟨shaping.maxTokens, rfl, by omega, hmax, fun hzero => by omega⟩
  · obtain ⟨deduction, hdeduction⟩ : ∃ deduction : ℕ, deduction = (splitmix64 seed).toNat %
        ((max (min shaping.maxJitterTokens (saturate (shaping.maxTokens - 1))) 0).toNat + 1) :=
      ⟨_, rfl⟩
    have hlt : deduction < (max (min shaping.maxJitterTokens
        (saturate (shaping.maxTokens - 1))) 0).toNat + 1 :=
      hdeduction ▸ Nat.mod_lt _ (Nat.succ_pos _)
    have hsaturate : saturate (shaping.maxTokens - 1) = shaping.maxTokens - 1 := by
      rw [saturate_eq_min (by omega)]
      omega
    have hplain : plain (shaping.maxTokens - deduction) = some (shaping.maxTokens - deduction) :=
      plain_of_mem (by rw [i32Min_eq]; omega) (by omega)
    rw [← hdeduction]
    refine ⟨max (shaping.maxTokens - deduction) 1, ?_, by omega, by omega, fun hzero => by omega⟩
    exact congrArg (Option.bind · _) hplain

def bounded (shaping : UsageFieldShaping F) (maxTokens value : ℤ) : ℤ :=
  if value ≤ 0 then 0 else min (max value shaping.minTokens) maxTokens

theorem boundCacheField_eq (hmax : effectiveMax shaping seed = some maxTokens) (value : ℤ) :
    boundCacheField shaping seed value =
      some (bounded shaping maxTokens value,
        max (saturate (max value 0 - bounded shaping maxTokens value)) 0) := by
  unfold boundCacheField bounded
  by_cases hzero : value ≤ 0
  · dsimp only
    rw [max_eq_right hzero, if_pos rfl, if_pos hzero]
    rfl
  · dsimp only
    rw [max_eq_left (not_le.mp hzero).le, if_neg (fun h => hzero h.le), hmax, if_neg hzero]
    rfl

theorem boundField_eq (hmax : effectiveMax shaping seed = some maxTokens) (value : ℤ) :
    boundField shaping seed value = some (bounded shaping maxTokens value) := by
  rw [boundField, boundCacheField_eq hmax, Option.map_some]

/-- Zero, or from the minimum, as far as the maximum with its jitter allows it, to that maximum. -/
def InRange (shaping : UsageFieldShaping F) (seed : UInt64) (value : ℤ) : Prop :=
  value = 0 ∨ ∀ maxTokens ∈ effectiveMax shaping seed,
    min shaping.minTokens maxTokens ≤ value ∧ value ≤ maxTokens

theorem bounded_inRange (hmax : effectiveMax shaping seed = some maxTokens) (value : ℤ) :
    InRange shaping seed (bounded shaping maxTokens value) := by
  unfold bounded
  split_ifs with hzero
  · exact .inl rfl
  · right
    intro maxTokens' hmax'
    obtain rfl := Option.some.inj (hmax.symm.trans hmax')
    omega

theorem bounded_pos (hpos : 1 ≤ maxTokens) (hvalue : 0 < value) :
    0 < bounded shaping maxTokens value := by
  rw [bounded, if_neg (not_le.mpr hvalue)]
  omega

theorem bounded_mem (shaping : UsageFieldShaping F) (hpos : 1 ≤ maxTokens) (value : ℤ) :
    0 ≤ bounded shaping maxTokens value ∧ bounded shaping maxTokens value ≤ maxTokens := by
  unfold bounded
  split_ifs <;> omega

end Field

/-- A usage with numbers of 32 bits none of which is negative. -/
structure Counts (usage : CacheUsage) : Prop extends Fits usage where
  input_nonneg : 0 ≤ usage.inputTokens
  output_nonneg : 0 ≤ usage.outputTokens
  creation_nonneg : 0 ≤ usage.cacheCreationInputTokens
  read_nonneg : 0 ≤ usage.cacheReadInputTokens
  creation5m_nonneg : 0 ≤ usage.cacheCreation5mInputTokens
  creation1h_nonneg : 0 ≤ usage.cacheCreation1hInputTokens

/-- What the control of the writes may make of a usage. -/
def Controlled (amplified controlled : CacheUsage) : Prop :=
  ∃ (finish : CapSeed → UInt64) (config : PromptCacheCreationControlConfig) (states : States)
    (call : Call), call.usage = amplified ∧
      controlled = (applySuccessWithMode finish config states call).2

structure HeldBack (amplified controlled : CacheUsage) : Prop where
  counts : Counts controlled
  creation_le : controlled.cacheCreationInputTokens ≤ amplified.cacheCreationInputTokens
  input : controlled.inputTokens = saturate (amplified.inputTokens +
    (amplified.cacheCreationInputTokens - controlled.cacheCreationInputTokens))

def heldBackTokens (amplified controlled : CacheUsage) : ℤ :=
  min (amplified.cacheCreationInputTokens - controlled.cacheCreationInputTokens)
    (controlled.inputTokens - amplified.inputTokens)

/-- A usage with what was held back counted as the target says. -/
def redirected (target : SuppressedCreationTarget) (amplified controlled : CacheUsage) :
    CacheUsage :=
  match target with
  | .input => controlled
  | .cacheRead =>
    { controlled with
      inputTokens := controlled.inputTokens - heldBackTokens amplified controlled
      cacheReadInputTokens :=
        min (controlled.cacheReadInputTokens + heldBackTokens amplified controlled) i32Max }
  | .drop =>
    { controlled with inputTokens := controlled.inputTokens - heldBackTokens amplified controlled }

section Usages

variable {amplified controlled usage : CacheUsage}

theorem isI32_saturate (value : ℤ) : IsI32 (saturate value) := by
  have hle : i32Min ≤ i32Max := by decide
  unfold IsI32 saturate
  omega

theorem isI32_of_mem {value : ℤ} (hzero : 0 ≤ value) (hle : value ≤ i32Max) : IsI32 value :=
  ⟨(show i32Min ≤ 0 by decide).trans hzero, hle⟩

theorem withAllowedCreation_self (usage : CacheUsage) :
    withAllowedCreation usage usage.cacheCreationInputTokens = usage := by
  unfold withAllowedCreation
  dsimp only
  rw [min_self, if_pos rfl]

theorem exists_allowed (h : Controlled amplified controlled) :
    ∃ allowed, controlled = withAllowedCreation amplified allowed := by
  obtain ⟨finish, config, states, call, rfl, rfl⟩ := h
  have hself : ∃ allowed, call.usage = withAllowedCreation call.usage allowed :=
    ⟨_, (withAllowedCreation_self call.usage).symm⟩
  unfold applySuccessWithMode
  dsimp only
  by_cases hdisabled : config.normalized.enabled = false
  · rw [if_pos hdisabled]
    exact hself
  · rw [if_neg hdisabled]
    cases call.scope with
    | none => exact hself
    | some scope =>
      dsimp only
      by_cases hnone : max call.usage.cacheCreationInputTokens 0 ≤ 0
      · rw [if_pos hnone]
        split
        · exact hself
        · exact hself
      · rw [if_neg hnone]
        exact ⟨_, rfl⟩

theorem heldBack_self (h : Counts usage) : HeldBack usage usage := by
  refine ⟨h, le_rfl, ?_⟩
  rw [sub_self, add_zero, saturate_of_isI32 h.input]

theorem heldBack_withAllowedCreation (h : Counts amplified) (allowed : ℤ) :
    HeldBack amplified (withAllowedCreation amplified allowed) := by
  have hcreation := h.creation_nonneg
  have hmax := h.creation.2
  have hinput := h.input_nonneg
  have h5m := h.creation5m_nonneg
  have h1h := h.creation1h_nonneg
  have hpos : 0 ≤ i32Max := by decide
  unfold withAllowedCreation
  dsimp only
  rw [max_eq_left hcreation]
  generalize hlimit : min (max allowed 0) amplified.cacheCreationInputTokens = limit
  have hzero : 0 ≤ limit := by omega
  have hle : limit ≤ amplified.cacheCreationInputTokens := by omega
  split_ifs with hsame
  · exact heldBack_self h
  · have hsuppressed : saturate (amplified.cacheCreationInputTokens - limit) =
        amplified.cacheCreationInputTokens - limit := by
      rw [saturate_eq_min (by omega)]
      omega
    have hrest : saturate (limit - min (max amplified.cacheCreation5mInputTokens 0) limit) =
        limit - min (max amplified.cacheCreation5mInputTokens 0) limit := by
      rw [saturate_eq_min (by omega)]
      omega
    rw [hsuppressed]
    refine ⟨?_, hle, rfl⟩
    unfold capCreationBreakdown
    dsimp only
    rw [max_eq_left hzero, hrest]
    exact
      { total := isI32_saturate _
        input := isI32_saturate _
        output := h.output
        creation := isI32_of_mem hzero (by dsimp only; omega)
        read := h.read
        creation5m := isI32_of_mem (by dsimp only; omega) (by dsimp only; omega)
        creation1h := isI32_of_mem (by dsimp only; omega) (by dsimp only; omega)
        input_nonneg := saturate_nonneg (by omega)
        output_nonneg := h.output_nonneg
        creation_nonneg := hzero
        read_nonneg := h.read_nonneg
        creation5m_nonneg := by dsimp only; omega
        creation1h_nonneg := by dsimp only; omega }

theorem Controlled.heldBack (h : Controlled amplified controlled) (hcounts : Counts amplified) :
    HeldBack amplified controlled := by
  obtain ⟨allowed, rfl⟩ := exists_allowed h
  exact heldBack_withAllowedCreation hcounts allowed

theorem HeldBack.tokens_mem (h : HeldBack amplified controlled) (hcounts : Counts amplified) :
    0 ≤ heldBackTokens amplified controlled ∧
      heldBackTokens amplified controlled ≤ controlled.inputTokens ∧
      amplified.inputTokens ≤ controlled.inputTokens := by
  have hle := h.creation_le
  have hinput := h.input
  have hnonneg := hcounts.input_nonneg
  have hmax := hcounts.input.2
  rw [saturate_eq_min (by omega)] at hinput
  unfold heldBackTokens
  omega

theorem HeldBack.redirected_of_le (h : HeldBack amplified controlled) (hcounts : Counts amplified)
    (target : SuppressedCreationTarget)
    (hle : amplified.cacheCreationInputTokens ≤ controlled.cacheCreationInputTokens) :
    redirected target amplified controlled = controlled := by
  have hnone : heldBackTokens amplified controlled = 0 := by
    obtain ⟨hnonneg, -⟩ := h.tokens_mem hcounts
    unfold heldBackTokens at hnonneg ⊢
    omega
  have hread := h.counts.read.2
  cases target with
  | input => rfl
  | cacheRead => rw [redirected, hnone, sub_zero, add_zero, min_eq_left hread]
  | drop => rw [redirected, hnone, sub_zero]

theorem HeldBack.counts_redirected (h : HeldBack amplified controlled) (hcounts : Counts amplified)
    (target : SuppressedCreationTarget) : Counts (redirected target amplified controlled) := by
  obtain ⟨hnonneg, hle, -⟩ := h.tokens_mem hcounts
  have hmax := h.counts.input.2
  have hread := h.counts.read_nonneg
  have hpos : 0 ≤ i32Max := by decide
  cases target with
  | input => exact h.counts
  | cacheRead =>
    exact { h.counts with
      input := isI32_of_mem (by dsimp only [redirected]; omega) (by dsimp only [redirected]; omega)
      input_nonneg := by dsimp only [redirected]; omega
      read := isI32_of_mem (by dsimp only [redirected]; omega) (min_le_right _ _)
      read_nonneg := by dsimp only [redirected]; omega }
  | drop =>
    exact { h.counts with
      input := isI32_of_mem (by dsimp only [redirected]; omega) (by dsimp only [redirected]; omega)
      input_nonneg := by dsimp only [redirected]; omega }

theorem HeldBack.redirect_eq (h : HeldBack amplified controlled) (hcounts : Counts amplified)
    (target : SuppressedCreationTarget) :
    redirectSuppressedCreation controlled amplified target =
      some (redirected target amplified controlled) := by
  obtain ⟨hnonneg, hheld, hinputLe⟩ := h.tokens_mem hcounts
  have hle := h.creation_le
  have hcreation := hcounts.creation.2
  have hcontrolled := h.counts.creation_nonneg
  have hamplified := hcounts.input_nonneg
  have hinputMax := h.counts.input.2
  have hread := h.counts.read_nonneg
  have hmin : i32Min ≤ 0 := by decide
  have hsuppressed : saturate (amplified.cacheCreationInputTokens -
      controlled.cacheCreationInputTokens) =
        amplified.cacheCreationInputTokens - controlled.cacheCreationInputTokens := by
    rw [saturate_eq_min (by omega)]
    omega
  have hinput : saturate (controlled.inputTokens - amplified.inputTokens) =
      controlled.inputTokens - amplified.inputTokens := by
    rw [saturate_eq_min (by omega)]
    omega
  unfold redirectSuppressedCreation
  dsimp only
  rw [hsuppressed, hinput, max_eq_left (by omega), max_eq_left (by omega)]
  split_ifs with hzero
  · rw [h.redirected_of_le hcounts target (by omega)]
  · have hplain : plain (controlled.inputTokens - heldBackTokens amplified controlled) =
        some (controlled.inputTokens - heldBackTokens amplified controlled) :=
      plain_of_mem (by omega) (by omega)
    cases target with
    | input => rfl
    | cacheRead =>
      rw [redirected, ← saturate_eq_min (by omega)]
      exact congrArg (Option.bind · _) hplain
    | drop => exact congrArg (Option.bind · _) hplain

/-- A usage that differs in the parts of its write and in its total only. -/
structure SameSums (usage usage' : CacheUsage) : Prop where
  input : usage'.inputTokens = usage.inputTokens
  output : usage'.outputTokens = usage.outputTokens
  creation : usage'.cacheCreationInputTokens = usage.cacheCreationInputTokens
  read : usage'.cacheReadInputTokens = usage.cacheReadInputTokens

theorem asI32_of_mem {value : ℤ} (hzero : 0 ≤ value) (hle : value ≤ i32Max) :
    asI32 value = value := by
  have hmax := i32Max_eq
  exact Int.bmod_eq_of_le (by omega) (by omega)

theorem not_overfull_of_add_le (h5m : 0 ≤ usage.cacheCreation5mInputTokens)
    (h1h : 0 ≤ usage.cacheCreation1hInputTokens)
    (hle : usage.cacheCreation5mInputTokens + usage.cacheCreation1hInputTokens ≤ i32Max) :
    ¬OverfullUsage usage := by
  rintro ⟨-, hlt⟩
  omega

theorem rescale_eq (h : Counts usage) (creationBefore : ℤ) : ∃ usage',
    rescaleCreationBreakdown usage creationBefore = some usage' ∧ SameSums usage usage' ∧
      Counts usage' ∧ ¬OverfullUsage usage' := by
  have hmax := i32Max_eq
  have hcreation := h.creation_nonneg
  have hcreationMax := h.creation.2
  have h5m := h.creation5m_nonneg
  have h1h := h.creation1h_nonneg
  have h1hMax := h.creation1h.2
  unfold rescaleCreationBreakdown
  dsimp only
  rw [max_eq_left hcreation, max_eq_left h5m, max_eq_left h1h, saturate_eq_min (by omega)]
  split_ifs with hnone
  · refine ⟨_, rfl, ⟨rfl, rfl, rfl, rfl⟩, ?_, ?_⟩
    · exact { h with
        creation5m := by dsimp only; decide
        creation1h := by dsimp only; decide
        creation5m_nonneg := by dsimp only; decide
        creation1h_nonneg := by dsimp only; decide }
    · exact not_overfull_of_add_le (by dsimp only; decide) (by dsimp only; decide)
        (by dsimp only; decide)
  · generalize htotal : min (usage.cacheCreation5mInputTokens + usage.cacheCreation1hInputTokens)
      i32Max = total at hnone ⊢
    -- the hour's share is at most the write, as its part is at most the total
    have hshare : usage.cacheCreation1hInputTokens * usage.cacheCreationInputTokens / total ≤
        usage.cacheCreationInputTokens := by
      refine Int.ediv_le_of_le_mul (by omega) ?_
      rw [mul_comm usage.cacheCreationInputTokens]
      exact mul_le_mul_of_nonneg_right (by omega) hcreation
    have hnonneg : 0 ≤
        usage.cacheCreation1hInputTokens * usage.cacheCreationInputTokens / total :=
      Int.ediv_nonneg (mul_nonneg h1h hcreation) (by omega)
    rw [asI32_of_mem hnonneg (by omega), max_eq_left hnonneg, min_eq_left hshare]
    generalize usage.cacheCreation1hInputTokens * usage.cacheCreationInputTokens / total = share
      at hshare hnonneg ⊢
    have hplain : plain (usage.cacheCreationInputTokens - share) =
        some (usage.cacheCreationInputTokens - share) := by
      refine plain_of_mem ?_ (by omega)
      rw [i32Min_eq]
      omega
    refine ⟨_, congrArg (Option.bind · _) hplain, ⟨rfl, rfl, rfl, rfl⟩, ?_, ?_⟩
    · exact { h with
        creation5m := isI32_of_mem (by dsimp only; omega) (by dsimp only; omega)
        creation1h := isI32_of_mem (by dsimp only; omega) (by dsimp only; omega)
        creation5m_nonneg := by dsimp only; omega
        creation1h_nonneg := by dsimp only; omega }
    · exact not_overfull_of_add_le (by dsimp only; omega) (by dsimp only; omega)
        (by dsimp only; omega)

end Usages

end KiroProxy.UsageShaping.KiroPlus
