import KiroProxy.UsageShaping.HitShaping

/-!
# Shaped usages are within their limits

From the first split on, the read and the write are within their limits, and input, read and write
make up at least the total that came in. Every step keeps this, so that none of its operations
overflows. The steps leave the parts of the write alone.
-/

namespace KiroProxy.UsageShaping.HitShaping

open PromptCache.CreationControl

def Yields {α : Type} (result : Option α) (p : α → Prop) : Prop := ∃ a, result = some a ∧ p a

section Yields

variable {α β : Type} {p : α → Prop} {q : β → Prop}

theorem yields_some {a : α} (h : p a) : Yields (some a) p := ⟨a, rfl, h⟩

theorem Yields.bind {result : Option α} {next : α → Option β} (h : Yields result p)
    (hnext : ∀ a, p a → Yields (next a) q) : Yields (result >>= next) q := by
  obtain ⟨a, rfl, ha⟩ := h
  exact hnext a ha

end Yields

theorem yields_checked {value : ℤ} (hlow : 0 ≤ value) (hhigh : value ≤ i32Max) :
    Yields (checked value) (· = value) :=
  ⟨value, checked_eq hlow hhigh, rfl⟩

theorem yields_checkedClamp {low high : ℤ} (h : low ≤ high) (value : ℤ) :
    Yields (checkedClamp value low high) fun clamped => low ≤ clamped ∧ clamped ≤ high := by
  refine ⟨clampInt value low high, checkedClamp_eq h value, ?_⟩
  unfold clampInt
  omega

theorem yields_runRounds {p : CacheUsage → Prop} {round : CacheUsage → Option (CacheUsage × Bool)}
    (hround : ∀ usage, p usage → Yields (round usage) fun next => p next.1) (rounds : ℕ)
    {usage : CacheUsage} (h : p usage) : Yields (runRounds round rounds usage) p := by
  induction rounds generalizing usage with
  | zero => exact yields_some h
  | succ rounds ih =>
    refine (hround usage h).bind fun next hnext => ?_
    split_ifs
    · exact ih hnext
    · exact yields_some hnext

theorem yields_bisect {F : Type} {fl : Floats F} {p : CacheUsage → Prop}
    {split : F → Option CacheUsage} (hsplit : ∀ ratio, Yields (split ratio) p)
    (holds : CacheUsage → Bool) (rounds : ℕ) (low high : F) :
    Yields (bisect fl split holds rounds low high) fun _ => True := by
  induction rounds generalizing low high with
  | zero => exact yields_some trivial
  | succ rounds ih =>
    refine (hsplit _).bind fun shaped _ => ?_
    split_ifs
    · exact ih _ _
    · exact ih _ _

variable {F : Type} {fl : Floats F} {bounds : ShapingBounds}

/-- The limits leave room and have 32 bits. -/
structure Roomy (bounds : ShapingBounds) : Prop where
  inputMin : 0 ≤ bounds.inputMin
  inputMax : bounds.inputMin ≤ bounds.inputMax
  readCap : 0 < bounds.readCap
  readCap_le : bounds.readCap ≤ i32Max
  creationCap : 0 < bounds.creationCap
  creationCap_le : bounds.creationCap ≤ i32Max

/-- The limits of an input have 32 bits. -/
structure CacheHitShapingInput.Fits (input : CacheHitShapingInput F) : Prop where
  maxRead : input.maxCacheReadTokens ≤ i32Max
  maxCreation : input.maxCacheCreationTokens ≤ i32Max

theorem roomy_new {input : CacheHitShapingInput F} (h : input.Fits) (usage : CacheUsage) :
    Roomy (ShapingBounds.new fl usage input) := by
  have hinput := limitOf_pos input.inputMaxTokens
  have hread := limitOf_pos input.maxCacheReadTokens
  have hreadLe := limitOf_le h.maxRead
  obtain ⟨hcap, hcapLe⟩ := multiplierCap_mem fl input.policy (reportedTotal input.raw)
  unfold ShapingBounds.new
  dsimp only
  exact
    { inputMin := by dsimp only; omega
      inputMax := by dsimp only; omega
      readCap := by dsimp only; split_ifs <;> omega
      readCap_le := by dsimp only; split_ifs <;> omega
      creationCap := limitOf_pos _
      creationCap_le := limitOf_le h.maxCreation }

/-- A usage shaped from another: its read and its write are within the limits, its tokens are not
fewer, and the rest of it is as it was. -/
structure Shape (usage : CacheUsage) (bounds : ShapingBounds) (allowed : Bool)
    (shaped : CacheUsage) : Prop where
  input : 0 ≤ shaped.inputTokens
  input_le : shaped.inputTokens ≤ i32Max
  read : 0 ≤ shaped.cacheReadInputTokens
  read_le : shaped.cacheReadInputTokens ≤ bounds.readCap
  creation : 0 ≤ shaped.cacheCreationInputTokens
  creation_le : shaped.cacheCreationInputTokens ≤ bounds.creationCap
  creation_none : allowed = false → shaped.cacheCreationInputTokens = 0
  enough : reportedTotal usage ≤
    shaped.inputTokens + shaped.cacheReadInputTokens + shaped.cacheCreationInputTokens
  total : shaped.totalInputTokens = usage.totalInputTokens
  output : shaped.outputTokens = usage.outputTokens
  creation5m : shaped.cacheCreation5mInputTokens = usage.cacheCreation5mInputTokens
  creation1h : shaped.cacheCreation1hInputTokens = usage.cacheCreation1hInputTokens

namespace Shape

variable {usage shaped : CacheUsage} {allowed : Bool}

theorem raiseRead (h : Shape usage bounds allowed shaped) {read : ℤ}
    (hle : shaped.cacheReadInputTokens ≤ read) (hcap : read ≤ bounds.readCap) :
    Shape usage bounds allowed { shaped with cacheReadInputTokens := read } :=
  { h with
    read := h.read.trans hle
    read_le := hcap
    enough := by have henough := h.enough; dsimp only; omega }

theorem raiseCreation (h : Shape usage bounds true shaped) {creation : ℤ}
    (hle : shaped.cacheCreationInputTokens ≤ creation) (hcap : creation ≤ bounds.creationCap) :
    Shape usage bounds true { shaped with cacheCreationInputTokens := creation } :=
  { h with
    creation := h.creation.trans hle
    creation_le := hcap
    creation_none := fun hnone => absurd hnone Bool.true_eq_false_eq_False
    enough := by have henough := h.enough; dsimp only; omega }

theorem addInput (h : Shape usage bounds allowed shaped) {tokens : ℤ} (hpos : 0 ≤ tokens) :
    Shape usage bounds allowed
      { shaped with inputTokens := saturate (shaped.inputTokens + tokens) } := by
  have hinput := h.input
  have hle := h.input_le
  have henough := h.enough
  have hsum := @saturate_eq_min (shaped.inputTokens + tokens) (by omega)
  exact
    { h with
      input := by dsimp only; omega
      input_le := by dsimp only; omega
      enough := by dsimp only; omega }

theorem moveCreation (h : Shape usage bounds allowed shaped) (hcap : 0 ≤ bounds.creationCap) :
    Shape usage bounds allowed
      { shaped with
        inputTokens := saturate (shaped.inputTokens + shaped.cacheCreationInputTokens)
        cacheCreationInputTokens := 0 } := by
  have hinput := h.input
  have hread := h.read
  have hcreation := h.creation
  have henough := h.enough
  have hmax := reportedTotal_le usage
  have hpos : 0 ≤ i32Max := by decide
  have hsum := @saturate_eq_min (shaped.inputTokens + shaped.cacheCreationInputTokens) (by omega)
  exact
    { h with
      input := by dsimp only; omega
      input_le := by dsimp only; omega
      creation := le_rfl
      creation_le := hcap
      creation_none := fun _ => rfl
      enough := by dsimp only; omega }

end Shape

/-- Input and write of the tokens that are not read. What they lack fits into the read. -/
structure SplitOf (bounds : ShapingBounds) (allowed : Bool) (read nonRead : ℤ) (split : ℤ × ℤ) :
    Prop where
  input : 0 ≤ split.1
  creation : 0 ≤ split.2
  creation_none : allowed = false → split.2 = 0
  sum_le : split.1 + split.2 ≤ nonRead
  le_sum : read + nonRead ≤ split.1 + split.2 + bounds.readCap

section Split

variable {usage : CacheUsage} {allowed : Bool} {read nonRead : ℤ}

theorem splitOf_sum {split : ℤ × ℤ} (hread : read ≤ bounds.readCap) (hinput : 0 ≤ split.1)
    (hcreation : 0 ≤ split.2) (hnone : allowed = false → split.2 = 0)
    (hsum : split.1 + split.2 = nonRead) : SplitOf bounds allowed read nonRead split :=
  ⟨hinput, hcreation, hnone, hsum.le, by omega⟩

theorem yields_splitNonRead (h : Roomy bounds) (hread : 0 ≤ read) (hcap : read ≤ bounds.readCap)
    (hnonRead : 0 ≤ nonRead) (hmax : nonRead ≤ i32Max) :
    Yields (splitNonRead usage bounds allowed read nonRead) (SplitOf bounds allowed read nonRead) := by
  have hmin := h.inputMin
  have hcapMax := h.readCap_le
  unfold splitNonRead
  cases allowed with
  | true =>
    rw [if_pos rfl]
    refine (yields_checkedClamp h.inputMax _).bind fun input hinput => ?_
    refine (yields_checked (by omega) (by omega)).bind ?_
    rintro _ rfl
    exact yields_some (splitOf_sum hcap (by dsimp only; omega) (by dsimp only; omega)
      (fun hnone => absurd hnone Bool.true_eq_false_eq_False) (by dsimp only; omega))
  | false =>
    rw [if_neg Bool.false_ne_true]
    refine (yields_checkedClamp h.inputMax _).bind fun input hinput => ?_
    refine (yields_checked (by omega) (by omega)).bind ?_
    rintro _ rfl
    have hroom : saturate (bounds.readCap - read) = bounds.readCap - read := by
      rw [saturate_eq_min (by omega)]
      omega
    rw [hroom]
    refine (yields_checked (by omega) (by omega)).bind ?_
    rintro _ rfl
    have hrest := @saturate_eq_min (min input nonRead + (nonRead - min input nonRead -
      min (nonRead - min input nonRead) (max (bounds.readCap - read) 0))) (by omega)
    exact yields_some
      { input := by dsimp only; omega
        creation := le_rfl
        creation_none := fun _ => rfl
        sum_le := by dsimp only; omega
        le_sum := by dsimp only; omega }

theorem yields_raiseSplit (h : Roomy bounds) (hcap : read ≤ bounds.readCap)
    (hnonRead : 0 ≤ nonRead) (hmax : nonRead ≤ i32Max) {minCreation : ℤ} {split : ℤ × ℤ}
    (hsplit : SplitOf bounds allowed read nonRead split) :
    Yields (raiseSplit bounds minCreation allowed nonRead split)
      (SplitOf bounds allowed read nonRead) := by
  have hmin := h.inputMin
  unfold raiseSplit
  split_ifs with hsmall hallowed hfits
  · obtain ⟨rfl, hroom⟩ := hallowed
    have hpos : minCreation ≤ nonRead := by
      unfold saturate at hroom
      have hlow : i32Min < 0 := by decide
      omega
    refine (yields_checked (by omega) (by omega)).bind ?_
    rintro _ rfl
    exact yields_some (splitOf_sum hcap (by dsimp only; omega) (by dsimp only; omega)
      (fun hnone => absurd hnone Bool.true_eq_false_eq_False) (by dsimp only; omega))
  · exact yields_some (splitOf_sum hcap hnonRead le_rfl (fun _ => rfl) (add_zero _))
  · exact yields_some hsplit
  · exact yields_some hsplit

theorem yields_capSplit (h : Roomy bounds) (hmax : nonRead ≤ i32Max) {split : ℤ × ℤ}
    (hsplit : SplitOf bounds allowed read nonRead split) :
    Yields (capSplit bounds split) fun capped =>
      SplitOf bounds allowed read nonRead capped ∧ capped.2 ≤ bounds.creationCap := by
  have hpos := h.creationCap
  obtain ⟨hinput, hcreation, hnone, hle, hge⟩ := hsplit
  unfold capSplit
  split_ifs with hover
  · refine (yields_checked (by omega) (by omega)).bind ?_
    rintro _ rfl
    have hsum := @saturate_eq_min (split.1 + (split.2 - bounds.creationCap)) (by omega)
    refine yields_some ⟨?_, le_rfl⟩
    exact
      { input := by dsimp only; omega
        creation := hpos.le
        creation_none := fun hallowed => absurd (hnone hallowed) (by omega)
        sum_le := by dsimp only; omega
        le_sum := by dsimp only; omega }
  · exact yields_some ⟨⟨hinput, hcreation, hnone, hle, hge⟩, not_lt.mp hover⟩

/-- A split makes up the total, within the limits. -/
theorem yields_solveSplit (h : Roomy bounds) {policy : CacheHitShapingPolicy F} (ratio : F) :
    Yields (solveSplit fl usage (reportedTotal usage) bounds policy allowed ratio)
      (Shape usage bounds allowed) := by
  have htotal := reportedTotal_nonneg usage
  have hmax := reportedTotal_le usage
  have hcap := h.readCap
  have hcapMax := h.readCap_le
  unfold solveSplit
  refine (yields_checkedClamp htotal _).bind fun clamped hclamped => ?_
  refine (yields_checked (by omega) (by omega)).bind ?_
  rintro _ rfl
  refine (yields_splitNonRead h (by omega) (min_le_right _ _) (by omega) (by omega)).bind
    fun first hfirst => ?_
  refine (yields_raiseSplit h (min_le_right _ _) (by omega) (by omega) hfirst).bind
    fun raised hraised => ?_
  refine (yields_capSplit h (by omega) hraised).bind fun split hsplit => ?_
  obtain ⟨⟨hinput, hcreation, hnone, hle, hge⟩, hcreationCap⟩ := hsplit
  refine (yields_checked (by omega) (by omega)).bind ?_
  rintro _ rfl
  refine (yields_checked (by omega) (by omega)).bind ?_
  rintro _ rfl
  exact yields_some
    { input := hinput
      input_le := by dsimp only; omega
      read := le_max_right _ _
      read_le := by dsimp only; omega
      creation := hcreation
      creation_le := hcreationCap
      creation_none := hnone
      enough := by dsimp only; omega
      total := rfl
      output := rfl
      creation5m := rfl
      creation1h := rfl }

end Split

theorem yields_losslessSplit {usage : CacheUsage} (h : Roomy bounds) {target : F}
    {policy : CacheHitShapingPolicy F} {input : CacheHitShapingInput F} {pricing : ModelPricing F}
    {floor : F} :
    Yields (losslessSplit fl usage (reportedTotal usage) target bounds policy input pricing floor)
      fun lossless => ∀ shaped ∈ lossless, Shape usage bounds input.creationAllowed shaped := by
  have hsplit (ratio : F) := @yields_solveSplit F fl bounds usage input.creationAllowed h policy ratio
  unfold losslessSplit
  refine (hsplit _).bind fun unread _ => ?_
  split_ifs
  · exact yields_some (fun shaped hshaped => absurd hshaped (Option.not_mem_none shaped))
  · refine (yields_bisect hsplit _ _ _ _).bind fun low _ => ?_
    refine (hsplit _).bind fun jittered hjittered => ?_
    split_ifs
    · exact yields_some (fun shaped hshaped => Option.some.inj hshaped ▸ hjittered)
    · refine (hsplit _).bind fun lossless hlossless => ?_
      exact yields_some (fun shaped hshaped => Option.some.inj hshaped ▸ hlossless)

section Cost

variable {usage shaped : CacheUsage} {allowed : Bool} {pricing : ModelPricing F} {floor : F}

theorem toI64_share_nonneg {nonRead : ℤ} (h : 0 ≤ nonRead) {readShare : F}
    (hshare : fl.isNonneg readShare = true) :
    0 ≤ fl.toI64 (fl.round (fl.mul (fl.ofInt nonRead) readShare)) :=
  fl.toI64_nonneg _ (fl.isNonneg_round _
    (fl.isNonneg_mul _ _ (fl.isNonneg_ofInt nonRead h) hshare))

theorem yields_addRead (h : Shape usage bounds allowed shaped) (hroomy : Roomy bounds) {read : ℤ}
    (hread : 0 ≤ read) (hroom : read ≤ max (bounds.readCap - max shaped.cacheReadInputTokens 0) 0) :
    Yields (addRead read shaped) (Shape usage bounds allowed) := by
  have hpos := h.read
  have hcap := h.read_le
  have hmax := hroomy.readCap_le
  unfold addRead
  refine (yields_checked (by omega) (by omega)).bind ?_
  rintro _ rfl
  exact yields_some (h.raiseRead (by omega) (by omega))

theorem yields_fillRead (h : Shape usage bounds allowed shaped) (hroomy : Roomy bounds) :
    Yields (fillRead (max (bounds.readCap - max shaped.cacheReadInputTokens 0) 0) shaped)
      (Shape usage bounds allowed) := by
  have hpos := h.read
  have hcap := h.read_le
  have hmax := hroomy.readCap_le
  unfold fillRead
  refine (yields_checked (by omega) (by omega)).bind ?_
  rintro _ rfl
  refine (yields_checked (by omega) (by omega)).bind ?_
  rintro _ rfl
  exact yields_some (h.raiseRead (by omega) (by omega))

/-- The room for a write is that below its limit, and there is none for a write that is not
allowed. -/
theorem creationRoom_pos (h : Shape usage bounds allowed shaped)
    (hroom : 0 < creationRoom fl pricing bounds allowed shaped) : allowed = true ∧
      creationRoom fl pricing bounds allowed shaped =
        bounds.creationCap - shaped.cacheCreationInputTokens := by
  have hcreation := h.creation
  have hcap := h.creation_le
  unfold creationRoom at hroom ⊢
  split_ifs at hroom ⊢ with hallowed
  · exact ⟨hallowed.1, by omega⟩
  · exact absurd hroom (lt_irrefl 0)

theorem yields_addNonRead (h : Shape usage bounds allowed shaped) (hroomy : Roomy bounds)
    {nonRead : ℤ} (hpos : 0 ≤ nonRead) (hmax : nonRead ≤ i32Max) {toCreation : Bool}
    (hcreation : toCreation = true → allowed = true ∧
      nonRead ≤ bounds.creationCap - shaped.cacheCreationInputTokens) :
    Yields (addNonRead toCreation nonRead shaped) fun next => Shape usage bounds allowed next ∧
      next.cacheReadInputTokens = shaped.cacheReadInputTokens := by
  have hexisting := h.creation
  have hcap := hroomy.creationCap_le
  unfold addNonRead
  cases toCreation with
  | true =>
    obtain ⟨rfl, hroom⟩ := hcreation rfl
    rw [if_pos rfl]
    refine (yields_checked (by omega) (by omega)).bind ?_
    rintro _ rfl
    exact yields_some ⟨h.raiseCreation (by omega) (by omega), rfl⟩
  | false =>
    rw [if_neg Bool.false_ne_true]
    refine (yields_checked hpos hmax).bind ?_
    rintro _ rfl
    exact yields_some ⟨h.addInput hpos, rfl⟩

theorem nonReadFor_le (gap cost readShare : F) (room readRoom : ℤ) :
    nonReadFor fl gap cost readShare room readRoom ≤ room ∧
      nonReadFor fl gap cost readShare room readRoom ≤ i32Max := by
  have hcount := fl.toI64_clamp_count (fl.ceil (fl.div gap cost)) (show 0 ≤ i32Max by decide) le_rfl
  unfold nonReadFor
  dsimp only
  split_ifs <;> omega

theorem yields_raiseRound (hroomy : Roomy bounds) {readsPerNonRead : F}
    (hshare : fl.isNonneg readsPerNonRead = true) (topUpInput : Bool)
    (h : Shape usage bounds allowed shaped) :
    Yields (raiseRound fl pricing floor bounds readsPerNonRead allowed topUpInput shaped)
      fun next => Shape usage bounds allowed next.1 := by
  have hroom := @creationRoom_pos F fl bounds usage shaped allowed pricing h
  unfold raiseRound
  dsimp only
  generalize creationRoom fl pricing bounds allowed shaped = room at hroom ⊢
  generalize hreadRoom : max (bounds.readCap - max shaped.cacheReadInputTokens 0) 0 = readRoom
  have hreadShare : fl.isNonneg (if 0 < readRoom then readsPerNonRead else fl.ofInt 0) = true := by
    split_ifs
    · exact hshare
    · exact fl.isNonneg_ofInt 0 le_rfl
  generalize (if 0 < readRoom then readsPerNonRead else fl.ofInt 0) = readShare at hreadShare ⊢
  generalize fl.add _ (fl.mul readShare pricing.cacheReadInputTokenCost) = cost
  obtain ⟨hle, hmax⟩ := @nonReadFor_le F fl (costGap fl pricing floor shaped) cost readShare
    (if 0 < room then room else i32Max) readRoom
  generalize nonReadFor fl _ cost readShare _ readRoom = nonRead at hle hmax ⊢
  split_ifs with hstop hnone hfill
  · exact yields_some h
  · subst hreadRoom
    refine (yields_fillRead h hroomy).bind fun next hnext => ?_
    exact yields_some hnext
  · exact yields_some h
  · have hcreation (htoCreation : decide (0 < room) = true) : allowed = true ∧
        nonRead ≤ bounds.creationCap - shaped.cacheCreationInputTokens := by
      have hpos := of_decide_eq_true htoCreation
      obtain ⟨hallowed, heq⟩ := hroom hpos
      rw [if_pos hpos, heq] at hle
      exact ⟨hallowed, hle⟩
    refine (yields_addNonRead h hroomy (by omega) hmax hcreation).bind fun added hadded => ?_
    obtain ⟨hadded, hread⟩ := hadded
    have hpos := toI64_share_nonneg (not_le.mp hnone).le hreadShare
    rw [← hread] at hreadRoom
    refine (yields_addRead hadded hroomy (by omega) (by omega)).bind fun next hnext => ?_
    exact yields_some hnext

theorem yields_raiseCostAtRatio (hroomy : Roomy bounds) (ratio : F) (topUpInput : Bool)
    (h : Shape usage bounds allowed shaped) :
    Yields (raiseCostAtRatio fl pricing floor bounds ratio allowed topUpInput shaped)
      (Shape usage bounds allowed) := by
  have hlimit : (0 : ℚ) ≤ 99 / 100 ∧ (99 / 100 : ℚ) < 1 := by norm_num
  have hratio := fl.isNonneg_clamp ratio _ hlimit.1
  have hrest := fl.isPos_sub_clamp ratio _ hlimit.1 hlimit.2
  exact yields_runRounds
    (fun _ hshape => yields_raiseRound hroomy (fl.isNonneg_div _ _ hratio hrest) topUpInput hshape) 8 h

theorem fits_shape (h : Shape usage bounds allowed shaped) (hroomy : Roomy bounds)
    (hfits : Fits usage) : Fits shaped := by
  have hmin : i32Min ≤ 0 := by decide
  exact
    { total := h.total ▸ hfits.total
      input := ⟨hmin.trans h.input, h.input_le⟩
      output := h.output ▸ hfits.output
      creation := ⟨hmin.trans h.creation, h.creation_le.trans hroomy.creationCap_le⟩
      read := ⟨hmin.trans h.read, h.read_le.trans hroomy.readCap_le⟩
      creation5m := h.creation5m ▸ hfits.creation5m
      creation1h := h.creation1h ▸ hfits.creation1h }

variable {policy : CacheHitShapingPolicy F}

theorem yields_raiseCreationCost (hroomy : Roomy bounds)
    (htokens : creationTokens fl pricing floor shaped < 2 ^ 62)
    (h : Shape usage bounds allowed shaped) :
    Yields (raiseCreationCost fl pricing floor bounds policy allowed shaped)
      (Shape usage bounds allowed) := by
  have hcreation := h.creation
  have hcap := h.creation_le
  have hcapMax := hroomy.creationCap_le
  have hmax : i32Max < 2 ^ 31 := by decide
  obtain ⟨hlow, -⟩ := fl.toI64_mem
    (fl.ceil (fl.div (costGap fl pricing floor shaped) pricing.cacheCreationInputTokenCost))
  have hsum : Yields (checkedI64 (max shaped.cacheCreationInputTokens 0 +
      creationTokens fl pricing floor shaped))
      (· = max shaped.cacheCreationInputTokens 0 + creationTokens fl pricing floor shaped) := by
    unfold creationTokens at htokens ⊢
    exact ⟨_, if_pos (by omega), rfl⟩
  unfold raiseCreationCost
  split_ifs with hallowed
  · obtain ⟨rfl, -⟩ := hallowed
    refine hsum.bind ?_
    rintro _ rfl
    dsimp only
    generalize (if max shaped.cacheCreationInputTokens 0 + creationTokens fl pricing floor shaped <
      max policy.minCacheCreationTokens 0 then
        max policy.minCacheCreationTokens 0 - max shaped.cacheCreationInputTokens 0
      else creationTokens fl pricing floor shaped) = tokens
    split_ifs
    · refine (yields_checked (by omega) (by omega)).bind ?_
      rintro _ rfl
      exact yields_some (h.raiseCreation (by omega) (by omega))
    · exact yields_some h
  · exact yields_some h

theorem shape_raiseInputCost (h : Shape usage bounds allowed shaped) :
    Shape usage bounds allowed (raiseInputCost fl pricing floor policy shaped) := by
  unfold raiseInputCost
  split_ifs
  · exact h.addInput (fl.toI32_clamp_count _ (by decide) le_rfl).1
  · exact h

theorem yields_raiseCostToFloor (hroomy : Roomy bounds)
    (htokens : creationTokens fl pricing floor shaped < 2 ^ 62)
    (h : Shape usage bounds allowed shaped) :
    Yields (raiseCostToFloor fl pricing floor bounds policy allowed shaped)
      (Shape usage bounds allowed) := by
  unfold raiseCostToFloor
  split_ifs
  · exact yields_some h
  · refine (yields_raiseCreationCost hroomy htokens h).bind fun next hnext => ?_
    exact yields_some (shape_raiseInputCost hnext)

end Cost

section Steps

variable {usage shaped : CacheUsage} {allowed : Bool} {policy : CacheHitShapingPolicy F}

theorem shape_raiseSmallRead (policy : CacheHitShapingPolicy F)
    (h : Shape usage bounds allowed shaped) :
    Shape usage bounds allowed (raiseSmallRead shaped policy bounds) := by
  have hread := h.read
  have hcap := h.read_le
  unfold raiseSmallRead
  dsimp only
  split_ifs with hsmall
  · exact h.raiseRead (by omega) (min_le_right _ _)
  · exact h

theorem shape_raiseSmallCreation (policy : CacheHitShapingPolicy F) (hroomy : Roomy bounds)
    (h : Shape usage bounds allowed shaped) :
    Shape usage bounds allowed (raiseSmallCreation shaped policy bounds allowed) := by
  have hcreation := h.creation
  unfold raiseSmallCreation
  dsimp only
  split_ifs with hsmall hraise
  · obtain ⟨rfl, hcap⟩ := hraise
    exact h.raiseCreation (by omega) hcap
  · rw [max_eq_left hcreation]
    exact h.moveCreation hroomy.creationCap.le
  · exact h

theorem shape_suppressCreation (hroomy : Roomy bounds) (h : Shape usage bounds allowed shaped) :
    Shape usage bounds allowed (suppressCreation shaped allowed) := by
  unfold suppressCreation
  split_ifs
  · exact h.moveCreation hroomy.creationCap.le
  · exact h

theorem shape_raiseCreationToMin {input : CacheHitShapingInput F}
    (h : Shape usage bounds input.creationAllowed shaped) :
    Shape usage bounds input.creationAllowed
      (raiseCreationToMin fl shaped input policy bounds) := by
  unfold raiseCreationToMin
  dsimp only
  split_ifs with hnone hraise
  · exact h
  · have hallowed : input.creationAllowed = true :=
      Bool.eq_true_of_not_eq_false (not_or.mp hnone).1
    rw [hallowed] at h ⊢
    exact h.raiseCreation hraise.le (min_le_right _ _)
  · exact h

theorem shape_raiseReadToRatio (hroomy : Roomy bounds) {ratio : F}
    (h : Shape usage bounds allowed shaped) :
    Shape usage bounds allowed (raiseReadToRatio fl shaped ratio bounds.readCap) := by
  have hcap := hroomy.readCap
  have hlow : -2 ^ 31 ≤ bounds.readCap := by omega
  unfold raiseReadToRatio
  dsimp only
  split_ifs with hnone hraise
  · exact h
  · exact h.raiseRead hraise.le (fl.toI32_min _ _ hlow hroomy.readCap_le)
  · exact h

end Steps

/-- The numbers of written tokens that follow from the prices are below `2 ^ 62`. -/
def SmallCounts (fl : Floats F) (input : CacheHitShapingInput F) : Prop :=
  ∀ pricing ∈ input.pricing, ∀ floor ∈ costFloor fl input, ∀ usage, Fits usage →
    creationTokens fl pricing floor usage < 2 ^ 62

/-- A write of the largest size comes in with too many parts, and nothing limits it. -/
def Overfilled (usage : CacheUsage) (input : CacheHitShapingInput F) : Prop :=
  OverfullUsage usage ∧ input.creationAllowed = true ∧
    limitOf input.maxCacheCreationTokens = i32Max

/-- What a shaped usage has to be. -/
structure InCaps (fl : Floats F) (usage : CacheUsage) (input : CacheHitShapingInput F)
    (result : CacheUsage) : Prop where
  inputTokens : 0 ≤ result.inputTokens
  read : 0 ≤ result.cacheReadInputTokens
  creation : 0 ≤ result.cacheCreationInputTokens
  creation5m : 0 ≤ result.cacheCreation5mInputTokens
  creation1h : 0 ≤ result.cacheCreation1hInputTokens
  output : result.outputTokens = usage.outputTokens
  read_le : result.cacheReadInputTokens ≤
    (ShapingBounds.new fl (normalizeShapedCacheUsage usage) input).readCap
  creation_le : result.cacheCreationInputTokens ≤
    (ShapingBounds.new fl (normalizeShapedCacheUsage usage) input).creationCap
  creation_none : input.creationAllowed = false → result.cacheCreationInputTokens = 0
  parts : result.cacheCreation5mInputTokens + result.cacheCreation1hInputTokens =
    result.cacheCreationInputTokens
  total : result.totalInputTokens = reportedTotal result
  enough : reportedTotal (normalizeShapedCacheUsage usage) ≤
    result.inputTokens + result.cacheReadInputTokens + result.cacheCreationInputTokens

section Result

variable {usage shaped : CacheUsage} {input : CacheHitShapingInput F}

theorem yields_raiseSplitCost (hroomy : Roomy bounds) {target : F} {pricing : ModelPricing F}
    {floor : F} (h : Shape usage bounds input.creationAllowed shaped) :
    Yields (raiseSplitCost fl usage (reportedTotal usage) target bounds input pricing floor shaped)
      (Shape usage bounds input.creationAllowed) := by
  unfold raiseSplitCost
  dsimp only
  split_ifs
  · exact yields_some h
  · exact yields_raiseCostAtRatio hroomy target _ h
  · refine (yields_losslessSplit hroomy).bind fun lossless hlossless => ?_
    refine yields_some ?_
    cases lossless with
    | none => exact h
    | some split => exact hlossless split rfl

theorem yields_splitByTarget (hroomy : Roomy bounds) {target : F} :
    Yields (splitByTarget fl usage (reportedTotal usage) target bounds input)
      (Shape usage bounds input.creationAllowed) := by
  unfold splitByTarget
  refine (yields_solveSplit hroomy target).bind fun split hsplit => ?_
  split
  · exact yields_raiseSplitCost hroomy hsplit
  · exact yields_some hsplit

theorem yields_raiseToFloor (hroomy : Roomy bounds) (hfits : Fits usage)
    (hsmall : SmallCounts fl input) (h : Shape usage bounds input.creationAllowed shaped) :
    Yields (raiseToFloor fl bounds input shaped)
      (Shape usage bounds input.creationAllowed) := by
  unfold raiseToFloor
  split
  · rename_i floor pricing hfloor hpricing
    exact yields_raiseCostToFloor hroomy
      (hsmall pricing hpricing floor hfloor shaped (fits_shape h hroomy hfits)) h
  · exact yields_some h

theorem yields_shapeEnabled (hroomy : Roomy (ShapingBounds.new fl usage input))
    (hfits : Fits usage) (hsmall : SmallCounts fl input)
    (hratio : shapesRatio fl input usage = true) :
    Yields (shapeEnabled fl usage input) fun result => ∃ shaped,
      Shape usage (ShapingBounds.new fl usage input) input.creationAllowed shaped ∧
        result = normalizeShapedCacheUsage shaped := by
  unfold shapeEnabled
  dsimp only
  rw [if_pos hratio]
  refine (yields_splitByTarget hroomy).bind fun split hsplit => ?_
  have hsuppressed := shape_suppressCreation hroomy
    (shape_raiseSmallCreation (input.policy.normalized fl) hroomy
      (shape_raiseSmallRead (input.policy.normalized fl) hsplit))
  refine (yields_raiseToFloor hroomy hfits hsmall hsuppressed).bind fun raised hraised => ?_
  rw [if_pos hratio]
  exact yields_some ⟨_, shape_raiseReadToRatio hroomy (shape_raiseCreationToMin hraised), rfl⟩

theorem fits_normalizeShaped (h : Fits usage) : Fits (normalizeShapedCacheUsage usage) := by
  have hmin : i32Min ≤ 0 := by decide
  have hsettled := settled_normalizeShaped h
  have hpos := reportedTotal_nonneg (normalizeShapedCacheUsage usage)
  have htotal := hsettled.total
  exact
    { total := ⟨by omega, htotal ▸ reportedTotal_le _⟩
      input := by rw [inputTokens_normalizeShaped]; exact isI32_max_zero h.input
      output := by rw [outputTokens_normalizeShaped]; exact h.output
      creation := ⟨hmin.trans hsettled.creation, hsettled.creation_le⟩
      read := by rw [cacheReadInputTokens_normalizeShaped]; exact isI32_max_zero h.read
      creation5m := ⟨hmin.trans hsettled.creation5m, hsettled.creation5m_le⟩
      creation1h := ⟨hmin.trans hsettled.creation1h, hsettled.creation1h_le⟩ }

/-- The normalised shape has all that is asked for, if its parts do not overfill it. -/
theorem inCaps_iff (husage : Fits usage)
    (hroomy : Roomy (ShapingBounds.new fl (normalizeShapedCacheUsage usage) input))
    (h : Shape (normalizeShapedCacheUsage usage)
      (ShapingBounds.new fl (normalizeShapedCacheUsage usage) input) input.creationAllowed shaped) :
    InCaps fl usage input (normalizeShapedCacheUsage shaped) ↔
      ¬(OverfullUsage usage ∧
        (normalizeShapedCacheUsage shaped).cacheCreationInputTokens = i32Max) := by
  have hfits := fits_shape h hroomy (fits_normalizeShaped husage)
  have hsettled := settled_normalizeShaped hfits
  have hinput := max_eq_left h.input
  have hread := max_eq_left h.read
  have hcreation := max_eq_left h.creation
  rw [cacheCreationInputTokens_normalizeShaped, hcreation,
    ← overfull_of_parts_iff husage h.creation5m h.creation1h, ← parts_normalizeShaped_iff hfits]
  constructor
  · exact InCaps.parts
  · intro hparts
    exact
      { inputTokens := hsettled.input
        read := hsettled.read
        creation := hsettled.creation
        creation5m := hsettled.creation5m
        creation1h := hsettled.creation1h
        output := by rw [outputTokens_normalizeShaped, h.output, outputTokens_normalizeShaped]
        read_le := by rw [cacheReadInputTokens_normalizeShaped, hread]; exact h.read_le
        creation_le := by rw [cacheCreationInputTokens_normalizeShaped, hcreation]; exact h.creation_le
        creation_none := by
          rw [cacheCreationInputTokens_normalizeShaped, hcreation]
          exact h.creation_none
        parts := hparts
        total := hsettled.total
        enough := by
          rw [inputTokens_normalizeShaped, cacheReadInputTokens_normalizeShaped,
            cacheCreationInputTokens_normalizeShaped, hinput, hread, hcreation]
          exact h.enough }

end Result

/-- Shaping the hit ratio overflows nowhere and keeps within the limits, unless a write of the
largest size comes in with too many parts and nothing limits it; and only if the write is not of the
largest size in the end. -/
theorem shapeCacheHitUsage_inCaps (fl : Floats F) (usage : CacheUsage)
    (input : CacheHitShapingInput F) (husage : Fits usage) (hfits : input.Fits)
    (henabled : (input.policy.normalized fl).enabled = true)
    (htotal : 1 < reportedTotal (normalizeShapedCacheUsage usage))
    (hratio : shapesRatio fl input (normalizeShapedCacheUsage usage) = true)
    (hsmall : SmallCounts fl input) :
    ∃ result, shapeCacheHitUsage fl usage input = some result ∧
      (¬Overfilled usage input → InCaps fl usage input result) ∧
      (InCaps fl usage input result ↔
        ¬(OverfullUsage usage ∧ result.cacheCreationInputTokens = i32Max)) := by
  have hroomy := @roomy_new F fl input hfits (normalizeShapedCacheUsage usage)
  obtain ⟨_, hresult, shaped, hshape, rfl⟩ :=
    yields_shapeEnabled hroomy (fits_normalizeShaped husage) hsmall hratio
  have hiff := inCaps_iff husage hroomy hshape
  refine ⟨_, ?_, fun hnot => hiff.mpr fun hover => ?_, hiff⟩
  · unfold shapeCacheHitUsage
    rw [henabled, if_neg Bool.true_eq_false_eq_False]
    dsimp only
    rw [if_neg (not_le.mpr htotal), hresult]
  · obtain ⟨hover, hlargest⟩ := hover
    have hcap : shaped.cacheCreationInputTokens ≤ limitOf input.maxCacheCreationTokens :=
      hshape.creation_le
    have hcapMax := limitOf_le hfits.maxCreation
    have hpos : 0 < i32Max := by decide
    rw [cacheCreationInputTokens_normalizeShaped] at hlargest
    refine hnot ⟨hover, Bool.eq_true_of_not_eq_false fun hnone => ?_, by omega⟩
    have hzero := hshape.creation_none hnone
    omega

/-- Hardly anything is to be read, and nothing is limited. -/
def openPolicy : CacheHitShapingPolicy ℚ where
  enabled := true
  targetHitRatio := 1 / 1000000000000
  ratioJitter := 0
  minCacheReadTokens := 0
  minCacheCreationTokens := 0
  minCostRatio := 1
  maxReadMultiplier := 0
  minCreationRatio := 0
  readAwareCostFloor := true
  costFloorTopUpInput := true

def openInput : CacheHitShapingInput ℚ where
  policy := openPolicy
  hasReusablePrefix := true
  creationAllowed := true
  raw := ⟨0, 100, 0, 0, 0, 0, 0⟩
  pricing := none
  inputMinTokens := 0
  inputMaxTokens := 0
  maxCacheReadTokens := 0
  maxCacheCreationTokens := 0
  seed := 0

def unitPricing : ModelPricing ℚ := ⟨1, 1, 1, 0, 1⟩

theorem estimate_unitPricing_nonneg (usage : CacheUsage) :
    0 ≤ unitPricing.estimate rationalFloats usage := by
  have hcost : unitPricing.effectiveCacheCreation1hInputTokenCost rationalFloats = 2 := by
    decide +kernel
  have hone : unitPricing.inputCostPerToken = 1 ∧ unitPricing.outputCostPerToken = 1 ∧
      unitPricing.cacheCreationInputTokenCost = 1 ∧ unitPricing.cacheReadInputTokenCost = 1 :=
    ⟨rfl, rfl, rfl, rfl⟩
  unfold ModelPricing.estimate
  rw [hcost, hone.1, hone.2.1, hone.2.2.1, hone.2.2.2]
  unfold rationalFloats
  dsimp only
  rw [mul_one, mul_one, mul_one, mul_one]
  norm_cast
  omega

def pricedInput : CacheHitShapingInput ℚ := { openInput with pricing := some unitPricing }

theorem smallCounts_pricedInput : SmallCounts rationalFloats pricedInput := by
  intro pricing hpricing floor hfloor usage _
  obtain rfl := Option.some.inj hpricing
  obtain rfl : 100 = floor := Option.some.inj
    ((show some 100 = costFloor rationalFloats pricedInput by decide +kernel).trans hfloor)
  have hestimate := estimate_unitPricing_nonneg usage
  have hgap : ((⌈(100 - unitPricing.estimate rationalFloats usage) / 1⌉ : ℤ) : ℚ) ≤ (100 : ℤ) := by
    have hceil : ⌈(100 - unitPricing.estimate rationalFloats usage) / 1⌉ ≤ 100 :=
      Int.ceil_le.mpr (by push_cast; linarith)
    exact_mod_cast hceil
  have htokens := truncate_le hgap
  change max (-2 ^ 63) (min (truncate
    ((⌈(100 - unitPricing.estimate rationalFloats usage) / 1⌉ : ℤ) : ℚ)) (2 ^ 63 - 1)) < 2 ^ 62
  omega

theorem not_inCaps_openInput : ¬∃ result,
    shapeCacheHitUsage rationalFloats ⟨0, 0, 0, 2147483647, 0, 2147483647, 1⟩ openInput = some result ∧
      InCaps rationalFloats ⟨0, 0, 0, 2147483647, 0, 2147483647, 1⟩ openInput result := by
  rintro ⟨result, hresult, hinCaps⟩
  have hover : (shapeCacheHitUsage rationalFloats ⟨0, 0, 0, 2147483647, 0, 2147483647, 1⟩
      openInput).map (fun usage => usage.cacheCreation5mInputTokens +
        usage.cacheCreation1hInputTokens - usage.cacheCreationInputTokens) = some 1 := by
    decide +kernel
  rw [hresult] at hover
  have hone : result.cacheCreation5mInputTokens + result.cacheCreation1hInputTokens -
      result.cacheCreationInputTokens = 1 := Option.some.inj hover
  have hparts := hinCaps.parts
  omega

theorem shapeCacheHitUsage_inCaps_pricedInput : ∃ result,
    shapeCacheHitUsage rationalFloats ⟨0, 10, 0, 20, 30, 20, 0⟩ pricedInput = some result ∧
      InCaps rationalFloats ⟨0, 10, 0, 20, 30, 20, 0⟩ pricedInput result := by
  obtain ⟨result, hresult, hinCaps, -⟩ := shapeCacheHitUsage_inCaps rationalFloats
    ⟨0, 10, 0, 20, 30, 20, 0⟩ pricedInput
    ⟨by decide, by decide, by decide, by decide, by decide, by decide, by decide⟩
    ⟨by decide, by decide⟩ rfl (by decide) (by decide +kernel) smallCounts_pricedInput
  exact ⟨result, hresult, hinCaps fun h => absurd h.1.1 (by decide)⟩

end KiroProxy.UsageShaping.HitShaping
