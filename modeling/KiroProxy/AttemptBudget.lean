import Mathlib.Data.Nat.Bitwise
import Mathlib.Data.List.Nodup
import KiroProxy.Transition

/-!
# The attempt budget of an inference request

One word packs the number of consumed attempts with the flag that the downstream has
been committed to. Calls on one budget interleave at their atomic operations: `reserve`
loads the limit, updates the packed word, and then counts its channel (or records
exhaustion); raising the limit and committing are one operation each.
-/

namespace KiroProxy

inductive InferenceAttemptKind
  | localCredential
  | externalPool
  | mcp
  deriving DecidableEq, Repr

inductive InferenceAttemptRejection
  | exhausted
  | reservedForFallback
  | downstreamCommitted
  deriving DecidableEq, Repr

def minInferenceUpstreamMaxAttempts : UInt32 := 1

def maxInferenceUpstreamMaxAttempts : UInt32 := 10

def downstreamCommittedBit : UInt32 := (1 : UInt32) <<< 31

def consumedMask : UInt32 := downstreamCommittedBit - 1

def saturatingSub (a b : UInt32) : UInt32 :=
  if b ≤ a then a - b else 0

structure InferenceAttemptBudget where
  maxAttempts : UInt32
  state : UInt32
  localAttempts : UInt32
  externalAttempts : UInt32
  mcpAttempts : UInt32
  exhausted : Bool
  deriving DecidableEq, Repr

namespace InferenceAttemptBudget

def new (maxAttempts : UInt32) : InferenceAttemptBudget where
  maxAttempts :=
    max minInferenceUpstreamMaxAttempts (min maxAttempts maxInferenceUpstreamMaxAttempts)
  state := 0
  localAttempts := 0
  externalAttempts := 0
  mcpAttempts := 0
  exhausted := false

def consumed (b : InferenceAttemptBudget) : ℕ := (b.state &&& consumedMask).toNat

def committed (b : InferenceAttemptBudget) : Bool := b.state &&& downstreamCommittedBit ≠ 0

def raiseMaxAttempts (b : InferenceAttemptBudget) (required : UInt32) : InferenceAttemptBudget :=
  { b with maxAttempts := max b.maxAttempts (min required consumedMask) }

def markDownstreamCommitted (b : InferenceAttemptBudget) : InferenceAttemptBudget :=
  { b with state := b.state ||| downstreamCommittedBit }

def effectiveLimit (maxAttempts preserveAttempts : UInt32) : UInt32 :=
  saturatingSub maxAttempts (min preserveAttempts (saturatingSub maxAttempts 1))

/-- The closure that `fetch_update` applies to the packed word. -/
def updateState (limit state : UInt32) : Option UInt32 :=
  if state &&& downstreamCommittedBit ≠ 0 then none
  else if state &&& consumedMask < limit then some ((state &&& consumedMask) + 1)
  else none

def countAttempt (b : InferenceAttemptBudget) : InferenceAttemptKind → InferenceAttemptBudget
  | .localCredential => { b with localAttempts := b.localAttempts + 1 }
  | .externalPool => { b with externalAttempts := b.externalAttempts + 1 }
  | .mcp => { b with mcpAttempts := b.mcpAttempts + 1 }

/-- Where a `reserve` call stands. -/
inductive Call
  | loaded (kind : InferenceAttemptKind) (preserveAttempts maxAttempts : UInt32)
  | reserved (kind : InferenceAttemptKind) (next : UInt32)
  | exhausting
  | returned (result : Except InferenceAttemptRejection UInt32)
  deriving DecidableEq, Repr

/-- A budget and the `reserve` calls made on it so far. -/
structure System where
  budget : InferenceAttemptBudget
  calls : List Call
  deriving DecidableEq, Repr

inductive Action
  | load (kind : InferenceAttemptKind) (preserveAttempts : UInt32)
  | update (call : ℕ)
  | storeExhausted (call : ℕ)
  | count (call : ℕ)
  | raise (required : UInt32)
  | commit
  deriving DecidableEq, Repr

/-- What the `fetch_update` of a call that loaded `maxAttempts` does next. -/
def afterUpdate (b : InferenceAttemptBudget) (kind : InferenceAttemptKind)
    (preserveAttempts maxAttempts : UInt32) : InferenceAttemptBudget × Call :=
  match updateState (effectiveLimit maxAttempts preserveAttempts) b.state with
  | some state => ({ b with state }, .reserved kind ((b.state &&& consumedMask) + 1))
  | none =>
    if b.state &&& downstreamCommittedBit ≠ 0 then (b, .returned (.error .downstreamCommitted))
    else if b.state &&& consumedMask < maxAttempts then
      (b, .returned (.error .reservedForFallback))
    else (b, .exhausting)

def step (s : System) : Action → Option System
  | .load kind preserveAttempts =>
    some { s with calls := s.calls ++ [.loaded kind preserveAttempts s.budget.maxAttempts] }
  | .update call =>
    match s.calls[call]? with
    | some (.loaded kind preserveAttempts maxAttempts) =>
      let (budget, next) := s.budget.afterUpdate kind preserveAttempts maxAttempts
      some { budget, calls := s.calls.set call next }
    | _ => none
  | .storeExhausted call =>
    match s.calls[call]? with
    | some .exhausting =>
      some { budget := { s.budget with exhausted := true }
             calls := s.calls.set call (.returned (.error .exhausted)) }
    | _ => none
  | .count call =>
    match s.calls[call]? with
    | some (.reserved kind next) =>
      some { budget := s.budget.countAttempt kind
             calls := s.calls.set call (.returned (.ok next)) }
    | _ => none
  | .raise required => some { s with budget := s.budget.raiseMaxAttempts required }
  | .commit => some { s with budget := s.budget.markDownstreamCommitted }

def run : System → List Action → Option System :=
  Transition.run step

theorem toNat_downstreamCommittedBit : downstreamCommittedBit.toNat = 2 ^ 31 := by decide

theorem toNat_consumedMask : consumedMask.toNat = 2 ^ 31 - 1 := by decide

theorem toNat_and_consumedMask (state : UInt32) :
    (state &&& consumedMask).toNat = state.toNat % 2 ^ 31 := by
  rw [UInt32.toNat_and, toNat_consumedMask, Nat.and_two_pow_sub_one_eq_mod]

variable (b : InferenceAttemptBudget) (maxAttempts : UInt32) {i : ℕ} {s t : System} {a : Action}
  {call : Call} {before after : List Call} {call' : Call} {kind : InferenceAttemptKind}
  {actions : List Action} {p : UInt32}

theorem consumed_eq_mod : b.consumed = b.state.toNat % 2 ^ 31 :=
  toNat_and_consumedMask b.state

theorem and_downstreamCommittedBit_ne_zero_iff (state : UInt32) :
    state &&& downstreamCommittedBit ≠ 0 ↔ 2 ^ 31 ≤ state.toNat := by
  have hlt : state.toNat < 2 ^ 32 := state.toNat_lt
  rw [ne_eq, ← UInt32.toNat_inj, UInt32.toNat_and, toNat_downstreamCommittedBit, Nat.and_two_pow]
  cases hbit : state.toNat.testBit 31 with
  | true =>
    have := Nat.ge_two_pow_of_testBit hbit
    simpa using this
  | false =>
    have hle : state.toNat < 2 ^ 31 := by
      by_contra hge
      rw [Nat.testBit_eq_decide_div_mod_eq] at hbit
      have hdiv : state.toNat / 2 ^ 31 = 1 := by omega
      rw [hdiv] at hbit
      cases hbit
    simpa using hle

theorem committed_iff : b.committed = true ↔ 2 ^ 31 ≤ b.state.toNat := by
  rw [committed, decide_eq_true_eq, and_downstreamCommittedBit_ne_zero_iff]

theorem consumed_markDownstreamCommitted : b.markDownstreamCommitted.consumed = b.consumed := by
  rw [consumed_eq_mod, consumed_eq_mod, markDownstreamCommitted, UInt32.toNat_or,
    toNat_downstreamCommittedBit, Nat.or_mod_two_pow, Nat.mod_self, Nat.or_zero]

theorem committed_markDownstreamCommitted : b.markDownstreamCommitted.committed = true := by
  rw [committed_iff, markDownstreamCommitted, UInt32.toNat_or, toNat_downstreamCommittedBit]
  exact Nat.right_le_or

theorem toNat_saturatingSub (a b : UInt32) : (saturatingSub a b).toNat = a.toNat - b.toNat := by
  unfold saturatingSub
  split_ifs with h
  · exact UInt32.toNat_sub_of_le a b h
  · rw [UInt32.le_iff_toNat_le] at h
    simp only [UInt32.toNat_zero]
    omega

theorem toNat_min (a b : UInt32) : (min a b).toNat = min a.toNat b.toNat := by
  change (if a ≤ b then a else b).toNat = _
  rw [Nat.min_def]
  simp only [UInt32.le_iff_toNat_le]
  split_ifs <;> rfl

theorem toNat_max (a b : UInt32) : (max a b).toNat = max a.toNat b.toNat := by
  change (if a ≤ b then b else a).toNat = _
  rw [Nat.max_def]
  simp only [UInt32.le_iff_toNat_le]
  split_ifs <;> rfl

theorem toNat_effectiveLimit (maxAttempts preserveAttempts : UInt32) :
    (effectiveLimit maxAttempts preserveAttempts).toNat =
      maxAttempts.toNat - min preserveAttempts.toNat (maxAttempts.toNat - 1) := by
  rw [effectiveLimit, toNat_saturatingSub, toNat_min, toNat_saturatingSub]
  rfl

/-- The call has been refused. -/
def Call.Rejected (call : Call) : Prop :=
  call = .exhausting ∨ ∃ e, call = .returned (.error e)

/-- An update consumes one attempt and hands out its number, or refuses the call and
leaves the budget alone. -/
theorem afterUpdate_cases (kind : InferenceAttemptKind) (preserveAttempts maxAttempts : UInt32)
    (hmax : maxAttempts.toNat ≤ 2 ^ 31 - 1) :
    (b.committed = false ∧ b.consumed < (effectiveLimit maxAttempts preserveAttempts).toNat ∧
      ∃ state next, b.afterUpdate kind preserveAttempts maxAttempts =
          ({ b with state }, .reserved kind next) ∧ next.toNat = b.consumed + 1 ∧
        state.toNat = b.consumed + 1) ∨
    ((b.committed = true ∨ (effectiveLimit maxAttempts preserveAttempts).toNat ≤ b.consumed) ∧
      ∃ call, b.afterUpdate kind preserveAttempts maxAttempts = (b, call) ∧ call.Rejected) := by
  have hlimit : (effectiveLimit maxAttempts preserveAttempts).toNat ≤ 2 ^ 31 - 1 := by
    rw [toNat_effectiveLimit]
    omega
  by_cases hcommitted : b.state &&& downstreamCommittedBit ≠ 0
  · refine .inr ⟨.inl (by rw [committed, decide_eq_true hcommitted]), _, ?_,
      .inr ⟨.downstreamCommitted, rfl⟩⟩
    simp only [afterUpdate, updateState, if_pos hcommitted]
  by_cases hless : b.state &&& consumedMask < effectiveLimit maxAttempts preserveAttempts
  · have hlt : b.consumed < (effectiveLimit maxAttempts preserveAttempts).toNat :=
      UInt32.lt_iff_toNat_lt.mp hless
    have hnext : ((b.state &&& consumedMask) + 1).toNat = b.consumed + 1 := by
      rw [UInt32.toNat_add, ← consumed]
      simp only [UInt32.toNat_one]
      omega
    refine .inl ⟨by rw [committed, decide_eq_false hcommitted], hlt, _, _, ?_, hnext, hnext⟩
    simp only [afterUpdate, updateState, if_neg hcommitted, if_pos hless]
  · have hge : (effectiveLimit maxAttempts preserveAttempts).toNat ≤ b.consumed := by
      rw [UInt32.lt_iff_toNat_lt, ← consumed] at hless
      omega
    refine .inr ⟨.inr hge, ?_⟩
    by_cases hfallback : b.state &&& consumedMask < maxAttempts
    · refine ⟨_, ?_, .inr ⟨.reservedForFallback, rfl⟩⟩
      simp only [afterUpdate, updateState, if_neg hcommitted, if_neg hless, if_pos hfallback]
    · refine ⟨_, ?_, .inl rfl⟩
      simp only [afterUpdate, updateState, if_neg hcommitted, if_neg hless, if_neg hfallback]

/-- What each action does, with the arithmetic of the packed word resolved. -/
inductive Stepped (s : System) : Action → System → Prop
  | load (kind : InferenceAttemptKind) (preserve : UInt32) :
      Stepped s (.load kind preserve)
        { s with calls := s.calls ++ [.loaded kind preserve s.budget.maxAttempts] }
  | reserve {before after : List Call} {kind : InferenceAttemptKind}
      {preserve limit state next : UInt32}
      (hcalls : s.calls = before ++ .loaded kind preserve limit :: after)
      (hopen : s.budget.committed = false)
      (hlimit : s.budget.consumed < (effectiveLimit limit preserve).toNat)
      (hnext : next.toNat = s.budget.consumed + 1) (hstate : state.toNat = s.budget.consumed + 1) :
      Stepped s (.update before.length)
        ⟨{ s.budget with state }, before ++ .reserved kind next :: after⟩
  | reject {before after : List Call} {kind : InferenceAttemptKind} {preserve limit : UInt32}
      {call : Call} (hcalls : s.calls = before ++ .loaded kind preserve limit :: after)
      (hrefused : s.budget.committed = true ∨
        (effectiveLimit limit preserve).toNat ≤ s.budget.consumed)
      (hcall : call.Rejected) :
      Stepped s (.update before.length) ⟨s.budget, before ++ call :: after⟩
  | storeExhausted {before after : List Call} (hcalls : s.calls = before ++ .exhausting :: after) :
      Stepped s (.storeExhausted before.length)
        ⟨{ s.budget with exhausted := true }, before ++ .returned (.error .exhausted) :: after⟩
  | count {before after : List Call} {kind : InferenceAttemptKind} {next : UInt32}
      (hcalls : s.calls = before ++ .reserved kind next :: after) :
      Stepped s (.count before.length)
        ⟨s.budget.countAttempt kind, before ++ .returned (.ok next) :: after⟩
  | raise (required : UInt32) :
      Stepped s (.raise required) { s with budget := s.budget.raiseMaxAttempts required }
  | commit : Stepped s .commit { s with budget := s.budget.markDownstreamCommitted }

theorem exists_split_of_getElem? {β : Type*} {l : List β} {x : β} (h : l[i]? = some x) :
    ∃ before after, l = before ++ x :: after ∧ before.length = i ∧
      ∀ y, l.set i y = before ++ y :: after := by
  obtain ⟨hi, hx⟩ := List.getElem?_eq_some_iff.mp h
  have hlen : (l.take i).length = i := List.length_take_of_le hi.le
  have hsplit : l = l.take i ++ x :: l.drop (i + 1) := by
    rw [← hx, List.getElem_cons_drop, List.take_append_drop]
  refine ⟨l.take i, l.drop (i + 1), hsplit, hlen, fun y => ?_⟩
  exact List.set_eq_take_cons_drop y hi

theorem stepped_of_step (hloaded : ∀ kind preserve limit, .loaded kind preserve limit ∈ s.calls →
      limit.toNat ≤ 2 ^ 31 - 1) (h : step s a = some t) : Stepped s a t := by
  cases a with
  | load kind preserve =>
    cases h
    exact .load kind preserve
  | update i =>
    simp only [step] at h
    split at h
    · next kind preserve limit hcall =>
      obtain ⟨before, after, hcalls, rfl, hset⟩ := exists_split_of_getElem? hcall
      have hlimit := hloaded kind preserve limit (by rw [hcalls]; simp)
      rcases afterUpdate_cases s.budget kind preserve limit hlimit with
        ⟨hopen, hless, state, next, hupdate, hnext, hstate⟩ | ⟨hrefused, call, hupdate, hcall⟩
      · rw [hupdate] at h
        cases h
        simp only [hset]
        exact .reserve hcalls hopen hless hnext hstate
      · rw [hupdate] at h
        cases h
        simp only [hset]
        exact .reject hcalls hrefused hcall
    · cases h
  | storeExhausted i =>
    simp only [step] at h
    split at h
    · next hcall =>
      obtain ⟨before, after, hcalls, rfl, hset⟩ := exists_split_of_getElem? hcall
      cases h
      rw [hset]
      exact .storeExhausted hcalls
    · cases h
  | count i =>
    simp only [step] at h
    split at h
    · next kind next hcall =>
      obtain ⟨before, after, hcalls, rfl, hset⟩ := exists_split_of_getElem? hcall
      cases h
      rw [hset]
      exact .count hcalls
    · cases h
  | raise required =>
    cases h
    exact .raise required
  | commit =>
    cases h
    exact .commit

def Call.number? : Call → Option ℕ
  | .reserved _ next => some next.toNat
  | .returned (.ok next) => some next.toNat
  | _ => none

def Call.isCounted : Call → Bool
  | .returned (.ok _) => true
  | _ => false

theorem Call.Rejected.number? (h : call.Rejected) : call.number? = none := by
  rcases h with rfl | ⟨e, rfl⟩ <;> rfl

theorem Call.Rejected.isCounted (h : call.Rejected) : call.isCounted = false := by
  rcases h with rfl | ⟨e, rfl⟩ <;> rfl

/-- Attempts counted by the three channels. -/
def attempts (b : InferenceAttemptBudget) : ℕ :=
  b.localAttempts.toNat + b.externalAttempts.toNat + b.mcpAttempts.toNat

def numbers (calls : List Call) : List ℕ := calls.filterMap Call.number?

theorem numbers_append (calls calls' : List Call) :
    numbers (calls ++ calls') = numbers calls ++ numbers calls' :=
  List.filterMap_append

theorem numbers_replace (before after : List Call) (call : Call) :
    numbers (before ++ call :: after) = numbers before ++ (call.number?.toList ++ numbers after) := by
  rw [numbers_append, numbers, numbers, numbers, List.filterMap_cons]
  cases call.number? <;> rfl

theorem countP_replace (before after : List Call) (call : Call) :
    (before ++ call :: after).countP Call.isCounted =
      before.countP Call.isCounted + (after.countP Call.isCounted + call.isCounted.toNat) := by
  rw [List.countP_append, List.countP_cons]
  cases call.isCounted <;> rfl

theorem countP_isCounted_le (calls : List Call) :
    calls.countP Call.isCounted ≤ (numbers calls).length := by
  induction calls with
  | nil => exact le_rfl
  | cons call calls ih =>
    have hcall : call.isCounted.toNat ≤ call.number?.toList.length := by
      rcases call with _ | _ | _ | _ | _ <;> simp [Call.isCounted, Call.number?]
    have hcount := countP_replace [] calls call
    have hnumbers := numbers_replace [] calls call
    simp only [List.nil_append, List.countP_nil] at hcount hnumbers
    rw [hcount, hnumbers, numbers, List.filterMap_nil, List.nil_append, List.length_append]
    omega

theorem countP_isCounted_of_returned {calls : List Call}
    (h : ∀ call ∈ calls, ∃ result, call = .returned result) :
    calls.countP Call.isCounted = (numbers calls).length := by
  induction calls with
  | nil => rfl
  | cons call calls ih =>
    have hcount := countP_replace [] calls call
    have hnumbers := numbers_replace [] calls call
    simp only [List.nil_append, List.countP_nil] at hcount hnumbers
    rw [hcount, hnumbers, numbers, List.filterMap_nil, List.nil_append, List.length_append,
      ih fun c hc => h c (List.mem_cons_of_mem call hc)]
    obtain ⟨result, rfl⟩ := h call List.mem_cons_self
    cases result <;> simp [Call.isCounted, Call.number?, Nat.add_comm]

structure Inv (s : System) : Prop where
  one_le : 1 ≤ s.budget.maxAttempts.toNat
  max_le : s.budget.maxAttempts.toNat ≤ 2 ^ 31 - 1
  consumed_le : s.budget.consumed ≤ s.budget.maxAttempts.toNat
  loaded_le : ∀ kind preserve limit, .loaded kind preserve limit ∈ s.calls →
    limit.toNat ≤ s.budget.maxAttempts.toNat
  nodup : (numbers s.calls).Nodup
  number_le : ∀ n ∈ numbers s.calls, 1 ≤ n ∧ n ≤ s.budget.consumed
  consumed_eq : s.budget.consumed = (numbers s.calls).length
  attempts_eq : s.budget.attempts = s.calls.countP Call.isCounted

theorem consumed_new : (new maxAttempts).consumed = 0 := by
  rw [consumed_eq_mod]
  rfl

theorem inv_new : Inv ⟨new maxAttempts, []⟩ := by
  have hone : minInferenceUpstreamMaxAttempts.toNat = 1 := rfl
  have hten : maxInferenceUpstreamMaxAttempts.toNat = 10 := rfl
  have hmax : (new maxAttempts).maxAttempts.toNat = max 1 (min maxAttempts.toNat 10) := by
    rw [new, toNat_max, toNat_min, hone, hten]
  have hconsumed := consumed_new maxAttempts
  exact ⟨by simp only [hmax]; omega, by simp only [hmax]; omega, by simp only [hconsumed]; omega,
    by simp, List.nodup_nil, by simp [numbers], hconsumed, rfl⟩

theorem committed_new : (new maxAttempts).committed = false := by
  rw [← Bool.not_eq_true, committed_iff]
  simp [new]

theorem consumed_of_state {b : InferenceAttemptBudget} {state : UInt32} {n : ℕ}
    (hstate : state.toNat = n) (hn : n ≤ 2 ^ 31 - 1) :
    ({ b with state } : InferenceAttemptBudget).consumed = n := by
  rw [consumed_eq_mod]
  simp only [hstate]
  omega

theorem attempts_countAttempt (kind : InferenceAttemptKind) (h : b.attempts < 2 ^ 32 - 1) :
    (b.countAttempt kind).attempts = b.attempts + 1 := by
  unfold attempts at h ⊢
  cases kind <;>
    simp only [countAttempt, UInt32.toNat_add, UInt32.toNat_one] <;> omega

theorem mem_replace {call call' x : Call} (h : x ∈ before ++ call' :: after) (hne : x ≠ call') :
    x ∈ before ++ call :: after := by
  rcases List.mem_append.mp h with hmem | hmem
  · exact List.mem_append_left _ hmem
  · exact List.mem_append_right _
      (List.mem_cons_of_mem _ ((List.mem_cons.mp hmem).resolve_left hne))

theorem Inv.replace (h : Inv s) (hcalls : s.calls = before ++ call :: after)
    (hnumber : call'.number? = call.number?) (hcounted : call'.isCounted = call.isCounted)
    (hloaded : ∀ k q m, call' ≠ .loaded k q m) {b : InferenceAttemptBudget}
    (hmax : b.maxAttempts = s.budget.maxAttempts) (hstate : b.state = s.budget.state)
    (hattempts : b.attempts = s.budget.attempts) : Inv ⟨b, before ++ call' :: after⟩ := by
  have hconsumed : b.consumed = s.budget.consumed := by rw [consumed, consumed, hstate]
  have hnumbers : numbers (before ++ call' :: after) = numbers s.calls := by
    rw [hcalls, numbers_replace, numbers_replace, hnumber]
  refine ⟨?_, ?_, ?_, ?_, ?_, ?_, ?_, ?_⟩
  · rw [hmax]
    exact h.one_le
  · rw [hmax]
    exact h.max_le
  · rw [hmax, hconsumed]
    exact h.consumed_le
  · intro kind preserve limit hmem
    rw [hmax]
    refine h.loaded_le kind preserve limit ?_
    rw [hcalls]
    exact mem_replace hmem fun heq => hloaded kind preserve limit heq.symm
  · rw [hnumbers]
    exact h.nodup
  · rw [hnumbers, hconsumed]
    exact h.number_le
  · rw [hnumbers, hconsumed]
    exact h.consumed_eq
  · rw [hattempts, h.attempts_eq, hcalls, countP_replace, countP_replace, hcounted]

/-- The step that hands out the next number. -/
theorem Inv.reserve (h : Inv s) {preserve limit state next : UInt32}
    (hcalls : s.calls = before ++ .loaded kind preserve limit :: after)
    (hlimit : s.budget.consumed < (effectiveLimit limit preserve).toNat)
    (hnext : next.toNat = s.budget.consumed + 1) (hstate : state.toNat = s.budget.consumed + 1) :
    Inv ⟨{ s.budget with state }, before ++ .reserved kind next :: after⟩ := by
  have hmem : Call.loaded kind preserve limit ∈ s.calls := by rw [hcalls]; simp
  have hmax := h.loaded_le kind preserve limit hmem
  rw [toNat_effectiveLimit] at hlimit
  have hconsumed : ({ s.budget with state } : InferenceAttemptBudget).consumed =
      s.budget.consumed + 1 := consumed_of_state hstate (by have := h.max_le; omega)
  have hold : numbers s.calls = numbers before ++ numbers after := by
    rw [hcalls, numbers_replace]
    rfl
  have hnew : numbers (before ++ .reserved kind next :: after) =
      numbers before ++ (s.budget.consumed + 1) :: numbers after := by
    rw [numbers_replace, ← hnext]
    rfl
  refine ⟨h.one_le, h.max_le, ?_, ?_, ?_, ?_, ?_, ?_⟩
  · rw [hconsumed]
    simp only
    omega
  · intro kind' preserve' limit' hmem'
    refine h.loaded_le kind' preserve' limit' ?_
    rw [hcalls]
    exact mem_replace hmem' (by rintro ⟨⟩)
  · rw [hnew, List.nodup_middle, List.nodup_cons, ← hold]
    refine ⟨fun hmem' => ?_, h.nodup⟩
    have := (h.number_le _ hmem').2
    omega
  · intro n hn
    rw [hconsumed]
    rw [hnew, List.mem_append, List.mem_cons, or_left_comm, ← List.mem_append, ← hold] at hn
    rcases hn with rfl | hn
    · omega
    · have := h.number_le n hn
      omega
  · rw [hconsumed, hnew, h.consumed_eq, hold]
    simp only [List.length_append, List.length_cons]
    omega
  · have hattempts := h.attempts_eq
    rw [hcalls, countP_replace] at hattempts
    rw [countP_replace]
    exact hattempts

theorem Inv.stepped (h : Inv s) (ht : step s a = some t) : Stepped s a t :=
  stepped_of_step (fun kind preserve limit hmem =>
    (h.loaded_le kind preserve limit hmem).trans h.max_le) ht

theorem Inv.step (h : Inv s) (ht : InferenceAttemptBudget.step s a = some t) : Inv t := by
  cases h.stepped ht with
  | load kind preserve =>
    have hnumbers : numbers (s.calls ++ [.loaded kind preserve s.budget.maxAttempts]) =
        numbers s.calls := by
      rw [numbers_append]
      exact List.append_nil _
    refine ⟨h.one_le, h.max_le, h.consumed_le, ?_, ?_, ?_, ?_, ?_⟩
    · intro kind' preserve' limit hmem
      rcases List.mem_append.mp hmem with hmem | hmem
      · exact h.loaded_le _ _ _ hmem
      · cases List.mem_singleton.mp hmem
        exact le_rfl
    · rw [hnumbers]
      exact h.nodup
    · rw [hnumbers]
      exact h.number_le
    · rw [hnumbers]
      exact h.consumed_eq
    · rw [List.countP_append]
      exact h.attempts_eq
  | reserve hcalls hopen hlimit hnext hstate => exact h.reserve hcalls hlimit hnext hstate
  | reject hcalls hrefused hcall =>
    refine h.replace hcalls hcall.number? hcall.isCounted ?_ rfl rfl rfl
    rintro k q m rfl
    rcases hcall with hcall | ⟨e, hcall⟩ <;> cases hcall
  | storeExhausted hcalls =>
    have hnumber : (Call.returned (.error .exhausted)).number? = Call.exhausting.number? := rfl
    exact h.replace hcalls hnumber rfl (by rintro k q m ⟨⟩) rfl rfl rfl
  | @count before after kind next hcalls =>
    have hbound : s.budget.attempts ≤ s.budget.consumed := by
      rw [h.attempts_eq, h.consumed_eq]
      exact countP_isCounted_le s.calls
    have hle := h.consumed_le.trans h.max_le
    have hattempts : (s.budget.countAttempt kind).attempts = s.budget.attempts + 1 :=
      attempts_countAttempt s.budget kind (by omega)
    have hbudget : (s.budget.countAttempt kind).maxAttempts = s.budget.maxAttempts ∧
        (s.budget.countAttempt kind).consumed = s.budget.consumed := by
      cases kind <;> exact ⟨rfl, rfl⟩
    have hnumbers : numbers (before ++ .returned (.ok next) :: after) = numbers s.calls := by
      rw [hcalls, numbers_replace, numbers_replace]
      rfl
    have hcounted := h.attempts_eq
    rw [hcalls, countP_replace] at hcounted
    refine ⟨?_, ?_, ?_, ?_, ?_, ?_, ?_, ?_⟩
    · rw [hbudget.1]
      exact h.one_le
    · rw [hbudget.1]
      exact h.max_le
    · rw [hbudget.1, hbudget.2]
      exact h.consumed_le
    · intro kind' preserve limit hmem
      rw [hbudget.1]
      refine h.loaded_le kind' preserve limit ?_
      rw [hcalls]
      exact mem_replace hmem (by rintro ⟨⟩)
    · rw [hnumbers]
      exact h.nodup
    · rw [hnumbers, hbudget.2]
      exact h.number_le
    · rw [hnumbers, hbudget.2]
      exact h.consumed_eq
    · rw [hattempts, hcounted, countP_replace]
      simp only [Call.isCounted, Bool.toNat_true, Bool.toNat_false]
      omega
  | raise required =>
    have hmax : (s.budget.raiseMaxAttempts required).maxAttempts.toNat =
        max s.budget.maxAttempts.toNat (min required.toNat (2 ^ 31 - 1)) := by
      rw [raiseMaxAttempts, toNat_max, toNat_min, toNat_consumedMask]
    have hle : s.budget.maxAttempts.toNat ≤
        (s.budget.raiseMaxAttempts required).maxAttempts.toNat := by
      rw [hmax]
      exact Nat.le_max_left _ _
    have := h.max_le
    exact ⟨h.one_le.trans hle, by simp only [hmax]; omega, h.consumed_le.trans hle,
      fun kind preserve limit hmem => (h.loaded_le kind preserve limit hmem).trans hle, h.nodup,
      h.number_le, h.consumed_eq, h.attempts_eq⟩
  | commit =>
    have hconsumed := consumed_markDownstreamCommitted s.budget
    refine ⟨h.one_le, h.max_le, ?_, h.loaded_le, h.nodup, ?_, ?_, h.attempts_eq⟩
    · rw [hconsumed]
      exact h.consumed_le
    · rw [hconsumed]
      exact h.number_le
    · rw [hconsumed]
      exact h.consumed_eq

theorem inv_run (hs : Inv s) (h : run s actions = some t) : Inv t :=
  Transition.run_invariant (fun _ => True) (fun _ _ _ _ => Inv.step) (by simp) hs h

theorem Inv.committed_step (h : Inv s) (hs : s.budget.committed = true)
    (ht : InferenceAttemptBudget.step s a = some t) :
    t.budget.committed = true ∧ numbers t.calls = numbers s.calls := by
  cases h.stepped ht with
  | load kind preserve =>
    refine ⟨hs, ?_⟩
    rw [numbers_append]
    exact List.append_nil _
  | reserve hcalls hopen hlimit hnext hstate =>
    rw [hs] at hopen
    cases hopen
  | reject hcalls hrefused hcall =>
    refine ⟨hs, ?_⟩
    rw [hcalls, numbers_replace, numbers_replace, hcall.number?]
    rfl
  | storeExhausted hcalls =>
    refine ⟨hs, ?_⟩
    rw [hcalls, numbers_replace, numbers_replace]
    rfl
  | @count before after kind next hcalls =>
    refine ⟨by cases kind <;> exact hs, ?_⟩
    rw [hcalls, numbers_replace, numbers_replace]
    rfl
  | raise required => exact ⟨hs, rfl⟩
  | commit => exact ⟨committed_markDownstreamCommitted s.budget, rfl⟩

theorem Inv.committed_run (h : Inv s) (hs : s.budget.committed = true) (ht : run s actions = some t) :
    numbers t.calls = numbers s.calls := by
  have hstep : ∀ u a v, True →
      (Inv u ∧ u.budget.committed = true ∧ numbers u.calls = numbers s.calls) →
      InferenceAttemptBudget.step u a = some v →
      Inv v ∧ v.budget.committed = true ∧ numbers v.calls = numbers s.calls := by
    rintro u a v - ⟨hu, hcommitted, hnumbers⟩ hv
    obtain ⟨hcommitted', hnumbers'⟩ := hu.committed_step hcommitted hv
    exact ⟨hu.step hv, hcommitted', hnumbers'.trans hnumbers⟩
  exact (Transition.run_invariant (fun _ => True) hstep (by simp) ⟨h, hs, rfl⟩ ht).2.2

/-- Only a commit sets the flag: the count never grows into it. -/
theorem Inv.committed_of_step (h : Inv s) (ht : InferenceAttemptBudget.step s a = some t)
    (hcommitted : t.budget.committed = true) : s.budget.committed = true ∨ a = .commit := by
  cases h.stepped ht with
  | @reserve before after kind preserve limit state next hcalls hopen hlimit hnext hstate =>
    have hmax := (h.reserve hcalls hlimit hnext hstate).max_le
    have hle := (h.reserve hcalls hlimit hnext hstate).consumed_le
    have hmem : Call.loaded kind preserve limit ∈ s.calls := by rw [hcalls]; simp
    have hloaded := h.loaded_le kind preserve limit hmem
    rw [toNat_effectiveLimit] at hlimit
    rw [committed_iff] at hcommitted
    simp only at hcommitted hmax
    omega
  | @count before after kind next hcalls =>
    left
    cases kind <;> exact hcommitted
  | commit => exact .inr rfl
  | load kind preserve => exact .inl hcommitted
  | reject hcalls hrefused hcall => exact .inl hcommitted
  | storeExhausted hcalls => exact .inl hcommitted
  | raise required => exact .inl hcommitted

theorem Inv.commit_mem_of_run (h : Inv s) (hs : s.budget.committed = false)
    (ht : run s actions = some t) (hcommitted : t.budget.committed = true) : .commit ∈ actions := by
  induction actions generalizing s with
  | nil =>
    cases ht
    rw [hs] at hcommitted
    cases hcommitted
  | cons a actions ih =>
    obtain ⟨u, hu, ht⟩ := Transition.run_cons_eq_some.mp ht
    cases hflag : u.budget.committed with
    | false => exact List.mem_cons_of_mem a (ih (h.step hu) hflag ht)
    | true =>
      rcases h.committed_of_step hu hflag with hs' | rfl
      · rw [hs] at hs'
        cases hs'
      · exact List.mem_cons_self

theorem getElem?_replaced (before after : List Call) (call : Call) :
    (before ++ call :: after)[before.length]? = some call := by
  rw [List.getElem?_append_right le_rfl, Nat.sub_self, List.getElem?_cons_zero]

theorem getElem?_replace_of_ne (h : i ≠ before.length) :
    (before ++ call :: after)[i]? = (before ++ call' :: after)[i]? := by
  rcases Nat.lt_or_gt_of_ne h with hlt | hgt
  · rw [List.getElem?_append_left hlt, List.getElem?_append_left hlt]
  · obtain ⟨k, rfl⟩ := Nat.exists_eq_add_of_lt hgt
    have hsub : before.length + k + 1 - before.length = k + 1 := by omega
    rw [List.getElem?_append_right (by omega), List.getElem?_append_right (by omega), hsub,
      List.getElem?_cons_succ, List.getElem?_cons_succ]

/-- Every call that may still consume, apart from the exempt ones, preserves `p`, and no
more than the limit that leaves `p` has been consumed. -/
structure Preserving (p : UInt32) (exempt : ℕ → Prop) (s : System) : Prop where
  consumed_le : s.budget.consumed ≤
    s.budget.maxAttempts.toNat - min p.toNat (s.budget.maxAttempts.toNat - 1)
  loaded : ∀ i kind preserve limit, ¬ exempt i →
    s.calls[i]? = some (.loaded kind preserve limit) → preserve = p

theorem Preserving.replace {exempt : ℕ → Prop} (h : Preserving p exempt s)
    (hcalls : s.calls = before ++ call :: after) (hloaded : ∀ k q m, call' ≠ .loaded k q m) :
    ∀ i kind preserve limit, ¬ exempt i →
      (before ++ call' :: after)[i]? = some (.loaded kind preserve limit) → preserve = p := by
  intro i kind preserve limit hi hget
  by_cases heq : i = before.length
  · rw [heq, getElem?_replaced] at hget
    exact absurd (Option.some.inj hget) (hloaded _ _ _)
  · refine h.loaded i kind preserve limit hi ?_
    rw [hcalls, ← hget]
    exact getElem?_replace_of_ne heq

theorem Preserving.step {exempt : ℕ → Prop} (h : Preserving p exempt s) (hinv : Inv s)
    (ht : InferenceAttemptBudget.step s a = some t)
    (hload : ∀ kind preserve, a = .load kind preserve → preserve = p)
    (hupdate : ∀ i, a = .update i → ¬ exempt i) : Preserving p exempt t := by
  cases hinv.stepped ht with
  | load kind preserve =>
    refine ⟨h.consumed_le, fun i kind' preserve' limit hi hget => ?_⟩
    by_cases hlt : i < s.calls.length
    · rw [List.getElem?_append_left hlt] at hget
      exact h.loaded i kind' preserve' limit hi hget
    · have hmem := List.mem_of_getElem? (by rwa [List.getElem?_append_right (by omega)] at hget)
      cases List.mem_singleton.mp hmem
      exact hload kind _ rfl
  | @reserve before after kind preserve limit state next hcalls hopen hlimit hnext hstate =>
    have hmem : Call.loaded kind preserve limit ∈ s.calls := by rw [hcalls]; simp
    have hmax := hinv.loaded_le kind preserve limit hmem
    have hpreserve : preserve = p := by
      refine h.loaded before.length kind preserve limit (hupdate _ rfl) ?_
      rw [hcalls, getElem?_replaced]
    refine ⟨?_, h.replace hcalls (by rintro k q m ⟨⟩)⟩
    rw [toNat_effectiveLimit, hpreserve] at hlimit
    have hconsumed : ({ s.budget with state } : InferenceAttemptBudget).consumed =
        s.budget.consumed + 1 := consumed_of_state hstate (by have := hinv.max_le; omega)
    rw [hconsumed]
    simp only
    omega
  | reject hcalls hrefused hcall =>
    refine ⟨h.consumed_le, h.replace hcalls ?_⟩
    rintro k q m rfl
    rcases hcall with hcall | ⟨e, hcall⟩ <;> cases hcall
  | storeExhausted hcalls => exact ⟨h.consumed_le, h.replace hcalls (by rintro k q m ⟨⟩)⟩
  | @count before after kind next hcalls =>
    refine ⟨?_, h.replace hcalls (by rintro k q m ⟨⟩)⟩
    cases kind <;> exact h.consumed_le
  | raise required =>
    refine ⟨?_, h.loaded⟩
    have hle := h.consumed_le
    have hmax : (s.budget.raiseMaxAttempts required).maxAttempts.toNat =
        max s.budget.maxAttempts.toNat (min required.toNat (2 ^ 31 - 1)) := by
      rw [raiseMaxAttempts, toNat_max, toNat_min, toNat_consumedMask]
    have hsame : (s.budget.raiseMaxAttempts required).consumed = s.budget.consumed := rfl
    simp only [hmax, hsame]
    omega
  | commit =>
    refine ⟨?_, h.loaded⟩
    rw [consumed_markDownstreamCommitted]
    exact h.consumed_le

/-- Steps of calls other than `i` that preserve `p`, with the limit and the flag left alone. -/
def OtherCall (p : UInt32) (i : ℕ) : Action → Prop
  | .load _ preserve => preserve = p
  | .update j => j ≠ i
  | .raise _ => False
  | .commit => False
  | _ => True

/-- Call `i` has loaded the current limit with nothing to preserve. -/
structure Waiting (p limit : UInt32) (i : ℕ) (kind : InferenceAttemptKind) (s : System) : Prop where
  inv : Inv s
  preserving : Preserving p (· = i) s
  isOpen : s.budget.committed = false
  max_eq : s.budget.maxAttempts = limit
  call : s.calls[i]? = some (.loaded kind 0 limit)

theorem Waiting.step {p limit : UInt32} (h : Waiting p limit i kind s) (ha : OtherCall p i a)
    (ht : InferenceAttemptBudget.step s a = some t) : Waiting p limit i kind t := by
  have hpreserving : Preserving p (· = i) t := by
    refine h.preserving.step h.inv ht ?_ ?_
    · rintro kind preserve rfl
      exact ha
    · rintro j rfl
      exact ha
  have hinv := h.inv.step ht
  have hcall := h.call
  cases h.inv.stepped ht with
  | load kind' preserve =>
    have hlt : i < s.calls.length := (List.getElem?_eq_some_iff.mp hcall).1
    exact ⟨hinv, hpreserving, h.isOpen, h.max_eq, by rw [List.getElem?_append_left hlt, hcall]⟩
  | @reserve before after kind' preserve limit' state next hcalls hopen hlimit hnext hstate =>
    have hflag : ({ s.budget with state } : InferenceAttemptBudget).committed = false := by
      have hmem : Call.loaded kind' preserve limit' ∈ s.calls := by rw [hcalls]; simp
      have hloaded := h.inv.loaded_le kind' preserve limit' hmem
      have hmax := h.inv.max_le
      rw [toNat_effectiveLimit] at hlimit
      rw [← Bool.not_eq_true, committed_iff]
      simp only
      omega
    refine ⟨hinv, hpreserving, hflag, h.max_eq, ?_⟩
    rw [← hcall, hcalls]
    exact getElem?_replace_of_ne (Ne.symm ha)
  | reject hcalls hrefused hrejected =>
    refine ⟨hinv, hpreserving, h.isOpen, h.max_eq, ?_⟩
    rw [← hcall, hcalls]
    exact getElem?_replace_of_ne (Ne.symm ha)
  | storeExhausted hcalls =>
    refine ⟨hinv, hpreserving, h.isOpen, h.max_eq, ?_⟩
    rw [← hcall, hcalls]
    refine getElem?_replace_of_ne fun heq => ?_
    rw [heq, hcalls, getElem?_replaced] at hcall
    cases hcall
  | @count before after kind' next hcalls =>
    refine ⟨hinv, hpreserving, ?_, ?_, ?_⟩
    · cases kind' <;> exact h.isOpen
    · cases kind' <;> exact h.max_eq
    · rw [← hcall, hcalls]
      refine getElem?_replace_of_ne fun heq => ?_
      rw [heq, hcalls, getElem?_replaced] at hcall
      cases hcall
  | raise required => exact ha.elim
  | commit => exact ha.elim

theorem Waiting.update {p limit : UInt32} (h : Waiting p limit i kind s) (hp : 1 ≤ p.toNat)
    (hlimit : 2 ≤ limit.toNat) (ht : InferenceAttemptBudget.step s (.update i) = some t) :
    ∃ next, t.calls[i]? = some (.reserved kind next) := by
  have hle := h.preserving.consumed_le
  rw [h.max_eq] at hle
  have hcall := h.call
  generalize hi : Action.update i = a at ht
  cases h.inv.stepped ht with
  | @reserve before after kind' preserve limit' state next hcalls hopen hless hnext hstate =>
    cases hi
    rw [hcalls, getElem?_replaced] at hcall
    cases hcall
    exact ⟨next, getElem?_replaced _ _ _⟩
  | @reject before after kind' preserve limit' call hcalls hrefused hrejected =>
    cases hi
    rw [hcalls, getElem?_replaced] at hcall
    cases hcall
    rcases hrefused with hflag | hge
    · rw [h.isOpen] at hflag
      cases hflag
    · rw [toNat_effectiveLimit] at hge
      simp only [UInt32.toNat_zero] at hge
      omega
  | _ => cases hi

theorem preserving_run {p maxAttempts : UInt32} (hrun : run ⟨new maxAttempts, []⟩ actions = some s)
    (hload : ∀ kind preserve, .load kind preserve ∈ actions → preserve = p) :
    Preserving p (fun _ => False) s := by
  have hstep : ∀ u a v, (∀ kind preserve, a = .load kind preserve → preserve = p) →
      (Inv u ∧ Preserving p (fun _ => False) u) → step u a = some v →
      Inv v ∧ Preserving p (fun _ => False) v := by
    rintro u a v ha ⟨hinv, hu⟩ hv
    exact ⟨hinv.step hv, hu.step hinv hv ha fun _ _ => id⟩
  have hnew : Preserving p (fun _ => False) ⟨new maxAttempts, []⟩ := by
    refine ⟨?_, fun i kind preserve limit _ hget => by simp at hget⟩
    simp only [consumed_new]
    exact Nat.zero_le _
  refine (Transition.run_invariant _ hstep ?_ ⟨inv_new maxAttempts, hnew⟩ hrun).2
  rintro a ha kind preserve rfl
  exact hload kind preserve ha

theorem waiting_of_load (hinv : Inv s) (hs : Preserving p (fun _ => False) s)
    (hopen : s.budget.committed = false) (ht : step s (.load kind 0) = some t) :
    Waiting p s.budget.maxAttempts s.calls.length kind t := by
  have hinv' := hinv.step ht
  cases ht
  refine ⟨hinv', ⟨hs.consumed_le, fun i kind' preserve limit hi hget => ?_⟩, hopen, rfl, ?_⟩
  · have hlt : i < s.calls.length := by
      have := (List.getElem?_eq_some_iff.mp hget).1
      rw [List.length_append, List.length_singleton] at this
      omega
    rw [List.getElem?_append_left hlt] at hget
    exact hs.loaded i kind' preserve limit not_false hget
  · rw [List.getElem?_append_right le_rfl, Nat.sub_self]
    rfl

/-- Every interleaving of calls on one budget: the limit holds and the flag is set by a
commit only; successful calls get distinct numbers; once all calls have returned the
channels account for every attempt; nothing is reserved after a commit; and calls that
preserve `p` leave the attempts they preserve, the first of which a later call that
preserves nothing gets, unless the limit is raised after it has read it. -/
theorem run_new_safe (maxAttempts : UInt32) (actions : List Action) (s : System)
    (hrun : run ⟨new maxAttempts, []⟩ actions = some s) :
    (s.budget.consumed ≤ s.budget.maxAttempts.toNat ∧ s.budget.maxAttempts.toNat < 2 ^ 31 ∧
      (s.budget.committed = true → .commit ∈ actions)) ∧
    (s.budget.consumed = (numbers s.calls).length ∧ (numbers s.calls).Nodup ∧
      ∀ n ∈ numbers s.calls, 1 ≤ n ∧ n ≤ s.budget.consumed) ∧
    ((∀ call ∈ s.calls, ∃ result, call = .returned result) →
      s.budget.consumed = s.budget.localAttempts.toNat + s.budget.externalAttempts.toNat +
        s.budget.mcpAttempts.toNat) ∧
    (∀ later t, run s (.commit :: later) = some t → numbers t.calls = numbers s.calls) ∧
    ∀ p : UInt32, (∀ kind preserve, .load kind preserve ∈ actions → preserve = p) →
      s.budget.consumed ≤
        s.budget.maxAttempts.toNat - min p.toNat (s.budget.maxAttempts.toNat - 1) ∧
      (1 ≤ p.toNat → 2 ≤ s.budget.maxAttempts.toNat → s.budget.committed = false →
        ∀ kind others t, (∀ a ∈ others, OtherCall p s.calls.length a) →
          run s (.load kind 0 :: (others ++ [.update s.calls.length])) = some t →
          ∃ next, t.calls[s.calls.length]? = some (.reserved kind next)) := by
  have hinv := inv_run (inv_new maxAttempts) hrun
  have hmax := hinv.max_le
  refine ⟨⟨hinv.consumed_le, by omega, fun hcommitted => ?_⟩,
    ⟨hinv.consumed_eq, hinv.nodup, hinv.number_le⟩, fun hreturned => ?_, fun later t ht => ?_,
    fun p hload => ?_⟩
  · exact (inv_new maxAttempts).commit_mem_of_run (committed_new maxAttempts) hrun hcommitted
  · exact (hinv.consumed_eq.trans (countP_isCounted_of_returned hreturned).symm).trans
      hinv.attempts_eq.symm
  · obtain ⟨u, hu, ht⟩ := Transition.run_cons_eq_some.mp ht
    have hcommit : u = { s with budget := s.budget.markDownstreamCommitted } :=
      (Option.some.inj hu).symm
    have hflag : u.budget.committed = true := by
      rw [hcommit]
      exact committed_markDownstreamCommitted s.budget
    rw [(hinv.step hu).committed_run hflag ht, hcommit]
  · have hpreserving := preserving_run hrun hload
    refine ⟨hpreserving.consumed_le, fun hp hmax hopen kind others t hothers ht => ?_⟩
    obtain ⟨u, hu, ht⟩ := Transition.run_cons_eq_some.mp ht
    obtain ⟨v, hv, ht⟩ := Transition.run_append_eq_some.mp ht
    have hwaiting := Transition.run_invariant (OtherCall p s.calls.length)
      (fun _ _ _ ha hw => hw.step ha) hothers (waiting_of_load hinv hpreserving hopen hu) hv
    exact hwaiting.update hp hmax (Transition.run_singleton.mp ht)

theorem run_new_safe_fallback :
    ∃ s t, run ⟨new 4, []⟩ [.load .localCredential 1, .update 0, .count 0] = some s ∧
      run s [.load .externalPool 0, .load .localCredential 1, .update 2, .update 1] = some t ∧
      ∃ next, t.calls[1]? = some (.reserved .externalPool next) := by
  refine ⟨_, _, rfl, rfl, ?_⟩
  exact ((run_new_safe 4 [.load .localCredential 1, .update 0, .count 0] _ rfl).2.2.2.2 1
    (by simp)).2 (by decide) (by decide) (by decide) .externalPool
      [.load .localCredential 1, .update 2] _
      (List.forall_mem_cons.mpr ⟨rfl, List.forall_mem_singleton.mpr (by decide : 2 ≠ 1)⟩) rfl

/-- With a limit of one there is nothing to preserve: the call that preserves an attempt
takes the only one, and the later call that preserves nothing is refused. -/
theorem run_new_limit_one :
    ∃ s t, run ⟨new 1, []⟩ [.load .localCredential 1, .update 0, .count 0] = some s ∧
      s.budget.committed = false ∧ run s [.load .externalPool 0, .update 1] = some t ∧
      t.calls[1]? = some .exhausting :=
  ⟨_, _, rfl, by decide, rfl, by decide⟩

end InferenceAttemptBudget

end KiroProxy
