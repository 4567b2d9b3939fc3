import KiroProxy.KeyedList
import KiroProxy.Text
import KiroProxy.Transition

/-!
# The degrade score of an account

Suspicious failures add to a score that the account keeps for each model, successes and
time lower it. At the suspend line the scheduler takes the account out, and it comes back
below the lower resume line. Scores are exact, and the decay over time is any function
that never raises a score; the half life of the source is one.
-/

namespace KiroProxy.Degrade

open KeyedList

variable {K : Type} [Field K] [LinearOrder K]

/-- The decay of a score over the milliseconds since it was stored. -/
structure Decay (K : Type) [Field K] [LinearOrder K] where
  apply : ℤ → K → K
  nonneg : ∀ elapsed score, 0 ≤ score → 0 ≤ apply elapsed score
  le_self : ∀ elapsed score, 0 ≤ elapsed → 0 ≤ score → apply elapsed score ≤ score
  antitone : ∀ elapsed later score, elapsed ≤ later → 0 ≤ score →
    apply later score ≤ apply elapsed score

/-- The lines at which an account is taken out and let back in. -/
structure Thresholds (K : Type) [Field K] [LinearOrder K] where
  suspendScore : K
  resumeScore : K
  resume_pos : 0 < resumeScore
  resume_le : resumeScore ≤ suspendScore

structure DegradeScore (K : Type) [Field K] [LinearOrder K] where
  score : K
  nonneg : 0 ≤ score
  updatedAtMs : ℤ
  suspended : Bool
  deriving DecidableEq

/-- The scores of one account, by model, in the order in which the map is iterated. -/
abbrev Scores (K : Type) [Field K] [LinearOrder K] := List (String × DegradeScore K)

def maxModelsPerCredential : ℕ := 8

def scoreEpsilon : K := 1 / 100

def thresholdEpsilon : K := 1 / 1000000

/-- The comparison with a line, up to the relative tolerance. -/
def Reaches (line value : K) : Prop := line ≤ value + line * thresholdEpsilon

instance (line value : K) : Decidable (Reaches line value) :=
  inferInstanceAs (Decidable (line ≤ value + line * thresholdEpsilon))

/-- Signed subtraction of 64 bits that stops at the ends of its range. -/
def saturatingSub (a b : ℤ) : ℤ :=
  max (-2 ^ 63) (min (2 ^ 63 - 1) (a - b))

def modelKey (model : Option String) : String :=
  (model.map fun value => toAsciiLowercase (trim value)).getD ""

section Model

variable (decay : Decay K)

def DegradeScore.effective (entry : DegradeScore K) (nowMs : ℤ) : K :=
  decay.apply (max (saturatingSub nowMs entry.updatedAtMs) 0) entry.score

def isSuspended (scores : Scores K) (model : Option String) (nowMs : ℤ) (resumeScore : K) : Bool :=
  match get (modelKey model) scores with
  | none => false
  | some entry => entry.suspended && decide (Reaches resumeScore (entry.effective decay nowMs))

def effectiveScore (scores : Scores K) (model : Option String) (nowMs : ℤ) : K :=
  ((get (modelKey model) scores).map fun entry => entry.effective decay nowMs).getD 0

def lowest (scores : Scores K) (nowMs : ℤ) : Option (String × K) :=
  scores.foldl (fun lowest entry =>
    let effective := entry.2.effective decay nowMs
    if lowest.all fun found => decide (effective < found.2) then some (entry.1, effective)
    else lowest) none

def evictLowest (scores : Scores K) (nowMs : ℤ) : Scores K :=
  match lowest decay scores nowMs with
  | some (key, _) => remove key scores
  | none => scores

theorem effective_nonneg (entry : DegradeScore K) (nowMs : ℤ) :
    0 ≤ entry.effective decay nowMs :=
  decay.nonneg _ _ entry.nonneg

theorem effectiveScore_nonneg (scores : Scores K) (model : Option String) (nowMs : ℤ) :
    0 ≤ effectiveScore decay scores model nowMs := by
  rw [effectiveScore]
  cases get (modelKey model) scores with
  | none => exact le_rfl
  | some entry => exact effective_nonneg decay entry nowMs

variable [IsStrictOrderedRing K]

def addFailure (scores : Scores K) (model : Option String) (weight : K) (nowMs : ℤ)
    (suspendScore : K) : Scores K :=
  if hweight : 0 < weight then
    let key := modelKey model
    let current := effectiveScore decay scores model nowMs
    let kept :=
      if (get key scores).isNone ∧ maxModelsPerCredential ≤ scores.length then
        evictLowest decay scores nowMs
      else scores
    let next := current + weight
    let wasSuspended := (get key kept).any (·.suspended)
    insert key
      { score := next
        nonneg := add_nonneg (effectiveScore_nonneg decay scores model nowMs) hweight.le
        updatedAtMs := nowMs
        suspended := wasSuspended ||
          (decide (0 < suspendScore) && decide (Reaches suspendScore next)) } kept
  else scores

/-- The factor of a success, clamped to `[0, 1]`. -/
def clampUnit (factor : K) : K := max 0 (min factor 1)

def applySuccess (scores : Scores K) (model : Option String) (factor : K) (nowMs : ℤ)
    (resumeScore : K) : Scores K :=
  let key := modelKey model
  match get key scores with
  | none => scores
  | some existing =>
    let next := existing.effective decay nowMs * clampUnit factor
    if next ≤ scoreEpsilon then remove key scores
    else
      insert key
        { score := next
          nonneg := mul_nonneg (effective_nonneg decay existing nowMs) (le_max_left 0 _)
          updatedAtMs := nowMs
          suspended := existing.suspended && decide (resumeScore ≤ next) } scores

end Model

structure State (K : Type) [Field K] [LinearOrder K] where
  scores : Scores K
  nowMs : ℤ

/-- What happens to the scores of an account. A hash map has no order of its own: it may be
iterated in another order each time. -/
inductive Action (K : Type) [Field K] [LinearOrder K] where
  | addFailure (model : Option String) (weight : K) (nowMs : ℤ)
  | applySuccess (model : Option String) (factor : K) (nowMs : ℤ)
  | reorder (scores : Scores K)

def Action.time (s : State K) : Action K → ℤ
  | .addFailure _ _ nowMs => nowMs
  | .applySuccess _ _ nowMs => nowMs
  | .reorder _ => s.nowMs

def start : State K := { scores := [], nowMs := -2 ^ 63 }

section Runs

variable [IsStrictOrderedRing K] (decay : Decay K) (lines : Thresholds K)

/-- The clock never goes back. -/
def step (s : State K) : Action K → Option (State K)
  | .addFailure model weight nowMs =>
    if s.nowMs ≤ nowMs then
      some { scores := addFailure decay s.scores model weight nowMs lines.suspendScore, nowMs }
    else none
  | .applySuccess model factor nowMs =>
    if s.nowMs ≤ nowMs then
      some { scores := applySuccess decay s.scores model factor nowMs lines.resumeScore, nowMs }
    else none
  | .reorder scores => if s.scores.Perm scores then some { s with scores } else none

def run : State K → List (Action K) → Option (State K) :=
  Transition.run (step decay lines)

/-- The score of the model is at the resume line or above it at every moment of a run that
goes on until the given time. -/
def HeldThrough (model : Option String) : State K → List (Action K) → ℤ → Prop
  | s, [], until_ => ∀ moment, s.nowMs ≤ moment → moment ≤ until_ →
      Reaches lines.resumeScore (effectiveScore decay s.scores model moment)
  | s, a :: as, until_ =>
    (∀ moment, s.nowMs ≤ moment → moment ≤ a.time s →
      Reaches lines.resumeScore (effectiveScore decay s.scores model moment)) ∧
    ∀ t, step decay lines s a = some t → HeldThrough model t as until_

/-- Some failure of the run brought the score to the suspend line, and it has not been below
the resume line since. -/
def HysteresisLaw (model : Option String) (actions : List (Action K)) (nowMs : ℤ) : Prop :=
  ∃ before name weight failedAt after s t,
    actions = before ++ .addFailure name weight failedAt :: after ∧
    modelKey name = modelKey model ∧ 0 < weight ∧
    run decay lines start before = some s ∧
    step decay lines s (.addFailure name weight failedAt) = some t ∧
    (∃ entry, get (modelKey model) t.scores = some entry ∧
      Reaches lines.suspendScore entry.score) ∧
    HeldThrough decay lines model t after nowMs

/-- A failure whose score comes back over the resume line from below it without reaching the
suspend line, while the suspension of the time before is still stored. -/
def RevivesSuspension (model : Option String) (s : State K) : Action K → Prop
  | .addFailure name weight nowMs =>
    let score := effectiveScore decay s.scores model nowMs
    modelKey name = modelKey model ∧ (get (modelKey model) s.scores).any (·.suspended) = true ∧
      ¬ Reaches lines.resumeScore score ∧ Reaches lines.resumeScore (score + weight) ∧
      ¬ Reaches lines.suspendScore (score + weight)
  | _ => False

end Runs

theorem Reaches.mono {line value value' : K} [IsStrictOrderedRing K] (h : Reaches line value)
    (hle : value ≤ value') : Reaches line value' :=
  h.trans (add_le_add_left hle _)

theorem elapsed_mono {nowMs later : ℤ} (hle : nowMs ≤ later) (updatedAtMs : ℤ) :
    max (saturatingSub nowMs updatedAtMs) 0 ≤ max (saturatingSub later updatedAtMs) 0 := by
  unfold saturatingSub
  omega

variable (decay : Decay K) {scores : Scores K}

theorem effective_antitone (entry : DegradeScore K) {nowMs later : ℤ} (hle : nowMs ≤ later) :
    entry.effective decay later ≤ entry.effective decay nowMs :=
  decay.antitone _ _ _ (elapsed_mono hle entry.updatedAtMs) entry.nonneg

theorem effective_le_score (entry : DegradeScore K) (nowMs : ℤ) :
    entry.effective decay nowMs ≤ entry.score :=
  decay.le_self _ _ (le_max_right _ 0) entry.nonneg

theorem effectiveScore_of_get {decay : Decay K} {model : Option String} {entry : DegradeScore K}
    (h : get (modelKey model) scores = some entry) (nowMs : ℤ) :
    effectiveScore decay scores model nowMs = entry.effective decay nowMs := by
  rw [effectiveScore, h]
  rfl

theorem isSuspended_eq_true_iff {decay : Decay K} {model : Option String} {nowMs : ℤ}
    {resumeScore : K} :
    isSuspended decay scores model nowMs resumeScore = true ↔
      ∃ entry, get (modelKey model) scores = some entry ∧ entry.suspended = true ∧
        Reaches resumeScore (entry.effective decay nowMs) := by
  rw [isSuspended]
  cases get (modelKey model) scores with
  | none => simp
  | some entry => simp

theorem get_evictLowest (scores : Scores K) (nowMs : ℤ) (key : String) :
    get key (evictLowest decay scores nowMs) = none ∨
      get key (evictLowest decay scores nowMs) = get key scores := by
  rw [evictLowest]
  split
  · rename_i victim _ _
    by_cases h : key = victim
    · left
      rw [h, get_remove_self]
    · right
      rw [get_remove_of_ne h]
  · right
    rfl

theorem nodup_evictLowest (nowMs : ℤ) (hnodup : (scores.map Prod.fst).Nodup) :
    ((evictLowest decay scores nowMs).map Prod.fst).Nodup := by
  rw [evictLowest]
  split
  · exact nodup_keys_remove hnodup _
  · exact hnodup

/-- A new key makes room only among the others. -/
theorem get_kept_self {decay : Decay K} {key : String} {nowMs : ℤ} :
    get key (if (get key scores).isNone ∧ maxModelsPerCredential ≤ scores.length then
      evictLowest decay scores nowMs else scores) = get key scores := by
  split_ifs with h
  · have hnone := Option.isNone_iff_eq_none.mp h.1
    rcases get_evictLowest decay scores nowMs key with h' | h'
    · rw [h', hnone]
    · exact h'
  · rfl

section Operations

variable [IsStrictOrderedRing K] {decay : Decay K} {scores : Scores K}

theorem get_addFailure_self (decay : Decay K) (scores : Scores K) (model : Option String)
    {weight : K} (hweight : 0 < weight) (nowMs : ℤ) (suspendScore : K) :
    ∃ entry, get (modelKey model) (addFailure decay scores model weight nowMs suspendScore) =
        some entry ∧
      entry.score = effectiveScore decay scores model nowMs + weight ∧
      entry.updatedAtMs = nowMs ∧
      entry.suspended = ((get (modelKey model) scores).any (·.suspended) ||
        (decide (0 < suspendScore) && decide (Reaches suspendScore entry.score))) := by
  rw [addFailure, dif_pos hweight]
  refine ⟨_, get_insert_self _ _ _, rfl, rfl, ?_⟩
  simp only [get_kept_self]

theorem get_addFailure_other {name model : Option String} (hne : modelKey model ≠ modelKey name)
    (weight : K) (nowMs : ℤ) (suspendScore : K) :
    get (modelKey model) (addFailure decay scores name weight nowMs suspendScore) = none ∨
      get (modelKey model) (addFailure decay scores name weight nowMs suspendScore) =
        get (modelKey model) scores := by
  rw [addFailure]
  split_ifs with hweight
  · dsimp only
    rw [get_insert_of_ne hne]
    split_ifs
    · exact get_evictLowest decay scores nowMs _
    · exact Or.inr rfl
  · exact Or.inr rfl

theorem get_applySuccess_self {model : Option String} {factor : K} {nowMs : ℤ}
    {resumeScore : K} {entry : DegradeScore K}
    (h : get (modelKey model) (applySuccess decay scores model factor nowMs resumeScore) =
      some entry) :
    ∃ existing, get (modelKey model) scores = some existing ∧
      entry.score ≤ existing.effective decay nowMs ∧
      (entry.suspended = true → existing.suspended = true ∧ resumeScore ≤ entry.score) := by
  rw [applySuccess] at h
  dsimp only at h
  split at h
  · rename_i hnone
    rw [hnone] at h
    cases h
  · rename_i existing hexisting
    split_ifs at h
    · rw [get_remove_self] at h
      cases h
    · rw [get_insert_self] at h
      cases h
      refine ⟨existing, hexisting, ?_, ?_⟩
      · exact mul_le_of_le_one_right (effective_nonneg decay existing nowMs)
          (max_le zero_le_one (min_le_right factor 1))
      · intro hsuspended
        simpa using hsuspended

theorem get_applySuccess_other {name model : Option String}
    (hne : modelKey model ≠ modelKey name) (factor : K) (nowMs : ℤ) (resumeScore : K) :
    get (modelKey model) (applySuccess decay scores name factor nowMs resumeScore) =
      get (modelKey model) scores := by
  rw [applySuccess]
  dsimp only
  split
  · rfl
  · split_ifs
    · exact get_remove_of_ne hne scores
    · exact get_insert_of_ne hne _ scores

theorem nodup_addFailure (hnodup : (scores.map Prod.fst).Nodup) (model : Option String)
    (weight : K) (nowMs : ℤ) (suspendScore : K) :
    ((addFailure decay scores model weight nowMs suspendScore).map Prod.fst).Nodup := by
  rw [addFailure]
  split_ifs
  · apply nodup_keys_insert
    split_ifs
    · exact nodup_evictLowest decay nowMs hnodup
    · exact hnodup
  · exact hnodup

theorem nodup_applySuccess (hnodup : (scores.map Prod.fst).Nodup) (model : Option String)
    (factor : K) (nowMs : ℤ) (resumeScore : K) :
    ((applySuccess decay scores model factor nowMs resumeScore).map Prod.fst).Nodup := by
  rw [applySuccess]
  dsimp only
  split
  · exact hnodup
  · split_ifs
    · exact nodup_keys_remove hnodup _
    · exact nodup_keys_insert hnodup _ _

end Operations

section Law

variable [IsStrictOrderedRing K] {decay : Decay K} {lines : Thresholds K} {s t : State K}
  {a : Action K} {model : Option String}

theorem step_nodup (hnodup : (s.scores.map Prod.fst).Nodup) (h : step decay lines s a = some t) :
    (t.scores.map Prod.fst).Nodup := by
  cases a with
  | addFailure name weight nowMs =>
    rw [step] at h
    split_ifs at h
    cases h
    exact nodup_addFailure hnodup name weight nowMs _
  | applySuccess name factor nowMs =>
    rw [step] at h
    split_ifs at h
    cases h
    exact nodup_applySuccess hnodup name factor nowMs _
  | reorder scores =>
    rw [step] at h
    split_ifs at h with hperm
    cases h
    exact (hperm.map Prod.fst).nodup hnodup

theorem step_time (h : step decay lines s a = some t) : s.nowMs ≤ t.nowMs ∧ t.nowMs = a.time s := by
  cases a with
  | addFailure name weight nowMs =>
    rw [step] at h
    split_ifs at h with hle
    cases h
    exact ⟨hle, rfl⟩
  | applySuccess name factor nowMs =>
    rw [step] at h
    split_ifs at h with hle
    cases h
    exact ⟨hle, rfl⟩
  | reorder scores =>
    rw [step] at h
    split_ifs at h
    cases h
    exact ⟨le_rfl, rfl⟩

/-- All that a step can do to the stored entry of a model. -/
theorem entry_of_step (model : Option String) (hnodup : (s.scores.map Prod.fst).Nodup)
    (h : step decay lines s a = some t) {entry : DegradeScore K}
    (hentry : get (modelKey model) t.scores = some entry) :
    get (modelKey model) s.scores = some entry ∨
    (∃ name weight nowMs, a = .addFailure name weight nowMs ∧ modelKey name = modelKey model ∧
      0 < weight ∧ entry.score = effectiveScore decay s.scores model nowMs + weight ∧
      entry.suspended = ((get (modelKey model) s.scores).any (·.suspended) ||
        (decide (0 < lines.suspendScore) && decide (Reaches lines.suspendScore entry.score)))) ∨
    (∃ existing, get (modelKey model) s.scores = some existing ∧
      entry.score ≤ existing.effective decay t.nowMs ∧
      (entry.suspended = true → existing.suspended = true ∧
        lines.resumeScore ≤ entry.score)) := by
  cases a with
  | addFailure name weight nowMs =>
    rw [step] at h
    split_ifs at h
    cases h
    by_cases hkey : modelKey name = modelKey model
    · by_cases hweight : 0 < weight
      · right
        left
        obtain ⟨entry', hget, hscore, -, hsuspended⟩ :=
          get_addFailure_self decay s.scores name hweight nowMs lines.suspendScore
        rw [effectiveScore, hkey] at hscore
        rw [hkey] at hget hsuspended
        cases hentry.symm.trans hget
        exact ⟨name, weight, nowMs, rfl, hkey, hweight, hscore, hsuspended⟩
      · left
        rwa [addFailure, dif_neg hweight] at hentry
    · left
      rcases get_addFailure_other (Ne.symm hkey) weight nowMs lines.suspendScore with h | h
      · rw [h] at hentry
        cases hentry
      · rwa [h] at hentry
  | applySuccess name factor nowMs =>
    rw [step] at h
    split_ifs at h
    cases h
    by_cases hkey : modelKey name = modelKey model
    · right
      right
      rw [← hkey] at hentry ⊢
      exact get_applySuccess_self hentry
    · left
      rwa [get_applySuccess_other (Ne.symm hkey)] at hentry
  | reorder scores =>
    left
    rw [step] at h
    split_ifs at h with hperm
    cases h
    rwa [get_perm hperm hnodup] at hentry

variable {nowMs : ℤ} {actions : List (Action K)}

theorem heldThrough_append {after : List (Action K)} {u : State K}
    (hheld : HeldThrough decay lines model s after (a.time t))
    (hrun : run decay lines s after = some t) (hstep : step decay lines t a = some u)
    (hlast : HeldThrough decay lines model u [] nowMs) :
    HeldThrough decay lines model s (after ++ [a]) nowMs := by
  induction after generalizing s with
  | nil =>
    cases hrun
    refine ⟨hheld, ?_⟩
    intro u' hu'
    cases hstep.symm.trans hu'
    exact hlast
  | cons b after ih =>
    obtain ⟨s', hs', hrun⟩ := Transition.run_cons_eq_some.mp hrun
    refine ⟨hheld.1, ?_⟩
    intro s'' hs''
    cases hs'.symm.trans hs''
    exact ih (hheld.2 s' hs') hrun

theorem isSuspended_earlier {scores : Scores K} {nowMs later : ℤ} (hle : nowMs ≤ later)
    (h : isSuspended decay scores model later lines.resumeScore = true) :
    isSuspended decay scores model nowMs lines.resumeScore = true := by
  obtain ⟨entry, hentry, hsuspended, hreaches⟩ := isSuspended_eq_true_iff.mp h
  exact isSuspended_eq_true_iff.mpr
    ⟨entry, hentry, hsuspended, hreaches.mono (effective_antitone decay entry hle)⟩

theorem heldThrough_of_isSuspended
    (h : isSuspended decay s.scores model nowMs lines.resumeScore = true) :
    HeldThrough decay lines model s [] nowMs := by
  intro moment _ hmoment
  obtain ⟨entry, hentry, -, hreaches⟩ := isSuspended_eq_true_iff.mp (isSuspended_earlier hmoment h)
  rwa [effectiveScore_of_get hentry]

theorem run_after {before after : List (Action K)} {s' t' : State K}
    (hrun : run decay lines start (before ++ a :: after) = some s)
    (hbefore : run decay lines start before = some s') (hstep : step decay lines s' a = some t') :
    run decay lines t' after = some s := by
  obtain ⟨s'', hs'', hrest⟩ := Transition.run_append_eq_some.mp hrun
  cases hbefore.symm.trans hs''
  obtain ⟨t'', ht'', hrest⟩ := Transition.run_cons_eq_some.mp hrest
  cases hstep.symm.trans ht''
  exact hrest

theorem HysteresisLaw.append (hlaw : HysteresisLaw decay lines model actions (a.time s))
    (hrun : run decay lines start actions = some s) (hstep : step decay lines s a = some t)
    (h : isSuspended decay t.scores model nowMs lines.resumeScore = true) :
    HysteresisLaw decay lines model (actions ++ [a]) nowMs := by
  obtain ⟨before, name, weight, failedAt, after, s', t', rfl, hkey, hweight, hbefore, hfailed,
    hreached, hheld⟩ := hlaw
  refine ⟨before, name, weight, failedAt, after ++ [a], s', t', ?_, hkey, hweight, hbefore,
    hfailed, hreached, ?_⟩
  · rw [List.append_assoc, List.cons_append]
  · have hafter := run_after hrun hbefore hfailed
    exact heldThrough_append hheld hafter hstep (heldThrough_of_isSuspended h)

/-- One step keeps the law if it is not a failure that revives a suspension. -/
theorem hysteresisLaw_step (hlaw : ∀ moment, s.nowMs ≤ moment →
      isSuspended decay s.scores model moment lines.resumeScore = true →
      HysteresisLaw decay lines model actions moment) (hnodup : (s.scores.map Prod.fst).Nodup)
    (hrun : run decay lines start actions = some s) (hstep : step decay lines s a = some t)
    (hsafe : ¬ RevivesSuspension decay lines model s a) (hnow : t.nowMs ≤ nowMs)
    (h : isSuspended decay t.scores model nowMs lines.resumeScore = true) :
    HysteresisLaw decay lines model (actions ++ [a]) nowMs := by
  obtain ⟨hle, htime⟩ := step_time hstep
  -- Where the account was suspended just before the step, the law of that moment goes on.
  have hextend : isSuspended decay s.scores model t.nowMs lines.resumeScore = true →
      HysteresisLaw decay lines model (actions ++ [a]) nowMs := by
    intro hbefore
    have hlaw' := hlaw t.nowMs hle hbefore
    rw [htime] at hlaw'
    exact hlaw'.append hrun hstep h
  obtain ⟨entry, hentry, hsuspended, hreaches⟩ := isSuspended_eq_true_iff.mp h
  have hscore : Reaches lines.resumeScore entry.score :=
    hreaches.mono (effective_le_score decay entry nowMs)
  rcases entry_of_step model hnodup hstep hentry with
    hsame | ⟨name, weight, failedAt, rfl, hkey, hweight, hnext, hflag⟩ |
      ⟨existing, hexisting, hdrop, hflag⟩
  · apply hextend
    apply isSuspended_earlier hnow
    exact isSuspended_eq_true_iff.mpr ⟨entry, hsame, hsuspended, hreaches⟩
  · by_cases hreached : Reaches lines.suspendScore entry.score
    · exact ⟨actions, name, weight, failedAt, [], s, t, rfl, hkey, hweight, hrun, hstep,
        ⟨entry, hentry, hreached⟩, heldThrough_of_isSuspended h⟩
    · -- The flag was stored before, and the failure did not revive it.
      apply hextend
      have hstored : (get (modelKey model) s.scores).any (·.suspended) = true := by
        rw [hsuspended] at hflag
        simpa [hreached] using hflag.symm
      have habove : Reaches lines.resumeScore (effectiveScore decay s.scores model failedAt) := by
        by_contra hbelow
        apply hsafe
        rw [hnext] at hscore hreached
        exact ⟨hkey, hstored, hbelow, hscore, hreached⟩
      obtain ⟨existing, hexisting, hset⟩ := (Option.any_eq_true _ _).mp hstored
      rw [effectiveScore_of_get hexisting] at habove
      rw [htime]
      exact isSuspended_eq_true_iff.mpr ⟨existing, hexisting, hset, habove⟩
  · apply hextend
    obtain ⟨hset, hresume⟩ := hflag hsuspended
    exact isSuspended_eq_true_iff.mpr ⟨existing, hexisting, hset, hscore.mono hdrop⟩

def NeverRevives (decay : Decay K) (lines : Thresholds K) (model : Option String) :
    State K → List (Action K) → Prop :=
  Transition.Along (step decay lines) fun s a => ¬ RevivesSuspension decay lines model s a

theorem run_nodup (h : run decay lines start actions = some s) : (s.scores.map Prod.fst).Nodup := by
  have hkeep : ∀ (s : State K) (a : Action K) (t : State K), True →
      (s.scores.map Prod.fst).Nodup → step decay lines s a = some t →
      (t.scores.map Prod.fst).Nodup :=
    fun _ _ _ _ hnodup hstep => step_nodup hnodup hstep
  apply Transition.run_invariant (fun _ => True) hkeep (fun _ _ => trivial) _ h
  exact List.nodup_nil

/-- Until a failure revives a stored suspension, a suspended account has reached the suspend
line and has not been below the resume line since. -/
theorem hysteresis_of_neverRevives (decay : Decay K) (lines : Thresholds K)
    (model : Option String) (actions : List (Action K)) (s : State K) (nowMs : ℤ)
    (hrun : run decay lines start actions = some s)
    (hsafe : NeverRevives decay lines model start actions) (hnow : s.nowMs ≤ nowMs)
    (h : isSuspended decay s.scores model nowMs lines.resumeScore = true) :
    HysteresisLaw decay lines model actions nowMs := by
  -- By induction on the run from its end: each step extends the law of the run before it.
  induction actions using List.reverseRecOn generalizing s nowMs with
  | nil =>
    cases hrun
    cases h
  | append_singleton as a ih =>
    obtain ⟨s', hs', ht⟩ := Transition.run_append_eq_some.mp hrun
    have hstep := Transition.run_singleton.mp ht
    obtain ⟨has, ha⟩ := Transition.along_append hsafe hs'
    apply hysteresisLaw_step ?_ (run_nodup hs') hs' hstep ha.1 hnow h
    intro moment hmoment hsuspended
    exact ih s' moment hs' has hmoment hsuspended

theorem reaches_of_heldThrough_append {after : List (Action K)}
    (hheld : HeldThrough decay lines model s (after ++ [a]) nowMs)
    (hrun : run decay lines s after = some t) (hle : t.nowMs ≤ a.time t) :
    Reaches lines.resumeScore (effectiveScore decay t.scores model (a.time t)) := by
  induction after generalizing s with
  | nil =>
    cases hrun
    exact hheld.1 _ hle le_rfl
  | cons b after ih =>
    obtain ⟨s', hs', hrun⟩ := Transition.run_cons_eq_some.mp hrun
    exact ih (hheld.2 s' hs') hrun

theorem entry_of_revivesSuspension {name : Option String} {weight : K}
    (hstep : step decay lines s (.addFailure name weight nowMs) = some t)
    (h : RevivesSuspension decay lines model s (.addFailure name weight nowMs)) :
    ∃ entry, get (modelKey model) t.scores = some entry ∧ entry.suspended = true ∧
      entry.updatedAtMs = nowMs ∧
      entry.score = effectiveScore decay s.scores model nowMs + weight := by
  obtain ⟨hkey, hstored, hbelow, habove, -⟩ := h
  have hweight : 0 < weight := by
    by_contra hweight
    apply hbelow
    apply habove.mono
    linarith
  rw [step] at hstep
  split_ifs at hstep
  cases hstep
  obtain ⟨entry, hget, hscore, htime, hflag⟩ :=
    get_addFailure_self decay s.scores name hweight nowMs lines.suspendScore
  rw [effectiveScore, hkey] at hscore
  rw [hkey] at hget hflag
  refine ⟨entry, hget, ?_, htime, hscore⟩
  rw [hflag, hstored, Bool.true_or]

/-- Every failure that revives a suspension breaks the law at once. -/
theorem not_hysteresisLaw_of_revivesSuspension (hzero : ∀ score, decay.apply 0 score = score)
    (hrun : run decay lines start actions = some s) (hstep : step decay lines s a = some t)
    (h : RevivesSuspension decay lines model s a) :
    isSuspended decay t.scores model t.nowMs lines.resumeScore = true ∧
      ¬ HysteresisLaw decay lines model (actions ++ [a]) t.nowMs := by
  obtain ⟨hle, htime⟩ := step_time hstep
  cases a with
  | applySuccess name factor nowMs => cases h
  | reorder scores => cases h
  | addFailure name weight nowMs =>
    obtain ⟨entry, hentry, hset, hupdated, hscore⟩ := entry_of_revivesSuspension hstep h
    obtain ⟨-, -, hbelow, habove, hunreached⟩ := h
    constructor
    · have heffective : entry.effective decay t.nowMs = entry.score := by
        rw [DegradeScore.effective, hupdated, htime]
        simp [Action.time, saturatingSub, hzero]
      rw [isSuspended_eq_true_iff]
      refine ⟨entry, hentry, hset, ?_⟩
      rwa [heffective, hscore]
    · rintro ⟨before, name', weight', failedAt, after, s', t', hsplit, -, -, hbefore, hfailed,
        ⟨entry', hentry', hreached⟩, hheld⟩
      rcases List.eq_nil_or_concat after with rfl | ⟨after, last, rfl⟩
      · -- The failure that reached the suspend line cannot be the last one.
        obtain ⟨rfl, hlast⟩ := List.append_inj' hsplit rfl
        cases hlast
        cases hrun.symm.trans hbefore
        cases hstep.symm.trans hfailed
        cases hentry.symm.trans hentry'
        rw [hscore] at hreached
        exact hunreached hreached
      · -- After any other one the score was below the resume line just before the last.
        rw [List.concat_eq_append, ← List.cons_append, ← List.append_assoc] at hsplit
        obtain ⟨rfl, hlast⟩ := List.append_inj' hsplit rfl
        cases hlast
        have hafter := run_after hrun hbefore hfailed
        rw [List.concat_eq_append] at hheld
        rw [htime] at hle
        have hreaches := reaches_of_heldThrough_append hheld hafter hle
        rw [Action.time] at hreaches
        exact hbelow hreaches

end Law

noncomputable def halfLife (halfLifeMs : ℝ) : Decay ℝ where
  apply elapsedMs score := score * (0.5 : ℝ) ^ ((elapsedMs : ℝ) / max halfLifeMs 1)
  nonneg elapsedMs score hscore := mul_nonneg hscore (by positivity)
  le_self elapsedMs score helapsed hscore := by
    apply mul_le_of_le_one_right hscore
    apply Real.rpow_le_one (by norm_num) (by norm_num)
    have : (0 : ℝ) ≤ elapsedMs := by exact_mod_cast helapsed
    positivity
  antitone elapsedMs later score hle hscore := by
    apply mul_le_mul_of_nonneg_left _ hscore
    apply Real.rpow_le_rpow_of_exponent_ge (by norm_num) (by norm_num)
    have : (elapsedMs : ℝ) ≤ later := by exact_mod_cast hle
    gcongr

theorem halfLife_zero (halfLifeMs score : ℝ) : (halfLife halfLifeMs).apply 0 score = score := by
  simp [halfLife]

/-- The lines with which the tests of the scheduler run. -/
noncomputable def testLines : Thresholds ℝ where
  suspendScore := 6
  resumeScore := 2.4
  resume_pos := by norm_num
  resume_le := by norm_num

/-- One failure of weight six on an account without a score. -/
noncomputable def suspendedState : State ℝ where
  scores := addFailure (halfLife 120000) [] none 6 0 6
  nowMs := 0

theorem run_suspendedState :
    run (halfLife 120000) testLines start [.addFailure none 6 0] = some suspendedState := by
  apply Transition.run_singleton.mpr
  rw [step, if_pos (by simp [start])]
  rfl

theorem get_suspendedState : ∃ entry, get (modelKey none) suspendedState.scores = some entry ∧
    entry.score = 6 ∧ entry.updatedAtMs = 0 ∧ entry.suspended = true := by
  obtain ⟨entry, hget, hscore, hupdated, hsuspended⟩ :=
    get_addFailure_self (halfLife 120000) [] none (show (0 : ℝ) < 6 by norm_num) 0 6
  have hscore : entry.score = 6 := by
    rw [hscore, effectiveScore, KeyedList.get]
    norm_num
  refine ⟨entry, hget, hscore, hupdated, ?_⟩
  rw [hsuspended, hscore]
  norm_num [Reaches, thresholdEpsilon]

theorem effectiveScore_suspendedState :
    effectiveScore (halfLife 120000) suspendedState.scores none 240000 = 1.5 := by
  obtain ⟨entry, hget, hscore, hupdated, -⟩ := get_suspendedState
  rw [effectiveScore_of_get hget, DegradeScore.effective, hscore, hupdated]
  norm_num [halfLife, saturatingSub]

theorem revivesSuspension_suspendedState :
    RevivesSuspension (halfLife 120000) testLines none suspendedState
      (.addFailure none 2 240000) := by
  obtain ⟨entry, hget, -, -, hsuspended⟩ := get_suspendedState
  refine ⟨rfl, ?_, ?_⟩
  · rw [hget]
    exact hsuspended
  · rw [effectiveScore_suspendedState]
    norm_num [Reaches, testLines, thresholdEpsilon]

/-- Two half lives after the suspension one more failure of weight two suspends the account
again, at a score of three and a half. -/
theorem not_hysteresisLaw_second_failure : ∃ t : State ℝ,
    run (halfLife 120000) testLines start [.addFailure none 6 0, .addFailure none 2 240000] =
      some t ∧ t.nowMs = 240000 ∧
    isSuspended (halfLife 120000) t.scores none 240000 testLines.resumeScore = true ∧
    ¬ HysteresisLaw (halfLife 120000) testLines none
      [.addFailure none 6 0, .addFailure none 2 240000] 240000 := by
  have hstep : step (halfLife 120000) testLines suspendedState (.addFailure none 2 240000) =
      some { scores := addFailure (halfLife 120000) suspendedState.scores none 2 240000 6
             nowMs := 240000 } := by
    rw [step, if_pos (by simp [suspendedState])]
    rfl
  obtain ⟨hsuspended, hbroken⟩ := not_hysteresisLaw_of_revivesSuspension (halfLife_zero 120000)
    run_suspendedState hstep revivesSuspension_suspendedState
  refine ⟨_, ?_, rfl, hsuspended, hbroken⟩
  apply Transition.run_cons_eq_some.mpr
  exact ⟨suspendedState, Transition.run_singleton.mp run_suspendedState,
    Transition.run_singleton.mpr hstep⟩

theorem isSuspended_suspendedState :
    isSuspended (halfLife 120000) suspendedState.scores none 0 testLines.resumeScore = true := by
  obtain ⟨entry, hget, hscore, hupdated, hsuspended⟩ := get_suspendedState
  refine isSuspended_eq_true_iff.mpr ⟨entry, hget, hsuspended, ?_⟩
  rw [DegradeScore.effective, hscore, hupdated]
  norm_num [halfLife, saturatingSub, Reaches, testLines, thresholdEpsilon]

theorem hysteresisLaw_suspendedState :
    isSuspended (halfLife 120000) suspendedState.scores none 0 testLines.resumeScore = true ∧
    HysteresisLaw (halfLife 120000) testLines none [.addFailure none 6 0] 0 := by
  have hsafe : NeverRevives (halfLife 120000) testLines none start [.addFailure none 6 0] := by
    refine ⟨?_, fun _ _ => trivial⟩
    rintro ⟨-, hstored, -⟩
    simp [start, KeyedList.get] at hstored
  exact ⟨isSuspended_suspendedState, hysteresis_of_neverRevives (halfLife 120000) testLines
    none _ suspendedState 0 run_suspendedState hsafe le_rfl isSuspended_suspendedState⟩

end KiroProxy.Degrade
