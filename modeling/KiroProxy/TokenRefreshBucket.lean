import KiroProxy.TokenRefreshAdmission
import KiroProxy.Transducer

/-!
# Runs of the bucket of this process

Any number of calls of `reserve` and `reconfigure`, each with its time and its limits. The bucket
counts the whole milliseconds since the last call and moves its clock to the call, so the rest of a
millisecond is lost at every call, also at a rejected one.
-/

namespace KiroProxy.TokenRefreshAdmission.LocalTokenRefreshBucket

inductive Call
  | reserve (now maxRpm burst : ℕ)
  | reconfigure (burst now : ℕ)
  deriving DecidableEq, Repr

def Call.now : Call → ℕ
  | .reserve now _ _ => now
  | .reconfigure _ now => now

def Call.burst : Call → ℕ
  | .reserve _ _ burst => burst
  | .reconfigure burst _ => burst

def next (bucket : LocalTokenRefreshBucket) :
    Call → LocalTokenRefreshBucket × List (ℕ × BucketDecision)
  | .reserve now maxRpm burst =>
    let (bucket, decision) := bucket.reserve now maxRpm burst
    (bucket, [(now, decision)])
  | .reconfigure burst now => (bucket.reconfigure burst now, [])

def after (bucket : LocalTokenRefreshBucket) (calls : List Call) : LocalTokenRefreshBucket :=
  (Transducer.run next bucket calls).1

def answers (bucket : LocalTokenRefreshBucket) (calls : List Call) : List (ℕ × BucketDecision) :=
  (Transducer.run next bucket calls).2

/-- Calls under the same limits. -/
def reserves (maxRpm burst : ℕ) (times : List ℕ) : List Call :=
  times.map fun now => .reserve now maxRpm burst

def admittedIn (start finish : ℕ) (answers : List (ℕ × BucketDecision)) : ℕ :=
  answers.countP fun answer => answer.2.admitted && decide (start ≤ answer.1 ∧ answer.1 ≤ finish)

variable {bucket : LocalTokenRefreshBucket} {now maxRpm burst : ℕ}

def elapsedMs (bucket : LocalTokenRefreshBucket) (now : ℕ) : ℕ :=
  min ((now - bucket.lastRefill) / millisecond) 86400000

def refilled (bucket : LocalTokenRefreshBucket) (now maxRpm burst : ℕ) : ℕ :=
  min (bucket.units + bucket.elapsedMs now * maxRpm) (burst * bucketTokenUnits)

theorem reserve_eq (bucket : LocalTokenRefreshBucket) (now maxRpm burst : ℕ) :
    bucket.reserve now maxRpm burst =
      if bucketTokenUnits ≤ bucket.refilled now maxRpm burst then
        (⟨bucket.refilled now maxRpm burst - bucketTokenUnits, now⟩, ⟨true, none,
          (bucket.refilled now maxRpm burst - bucketTokenUnits) / (bucketTokenUnits / 1000)⟩)
      else
        (⟨bucket.refilled now maxRpm burst, now⟩, ⟨false,
          some (max ((bucketTokenUnits - bucket.refilled now maxRpm burst + (max maxRpm 1 - 1)) /
            max maxRpm 1) 1 * millisecond),
          bucket.refilled now maxRpm burst / (bucketTokenUnits / 1000)⟩) := rfl

theorem reserve_of_le (h : bucketTokenUnits ≤ bucket.refilled now maxRpm burst) :
    (bucket.reserve now maxRpm burst).1 =
        ⟨bucket.refilled now maxRpm burst - bucketTokenUnits, now⟩ ∧
      (bucket.reserve now maxRpm burst).2.admitted = true := by
  rw [reserve_eq, if_pos h]
  exact ⟨rfl, rfl⟩

theorem reserve_of_lt (h : bucket.refilled now maxRpm burst < bucketTokenUnits) :
    (bucket.reserve now maxRpm burst).1 = ⟨bucket.refilled now maxRpm burst, now⟩ ∧
      (bucket.reserve now maxRpm burst).2.admitted = false ∧
      (bucket.reserve now maxRpm burst).2.retryAfter =
        some (max ((bucketTokenUnits - bucket.refilled now maxRpm burst + (max maxRpm 1 - 1)) /
          max maxRpm 1) 1 * millisecond) := by
  rw [reserve_eq, if_neg (Nat.not_le.mpr h)]
  exact ⟨rfl, rfl, rfl⟩

theorem reserve_admitted_iff : (bucket.reserve now maxRpm burst).2.admitted = true ↔
    bucketTokenUnits ≤ bucket.refilled now maxRpm burst := by
  constructor
  · intro h
    by_contra hlt
    rw [(reserve_of_lt (Nat.not_le.mp hlt)).2.1] at h
    cases h
  · exact fun h => (reserve_of_le h).2

theorem lastRefill_reserve (bucket : LocalTokenRefreshBucket) (now maxRpm burst : ℕ) :
    (bucket.reserve now maxRpm burst).1.lastRefill = now := by
  rcases Nat.lt_or_ge (bucket.refilled now maxRpm burst) bucketTokenUnits with h | h
  · rw [(reserve_of_lt h).1]
  · rw [(reserve_of_le h).1]

theorem units_reserve (bucket : LocalTokenRefreshBucket) (now maxRpm burst : ℕ) :
    (bucket.reserve now maxRpm burst).1.units +
        (bucket.reserve now maxRpm burst).2.admitted.toNat * bucketTokenUnits =
      bucket.refilled now maxRpm burst := by
  rcases Nat.lt_or_ge (bucket.refilled now maxRpm burst) bucketTokenUnits with h | h
  · obtain ⟨hbucket, hadmitted, -⟩ := reserve_of_lt h
    rw [hbucket, hadmitted, Bool.toNat_false, Nat.zero_mul, Nat.add_zero]
  · obtain ⟨hbucket, hadmitted⟩ := reserve_of_le h
    rw [hbucket, hadmitted, Bool.toNat_true, Nat.one_mul]
    exact Nat.sub_add_cancel h

theorem units_next_le (bucket : LocalTokenRefreshBucket) (call : Call) :
    (bucket.next call).1.units ≤ call.burst * bucketTokenUnits := by
  cases call with
  | reserve now maxRpm burst =>
    calc
      (bucket.reserve now maxRpm burst).1.units ≤ bucket.refilled now maxRpm burst :=
        (Nat.le_add_right _ _).trans_eq (units_reserve bucket now maxRpm burst)
      _ ≤ burst * bucketTokenUnits := min_le_right _ _
  | reconfigure burst now => exact min_le_right _ _

theorem millisecond_pos : 0 < millisecond := by decide

theorem bucketTokenUnits_pos : 0 < bucketTokenUnits := by decide

theorem answers_cons (bucket : LocalTokenRefreshBucket) (maxRpm burst now : ℕ)
    (times : List ℕ) :
    bucket.answers (reserves maxRpm burst (now :: times)) =
      (now, (bucket.reserve now maxRpm burst).2) ::
        (bucket.reserve now maxRpm burst).1.answers (reserves maxRpm burst times) := rfl

theorem admittedIn_cons (start finish : ℕ) (answer : ℕ × BucketDecision)
    (answers : List (ℕ × BucketDecision)) :
    admittedIn start finish (answer :: answers) = admittedIn start finish answers +
      (answer.2.admitted && decide (start ≤ answer.1 ∧ answer.1 ≤ finish)).toNat := by
  unfold admittedIn
  rw [List.countP_cons]
  congr 1
  cases answer.2.admitted && decide (start ≤ answer.1 ∧ answer.1 ≤ finish) <;> rfl

theorem toNat_and_le (a b : Bool) : (a && b).toNat ≤ a.toNat := by
  cases a with
  | false => exact le_rfl
  | true => exact Bool.toNat_le b

variable {start finish : ℕ} {times : List ℕ}

theorem admittedIn_of_late (h : ∀ now ∈ times, finish < now) (bucket : LocalTokenRefreshBucket)
    (maxRpm burst : ℕ) :
    admittedIn start finish (bucket.answers (reserves maxRpm burst times)) = 0 := by
  induction times generalizing bucket with
  | nil => rfl
  | cons now times ih =>
    have hlate : ¬ (start ≤ now ∧ now ≤ finish) := fun hin =>
      absurd hin.2 (Nat.not_le.mpr (h now List.mem_cons_self))
    rw [answers_cons, admittedIn_cons,
      ih (fun later hmem => h later (List.mem_cons_of_mem _ hmem)), decide_eq_false hlate,
      Bool.and_false]
    rfl

theorem div_add_div_le {a b c : ℕ} (hab : a ≤ b) (hbc : b ≤ c) :
    (b - a) / millisecond + (c - b) / millisecond ≤ (c - a) / millisecond := by
  have hsum : c - a = (b - a) + (c - b) := by omega
  rw [hsum]
  exact Nat.div_add_div_le_add_div

/-- What is admitted up to `finish` was in the bucket or is refilled until then. -/
theorem admittedIn_mul_le (hlast : bucket.lastRefill ≤ finish)
    (htimes : (bucket.lastRefill :: times).Pairwise (· ≤ ·)) :
    admittedIn start finish (bucket.answers (reserves maxRpm burst times)) * bucketTokenUnits ≤
      bucket.units + (finish - bucket.lastRefill) / millisecond * maxRpm := by
  induction times generalizing bucket with
  | nil => exact (Nat.zero_mul _).trans_le (Nat.zero_le _)
  | cons now times ih =>
    obtain ⟨hfrom, htimes⟩ := List.pairwise_cons.mp htimes
    have hnow : bucket.lastRefill ≤ now := hfrom now List.mem_cons_self
    rcases Nat.lt_or_ge finish now with hlate | hnow'
    · have hall : ∀ later ∈ now :: times, finish < later := by
        intro later hmem
        rcases List.mem_cons.mp hmem with rfl | hmem
        · exact hlate
        · exact hlate.trans_le ((List.pairwise_cons.mp htimes).1 later hmem)
      rw [admittedIn_of_late hall, Nat.zero_mul]
      exact Nat.zero_le _
    · rw [answers_cons, admittedIn_cons]
      have hrest := @ih (bucket.reserve now maxRpm burst).1
        (by rw [lastRefill_reserve]; exact hnow') (by rw [lastRefill_reserve]; exact htimes)
      rw [lastRefill_reserve] at hrest
      have hunits := units_reserve bucket now maxRpm burst
      have hrefilled : bucket.refilled now maxRpm burst ≤
          bucket.units + (now - bucket.lastRefill) / millisecond * maxRpm :=
        (min_le_left _ _).trans (Nat.add_le_add_left (Nat.mul_le_mul_right _ (min_le_left _ _)) _)
      have hcount := Nat.mul_le_mul_right bucketTokenUnits
        (toNat_and_le (bucket.reserve now maxRpm burst).2.admitted
          (decide (start ≤ now ∧ now ≤ finish)))
      dsimp only
      have hspan := Nat.mul_le_mul_right maxRpm (div_add_div_le hnow hnow')
      rw [Nat.add_mul] at hspan
      rw [Nat.add_mul]
      omega

/-- Calls before the span move the clock only, and the first call in it finds a full bucket at most. -/
theorem admittedIn_le (htimes : times.Pairwise (· ≤ ·)) (bucket : LocalTokenRefreshBucket) :
    admittedIn start finish (bucket.answers (reserves maxRpm burst times)) * bucketTokenUnits ≤
      burst * bucketTokenUnits + (finish - start) / millisecond * maxRpm := by
  induction times generalizing bucket with
  | nil => exact (Nat.zero_mul _).trans_le (Nat.zero_le _)
  | cons now times ih =>
    rw [answers_cons, admittedIn_cons]
    by_cases hin : start ≤ now ∧ now ≤ finish
    · have hrest := @admittedIn_mul_le (bucket.reserve now maxRpm burst).1 maxRpm burst start finish
        times (by rw [lastRefill_reserve]; exact hin.2) (by rw [lastRefill_reserve]; exact htimes)
      rw [lastRefill_reserve] at hrest
      have hunits := units_reserve bucket now maxRpm burst
      have hfull : bucket.refilled now maxRpm burst ≤ burst * bucketTokenUnits := min_le_right _ _
      have hspan : (finish - now) / millisecond * maxRpm ≤ (finish - start) / millisecond * maxRpm :=
        Nat.mul_le_mul_right _ (Nat.div_le_div_right (Nat.sub_le_sub_left hin.1 _))
      dsimp only
      rw [decide_eq_true hin, Bool.and_true, Nat.add_mul]
      omega
    · dsimp only
      rw [decide_eq_false hin, Bool.and_false]
      exact ih (List.pairwise_cons.mp htimes).2 _

/-- In any span of `span` milliseconds under fixed limits a burst and what is refilled in it are
admitted at most. No call leaves more than a burst, and no new limits add to the bucket. -/
theorem after_new_bounded (initialBurst start : ℕ) {before rest : List Call} {times : List ℕ}
    (htimes : ((before ++ reserves maxRpm burst times ++ rest).map Call.now).Pairwise (· ≤ ·)) :
    (∀ spanStart span,
      admittedIn spanStart (spanStart + span * millisecond)
        (((new initialBurst start).after before).answers (reserves maxRpm burst times)) ≤
          burst + span * maxRpm / bucketTokenUnits) ∧
    (∀ call, ((new initialBurst start).after (before ++ [call])).units ≤
      call.burst * bucketTokenUnits) ∧
    ∀ newBurst now, ((new initialBurst start).after (before ++ [.reconfigure newBurst now])).units ≤
      ((new initialBurst start).after before).units := by
  have hlast (call : Call) : (new initialBurst start).after (before ++ [call]) =
      (((new initialBurst start).after before).next call).1 := by
    unfold after
    rw [Transducer.run_append, Transducer.run_singleton]
  refine ⟨fun spanStart span => ?_, fun call => ?_, fun newBurst now => ?_⟩
  · have hinterval : times.Pairwise (· ≤ ·) := by
      rw [List.map_append, List.map_append, List.pairwise_append, List.pairwise_append] at htimes
      have hinterval := htimes.1.2.1
      rw [reserves, List.map_map] at hinterval
      exact (List.map_id' times).symm ▸ hinterval
    have hbound := @admittedIn_le maxRpm burst spanStart (spanStart + span * millisecond) times
      hinterval ((new initialBurst start).after before)
    rw [Nat.add_sub_cancel_left, Nat.mul_div_cancel _ millisecond_pos] at hbound
    calc
      _ ≤ (burst * bucketTokenUnits + span * maxRpm) / bucketTokenUnits :=
        (Nat.le_div_iff_mul_le bucketTokenUnits_pos).mpr hbound
      _ = burst + span * maxRpm / bucketTokenUnits := by
        rw [Nat.mul_comm burst, Nat.mul_add_div bucketTokenUnits_pos]
  · rw [hlast]
    exact units_next_le _ call
  · rw [hlast]
    exact min_le_left _ _

/-- Two tokens are left by the new limits, and one is refilled in a second. -/
theorem after_new_bounded_lowered :
    admittedIn 0 (1000 * millisecond)
        (((new 8 0).after [.reserve 0 60 8, .reconfigure 2 0]).answers
          (reserves 60 2 [0, 0, 0, 1000 * millisecond])) ≤ 2 + 1000 * 60 / bucketTokenUnits :=
  (Nat.zero_add (1000 * millisecond)).symm ▸ (@after_new_bounded 60 2 8 0
    [.reserve 0 60 8, .reconfigure 2 0] [] [0, 0, 0, 1000 * millisecond] (by decide)).1 0 1000

/-- The whole milliseconds that calls at these times count up to `finish`. -/
def countedMs (start : ℕ) (times : List ℕ) (finish : ℕ) : ℕ :=
  match times with
  | [] => (finish - start) / millisecond
  | now :: times => (now - start) / millisecond + countedMs now times finish

theorem countedMs_le (htimes : (start :: times ++ [finish]).Pairwise (· ≤ ·)) :
    countedMs start times finish ≤ (finish - start) / millisecond := by
  induction times generalizing start with
  | nil => exact le_rfl
  | cons now times ih =>
    obtain ⟨hstart, htimes⟩ := List.pairwise_cons.mp htimes
    have hfinish : now ≤ finish :=
      (List.pairwise_cons.mp htimes).1 finish (List.mem_append_right _ List.mem_cons_self)
    calc
      countedMs start (now :: times) finish ≤
          (now - start) / millisecond + (finish - now) / millisecond :=
        Nat.add_le_add_left (ih htimes) _
      _ ≤ (finish - start) / millisecond := div_add_div_le (hstart now List.mem_cons_self) hfinish

/-- No millisecond is lost exactly when all calls are whole milliseconds from the first one. -/
theorem countedMs_eq_iff (htimes : (start :: times ++ [finish]).Pairwise (· ≤ ·))
    (hwhole : millisecond ∣ finish - start) :
    countedMs start times finish = (finish - start) / millisecond ↔
      ∀ now ∈ times, millisecond ∣ now - start := by
  induction times generalizing start with
  | nil => exact iff_of_true rfl nofun
  | cons now times ih =>
    obtain ⟨hstart, htimes⟩ := List.pairwise_cons.mp htimes
    have hnow : start ≤ now := hstart now List.mem_cons_self
    have hfinish : now ≤ finish :=
      (List.pairwise_cons.mp htimes).1 finish (List.mem_append_right _ List.mem_cons_self)
    have hrest := countedMs_le htimes
    rw [List.forall_mem_cons]
    change (now - start) / millisecond + countedMs now times finish = _ ↔ _
    by_cases hdvd : millisecond ∣ now - start
    · have hlater : ∀ later ∈ times, now ≤ later := fun later hmem =>
        (List.pairwise_cons.mp htimes).1 later (List.mem_append_left _ hmem)
      have hsame : (∀ later ∈ times, millisecond ∣ later - now) ↔
          ∀ later ∈ times, millisecond ∣ later - start := by
        refine forall₂_congr fun later hmem => ?_
        have hle := hlater later hmem
        unfold millisecond at hdvd ⊢
        omega
      have hwhole' : millisecond ∣ finish - now := by
        unfold millisecond at hdvd hwhole ⊢
        omega
      rw [← hsame, ← ih htimes hwhole']
      unfold millisecond at hdvd hwhole' ⊢
      omega
    · refine iff_of_false ?_ fun h => hdvd h.1
      unfold millisecond at hdvd hwhole hrest ⊢
      omega

theorem elapsedMs_of_le (h : now - bucket.lastRefill ≤ 86400000 * millisecond) :
    bucket.elapsedMs now = (now - bucket.lastRefill) / millisecond :=
  min_eq_left (Nat.div_le_of_le_mul (h.trans_eq (Nat.mul_comm _ _)))

/-- A bucket that stays below one token takes in all that is counted. -/
theorem refilled_of_rejected (hburst : 1 ≤ burst)
    (htimes : (bucket.lastRefill :: times ++ [finish]).Pairwise (· ≤ ·))
    (hday : finish - bucket.lastRefill ≤ 86400000 * millisecond)
    (hrejected : ∀ answer ∈ bucket.answers (reserves maxRpm burst times),
      answer.2.admitted = false) :
    (bucket.after (reserves maxRpm burst times)).refilled finish maxRpm burst =
      min (bucket.units + countedMs bucket.lastRefill times finish * maxRpm)
        (burst * bucketTokenUnits) := by
  induction times generalizing bucket with
  | nil =>
    change bucket.refilled finish maxRpm burst = _
    rw [refilled, elapsedMs_of_le hday]
    rfl
  | cons now times ih =>
    obtain ⟨hstart, htimes⟩ := List.pairwise_cons.mp htimes
    have hnow : bucket.lastRefill ≤ now := hstart now List.mem_cons_self
    have hfinish : now ≤ finish :=
      (List.pairwise_cons.mp htimes).1 finish (List.mem_append_right _ List.mem_cons_self)
    rw [answers_cons, List.forall_mem_cons] at hrejected
    have hlt : bucket.refilled now maxRpm burst < bucketTokenUnits := by
      by_contra hle
      exact absurd (reserve_admitted_iff.mpr (Nat.not_lt.mp hle))
        (by rw [hrejected.1]; exact Bool.false_ne_true)
    -- The capacity is a token at least, so it does not cut the refill.
    have hunits : bucket.refilled now maxRpm burst =
        bucket.units + (now - bucket.lastRefill) / millisecond * maxRpm := by
      have hcapacity : bucketTokenUnits ≤ burst * bucketTokenUnits := Nat.le_mul_of_pos_left _ hburst
      rw [refilled] at hlt ⊢
      rw [elapsedMs_of_le ((Nat.sub_le_sub_right hfinish _).trans hday)] at hlt ⊢
      exact min_eq_left ((min_lt_iff.mp hlt).resolve_right (Nat.not_lt.mpr hcapacity) |>.le.trans
        hcapacity)
    have hbucket := (reserve_of_lt hlt).1
    have hrest := @ih (bucket.reserve now maxRpm burst).1 (by rw [hbucket]; exact htimes)
      (by rw [hbucket]; exact (Nat.sub_le_sub_left hnow _).trans hday) hrejected.2
    calc
      _ = ((bucket.reserve now maxRpm burst).1.after (reserves maxRpm burst times)).refilled finish
          maxRpm burst := rfl
      _ = min (bucket.refilled now maxRpm burst + countedMs now times finish * maxRpm)
          (burst * bucketTokenUnits) := by rw [hrest, hbucket]
      _ = min (bucket.units + countedMs bucket.lastRefill (now :: times) finish * maxRpm)
          (burst * bucketTokenUnits) := by rw [hunits, countedMs, Nat.add_mul, Nat.add_assoc]

theorem refill_iff_eq {units counted : ℕ} (hrpm : 1 ≤ maxRpm) (hunits : units < bucketTokenUnits)
    (hcounted : counted ≤ (bucketTokenUnits - units + (maxRpm - 1)) / maxRpm) :
    bucketTokenUnits ≤ units + counted * maxRpm ↔
      counted = (bucketTokenUnits - units + (maxRpm - 1)) / maxRpm := by
  rw [eq_comm, ← hcounted.ge_iff_eq', Nat.div_le_iff_le_mul hrpm]
  omega

theorem one_le_refill {units : ℕ} (hrpm : 1 ≤ maxRpm) (hunits : units < bucketTokenUnits) :
    1 ≤ (bucketTokenUnits - units + (maxRpm - 1)) / maxRpm :=
  (Nat.one_le_div_iff hrpm).mpr (by omega)

theorem retryAfter_eq {retryAfter : ℕ} (hrpm : 1 ≤ maxRpm)
    (h : (bucket.reserve now maxRpm burst).2.retryAfter = some retryAfter) :
    bucket.refilled now maxRpm burst < bucketTokenUnits ∧
      retryAfter =
        (bucketTokenUnits - bucket.refilled now maxRpm burst + (maxRpm - 1)) / maxRpm *
          millisecond := by
  rcases Nat.lt_or_ge (bucket.refilled now maxRpm burst) bucketTokenUnits with hlt | hle
  · rw [(reserve_of_lt hlt).2.2, max_eq_left hrpm, max_eq_left (one_le_refill hrpm hlt)] at h
    exact ⟨hlt, (Option.some.inj h).symm⟩
  · rw [reserve_eq, if_pos hle] at h
    cases h

/-- A call at the time that a rejected call was given is admitted exactly when all calls between
them are whole milliseconds from the rejected one. -/
theorem admitted_at_retry_iff (start : ℕ) {before polls : List ℕ} {now retryAfter : ℕ}
    (hrpm : 1 ≤ maxRpm) (hburst : 1 ≤ burst)
    (htimes : (start :: before ++ now :: polls ++ [now + retryAfter]).Pairwise (· ≤ ·))
    (hrejected : (((new burst start).after (reserves maxRpm burst before)).reserve now maxRpm
      burst).2.retryAfter = some retryAfter)
    (hpolls : ∀ answer ∈ (((new burst start).after (reserves maxRpm burst before)).reserve now maxRpm
      burst).1.answers (reserves maxRpm burst polls), answer.2.admitted = false) :
    (((new burst start).after (reserves maxRpm burst (before ++ now :: polls))).reserve
      (now + retryAfter) maxRpm burst).2.admitted = true ↔
        ∀ poll ∈ polls, millisecond ∣ poll - now := by
  have hafter : (new burst start).after (reserves maxRpm burst (before ++ now :: polls)) =
      (((new burst start).after (reserves maxRpm burst before)).reserve now maxRpm burst).1.after
        (reserves maxRpm burst polls) := by
    unfold after reserves
    rw [List.map_append, Transducer.run_append]
    rfl
  rw [hafter, reserve_admitted_iff]
  generalize (new burst start).after (reserves maxRpm burst before) = bucket at hrejected hpolls ⊢
  have htimes : (now :: polls ++ [now + retryAfter]).Pairwise (· ≤ ·) := by
    rw [List.append_assoc, List.pairwise_append] at htimes
    exact htimes.2.1
  obtain ⟨hlt, hretry⟩ := retryAfter_eq hrpm hrejected
  have hbucket := (reserve_of_lt hlt).1
  rw [hbucket] at hpolls ⊢
  have hspan : (now + retryAfter - now) / millisecond =
      (bucketTokenUnits - bucket.refilled now maxRpm burst + (maxRpm - 1)) / maxRpm := by
    rw [Nat.add_sub_cancel_left, hretry, Nat.mul_div_cancel _ millisecond_pos]
  have hday : now + retryAfter - now ≤ 86400000 * millisecond := by
    rw [Nat.add_sub_cancel_left, hretry]
    refine Nat.mul_le_mul_right _ ((Nat.div_le_iff_le_mul hrpm).mpr ?_)
    unfold bucketTokenUnits
    omega
  have hcapacity : bucketTokenUnits ≤ burst * bucketTokenUnits := Nat.le_mul_of_pos_left _ hburst
  have hwhole : millisecond ∣ now + retryAfter - now := by
    rw [Nat.add_sub_cancel_left, hretry]
    exact Nat.dvd_mul_left _ _
  rw [refilled_of_rejected hburst htimes hday hpolls, le_min_iff, and_iff_left hcapacity,
    ← countedMs_eq_iff htimes hwhole, hspan]
  exact refill_iff_eq hrpm hlt (hspan ▸ countedMs_le htimes)

/-- A call between two whole milliseconds from the rejected one loses one of them. -/
theorem admitted_at_retry_polled :
    (((new 1 0).after (reserves 60 1 [0])).reserve 0 60 1).2.retryAfter =
        some (1000 * millisecond) ∧
      (((((new 1 0).after (reserves 60 1 [0])).reserve 0 60 1).1.answers
        (reserves 60 1 [millisecond / 2])).all fun answer => !answer.2.admitted) = true ∧
      (((new 1 0).after (reserves 60 1 [0, 0, millisecond / 2])).reserve
        (1000 * millisecond) 60 1).2.admitted = false := by
  decide

theorem admitted_at_retry_iff_polled :
    (((new 1 0).after (reserves 60 1 ([0] ++ 0 :: [500 * millisecond]))).reserve
      (0 + 1000 * millisecond) 60 1).2.admitted = true ↔
        ∀ poll ∈ [500 * millisecond], millisecond ∣ poll - 0 :=
  admitted_at_retry_iff 0 (by decide) (by decide) (by decide) (by decide) (by decide)

end KiroProxy.TokenRefreshAdmission.LocalTokenRefreshBucket
