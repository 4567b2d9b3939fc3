import KiroProxy.InFlight.Tombstones

/-!
# What the tombstones remember

The set is read as a log of its insertions, the latest first. A key that is inserted twice is
listed twice, and the entry that leaves the queue takes the key with it when the times are equal.
-/

namespace KiroProxy.InFlight.Tombstones

open Transition ReleasedLeaseTombstoneSet

inductive Call
  | record (key : LeaseKey) (now : Instant)
  | prune (now : Instant)
  deriving DecidableEq, Repr

def Call.now : Call → Instant
  | record _ now => now
  | prune now => now

/-- The log and the time of the last call are not part of the program. -/
structure History where
  tombstones : ReleasedLeaseTombstoneSet
  log : List (LeaseKey × Instant)
  now : Instant

namespace History

def new (now : Instant) : History := ⟨⟨[], []⟩, [], now⟩

def step (s : History) : Call → Option History
  | .record key now =>
    some ⟨recordReleasedInFlightLeaseTombstone s.tombstones key now, (key, now) :: s.log, now⟩
  | .prune now => some ⟨s.tombstones.prune now, s.log, now⟩

def InOrder (s : History) (call : Call) : Prop := s.now ≤ call.now

instance (s : History) (call : Call) : Decidable (InOrder s call) :=
  inferInstanceAs (Decidable (_ ≤ _))

/-- A key is present exactly when its latest insertion is in time and among the latest ones, and
then the queue has that insertion. -/
def Remembers (s : History) : Prop :=
  ∀ key, (s.tombstones.containsKey key = true ↔
      ∃ time ∈ KeyedList.get key (s.log.take tombstoneHardLimit),
        durationSince s.now time ≤ tombstoneTtl) ∧
    ∀ time ∈ KeyedList.get key s.tombstones.releasedAt,
      KeyedList.get key s.log = some time ∧ (key, time) ∈ s.tombstones.order

/-- The queue is full, and its first entry, which is still in time, is of a key whose latest
insertion was at the same time. -/
def EvictsRepeated (s : History) (key : LeaseKey) (now : Instant) : Prop :=
  ∃ entry ∈ s.tombstones.order.head?, durationSince now entry.2 ≤ tombstoneTtl ∧
    tombstoneHardLimit ≤ s.tombstones.order.length ∧
    KeyedList.get entry.1 ((key, now) :: s.tombstones.order.tail.reverse) = some entry.2

def KeepsRepeated (s : History) : Call → Prop
  | .record key now => ¬ s.EvictsRepeated key now
  | .prune _ => True

instance (s : History) (call : Call) : Decidable (KeepsRepeated s call) := by
  unfold KeepsRepeated EvictsRepeated
  cases call <;> infer_instance

end History

def fresh (now : Instant) (entry : LeaseKey × Instant) : Bool :=
  durationSince now entry.2 ≤ tombstoneTtl

/-- The latest entries come first. -/
abbrev Latest (log : List (LeaseKey × Instant)) : Prop := log.Pairwise fun e e' => e'.2 ≤ e.2

variable {now : Instant} {key : LeaseKey} {time : Instant} {entry : LeaseKey × Instant}
variable {releasedAt order log rest : List (LeaseKey × Instant)}

theorem fresh_of_le {entry' : LeaseKey × Instant} (h : entry.2 ≤ entry'.2)
    (hfresh : fresh now entry = true) : fresh now entry' = true := by
  have hle : durationSince now entry'.2 ≤ durationSince now entry.2 :=
    Int.toNat_le_toNat (Int.sub_le_sub_left h now)
  rw [fresh, decide_eq_true_iff] at hfresh ⊢
  exact hle.trans hfresh

theorem all_fresh (h : Latest ((key, time) :: rest).reverse)
    (htime : fresh now (key, time) = true) : ∀ e ∈ rest.reverse, fresh now e = true := by
  rw [List.reverse_cons, Latest, List.pairwise_append] at h
  exact fun e he => fresh_of_le (h.2.2 e he _ (List.mem_singleton_self _)) htime

theorem Latest.tail (h : Latest ((key, time) :: rest).reverse) : Latest rest.reverse := by
  rw [List.reverse_cons] at h
  exact (List.pairwise_append.mp h).1

theorem order_pruneFrom (h : Latest order.reverse) :
    (pruneFrom now releasedAt order).order.reverse =
      (order.reverse.takeWhile (fresh now)).take tombstoneHardLimit := by
  induction order generalizing releasedAt with
  | nil => rfl
  | cons front rest ih =>
    obtain ⟨key, time⟩ := front
    rw [pruneFrom, List.reverse_cons]
    cases htime : fresh now (key, time) with
    | true =>
      have hall := all_fresh h htime
      have hself : (rest.reverse ++ [(key, time)]).takeWhile (fresh now) =
          rest.reverse ++ [(key, time)] := by
        rw [List.takeWhile_append_of_pos hall, List.takeWhile_cons_of_pos htime, List.takeWhile_nil]
      rw [hself]
      split_ifs with hstays
      · rw [List.take_of_length_le (by simpa using hstays.2), List.reverse_cons]
      all_goals
        have hlong : tombstoneHardLimit ≤ rest.reverse.length := by
          rw [List.length_reverse]
          by_contra hlt
          exact hstays ⟨of_decide_eq_true htime, Nat.lt_of_not_le hlt⟩
        rw [ih h.tail, List.take_append_of_le_length hlong, List.takeWhile_eq_self_iff.mpr hall]
    | false =>
      rw [fresh, decide_eq_false_iff_not] at htime
      rw [if_neg fun hstays => htime hstays.1, ih h.tail, List.takeWhile_append]
      split_ifs with hall
      · rw [List.takeWhile_cons_of_neg (by simpa [fresh] using htime), List.append_nil,
          (List.takeWhile_prefix _).eq_of_length hall]
      · rfl

/-- The map has the latest time of each key in the queue, unless that time is over already. -/
def Stands (now : Instant) (releasedAt recent : List (LeaseKey × Instant)) : Prop :=
  ∀ key, KeyedList.get key releasedAt = KeyedList.get key recent ∨
    KeyedList.get key releasedAt = none ∧
      ∃ time, KeyedList.get key recent = some time ∧ fresh now (key, time) = false

theorem Stands.pop (h : Stands now releasedAt ((key, time) :: rest).reverse)
    (hpop : fresh now (key, time) = false ∨ KeyedList.get key rest.reverse ≠ some time) :
    Stands now (if KeyedList.get key releasedAt = some time then KeyedList.remove key releasedAt
      else releasedAt) rest.reverse := by
  intro key'
  have hkey := h key'
  rw [List.reverse_cons, KeyedList.get_append] at hkey
  by_cases heq : key' = key
  · subst heq
    rw [KeyedList.get, if_pos rfl] at hkey
    cases hrest : KeyedList.get key' rest.reverse with
    | none =>
      rw [hrest, Option.none_or] at hkey
      refine .inl ?_
      rcases hkey with hget | ⟨hget, -⟩
      · rw [if_pos hget, KeyedList.get_remove_self]
      · rw [if_neg (by rw [hget]; rintro ⟨⟩), hget]
    | some time' =>
      rw [hrest, Option.some_or] at hkey
      rcases hkey with hget | ⟨hget, hstale⟩
      · by_cases htime : time' = time
        · subst htime
          rw [if_pos hget, KeyedList.get_remove_self]
          exact .inr ⟨rfl, time', rfl, hpop.resolve_right (not_not_intro hrest)⟩
        · rw [if_neg (by rw [hget]; exact fun h => htime (Option.some.inj h))]
          exact .inl hget
      · rw [if_neg (by rw [hget]; rintro ⟨⟩)]
        exact .inr ⟨hget, hstale⟩
  · rw [KeyedList.get, if_neg (Ne.symm heq), KeyedList.get, Option.or_none] at hkey
    split_ifs
    · rwa [KeyedList.get_remove_of_ne heq]
    · exact hkey

theorem pruneFrom_of_fresh (hlength : order.length ≤ tombstoneHardLimit)
    (h : ∀ e ∈ order, fresh now e = true) :
    pruneFrom now releasedAt order = ⟨releasedAt, order⟩ := by
  cases order with
  | nil => rfl
  | cons front rest => exact if_pos ⟨of_decide_eq_true (h front List.mem_cons_self), hlength⟩

theorem get_pruneFrom (hsorted : Latest order.reverse) (hlength : order.length ≤ tombstoneHardLimit)
    (h : Stands now releasedAt order.reverse) (key : LeaseKey) :
    KeyedList.get key (pruneFrom now releasedAt order).releasedAt =
      KeyedList.get key (pruneFrom now releasedAt order).order.reverse := by
  induction order generalizing releasedAt with
  | nil =>
    rcases h key with hget | ⟨-, time, htime, -⟩
    · exact hget
    · cases htime
  | cons front rest ih =>
    obtain ⟨key', time'⟩ := front
    cases htime : fresh now (key', time') with
    | true =>
      have hall : ∀ e ∈ (key', time') :: rest, fresh now e = true := by
        rintro e (- | ⟨-, he⟩)
        · exact htime
        · exact all_fresh hsorted htime e (List.mem_reverse.mpr he)
      rw [pruneFrom_of_fresh hlength hall]
      rcases h key with hget | ⟨-, time, hget, hstale⟩
      · exact hget
      · have hfresh := hall _ (List.mem_reverse.mp (KeyedList.mem_of_get hget))
        cases hfresh.symm.trans hstale
    | false =>
      rw [pruneFrom, if_neg fun hstays => of_decide_eq_false htime hstays.1]
      exact ih hsorted.tail (Nat.le_of_succ_le hlength) (h.pop (.inl htime))

theorem takeWhile_fresh {now' : Instant} (h : now ≤ now') (log : List (LeaseKey × Instant)) :
    (log.takeWhile (fresh now)).takeWhile (fresh now') = log.takeWhile (fresh now') := by
  rw [List.takeWhile_takeWhile]
  congr 1
  funext entry
  cases hfresh : fresh now' entry with
  | false => simp
  | true =>
    have hle : durationSince now entry.2 ≤ durationSince now' entry.2 :=
      Int.toNat_le_toNat (Int.sub_le_sub_right h _)
    simpa [fresh] using hle.trans (of_decide_eq_true hfresh)

theorem get_takeWhile_fresh (h : Latest log) (key : LeaseKey) :
    KeyedList.get key (log.takeWhile (fresh now)) =
      (KeyedList.get key log).filter fun time => fresh now (key, time) := by
  induction log with
  | nil => rfl
  | cons entry log ih =>
    obtain ⟨hle, hlog⟩ := List.pairwise_cons.mp h
    cases hfresh : fresh now entry with
    | true =>
      rw [List.takeWhile_cons_of_pos hfresh, KeyedList.get, KeyedList.get]
      split_ifs with heq
      · exact (Option.filter_some_pos (p := fun time => fresh now (key, time)) hfresh).symm
      · exact ih hlog
    | false =>
      rw [List.takeWhile_cons_of_neg (by rw [hfresh]; exact Bool.false_ne_true)]
      symm
      rw [KeyedList.get, KeyedList.get, Option.filter_eq_none_iff]
      intro time htime hfresh'
      refine Bool.false_ne_true (hfresh.symm.trans ?_)
      split_ifs at htime with heq
      · obtain rfl := Option.some.inj htime
        exact hfresh'
      · exact fresh_of_le (hle _ (KeyedList.mem_of_get htime)) hfresh'

theorem get_of_take {n : ℕ} (h : KeyedList.get key (log.take n) = some time) :
    KeyedList.get key log = some time := by
  rw [← List.take_append_drop n log, KeyedList.get_append, h]
  rfl

namespace History

structure Inv (s : History) : Prop where
  sorted : Latest s.log
  le : ∀ e ∈ s.log, e.2 ≤ s.now
  order : s.tombstones.order.reverse =
    (s.log.take tombstoneHardLimit).takeWhile (fresh s.now)

/-- The map has the latest time of each key in the queue. -/
def Agrees (tombstones : ReleasedLeaseTombstoneSet) : Prop :=
  ∀ key, KeyedList.get key tombstones.releasedAt = KeyedList.get key tombstones.order.reverse

variable {s t : History} {call : Call}

theorem Inv.latest_order (h : Inv s) : Latest s.tombstones.order.reverse := by
  rw [h.order]
  exact h.sorted.sublist ((List.takeWhile_sublist _).trans (List.take_sublist _ _))

theorem Inv.length_order (h : Inv s) : s.tombstones.order.length ≤ tombstoneHardLimit := by
  rw [← List.length_reverse, h.order]
  exact (List.takeWhile_sublist _).length_le.trans (List.length_take_le _ _)

theorem Inv.latest_insert (h : Inv s) (hle : s.now ≤ now) (key : LeaseKey) :
    Latest (s.tombstones.order ++ [(key, now)]).reverse := by
  rw [List.reverse_append]
  refine List.pairwise_cons.mpr ⟨fun e he => ?_, h.latest_order⟩
  rw [h.order] at he
  exact Int.le_trans (h.le e (List.mem_of_mem_take ((List.takeWhile_sublist _).subset he))) hle

theorem Inv.step (h : Inv s) (hle : s.InOrder call) (ht : s.step call = some t) : Inv t := by
  cases call with
  | record key now =>
    obtain rfl := Option.some.inj ht
    have hle : s.now ≤ now := hle
    refine ⟨List.pairwise_cons.mpr ⟨fun e he => Int.le_trans (h.le e he) hle, h.sorted⟩, ?_, ?_⟩
    · exact List.forall_mem_cons.mpr ⟨Int.le_refl _, fun e he => Int.le_trans (h.le e he) hle⟩
    · have hself : fresh now (key, now) = true := by simp [fresh, durationSince]
      refine (order_pruneFrom (h.latest_insert hle key)).trans ?_
      obtain ⟨limit, hlimit⟩ : ∃ limit, tombstoneHardLimit = limit + 1 := ⟨199999, rfl⟩
      rw [List.reverse_concat, List.takeWhile_cons_of_pos hself, h.order, takeWhile_fresh hle,
        hlimit, List.take_succ_cons, List.take_succ_cons, List.takeWhile_cons_of_pos hself,
        List.take_takeWhile, List.take_take, min_eq_left (Nat.le_succ limit)]
  | prune now =>
    obtain rfl := Option.some.inj ht
    have hle : s.now ≤ now := hle
    refine ⟨h.sorted, fun e he => Int.le_trans (h.le e he) hle, ?_⟩
    refine (order_pruneFrom h.latest_order).trans ?_
    rw [h.order, takeWhile_fresh hle, List.take_takeWhile, List.take_take, min_self]

theorem remembers_iff (h : Inv s) : s.Remembers ↔ Agrees s.tombstones := by
  have hrecent (key : LeaseKey) : KeyedList.get key s.tombstones.order.reverse =
      (KeyedList.get key (s.log.take tombstoneHardLimit)).filter fun time =>
        fresh s.now (key, time) := by
    rw [h.order, get_takeWhile_fresh (h.sorted.sublist (List.take_sublist _ _))]
  have hiff (key : LeaseKey) : (∃ time ∈ KeyedList.get key (s.log.take tombstoneHardLimit),
      durationSince s.now time ≤ tombstoneTtl) ↔
        (KeyedList.get key s.tombstones.order.reverse).isSome = true := by
    rw [hrecent, Option.isSome_filter, Option.any_eq_true]
    exact exists_congr fun time => and_congr_right fun _ => decide_eq_true_iff.symm
  constructor
  · intro hremembers key
    obtain ⟨hpresent, hlatest⟩ := hremembers key
    rw [hiff, containsKey] at hpresent
    cases hget : KeyedList.get key s.tombstones.releasedAt with
    | none =>
      rw [hget] at hpresent
      exact (Option.not_isSome_iff_eq_none.mp fun hsome => by cases hpresent.mpr hsome).symm
    | some time =>
      rw [hget] at hpresent
      obtain ⟨time', htime'⟩ := Option.isSome_iff_exists.mp (hpresent.mp rfl)
      have htake := hrecent key
      rw [htime'] at htake
      have hlog := get_of_take (Option.eq_some_of_filter_eq_some htake.symm)
      rw [htime', ← hlog, (hlatest time hget).1]
  · intro hagrees key
    refine ⟨?_, fun time htime => ?_⟩
    · rw [hiff, containsKey, hagrees]
    · have hget : KeyedList.get key s.tombstones.order.reverse = some time := by
        rw [← hagrees]
        exact htime
      refine ⟨get_of_take (Option.eq_some_of_filter_eq_some ((hrecent key).symm.trans hget)), ?_⟩
      exact List.mem_reverse.mp (KeyedList.mem_of_get hget)

theorem stands_insert (hagrees : Agrees s.tombstones) (key : LeaseKey) (now : Instant) :
    Stands now (KeyedList.insert key now s.tombstones.releasedAt)
      (s.tombstones.order ++ [(key, now)]).reverse := by
  intro key'
  rw [List.reverse_concat, KeyedList.get]
  refine .inl ?_
  split_ifs with heq
  · rw [heq, KeyedList.get_insert_self]
  · rw [KeyedList.get_insert_of_ne (Ne.symm heq), hagrees]

theorem agrees_record_iff (h : Inv s) (hagrees : Agrees s.tombstones) (hle : s.now ≤ now)
    (key : LeaseKey) :
    Agrees (recordReleasedInFlightLeaseTombstone s.tombstones key now) ↔
      ¬ s.EvictsRepeated key now := by
  have hsorted := h.latest_insert hle key
  have hstands := stands_insert hagrees key now
  have hlength := h.length_order
  rw [recordReleasedInFlightLeaseTombstone, prune, ReleasedLeaseTombstoneSet.insert]
  unfold EvictsRepeated
  by_cases hroom : s.tombstones.order.length + 1 ≤ tombstoneHardLimit
  · refine iff_of_true (get_pruneFrom hsorted (by simpa using hroom) hstands) ?_
    rintro ⟨-, -, -, hfull, -⟩
    omega
  · obtain ⟨⟨key', time⟩, rest, horder⟩ : ∃ front rest, s.tombstones.order = front :: rest := by
      refine List.exists_cons_of_ne_nil fun hnil => hroom ?_
      rw [hnil]
      decide
    rw [horder] at hsorted hstands hlength hroom ⊢
    rw [List.length_cons] at hlength hroom
    have hrest : (rest ++ [(key, now)]).length ≤ tombstoneHardLimit := by simpa using hlength
    rw [List.cons_append] at hsorted hstands ⊢
    rw [pruneFrom, if_neg fun hstays => hroom (by simpa using hstays.2)]
    by_cases hbad : fresh now (key', time) = true ∧
        KeyedList.get key' (rest ++ [(key, now)]).reverse = some time
    · refine iff_of_false (fun hagrees' => ?_) (not_not_intro ⟨_, rfl, ?_⟩)
      · have hall : ∀ e ∈ rest ++ [(key, now)], fresh now e = true := fun e he =>
          all_fresh hsorted hbad.1 e (List.mem_reverse.mpr he)
        have hkey := hagrees' key'
        rw [pruneFrom_of_fresh hrest hall, hbad.2] at hkey
        split_ifs at hkey with hsame
        · rw [KeyedList.get_remove_self] at hkey
          cases hkey
        · exact hsame hkey
      · refine ⟨of_decide_eq_true hbad.1, by rw [List.length_cons]; omega, ?_⟩
        simpa using hbad.2
    · refine iff_of_true (get_pruneFrom hsorted.tail hrest (hstands.pop ?_)) ?_
      · cases htime : fresh now (key', time) with
        | false => exact .inl rfl
        | true => exact .inr fun hget => hbad ⟨htime, hget⟩
      · rintro ⟨_, ⟨⟩, hfresh, -, hget⟩
        exact hbad ⟨decide_eq_true hfresh, by simpa using hget⟩

theorem remembers_step_iff (h : Inv s) (hremembers : s.Remembers) (hle : s.InOrder call) :
    (∀ t ∈ s.step call, t.Remembers) ↔ s.KeepsRepeated call := by
  have hagrees := (remembers_iff h).mp hremembers
  cases call with
  | record key now =>
    refine Iff.trans ?_ (agrees_record_iff h hagrees hle key)
    exact Iff.trans ⟨fun h => h _ rfl, fun h t ht => Option.some.inj ht ▸ h⟩
      (remembers_iff (h.step hle rfl))
  | prune now =>
    refine iff_of_true (fun t ht => (remembers_iff (h.step hle ht)).mpr ?_) trivial
    obtain rfl := Option.some.inj ht
    exact get_pruneFrom h.latest_order h.length_order fun key => .inl (hagrees key)

/-- The tombstones are those of the latest insertions after every call, if and only if no call
evicts an entry whose key was inserted again at the same time and not since. -/
theorem remembers_along_iff (start : Instant) (calls : List Call)
    (h : Along step InOrder (new start) calls) :
    Along step (fun s call => ∀ t ∈ step s call, t.Remembers) (new start) calls ↔
      Along step KeepsRepeated (new start) calls := by
  have hstep (s : History) (call : Call) (t : History) (hle : s.InOrder call) (hs : Inv s)
      (ht : s.step call = some t) : Inv t := hs.step hle ht
  refine along_good_iff hstep
    (fun s call hle hs hremembers => remembers_step_iff hs hremembers hle) h ?_ ?_
  · exact ⟨.nil, by rintro e ⟨⟩, rfl⟩
  · exact fun key => ⟨by simp [new, containsKey, KeyedList.get], by rintro time ⟨⟩⟩

theorem remembers_along_iff_reinserted :
    Along step (fun s call => ∀ t ∈ step s call, t.Remembers) (new 5)
      [.record (1, 1) 5, .record (1, 2) 5, .record (1, 1) 7, .prune 8] :=
  (remembers_along_iff 5 _ (by decide)).mpr (by decide)

theorem fresh_replicate {count : ℕ} :
    ∀ e ∈ List.replicate count (((1, 1), 0) : LeaseKey × Instant), fresh 0 e = true := by
  intro e he
  obtain rfl := List.eq_of_mem_replicate he
  rfl

theorem run_repeated {count : ℕ} (hcount : count < tombstoneHardLimit) :
    run step (new 0) (List.replicate (count + 1) (.record (1, 1) 0)) =
      some ⟨⟨[((1, 1), 0)], List.replicate (count + 1) ((1, 1), 0)⟩,
        List.replicate (count + 1) ((1, 1), 0), 0⟩ := by
  induction count with
  | zero => rfl
  | succ count ih =>
    have hprune : pruneFrom 0 [((1, 1), 0)] (List.replicate (count + 1 + 1) ((1, 1), 0)) = _ :=
      pruneFrom_of_fresh (by rwa [List.length_replicate]) fresh_replicate
    have hcalls : List.replicate (count + 1 + 1) (Call.record (1, 1) 0) = _ := List.replicate_succ'
    rw [hcalls, run_append_eq_some]
    refine ⟨_, ih (Nat.lt_of_succ_lt hcount), run_singleton.mpr ?_⟩
    refine congrArg (fun tombstones => some (History.mk tombstones _ 0)) (Eq.trans ?_ hprune)
    rw [List.replicate_succ' (n := count + 1)]
    rfl

/-- One key at one time, once more than the queue holds. -/
theorem repeated_forgotten :
    ∃ t, run step (new 0) (List.replicate (tombstoneHardLimit + 1) (.record (1, 1) 0)) = some t ∧
      Along step InOrder (new 0) (List.replicate (tombstoneHardLimit + 1) (.record (1, 1) 0)) ∧
      ¬ t.Remembers := by
  have hinOrder (s : History) (h : s.now = 0) (count : ℕ) :
      Along step InOrder s (List.replicate count (.record (1, 1) 0)) := by
    induction count generalizing s with
    | zero => trivial
    | succ count ih =>
      refine ⟨by rw [InOrder, h]; exact Int.le_refl 0, fun t ht => ih t ?_⟩
      obtain rfl := Option.some.inj ht
      rfl
  obtain ⟨limit, hlimit⟩ : ∃ limit, tombstoneHardLimit = limit + 1 := ⟨199999, rfl⟩
  have hcalls : List.replicate (limit + 1 + 1) (Call.record (1, 1) 0) = _ := List.replicate_succ'
  have hpop : recordReleasedInFlightLeaseTombstone
      ⟨[((1, 1), 0)], List.replicate (limit + 1) ((1, 1), 0)⟩ (1, 1) 0 =
        ⟨[], List.replicate (limit + 1) ((1, 1), 0)⟩ := by
    have hpush : recordReleasedInFlightLeaseTombstone
        ⟨[((1, 1), 0)], List.replicate (limit + 1) ((1, 1), 0)⟩ (1, 1) 0 =
          pruneFrom 0 [((1, 1), 0)] (List.replicate (limit + 1 + 1) ((1, 1), 0)) := by
      rw [List.replicate_succ' (n := limit + 1)]
      rfl
    rw [hpush, List.replicate_succ, pruneFrom,
      if_neg fun hstays => absurd hstays.2 (by rw [List.length_replicate]; omega)]
    exact pruneFrom_of_fresh (by rw [List.length_replicate, hlimit]) fresh_replicate
  rw [hlimit, hcalls]
  refine ⟨_, run_append_eq_some.mpr ⟨_, run_repeated (by omega), run_singleton.mpr rfl⟩,
    hcalls ▸ hinOrder _ rfl _, fun h => ?_⟩
  have hpresent := (h (1, 1)).1.mpr ⟨0, by rw [hlimit]; rfl, Nat.zero_le _⟩
  rw [hpop] at hpresent
  cases hpresent

end History

end KiroProxy.InFlight.Tombstones
