import Mathlib.Data.Finmap
import Mathlib.Data.List.MinMax
import KiroProxy.Matching
import KiroProxy.Sse

/-!
# Stop sequences

The upstream has no stop-sequence parameter, so the proxy looks for the sequences in
its own output: `StopSequenceFilter` in the event stream, chunk by chunk, and
`truncateContentAtStopSequence` in a complete content. Only text blocks take part.
-/

namespace KiroProxy

open Matching

def stopSequenceStopReason : List Char := "stop_sequence".toList

/-- `Iterator::min_by`: the first of the minimal elements. -/
def minBy {β : Type*} (compare : β → β → Ordering) : List β → Option β
  | [] => none
  | x :: xs => some (xs.foldl (fun m y => if compare m y = .gt then y else m) x)

theorem foldl_minBy_spec {β : Type*} {compare : β → β → Ordering} {R : β → β → Prop}
    (hle : ∀ a b, compare a b ≠ .gt → R a b) (hgt : ∀ a b, compare a b = .gt → R b a)
    (hrefl : ∀ a, R a a) (htrans : ∀ a b c, R a b → R b c → R a c) (xs : List β) (x : β) :
    let m := xs.foldl (fun m y => if compare m y = .gt then y else m) x
    m ∈ x :: xs ∧ R m x ∧ ∀ y ∈ xs, R m y := by
  induction xs generalizing x with
  | nil => exact ⟨List.mem_singleton_self x, hrefl x, by simp⟩
  | cons y xs ih =>
    by_cases hcmp : compare x y = .gt
    · obtain ⟨hmem, hy, hxs⟩ := ih y
      simp only [List.foldl_cons, if_pos hcmp]
      refine ⟨List.mem_cons_of_mem x hmem, htrans _ _ _ hy (hgt x y hcmp), ?_⟩
      exact List.forall_mem_cons.mpr ⟨hy, hxs⟩
    · obtain ⟨hmem, hx, hxs⟩ := ih x
      simp only [List.foldl_cons, if_neg hcmp]
      refine ⟨?_, hx, List.forall_mem_cons.mpr ⟨htrans _ _ _ hx (hle x y hcmp), hxs⟩⟩
      rcases List.mem_cons.mp hmem with h | h
      · rw [h]
        exact List.mem_cons_self
      · exact List.mem_cons_of_mem x (List.mem_cons_of_mem y h)

/-- Positions and lengths count characters. At equal positions both sequences are
prefixes of one text, so the order of their lengths is that of the byte lengths. -/
def compareMatch (a b : ℕ × List Char) : Ordering :=
  (compare a.1 b.1).then (compare b.2.length a.2.length)

def earliestMatch (text : List Char) (sequences : List (List Char)) : Option (ℕ × List Char) :=
  minBy compareMatch
    (sequences.filterMap fun sequence => (find sequence text).map fun pos => (pos, sequence))

def heldSuffixLen (text : List Char) (sequences : List (List Char)) : ℕ :=
  (sequences.filterMap fun sequence =>
    (List.range' 1 (sequence.length - 1)).reverse.find? fun len =>
      sequence.take len <:+ text).max?.getD 0

section Search

variable {text : List Char} {sequences : List (List Char)}

theorem compareMatch_ne_gt {a b : ℕ × List Char} :
    compareMatch a b ≠ .gt ↔ a.1 < b.1 ∨ a.1 = b.1 ∧ b.2.length ≤ a.2.length := by
  unfold compareMatch
  rcases Nat.lt_trichotomy a.1 b.1 with h | h | h
  · simp [Nat.compare_eq_lt.mpr h, h]
  · simp only [h, Nat.compare_eq_eq.mpr rfl, Ordering.then, lt_irrefl, false_or, true_and]
    exact Nat.compare_ne_gt
  · simp [Nat.compare_eq_gt.mpr h]
    omega

theorem earliestMatch_eq_none_iff :
    earliestMatch text sequences = none ↔ Free sequences text := by
  have hnone : earliestMatch text sequences = none ↔
      sequences.filterMap (fun s => (find s text).map fun pos => (pos, s)) = [] := by
    unfold earliestMatch
    cases sequences.filterMap (fun s => (find s text).map fun pos => (pos, s)) <;> simp [minBy]
  rw [hnone, List.filterMap_eq_nil_iff]
  simp only [Option.map_eq_none_iff, find_eq_none_iff, Free]

theorem earliest_of_earliestMatch {p : ℕ} {s : List Char}
    (h : earliestMatch text sequences = some (p, s)) : Earliest sequences text p s := by
  unfold earliestMatch at h
  cases hfound : sequences.filterMap (fun s => (find s text).map fun pos => (pos, s)) with
  | nil =>
    rw [hfound] at h
    cases h
  | cons x xs =>
    rw [hfound, minBy, Option.some.injEq] at h
    let R : ℕ × List Char → ℕ × List Char → Prop := fun a b =>
      a.1 < b.1 ∨ a.1 = b.1 ∧ b.2.length ≤ a.2.length
    have hgt : ∀ a b, compareMatch a b = .gt → R b a := by
      intro a b hgt
      have hnot := mt compareMatch_ne_gt.mpr (not_not.mpr hgt)
      simp only [R]
      omega
    have htrans : ∀ a b c, R a b → R b c → R a c := by
      intro a b c hab hbc
      simp only [R] at *
      omega
    obtain ⟨hmem, hx, hxs⟩ := foldl_minBy_spec (fun a b => compareMatch_ne_gt.mp) hgt
      (fun a => .inr ⟨rfl, le_rfl⟩) htrans xs x
    rw [h, ← hfound] at hmem
    rw [h] at hx hxs
    have hall : ∀ y ∈ x :: xs, p < y.1 ∨ p = y.1 ∧ y.2.length ≤ s.length :=
      List.forall_mem_cons.mpr ⟨hx, hxs⟩
    obtain ⟨s', hs', hpair⟩ := List.mem_filterMap.mp hmem
    obtain ⟨p', hp', heq⟩ := Option.map_eq_some_iff.mp hpair
    cases heq
    refine ⟨hs', (find_eq_some_iff.mp hp').1, fun t ht q hq => ?_⟩
    cases hfind : find t text with
    | none => exact absurd hq (find_eq_none_iff.mp hfind q)
    | some q' =>
      have hle : q' ≤ q := by
        by_contra hlt
        exact (find_eq_some_iff.mp hfind).2 q (by omega) hq
      have hmem' : (q', t) ∈ x :: xs := by
        rw [← hfound]
        exact List.mem_filterMap.mpr ⟨t, ht, by rw [hfind]; rfl⟩
      have := hall _ hmem'
      simp only at this
      omega

theorem earliestMatch_eq_some_iff {p : ℕ} {s : List Char} :
    earliestMatch text sequences = some (p, s) ↔ Earliest sequences text p s := by
  refine ⟨earliest_of_earliestMatch, fun h => ?_⟩
  cases hmatch : earliestMatch text sequences with
  | none => exact absurd h.occurs (earliestMatch_eq_none_iff.mp hmatch s h.mem p)
  | some m =>
    obtain ⟨rfl, rfl⟩ := (earliest_of_earliestMatch hmatch).unique h
    rfl

theorem earliestMatch_append {held : ℕ} (hholds : HoldsBack sequences text held)
    (hfree : Free sequences text) (chunk : List Char) :
    earliestMatch (text ++ chunk) sequences =
      (earliestMatch (text.drop (text.length - held) ++ chunk) sequences).map
        fun (pos, s) => (text.length - held + pos, s) := by
  cases hshort : earliestMatch (text.drop (text.length - held) ++ chunk) sequences with
  | some m =>
    have hearliest := earliestMatch_eq_some_iff.mp hshort
    exact earliestMatch_eq_some_iff.mpr ((hholds.earliest_append_iff hfree).mpr hearliest)
  | none =>
    rw [Option.map_none]
    cases hlong : earliestMatch (text ++ chunk) sequences with
    | none => rfl
    | some m =>
      have hearliest := earliestMatch_eq_some_iff.mp hlong
      have hge := hholds.le_of_occursAt_append hearliest.mem (hfree _ hearliest.mem)
        hearliest.occurs
      obtain ⟨p, hp⟩ := Nat.exists_eq_add_of_le hge
      rw [hp, hholds.earliest_append_iff hfree] at hearliest
      rw [earliestMatch_eq_some_iff.mpr hearliest] at hshort
      cases hshort

theorem le_of_find?_reverse_range' {P : ℕ → Bool} {start count m n : ℕ}
    (h : (List.range' start count).reverse.find? P = some m) (hn : n ∈ List.range' start count)
    (hP : P n = true) : n ≤ m := by
  obtain ⟨-, before, after, hsplit, hbefore⟩ := List.find?_eq_some_iff_append.mp h
  have hpair : (before ++ m :: after).Pairwise (fun a b => b < a) := by
    rw [← hsplit, List.pairwise_reverse]
    exact List.pairwise_lt_range'
  have hmem : n ∈ before ++ m :: after := by
    rw [← hsplit, List.mem_reverse]
    exact hn
  rcases List.mem_append.mp hmem with hb | ha
  · have := hbefore n hb
    simp [hP] at this
  · rcases List.mem_cons.mp ha with rfl | ha'
    · exact le_rfl
    · exact ((List.pairwise_cons.mp (List.pairwise_append.mp hpair).2.1).1 n ha').le

theorem holdsBack_heldSuffixLen (text : List Char) (sequences : List (List Char)) :
    HoldsBack sequences text (heldSuffixLen text sequences) := by
  unfold heldSuffixLen
  set lens := sequences.filterMap fun sequence =>
    (List.range' 1 (sequence.length - 1)).reverse.find? fun len => sequence.take len <:+ text
    with hlens
  constructor
  · cases hmax : lens.max? with
    | none => exact Nat.zero_le _
    | some m =>
      obtain ⟨s, -, hs⟩ := List.mem_filterMap.mp (List.max?_mem hmax)
      have hm := List.mem_of_find?_eq_some hs
      rw [List.mem_reverse, List.mem_range'_1] at hm
      have hsuffix : s.take m <:+ text := by simpa using List.find?_some hs
      have hle := hsuffix.length_le
      rw [List.length_take] at hle
      simp only [Option.getD_some]
      omega
  · intro s hs n hn hsuffix
    by_cases hzero : n = 0
    · omega
    have hmem : n ∈ List.range' 1 (s.length - 1) := by
      rw [List.mem_range'_1]
      omega
    cases hfind : (List.range' 1 (s.length - 1)).reverse.find? fun len => s.take len <:+ text with
    | none =>
      have := List.find?_eq_none.mp hfind n (List.mem_reverse.mpr hmem)
      exact absurd hsuffix (by simpa using this)
    | some m =>
      have hle := le_of_find?_reverse_range' hfind hmem (decide_eq_true hsuffix)
      have hm : m ∈ lens := List.mem_filterMap.mpr ⟨s, hs, hfind⟩
      exact hle.trans (List.le_max?_getD_of_mem hm)

end Search

structure StopSequenceFilter where
  sequences : List (List Char)
  forwardedBlocks : Finset ℕ
  textBlocks : Finset ℕ
  /-- Text that may begin a stop sequence and is not sent yet. -/
  pending : Finmap fun _ : ℕ => List Char
  matched : Option (List Char)

namespace StopSequenceFilter

def new (sequences : List (List Char)) : Option StopSequenceFilter :=
  if sequences = [] then none else some ⟨sequences, ∅, ∅, ∅, none⟩

def textEvents (index : ℕ) (visible : List Char) : List SseEvent :=
  if visible = [] then [] else [.contentBlockDelta index (.textDelta visible)]

def applyText (f : StopSequenceFilter) (index : ℕ) (text : List Char) :
    StopSequenceFilter × List SseEvent :=
  let combined := (f.pending.lookup index).getD [] ++ text
  let pending := f.pending.erase index
  if combined = [] then
    ({ f with pending }, [.contentBlockDelta index (.textDelta text)])
  else
    match earliestMatch combined f.sequences with
    | some (pos, sequence) =>
      ({ f with matched := some sequence, pending := ∅ }, textEvents index (combined.take pos))
    | none =>
      let held := heldSuffixLen combined f.sequences
      let split := combined.length - held
      ({ f with pending := if held > 0 then pending.insert index (combined.drop split) else pending },
        textEvents index (combined.take split))

def applyOne (f : StopSequenceFilter) : SseEvent → StopSequenceFilter × List SseEvent
  | .contentBlockStart index block =>
    if f.matched.isSome then (f, [])
    else
      ({ f with
          forwardedBlocks := insert index f.forwardedBlocks
          textBlocks := if block.type = .text then insert index f.textBlocks else f.textBlocks },
        [.contentBlockStart index block])
  | .contentBlockDelta index delta =>
    if f.matched.isSome then (f, [])
    else if index ∉ f.textBlocks then (f, [.contentBlockDelta index delta])
    else
      match delta.text? with
      | none => (f, [.contentBlockDelta index delta])
      | some text => f.applyText index text
  | .contentBlockStop index =>
    if index ∉ f.forwardedBlocks then (f, [])
    else
      ({ f with pending := f.pending.erase index },
        textEvents index ((f.pending.lookup index).getD []) ++ [.contentBlockStop index])
  | .messageDelta stopReason stopSequence =>
    match f.matched with
    | some sequence => (f, [.messageDelta stopSequenceStopReason (some sequence)])
    | none => (f, [.messageDelta stopReason stopSequence])
  | event => (f, [event])

def apply (f : StopSequenceFilter) : List SseEvent → StopSequenceFilter × List SseEvent
  | [] => (f, [])
  | event :: events =>
    let (f', output) := f.applyOne event
    let (f'', outputs) := f'.apply events
    (f'', output ++ outputs)

theorem apply_append (f : StopSequenceFilter) (events events' : List SseEvent) :
    f.apply (events ++ events') =
      (((f.apply events).1.apply events').1,
        (f.apply events).2 ++ ((f.apply events).1.apply events').2) := by
  induction events generalizing f with
  | nil => rfl
  | cons event events ih => simp only [List.cons_append, apply, ih, List.append_assoc]

/-- The filter in the middle of a text block: `acc` has arrived, `sent` has been let
through, the rest is pending and nothing has matched. -/
structure Growing (f : StopSequenceFilter) (index : ℕ) (acc sent : List Char) : Prop where
  notMatched : f.matched = none
  isText : index ∈ f.textBlocks
  split : sent ++ (f.pending.lookup index).getD [] = acc
  holds : HoldsBack f.sequences acc ((f.pending.lookup index).getD []).length
  free : Free f.sequences acc

/-- What a text delta of block `index` leaves alone. -/
structure Frame (f f' : StopSequenceFilter) (index : ℕ) (output : List SseEvent) : Prop where
  sequences : f'.sequences = f.sequences
  forwardedBlocks : f'.forwardedBlocks = f.forwardedBlocks
  textBlocks : f'.textBlocks = f.textBlocks
  pending : ∀ j, j ≠ index → f.pending.lookup j = none → f'.pending.lookup j = none
  output : ∀ j, j ≠ index → visibleText j output = []

variable {f : StopSequenceFilter} {index : ℕ} {acc sent : List Char}

theorem Frame.trans {f f' f'' : StopSequenceFilter} {output output' : List SseEvent}
    (h : Frame f f' index output) (h' : Frame f' f'' index output') :
    Frame f f'' index (output ++ output') where
  sequences := h'.sequences.trans h.sequences
  forwardedBlocks := h'.forwardedBlocks.trans h.forwardedBlocks
  textBlocks := h'.textBlocks.trans h.textBlocks
  pending j hj hnone := h'.pending j hj (h.pending j hj hnone)
  output j hj := by rw [visibleText_append, h.output j hj, h'.output j hj]; rfl

theorem visibleText_textEvents (index : ℕ) (visible : List Char) :
    visibleText index (textEvents index visible) = visible := by
  by_cases h : visible = [] <;> simp [textEvents, h, SseEvent.textFor]

theorem visibleText_textEvents_of_ne {index j : ℕ} (h : j ≠ index) (visible : List Char) :
    visibleText j (textEvents index visible) = [] := by
  by_cases hv : visible = [] <;> simp [textEvents, hv, SseEvent.textFor, h.symm]

theorem frame_applyText (f : StopSequenceFilter) (index : ℕ) (text : List Char) :
    Frame f (f.applyText index text).1 index (f.applyText index text).2 := by
  by_cases hempty : (f.pending.lookup index).getD [] ++ text = []
  · simp only [applyText, if_pos hempty]
    exact ⟨rfl, rfl, rfl, fun j hj hnone => by rwa [Finmap.lookup_erase_ne hj],
      fun j hj => by simp [SseEvent.textFor, hj.symm]⟩
  · cases hmatch : earliestMatch ((f.pending.lookup index).getD [] ++ text) f.sequences with
    | some m =>
      simp only [applyText, if_neg hempty, hmatch]
      exact ⟨rfl, rfl, rfl, fun j _ _ => Finmap.lookup_empty j,
        fun j hj => visibleText_textEvents_of_ne hj _⟩
    | none =>
      simp only [applyText, if_neg hempty, hmatch]
      refine ⟨rfl, rfl, rfl, fun j hj hnone => ?_, fun j hj => visibleText_textEvents_of_ne hj _⟩
      by_cases hheld : heldSuffixLen ((f.pending.lookup index).getD [] ++ text) f.sequences > 0
      · simp only [if_pos hheld]
        rwa [Finmap.lookup_insert_of_ne _ hj, Finmap.lookup_erase_ne hj]
      · simp only [if_neg hheld]
        rwa [Finmap.lookup_erase_ne hj]

theorem Growing.drop_pending (h : Growing f index acc sent) :
    acc.drop (acc.length - ((f.pending.lookup index).getD []).length) =
        (f.pending.lookup index).getD [] ∧
      acc.length - ((f.pending.lookup index).getD []).length = sent.length := by
  have hlen : acc.length - ((f.pending.lookup index).getD []).length = sent.length := by
    rw [← h.split, List.length_append, Nat.add_sub_cancel]
  refine ⟨?_, hlen⟩
  rw [hlen]
  nth_rewrite 1 [← h.split]
  exact List.drop_left

/-- A chunk either completes the earliest stop sequence of all the text so far or
leaves the block growing. -/
theorem Growing.applyText (h : Growing f index acc sent) (chunk : List Char) :
    match earliestMatch (acc ++ chunk) f.sequences with
    | some (p, s) => (f.applyText index chunk).1.matched = some s ∧
        (f.applyText index chunk).1.pending = ∅ ∧
        sent ++ visibleText index (f.applyText index chunk).2 = (acc ++ chunk).take p
    | none => Growing (f.applyText index chunk).1 index (acc ++ chunk)
        (sent ++ visibleText index (f.applyText index chunk).2) := by
  obtain ⟨hdrop, hsent⟩ := h.drop_pending
  have hsearch := earliestMatch_append h.holds h.free chunk
  rw [hdrop, hsent] at hsearch
  have hsplit : acc ++ chunk = sent ++ ((f.pending.lookup index).getD [] ++ chunk) := by
    rw [← List.append_assoc, h.split]
  by_cases hempty : (f.pending.lookup index).getD [] ++ chunk = []
  · have hchunk : chunk = [] := (List.append_eq_nil_iff.mp hempty).2
    have hnone : earliestMatch (acc ++ chunk) f.sequences = none := by
      rw [hchunk, List.append_nil]
      exact earliestMatch_eq_none_iff.mpr h.free
    rw [hnone]
    simp only [StopSequenceFilter.applyText, if_pos hempty]
    have hpending : (f.pending.lookup index).getD [] = [] := (List.append_eq_nil_iff.mp hempty).1
    refine ⟨h.notMatched, h.isText, ?_, ?_, ?_⟩
    · have hacc : sent = acc := by rw [← h.split, hpending, List.append_nil]
      simp [hacc, hchunk, SseEvent.textFor]
    · have hholds := h.holds
      rw [hpending] at hholds
      simpa [hchunk] using hholds
    · simpa [hchunk] using h.free
  · cases hshort : earliestMatch ((f.pending.lookup index).getD [] ++ chunk) f.sequences with
    | some m =>
      obtain ⟨p, s⟩ := m
      rw [hsearch, hshort]
      simp only [StopSequenceFilter.applyText, if_neg hempty, hshort, Option.map_some,
        visibleText_textEvents, true_and]
      rw [hsplit, List.take_length_add_append]
    | none =>
      rw [hsearch, hshort]
      simp only [Option.map_none, StopSequenceFilter.applyText, if_neg hempty, hshort]
      have hholds := holdsBack_heldSuffixLen ((f.pending.lookup index).getD [] ++ chunk) f.sequences
      set combined := (f.pending.lookup index).getD [] ++ chunk with hcombined
      set held := heldSuffixLen combined f.sequences with hheld
      have hpending : ((if held > 0 then (f.pending.erase index).insert index
          (combined.drop (combined.length - held)) else f.pending.erase index).lookup index).getD []
          = combined.drop (combined.length - held) := by
        by_cases hpos : held > 0
        · rw [if_pos hpos, Finmap.lookup_insert, Option.getD_some]
        · rw [if_neg hpos, Finmap.lookup_erase, Option.getD_none,
            List.drop_of_length_le (by omega)]
      have hlen : (combined.drop (combined.length - held)).length = held := by
        rw [List.length_drop]
        have := hholds.1
        omega
      refine ⟨h.notMatched, h.isText, ?_, ?_, ?_⟩
      · rw [hpending, visibleText_textEvents, List.append_assoc, List.take_append_drop, ← hsplit]
      · rw [hpending, hlen]
        refine h.holds.append ?_
        rw [hdrop]
        exact hholds
      · rw [hshort, Option.map_none] at hsearch
        exact earliestMatch_eq_none_iff.mp hsearch

def firstMatch (sequences : List (List Char)) (acc : List Char) :
    List (List Char) → Option (ℕ × List Char)
  | [] => none
  | chunk :: chunks =>
    match earliestMatch (acc ++ chunk) sequences with
    | some m => some m
    | none => firstMatch sequences (acc ++ chunk) chunks

def textDeltas (index : ℕ) (chunks : List (List Char)) : List SseEvent :=
  chunks.map fun chunk => .contentBlockDelta index (.textDelta chunk)

theorem apply_deltas_of_matched (h : f.matched.isSome) (index : ℕ) (deltas : List Delta) :
    f.apply (deltas.map (.contentBlockDelta index)) = (f, []) := by
  induction deltas with
  | nil => rfl
  | cons delta deltas ih => simp only [List.map_cons, apply, applyOne, if_pos h, ih, List.append_nil]

theorem applyOne_textDelta (hmatched : f.matched = none) (htext : index ∈ f.textBlocks)
    (chunk : List Char) :
    f.applyOne (.contentBlockDelta index (.textDelta chunk)) = f.applyText index chunk := by
  simp [applyOne, hmatched, htext, Delta.text?]

theorem Growing.apply_textDeltas (h : Growing f index acc sent) (hseqs : ∀ s ∈ f.sequences, s ≠ [])
    (chunks : List (List Char)) :
    Frame f (f.apply (textDeltas index chunks)).1 index (f.apply (textDeltas index chunks)).2 ∧
    match firstMatch f.sequences acc chunks with
    | some (p, s) => (f.apply (textDeltas index chunks)).1.matched = some s ∧
        (f.apply (textDeltas index chunks)).1.pending = ∅ ∧
        sent ++ visibleText index (f.apply (textDeltas index chunks)).2 =
          (acc ++ chunks.flatten).take p
    | none => Growing (f.apply (textDeltas index chunks)).1 index (acc ++ chunks.flatten)
        (sent ++ visibleText index (f.apply (textDeltas index chunks)).2) := by
  induction chunks generalizing f acc sent with
  | nil =>
    refine ⟨⟨rfl, rfl, rfl, fun j _ hnone => hnone, fun j _ => rfl⟩, ?_⟩
    simpa [firstMatch, textDeltas, apply] using h
  | cons chunk chunks ih =>
    have hframe := frame_applyText f index chunk
    have hstep := h.applyText chunk
    have happly : f.apply (textDeltas index (chunk :: chunks)) =
        (((f.applyText index chunk).1.apply (textDeltas index chunks)).1,
          (f.applyText index chunk).2 ++
            ((f.applyText index chunk).1.apply (textDeltas index chunks)).2) := by
      simp only [textDeltas, List.map_cons, apply, applyOne_textDelta h.notMatched h.isText]
    cases hmatch : earliestMatch (acc ++ chunk) f.sequences with
    | some m =>
      obtain ⟨p, s⟩ := m
      rw [hmatch] at hstep
      obtain ⟨hmatched, hpending, hvisible⟩ := hstep
      have hrest : (f.applyText index chunk).1.apply (textDeltas index chunks) =
          ((f.applyText index chunk).1, []) := by
        have := apply_deltas_of_matched (f := (f.applyText index chunk).1)
          (by rw [hmatched]; rfl) index (chunks.map .textDelta)
        rwa [List.map_map] at this
      rw [hrest, List.append_nil] at happly
      simp only [happly, firstMatch, hmatch]
      refine ⟨hframe, hmatched, hpending, ?_⟩
      have hearliest := earliestMatch_eq_some_iff.mp hmatch
      have hle := hearliest.occurs.add_length_le (hseqs s hearliest.mem)
      have hp : p ≤ (acc ++ chunk).length := by omega
      rw [hvisible, List.flatten_cons, ← List.append_assoc, List.take_append_of_le_length hp]
    | none =>
      rw [hmatch] at hstep
      have hseqs' : ∀ s ∈ (f.applyText index chunk).1.sequences, s ≠ [] := by
        rwa [hframe.sequences]
      obtain ⟨hframe', hrest⟩ := ih hstep hseqs'
      rw [hframe.sequences] at hrest
      simp only [happly, firstMatch, hmatch, visibleText_append, List.flatten_cons,
        ← List.append_assoc]
      exact ⟨hframe.trans hframe', hrest⟩

theorem firstMatch_eq_none {sequences : List (List Char)} {chunks : List (List Char)}
    (hacc : Free sequences acc) (h : firstMatch sequences acc chunks = none) :
    Free sequences (acc ++ chunks.flatten) := by
  induction chunks generalizing acc with
  | nil => simpa using hacc
  | cons chunk chunks ih =>
    cases hmatch : earliestMatch (acc ++ chunk) sequences with
    | some m => simp [firstMatch, hmatch] at h
    | none =>
      simp only [firstMatch, hmatch] at h
      rw [List.flatten_cons, ← List.append_assoc]
      exact ih (earliestMatch_eq_none_iff.mp hmatch) h

theorem firstMatch_eq_some {sequences : List (List Char)} {chunks : List (List Char)} {p : ℕ}
    {s : List Char} (hacc : Free sequences acc) (h : firstMatch sequences acc chunks = some (p, s)) :
    ∃ k, Earliest sequences (acc ++ (chunks.take k).flatten) p s ∧
      ∀ k' < k, Free sequences (acc ++ (chunks.take k').flatten) := by
  induction chunks generalizing acc with
  | nil => cases h
  | cons chunk chunks ih =>
    cases hmatch : earliestMatch (acc ++ chunk) sequences with
    | some m =>
      simp only [firstMatch, hmatch, Option.some.injEq] at h
      subst h
      refine ⟨1, by simpa using earliestMatch_eq_some_iff.mp hmatch, fun k' hk' => ?_⟩
      rw [Nat.lt_one_iff.mp hk']
      simpa using hacc
    | none =>
      simp only [firstMatch, hmatch] at h
      obtain ⟨k, hk, hbefore⟩ := ih (earliestMatch_eq_none_iff.mp hmatch) h
      refine ⟨k + 1, by simpa using hk, fun k' hk' => ?_⟩
      cases k' with
      | zero => simpa using hacc
      | succ k' => simpa using hbefore k' (by omega)

end StopSequenceFilter

/-- Non-streaming: cuts the first text block that contains a stop sequence and drops
every later block. -/
def truncateContentAtStopSequence (content : List ContentBlock) (sequences : List (List Char)) :
    List ContentBlock × Option (List Char) :=
  if sequences = [] then (content, none)
  else
    let found := content.zipIdx.findSome? fun (block, idx) =>
      match block with
      | .text text => (earliestMatch text sequences).map fun (pos, sequence) => (idx, pos, sequence)
      | _ => none
    match found with
    | none => (content, none)
    | some (blockIndex, pos, sequence) =>
      let text := match content[blockIndex]? with
        | some (.text text) => text.take pos
        | _ => []
      let content := content.take (blockIndex + 1)
      if text = [] then (content.dropLast, some sequence)
      else (content.set blockIndex (.text text), some sequence)

theorem findSome?_zipIdx_append {β γ : Type*} {g : β × ℕ → Option γ} {before after : List β} {b : β}
    {n : ℕ} (hbefore : ∀ x ∈ before, ∀ i, g (x, i) = none) :
    ((before ++ b :: after).zipIdx n).findSome? g =
      (g (b, n + before.length)).or ((after.zipIdx (n + before.length + 1)).findSome? g) := by
  induction before generalizing n with
  | nil =>
    simp only [List.nil_append, List.zipIdx_cons, List.findSome?_cons, List.length_nil, Nat.add_zero]
    cases g (b, n) <;> rfl
  | cons x before ih =>
    rw [List.cons_append, List.zipIdx_cons, List.findSome?_cons,
      hbefore x List.mem_cons_self n, ih fun y hy => hbefore y (List.mem_cons_of_mem x hy)]
    rw [List.length_cons, Nat.add_assoc n 1, Nat.add_comm 1]

def ContentBlock.FreeOf (sequences : List (List Char)) : ContentBlock → Prop
  | .text t => Free sequences t
  | _ => True

variable {sequences : List (List Char)} {s : List Char} {p : ℕ} {chunks : List (List Char)}

theorem truncateContent_of_free {content : List ContentBlock}
    (hfree : ∀ block ∈ content, block.FreeOf sequences) :
    truncateContentAtStopSequence content sequences = (content, none) := by
  unfold truncateContentAtStopSequence
  by_cases hseqs : sequences = []
  · rw [if_pos hseqs]
  · rw [if_neg hseqs, List.findSome?_eq_none_iff.mpr]
    rintro ⟨block, idx⟩ hmem
    have hblock := hfree block (List.fst_mem_of_mem_zipIdx hmem)
    cases block with
    | text text => simp only [earliestMatch_eq_none_iff.mpr hblock, Option.map_none]
    | _ => rfl

theorem truncateContent_of_earliest {before : List ContentBlock} {text s : List Char}
    (hfree : ∀ block ∈ before, block.FreeOf sequences) (hmatch : Earliest sequences text p s)
    (after : List ContentBlock) :
    truncateContentAtStopSequence (before ++ .text text :: after) sequences =
      (before ++ (if text.take p = [] then [] else [.text (text.take p)]), some s) := by
  have hseqs : sequences ≠ [] := List.ne_nil_of_mem hmatch.mem
  unfold truncateContentAtStopSequence
  rw [if_neg hseqs, findSome?_zipIdx_append]
  · have htake : (before ++ ContentBlock.text text :: after).take (before.length + 1) =
        before ++ [.text text] := by
      rw [List.take_length_add_append]
      rfl
    simp only [earliestMatch_eq_some_iff.mpr hmatch, Option.map_some, Option.some_or, Nat.zero_add,
      List.getElem?_append_right le_rfl, Nat.sub_self, List.getElem?_cons_zero, htake]
    by_cases hempty : text.take p = []
    · simp only [if_pos hempty, List.dropLast_concat, List.append_nil]
    · simp only [if_neg hempty, List.set_append_right _ _ le_rfl, Nat.sub_self, List.set_cons_zero]
  · intro block hmem idx
    have hblock := hfree block hmem
    cases block with
    | text text => simp only [earliestMatch_eq_none_iff.mpr hblock, Option.map_none]
    | _ => rfl

inductive StreamedBlock
  | text (chunks : List (List Char))
  | other (block : ContentBlock) (deltas : List Delta) (notText : block.type ≠ .text)
      (noText : ∀ delta ∈ deltas, delta.text? = none)

namespace StreamedBlock

def content : StreamedBlock → ContentBlock
  | .text chunks => .text chunks.flatten
  | .other block .. => block

def startBlock : StreamedBlock → ContentBlock
  | .text _ => .text []
  | .other block .. => block

def deltas : StreamedBlock → List Delta
  | .text chunks => chunks.map .textDelta
  | .other _ deltas .. => deltas

def events (index : ℕ) (block : StreamedBlock) : List SseEvent :=
  .contentBlockStart index block.startBlock ::
    (block.deltas.map (.contentBlockDelta index) ++ [.contentBlockStop index])

end StreamedBlock

/-- The blocks one after another, each as start, deltas and stop. -/
def streamEvents (index : ℕ) : List StreamedBlock → List SseEvent
  | [] => []
  | block :: blocks => block.events index ++ streamEvents (index + 1) blocks

theorem streamEvents_append (index : ℕ) (blocks blocks' : List StreamedBlock) :
    streamEvents index (blocks ++ blocks') =
      streamEvents index blocks ++ streamEvents (index + blocks.length) blocks' := by
  induction blocks generalizing index with
  | nil => rfl
  | cons block blocks ih =>
    rw [List.cons_append, streamEvents, ih, streamEvents, List.append_assoc, List.length_cons,
      Nat.add_assoc, Nat.add_comm 1]

def keptText (content : List ContentBlock) (index : ℕ) : List Char :=
  match content[index]? with
  | some (.text text) => text
  | _ => []

namespace StopSequenceFilter

/-- Before block `n`, without a match so far. -/
structure Between (f : StopSequenceFilter) (n : ℕ) : Prop where
  notMatched : f.matched = none
  forwarded : ∀ j ∈ f.forwardedBlocks, j < n
  pending : ∀ j, n ≤ j → f.pending.lookup j = none

/-- Before block `n`, after the match of `s`. -/
structure MatchedBefore (f : StopSequenceFilter) (n : ℕ) (s : List Char) : Prop where
  matched : f.matched = some s
  forwarded : ∀ j ∈ f.forwardedBlocks, j < n

variable {f : StopSequenceFilter} {n : ℕ}

theorem apply_of_matchedBefore {s : List Char} (h : MatchedBefore f n s)
    (blocks : List StreamedBlock) : f.apply (streamEvents n blocks) = (f, []) := by
  induction blocks generalizing n with
  | nil => rfl
  | cons block blocks ih =>
    have hsome : f.matched.isSome := by rw [h.matched]; rfl
    have hnot : n ∉ f.forwardedBlocks := fun hmem => Nat.lt_irrefl n (h.forwarded n hmem)
    have hnext : MatchedBefore f (n + 1) s :=
      ⟨h.matched, fun j hj => Nat.lt_succ_of_lt (h.forwarded j hj)⟩
    have hblock : f.apply (block.events n) = (f, []) := by
      simp only [StreamedBlock.events, apply, applyOne, if_pos hsome, apply_append,
        apply_deltas_of_matched hsome, if_pos hnot, List.append_nil]
    rw [streamEvents, apply_append, hblock, ih hnext, List.append_nil]

theorem apply_otherDeltas (hmatched : f.matched = none) (deltas : List Delta)
    (hdeltas : ∀ delta ∈ deltas, delta.text? = none) :
    f.apply (deltas.map (.contentBlockDelta n)) = (f, deltas.map (.contentBlockDelta n)) := by
  induction deltas with
  | nil => rfl
  | cons delta deltas ih =>
    have hdelta : f.applyOne (.contentBlockDelta n delta) = (f, [.contentBlockDelta n delta]) := by
      by_cases hmem : n ∈ f.textBlocks <;>
        simp [applyOne, hmatched, hmem, hdeltas delta List.mem_cons_self]
    have hrest := ih fun d hd => hdeltas d (List.mem_cons_of_mem delta hd)
    simp only [List.map_cons, apply, hdelta, hrest, List.singleton_append]

theorem visibleText_otherDeltas {n j : ℕ} {deltas : List Delta}
    (hdeltas : ∀ delta ∈ deltas, delta.text? = none) :
    visibleText j (deltas.map (.contentBlockDelta n)) = [] := by
  unfold visibleText
  rw [List.flatMap_eq_nil_iff]
  intro event hevent
  obtain ⟨delta, hmem, rfl⟩ := List.mem_map.mp hevent
  have := hdeltas delta hmem
  cases delta with
  | textDelta text => cases this
  | _ => rfl

theorem apply_otherBlock (h : Between f n) {block : ContentBlock} {deltas : List Delta}
    (notText : block.type ≠ .text) (noText : ∀ delta ∈ deltas, delta.text? = none) :
    let r := f.apply ((StreamedBlock.other block deltas notText noText).events n)
    r.1.sequences = f.sequences ∧ Between r.1 (n + 1) ∧ ∀ j, visibleText j r.2 = [] := by
  have hpending := h.pending n le_rfl
  simp only [StreamedBlock.events, StreamedBlock.startBlock, StreamedBlock.deltas, apply, applyOne,
    h.notMatched, Option.isSome_none, Bool.false_eq_true, if_false, apply_append]
  rw [apply_otherDeltas rfl deltas noText]
  simp only [Finset.mem_insert, true_or, not_true, if_false, hpending, Option.getD_none, textEvents,
    if_true, List.nil_append, List.append_nil, visibleText_append, visibleText_cons,
    visibleText_otherDeltas noText, visibleText_nil, SseEvent.textFor, implies_true, and_true,
    true_and]
  refine ⟨rfl, fun j hj => ?_, fun j hj => ?_⟩
  · rcases Finset.mem_insert.mp hj with rfl | hj
    · exact Nat.lt_succ_self _
    · exact Nat.lt_succ_of_lt (h.forwarded j hj)
  · rw [Finmap.lookup_erase_ne (by omega)]
    exact h.pending j (by omega)

theorem apply_textBlock (h : Between f n) (hseqs : ∀ s ∈ f.sequences, s ≠ [])
    (chunks : List (List Char)) :
    let r := f.apply ((StreamedBlock.text chunks).events n)
    r.1.sequences = f.sequences ∧ (∀ j, j ≠ n → visibleText j r.2 = []) ∧
    match firstMatch f.sequences [] chunks with
    | some (p, s) => MatchedBefore r.1 (n + 1) s ∧ visibleText n r.2 = chunks.flatten.take p
    | none => Between r.1 (n + 1) ∧ visibleText n r.2 = chunks.flatten := by
  set f₁ : StopSequenceFilter := { f with
    forwardedBlocks := insert n f.forwardedBlocks
    textBlocks := insert n f.textBlocks } with hf₁
  have hpending : f₁.pending.lookup n = none := h.pending n le_rfl
  have hgrowing : Growing f₁ n [] [] := by
    refine ⟨h.notMatched, Finset.mem_insert_self n _, ?_, ?_, free_nil hseqs⟩
    · rw [hpending]
      rfl
    · rw [hpending]
      exact holdsBack_nil _
  obtain ⟨hframe, hresult⟩ := hgrowing.apply_textDeltas hseqs chunks
  set f₂ := (f₁.apply (textDeltas n chunks)).1 with hf₂
  set output := (f₁.apply (textDeltas n chunks)).2 with houtput
  have hmem : n ∈ f₂.forwardedBlocks := by
    rw [hframe.forwardedBlocks]
    exact Finset.mem_insert_self n _
  have hforwarded : ∀ j ∈ f₂.forwardedBlocks, j < n + 1 := by
    intro j hj
    rw [hframe.forwardedBlocks] at hj
    rcases Finset.mem_insert.mp hj with rfl | hj
    · exact Nat.lt_succ_self _
    · exact Nat.lt_succ_of_lt (h.forwarded j hj)
  have happly : f.apply ((StreamedBlock.text chunks).events n) =
      ({ f₂ with pending := f₂.pending.erase n }, .contentBlockStart n (.text []) ::
        (output ++ (textEvents n ((f₂.pending.lookup n).getD []) ++ [.contentBlockStop n]))) := by
    have hdeltas : (chunks.map Delta.textDelta).map (SseEvent.contentBlockDelta n) =
        textDeltas n chunks := List.map_map
    simp only [StreamedBlock.events, StreamedBlock.startBlock, StreamedBlock.deltas, apply,
      applyOne, h.notMatched, ContentBlock.type, Option.isSome_none, Bool.false_eq_true, if_false,
      if_true, hdeltas, apply_append, List.singleton_append, List.append_nil]
    rw [← h.notMatched, ← hf₁, ← hf₂, ← houtput, if_neg (not_not.mpr hmem)]
  simp only [happly, visibleText_cons, visibleText_append, visibleText_nil, SseEvent.textFor,
    List.nil_append, List.append_nil]
  refine ⟨hframe.sequences, fun j hj => ?_, ?_⟩
  · rw [hframe.output j hj, visibleText_textEvents_of_ne hj]
    rfl
  rw [visibleText_textEvents]
  cases hfirst : firstMatch f.sequences [] chunks with
  | some m =>
    rw [show f₁.sequences = f.sequences from rfl, hfirst] at hresult
    obtain ⟨hmatched, hempty, hvisible⟩ := hresult
    refine ⟨⟨hmatched, hforwarded⟩, ?_⟩
    rw [hempty, Finmap.lookup_empty, Option.getD_none, List.append_nil]
    exact hvisible
  | none =>
    rw [show f₁.sequences = f.sequences from rfl, hfirst] at hresult
    refine ⟨⟨hresult.notMatched, hforwarded, fun j hj => ?_⟩, hresult.split⟩
    rw [Finmap.lookup_erase_ne (by omega)]
    exact hframe.pending j (by omega) (h.pending j (by omega))

/-- Blocks without a stop sequence pass whole. -/
theorem apply_of_free (h : Between f n) (hseqs : ∀ s ∈ f.sequences, s ≠ [])
    (blocks : List StreamedBlock) (hfree : ∀ block ∈ blocks, block.content.FreeOf f.sequences) :
    let r := f.apply (streamEvents n blocks)
    r.1.sequences = f.sequences ∧ Between r.1 (n + blocks.length) ∧
      (∀ j < n, visibleText j r.2 = []) ∧
      ∀ i, visibleText (n + i) r.2 = keptText (blocks.map StreamedBlock.content) i := by
  induction blocks generalizing f n with
  | nil => exact ⟨rfl, h, fun j _ => rfl, fun i => rfl⟩
  | cons block blocks ih =>
    obtain ⟨hsequences, hbetween, hother, htext⟩ :
        (f.apply (block.events n)).1.sequences = f.sequences ∧
          Between (f.apply (block.events n)).1 (n + 1) ∧
          (∀ j, j ≠ n → visibleText j (f.apply (block.events n)).2 = []) ∧
          visibleText n (f.apply (block.events n)).2 = keptText [block.content] 0 := by
      cases block with
      | text chunks =>
        obtain ⟨hsequences, hother, hresult⟩ := apply_textBlock h hseqs chunks
        have hblock : Free f.sequences chunks.flatten := hfree _ List.mem_cons_self
        cases hfirst : firstMatch f.sequences [] chunks with
        | some m =>
          obtain ⟨k, hk, -⟩ := firstMatch_eq_some (free_nil hseqs) hfirst
          rw [← List.take_append_drop k chunks, List.flatten_append] at hblock
          exact absurd hk.occurs (hblock.of_append _ hk.mem _)
        | none =>
          rw [hfirst] at hresult
          exact ⟨hsequences, hresult.1, hother, hresult.2⟩
      | other block deltas notText noText =>
        obtain ⟨hsequences, hbetween, hvisible⟩ := apply_otherBlock h notText noText
        refine ⟨hsequences, hbetween, fun j _ => hvisible j, ?_⟩
        rw [hvisible n]
        cases block with
        | text text => exact absurd rfl notText
        | _ => rfl
    obtain ⟨hsequences', hbetween', hbelow, hvisible⟩ := ih hbetween (by rwa [hsequences])
      (fun b hb => by rw [hsequences]; exact hfree b (List.mem_cons_of_mem block hb))
    simp only [streamEvents, apply_append, visibleText_append]
    refine ⟨hsequences'.trans hsequences, ?_, fun j hj => ?_, fun i => ?_⟩
    · rw [List.length_cons, Nat.add_comm blocks.length, ← Nat.add_assoc]
      exact hbetween'
    · rw [hother j (by omega), hbelow j (by omega)]
      rfl
    · cases i with
      | zero =>
        rw [Nat.add_zero, htext, hbelow n (Nat.lt_succ_self n), List.append_nil]
        rfl
      | succ i =>
        have hindex : n + (i + 1) = n + 1 + i := by omega
        rw [hother (n + (i + 1)) (by omega), List.nil_append, hindex, hvisible i]
        rfl

end StopSequenceFilter

theorem exists_first_block (sequences : List (List Char)) (blocks : List StreamedBlock) :
    (∀ block ∈ blocks, block.content.FreeOf sequences) ∨
      ∃ before chunks after, blocks = before ++ .text chunks :: after ∧
        (∀ block ∈ before, block.content.FreeOf sequences) ∧ ¬ Free sequences chunks.flatten := by
  induction blocks with
  | nil => exact .inl (by simp)
  | cons block blocks ih =>
    by_cases hblock : block.content.FreeOf sequences
    · rcases ih with hfree | ⟨before, chunks, after, rfl, hbefore, hchunks⟩
      · exact .inl (List.forall_mem_cons.mpr ⟨hblock, hfree⟩)
      · exact .inr ⟨block :: before, chunks, after, rfl,
          List.forall_mem_cons.mpr ⟨hblock, hbefore⟩, hchunks⟩
    · cases block with
      | text chunks => exact .inr ⟨[], chunks, blocks, rfl, by simp, hblock⟩
      | other block deltas notText noText =>
        cases block with
        | text text => exact absurd rfl notText
        | _ => exact absurd trivial hblock

theorem keptText_append_left {content content' : List ContentBlock} {i : ℕ}
    (h : i < content.length) : keptText (content ++ content') i = keptText content i := by
  rw [keptText, keptText, List.getElem?_append_left h]

theorem keptText_append_right (content content' : List ContentBlock) (i : ℕ) :
    keptText (content ++ content') (content.length + i) = keptText content' i := by
  rw [keptText, keptText, List.getElem?_append_right (Nat.le_add_right _ _),
    Nat.add_sub_cancel_left]

/-- The cut of one text block lets its earliest, then longest, stop sequence complete
before or together with any other. -/
def CompletesFirst (sequences chunks : List (List Char)) : Prop :=
  ∀ p s, Earliest sequences chunks.flatten p s →
    ∀ k, (∃ s' ∈ sequences, s' <:+: (chunks.take k).flatten) →
      p + s.length ≤ (chunks.take k).flatten.length

def FirstMatchCompletes (sequences : List (List Char)) (blocks : List StreamedBlock) : Prop :=
  ∀ before chunks after, blocks = before ++ .text chunks :: after →
    (∀ chunks', .text chunks' ∈ before → ∀ s ∈ sequences, ¬ s <:+: chunks'.flatten) →
    CompletesFirst sequences chunks

/-- The filter lets the same text through for every block, and reports the same stop
sequence, as the non-streaming path on the complete content. -/
def Agrees (sequences : List (List Char)) (f : StopSequenceFilter) (blocks : List StreamedBlock) :
    Prop :=
  let streamed := f.apply (streamEvents 0 blocks)
  let whole := truncateContentAtStopSequence (blocks.map StreamedBlock.content) sequences
  (∀ i, visibleText i streamed.2 = keptText whole.1 i) ∧ streamed.1.matched = whole.2

open StopSequenceFilter in
theorem completesFirst_iff {p p' : ℕ} {s s' : List Char} (hseqs : ∀ s ∈ sequences, s ≠ [])
    (hwhole : Earliest sequences chunks.flatten p s)
    (hfirst : firstMatch sequences [] chunks = some (p', s')) :
    CompletesFirst sequences chunks ↔ p' = p ∧ s' = s := by
  obtain ⟨k, hk, hbefore⟩ := firstMatch_eq_some (free_nil hseqs) hfirst
  simp only [List.nil_append] at hk hbefore
  constructor
  · intro hcond
    have hle := hcond p s hwhole k ⟨s', hk.mem, exists_occursAt_iff.mp ⟨p', hk.occurs⟩⟩
    rw [← List.take_append_drop k chunks, List.flatten_append] at hwhole
    exact hk.unique (hwhole.of_append hseqs hle)
  · rintro ⟨rfl, rfl⟩ q t ht k' ⟨s', hs', hocc⟩
    obtain ⟨rfl, rfl⟩ := hwhole.unique ht
    have hkk : k ≤ k' := by
      by_contra hlt
      exact free_iff.mp (hbefore k' (by omega)) s' hs' hocc
    have hle := hk.occurs.add_length_le (hseqs _ hk.mem)
    have hmono : (chunks.take k).flatten.length ≤ (chunks.take k').flatten.length :=
      ((List.take_prefix_take_left hkk).flatten).length_le
    omega

theorem freeOf_before_iff {before : List StreamedBlock} :
    (∀ block ∈ before, block.content.FreeOf sequences) ↔
      ∀ chunks, .text chunks ∈ before → ∀ s ∈ sequences, ¬ s <:+: chunks.flatten := by
  constructor
  · intro h chunks hmem
    exact free_iff.mp (h _ hmem)
  · intro h block hmem
    cases block with
    | text chunks => exact free_iff.mpr (h chunks hmem)
    | other block deltas notText noText =>
      cases block with
      | text text => exact absurd rfl notText
      | _ => trivial

theorem StopSequenceFilter.le_length_of_firstMatch (hseqs : ∀ s ∈ sequences, s ≠ [])
    (h : firstMatch sequences [] chunks = some (p, s)) : p ≤ chunks.flatten.length := by
  obtain ⟨k, hk, -⟩ := firstMatch_eq_some (free_nil hseqs) h
  have hle := hk.occurs.add_length_le (hseqs s hk.mem)
  have hpre := ((List.take_prefix k chunks).flatten).length_le
  rw [List.nil_append] at hle
  omega

theorem firstMatchCompletes_append_iff {before after : List StreamedBlock}
    (hbefore : ∀ block ∈ before, block.content.FreeOf sequences)
    (hchunks : ¬ Free sequences chunks.flatten) :
    FirstMatchCompletes sequences (before ++ .text chunks :: after) ↔
      CompletesFirst sequences chunks := by
  constructor
  · intro h
    exact h before chunks after rfl (freeOf_before_iff.mp hbefore)
  · intro h before' chunks' after' hsplit hbefore'
    rcases List.append_eq_append_iff.mp hsplit with ⟨mid, hmid, hrest⟩ | ⟨mid, hmid, hrest⟩
    · cases mid with
      | nil =>
        cases hrest
        exact h
      | cons block mid =>
        cases hrest
        have hmem : StreamedBlock.text chunks ∈ before' := by rw [hmid]; simp
        exact absurd (free_iff.mpr (hbefore' chunks hmem)) hchunks
    · cases mid with
      | nil =>
        cases hrest
        exact h
      | cons block mid =>
        cases hrest
        have hmem : StreamedBlock.text chunks' ∈ before := by rw [hmid]; simp
        intro p s hs
        exact absurd hs.occurs (hbefore _ hmem _ hs.mem _)

theorem keptText_of_length_le {content : List ContentBlock} {i : ℕ} (h : content.length ≤ i) :
    keptText content i = [] := by
  rw [keptText, List.getElem?_eq_none h]

theorem keptText_append_text (content : List ContentBlock) (text : List Char) (i : ℕ) :
    keptText (content ++ if text = [] then [] else [.text text]) i =
      keptText (content ++ [.text text]) i := by
  by_cases hempty : text = []
  · rw [if_pos hempty, List.append_nil]
    by_cases hi : i < content.length
    · rw [keptText_append_left hi]
    · obtain ⟨k, rfl⟩ := Nat.exists_eq_add_of_le (Nat.le_of_not_lt hi)
      rw [keptText_append_right, keptText_of_length_le (Nat.le_add_right _ _)]
      cases k with
      | zero => exact hempty.symm
      | succ k => rfl
  · rw [if_neg hempty]

theorem StopSequenceFilter.apply_of_firstMatch {f : StopSequenceFilter} (hf : f.Between 0)
    (hseqs : ∀ s ∈ f.sequences, s ≠ []) {before : List StreamedBlock}
    (hbefore : ∀ block ∈ before, block.content.FreeOf f.sequences)
    (hfirst : firstMatch f.sequences [] chunks = some (p, s)) (after : List StreamedBlock) :
    let r := f.apply (streamEvents 0 (before ++ .text chunks :: after))
    r.1.matched = some s ∧
      ∀ i, visibleText i r.2 =
        keptText (before.map StreamedBlock.content ++ [.text (chunks.flatten.take p)]) i := by
  obtain ⟨hsequences, hmiddle, -, hvisible⟩ := apply_of_free hf hseqs before hbefore
  rw [Nat.zero_add] at hmiddle
  obtain ⟨-, hother, hresult⟩ := apply_textBlock hmiddle (hsequences ▸ hseqs) chunks
  rw [hsequences, hfirst] at hresult
  obtain ⟨hmatched, htext⟩ := hresult
  rw [streamEvents_append, streamEvents, Nat.zero_add]
  simp only [apply_append, apply_of_matchedBefore hmatched after, visibleText_append,
    List.append_nil]
  refine ⟨hmatched.matched, fun i => ?_⟩
  have hlen : (before.map StreamedBlock.content).length = before.length := List.length_map _
  have hvisible' := hvisible i
  rw [Nat.zero_add] at hvisible'
  rw [hvisible']
  rcases Nat.lt_trichotomy i before.length with hi | rfl | hi
  · rw [hother i (by omega), List.append_nil, keptText_append_left (by omega)]
  · have hlast := keptText_append_right (before.map StreamedBlock.content)
      [.text (chunks.flatten.take p)] 0
    rw [Nat.add_zero, hlen] at hlast
    rw [keptText_of_length_le (by omega), htext, hlast]
    rfl
  · rw [hother i (by omega), keptText_of_length_le (by omega),
      keptText_of_length_le (by rw [List.length_append, hlen, List.length_singleton]; omega)]
    rfl

/-- The streamed and the complete content agree exactly when the first block with a stop
sequence is cut so that no other sequence completes before its earliest, longest one. -/
theorem StopSequenceFilter.agrees_iff {sequences : List (List Char)} {f : StopSequenceFilter}
    (hseqs : ∀ s ∈ sequences, s ≠ []) (hnew : StopSequenceFilter.new sequences = some f)
    (blocks : List StreamedBlock) :
    Agrees sequences f blocks ↔ FirstMatchCompletes sequences blocks := by
  have hf : f = ⟨sequences, ∅, ∅, ∅, none⟩ := by
    unfold StopSequenceFilter.new at hnew
    split_ifs at hnew
    exact (Option.some.inj hnew).symm
  have hsequences : f.sequences = sequences := by rw [hf]
  have hbetween : f.Between 0 := by
    rw [hf]
    exact ⟨rfl, by simp, fun j _ => Finmap.lookup_empty j⟩
  rcases exists_first_block sequences blocks with hfree | ⟨before, chunks, after, rfl, hbefore, hchunks⟩
  · obtain ⟨-, hend, -, hvisible⟩ := apply_of_free hbetween (hsequences ▸ hseqs) blocks
      (hsequences ▸ hfree)
    refine iff_of_true ⟨fun i => ?_, ?_⟩ ?_
    · rw [truncateContent_of_free (by simpa using hfree), ← hvisible i, Nat.zero_add]
    · rw [truncateContent_of_free (by simpa using hfree)]
      exact hend.notMatched
    · rintro before chunks after rfl - p s hs
      have hblock : Free sequences chunks.flatten := hfree (.text chunks) (by simp)
      exact absurd hs.occurs (hblock s hs.mem p)
  rw [firstMatchCompletes_append_iff hbefore hchunks]
  cases hfirst : firstMatch sequences [] chunks with
  | none => exact absurd (firstMatch_eq_none (free_nil hseqs) hfirst) hchunks
  | some m =>
    obtain ⟨p', s'⟩ := m
    cases hwhole : earliestMatch chunks.flatten sequences with
    | none => exact absurd (earliestMatch_eq_none_iff.mp hwhole) hchunks
    | some m =>
      obtain ⟨p, s⟩ := m
      have hearliest := earliestMatch_eq_some_iff.mp hwhole
      obtain ⟨hmatched, hvisible⟩ := apply_of_firstMatch hbetween (hsequences ▸ hseqs)
        (hsequences ▸ hbefore) (hsequences.symm ▸ hfirst) after
      have hbefore' : ∀ block ∈ before.map StreamedBlock.content, block.FreeOf sequences := by
        simpa using hbefore
      have htruncate := truncateContent_of_earliest hbefore' hearliest
        (after.map StreamedBlock.content)
      rw [completesFirst_iff hseqs hearliest hfirst]
      simp only [Agrees, List.map_append, List.map_cons, StreamedBlock.content, htruncate, hmatched,
        hvisible, keptText_append_text, Option.some.injEq]
      refine and_congr_left fun _ => ⟨fun h => ?_, fun h i => by rw [h]⟩
      have hcut := h ((before.map StreamedBlock.content).length + 0)
      rw [keptText_append_right, keptText_append_right] at hcut
      have hlength : (chunks.flatten.take p').length = (chunks.flatten.take p).length :=
        congrArg List.length hcut
      have hp := hearliest.occurs.add_length_le (hseqs s hearliest.mem)
      have hp' := le_length_of_firstMatch hseqs hfirst
      rw [List.length_take, List.length_take] at hlength
      omega

theorem firstMatchCompletes_singleton (hs : s ≠ []) (blocks : List StreamedBlock) :
    FirstMatchCompletes [s] blocks := by
  intro before chunks after _ _ p t ht k hk
  obtain ⟨t', ht', hocc⟩ := hk
  obtain ⟨q, hq⟩ := exists_occursAt_iff.mpr hocc
  have heq : t = t' := by rw [List.mem_singleton.mp ht', List.mem_singleton.mp ht.mem]
  have hle := hq.add_length_le (by rwa [List.mem_singleton.mp ht'])
  have hwhole : OccursAt t' chunks.flatten q := by
    rw [← List.take_append_drop k chunks, List.flatten_append]
    exact hq.append _ (by omega)
  have := ht.le t' ht' q hwhole
  rw [heq]
  omega

theorem StopSequenceFilter.agrees_split_stop :
    Agrees ["STOP".toList] ⟨["STOP".toList], ∅, ∅, ∅, none⟩
      [.text ["go ST".toList, "ART ST".toList, "OP now".toList]] :=
  (agrees_iff (by decide) rfl _).2 (firstMatchCompletes_singleton (by decide) _)

theorem StopSequenceFilter.not_agrees_overlapping :
    StopSequenceFilter.new ["abcd".toList, "bc".toList] =
        some ⟨["abcd".toList, "bc".toList], ∅, ∅, ∅, none⟩ ∧
      ¬ Agrees ["abcd".toList, "bc".toList] ⟨["abcd".toList, "bc".toList], ∅, ∅, ∅, none⟩
        [.text ["abc".toList, "d".toList]] := by
  refine ⟨rfl, ?_⟩
  rintro ⟨-, hmatched⟩
  exact absurd hmatched (by decide +kernel)

namespace StopSequenceFilter

theorem between_of_new {sequences : List (List Char)} {f : StopSequenceFilter}
    (hnew : StopSequenceFilter.new sequences = some f) : f.sequences = sequences ∧ Between f 0 := by
  unfold StopSequenceFilter.new at hnew
  split_ifs at hnew
  cases hnew
  exact ⟨rfl, rfl, fun _ hmem => absurd hmem (Finset.notMem_empty _),
    fun j _ => Finmap.lookup_empty j⟩

theorem Between.apply_streamEvents {f : StopSequenceFilter} {n : ℕ} (h : Between f n)
    (hseqs : ∀ s ∈ f.sequences, s ≠ []) {blocks : List StreamedBlock}
    (hmatched : (f.apply (streamEvents n blocks)).1.matched = none) :
    (f.apply (streamEvents n blocks)).1.sequences = f.sequences ∧
      Between (f.apply (streamEvents n blocks)).1 (n + blocks.length) := by
  induction blocks generalizing f n with
  | nil => exact ⟨rfl, h⟩
  | cons block blocks ih =>
    rw [streamEvents, apply_append] at hmatched ⊢
    rw [List.length_cons, Nat.add_comm blocks.length, ← Nat.add_assoc]
    obtain ⟨hsequences, hbetween⟩ :
        (f.apply (block.events n)).1.sequences = f.sequences ∧
          Between (f.apply (block.events n)).1 (n + 1) := by
      cases block with
      | text chunks =>
        obtain ⟨hsequences, -, hresult⟩ := apply_textBlock h hseqs chunks
        cases hfirst : firstMatch f.sequences [] chunks with
        | none =>
          rw [hfirst] at hresult
          exact ⟨hsequences, hresult.1⟩
        | some m =>
          rw [hfirst] at hresult
          rw [apply_of_matchedBefore hresult.1 blocks] at hmatched
          exact absurd (hresult.1.matched.symm.trans hmatched) (Option.some_ne_none _)
      | other block deltas notText noText =>
        obtain ⟨hsequences, hbetween, -⟩ := apply_otherBlock h notText noText
        exact ⟨hsequences, hbetween⟩
    obtain ⟨hsequences', hbetween'⟩ := ih hbetween (by rwa [hsequences]) hmatched
    exact ⟨hsequences'.trans hsequences, hbetween'⟩

theorem free_take_of_earliest {sequences : List (List Char)} {text : List Char} {p : ℕ}
    {s : List Char} (h : Earliest sequences text p s) (hseqs : ∀ s ∈ sequences, s ≠ [])
    (tail : List Char) :
    Free sequences ((text ++ tail).take p) ∧ (text ++ tail).take p ++ s <+: text ++ tail := by
  have hle := h.occurs.add_length_le (hseqs s h.mem)
  have htake : (text ++ tail).take p = text.take p := List.take_append_of_le_length (by omega)
  have hlength : (text.take p).length = p := List.length_take_of_le (by omega)
  rw [htake]
  constructor
  · intro t ht q hq
    have hwithin := hq.add_length_le (hseqs t ht)
    have hpos := List.length_pos_of_ne_nil (hseqs t ht)
    have hlong := hq.append (text.drop p) (by omega)
    rw [List.take_append_drop] at hlong
    have hfirst := h.le t ht q hlong
    omega
  · have hsplit := List.take_append_drop p text
    have hprefix : text.take p ++ s <+: text.take p ++ text.drop p :=
      List.prefix_append_right_inj _ |>.mpr h.occurs
    rw [hsplit] at hprefix
    exact hprefix.trans (List.prefix_append text tail)

/-- The text of a block that is let through before its end, when no earlier block has matched. -/
theorem visibleText_textBlock {sequences : List (List Char)} {f : StopSequenceFilter}
    (hseqs : ∀ s ∈ sequences, s ≠ []) (hnew : StopSequenceFilter.new sequences = some f)
    (before : List StreamedBlock) (chunks : List (List Char))
    (hbefore : (f.apply (streamEvents 0 before)).1.matched = none) :
    let r := (f.apply (streamEvents 0 before)).1.apply
      ((StreamedBlock.text chunks).events before.length)
    let text := visibleText before.length r.2
    (∀ s ∈ sequences, ¬ s <:+: text) ∧ text <+: chunks.flatten ∧
      (r.1.matched = none → text = chunks.flatten) ∧
      ∀ s, r.1.matched = some s → s ∈ sequences ∧ text ++ s <+: chunks.flatten := by
  obtain ⟨hsequences, hstart⟩ := between_of_new hnew
  have hseqs' : ∀ s ∈ f.sequences, s ≠ [] := by rwa [hsequences]
  obtain ⟨hsame, hbetween⟩ := hstart.apply_streamEvents hseqs' hbefore
  rw [Nat.zero_add] at hbetween
  rw [hsequences] at hsame
  have hseqs'' : ∀ s ∈ (f.apply (streamEvents 0 before)).1.sequences, s ≠ [] := by rwa [hsame]
  obtain ⟨-, -, hresult⟩ := apply_textBlock hbetween hseqs'' chunks
  dsimp only
  rw [hsame] at hresult
  cases hfirst : firstMatch sequences [] chunks with
  | none =>
    rw [hfirst] at hresult
    obtain ⟨hafter, htext⟩ := hresult
    have hfree := firstMatch_eq_none (free_nil hseqs) hfirst
    rw [List.nil_append] at hfree
    rw [htext, hafter.notMatched]
    exact ⟨free_iff.mp hfree, List.prefix_rfl, fun _ => rfl, fun s hs => by cases hs⟩
  | some m =>
    obtain ⟨p, s⟩ := m
    rw [hfirst] at hresult
    obtain ⟨hafter, htext⟩ := hresult
    obtain ⟨k, hearliest, -⟩ := firstMatch_eq_some (free_nil hseqs) hfirst
    rw [List.nil_append] at hearliest
    obtain ⟨hfree, hprefix⟩ := free_take_of_earliest hearliest hseqs (chunks.drop k).flatten
    rw [← List.flatten_append, List.take_append_drop] at hfree hprefix
    rw [htext, hafter.matched]
    refine ⟨free_iff.mp hfree, List.take_prefix _ _, fun hnone => (by cases hnone), ?_⟩
    intro t ht
    cases ht
    exact ⟨hearliest.mem, hprefix⟩

theorem visibleText_textBlock_split :
    let f : StopSequenceFilter := ⟨["STOP".toList], ∅, ∅, ∅, none⟩
    let r := f.apply ((StreamedBlock.text ["go ST".toList, "ART ST".toList, "OP".toList]).events 0)
    r.1.matched = some "STOP".toList ∧ visibleText 0 r.2 ++ "STOP".toList <+: "go START STOP".toList :=
  have hseqs : ∀ s ∈ ["STOP".toList], s ≠ [] := by decide
  have h := visibleText_textBlock hseqs rfl [] ["go ST".toList, "ART ST".toList, "OP".toList] rfl
  have hmatched : _ = some "STOP".toList := by decide +kernel
  ⟨hmatched, (h.2.2.2 _ hmatched).2⟩

end StopSequenceFilter

end KiroProxy
