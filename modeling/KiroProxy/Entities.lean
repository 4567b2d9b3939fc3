import KiroProxy.Substitution

/-!
# Entities of a text

A text is written with entities: a mark and a word in the place of a character. They are decoded
in one pass from left to right, or with one replacement of the whole text after the other. In the
second way a mark that is decoded before the entity of another character is read again together
with what follows it.
-/

namespace KiroProxy.Entities

open Substitution

structure Entity (α : Type) where
  /-- What follows the mark. -/
  word : List α
  char : α
  deriving DecidableEq

variable {α : Type} (mark : α)

def Entity.text (e : Entity α) : List α := mark :: e.word

def Entity.name (e : Entity α) : Name α := (e.text mark, [e.char])

variable [DecidableEq α] (es : List (Entity α))

def decode (text : List α) : List α := replaceAll (es.map (Entity.name mark)) text

/-- The first argument counts the letters of the last entity that are still to pass. -/
def decodeFrom : ℕ → List α → List α
  | _, [] => []
  | skip + 1, _ :: text => decodeFrom skip text
  | 0, c :: text =>
    match es.find? fun e => e.text mark <+: c :: text with
    | some e => e.char :: decodeFrom e.word.length text
    | none => c :: decodeFrom 0 text

/-- A single pass, which goes on behind what it has replaced. -/
def decodeOnce (text : List α) : List α := decodeFrom mark es 0 text

def escapeChar (c : α) : List α :=
  match es.find? fun e => e.char = c with
  | some e => e.text mark
  | none => [c]

def escape (text : List α) : List α := text.flatMap (escapeChar mark es)

/-- The mark is in no word, and neither is a character that an entity stands for. No word is the
beginning of another one. -/
structure Separate : Prop where
  mark_notMem : ∀ e ∈ es, mark ∉ e.word
  char_notMem : ∀ e ∈ es, ∀ e' ∈ es, e.char ∉ e'.word
  unique : ∀ e ∈ es, ∀ e' ∈ es, e.word <+: e'.word → e = e'

variable {mark es} {e e' : Entity α} {c : α} {text word rest : List α}
variable {before after : List (Entity α)}

omit [DecidableEq α] in
theorem Separate.mono (h : Separate mark es) (hsub : before ⊆ es) : Separate mark before where
  mark_notMem e he := h.mark_notMem e (hsub he)
  char_notMem e he e' he' := h.char_notMem e (hsub he) e' (hsub he')
  unique e he e' he' := h.unique e (hsub he) e' (hsub he')

omit [DecidableEq α] in
/-- At one place only one entity can be read. -/
theorem Separate.eq_of_prefix (h : Separate mark es) (he : e ∈ es) (he' : e' ∈ es)
    (hbegins : e.word <+: e'.word ++ rest) : e = e' := by
  rcases List.prefix_or_prefix_of_prefix hbegins (List.prefix_append _ _) with hle | hle
  · exact h.unique e he e' he' hle
  · exact (h.unique e' he' e he hle).symm

omit [DecidableEq α] in
theorem not_prefix_of_ne (h : c ≠ mark) : ¬ e.text mark <+: c :: text :=
  fun hbegins => h (List.cons_prefix_cons.mp hbegins).1.symm

theorem replace_cons (h : ¬ e.text mark <+: c :: text) :
    replace (e.name mark) (c :: text) = c :: replace (e.name mark) text := by
  have hnot : ∀ p < [c].length, ¬ Matching.OccursAt (e.name mark).1 ([c] ++ text) p := by
    intro p hp hocc
    obtain rfl : p = 0 := Nat.lt_one_iff.mp hp
    exact h hocc
  exact replace_append_of_not_occursAt hnot

theorem replace_append (hword : mark ∉ word) (text : List α) :
    replace (e.name mark) (word ++ text) = word ++ replace (e.name mark) text := by
  induction word with
  | nil => rfl
  | cons c word ih =>
    rw [List.mem_cons, not_or] at hword
    rw [List.cons_append, replace_cons (not_prefix_of_ne (Ne.symm hword.1)), ih hword.2]
    rfl

theorem replace_text (text : List α) :
    replace (e.name mark) (e.text mark ++ text) = e.char :: replace (e.name mark) text :=
  replace_append_self (List.cons_ne_nil _ _) text

/-- A word begins a text afterwards where it has begun it before. -/
theorem prefix_replace_iff (hword : mark ∉ word) (hchar : e.char ∉ word) :
    word <+: replace (e.name mark) text ↔ word <+: text := by
  induction word generalizing text with
  | nil => exact iff_of_true (List.nil_prefix) List.nil_prefix
  | cons a word ih =>
    rw [List.mem_cons, not_or] at hword hchar
    cases text with
    | nil => rfl
    | cons c text =>
      by_cases h : e.text mark <+: c :: text
      · obtain ⟨rest, hrest⟩ := h
        rw [← hrest, replace_text]
        refine iff_of_false (fun h => hchar.1 (List.cons_prefix_cons.mp h).1.symm) fun h => ?_
        exact hword.1 (List.cons_prefix_cons.mp h).1.symm
      · rw [replace_cons h, List.cons_prefix_cons, List.cons_prefix_cons, ih hword.2 hchar.2]

theorem decode_append_list (text : List α) :
    decode mark (before ++ after) text = decode mark after (decode mark before text) := by
  rw [decode, List.map_append, replaceAll, List.foldl_append]
  rfl

theorem decode_after (text : List α) :
    decode mark after (decode mark (before ++ [e]) text) =
      decode mark (before ++ e :: after) text := by
  rw [← decode_append_list, List.append_assoc]
  rfl

theorem prefix_decode_iff (hmark : mark ∉ word) (hchar : ∀ e ∈ es, e.char ∉ word) :
    word <+: decode mark es text ↔ word <+: text := by
  induction es generalizing text with
  | nil => rfl
  | cons e es ih =>
    exact (ih fun e' he' => hchar e' (List.mem_cons_of_mem e he')).trans
      (prefix_replace_iff hmark (hchar e List.mem_cons_self))

theorem decode_append (h : mark ∉ word) (text : List α) :
    decode mark es (word ++ text) = word ++ decode mark es text := by
  induction es generalizing text with
  | nil => rfl
  | cons e es ih => exact (congrArg (decode mark es) (replace_append h text)).trans (ih _)

theorem decode_cons (hes : Separate mark es) (h : ∀ e ∈ es, ¬ e.text mark <+: c :: text) :
    decode mark es (c :: text) = c :: decode mark es text := by
  induction es generalizing text with
  | nil => rfl
  | cons e es ih =>
    refine (congrArg (decode mark es) (replace_cons (h e List.mem_cons_self))).trans
      (ih (hes.mono (List.subset_cons_self e es)) fun e' he' hbegins => ?_)
    have hmem : e' ∈ e :: es := List.mem_cons_of_mem e he'
    refine h e' hmem ?_
    rw [Entity.text, List.cons_prefix_cons] at hbegins ⊢
    refine ⟨hbegins.1, (prefix_replace_iff ?_ ?_).mp hbegins.2⟩
    · exact hes.mark_notMem e' hmem
    · exact hes.char_notMem e List.mem_cons_self e' hmem

/-- The entities before one find nothing where it stands, and those after it read what it leaves. -/
theorem decode_text_append (hes : Separate mark (before ++ e :: after)) (hbefore : e ∉ before)
    (text : List α) :
    decode mark (before ++ e :: after) (e.text mark ++ text) =
      decode mark after (e.char :: decode mark (before ++ [e]) text) := by
  have he : e ∈ before ++ e :: after := List.mem_append_right _ List.mem_cons_self
  have hskip : decode mark before (e.text mark ++ text) =
      e.text mark ++ decode mark before text := by
    refine (decode_cons (hes.mono (List.subset_append_left _ _)) fun e' he' hbegins => ?_).trans
      (congrArg (mark :: ·) (decode_append (hes.mark_notMem e he) text))
    rw [Entity.text, List.cons_prefix_cons] at hbegins
    obtain rfl := hes.eq_of_prefix (List.mem_append_left _ he') he hbegins.2
    exact hbefore he'
  rw [decode_append_list, hskip, decode_append_list]
  exact congrArg (decode mark after) (replace_text _)

theorem decode_text (hes : Separate mark es) (he : e ∈ es) (hchar : e.char ≠ mark)
    (text : List α) : decode mark es (e.text mark ++ text) = e.char :: decode mark es text := by
  obtain ⟨before, after, rfl, hbefore⟩ := List.eq_append_cons_of_mem he
  rw [decode_text_append hes hbefore]
  have hword : mark ∉ [e.char] := fun hmem => hchar (List.mem_singleton.mp hmem).symm
  exact (decode_append hword _).trans (congrArg (e.char :: ·) (decode_after text))

theorem decodeFrom_eq_drop (skip : ℕ) (text : List α) :
    decodeFrom mark es skip text = decodeOnce mark es (text.drop skip) := by
  induction skip generalizing text with
  | zero => rfl
  | succ skip ih =>
    cases text with
    | nil => rfl
    | cons c text => exact ih text

theorem decodeOnce_cons (h : ∀ e ∈ es, ¬ e.text mark <+: c :: text) :
    decodeOnce mark es (c :: text) = c :: decodeOnce mark es text := by
  have hnone : (es.find? fun e => e.text mark <+: c :: text) = none :=
    List.find?_eq_none.mpr fun e he => by simpa using h e he
  rw [decodeOnce, decodeFrom, hnone]
  rfl

theorem decodeOnce_text (hes : Separate mark es) (he : e ∈ es) (text : List α) :
    decodeOnce mark es (e.text mark ++ text) = e.char :: decodeOnce mark es text := by
  have hsome : (es.find? fun e' => e'.text mark <+: mark :: (e.word ++ text)) = some e := by
    cases hfind : es.find? fun e' => e'.text mark <+: mark :: (e.word ++ text) with
    | none =>
      have hnone := List.find?_eq_none.mp hfind e he
      exact absurd (decide_eq_true (List.prefix_append (e.text mark) text)) hnone
    | some e' =>
      have hbegins := List.find?_some hfind
      rw [decide_eq_true_iff, Entity.text, List.cons_prefix_cons] at hbegins
      rw [hes.eq_of_prefix (List.mem_of_find?_eq_some hfind) he hbegins.2]
  rw [decodeOnce, Entity.text, List.cons_append, decodeFrom, hsome]
  exact congrArg (e.char :: ·) (by rw [decodeFrom_eq_drop, List.drop_left])

/-- A text is read entity by entity, and character by character in between. -/
theorem reading_induction (mark : α) (es : List (Entity α)) {P : List α → Prop} (hnil : P [])
    (hentity : ∀ e ∈ es, ∀ text, P text → P (e.text mark ++ text))
    (hcons : ∀ c text, (∀ e ∈ es, ¬ e.text mark <+: c :: text) → P text → P (c :: text))
    (text : List α) : P text := by
  induction hlength : text.length using Nat.strong_induction_on generalizing text with
  | _ n ih =>
    cases text with
    | nil => exact hnil
    | cons c text =>
      by_cases h : ∃ e ∈ es, e.text mark <+: c :: text
      · obtain ⟨e, he, rest, hrest⟩ := h
        have hlt : rest.length < n := by
          rw [← hlength, ← hrest, List.length_append, Entity.text, List.length_cons]
          omega
        rw [← hrest]
        exact hentity e he rest (ih _ hlt rest rfl)
      · have hlt : text.length < n := by rw [← hlength]; exact Nat.lt_succ_self _
        exact hcons c text (fun e he hbegins => h ⟨e, he, hbegins⟩) (ih _ hlt text rfl)

omit [DecidableEq α] in
theorem infix_append_iff (h : mark ∉ rest) :
    mark :: word <:+: rest ++ text ↔ mark :: word <:+: text := by
  induction rest with
  | nil => rfl
  | cons c rest ih =>
    rw [List.mem_cons, not_or] at h
    rw [List.cons_append, List.infix_cons_iff, ih h.2, List.cons_prefix_cons]
    exact or_iff_right fun hbegins => h.1 hbegins.1

def Rescans (mark : α) (e : Entity α) (after : List (Entity α)) (text : List α) : Prop :=
  ∃ e' ∈ after, e.text mark ++ e'.word <:+: text

section Mark

variable (hes : Separate mark (before ++ e :: after)) (hchar : e.char = mark)
  (hothers : ∀ e' ∈ before ++ after, e'.char ≠ mark)
include hes hchar hothers

theorem decode_mark (text : List α) :
    decode mark (before ++ e :: after) (e.text mark ++ text) =
      decode mark after (mark :: decode mark (before ++ [e]) text) := by
  have hbefore : e ∉ before := fun he => hothers e (List.mem_append_left _ he) hchar
  refine (decode_text_append hes hbefore text).trans ?_
  rw [hchar]

theorem decode_mark_word {e' : Entity α} (he' : e' ∈ after) (text : List α) :
    decode mark (before ++ e :: after) (e.text mark ++ (e'.word ++ text)) =
      e'.char :: decode mark (before ++ e :: after) text := by
  have hmem : e' ∈ before ++ e :: after := List.mem_append_right _ (List.mem_cons_of_mem _ he')
  rw [decode_mark hes hchar hothers, decode_append (hes.mark_notMem e' hmem)]
  refine (decode_text (hes.mono ?_) he' (hothers e' (List.mem_append_right _ he')) _).trans ?_
  · exact List.Subset.trans (List.subset_cons_self _ _) (List.subset_append_right _ _)
  · exact congrArg (e'.char :: ·) (decode_after text)

theorem decode_mark_of_not_begins (h : ∀ e' ∈ after, ¬ e'.word <+: text) :
    decode mark (before ++ e :: after) (e.text mark ++ text) =
      mark :: decode mark (before ++ e :: after) text := by
  have hsub : e :: after ⊆ before ++ e :: after := List.subset_append_right _ _
  rw [decode_mark hes hchar hothers,
    decode_cons (hes.mono (List.Subset.trans (List.subset_cons_self e after) hsub)), decode_after]
  intro e' he' hbegins
  rw [Entity.text, List.cons_prefix_cons] at hbegins
  have hmem : e' ∈ before ++ e :: after := hsub (List.mem_cons_of_mem e he')
  refine h e' he' ((prefix_decode_iff (hes.mark_notMem e' hmem) fun f hf => ?_).mp hbegins.2)
  refine hes.char_notMem f ?_ e' hmem
  rcases List.mem_append.mp hf with hf | hf
  · exact List.mem_append_left _ hf
  · exact hsub (List.mem_singleton.mp hf ▸ List.mem_cons_self)

omit [DecidableEq α] hchar hothers in
theorem rescans_mark_iff (text : List α) :
    Rescans mark e after (e.text mark ++ text) ↔
      (∃ e' ∈ after, e'.word <+: text) ∨ Rescans mark e after text := by
  have he : e ∈ before ++ e :: after := List.mem_append_right _ List.mem_cons_self
  have hiff (e' : Entity α) : e.text mark ++ e'.word <:+: e.text mark ++ text ↔
      e'.word <+: text ∨ e.text mark ++ e'.word <:+: text := by
    have hstart : e.text mark ++ e'.word <+: mark :: (e.word ++ text) ↔ e'.word <+: text :=
      List.prefix_append_right_inj (e.text mark)
    exact List.infix_cons_iff.trans (or_congr hstart (infix_append_iff (hes.mark_notMem e he)))
  simp only [Rescans, hiff, and_or_left, exists_or]

omit [DecidableEq α] hchar hothers in
theorem rescans_text_iff {e' : Entity α} (he' : e' ∈ before ++ e :: after) (hne : e' ≠ e)
    (text : List α) :
    Rescans mark e after (e'.text mark ++ text) ↔ Rescans mark e after text := by
  have he : e ∈ before ++ e :: after := List.mem_append_right _ List.mem_cons_self
  refine exists_congr fun f => and_congr_right fun _ => ?_
  refine Iff.trans ?_ (infix_append_iff (hes.mark_notMem e' he'))
  refine List.infix_cons_iff.trans (or_iff_right fun hbegins => hne ?_)
  rw [Entity.text, List.cons_append, List.cons_prefix_cons] at hbegins
  exact (hes.eq_of_prefix he he' ((List.prefix_append _ _).trans hbegins.2)).symm

/-- The replacements shorten what they rescan, so they differ from the single pass there. -/
theorem decode_cases (text : List α) :
    (Rescans mark e after text ∧
        (decode mark (before ++ e :: after) text).length <
          (decodeOnce mark (before ++ e :: after) text).length) ∨
      ¬ Rescans mark e after text ∧
        decode mark (before ++ e :: after) text = decodeOnce mark (before ++ e :: after) text := by
  have he : e ∈ before ++ e :: after := List.mem_append_right _ List.mem_cons_self
  induction text using reading_induction mark (before ++ e :: after) with
  | hnil =>
    refine .inr ⟨?_, by rw [decode, replaceAll_nil]; rfl⟩
    rintro ⟨e', -, hinfix⟩
    cases List.infix_nil.mp hinfix
  | hcons c text h ih =>
    have hiff : Rescans mark e after (c :: text) ↔ Rescans mark e after text :=
      exists_congr fun e' => and_congr_right fun _ => List.infix_cons_iff.trans
        (or_iff_right fun hbegins => h e he ((List.prefix_append _ _).trans hbegins))
    rw [hiff, decode_cons hes h, decodeOnce_cons h, List.length_cons, List.length_cons]
    exact ih.imp (And.imp_right Nat.succ_lt_succ) (And.imp_right (congrArg (c :: ·)))
  | hentity f hf text ih =>
    rw [decodeOnce_text hes hf]
    by_cases hfe : f = e
    · subst hfe
      rw [rescans_mark_iff hes]
      by_cases hword : ∃ e' ∈ after, e'.word <+: text
      · obtain ⟨e', he', rest, rfl⟩ := hword
        refine .inl ⟨.inl ⟨e', he', List.prefix_append _ _⟩, ?_⟩
        have hpos : 0 < e'.word.length := by
          refine List.length_pos_of_ne_nil fun hnil => ?_
          have heq := hes.unique e' (List.mem_append_right _ (List.mem_cons_of_mem _ he')) f hf
            (by rw [hnil]; exact List.nil_prefix)
          exact hothers e' (List.mem_append_right _ he') (by rw [heq, hchar])
        have hle : (decode mark (before ++ f :: after) (e'.word ++ rest)).length ≤
            (decodeOnce mark (before ++ f :: after) (e'.word ++ rest)).length := by
          rcases ih with ⟨-, hlt⟩ | ⟨-, heq⟩
          · exact hlt.le
          · rw [heq]
        rw [decode_append (hes.mark_notMem e' (List.mem_append_right _
          (List.mem_cons_of_mem _ he'))), List.length_append] at hle
        rw [decode_mark_word hes hchar hothers he', List.length_cons, List.length_cons]
        omega
      · rw [decode_mark_of_not_begins hes hchar hothers fun e' he' h => hword ⟨e', he', h⟩,
          hchar, or_iff_right hword, List.length_cons, List.length_cons]
        exact ih.imp (And.imp_right Nat.succ_lt_succ) (And.imp_right (congrArg (mark :: ·)))
    · have hmem : f ∈ before ++ after := by
        rcases List.mem_append.mp hf with hf | hf
        · exact List.mem_append_left _ hf
        · exact List.mem_append_right _ ((List.mem_cons.mp hf).resolve_left hfe)
      rw [decode_text hes hf (hothers f hmem), rescans_text_iff hes hf hfe, List.length_cons,
        List.length_cons]
      exact ih.imp (And.imp_right Nat.succ_lt_succ) (And.imp_right (congrArg (f.char :: ·)))

theorem decode_eq_decodeOnce_iff (text : List α) :
    decode mark (before ++ e :: after) text = decodeOnce mark (before ++ e :: after) text ↔
      ¬ Rescans mark e after text := by
  rcases decode_cases hes hchar hothers text with ⟨hrescans, hlt⟩ | ⟨hnot, heq⟩
  · exact iff_of_false (fun heq => hlt.ne (congrArg List.length heq)) (not_not_intro hrescans)
  · exact iff_of_true heq hnot

end Mark

section Escape

theorem escape_cons (mark c : α) (es : List (Entity α)) (text : List α) :
    escape mark es (c :: text) = escapeChar mark es c ++ escape mark es text :=
  List.flatMap_cons

theorem escapeChar_cases (hmark : ∃ e ∈ es, e.char = mark) (c : α) :
    (∃ e ∈ es, e.char = c ∧ escapeChar mark es c = e.text mark) ∨
      c ≠ mark ∧ escapeChar mark es c = [c] := by
  unfold escapeChar
  cases hfind : es.find? fun e => e.char = c with
  | some e =>
    exact .inl ⟨e, List.mem_of_find?_eq_some hfind, by simpa using List.find?_some hfind, rfl⟩
  | none =>
    refine .inr ⟨?_, rfl⟩
    rintro rfl
    obtain ⟨e, he, hchar⟩ := hmark
    exact List.find?_eq_none.mp hfind e he (decide_eq_true hchar)

theorem decodeOnce_escape (hes : Separate mark es) (hmark : ∃ e ∈ es, e.char = mark)
    (text : List α) : decodeOnce mark es (escape mark es text) = text := by
  induction text with
  | nil => rfl
  | cons c text ih =>
    rw [escape_cons]
    rcases escapeChar_cases hmark c with ⟨e, he, rfl, heq⟩ | ⟨hne, heq⟩
    · rw [heq, decodeOnce_text hes he, ih]
    · rw [heq, List.singleton_append, decodeOnce_cons fun e _ => not_prefix_of_ne hne, ih]

theorem prefix_escape_iff (hmark : ∃ e ∈ es, e.char = mark) (hword : mark ∉ word)
    (hchar : ∀ e ∈ es, e.char ∉ word) : word <+: escape mark es text ↔ word <+: text := by
  induction word generalizing text with
  | nil => exact iff_of_true List.nil_prefix List.nil_prefix
  | cons a word ih =>
    rw [List.mem_cons, not_or] at hword
    cases text with
    | nil => rfl
    | cons c text =>
      rw [escape_cons]
      rcases escapeChar_cases hmark c with ⟨e, he, rfl, heq⟩ | ⟨-, heq⟩
      · rw [heq]
        refine iff_of_false (fun h => hword.1 (List.cons_prefix_cons.mp h).1.symm) fun h => ?_
        exact hchar e he ((List.cons_prefix_cons.mp h).1 ▸ List.mem_cons_self)
      · rw [heq, List.singleton_append, List.cons_prefix_cons, List.cons_prefix_cons,
          ih hword.2 fun e he hmem => hchar e he (List.mem_cons_of_mem a hmem)]

/-- The escape of a text is rescanned where the text itself has an entity. -/
theorem rescans_escape_iff (hes : Separate mark (before ++ e :: after)) (hchar : e.char = mark)
    (hothers : ∀ e' ∈ before ++ after, e'.char ≠ mark) (text : List α) :
    Rescans mark e after (escape mark (before ++ e :: after) text) ↔
      ∃ e' ∈ after, e'.text mark <:+: text := by
  have hmem : e ∈ before ++ e :: after := List.mem_append_right _ List.mem_cons_self
  induction text with
  | nil =>
    refine exists_congr fun e' => and_congr_right fun _ => ?_
    refine iff_of_false (fun h => ?_) fun h => ?_
    · cases List.infix_nil.mp h
    · cases List.infix_nil.mp h
  | cons c text ih =>
    have hskip (hne : c ≠ mark) : (∃ e' ∈ after, e'.text mark <:+: [c] ++ text) ↔
        ∃ e' ∈ after, e'.text mark <:+: text :=
      exists_congr fun e' => and_congr_right fun _ =>
        infix_append_iff fun h => hne (List.mem_singleton.mp h).symm
    rw [escape_cons]
    rcases escapeChar_cases ⟨e, hmem, hchar⟩ c with ⟨f, hf, rfl, heq⟩ | ⟨hne, heq⟩
    · rw [heq]
      by_cases hfe : f = e
      · subst hfe
        refine (rescans_mark_iff hes _).trans ((or_congr_right ih).trans ?_)
        rw [hchar, ← exists_or]
        refine exists_congr fun e' => ?_
        rw [← and_or_left, Entity.text, List.infix_cons_iff, List.cons_prefix_cons,
          eq_self_iff_true, true_and]
        refine and_congr_right fun he' => or_congr_left ?_
        refine prefix_escape_iff ⟨f, hmem, hchar⟩ ?_ ?_
        · exact hes.mark_notMem e' (List.mem_append_right _ (List.mem_cons_of_mem _ he'))
        · exact fun g hg => hes.char_notMem g hg e'
            (List.mem_append_right _ (List.mem_cons_of_mem _ he'))
      · refine (rescans_text_iff hes hf hfe _).trans (ih.trans (hskip (hothers f ?_)).symm)
        rcases List.mem_append.mp hf with hf | hf
        · exact List.mem_append_left _ hf
        · exact List.mem_append_right _ ((List.mem_cons.mp hf).resolve_left hfe)
    · rw [heq]
      refine Iff.trans ?_ (ih.trans (hskip hne).symm)
      exact exists_congr fun e' => and_congr_right fun _ =>
        infix_append_iff fun h => hne (List.mem_singleton.mp h).symm

end Escape

end KiroProxy.Entities
