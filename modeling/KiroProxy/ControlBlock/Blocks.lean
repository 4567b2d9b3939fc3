import KiroProxy.ControlBlock.Search

/-!
# The rule of the control blocks

Each kind of block is recognised the same way in every longer text, and `is_partial_control_block`
accepts the proper beginnings of every kind. Fixed blocks that are not beginnings of each other
and do not start with the tag of another kind therefore make up a rule for removing blocks from a
growing text.
-/

namespace KiroProxy.ControlBlock

open Matching
open Excision (Recognises)

def literalBegins (block text : List Char) : Bool :=
  decide (text.length < block.length) && text.isPrefixOf block

variable {block text : List Char} {n : ℕ} {tail opening : List Char}
  {insideBegins : List Char → Bool} {after closing pattern tag tag' : List Char}

theorem literalBegins_iff :
    literalBegins block text = true ↔ text.length < block.length ∧ text <+: block := by
  rw [literalBegins, Bool.and_eq_true, decide_eq_true_eq, List.isPrefixOf_iff_prefix]

theorem literalAt_eq_some_iff :
    literalAt block text = some n ↔ block <+: text ∧ n = block.length := by
  rw [literalAt]
  split_ifs with h
  · simp [h, eq_comm]
  · simp [h]

theorem prefix_of_append_of_le (h : block <+: text ++ tail) (hle : block.length ≤ text.length) :
    block <+: text :=
  List.prefix_of_prefix_length_le h (List.prefix_append _ _) hle

theorem prefix_of_append_of_lt (h : block <+: text ++ tail) (hlt : text.length < block.length) :
    text <+: block :=
  List.prefix_of_prefix_length_le (List.prefix_append _ _) h hlt.le

theorem recognises_literalAt (hne : block ≠ []) :
    Recognises (literalAt block) (literalBegins block) where
  pos h := by
    rw [(literalAt_eq_some_iff.mp h).2]
    exact List.length_pos_of_ne_nil hne
  le_length h := by
    obtain ⟨hstarts, rfl⟩ := literalAt_eq_some_iff.mp h
    exact hstarts.length_le
  stable tail h := by
    obtain ⟨hstarts, rfl⟩ := literalAt_eq_some_iff.mp h
    exact literalAt_eq_some_iff.mpr ⟨hstarts.trans (List.prefix_append _ tail), rfl⟩
  settled h hle := by
    obtain ⟨hstarts, rfl⟩ := literalAt_eq_some_iff.mp h
    exact literalAt_eq_some_iff.mpr ⟨prefix_of_append_of_le hstarts hle, rfl⟩
  begins_of_match h hlt _ := by
    obtain ⟨hstarts, rfl⟩ := literalAt_eq_some_iff.mp h
    exact literalBegins_iff.mpr ⟨hlt, prefix_of_append_of_lt hstarts hlt⟩
  begins_of_append h _ := by
    obtain ⟨hlt, hstarts⟩ := literalBegins_iff.mp h
    rw [List.length_append] at hlt
    exact literalBegins_iff.mpr ⟨by omega, (List.prefix_append _ _).trans hstarts⟩

def tagBegins (opening : List Char) (insideBegins : List Char → Bool) (text : List Char) : Bool :=
  text.isPrefixOf opening ||
    (opening.isPrefixOf text && insideBegins (text.drop opening.length))

theorem tagAt_eq_some_iff {inside : List Char → Option ℕ} :
    tagAt opening inside text = some n ↔
      ∃ after m, text = opening ++ after ∧ inside after = some m ∧ n = opening.length + m := by
  rw [tagAt]
  split_ifs with h
  · obtain ⟨after, rfl⟩ := h
    rw [List.drop_left, Option.map_eq_some_iff]
    constructor
    · rintro ⟨m, hm, rfl⟩
      exact ⟨after, m, rfl, hm, rfl⟩
    · rintro ⟨after', m, heq, hm, rfl⟩
      rw [List.append_cancel_left heq]
      exact ⟨m, hm, rfl⟩
  · constructor
    · intro hnone
      cases hnone
    · rintro ⟨after, m, rfl, -, -⟩
      exact absurd (List.prefix_append _ _) h

theorem tagBegins_iff :
    tagBegins opening insideBegins text = true ↔
      text <+: opening ∨ ∃ after, text = opening ++ after ∧ insideBegins after = true := by
  rw [tagBegins, Bool.or_eq_true, Bool.and_eq_true, List.isPrefixOf_iff_prefix,
    List.isPrefixOf_iff_prefix]
  constructor
  · rintro (h | ⟨⟨after, rfl⟩, h⟩)
    · exact Or.inl h
    · rw [List.drop_left] at h
      exact Or.inr ⟨after, rfl, h⟩
  · rintro (h | ⟨after, rfl, h⟩)
    · exact Or.inl h
    · rw [List.drop_left]
      exact Or.inr ⟨List.prefix_append _ _, h⟩

theorem prefix_or_append (h : text ++ tail = opening ++ after) :
    text <+: opening ∨ ∃ inner, inner ≠ [] ∧ text = opening ++ inner ∧ after = inner ++ tail := by
  rcases List.append_eq_append_iff.mp h with ⟨rest, hopening, -⟩ | ⟨inner, htext, hafter⟩
  · exact Or.inl ⟨rest, hopening.symm⟩
  · by_cases hinner : inner = []
    · rw [hinner, List.append_nil] at htext
      exact Or.inl (htext ▸ List.prefix_refl _)
    · exact Or.inr ⟨inner, hinner, htext, hafter⟩

theorem recognises_tagAt (opening : List Char) {inside : List Char → Option ℕ}
    (h : Recognises inside insideBegins) :
    Recognises (tagAt opening inside) (tagBegins opening insideBegins) where
  pos hmatch := by
    obtain ⟨after, m, -, hm, rfl⟩ := tagAt_eq_some_iff.mp hmatch
    have hpos := h.pos hm
    omega
  le_length hmatch := by
    obtain ⟨after, m, rfl, hm, rfl⟩ := tagAt_eq_some_iff.mp hmatch
    rw [List.length_append]
    exact Nat.add_le_add_left (h.le_length hm) _
  stable tail hmatch := by
    obtain ⟨after, m, rfl, hm, rfl⟩ := tagAt_eq_some_iff.mp hmatch
    exact tagAt_eq_some_iff.mpr
      ⟨after ++ tail, m, List.append_assoc _ _ _, h.stable tail hm, rfl⟩
  settled hmatch hle := by
    obtain ⟨after, m, heq, hm, rfl⟩ := tagAt_eq_some_iff.mp hmatch
    have hpos := h.pos hm
    rcases prefix_or_append heq with hstarts | ⟨inner, -, rfl, rfl⟩
    · have hlength := hstarts.length_le
      omega
    · rw [List.length_append] at hle
      exact tagAt_eq_some_iff.mpr ⟨inner, m, rfl, h.settled hm (by omega), rfl⟩
  begins_of_match hmatch hlt _ := by
    obtain ⟨after, m, heq, hm, rfl⟩ := tagAt_eq_some_iff.mp hmatch
    apply tagBegins_iff.mpr
    rcases prefix_or_append heq with hstarts | ⟨inner, hne, rfl, rfl⟩
    · exact Or.inl hstarts
    · rw [List.length_append] at hlt
      exact Or.inr ⟨inner, rfl, h.begins_of_match hm (by omega) hne⟩
  begins_of_append happend _ := by
    apply tagBegins_iff.mpr
    rcases tagBegins_iff.mp happend with hstarts | ⟨after, heq, hbegins⟩
    · exact Or.inl ((List.prefix_append _ _).trans hstarts)
    · rcases prefix_or_append heq with hstarts | ⟨inner, hne, rfl, rfl⟩
      · exact Or.inl hstarts
      · exact Or.inr ⟨inner, rfl, h.begins_of_append hbegins hne⟩

def maxLengthBegins (after : List Char) : Bool :=
  let digits := (after.takeWhile Char.isDigit).length
  decide (digits ≤ maxLengthDigits) &&
    decide ((after.drop digits).length < maxLengthClose.length) &&
    (after.drop digits).isPrefixOf maxLengthClose

theorem takeWhile_digits_append (text tail : List Char) :
    (text.takeWhile Char.isDigit).length = text.length ∧
        text.length ≤ ((text ++ tail).takeWhile Char.isDigit).length ∨
      (text.takeWhile Char.isDigit).length < text.length ∧
        (text ++ tail).takeWhile Char.isDigit = text.takeWhile Char.isDigit := by
  rw [List.takeWhile_append]
  split_ifs with h
  · left
    rw [List.length_append]
    exact ⟨h, Nat.le_add_right _ _⟩
  · right
    have hle := (List.takeWhile_prefix Char.isDigit (l := text)).length_le
    exact ⟨lt_of_le_of_ne hle h, rfl⟩

theorem maxLengthInside_eq_some_iff :
    maxLengthInside after = some n ↔
      (1 ≤ (after.takeWhile Char.isDigit).length ∧
        (after.takeWhile Char.isDigit).length ≤ maxLengthDigits ∧
        maxLengthClose <+: after.drop (after.takeWhile Char.isDigit).length) ∧
      n = (after.takeWhile Char.isDigit).length + maxLengthClose.length := by
  rw [maxLengthInside]
  split_ifs with h
  · simp [h, eq_comm]
  · simp [h]

theorem maxLengthBegins_iff :
    maxLengthBegins after = true ↔
      (after.takeWhile Char.isDigit).length ≤ maxLengthDigits ∧
        (after.drop (after.takeWhile Char.isDigit).length).length < maxLengthClose.length ∧
        after.drop (after.takeWhile Char.isDigit).length <+: maxLengthClose := by
  rw [maxLengthBegins, Bool.and_eq_true, Bool.and_eq_true, decide_eq_true_eq, decide_eq_true_eq,
    List.isPrefixOf_iff_prefix, and_assoc]

theorem maxLengthBegins_of_digits (hall : (after.takeWhile Char.isDigit).length = after.length)
    (hle : after.length ≤ maxLengthDigits) : maxLengthBegins after = true := by
  rw [maxLengthBegins_iff, hall, List.drop_length]
  exact ⟨hle, by decide, List.nil_prefix⟩

theorem recognises_maxLengthInside : Recognises maxLengthInside maxLengthBegins where
  pos h := by
    obtain ⟨⟨hone, -, -⟩, rfl⟩ := maxLengthInside_eq_some_iff.mp h
    omega
  le_length h := by
    obtain ⟨⟨-, -, hstarts⟩, rfl⟩ := maxLengthInside_eq_some_iff.mp h
    have hlength := hstarts.length_le
    have hpos : 0 < maxLengthClose.length := by decide
    rw [List.length_drop] at hlength
    omega
  stable {text n} tail h := by
    obtain ⟨⟨hone, hten, hstarts⟩, rfl⟩ := maxLengthInside_eq_some_iff.mp h
    have hlength := hstarts.length_le
    have hpos : 0 < maxLengthClose.length := by decide
    rw [List.length_drop] at hlength
    rcases takeWhile_digits_append text tail with ⟨hall, -⟩ | ⟨hlt, hsame⟩
    · omega
    · rw [maxLengthInside_eq_some_iff, hsame, List.drop_append_of_le_length hlt.le]
      exact ⟨⟨hone, hten, hstarts.trans (List.prefix_append _ _)⟩, rfl⟩
  settled {text tail n} h hle := by
    obtain ⟨⟨hone, hten, hstarts⟩, rfl⟩ := maxLengthInside_eq_some_iff.mp h
    have hpos : 0 < maxLengthClose.length := by decide
    rcases takeWhile_digits_append text tail with ⟨-, hlonger⟩ | ⟨hlt, hsame⟩
    · omega
    · rw [hsame, List.drop_append_of_le_length hlt.le] at hstarts
      rw [hsame] at hone hten hle
      rw [maxLengthInside_eq_some_iff, hsame]
      exact ⟨⟨hone, hten, prefix_of_append_of_le hstarts (by rw [List.length_drop]; omega)⟩, rfl⟩
  begins_of_match {text tail n} h hlt _ := by
    obtain ⟨⟨hone, hten, hstarts⟩, rfl⟩ := maxLengthInside_eq_some_iff.mp h
    rcases takeWhile_digits_append text tail with ⟨hall, hlonger⟩ | ⟨hdigits, hsame⟩
    · exact maxLengthBegins_of_digits hall (hlonger.trans hten)
    · rw [hsame, List.drop_append_of_le_length hdigits.le] at hstarts
      rw [hsame] at hten hlt
      have hshort : (text.drop (text.takeWhile Char.isDigit).length).length <
          maxLengthClose.length := by
        rw [List.length_drop]
        omega
      exact maxLengthBegins_iff.mpr ⟨hten, hshort, prefix_of_append_of_lt hstarts hshort⟩
  begins_of_append {text tail} h _ := by
    obtain ⟨hten, hshort, hstarts⟩ := maxLengthBegins_iff.mp h
    rcases takeWhile_digits_append text tail with ⟨hall, hlonger⟩ | ⟨hdigits, hsame⟩
    · exact maxLengthBegins_of_digits hall (hlonger.trans hten)
    · rw [hsame, List.drop_append_of_le_length hdigits.le] at hshort hstarts
      rw [hsame] at hten
      rw [List.length_append] at hshort
      exact maxLengthBegins_iff.mpr
        ⟨hten, by omega, (List.prefix_append _ _).trans hstarts⟩

def boundedBegins (opening closing after : List Char) : Bool :=
  decide (utf8Length (opening ++ after) ≤ languageReminderMaxBytes) && !contains after closing

theorem boundedInside_eq_some_iff :
    boundedInside opening closing after = some n ↔
      ∃ rel, find closing after = some rel ∧
        utf8Length (opening ++ after.take (rel + closing.length)) ≤ languageReminderMaxBytes ∧
        n = rel + closing.length := by
  rw [boundedInside]
  cases find closing after with
  | none => simp
  | some rel =>
    dsimp only
    split_ifs with h
    · simp [h, eq_comm]
    · simp [h]

theorem contains_iff : contains text pattern = true ↔ ∃ p, OccursAt pattern text p := by
  rw [contains, Option.isSome_iff_ne_none, ne_eq, find_eq_none_iff, not_forall]
  simp only [not_not]

theorem boundedBegins_iff :
    boundedBegins opening closing after = true ↔
      utf8Length (opening ++ after) ≤ languageReminderMaxBytes ∧
        ∀ p, ¬ OccursAt closing after p := by
  rw [boundedBegins, Bool.and_eq_true, decide_eq_true_eq, Bool.not_eq_true', ← not_exists,
    ← contains_iff, Bool.not_eq_true]

theorem find_append (hne : pattern ≠ []) {p : ℕ} (h : find pattern text = some p) (tail : List Char) :
    find pattern (text ++ tail) = some p := by
  obtain ⟨hocc, hfirst⟩ := find_eq_some_iff.mp h
  have hle := hocc.add_length_le hne
  refine find_eq_some_iff.mpr ⟨hocc.append tail (by omega), fun q hq hocc' => ?_⟩
  exact hfirst q hq (hocc'.of_append (by omega))

theorem find_of_append (hne : pattern ≠ []) {p : ℕ} (h : find pattern (text ++ tail) = some p)
    (hle : p + pattern.length ≤ text.length) : find pattern text = some p := by
  obtain ⟨hocc, hfirst⟩ := find_eq_some_iff.mp h
  refine find_eq_some_iff.mpr ⟨hocc.of_append hle, fun q hq hocc' => ?_⟩
  have hle' := hocc'.add_length_le hne
  exact hfirst q hq (hocc'.append tail (by omega))

theorem recognises_boundedInside (opening : List Char) (hne : closing ≠ []) :
    Recognises (boundedInside opening closing) (boundedBegins opening closing) where
  pos h := by
    obtain ⟨rel, -, -, rfl⟩ := boundedInside_eq_some_iff.mp h
    have hpos := List.length_pos_of_ne_nil hne
    omega
  le_length h := by
    obtain ⟨rel, hfind, -, rfl⟩ := boundedInside_eq_some_iff.mp h
    exact (find_eq_some_iff.mp hfind).1.add_length_le hne
  stable tail h := by
    obtain ⟨rel, hfind, hsize, rfl⟩ := boundedInside_eq_some_iff.mp h
    have hle := (find_eq_some_iff.mp hfind).1.add_length_le hne
    rw [boundedInside_eq_some_iff]
    refine ⟨rel, find_append hne hfind tail, ?_, rfl⟩
    rwa [List.take_append_of_le_length hle]
  settled h hle := by
    obtain ⟨rel, hfind, hsize, rfl⟩ := boundedInside_eq_some_iff.mp h
    rw [List.take_append_of_le_length hle] at hsize
    exact boundedInside_eq_some_iff.mpr ⟨rel, find_of_append hne hfind hle, hsize, rfl⟩
  begins_of_match {text tail n} h hlt _ := by
    obtain ⟨rel, hfind, hsize, rfl⟩ := boundedInside_eq_some_iff.mp h
    rw [List.take_append, List.take_of_length_le hlt.le, ← List.append_assoc, utf8Length_append]
      at hsize
    refine boundedBegins_iff.mpr ⟨by omega, fun p hocc => ?_⟩
    have hle := hocc.add_length_le hne
    exact (find_eq_some_iff.mp hfind).2 p (by omega) (hocc.append tail (by omega))
  begins_of_append {text tail} h _ := by
    obtain ⟨hsize, hfree⟩ := boundedBegins_iff.mp h
    rw [← List.append_assoc, utf8Length_append] at hsize
    refine boundedBegins_iff.mpr ⟨by omega, fun p hocc => ?_⟩
    have hle := hocc.add_length_le hne
    exact hfree p (hocc.append tail (by omega))

/-- A set of fixed control blocks like the injected ones: they start with a control tag, none is
the beginning of another one, and none starts with the tag of another kind of block. -/
structure ControlBlocks where
  literals : List (List Char)
  tagged : ∀ block ∈ literals, ∃ tag ∈ controlTagNames, tag <+: block
  apart : literals.Pairwise fun block block' => ¬ block <+: block' ∧ ¬ block' <+: block
  otherTag : ∀ block ∈ literals,
    ∀ tag ∈ [maxLengthOpen, languageReminderOpen, identityReminderOpen], ¬ tag <+: block

def injected : ControlBlocks where
  literals := literalBlocks
  tagged := by decide +kernel
  apart := by decide +kernel
  otherTag := by decide +kernel

theorem literalAt_findSome? {literals : List (List Char)}
    (h : (literals.findSome? fun block => literalAt block text) = some n) :
    ∃ block ∈ literals, block <+: text := by
  obtain ⟨block, hblock, hat⟩ := List.exists_of_findSome?_eq_some h
  exact ⟨block, hblock, (literalAt_eq_some_iff.mp hat).1⟩

theorem recognises_literals {literals : List (List Char)} (hne : ∀ block ∈ literals, block ≠ [])
    (hapart : literals.Pairwise fun block block' => ¬ block <+: block' ∧ ¬ block' <+: block) :
    Recognises (fun text => literals.findSome? fun block => literalAt block text)
      (fun text => literals.any fun block => literalBegins block text) := by
  induction literals with
  | nil =>
    constructor
    all_goals
      intros
      simp_all
  | cons block literals ih =>
    obtain ⟨hhead, htail⟩ := List.pairwise_cons.mp hapart
    have hblock := recognises_literalAt (hne block List.mem_cons_self)
    have hrest := ih (fun b hb => hne b (List.mem_cons_of_mem _ hb)) htail
    have hor := hblock.or hrest (by
      intro text hbegins
      cases hfound : literals.findSome? fun block => literalAt block text with
      | none => rfl
      | some n =>
        obtain ⟨block', hmem, hstarts⟩ := literalAt_findSome? hfound
        exact absurd (hstarts.trans (literalBegins_iff.mp hbegins).2) (hhead block' hmem).2)
    have hfind : (fun text => (block :: literals).findSome? fun block => literalAt block text) =
        fun text => (literalAt block text).or
          (literals.findSome? fun block => literalAt block text) := by
      funext text
      rw [List.findSome?_cons]
      cases literalAt block text with
      | none => rfl
      | some n => rfl
    rw [hfind]
    exact hor

/-- Two tags of which none is the beginning of the other. -/
def Apart (tag tag' : List Char) : Prop := ¬ tag <+: tag' ∧ ¬ tag' <+: tag

theorem Apart.tagBegins (h : Apart tag tag') (hstarts : tag' <+: text)
    (insideBegins : List Char → Bool) : tagBegins tag insideBegins text = false := by
  cases hbegins : ControlBlock.tagBegins tag insideBegins text with
  | false => rfl
  | true =>
    rcases tagBegins_iff.mp hbegins with hshort | ⟨after, rfl, -⟩
    · exact absurd (hstarts.trans hshort) h.2
    · rcases List.prefix_or_prefix_of_prefix hstarts (List.prefix_append tag after) with h' | h'
      · exact absurd h' h.2
      · exact absurd h' h.1

theorem Apart.symm (h : Apart tag tag') : Apart tag' tag := ⟨h.2, h.1⟩

theorem Apart.tagAt (h : Apart tag tag')
    (hbegins : ControlBlock.tagBegins tag insideBegins text = true) (inside : List Char → Option ℕ) :
    tagAt tag' inside text = none := by
  cases hmatch : ControlBlock.tagAt tag' inside text with
  | none => rfl
  | some n =>
    obtain ⟨after, m, rfl, -, -⟩ := tagAt_eq_some_iff.mp hmatch
    rw [h.tagBegins (List.prefix_append tag' after)] at hbegins
    cases hbegins

theorem openings_apart :
    Apart maxLengthOpen languageReminderOpen ∧ Apart maxLengthOpen identityReminderOpen ∧
      Apart languageReminderOpen identityReminderOpen := by
  unfold Apart
  decide

theorem closings_ne_nil : languageReminderClose ≠ [] ∧ identityReminderClose ≠ [] := by
  decide

def languageBegins : List Char → Bool :=
  tagBegins languageReminderOpen (boundedBegins languageReminderOpen languageReminderClose)

def identityBegins : List Char → Bool :=
  tagBegins identityReminderOpen (boundedBegins identityReminderOpen identityReminderClose)

theorem recognises_formsAt :
    Recognises (fun text => formsAt.findSome? fun matchAt => matchAt text)
      (fun text => tagBegins maxLengthOpen maxLengthBegins text ||
        (languageBegins text || identityBegins text)) := by
  obtain ⟨hlanguage, hidentity, hreminders⟩ := openings_apart
  have hmax := recognises_tagAt maxLengthOpen recognises_maxLengthInside
  have hlang := recognises_tagAt languageReminderOpen
    (recognises_boundedInside languageReminderOpen closings_ne_nil.1)
  have hident := recognises_tagAt identityReminderOpen
    (recognises_boundedInside identityReminderOpen closings_ne_nil.2)
  have hboth := hlang.or hident fun text hbegins => hreminders.tagAt hbegins _
  have hall := hmax.or hboth (by
    intro text hbegins
    rw [hlanguage.tagAt hbegins, hidentity.tagAt hbegins]
    rfl)
  have hforms : (fun text => formsAt.findSome? fun matchAt => matchAt text) = fun text =>
      (tagAt maxLengthOpen maxLengthInside text).or
        ((tagAt languageReminderOpen
          (boundedInside languageReminderOpen languageReminderClose) text).or
          (tagAt identityReminderOpen
            (boundedInside identityReminderOpen identityReminderClose) text)) := by
    funext text
    rw [formsAt]
    simp only [List.findSome?_cons, List.findSome?_nil]
    cases tagAt maxLengthOpen maxLengthInside text <;>
      cases tagAt languageReminderOpen _ text <;> cases tagAt identityReminderOpen _ text <;> rfl
  rw [hforms]
  exact hall

theorem partialReminder_getD (opening closing candidate : List Char) :
    (partialReminder opening closing candidate).getD false =
      tagBegins opening (boundedBegins opening closing) candidate := by
  rw [partialReminder, tagBegins]
  split_ifs with h h'
  · simp [List.isPrefixOf_iff_prefix.mpr h]
  · obtain ⟨after, rfl⟩ := h'
    rw [← List.isPrefixOf_iff_prefix, Bool.not_eq_true] at h
    rw [h, List.isPrefixOf_iff_prefix.mpr (List.prefix_append _ _), List.drop_left]
    rfl
  · rw [← List.isPrefixOf_iff_prefix, Bool.not_eq_true] at h h'
    rw [h, h']
    rfl

theorem prefix_of_partialReminder {opening closing candidate : List Char}
    (h : partialReminder opening closing candidate = some false) : opening <+: candidate := by
  rw [partialReminder] at h
  split_ifs at h with h' h''
  · cases h
  · exact h''

theorem isPartialMaxLength_eq (candidate : List Char) :
    isPartialMaxLength candidate = tagBegins maxLengthOpen maxLengthBegins candidate := by
  rw [isPartialMaxLength, tagBegins]
  split_ifs with h h'
  · simp [List.isPrefixOf_iff_prefix.mpr h]
  · rw [← List.isPrefixOf_iff_prefix, Bool.not_eq_true] at h
    rw [h, List.isPrefixOf_iff_prefix.mpr h']
    rfl
  · rw [← List.isPrefixOf_iff_prefix, Bool.not_eq_true] at h h'
    rw [h, h']
    rfl

/-- The early returns do not hide another kind of block. -/
theorem isPartialControlBlock_eq (literals : List (List Char)) (candidate : List Char) :
    isPartialControlBlock literals candidate =
      ((literals.any fun block => literalBegins block candidate) ||
        (tagBegins maxLengthOpen maxLengthBegins candidate ||
          (languageBegins candidate || identityBegins candidate))) := by
  obtain ⟨hlanguage, hidentity, hreminders⟩ := openings_apart
  have hlang := partialReminder_getD languageReminderOpen languageReminderClose candidate
  have hident := partialReminder_getD identityReminderOpen identityReminderClose candidate
  rw [isPartialControlBlock, isPartialMaxLength_eq, languageBegins, identityBegins, ← hlang,
    ← hident]
  change (if (literals.any fun block => literalBegins block candidate) = true then _ else _) = _
  cases literals.any fun block => literalBegins block candidate with
  | true => rfl
  | false =>
    rw [if_neg (by simp), Bool.false_or]
    cases hl : partialReminder languageReminderOpen languageReminderClose candidate with
    | some result =>
      cases result with
      | true => simp
      | false =>
        have hopening := prefix_of_partialReminder hl
        rw [hident, hlanguage.tagBegins hopening, hreminders.symm.tagBegins hopening]
        rfl
    | none =>
      cases hi : partialReminder identityReminderOpen identityReminderClose candidate with
      | some result =>
        cases result with
        | true => simp
        | false =>
          have hopening := prefix_of_partialReminder hi
          rw [hidentity.tagBegins hopening]
          rfl
      | none => simp

theorem head?_eq_of_isPrefix {text longer : List Char} (h : text <+: longer) (hne : text ≠ []) :
    text.head? = longer.head? := by
  obtain ⟨tail, rfl⟩ := h
  rw [List.head?_append_of_ne_nil text hne]

theorem head?_of_tagBegins (hopening : IsTag opening)
    (h : tagBegins opening insideBegins text = true) (hne : text ≠ []) : text.head? = some '<' := by
  rw [← hopening.1]
  rcases tagBegins_iff.mp h with hstarts | ⟨after, rfl, -⟩
  · exact head?_eq_of_isPrefix hstarts hne
  · exact List.head?_append_of_ne_nil opening hopening.ne_nil

namespace ControlBlocks

theorem head?_of_mem (blocks : ControlBlocks) {block : List Char} (h : block ∈ blocks.literals) :
    block.head? = some '<' := by
  have htags : ∀ tag ∈ controlTagNames, tag ≠ [] ∧ tag.head? = some '<' := by decide
  obtain ⟨tag, htag, hstarts⟩ := blocks.tagged block h
  rw [← head?_eq_of_isPrefix hstarts (htags tag htag).1]
  exact (htags tag htag).2

theorem ne_nil (blocks : ControlBlocks) {block : List Char} (h : block ∈ blocks.literals) :
    block ≠ [] := by
  intro hnil
  have hhead := blocks.head?_of_mem h
  rw [hnil] at hhead
  cases hhead

def begins (blocks : ControlBlocks) (text : List Char) : Bool :=
  text.head? == some '<' && isPartialControlBlock blocks.literals text

variable {text : List Char}

theorem formsAt_of_literalBegins (blocks : ControlBlocks)
    (h : (blocks.literals.any fun block => literalBegins block text) = true) :
    (formsAt.findSome? fun matchAt => matchAt text) = none := by
  obtain ⟨block, hblock, hbegins⟩ := List.any_eq_true.mp h
  have hstarts := (literalBegins_iff.mp hbegins).2
  have hnone : ∀ tag ∈ [maxLengthOpen, languageReminderOpen, identityReminderOpen], ∀ inside,
      tagAt tag inside text = none := by
    intro tag htag inside
    cases hmatch : tagAt tag inside text with
    | none => rfl
    | some n =>
      obtain ⟨after, m, rfl, -, -⟩ := tagAt_eq_some_iff.mp hmatch
      exact absurd ((List.prefix_append tag after).trans hstarts)
        (blocks.otherTag block hblock tag htag)
  rw [List.findSome?_eq_none_iff, formsAt]
  simp only [List.mem_cons, List.not_mem_nil, or_false, forall_eq_or_imp, forall_eq]
  exact ⟨hnone _ (by simp) _, hnone _ (by simp) _, hnone _ (by simp) _⟩

theorem head?_of_begins (blocks : ControlBlocks)
    (h : isPartialControlBlock blocks.literals text = true) (hne : text ≠ []) :
    text.head? = some '<' := by
  obtain ⟨hmax, hlanguage, hidentity⟩ := isTag_openings
  rw [isPartialControlBlock_eq, Bool.or_eq_true, Bool.or_eq_true, Bool.or_eq_true] at h
  rcases h with h | h | h | h
  · obtain ⟨block, hblock, hbegins⟩ := List.any_eq_true.mp h
    rw [head?_eq_of_isPrefix (literalBegins_iff.mp hbegins).2 hne]
    exact blocks.head?_of_mem hblock
  · exact head?_of_tagBegins hmax h hne
  · exact head?_of_tagBegins hlanguage h hne
  · exact head?_of_tagBegins hidentity h hne

theorem recognises (blocks : ControlBlocks) :
    Recognises (blockAt blocks.literals) blocks.begins := by
  have hliterals := recognises_literals (fun _ h => blocks.ne_nil h) blocks.apart
  have hor := hliterals.or recognises_formsAt fun text hbegins =>
    blocks.formsAt_of_literalBegins hbegins
  have hblock : blockAt blocks.literals = fun text =>
      (blocks.literals.findSome? fun block => literalAt block text).or
        (formsAt.findSome? fun matchAt => matchAt text) := by
    funext text
    rw [blockAt, List.findSome?_append, List.findSome?_map]
    rfl
  rw [hblock]
  apply hor.congr
  intro text hne
  rw [begins, ← isPartialControlBlock_eq]
  cases hpartial : isPartialControlBlock blocks.literals text with
  | false => rw [Bool.and_false]
  | true =>
    rw [blocks.head?_of_begins hpartial hne]
    rfl

def rule (blocks : ControlBlocks) : Excision.Rule Char where
  block := blockAt blocks.literals
  begins := blocks.begins
  isSeparator c := c == '\n'
  recognises := blocks.recognises

variable (blocks : ControlBlocks)

theorem stripNewline_eq (text : List Char) :
    stripNewline text = blocks.rule.skipSeparator text := by
  cases text with
  | nil => rfl
  | cons c text =>
    by_cases hc : c = '\n'
    · subst hc
      rfl
    · have hskip : blocks.rule.skipSeparator (c :: text) = c :: text := if_neg (by simpa [rule] using hc)
      rw [hskip, stripNewline]
      intro rest hrest
      exact hc (List.cons.inj hrest).1

theorem findControlBlock_eq_find (text : List Char) :
    findControlBlock blocks.literals text =
      (Excision.find blocks.rule.block text).map toRange :=
  findControlBlock_eq (fun _ h => blocks.ne_nil h) text

theorem stripLoop_eq {fuel : ℕ} {rest : List Char} (hfuel : rest.length ≤ fuel)
    (output : List Char) (removed ended : Bool) :
    ∃ output' rest' ended',
      stripLoop blocks.literals fuel output rest removed ended =
        (output', rest', removed || (Excision.find blocks.rule.block rest).isSome, ended') ∧
      output' ++ rest' = output ++ (blocks.rule.excise rest).1 ∧
      (ended' && rest'.isEmpty) =
        if (Excision.find blocks.rule.block rest).isSome then (blocks.rule.excise rest).2
        else ended && rest.isEmpty := by
  induction fuel generalizing rest output removed ended with
  | zero =>
    have hnil : rest = [] := List.length_eq_zero_iff.mp (Nat.le_zero.mp hfuel)
    subst hnil
    exact ⟨output, [], ended, by simp [stripLoop, Excision.find], rfl, rfl⟩
  | succ fuel ih =>
    rw [stripLoop, findControlBlock_eq_find]
    cases hfind : Excision.find blocks.rule.block rest with
    | none =>
      refine ⟨output, rest, ended, by simp, ?_, rfl⟩
      rw [Excision.Rule.excise_of_none hfind]
    | some found =>
      obtain ⟨s, n⟩ := found
      have hlt := Excision.Rule.length_after_lt hfind
      dsimp only [Option.map_some, toRange]
      rw [stripNewline_eq]
      obtain ⟨output', rest', ended', hloop, houtput, hended⟩ :=
        ih (Nat.le_of_lt_succ (hlt.trans_le hfuel)) (output ++ rest.take s) true
          (rest.drop (s + n)).isEmpty
      refine ⟨output', rest', ended', ?_, ?_, ?_⟩
      · rw [hloop]
        simp
      · rw [houtput, Excision.Rule.excise_fst_of_some hfind, List.append_assoc]
      · rw [hended, Excision.Rule.excise_of_some hfind, Option.isSome_some, if_pos rfl]
        by_cases hnil : rest.drop (s + n) = []
        · rw [hnil]
          rfl
        · rw [if_neg hnil]
          cases hnext : Excision.find blocks.rule.block
              (blocks.rule.skipSeparator (rest.drop (s + n))) with
          | none =>
            rw [Excision.Rule.excise_of_none hnext]
            simp [hnil]
          | some found => rfl

theorem exists_tag_of_blockAt {n : ℕ} (h : blockAt blocks.literals text = some n) :
    ∃ tag ∈ controlTagNames, tag <+: text := by
  have hform : ∀ tag ∈ controlTagNames, ∀ inside, tagAt tag inside text = some n →
      ∃ tag ∈ controlTagNames, tag <+: text := by
    intro tag htag inside hmatch
    obtain ⟨after, -, rfl, -, -⟩ := tagAt_eq_some_iff.mp hmatch
    exact ⟨tag, htag, List.prefix_append _ _⟩
  obtain ⟨matchAt, hmem, hmatch⟩ := List.exists_of_findSome?_eq_some h
  rcases List.mem_append.mp hmem with hmem | hmem
  · obtain ⟨block, hblock, rfl⟩ := List.mem_map.mp hmem
    obtain ⟨tag, htag, hstarts⟩ := blocks.tagged block hblock
    exact ⟨tag, htag, hstarts.trans (literalAt_eq_some_iff.mp hmatch).1⟩
  · simp only [formsAt, List.mem_cons, List.not_mem_nil, or_false] at hmem
    rcases hmem with rfl | rfl | rfl
    · exact hform maxLengthOpen (by decide) _ hmatch
    · exact hform languageReminderOpen (by decide) _ hmatch
    · exact hform identityReminderOpen (by decide) _ hmatch

theorem find_of_not_contains (h : controlTagNames.any (contains text) = false) :
    Excision.find blocks.rule.block text = none := by
  rw [Excision.find_eq_none_iff]
  intro k _
  cases hblock : blocks.rule.block (text.drop k) with
  | none => rfl
  | some n =>
    obtain ⟨tag, htag, hstarts⟩ := blocks.exists_tag_of_blockAt hblock
    exact absurd (contains_iff.mpr ⟨k, hstarts⟩) (List.any_eq_false.mp h tag htag)

theorem stripControlBlocksWithTail_eq (text : List Char) :
    ((stripControlBlocksWithTail blocks.literals text).1.getD text,
        (stripControlBlocksWithTail blocks.literals text).2) =
      blocks.rule.excise text := by
  rw [stripControlBlocksWithTail]
  cases htags : controlTagNames.any (contains text) with
  | false =>
    rw [Excision.Rule.excise_of_none (blocks.find_of_not_contains htags)]
    rfl
  | true =>
    obtain ⟨output, rest, ended, hloop, houtput, hended⟩ :=
      blocks.stripLoop_eq (le_refl text.length) [] false false
    rw [hloop]
    cases hfind : Excision.find blocks.rule.block text with
    | none =>
      rw [Excision.Rule.excise_of_none hfind]
      rfl
    | some found =>
      rw [hfind, Option.isSome_some, if_pos rfl] at hended
      rw [List.nil_append] at houtput
      simp [houtput, hended]

theorem stripControlBlocks_eq (text : List Char) :
    stripControlBlocks blocks.literals text = (blocks.rule.excise text).1 := by
  rw [← blocks.stripControlBlocksWithTail_eq]
  rfl

theorem utf8Length_digits {digits : List Char} (h : ∀ c ∈ digits, c.isDigit = true) :
    utf8Length digits = digits.length := by
  induction digits with
  | nil => rfl
  | cons c digits ih =>
    have hc : c.isAlphanum = true := by
      simp [Char.isAlphanum, h c List.mem_cons_self]
    rw [utf8Length_cons, utf8Size_of_lt (lt_of_isAlphanum hc),
      ih fun d hd => h d (List.mem_cons_of_mem _ hd), List.length_cons, Nat.add_comm]

theorem utf8Length_of_maxLengthBegins {after : List Char} (h : maxLengthBegins after = true) :
    utf8Length after ≤ maxLengthDigits + utf8Length maxLengthClose := by
  obtain ⟨hten, -, hstarts⟩ := maxLengthBegins_iff.mp h
  have hdigits := utf8Length_digits fun c (hc : c ∈ after.takeWhile Char.isDigit) =>
    List.mem_takeWhile_imp hc
  have htail := utf8Length_le_of_isPrefix hstarts
  have hsplit := utf8Length_append (after.take (after.takeWhile Char.isDigit).length)
    (after.drop (after.takeWhile Char.isDigit).length)
  rw [List.take_append_drop, ← List.prefix_iff_eq_take.mp (List.takeWhile_prefix _)] at hsplit
  omega

theorem utf8Length_of_boundedTag {opening closing text : List Char}
    (hopening : utf8Length opening ≤ languageReminderMaxBytes)
    (h : tagBegins opening (boundedBegins opening closing) text = true) :
    utf8Length text ≤ languageReminderMaxBytes := by
  rcases tagBegins_iff.mp h with hstarts | ⟨after, rfl, hbegins⟩
  · exact (utf8Length_le_of_isPrefix hstarts).trans hopening
  · exact (boundedBegins_iff.mp hbegins).1

theorem utf8Length_of_partial (h : isPartialControlBlock blocks.literals text = true) :
    utf8Length text ≤ longestBlock blocks.literals := by
  rw [isPartialControlBlock_eq, Bool.or_eq_true, Bool.or_eq_true, Bool.or_eq_true] at h
  rw [longestBlock]
  rcases h with h | h | h | h
  · obtain ⟨block, hblock, hbegins⟩ := List.any_eq_true.mp h
    have hle := utf8Length_le_of_isPrefix (literalBegins_iff.mp hbegins).2
    have hmax : utf8Length block ≤ (blocks.literals.map utf8Length).max?.getD 0 :=
      List.le_max?_getD_of_mem (List.mem_map_of_mem hblock)
    omega
  · rcases tagBegins_iff.mp h with hstarts | ⟨after, rfl, hbegins⟩
    · have hle := utf8Length_le_of_isPrefix hstarts
      omega
    · have hle := utf8Length_of_maxLengthBegins hbegins
      rw [utf8Length_append]
      omega
  · have hle := utf8Length_of_boundedTag (by decide) h
    omega
  · have hle := utf8Length_of_boundedTag (by decide) h
    omega

theorem heldStartFrom_eq (pos : ℕ) (text : List Char) :
    heldStartFrom blocks.literals (longestBlock blocks.literals) pos text =
      if blocks.rule.held text = [] then none
      else some (pos + (blocks.rule.released text).length) := by
  induction text generalizing pos with
  | nil => rfl
  | cons c text ih =>
    have htest : (decide (utf8Length (c :: text) ≤ longestBlock blocks.literals) && c == '<' &&
        isPartialControlBlock blocks.literals (c :: text)) = blocks.rule.begins (c :: text) := by
      change _ = blocks.begins (c :: text)
      rw [begins, List.head?_cons]
      cases hpartial : isPartialControlBlock blocks.literals (c :: text) with
      | false => simp
      | true =>
        rw [decide_eq_true (blocks.utf8Length_of_partial hpartial)]
        rfl
    rw [heldStartFrom, htest, Excision.Rule.held, Excision.Rule.released]
    cases blocks.rule.begins (c :: text) with
    | true => simp
    | false =>
      simp only [Bool.false_eq_true, if_false]
      rw [ih, List.length_cons, Nat.add_assoc, Nat.add_comm 1]

theorem heldStart_eq (text : List Char) :
    heldStart blocks.literals text =
      if blocks.rule.held text = [] then none else some (blocks.rule.released text).length := by
  rw [heldStart, blocks.heldStartFrom_eq, Nat.zero_add]

end ControlBlocks

end KiroProxy.ControlBlock
