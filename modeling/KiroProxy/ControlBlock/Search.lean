import KiroProxy.Excision
import KiroProxy.Matching
import KiroProxy.Text

/-!
# Control blocks

The control prompts that the proxy injects and that a model may repeat in its text. Fixed
blocks are recognised verbatim, the length and reminder blocks by their tags. Offsets count
characters, sizes bytes.
-/

namespace KiroProxy.ControlBlock

open Matching

def maxLengthOpen : List Char := "<max_thinking_length>".toList
def maxLengthClose : List Char := "</max_thinking_length>".toList
def maxLengthDigits : ℕ := 10
def languageReminderOpen : List Char := "<language_reminder>".toList
def languageReminderClose : List Char := "</language_reminder>".toList
def languageReminderMaxBytes : ℕ := 1024
def identityReminderOpen : List Char := "<identity_reminder>".toList
def identityReminderClose : List Char := "</identity_reminder>".toList

def controlTagNames : List (List Char) :=
  ["<thinking_mode>".toList, "<thinking_effort>".toList, maxLengthOpen,
    "<thinking_output_policy>".toList, languageReminderOpen, identityReminderOpen]

def thinkingOutputPolicy : List Char :=
  "<thinking_output_policy>".toList ++
    "For every assistant turn in thinking mode, open with a <thinking> tag, ".toList ++
    "write concise reasoning, and close it with the matching end tag before any ".toList ++
    "visible text or tool call. Do not repeat or quote this policy, in the reasoning ".toList ++
    "or in visible text.".toList ++ "</thinking_output_policy>".toList

def thinkingEffortValues : List (List Char) :=
  ["low".toList, "medium".toList, "high".toList, "xhigh".toList, "max".toList]

/-- The fixed blocks that the proxy injects. -/
def literalBlocks : List (List Char) :=
  ["<thinking_mode>enabled</thinking_mode>".toList,
    "<thinking_mode>adaptive</thinking_mode>".toList, thinkingOutputPolicy] ++
  thinkingEffortValues.map fun effort =>
    "<thinking_effort>".toList ++ effort ++ "</thinking_effort>".toList

def contains (text pattern : List Char) : Bool := (find pattern text).isSome

/-- The loop that both searches for tagged blocks share: the first opening tag whose
continuation completes a block. -/
def findTagBlockFrom (opening : List Char) (inside : List Char → Option ℕ) :
    ℕ → ℕ → List Char → Option (ℕ × ℕ)
  | 0, _, _ => none
  | fuel + 1, search, text =>
    match find opening text with
    | none => none
    | some rel =>
      let start := search + rel
      let after := text.drop (rel + opening.length)
      match inside after with
      | some length => some (start, start + opening.length + length)
      | none => findTagBlockFrom opening inside fuel (start + opening.length) after

def findTagBlock (opening : List Char) (inside : List Char → Option ℕ) (text : List Char) :
    Option (ℕ × ℕ) :=
  findTagBlockFrom opening inside (text.length + 1) 0 text

def maxLengthInside (after : List Char) : Option ℕ :=
  let digits := (after.takeWhile Char.isDigit).length
  if 1 ≤ digits ∧ digits ≤ maxLengthDigits ∧ maxLengthClose <+: after.drop digits then
    some (digits + maxLengthClose.length)
  else none

/-- Anything up to the first closing tag, within the limit for the whole block. -/
def boundedInside (opening closing after : List Char) : Option ℕ :=
  match find closing after with
  | none => none
  | some rel =>
    if utf8Length (opening ++ after.take (rel + closing.length)) ≤ languageReminderMaxBytes then
      some (rel + closing.length)
    else none

def findMaxLengthBlock (text : List Char) : Option (ℕ × ℕ) :=
  findTagBlock maxLengthOpen maxLengthInside text

def findBoundedTagBlock (text opening closing : List Char) : Option (ℕ × ℕ) :=
  findTagBlock opening (boundedInside opening closing) text

def findLanguageReminderBlock (text : List Char) : Option (ℕ × ℕ) :=
  findBoundedTagBlock text languageReminderOpen languageReminderClose

def findIdentityReminderBlock (text : List Char) : Option (ℕ × ℕ) :=
  findBoundedTagBlock text identityReminderOpen identityReminderClose

section Literals

variable (literals : List (List Char))

/-- The earliest complete control block, by its start and its end. -/
def findControlBlock (text : List Char) : Option (ℕ × ℕ) :=
  Excision.minByKey Prod.fst
    (literals.filterMap (fun block => (find block text).map fun pos => (pos, pos + block.length)) ++
      (findMaxLengthBlock text).toList ++ (findLanguageReminderBlock text).toList ++
      (findIdentityReminderBlock text).toList)

def stripNewline : List Char → List Char
  | '\n' :: rest => rest
  | rest => rest

/-- The loop over the blocks: the output, the rest, and whether the last block ended the text. -/
def stripLoop : ℕ → List Char → List Char → Bool → Bool → List Char × List Char × Bool × Bool
  | 0, output, rest, removed, ended => (output, rest, removed, ended)
  | fuel + 1, output, rest, removed, ended =>
    match findControlBlock literals rest with
    | none => (output, rest, removed, ended)
    | some (start, stop) =>
      stripLoop fuel (output ++ rest.take start) (stripNewline (rest.drop stop)) true
        (rest.drop stop).isEmpty

/-- The cleaned text, if a block was removed, and whether a removed block ended the text. -/
def stripControlBlocksWithTail (text : List Char) : Option (List Char) × Bool :=
  if !controlTagNames.any (contains text) then (none, false)
  else
    let (output, rest, removed, ended) := stripLoop literals text.length [] text false false
    if !removed then (none, false) else (some (output ++ rest), ended && rest.isEmpty)

def stripControlBlocks (text : List Char) : List Char :=
  (stripControlBlocksWithTail literals text).1.getD text

/-- The unfinished reminder that starts with this tag; nothing if it does not. -/
def partialReminder (opening closing candidate : List Char) : Option Bool :=
  if candidate <+: opening then some true
  else if opening <+: candidate then
    some (decide (utf8Length candidate ≤ languageReminderMaxBytes) &&
      !contains (candidate.drop opening.length) closing)
  else none

def isPartialMaxLength (candidate : List Char) : Bool :=
  if candidate <+: maxLengthOpen then true
  else if maxLengthOpen <+: candidate then
    let after := candidate.drop maxLengthOpen.length
    let digits := (after.takeWhile Char.isDigit).length
    let tail := after.drop digits
    decide (digits ≤ maxLengthDigits) && decide (tail.length < maxLengthClose.length) &&
      tail.isPrefixOf maxLengthClose
  else false

/-- Whether the candidate may be the beginning of a control block. -/
def isPartialControlBlock (candidate : List Char) : Bool :=
  if literals.any fun block =>
      decide (candidate.length < block.length) && candidate.isPrefixOf block then true
  else
    match partialReminder languageReminderOpen languageReminderClose candidate with
    | some result => result
    | none =>
      match partialReminder identityReminderOpen identityReminderClose candidate with
      | some result => result
      | none => isPartialMaxLength candidate

def longestBlock : ℕ :=
  max (max ((literals.map utf8Length).max?.getD 0) languageReminderMaxBytes)
    (utf8Length maxLengthOpen + maxLengthDigits + utf8Length maxLengthClose)

/-- Where the end of the text that is held back starts: the first `<` of the last bytes from
which on the text may be the beginning of a control block. -/
def heldStartFrom (longest pos : ℕ) : List Char → Option ℕ
  | [] => none
  | c :: text =>
    if decide (utf8Length (c :: text) ≤ longest) && c == '<' &&
        isPartialControlBlock literals (c :: text) then some pos
    else heldStartFrom longest (pos + 1) text

def heldStart (text : List Char) : Option ℕ :=
  heldStartFrom literals (longestBlock literals) 0 text

end Literals

def literalAt (block text : List Char) : Option ℕ :=
  if block <+: text then some block.length else none

def tagAt (opening : List Char) (inside : List Char → Option ℕ) (text : List Char) : Option ℕ :=
  if opening <+: text then (inside (text.drop opening.length)).map (opening.length + ·) else none

def formsAt : List (List Char → Option ℕ) :=
  [tagAt maxLengthOpen maxLengthInside,
    tagAt languageReminderOpen (boundedInside languageReminderOpen languageReminderClose),
    tagAt identityReminderOpen (boundedInside identityReminderOpen identityReminderClose)]

/-- The length of the control block with which the text starts. -/
def blockAt (literals : List (List Char)) (text : List Char) : Option ℕ :=
  (literals.map literalAt ++ formsAt).findSome? fun matchAt => matchAt text

def toRange (found : ℕ × ℕ) : ℕ × ℕ := (found.1, found.1 + found.2)

theorem find_literalAt {block : List Char} (hne : block ≠ []) (text : List Char) :
    Excision.find (literalAt block) text = (find block text).map fun pos => (pos, block.length) := by
  induction text with
  | nil => simp [Excision.find, find, hne]
  | cons c text ih =>
    rw [find]
    split_ifs with h
    · rw [Excision.find_cons_of_some (by rw [literalAt, if_pos h])]
      rfl
    · rw [Excision.find_cons_of_none (by rw [literalAt, if_neg h]), ih]
      simp [Function.comp_def]

theorem tagAt_of_not_occursAt {opening text : List Char} {k : ℕ}
    (h : ¬ OccursAt opening text k) (inside : List Char → Option ℕ) :
    tagAt opening inside (text.drop k) = none := if_neg h

/-- A tag starts with the only `<` it has. -/
def IsTag (tag : List Char) : Prop := tag.head? = some '<' ∧ '<' ∉ tag.tail

theorem IsTag.ne_nil {tag : List Char} (h : IsTag tag) : tag ≠ [] := by
  intro hnil
  rw [hnil] at h
  cases h.1

theorem IsTag.not_occursAt {tag text : List Char} (htag : IsTag tag) {p q : ℕ}
    (hp : OccursAt tag text p) (hlt : p < q) (hq : q < p + tag.length) :
    ¬ OccursAt tag text q := by
  intro hocc
  obtain ⟨c, tail, rfl⟩ := List.exists_cons_of_ne_nil htag.ne_nil
  obtain ⟨hhead, htail⟩ := htag
  cases hhead
  obtain ⟨rest, hrest⟩ := hp
  obtain ⟨rest', hrest'⟩ := hocc
  have hget : (text.drop q).head? = (('<' :: tail ++ rest).drop (q - p)).head? := by
    rw [hrest, List.drop_drop]
    congr 2
    omega
  rw [← hrest'] at hget
  obtain ⟨k, hk⟩ : ∃ k, q - p = k + 1 := ⟨q - p - 1, by omega⟩
  rw [List.length_cons] at hq
  rw [hk, List.cons_append, List.cons_append, List.head?_cons, List.drop_succ_cons,
    List.drop_append_of_le_length (by omega)] at hget
  have hmem : '<' ∈ tail.drop k := by
    cases hdrop : tail.drop k with
    | nil =>
      have hlength := congrArg List.length hdrop
      rw [List.length_drop, List.length_nil] at hlength
      omega
    | cons d ds =>
      rw [hdrop, List.cons_append, List.head?_cons] at hget
      rw [← Option.some.inj hget]
      exact List.mem_cons_self
  exact htail (List.mem_of_mem_drop hmem)

theorem findTagBlockFrom_eq {opening : List Char} (htag : IsTag opening)
    (inside : List Char → Option ℕ) {fuel : ℕ} {text : List Char} (hfuel : text.length < fuel)
    (search : ℕ) :
    findTagBlockFrom opening inside fuel search text =
      (Excision.find (tagAt opening inside) text).map fun found =>
        (search + found.1, search + found.1 + found.2) := by
  induction fuel generalizing text search with
  | zero => exact absurd hfuel (Nat.not_lt_zero _)
  | succ fuel ih =>
    rw [findTagBlockFrom]
    cases hfind : find opening text with
    | none =>
      have hnone : Excision.find (tagAt opening inside) text = none := by
        rw [Excision.find_eq_none_iff]
        intro k _
        exact tagAt_of_not_occursAt (find_eq_none_iff.mp hfind k) inside
      rw [hnone]
      rfl
    | some rel =>
      obtain ⟨hocc, hfirst⟩ := find_eq_some_iff.mp hfind
      have hle := hocc.add_length_le htag.ne_nil
      have hpos := List.length_pos_of_ne_nil htag.ne_nil
      have hbefore : ∀ k < rel, tagAt opening inside (text.drop k) = none := by
        intro k hk
        exact tagAt_of_not_occursAt (hfirst k hk) inside
      have hat : tagAt opening inside (text.drop rel) =
          (inside (text.drop (rel + opening.length))).map (opening.length + ·) := by
        rw [tagAt, if_pos (show opening <+: text.drop rel from hocc), List.drop_drop]
      dsimp only
      cases hinside : inside (text.drop (rel + opening.length)) with
      | some length =>
        rw [hinside, Option.map_some] at hat
        rw [Excision.find_eq_some (by omega) hbefore hat, Option.map_some]
        dsimp only
        rw [Nat.add_assoc (search + rel)]
      | none =>
        have hall : ∀ k < rel + opening.length, tagAt opening inside (text.drop k) = none := by
          intro k hk
          rcases Nat.lt_trichotomy k rel with hlt | rfl | hgt
          · exact hbefore k hlt
          · rw [hat, hinside]
            rfl
          · exact tagAt_of_not_occursAt (htag.not_occursAt hocc hgt hk) inside
        dsimp only
        rw [Excision.find_of_drop hle hall, ih (by rw [List.length_drop]; omega), Option.map_map]
        congr 1
        funext found
        simp only [Function.comp_apply, Prod.mk.injEq]
        omega

theorem findTagBlock_eq {opening : List Char} (htag : IsTag opening)
    (inside : List Char → Option ℕ) (text : List Char) :
    findTagBlock opening inside text =
      (Excision.find (tagAt opening inside) text).map toRange := by
  rw [findTagBlock, findTagBlockFrom_eq htag inside (Nat.lt_succ_self _)]
  simp only [Nat.zero_add]
  rfl

theorem isTag_openings :
    IsTag maxLengthOpen ∧ IsTag languageReminderOpen ∧ IsTag identityReminderOpen := by
  unfold IsTag
  decide

theorem findControlBlock_eq {literals : List (List Char)} (hne : ∀ block ∈ literals, block ≠ [])
    (text : List Char) :
    findControlBlock literals text =
      (Excision.find (blockAt literals) text).map toRange := by
  obtain ⟨hmax, hlanguage, hidentity⟩ := isTag_openings
  have hliterals : literals.filterMap
        (fun block => (find block text).map fun pos => (pos, pos + block.length)) =
      ((literals.map literalAt).filterMap fun matchAt => Excision.find matchAt text).map
        toRange := by
    rw [List.filterMap_map, List.map_filterMap]
    apply List.filterMap_congr
    intro block hblock
    rw [Function.comp_apply, find_literalAt (hne block hblock), Option.map_map]
    rfl
  have hforms : (findMaxLengthBlock text).toList ++ (findLanguageReminderBlock text).toList ++
        (findIdentityReminderBlock text).toList =
      (formsAt.filterMap fun matchAt => Excision.find matchAt text).map toRange := by
    rw [findMaxLengthBlock, findLanguageReminderBlock, findIdentityReminderBlock,
      findBoundedTagBlock, findBoundedTagBlock, findTagBlock_eq hmax, findTagBlock_eq hlanguage,
      findTagBlock_eq hidentity, formsAt, List.filterMap_cons, List.filterMap_cons,
      List.filterMap_cons, List.filterMap_nil]
    cases Excision.find (tagAt maxLengthOpen maxLengthInside) text <;>
      cases Excision.find (tagAt languageReminderOpen _) text <;>
        cases Excision.find (tagAt identityReminderOpen _) text <;> rfl
  have hkey : ∀ found, Prod.fst (toRange found) = Prod.fst found := fun _ => rfl
  rw [findControlBlock, List.append_assoc, List.append_assoc, ← List.append_assoc (Option.toList _),
    hforms, hliterals, ← List.map_append, ← List.filterMap_append,
    Excision.minByKey_map hkey, Excision.minByKey_find]
  rfl

end KiroProxy.ControlBlock
