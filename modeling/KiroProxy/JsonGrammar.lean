import Mathlib.Data.List.TakeWhile
import KiroProxy.JsonText

/-!
# The grammar of JSON texts

The grammar alone, without the values that texts stand for: an escape of four hexadecimal digits
may stand for half of a surrogate pair. The number bounds how deep arrays and objects stand in
each other.
-/

namespace KiroProxy.JsonGrammar

open JsonText

def IsSpace (text : List Char) : Prop := ∀ c ∈ text, isJsonSpace c = true

/-- What stands between the quotation marks of a string. -/
inductive IsContent : List Char → Prop
  | nil : IsContent []
  | plain {c text} : 0x20 ≤ c.toNat → c ≠ '"' → c ≠ '\\' → IsContent text → IsContent (c :: text)
  | escape {e c text} : simpleEscape e = some c → IsContent text → IsContent ('\\' :: e :: text)
  | unicode {a b c d n text} : hexDigits a b c d = some n → IsContent text →
      IsContent ('\\' :: 'u' :: a :: b :: c :: d :: text)

def words : List (List Char) := ["null".toList, "true".toList, "false".toList]

structure MemberText where
  before : List Char
  name : List Char
  after : List Char
  value : List Char

namespace MemberText

def text (m : MemberText) : List Char :=
  m.before ++ '"' :: (m.name ++ '"' :: (m.after ++ ':' :: m.value))

def IsNamed (m : MemberText) : Prop := IsSpace m.before ∧ IsContent m.name ∧ IsSpace m.after

end MemberText

inductive IsValue : ℕ → List Char → Prop
  | word {n text} : text ∈ words → IsValue n text
  | number {n text} : NumberText text → IsValue n text
  | string {n text} : IsContent text → IsValue n ('"' :: (text ++ ['"']))
  | emptyArray {n space} : IsSpace space → IsValue (n + 1) ('[' :: (space ++ [']']))
  | array {n} {items : List (List Char)} : items ≠ [] → (∀ item ∈ items, IsValue n item) →
      IsValue (n + 1) ('[' :: ([','].intercalate items ++ [']']))
  | emptyObject {n space} : IsSpace space → IsValue (n + 1) ('\x7b' :: (space ++ ['\x7d']))
  | object {n} {members : List MemberText} : members ≠ [] → (∀ m ∈ members, m.IsNamed) →
      (∀ m ∈ members, IsValue n m.value) →
      IsValue (n + 1) ('\x7b' :: ([','].intercalate (members.map MemberText.text) ++ ['\x7d']))
  | padded {n before text after} : IsSpace before → IsSpace after → IsValue n text →
      IsValue n (before ++ text ++ after)

def firstChar (text : List Char) : Option Char := (text.dropWhile isJsonSpace).head?

/-- The value of the text is an array or an object. -/
def IsContainer (text : List Char) :
    Prop := firstChar text = some '[' ∨ firstChar text = some '\x7b'

/-- The beginning of a text up to the bracket that closes its array or object. -/
structure UpToClosing (text used : List Char) : Prop where
  closing : used.getLast? = some ']' ∨ used.getLast? = some '\x7d'
  rest : ∃ space, text = used ++ space ∧ IsSpace space

theorem firstChar_append_of_isSpace {space : List Char} (h : IsSpace space) (text : List Char) :
    firstChar (space ++ text) = firstChar text := by
  unfold firstChar
  rw [List.dropWhile_append_of_pos h]

variable {text : List Char} {c : Char}

theorem firstChar_append (tail : List Char) (h : firstChar text = some c) :
    firstChar (text ++ tail) = some c := by
  unfold firstChar at h ⊢
  obtain ⟨rest, hrest⟩ := List.head?_eq_some_iff.mp h
  rw [List.dropWhile_append, hrest]
  rfl

/-- Space behind a text does not come first. -/
theorem firstChar_of_append {text space : List Char} (hspace : IsSpace space)
    (h : firstChar (text ++ space) = some c) : firstChar text = some c := by
  cases hfirst : firstChar text with
  | some d =>
    rw [firstChar_append space hfirst] at h
    exact h
  | none =>
    have hall : IsSpace text := List.dropWhile_eq_nil_iff.mp (List.head?_eq_none_iff.mp hfirst)
    rw [firstChar_append_of_isSpace hall] at h
    unfold firstChar at h
    rw [List.dropWhile_eq_nil_iff.mpr hspace] at h
    cases h

theorem IsContainer.of_padded {before text after : List Char} (hbefore : IsSpace before)
    (hafter : IsSpace after) (h : IsContainer (before ++ text ++ after)) : IsContainer text := by
  unfold IsContainer at h
  rw [List.append_assoc, firstChar_append_of_isSpace hbefore] at h
  exact h.imp (firstChar_of_append hafter) (firstChar_of_append hafter)

theorem not_isContainer_of_firstChar (h : firstChar text = some c) (hc : c ≠ '[' ∧ c ≠ '\x7b') :
    ¬ IsContainer text := by
  unfold IsContainer
  rw [h]
  rintro (heq | heq)
  · exact hc.1 (Option.some.inj heq)
  · exact hc.2 (Option.some.inj heq)

theorem not_isContainer_of_words (h : text ∈ words) : ¬ IsContainer text := by
  unfold IsContainer
  revert text
  decide

theorem not_isContainer_of_number (h : NumberText text) : ¬ IsContainer text := by
  obtain ⟨hsign, ⟨hne, hwhole⟩, -, -, -⟩ := h
  rename_i sign whole fraction exponent
  obtain ⟨c, ds, rfl⟩ := List.exists_cons_of_ne_nil hne
  rcases hsign with rfl | rfl
  · have hdigit := hwhole c List.mem_cons_self
    have hspace : isJsonSpace c = false := by
      rw [Bool.eq_false_iff]
      intro hspace
      simp only [isJsonSpace, Bool.or_eq_true, beq_iff_eq] at hspace
      rcases hspace with ((rfl | rfl) | rfl) | rfl
      all_goals cases hdigit
    refine not_isContainer_of_firstChar (c := c) ?_ ?_
    · simp [firstChar, hspace]
    · constructor
      · rintro rfl
        cases hdigit
      · rintro rfl
        cases hdigit
  · refine not_isContainer_of_firstChar (c := '-') ?_ (by decide)
    rfl

end KiroProxy.JsonGrammar
