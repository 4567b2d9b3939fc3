import KiroProxy.Entities

/-!
# XML entities of a search query

The query of a literal search is decoded with five replacements of the whole text, that of the
ampersand before those of the quotation marks.
-/

namespace KiroProxy.Stream.XmlEntities

open Entities

def basicXmlEntities : List (Entity Char) :=
  [⟨"lt;".toList, '<'⟩,
   ⟨"gt;".toList, '>'⟩,
   ⟨"amp;".toList, '&'⟩,
   ⟨"quot;".toList, '"'⟩,
   ⟨"apos;".toList, '\x27'⟩]

def decodeBasicXmlEntities (value : List Char) : List Char := decode '&' basicXmlEntities value

def xmlEscape (text : List Char) : List Char := escape '&' basicXmlEntities text

theorem separate_basicXmlEntities : Separate '&' basicXmlEntities where
  mark_notMem := by decide
  char_notMem := by decide
  unique := by decide

/-- The replacements give an escaped text back, and agree with a single pass, where an ampersand
is not decoded in front of the word of a quotation mark. -/
theorem decodeBasicXmlEntities_iff (text : List Char) :
    (decodeBasicXmlEntities (xmlEscape text) = text ↔
      ¬ "&quot;".toList <:+: text ∧ ¬ "&apos;".toList <:+: text) ∧
    (decodeBasicXmlEntities text = decodeOnce '&' basicXmlEntities text ↔
      ¬ "&amp;quot;".toList <:+: text ∧ ¬ "&amp;apos;".toList <:+: text) := by
  have hseparate : Separate '&' (basicXmlEntities.take 2 ++
      ⟨"amp;".toList, '&'⟩ :: basicXmlEntities.drop 3) := separate_basicXmlEntities
  have hiff := decode_eq_decodeOnce_iff hseparate rfl (by decide)
  have hrescans := rescans_escape_iff hseparate rfl (by decide)
  have honce := decodeOnce_escape hseparate ⟨_, List.mem_append_right _ List.mem_cons_self, rfl⟩
  have hquotes (P : Entity Char → Prop) : ¬ (∃ e ∈ basicXmlEntities.drop 3, P e) ↔
      ¬ P ⟨"quot;".toList, '"'⟩ ∧ ¬ P ⟨"apos;".toList, '\x27'⟩ := by
    simp [basicXmlEntities]
  refine ⟨?_, (hiff text).trans (hquotes _)⟩
  refine (Eq.congr_right (honce text)).symm.trans ((hiff _).trans ?_)
  exact (not_congr (hrescans text)).trans (hquotes _)

theorem not_decode_xmlEscape_quot :
    ¬ ∀ text, decodeBasicXmlEntities (xmlEscape text) = text :=
  fun h => absurd (h "&quot;".toList) (by decide)

end KiroProxy.Stream.XmlEntities
