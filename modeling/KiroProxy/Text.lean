import Mathlib

/-!
# Strings and digests

Operations of the standard library on strings that the converters use, and the
hexadecimal form of a digest. The digest itself stays an arbitrary function.
-/

namespace KiroProxy

/-- The characters of the Unicode property `White_Space`. -/
def isWhitespace (c : Char) : Bool :=
  let n := c.toNat
  (0x9 ≤ n && n ≤ 0xd) || n == 0x20 || n == 0x85 || n == 0xa0 || n == 0x1680 ||
    (0x2000 ≤ n && n ≤ 0x200a) || n == 0x2028 || n == 0x2029 || n == 0x202f || n == 0x205f ||
    n == 0x3000

def trimStart (cs : List Char) : List Char :=
  cs.dropWhile isWhitespace

def trimChars (cs : List Char) : List Char :=
  ((trimStart cs).reverse.dropWhile isWhitespace).reverse

/-- Nothing is left after trimming. -/
def isBlank (cs : List Char) : Bool :=
  cs.all isWhitespace

variable {cs : List Char} {c : Char}

theorem isBlank_iff_trimStart : isBlank cs = true ↔ trimStart cs = [] := by
  rw [isBlank, trimStart, List.dropWhile_eq_nil_iff, List.all_eq_true]

theorem trimStart_append_of_isBlank (h : isBlank cs = true) (ds : List Char) :
    trimStart (cs ++ ds) = trimStart ds := by
  have hnil := isBlank_iff_trimStart.mp h
  rw [trimStart] at hnil ⊢
  rw [List.dropWhile_append, hnil]
  rfl

theorem trimStart_append_of_not_isBlank (h : isBlank cs = false) (ds : List Char) :
    trimStart (cs ++ ds) = trimStart cs ++ ds := by
  have hne : trimStart cs ≠ [] := by
    intro hnil
    rw [isBlank_iff_trimStart.mpr hnil] at h
    cases h
  rw [trimStart] at hne ⊢
  rw [List.dropWhile_append, if_neg (by simpa using hne)]
  rfl

theorem isBlank_append (cs ds : List Char) : isBlank (cs ++ ds) = (isBlank cs && isBlank ds) :=
  List.all_append

theorem trimChars_append_of_isBlank {ds : List Char} (h : isBlank ds = true) (cs : List Char) :
    trimChars (cs ++ ds) = trimChars cs := by
  cases hcs : isBlank cs with
  | true =>
    have hboth : isBlank (cs ++ ds) = true := by rw [isBlank_append, hcs, h, Bool.and_self]
    rw [trimChars, trimChars, isBlank_iff_trimStart.mp hboth, isBlank_iff_trimStart.mp hcs]
  | false =>
    have hnil : ds.reverse.dropWhile isWhitespace = [] := by
      rw [List.dropWhile_eq_nil_iff]
      exact fun c hc => List.all_eq_true.mp h c (List.mem_reverse.mp hc)
    rw [trimChars, trimStart_append_of_not_isBlank hcs, List.reverse_append,
      List.dropWhile_append, hnil]
    rfl

theorem trimStart_eq_self (h : ∀ c ∈ cs.head?, isWhitespace c = false) : trimStart cs = cs := by
  cases cs with
  | nil => rfl
  | cons c cs => rw [trimStart, List.dropWhile_cons_of_neg (by rw [h c rfl]; decide)]

theorem trimChars_eq_rdropWhile (cs : List Char) :
    trimChars cs = (trimStart cs).rdropWhile isWhitespace := rfl

theorem trimChars_eq_self (hhead : ∀ c ∈ cs.head?, isWhitespace c = false)
    (hlast : ∀ c ∈ cs.getLast?, isWhitespace c = false) : trimChars cs = cs := by
  rw [trimChars_eq_rdropWhile, trimStart_eq_self hhead, List.rdropWhile_eq_self_iff]
  intro hne
  rw [hlast _ (List.getLast?_eq_some_getLast hne)]
  decide

/-- A trimmed text does not start with white space. -/
theorem head?_trimChars : ∀ c ∈ (trimChars cs).head?, isWhitespace c = false := by
  intro c hc
  have hprefix := List.rdropWhile_prefix isWhitespace (trimStart cs)
  rw [← trimChars_eq_rdropWhile] at hprefix
  obtain ⟨rest, hrest⟩ := hprefix
  obtain ⟨tail, htail⟩ : ∃ tail, trimChars cs = c :: tail := by
    cases hcs : trimChars cs with
    | nil =>
      rw [hcs] at hc
      cases hc
    | cons d tail =>
      rw [hcs] at hc
      obtain rfl := Option.some.inj hc
      exact ⟨tail, rfl⟩
  have hstart : (trimStart cs).head? = some c := by rw [← hrest, htail]; rfl
  have hnot := List.head?_dropWhile_not isWhitespace cs
  rw [← trimStart, hstart] at hnot
  exact hnot

theorem trimChars_eq_nil_iff : trimChars cs = [] ↔ isBlank cs = true := by
  rw [isBlank_iff_trimStart, trimChars_eq_rdropWhile, List.rdropWhile_eq_nil_iff]
  constructor
  · intro hall
    cases hstart : trimStart cs with
    | nil => rfl
    | cons c tail =>
      have hnot := List.head?_dropWhile_not isWhitespace cs
      rw [← trimStart, hstart] at hnot
      have hspace := hall c (by rw [hstart]; exact List.mem_cons_self)
      rw [hnot] at hspace
      cases hspace
  · intro hnil c hc
    rw [hnil] at hc
    cases hc

/-- The length of the text in bytes. -/
def utf8Length (cs : List Char) : ℕ :=
  (cs.map Char.utf8Size).sum

@[simp] theorem utf8Length_cons (c : Char) (cs : List Char) :
    utf8Length (c :: cs) = c.utf8Size + utf8Length cs := by
  rw [utf8Length, List.map_cons, List.sum_cons, utf8Length]

theorem utf8Length_append (cs ds : List Char) :
    utf8Length (cs ++ ds) = utf8Length cs + utf8Length ds := by
  simp [utf8Length]

theorem utf8Length_le_of_isPrefix {cs ds : List Char} (h : cs <+: ds) :
    utf8Length cs ≤ utf8Length ds := by
  obtain ⟨tail, rfl⟩ := h
  rw [utf8Length_append]
  exact Nat.le_add_right _ _

def trim (s : String) : String :=
  String.ofList (trimChars s.toList)

theorem trim_eq_empty_iff {s : String} : trim s = "" ↔ isBlank s.toList = true := by
  rw [trim, ← trimChars_eq_nil_iff, ← String.toList_inj, String.toList_ofList]
  rfl

/-- A text that starts as a trimmed one and ends without white space is trimmed. -/
theorem trim_trim_append {s t : String} (hs : trim s ≠ "") (ht : t ≠ "")
    (hlast : ∀ c ∈ t.toList.getLast?, isWhitespace c = false) :
    trim (trim s ++ t) = trim s ++ t := by
  have hne : trimChars s.toList ≠ [] := by
    intro hnil
    exact hs (trim_eq_empty_iff.mpr (trimChars_eq_nil_iff.mp hnil))
  have htne : t.toList ≠ [] := by
    intro hnil
    exact ht (String.toList_inj.mp hnil)
  rw [trim, String.toList_append, trim, String.toList_ofList, trimChars_eq_self, String.ofList_append,
    String.ofList_toList]
  · rw [List.head?_append_of_ne_nil _ hne]
    exact head?_trimChars
  · rw [List.getLast?_append_of_ne_nil _ htne]
    exact hlast

def toAsciiLowercase (s : String) : String :=
  String.ofList (s.toList.map Char.toLower)

theorem utf8ByteSize_ofList (cs : List Char) :
    (String.ofList cs).utf8ByteSize = utf8Length cs := by
  induction cs with
  | nil => rfl
  | cons c cs ih =>
    rw [String.ofList_cons, String.utf8ByteSize_append, String.utf8ByteSize_singleton, ih,
      utf8Length_cons]

theorem lt_of_isAlphanum (h : c.isAlphanum = true) : c.toNat < 128 := by
  simp only [Char.isAlphanum, Char.isAlpha, Char.isUpper, Char.isLower, Char.isDigit,
    Bool.or_eq_true, Bool.and_eq_true, decide_eq_true_eq, ge_iff_le, UInt32.le_iff_toNat_le] at h
  change c.val.toNat < 128
  rcases h with (⟨-, h⟩ | ⟨-, h⟩) | ⟨-, h⟩
  · exact lt_of_le_of_lt h (by decide)
  · exact lt_of_le_of_lt h (by decide)
  · exact lt_of_le_of_lt h (by decide)

theorem utf8Size_of_lt (h : c.toNat < 128) : c.utf8Size = 1 := by
  rw [Char.utf8Size_eq_one_iff, UInt32.le_iff_toNat_le]
  exact Nat.le_of_lt_succ h

/-- What holds of the characters below 128 by their numbers. -/
theorem of_ascii {P : Char → Prop} (hall : ∀ n < 128, P (Char.ofNat n)) (hc : c.toNat < 128) :
    P c := by
  rw [← Char.ofNat_toNat c]
  exact hall c.toNat hc

/-- Changing the case of an ASCII letter or digit keeps its class. -/
theorem isAlphanum_case (h : c.isAlphanum = true) :
    c.toLower.isAlphanum = true ∧ c.toUpper.isAlphanum = true ∧ c.toLower.isAlpha = c.isAlpha := by
  have hc := lt_of_isAlphanum h
  revert h
  refine of_ascii (P := fun c => c.isAlphanum = true → c.toLower.isAlphanum = true ∧
    c.toUpper.isAlphanum = true ∧ c.toLower.isAlpha = c.isAlpha) ?_ hc
  decide +kernel

abbrev Digest := BitVec 256

/-- Lowercase hexadecimal form, most significant digit first. -/
def Digest.hex (digest : Digest) : List Char :=
  (List.range 64).map fun i => Nat.digitChar (digest.toNat / 16 ^ (63 - i) % 16)

theorem digitChar_isAlphanum {n : ℕ} (h : n < 16) : (Nat.digitChar n).isAlphanum = true := by
  revert h n
  decide

theorem Digest.isAlphanum_of_mem_hex {digest : Digest} (h : c ∈ digest.hex) :
    c.isAlphanum = true := by
  obtain ⟨i, -, rfl⟩ := List.mem_map.mp h
  exact digitChar_isAlphanum (Nat.mod_lt _ (by decide))

end KiroProxy
