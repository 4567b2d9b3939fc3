import Mathlib

/-!
# JSON texts as bytes

The grammar of JSON over bytes, as trees that keep the white space, so that each text belongs to
a tree and a part of a tree to a part of the text.
-/

namespace KiroProxy.JsonBytes

abbrev Bytes := List UInt8

@[match_pattern] abbrev quote : UInt8 := 0x22
@[match_pattern] abbrev backslash : UInt8 := 0x5c
@[match_pattern] abbrev comma : UInt8 := 0x2c
@[match_pattern] abbrev colon : UInt8 := 0x3a
@[match_pattern] abbrev openBracket : UInt8 := 0x5b
@[match_pattern] abbrev closeBracket : UInt8 := 0x5d
@[match_pattern] abbrev openBrace : UInt8 := 0x7b
@[match_pattern] abbrev closeBrace : UInt8 := 0x7d

def isSpace (b : UInt8) : Bool := b == 0x20 || b == 0x0a || b == 0x09 || b == 0x0d

def isDigit (b : UInt8) : Bool := decide (0x30 ≤ b) && decide (b ≤ 0x39)

abbrev Space := { text : Bytes // ∀ b ∈ text, isSpace b = true }

def simpleEscape (e : UInt8) : Option UInt8 :=
  if e = quote ∨ e = backslash ∨ e = 0x2f then some e
  else if e = 0x62 then some 0x08
  else if e = 0x66 then some 0x0c
  else if e = 0x6e then some 0x0a
  else if e = 0x72 then some 0x0d
  else if e = 0x74 then some 0x09
  else none

def hexValue (b : UInt8) : Option ℕ :=
  if 0x30 ≤ b ∧ b ≤ 0x39 then some (b.toNat - 0x30)
  else if 0x61 ≤ b ∧ b ≤ 0x66 then some (b.toNat - 0x61 + 10)
  else if 0x41 ≤ b ∧ b ≤ 0x46 then some (b.toNat - 0x41 + 10)
  else none

/-- The number that four hexadecimal digits stand for. -/
def hexDigits (a b c d : UInt8) : Option ℕ := do
  let a ← hexValue a
  let b ← hexValue b
  let c ← hexValue c
  let d ← hexValue d
  return 4096 * a + 256 * b + 16 * c + d

def isHighSurrogate (n : ℕ) : Bool := decide (0xd800 ≤ n) && decide (n < 0xdc00)

def isLowSurrogate (n : ℕ) : Bool := decide (0xdc00 ≤ n) && decide (n < 0xe000)

def utf8Encode (n : ℕ) : Bytes := String.utf8EncodeChar (Char.ofNat n)

/-- What the text between the quotation marks of a string stands for. -/
def unescape : Bytes → Option Bytes
  | [] => some []
  | backslash :: 0x75 :: a :: b :: c :: d :: rest =>
    match hexDigits a b c d with
    | none => none
    | some n =>
      if isHighSurrogate n then
        match rest with
        | backslash :: 0x75 :: a' :: b' :: c' :: d' :: rest' =>
          match hexDigits a' b' c' d' with
          | none => none
          | some low =>
            if isLowSurrogate low then
              (unescape rest').map
                (utf8Encode (0x10000 + 0x400 * (n - 0xd800) + (low - 0xdc00)) ++ ·)
            else none
        | _ => none
      else if isLowSurrogate n then none
      else (unescape rest).map (utf8Encode n ++ ·)
  | backslash :: e :: rest =>
    match simpleEscape e with
    | none => none
    | some b => (unescape rest).map (b :: ·)
  | b :: rest =>
    if b = quote ∨ b = backslash ∨ b < 0x20 then none else (unescape rest).map (b :: ·)

def isUtf8 (s : Bytes) : Bool := s.toByteArray.validateUTF8

/-- The text of a string between its quotation marks. -/
abbrev StringToken := { raw : Bytes // ∃ s, unescape raw = some s ∧ isUtf8 s = true }

def StringToken.text (token : StringToken) : Bytes := quote :: (token.1 ++ [quote])

def StringToken.decoded (token : StringToken) : Bytes := (unescape token.1).getD []

def IsDigits (text : Bytes) : Prop := text ≠ [] ∧ ∀ b ∈ text, isDigit b = true

inductive IsNumber : Bytes → Prop
  | mk {sign whole fraction exponent} : sign = [] ∨ sign = [0x2d] →
      IsDigits whole → (whole.head? = some 0x30 → whole = [0x30]) →
      (fraction = [] ∨ ∃ ds, IsDigits ds ∧ fraction = 0x2e :: ds) →
      (exponent = [] ∨ ∃ e sign ds, (e = 0x65 ∨ e = 0x45) ∧
        (sign = [] ∨ sign = [0x2b] ∨ sign = [0x2d]) ∧ IsDigits ds ∧ exponent = e :: (sign ++ ds)) →
      IsNumber (sign ++ whole ++ fraction ++ exponent)

abbrev NumberToken := { text : Bytes // IsNumber text }

def digitsValue (ds : Bytes) : ℕ := ds.foldl (fun n b => 10 * n + (b.toNat - 0x30)) 0

/-- The integer a number is written as, if 64 bits with a sign hold it. There is no negative
zero. -/
def integerOf (text : Bytes) : Option ℤ :=
  let negative := text.head? == some 0x2d
  let ds := if negative then text.tail else text
  let n : ℤ := digitsValue ds
  let value := if negative then -n else n
  if ds = [] ∨ ds.all isDigit = false ∨ (negative = true ∧ n = 0) then none
  else if -2 ^ 63 ≤ value ∧ value < 2 ^ 63 then some value
  else none

mutual

/-- A value with all the space inside it. -/
inductive Tree
  | null
  | true
  | false
  | number (token : NumberToken)
  | string (token : StringToken)
  | emptyArray (space : Space)
  | array (items : Items)
  | emptyObject (space : Space)
  | object (members : Members)

inductive Items
  | last (before : Space) (value : Tree) (after : Space)
  | cons (before : Space) (value : Tree) (after : Space) (rest : Items)

inductive Members
  | last (before : Space) (name : StringToken) (afterName beforeValue : Space) (value : Tree)
      (after : Space)
  | cons (before : Space) (name : StringToken) (afterName beforeValue : Space) (value : Tree)
      (after : Space) (rest : Members)

end

def nullText : Bytes := [0x6e, 0x75, 0x6c, 0x6c]

def trueText : Bytes := [0x74, 0x72, 0x75, 0x65]

def falseText : Bytes := [0x66, 0x61, 0x6c, 0x73, 0x65]

mutual

def Tree.text : Tree → Bytes
  | .null => nullText
  | .true => trueText
  | .false => falseText
  | .number token => token.1
  | .string token => token.text
  | .emptyArray space => openBracket :: (space.1 ++ [closeBracket])
  | .array items => openBracket :: (items.text ++ [closeBracket])
  | .emptyObject space => openBrace :: (space.1 ++ [closeBrace])
  | .object members => openBrace :: (members.text ++ [closeBrace])

def Items.text : Items → Bytes
  | .last before value after => before.1 ++ (value.text ++ after.1)
  | .cons before value after rest => before.1 ++ (value.text ++ (after.1 ++ comma :: rest.text))

def Members.text : Members → Bytes
  | .last before name afterName beforeValue value after =>
    before.1 ++ (name.text ++ (afterName.1 ++ colon :: (beforeValue.1 ++ (value.text ++ after.1))))
  | .cons before name afterName beforeValue value after rest =>
    before.1 ++ (name.text ++ (afterName.1 ++ colon ::
      (beforeValue.1 ++ (value.text ++ (after.1 ++ comma :: rest.text)))))

end

mutual

/-- How deep arrays and objects stand in each other. -/
def Tree.depth : Tree → ℕ
  | .emptyArray _ => 1
  | .array items => items.depth + 1
  | .emptyObject _ => 1
  | .object members => members.depth + 1
  | _ => 0

def Items.depth : Items → ℕ
  | .last _ value _ => value.depth
  | .cons _ value _ rest => max value.depth rest.depth

def Members.depth : Members → ℕ
  | .last _ _ _ _ value _ => value.depth
  | .cons _ _ _ _ value _ rest => max value.depth rest.depth

end

def Tree.asString : Tree → Option Bytes
  | .string token => some token.decoded
  | _ => none

def Tree.asBool : Tree → Option Bool
  | .true => some Bool.true
  | .false => some Bool.false
  | _ => none

def Tree.asInteger : Tree → Option ℤ
  | .number token => integerOf token.1
  | _ => none

structure Document where
  before : Space
  root : Tree
  after : Space

def Document.text (doc : Document) : Bytes := doc.before.1 ++ (doc.root.text ++ doc.after.1)

/-- No quotation mark stands in the text but behind a backslash. -/
inductive Closed : Bytes → Prop
  | nil : Closed []
  | plain {b rest} : b ≠ quote → b ≠ backslash → Closed rest → Closed (b :: rest)
  | escape {e rest} : Closed rest → Closed (backslash :: e :: rest)

theorem hexValue_ne {b : UInt8} {n : ℕ} (h : hexValue b = some n) : b ≠ quote ∧ b ≠ backslash := by
  constructor <;>
  · rintro rfl
    revert h
    decide +revert

theorem hexDigits_ne {a b c d : UInt8} {n : ℕ} (h : hexDigits a b c d = some n) :
    ∀ x ∈ [a, b, c, d], x ≠ quote ∧ x ≠ backslash := by
  unfold hexDigits at h
  obtain ⟨va, ha, h⟩ := Option.bind_eq_some_iff.mp h
  obtain ⟨vb, hb, h⟩ := Option.bind_eq_some_iff.mp h
  obtain ⟨vc, hc, h⟩ := Option.bind_eq_some_iff.mp h
  obtain ⟨vd, hd, -⟩ := Option.bind_eq_some_iff.mp h
  simp only [List.forall_mem_cons]
  exact ⟨hexValue_ne ha, hexValue_ne hb, hexValue_ne hc, hexValue_ne hd, by simp⟩

theorem Closed.unicode {a b c d : UInt8} {n : ℕ} {rest : Bytes} (h : hexDigits a b c d = some n)
    (hrest : Closed rest) : Closed (backslash :: 0x75 :: a :: b :: c :: d :: rest) := by
  have hne := hexDigits_ne h
  simp only [List.forall_mem_cons] at hne
  obtain ⟨ha, hb, hc, hd, -⟩ := hne
  exact .escape (.plain ha.1 ha.2 (.plain hb.1 hb.2 (.plain hc.1 hc.2 (.plain hd.1 hd.2 hrest))))

theorem closed_of_unescape {raw s : Bytes} (h : unescape raw = some s) : Closed raw := by
  fun_induction unescape raw generalizing s with
  | case1 => exact .nil
  | case4 a b c d n hn _ a' b' c' d' rest' low hlow _ ih =>
    obtain ⟨t, ht, -⟩ := Option.map_eq_some_iff.mp h
    exact .unicode hn (.unicode hlow (ih ht))
  | case8 a b c d rest n hn _ _ ih =>
    obtain ⟨t, ht, -⟩ := Option.map_eq_some_iff.mp h
    exact .unicode hn (ih ht)
  | case10 e rest _ b _ ih =>
    obtain ⟨t, ht, -⟩ := Option.map_eq_some_iff.mp h
    exact .escape (ih ht)
  | case12 b rest _ _ hb ih =>
    obtain ⟨t, ht, -⟩ := Option.map_eq_some_iff.mp h
    exact .plain (fun heq => hb (.inl heq)) (fun heq => hb (.inr (.inl heq))) (ih ht)
  | _ => cases h

theorem length_utf8Encode_pos (n : ℕ) : 0 < (utf8Encode n).length := by
  rw [utf8Encode, String.length_utf8EncodeChar]
  exact Char.utf8Size_pos _

theorem length_utf8Encode_pair {high low : ℕ} (hhigh : isHighSurrogate high = true)
    (hlow : isLowSurrogate low = true) :
    (utf8Encode (0x10000 + 0x400 * (high - 0xd800) + (low - 0xdc00))).length = 4 := by
  simp only [isHighSurrogate, isLowSurrogate, Bool.and_eq_true, decide_eq_true_eq] at hhigh hlow
  generalize hn : 0x10000 + 0x400 * (high - 0xd800) + (low - 0xdc00) = n
  have hvalid : n.isValidChar := .inr ⟨by omega, by omega⟩
  rw [utf8Encode, String.length_utf8EncodeChar, Char.utf8Size_eq_four_iff,
    UInt32.lt_iff_toNat_lt]
  change 0xffff < (Char.ofNat n).toNat
  have hnat : (Char.ofNat n).toNat = n := by
    rw [Char.ofNat, dif_pos hvalid]
    rfl
  omega

theorem length_le_of_unescape {raw s : Bytes} (h : unescape raw = some s) :
    raw.length ≤ 6 * s.length := by
  fun_induction unescape raw generalizing s with
  | case1 => exact Nat.zero_le _
  | case4 a b c d n hn hhigh a' b' c' d' rest' low hlow hislow ih =>
    obtain ⟨t, ht, rfl⟩ := Option.map_eq_some_iff.mp h
    have hlength := ih ht
    rw [List.length_append, length_utf8Encode_pair hhigh hislow]
    simp only [List.length_cons]
    omega
  | case8 a b c d rest n hn _ _ ih =>
    obtain ⟨t, ht, rfl⟩ := Option.map_eq_some_iff.mp h
    have hlength := ih ht
    have hpos := length_utf8Encode_pos n
    rw [List.length_append]
    simp only [List.length_cons]
    omega
  | case10 e rest _ b _ ih =>
    obtain ⟨t, ht, rfl⟩ := Option.map_eq_some_iff.mp h
    have hlength := ih ht
    simp only [List.length_cons]
    omega
  | case12 b rest _ _ hb ih =>
    obtain ⟨t, ht, rfl⟩ := Option.map_eq_some_iff.mp h
    have hlength := ih ht
    simp only [List.length_cons]
    omega
  | _ => cases h

theorem StringToken.closed (token : StringToken) : Closed token.1 :=
  closed_of_unescape token.2.choose_spec.1

theorem StringToken.unescape_eq (token : StringToken) : unescape token.1 = some token.decoded := by
  obtain ⟨s, hs, -⟩ := token.2
  rw [decoded, hs, Option.getD_some]

theorem StringToken.length_text_le (token : StringToken) :
    token.text.length ≤ 6 * token.decoded.length + 2 := by
  have hlength := length_le_of_unescape token.unescape_eq
  rw [text, List.length_cons, List.length_append, List.length_singleton]
  omega

def isNumberByte (b : UInt8) : Bool :=
  isDigit b || b == 0x2d || b == 0x2b || b == 0x2e || b == 0x65 || b == 0x45

theorem IsDigits.isNumberByte {ds : Bytes} (h : IsDigits ds) :
    ∀ b ∈ ds, JsonBytes.isNumberByte b = true := by
  intro b hb
  simp [JsonBytes.isNumberByte, h.2 b hb]

theorem IsNumber.isNumberByte {text : Bytes} (h : IsNumber text) :
    ∀ b ∈ text, JsonBytes.isNumberByte b = true := by
  obtain ⟨hsign, hwhole, -, hfraction, hexponent⟩ := h
  intro b hb
  simp only [List.mem_append] at hb
  rcases hb with ((hb | hb) | hb) | hb
  · rcases hsign with rfl | rfl
    · cases hb
    · rw [List.mem_singleton.mp hb]
      rfl
  · exact hwhole.isNumberByte b hb
  · rcases hfraction with rfl | ⟨ds, hds, rfl⟩
    · cases hb
    · rcases List.mem_cons.mp hb with rfl | hb
      · rfl
      · exact hds.isNumberByte b hb
  · rcases hexponent with rfl | ⟨e, sign, ds, he, hsign, hds, rfl⟩
    · cases hb
    · rcases List.mem_cons.mp hb with rfl | hb
      · rcases he with rfl | rfl <;> rfl
      · rcases List.mem_append.mp hb with hb | hb
        · rcases hsign with rfl | rfl | rfl
          · cases hb
          · rw [List.mem_singleton.mp hb]
            rfl
          · rw [List.mem_singleton.mp hb]
            rfl
        · exact hds.isNumberByte b hb

theorem IsNumber.exists_head {text : Bytes} (h : IsNumber text) :
    ∃ b rest, text = b :: rest ∧ (b = 0x2d ∨ isDigit b = true) := by
  obtain ⟨hsign, ⟨hne, hwhole⟩, -, -, -⟩ := h
  rename_i sign whole fraction exponent
  obtain ⟨b, ds, rfl⟩ := List.exists_cons_of_ne_nil hne
  rcases hsign with rfl | rfl
  · exact ⟨b, ds ++ fraction ++ exponent, by simp, .inr (hwhole b List.mem_cons_self)⟩
  · exact ⟨0x2d, b :: ds ++ fraction ++ exponent, by simp, .inl rfl⟩

/-- The byte may be the first one of the value. -/
def Leads : Tree → UInt8 → Prop
  | .null, b => b = 0x6e
  | .true, b => b = 0x74
  | .false, b => b = 0x66
  | .number _, b => isNumberByte b = true
  | .string _, b => b = quote
  | .emptyArray _, b => b = openBracket
  | .array _, b => b = openBracket
  | .emptyObject _, b => b = openBrace
  | .object _, b => b = openBrace

theorem exists_leads (tree : Tree) : ∃ b text, tree.text = b :: text ∧ Leads tree b := by
  cases tree with
  | number token =>
    obtain ⟨b, text, htext, -⟩ := token.2.exists_head
    exact ⟨b, text, htext, token.2.isNumberByte b (htext ▸ List.mem_cons_self)⟩
  | _ => exact ⟨_, _, rfl, rfl⟩

theorem leads_of_head? {tree : Tree} {rest : Bytes} {b : UInt8}
    (h : (tree.text ++ rest).head? = some b) : Leads tree b := by
  obtain ⟨c, text, htext, hc⟩ := exists_leads tree
  rw [htext] at h
  obtain rfl := Option.some.inj h
  exact hc

end KiroProxy.JsonBytes
