import KiroProxy.JsonBytes.Syntax
import KiroProxy.KeyedList

/-!
# JSON values

What a text says, without its white space and its spelling: the value that `serde_json` reads, with
the members of an object in the order of their names, and the text it writes for a value.
-/

namespace KiroProxy.JsonBytes

abbrev Utf8 := { s : Bytes // isUtf8 s = true }

def escapeDigit (n : ℕ) : UInt8 := if n < 10 then 0x30 + UInt8.ofNat n else 0x57 + UInt8.ofNat n

def escapeByte (b : UInt8) : Bytes :=
  if b = quote then [backslash, quote]
  else if b = backslash then [backslash, backslash]
  else if b = 0x08 then [backslash, 0x62]
  else if b = 0x0c then [backslash, 0x66]
  else if b = 0x0a then [backslash, 0x6e]
  else if b = 0x0d then [backslash, 0x72]
  else if b = 0x09 then [backslash, 0x74]
  else if b < 0x20 then
    [backslash, 0x75, 0x30, 0x30, escapeDigit (b.toNat / 16), escapeDigit (b.toNat % 16)]
  else [b]

def escape (s : Bytes) : Bytes := s.flatMap escapeByte

theorem unescape_unicode {a b c d : UInt8} {n : ℕ} (h : hexDigits a b c d = some n)
    (hhigh : isHighSurrogate n = false) (hlow : isLowSurrogate n = false) (rest : Bytes) :
    unescape (backslash :: 0x75 :: a :: b :: c :: d :: rest) =
      (unescape rest).map (utf8Encode n ++ ·) := by
  refine (unescape.eq_2 a b c d rest).trans ?_
  rw [h]
  dsimp only
  rw [hhigh, hlow]
  rfl

theorem unescape_simple {e b : UInt8} (h : simpleEscape e = some b) (rest : Bytes) :
    unescape (backslash :: e :: rest) = (unescape rest).map (b :: ·) := by
  have hne : e ≠ 0x75 := by
    rintro rfl
    cases h
  refine (unescape.eq_3 e rest fun _ _ _ _ _ he _ => hne he).trans ?_
  rw [h]

theorem unescape_plain {b : UInt8} (h : ¬(b = quote ∨ b = backslash ∨ b < 0x20)) (rest : Bytes) :
    unescape (b :: rest) = (unescape rest).map (b :: ·) := by
  obtain ⟨-, hbackslash, -⟩ : b ≠ quote ∧ b ≠ backslash ∧ ¬b < 0x20 := by
    simpa only [not_or] using h
  rw [unescape, if_neg h]
  · intro a b' c d rest' hb
    exact absurd hb hbackslash
  · intro e rest' hb
    exact absurd hb hbackslash

theorem control_of_lt : ∀ n < 0x20,
    hexDigits 0x30 0x30 (escapeDigit (n / 16)) (escapeDigit (n % 16)) = some n ∧
      isHighSurrogate n = false ∧ isLowSurrogate n = false ∧ utf8Encode n = [UInt8.ofNat n] := by
  decide

theorem unescape_escapeByte (b : UInt8) (rest : Bytes) :
    unescape (escapeByte b ++ rest) = (unescape rest).map (b :: ·) := by
  unfold escapeByte
  split_ifs with hquote hbackslash h8 hc ha hd h9 hcontrol
  · rw [hquote]
    exact unescape_simple rfl rest
  · rw [hbackslash]
    exact unescape_simple rfl rest
  · rw [h8]
    exact unescape_simple rfl rest
  · rw [hc]
    exact unescape_simple rfl rest
  · rw [ha]
    exact unescape_simple rfl rest
  · rw [hd]
    exact unescape_simple rfl rest
  · rw [h9]
    exact unescape_simple rfl rest
  · obtain ⟨hdigits, hhigh, hlow, hencode⟩ := control_of_lt b.toNat hcontrol
    rw [UInt8.ofNat_toNat] at hencode
    have h := unescape_unicode hdigits hhigh hlow rest
    rw [hencode] at h
    exact h
  · exact unescape_plain (by simp only [hquote, hbackslash, hcontrol, or_self, not_false_eq_true]) rest

theorem unescape_escape (s : Bytes) : unescape (escape s) = some s := by
  induction s with
  | nil => rfl
  | cons b s ih =>
    rw [escape, List.flatMap_cons, unescape_escapeByte]
    exact congrArg _ ih

def StringToken.ofUtf8 (s : Utf8) : StringToken :=
  ⟨escape s.1, s.1, unescape_escape s.1, s.2⟩

@[simp] theorem decoded_ofUtf8 (s : Utf8) : (StringToken.ofUtf8 s).decoded = s.1 := by
  rw [StringToken.decoded, StringToken.ofUtf8, unescape_escape]
  rfl

def digitByte (c : Char) : UInt8 := UInt8.ofNat c.toNat

def decimal (n : ℕ) : Bytes := (Nat.toDigits 10 n).map digitByte

theorem digitByte_of_isDigit {c : Char} (h : c.isDigit = true) :
    isDigit (digitByte c) = true ∧ (digitByte c).toNat = c.toNat := by
  obtain ⟨hlow, hhigh⟩ := Char.isDigit_iff_toNat.mp h
  change 48 ≤ c.toNat at hlow
  change c.toNat ≤ 57 at hhigh
  have hall : ∀ n < 128, 48 ≤ n → n ≤ 57 →
      isDigit (UInt8.ofNat n) = true ∧ (UInt8.ofNat n).toNat = n := by decide
  exact hall c.toNat (by omega) hlow hhigh

theorem isDigits_decimal (n : ℕ) : IsDigits (decimal n) := by
  constructor
  · rw [decimal, ne_eq, List.map_eq_nil_iff]
    exact Nat.toDigits_ne_nil
  · intro b hb
    obtain ⟨c, hc, rfl⟩ := List.mem_map.mp hb
    exact (digitByte_of_isDigit (Nat.isDigit_of_mem_toDigits (by decide) (by decide) hc)).1

/-- Only zero begins with a zero. -/
theorem eq_zero_of_head? {n : ℕ} (h : (Nat.toDigits 10 n).head? = some '0') : n = 0 := by
  induction n using Nat.strong_induction_on with
  | h n ih =>
    rcases Nat.lt_or_ge n 10 with hlt | hge
    · have hall : ∀ m < 10, Nat.digitChar m = '0' → m = 0 := by decide
      rw [Nat.toDigits_of_lt_base hlt] at h
      exact hall n hlt (Option.some.inj h)
    · rw [Nat.toDigits_of_base_le (by decide) hge,
        List.head?_append_of_ne_nil _ Nat.toDigits_ne_nil] at h
      have hzero := ih (n / 10) (by omega) h
      omega

theorem decimal_of_head? {n : ℕ} (h : (decimal n).head? = some 0x30) : decimal n = [0x30] := by
  have hzero : n = 0 := by
    rw [decimal, List.head?_map] at h
    obtain ⟨c, hc, hbyte⟩ := Option.map_eq_some_iff.mp h
    have hdigit := Nat.isDigit_of_mem_toDigits (by decide) (by decide) (List.mem_of_mem_head? hc)
    have hnat := (digitByte_of_isDigit hdigit).2
    rw [hbyte] at hnat
    have hchar : c = '0' := Char.toNat_inj.mp hnat.symm
    exact eq_zero_of_head? (hchar ▸ hc)
  rw [hzero]
  rfl

theorem isNumber_of_digits {sign whole : Bytes} (hsign : sign = [] ∨ sign = [0x2d])
    (hwhole : IsDigits whole) (hzero : whole.head? = some 0x30 → whole = [0x30]) :
    IsNumber (sign ++ whole) := by
  have h := @IsNumber.mk sign whole [] [] hsign hwhole hzero (.inl rfl) (.inl rfl)
  rwa [List.append_nil, List.append_nil] at h

def integerToken : ℤ → NumberToken
  | .ofNat n =>
    ⟨decimal n, isNumber_of_digits (.inl rfl) (isDigits_decimal n) decimal_of_head?⟩
  | .negSucc n =>
    ⟨0x2d :: decimal (n + 1),
      isNumber_of_digits (.inr rfl) (isDigits_decimal (n + 1)) decimal_of_head?⟩

inductive Value (N : Type)
  | null
  | bool (b : Bool)
  | number (n : N)
  | string (s : Utf8)
  | array (items : List (Value N))
  | object (fields : List (Utf8 × Value N))

/-- The members of an object, in the order of their names. -/
abbrev Fields (N : Type) := List (Utf8 × Value N)

def Fields.insert {N : Type} (name : Utf8) (value : Value N) : Fields N → Fields N
  | [] => [(name, value)]
  | (other, old) :: fields =>
    if name = other then (name, value) :: fields
    else if name.1 < other.1 then (name, value) :: (other, old) :: fields
    else (other, old) :: Fields.insert name value fields

def Value.asStr {N : Type} : Value N → Option Utf8
  | .string s => some s
  | _ => none

section Read

variable {N : Type} (readNumber : NumberToken → Option N)

def StringToken.utf8 (token : StringToken) : Utf8 :=
  ⟨token.decoded, by
    obtain ⟨s, hs, hutf8⟩ := token.2
    rw [decoded, hs]
    exact hutf8⟩

mutual

/-- The value of a text; the last of several members with one name counts. -/
def Tree.value : Tree → Option (Value N)
  | .null => some .null
  | .true => some (.bool Bool.true)
  | .false => some (.bool Bool.false)
  | .number token => (readNumber token).map .number
  | .string token => some (.string token.utf8)
  | .emptyArray _ => some (.array [])
  | .array items => items.values.map .array
  | .emptyObject _ => some (.object [])
  | .object members => (members.fields []).map .object

def Items.values : Items → Option (List (Value N))
  | .last _ value _ => value.value.map fun v => [v]
  | .cons _ value _ rest => do
    let v ← value.value
    let vs ← rest.values
    return v :: vs

def Members.fields : Members → Fields N → Option (Fields N)
  | .last _ name _ _ value _, fields => value.value.map fun v => fields.insert name.utf8 v
  | .cons _ name _ _ value _ rest, fields => do
    let v ← value.value
    rest.fields (fields.insert name.utf8 v)

end

end Read

def Space.empty : Space := ⟨[], nofun⟩

def Items.ofTrees : Tree → List Tree → Items
  | value, [] => .last .empty value .empty
  | value, next :: rest => .cons .empty value .empty (.ofTrees next rest)

def Members.ofTrees : StringToken × Tree → List (StringToken × Tree) → Members
  | (name, value), [] => .last .empty name .empty .empty value .empty
  | (name, value), next :: rest => .cons .empty name .empty .empty value .empty (.ofTrees next rest)

section Write

variable {N : Type} (numberText : N → NumberToken)

mutual

/-- The tree of the text written for a value, which has no white space. -/
def Value.tree : Value N → Tree
  | .null => .null
  | .bool b => if b = true then .true else .false
  | .number n => .number (numberText n)
  | .string s => .string (.ofUtf8 s)
  | .array items =>
    match Value.trees items with
    | [] => .emptyArray .empty
    | first :: rest => .array (.ofTrees first rest)
  | .object fields =>
    match Value.members fields with
    | [] => .emptyObject .empty
    | first :: rest => .object (.ofTrees first rest)

def Value.trees : List (Value N) → List Tree
  | [] => []
  | value :: rest => value.tree :: Value.trees rest

def Value.members : List (Utf8 × Value N) → List (StringToken × Tree)
  | [] => []
  | (name, value) :: rest => (.ofUtf8 name, value.tree) :: Value.members rest

end

end Write

end KiroProxy.JsonBytes
