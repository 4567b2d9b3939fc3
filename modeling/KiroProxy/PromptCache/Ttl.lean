import KiroProxy.Json
import KiroProxy.PromptCache.Profile

/-!
# Times to live

Two functions read the time to live of a cache marker: one for the local cache, and one for what is
reported of a write. Both take a number, or a text of a number with a unit. They multiply by the
unit in 64 bits, and a product that does not fit has no result here.

Changing a text to lower case is a parameter. It is only described where the result could be read
as a time.
-/

namespace KiroProxy.PromptCache.Ttl

structure Lowercase where
  toLowercase : List Char → List Char
  /-- No other letters become those of a number with a unit than their capitals. -/
  eq_ascii : ∀ text, (∀ c ∈ toLowercase text, c = '+' ∨ c.isDigit = true ∨ c = 'h' ∨ c = 'm' ∨ c = 's') →
    toLowercase text = text.map Char.toLower

def digitsValue (digits : List Char) : ℕ :=
  digits.foldl (fun value c => 10 * value + (c.toNat - '0'.toNat)) 0

/-- The digits of a text that is read as a number, behind a sign. -/
def unsigned : List Char → List Char
  | '+' :: digits => digits
  | text => text

def parseU64 (text : List Char) : Option ℕ :=
  let digits := unsigned text
  if digits ≠ [] ∧ digits.all Char.isDigit = true ∧ digitsValue digits < 2 ^ 64 then
    some (digitsValue digits)
  else none

def mulU64 (a b : ℕ) : Option ℕ := if a * b < 2 ^ 64 then some (a * b) else none

inductive TtlUnit
  | hours
  | minutes
  | seconds
  | plain
  deriving DecidableEq, Repr

namespace TtlUnit

def suffix : TtlUnit → List Char
  | hours => ['h']
  | minutes => ['m']
  | seconds => ['s']
  | plain => []

def factor : TtlUnit → ℕ
  | hours => 3600
  | minutes => 60
  | seconds => 1
  | plain => 1

end TtlUnit

def stripSuffix (c : Char) (text : List Char) : Option (List Char) :=
  if text.getLast? = some c then some text.dropLast else none

/-- The unit at the end of a text, and what stands before it. -/
def splitUnit (text : List Char) : TtlUnit × List Char :=
  match stripSuffix 'h' text with
  | some raw => (.hours, raw)
  | none =>
    match stripSuffix 'm' text with
    | some raw => (.minutes, raw)
    | none =>
      match stripSuffix 's' text with
      | some raw => (.seconds, raw)
      | none => (.plain, text)

/-- The outer result is missing if the product overflows, the inner one if there is no number. -/
def scaleNumber (number : Option ℕ) (scale : ℕ → Option ℕ) : Option (Option ℕ) :=
  match number with
  | none => some none
  | some n => (scale n).map some

def asU64 : Json → Option ℕ
  | .int n => if 0 ≤ n ∧ n < 2 ^ 64 then some n.toNat else none
  | _ => none

def durationFromSecs (secs : ℕ) : ℕ := secs * second

def scaleTtl (unit : TtlUnit) (number : ℕ) : Option ℕ :=
  match unit with
  | .hours => do
    let minutes ← mulU64 number 60
    mulU64 minutes 60
  | .minutes => mulU64 number 60
  | .seconds => some number
  | .plain => some number

def parseTtlText (lower : Lowercase) (text : List Char) : Option (Option ℕ) :=
  let (unit, raw) := splitUnit (lower.toLowercase (trimChars text))
  scaleNumber (parseU64 raw) (scaleTtl unit)

def parseTtl (lower : Lowercase) (value : Json) : Option (Option ℕ) :=
  match value with
  | .int _ => some ((asU64 value).map durationFromSecs)
  | .str s => (parseTtlText lower s.toList).map (Option.map durationFromSecs)
  | _ => some none

def normalizeTtl (ttl : ℕ) : ℕ :=
  if defaultPromptCacheTtl < ttl then hourPromptCacheTtl else defaultPromptCacheTtl

def get (value : Json) (key : String) : Option Json :=
  match value with
  | .obj fields => Json.getField fields key
  | _ => none

/-- Whether a marker is there and is ephemeral. -/
def isEphemeral (cache : Json) : Bool :=
  match (get cache "type").bind Json.asStr with
  | some kind => toAsciiLowercase kind == "ephemeral"
  | none => false

def extractPromptCacheTtl (lower : Lowercase) (value : Json) : Option (Option ℕ) :=
  match get value "cache_control" with
  | none => some none
  | some cache =>
    if isEphemeral cache then
      match get cache "ttl" with
      | none => some (some (normalizeTtl defaultPromptCacheTtl))
      | some ttl =>
        (parseTtl lower ttl).map fun ttl => some (normalizeTtl (ttl.getD defaultPromptCacheTtl))
    else some none

inductive CacheWriteTtl
  | fiveMinutes
  | oneHour
  deriving DecidableEq, Repr

def CacheWriteTtl.duration : CacheWriteTtl → ℕ
  | fiveMinutes => defaultPromptCacheTtl
  | oneHour => hourPromptCacheTtl

def scaleWriteTtl (unit : TtlUnit) (number : ℕ) : Option ℕ :=
  match unit with
  | .hours => mulU64 number 3600
  | .minutes => mulU64 number 60
  | .seconds => some number
  | .plain => some number

def writeTtlText (text : List Char) : Option (Option ℕ) :=
  let (unit, raw) := splitUnit ((trimChars text).map Char.toLower)
  scaleNumber (parseU64 (if unit = .plain then raw else trimChars raw)) (scaleWriteTtl unit)

def writeTtlSeconds (ttl : Json) : Option (Option ℕ) :=
  match ttl with
  | .int _ => some (asU64 ttl)
  | .str s => writeTtlText s.toList
  | _ => some none

def writeTtlOf (seconds : ℕ) : CacheWriteTtl := if 300 < seconds then .oneHour else .fiveMinutes

def ttlOfHolder (value : Json) : Option (Option CacheWriteTtl) :=
  match (get value "cache_control").bind (get · "ttl") with
  | none => some none
  | some ttl => (writeTtlSeconds ttl).map (Option.map writeTtlOf)

/-- A text is a number with a unit, with white space around them and between them. -/
inductive Spells : List Char → ℕ → TtlUnit → Prop
  | mk {before digits gap suffix after number unit} : isBlank before = true → isBlank gap = true →
      isBlank after = true → parseU64 digits = some number →
      suffix.map Char.toLower = TtlUnit.suffix unit → (unit = .plain → gap = []) →
      Spells (before ++ (digits ++ gap ++ suffix) ++ after) number unit

/-- A value denotes a number of seconds, of which only the number before the unit has 64 bits. -/
inductive Denotes : Json → ℕ → Prop
  | int {n : ℤ} : 0 ≤ n → n < 2 ^ 64 → Denotes (.int n) n.toNat
  | str {s : String} {number unit} : Spells s.toList number unit →
      Denotes (.str s) (number * unit.factor)

/-- Nothing overflows when a time to live is read, and where it is read as a time for both purposes
the two agree. -/
structure Reads (lower : Lowercase) (ttl : Json) : Prop where
  parse : parseTtl lower ttl ≠ none
  write : ∀ value cache, get value "cache_control" = some cache → get cache "ttl" = some ttl →
    ttlOfHolder value ≠ none
  agree : ∀ value cache duration write, get value "cache_control" = some cache →
    get cache "ttl" = some ttl → isEphemeral cache = true →
    parseTtl lower ttl = some (some duration) → ttlOfHolder value = some (some write) →
    extractPromptCacheTtl lower value = some (some write.duration) ∧
      ∃ seconds, Denotes ttl seconds ∧ duration = durationFromSecs seconds ∧
        ∀ denoted, Denotes ttl denoted → (write = .oneHour ↔ 300 < denoted)

theorem toLower_of_not_isUpper {c : Char} (h : c.isUpper = false) : c.toLower = c := by
  rw [Char.toLower, dif_neg]
  exact of_decide_eq_false h

theorem isAlpha_toLower (c : Char) : c.toLower.isAlpha = c.isAlpha := by
  cases hupper : c.isUpper with
  | true =>
    have halphanum : c.isAlphanum = true := by rw [Char.isAlphanum, Char.isAlpha, hupper]; rfl
    exact (isAlphanum_case halphanum).2.2
  | false => rw [toLower_of_not_isUpper hupper]

theorem toLower_eq_self {c : Char} (h : c.toLower.isAlpha = false) : c.toLower = c := by
  rw [isAlpha_toLower, Char.isAlpha, Bool.or_eq_false_iff] at h
  exact toLower_of_not_isUpper h.1

theorem map_toLower_eq_self {text : List Char} (h : ∀ c ∈ text, c.toLower.isAlpha = false) :
    text.map Char.toLower = text := by
  conv_rhs => rw [← List.map_id text]
  exact List.map_congr_left (fun c hc => toLower_eq_self (h c hc))

theorem not_isAlpha_of_isWhitespace {c : Char} (h : isWhitespace c = true) : c.isAlpha = false := by
  by_cases hc : c.toNat < 128
  · revert h
    refine of_ascii (P := fun c => isWhitespace c = true → c.isAlpha = false) ?_ hc
    decide +kernel
  · rw [← Bool.not_eq_true]
    exact fun halpha => hc (lt_of_isAlphanum (by rw [Char.isAlphanum, halpha]; rfl))

def IsNumberChar (c : Char) : Prop := c = '+' ∨ c.isDigit = true

theorem IsNumberChar.lt {c : Char} (h : IsNumberChar c) : c.toNat < 128 := by
  rcases h with rfl | h
  · decide
  · exact lt_of_isAlphanum (by rw [Char.isAlphanum, h, Bool.or_true])

theorem IsNumberChar.not_isAlpha {c : Char} (h : IsNumberChar c) : c.isAlpha = false := by
  refine of_ascii (P := fun c => c = '+' ∨ c.isDigit = true → c.isAlpha = false) ?_ h.lt h
  decide +kernel

theorem IsNumberChar.not_isWhitespace {c : Char} (h : IsNumberChar c) : isWhitespace c = false := by
  refine of_ascii (P := fun c => c = '+' ∨ c.isDigit = true → isWhitespace c = false) ?_ h.lt h
  decide +kernel

theorem mem_unsigned {text : List Char} {c : Char} (h : c ∈ text) :
    c = '+' ∨ c ∈ unsigned text := by
  fun_cases unsigned text with
  | case1 digits => exact List.mem_cons.mp h
  | case2 _ _ => exact .inr h

theorem parseU64_eq_some {text : List Char} {number : ℕ} (h : parseU64 text = some number) :
    text ≠ [] ∧ (∀ c ∈ text, IsNumberChar c) ∧ number < 2 ^ 64 := by
  unfold parseU64 at h
  dsimp only at h
  split_ifs at h with hdigits
  obtain ⟨hne, hall, hlt⟩ := hdigits
  obtain rfl := Option.some.inj h
  refine ⟨?_, fun c hc => ?_, hlt⟩
  · rintro rfl
    exact hne rfl
  · exact (mem_unsigned hc).imp_right (List.all_eq_true.mp hall c)

theorem stripSuffix_append_singleton (c d : Char) (text : List Char) :
    stripSuffix c (text ++ [d]) = if d = c then some text else none := by
  unfold stripSuffix
  rw [List.getLast?_append_of_ne_nil _ (List.cons_ne_nil d []), List.dropLast_concat]
  simp

theorem stripSuffix_eq_some {c : Char} {text raw : List Char} (h : stripSuffix c text = some raw) :
    text = raw ++ [c] := by
  unfold stripSuffix at h
  split_ifs at h with hlast
  obtain rfl := Option.some.inj h
  exact (List.dropLast_append_getLast? c hlast).symm

theorem splitUnit_eq (text : List Char) :
    text = (splitUnit text).2 ++ (splitUnit text).1.suffix := by
  unfold splitUnit
  split
  · exact stripSuffix_eq_some ‹_›
  · split
    · exact stripSuffix_eq_some ‹_›
    · split
      · exact stripSuffix_eq_some ‹_›
      · exact (List.append_nil text).symm

theorem splitUnit_append {raw : List Char} {unit : TtlUnit}
    (hplain : unit = .plain → ∀ c ∈ raw.getLast?, c.isAlpha = false) :
    splitUnit (raw ++ unit.suffix) = (unit, raw) := by
  unfold splitUnit
  cases unit with
  | hours => simp [TtlUnit.suffix, stripSuffix_append_singleton]
  | minutes => simp [TtlUnit.suffix, stripSuffix_append_singleton]
  | seconds => simp [TtlUnit.suffix, stripSuffix_append_singleton]
  | plain =>
    have hstrip {c : Char} (hc : c.isAlpha = true) : stripSuffix c raw = none := by
      apply if_neg
      intro hlast
      rw [hplain rfl c hlast] at hc
      cases hc
    rw [TtlUnit.suffix, List.append_nil, hstrip (by decide), hstrip (by decide), hstrip (by decide)]

theorem trimChars_surround {before after : List Char} (hbefore : isBlank before = true)
    (hafter : isBlank after = true) (text : List Char) :
    trimChars (before ++ text ++ after) = trimChars text := by
  rw [trimChars_append_of_isBlank hafter, trimChars, trimStart_append_of_isBlank hbefore, trimChars]

theorem exists_eq_trimChars (text : List Char) : ∃ before after, isBlank before = true ∧
    isBlank after = true ∧ text = before ++ trimChars text ++ after := by
  have hstart : text.takeWhile isWhitespace ++ trimStart text = text :=
    List.takeWhile_append_dropWhile
  obtain ⟨after, hafter⟩ := List.rdropWhile_prefix isWhitespace (trimStart text)
  refine ⟨text.takeWhile isWhitespace, (trimStart text).rtakeWhile isWhitespace, ?_, ?_, ?_⟩
  · exact List.all_eq_true.mpr fun c hc => List.mem_takeWhile_imp hc
  · exact List.all_eq_true.mpr fun c hc => List.mem_rtakeWhile_imp hc
  · rw [List.append_assoc, trimChars_eq_rdropWhile, List.rdropWhile_append_rtakeWhile, hstart]

theorem isBlank_map_toLower {text : List Char} (h : isBlank (text.map Char.toLower) = true) :
    isBlank text = true := by
  have hall (c : Char) (hc : c ∈ text) : isWhitespace c.toLower = true :=
    List.all_eq_true.mp h c.toLower (List.mem_map_of_mem hc)
  rw [← map_toLower_eq_self fun c hc => not_isAlpha_of_isWhitespace (hall c hc)]
  exact h

theorem map_toLower_of_isBlank {text : List Char} (h : isBlank text = true) :
    text.map Char.toLower = text := by
  apply map_toLower_eq_self
  intro c hc
  rw [isAlpha_toLower]
  exact not_isAlpha_of_isWhitespace (List.all_eq_true.mp h c hc)

theorem map_toLower_of_number {text : List Char} (h : ∀ c ∈ text, IsNumberChar c) :
    text.map Char.toLower = text := by
  apply map_toLower_eq_self
  intro c hc
  rw [isAlpha_toLower]
  exact (h c hc).not_isAlpha

theorem spells_of_map {text before digits gap : List Char} {number : ℕ} {unit : TtlUnit}
    (h : (trimChars text).map Char.toLower = before ++ digits ++ gap ++ unit.suffix)
    (hbefore : isBlank before = true) (hgap : isBlank gap = true)
    (hdigits : parseU64 digits = some number) (hplain : unit = .plain → gap = []) :
    Spells text number unit := by
  obtain ⟨outer, after, houter, hafter, htext⟩ := exists_eq_trimChars text
  obtain ⟨front, suffix, hfront, hfrontMap, hsuffix⟩ := List.map_eq_append_iff.mp h
  obtain ⟨inner, gap', hinner, hinnerMap, hgapMap⟩ := List.map_eq_append_iff.mp hfrontMap
  obtain ⟨before', digits', hdigitsEq, hbeforeMap, hdigitsMap⟩ :=
    List.map_eq_append_iff.mp hinnerMap
  obtain ⟨-, hchars, -⟩ := parseU64_eq_some hdigits
  have hdigits' : digits' = digits := by
    rw [← hdigitsMap]
    refine (map_toLower_eq_self fun c hc => ?_).symm
    exact (hchars _ (hdigitsMap ▸ List.mem_map_of_mem hc)).not_isAlpha
  subst hdigits'
  have hbefore' : isBlank before' = true := isBlank_map_toLower (hbeforeMap ▸ hbefore)
  have hgap' : isBlank gap' = true := isBlank_map_toLower (hgapMap ▸ hgap)
  have hboth : isBlank (outer ++ before') = true := by
    rw [isBlank_append, houter, hbefore', Bool.and_self]
  have hshape : text = (outer ++ before') ++ (digits' ++ gap' ++ suffix) ++ after := by
    rw [htext, hfront, hinner, hdigitsEq]
    simp only [List.append_assoc]
  rw [hshape]
  refine .mk hboth hgap' hafter hdigits hsuffix fun hunit => ?_
  rw [hplain hunit] at hgapMap
  exact List.map_eq_nil_iff.mp hgapMap

/-- A spelled text without the white space around it, in lower case. -/
theorem map_trimChars_of_spells {text : List Char} {number : ℕ} {unit : TtlUnit}
    (h : Spells text number unit) : ∃ digits gap, isBlank gap = true ∧
      parseU64 digits = some number ∧ (unit = .plain → gap = []) ∧
      (trimChars text).map Char.toLower = digits ++ gap ++ unit.suffix := by
  obtain @⟨before, digits, gap, suffix, after, _, _, hbefore, hgap, hafter, hdigits, hsuffix,
    hplain⟩ := h
  obtain ⟨hne, hchars, -⟩ := parseU64_eq_some hdigits
  refine ⟨digits, gap, hgap, hdigits, hplain, ?_⟩
  have hcore : trimChars (digits ++ gap ++ suffix) = digits ++ gap ++ suffix := by
    apply trimChars_eq_self
    · intro c hc
      rw [List.append_assoc, List.head?_append_of_ne_nil _ hne] at hc
      exact (hchars c (List.mem_of_mem_head? hc)).not_isWhitespace
    · intro c hc
      cases hlast : suffix with
      | nil =>
        have hunit : unit = .plain := by
          rw [hlast] at hsuffix
          cases unit <;> first | rfl | cases hsuffix
        rw [hlast, hplain hunit, List.append_nil, List.append_nil] at hc
        exact (hchars c (List.mem_of_mem_getLast? hc)).not_isWhitespace
      | cons d rest =>
        rw [hlast, List.getLast?_append_of_ne_nil _ (List.cons_ne_nil d rest), ← hlast] at hc
        have hmem : c.toLower ∈ unit.suffix :=
          hsuffix ▸ List.mem_map_of_mem (List.mem_of_mem_getLast? hc)
        have halpha : c.isAlpha = true := by
          rw [← isAlpha_toLower]
          cases unit <;> simp_all [TtlUnit.suffix]
        rw [← Bool.not_eq_true]
        intro hspace
        rw [not_isAlpha_of_isWhitespace hspace] at halpha
        cases halpha
  rw [trimChars_surround hbefore hafter, hcore, List.map_append, List.map_append, hsuffix,
    map_toLower_of_number hchars, map_toLower_of_isBlank hgap]

theorem scaleTtl_eq (unit : TtlUnit) {number : ℕ} (h : number < 2 ^ 64) : scaleTtl unit number =
    if number * unit.factor < 2 ^ 64 then some (number * unit.factor) else none := by
  unfold scaleTtl mulU64 TtlUnit.factor
  cases unit with
  | hours =>
    dsimp only
    by_cases hminutes : number * 60 < 2 ^ 64
    · rw [if_pos hminutes, Option.bind_eq_bind, Option.bind_some, mul_assoc]
      rfl
    · rw [if_neg hminutes, if_neg (by omega)]
      rfl
  | minutes => rfl
  | seconds => rw [mul_one, if_pos h]
  | plain => rw [mul_one, if_pos h]

theorem scaleWriteTtl_eq (unit : TtlUnit) {number : ℕ} (h : number < 2 ^ 64) :
    scaleWriteTtl unit number =
      if number * unit.factor < 2 ^ 64 then some (number * unit.factor) else none := by
  unfold scaleWriteTtl mulU64 TtlUnit.factor
  cases unit with
  | hours => rfl
  | minutes => rfl
  | seconds => rw [mul_one, if_pos h]
  | plain => rw [mul_one, if_pos h]

theorem scaleNumber_cases (number : Option ℕ) (scale : ℕ → Option ℕ) :
    scaleNumber number scale = some none ∨
      ∃ n, number = some n ∧ scaleNumber number scale = (scale n).map some := by
  cases number with
  | none => exact .inl rfl
  | some n => exact .inr ⟨n, rfl, rfl⟩

theorem parseTtlText_cases (lower : Lowercase) (text : List Char) :
    parseTtlText lower text = some none ∨ ∃ number unit, Spells text number unit ∧
      parseTtlText lower text = (scaleTtl unit number).map some := by
  have hsplit := splitUnit_eq (lower.toLowercase (trimChars text))
  unfold parseTtlText
  generalize splitUnit (lower.toLowercase (trimChars text)) = parts at hsplit ⊢
  obtain ⟨unit, raw⟩ := parts
  dsimp only at hsplit ⊢
  refine (scaleNumber_cases (parseU64 raw) (scaleTtl unit)).imp_right ?_
  rintro ⟨number, hnumber, hscale⟩
  obtain ⟨-, hchars, -⟩ := parseU64_eq_some hnumber
  have hlower := lower.eq_ascii (trimChars text) fun c hc => by
    rw [hsplit] at hc
    rcases List.mem_append.mp hc with hraw | hsuffix
    · exact (hchars c hraw).imp_right .inl
    · cases unit <;> simp_all [TtlUnit.suffix]
  rw [hlower] at hsplit
  refine ⟨number, unit, @spells_of_map text [] raw [] number unit ?_ rfl rfl hnumber (fun _ => rfl),
    hscale⟩
  rw [hsplit, List.nil_append, List.append_nil]

theorem writeTtlText_cases (text : List Char) :
    writeTtlText text = some none ∨ ∃ number unit, Spells text number unit ∧
      writeTtlText text = (scaleWriteTtl unit number).map some := by
  have hsplit := splitUnit_eq ((trimChars text).map Char.toLower)
  unfold writeTtlText
  generalize splitUnit ((trimChars text).map Char.toLower) = parts at hsplit ⊢
  obtain ⟨unit, raw⟩ := parts
  dsimp only at hsplit ⊢
  refine (scaleNumber_cases _ (scaleWriteTtl unit)).imp_right ?_
  rintro ⟨number, hnumber, hscale⟩
  by_cases hunit : unit = .plain
  · rw [if_pos hunit] at hnumber
    refine ⟨number, unit, @spells_of_map text [] raw [] number unit ?_ rfl rfl hnumber
      (fun _ => rfl), hscale⟩
    rw [hsplit, List.nil_append, List.append_nil]
  · rw [if_neg hunit] at hnumber
    obtain ⟨before, gap, hbefore, hgap, hraw⟩ := exists_eq_trimChars raw
    refine ⟨number, unit, spells_of_map ?_ hbefore hgap hnumber (fun hplain => absurd hplain hunit),
      hscale⟩
    rw [hsplit, ← hraw]

theorem writeTtlText_of_spells {text : List Char} {number : ℕ} {unit : TtlUnit}
    (h : Spells text number unit) :
    writeTtlText text = (scaleWriteTtl unit number).map some := by
  obtain ⟨digits, gap, hgap, hdigits, hplain, hmap⟩ := map_trimChars_of_spells h
  obtain ⟨hne, hchars, -⟩ := parseU64_eq_some hdigits
  have hsplit : splitUnit (digits ++ gap ++ unit.suffix) = (unit, digits ++ gap) := by
    apply splitUnit_append
    intro hunit c hc
    rw [hplain hunit, List.append_nil] at hc
    exact (hchars c (List.mem_of_mem_getLast? hc)).not_isAlpha
  have htrim : trimChars (digits ++ gap) = digits := by
    rw [trimChars_append_of_isBlank hgap]
    exact trimChars_eq_self (fun c hc => (hchars c (List.mem_of_mem_head? hc)).not_isWhitespace)
      (fun c hc => (hchars c (List.mem_of_mem_getLast? hc)).not_isWhitespace)
  unfold writeTtlText
  rw [hmap, hsplit]
  dsimp only
  split_ifs with hunit
  · rw [hplain hunit, List.append_nil, hdigits]
    rfl
  · rw [htrim, hdigits]
    rfl

theorem lt_of_spells {text : List Char} {number : ℕ} {unit : TtlUnit}
    (h : Spells text number unit) : number < 2 ^ 64 := by
  obtain ⟨digits, -, -, hdigits, -⟩ := map_trimChars_of_spells h
  exact (parseU64_eq_some hdigits).2.2

/-- A value that denotes a time is read as it for a write, unless the product overflows. -/
theorem writeTtlSeconds_of_denotes {ttl : Json} {seconds : ℕ} (h : Denotes ttl seconds) :
    writeTtlSeconds ttl = if seconds < 2 ^ 64 then some (some seconds) else none := by
  cases h with
  | @int n hzero hlt =>
    rw [if_pos (by omega)]
    exact congrArg some (if_pos ⟨hzero, hlt⟩)
  | @str s number unit hspells =>
    unfold writeTtlSeconds
    dsimp only
    rw [writeTtlText_of_spells hspells, scaleWriteTtl_eq unit (lt_of_spells hspells)]
    split_ifs <;> rfl

theorem writeTtlSeconds_cases (ttl : Json) : writeTtlSeconds ttl = some none ∨
    ∃ seconds, Denotes ttl seconds := by
  unfold writeTtlSeconds
  cases ttl with
  | int n =>
    unfold asU64
    dsimp only
    split_ifs with hrange
    · exact .inr ⟨_, .int hrange.1 hrange.2⟩
    · exact .inl rfl
  | str s =>
    refine (writeTtlText_cases s.toList).imp_right ?_
    rintro ⟨number, unit, hspells, -⟩
    exact ⟨_, .str hspells⟩
  | _ => exact .inl rfl

/-- What the local cache reads is what the value denotes, unless the product overflows. -/
theorem parseTtl_cases (lower : Lowercase) (ttl : Json) : parseTtl lower ttl = some none ∨
    ∃ seconds, Denotes ttl seconds ∧ parseTtl lower ttl =
      if seconds < 2 ^ 64 then some (some (durationFromSecs seconds)) else none := by
  unfold parseTtl
  cases ttl with
  | int n =>
    unfold asU64
    dsimp only
    split_ifs with hrange
    · exact .inr ⟨_, .int hrange.1 hrange.2, by rw [if_pos (by omega)]; rfl⟩
    · exact .inl rfl
  | str s =>
    dsimp only
    rcases parseTtlText_cases lower s.toList with hnone | ⟨number, unit, hspells, htext⟩
    · exact .inl (by rw [hnone]; rfl)
    · refine .inr ⟨_, .str hspells, ?_⟩
      rw [htext, scaleTtl_eq unit (lt_of_spells hspells)]
      split_ifs <;> rfl
  | _ => exact .inl rfl

theorem normalizeTtl_durationFromSecs (seconds : ℕ) :
    normalizeTtl (durationFromSecs seconds) = (writeTtlOf seconds).duration := by
  have hsecond : 0 < second := by decide
  have hlt : defaultPromptCacheTtl < durationFromSecs seconds ↔ 300 < seconds :=
    Nat.mul_lt_mul_right hsecond
  unfold normalizeTtl writeTtlOf
  simp only [hlt]
  split_ifs <;> rfl

theorem writeTtlOf_eq_oneHour_iff (seconds : ℕ) :
    writeTtlOf seconds = .oneHour ↔ 300 < seconds := by
  unfold writeTtlOf
  split_ifs with h
  · exact ⟨fun _ => h, fun _ => rfl⟩
  · exact ⟨fun hwrite => absurd hwrite (by decide), fun hlt => absurd hlt h⟩

/-- A time to live is read without overflow, and the readings agree, if and only if what it denotes
has 64 bits. -/
theorem reads_iff (lower : Lowercase) (ttl : Json) :
    Reads lower ttl ↔ ∀ seconds, Denotes ttl seconds → seconds < 2 ^ 64 := by
  constructor
  · intro h seconds hdenotes
    by_contra hlarge
    have hget : get (.obj [("cache_control", .obj [("ttl", ttl)])]) "cache_control" =
        some (.obj [("ttl", ttl)]) := rfl
    refine h.write _ _ hget rfl ?_
    unfold ttlOfHolder
    rw [hget, Option.bind_some, show get (.obj [("ttl", ttl)]) "ttl" = some ttl from rfl]
    dsimp only
    rw [writeTtlSeconds_of_denotes hdenotes, if_neg hlarge]
    rfl
  · intro h
    have hparse : parseTtl lower ttl ≠ none := by
      rcases parseTtl_cases lower ttl with hnone | ⟨seconds, hdenotes, hread⟩
      · rw [hnone]
        exact Option.some_ne_none _
      · rw [hread, if_pos (h seconds hdenotes)]
        exact Option.some_ne_none _
    have hholder {value cache : Json} (hcache : get value "cache_control" = some cache)
        (httl : get cache "ttl" = some ttl) :
        ttlOfHolder value = (writeTtlSeconds ttl).map (Option.map writeTtlOf) := by
      unfold ttlOfHolder
      rw [hcache, Option.bind_some, httl]
    refine ⟨hparse, ?_, ?_⟩
    · intro value cache hcache httl
      rw [hholder hcache httl]
      rcases writeTtlSeconds_cases ttl with hnone | ⟨seconds, hdenotes⟩
      · rw [hnone]
        exact Option.some_ne_none _
      · rw [writeTtlSeconds_of_denotes hdenotes, if_pos (h seconds hdenotes)]
        exact Option.some_ne_none _
    · intro value cache duration write hcache httl hephemeral hduration hwrite
      have hdenoted (denoted : ℕ) (hdenotes : Denotes ttl denoted) : write = writeTtlOf denoted := by
        rw [hholder hcache httl, writeTtlSeconds_of_denotes hdenotes,
          if_pos (h denoted hdenotes)] at hwrite
        exact (Option.some.inj (Option.some.inj hwrite)).symm
      obtain ⟨seconds, hdenotes, rfl⟩ :
          ∃ seconds, Denotes ttl seconds ∧ duration = durationFromSecs seconds := by
        rcases parseTtl_cases lower ttl with hnone | ⟨seconds, hdenotes, hread⟩
        · rw [hduration] at hnone
          cases hnone
        · rw [hduration, if_pos (h seconds hdenotes)] at hread
          exact ⟨seconds, hdenotes, Option.some.inj (Option.some.inj hread)⟩
      refine ⟨?_, seconds, hdenotes, rfl, ?_⟩
      · unfold extractPromptCacheTtl
        rw [hcache]
        dsimp only
        rw [if_pos hephemeral, httl]
        dsimp only
        rw [hduration, Option.map_some, Option.getD_some, normalizeTtl_durationFromSecs,
          hdenoted seconds hdenotes]
      · intro denoted hother
        rw [hdenoted denoted hother]
        exact writeTtlOf_eq_oneHour_iff denoted

def asciiLowercase : Lowercase where
  toLowercase text := text.map Char.toLower
  eq_ascii _ _ := rfl

/-- So many hours have more seconds than 64 bits hold. -/
theorem not_reads_manyHours : ¬Reads asciiLowercase (.str "5124095576030432h") := by
  intro h
  exact h.parse (by decide +kernel)

end KiroProxy.PromptCache.Ttl
