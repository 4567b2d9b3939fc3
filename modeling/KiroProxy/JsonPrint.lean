import KiroProxy.JsonText
import KiroProxy.PrefixCode

/-!
# Printed JSON

The compact text that `serde_json` prints for a value, with the fields of objects in the order in
which they are given. Different values have different texts, also where a separator or a bracket
and any text follow.
-/

namespace KiroProxy.JsonPrint

open Json JsonText PrefixCode

def escapeChar (c : Char) : List Char :=
  match c with
  | '"' => ['\\', '"']
  | '\\' => ['\\', '\\']
  | '\x08' => ['\\', 'b']
  | '\x0c' => ['\\', 'f']
  | '\n' => ['\\', 'n']
  | '\r' => ['\\', 'r']
  | '\t' => ['\\', 't']
  | c =>
    if c.toNat < 0x20 then
      ['\\', 'u', '0', '0', Nat.digitChar (c.toNat / 16), Nat.digitChar (c.toNat % 16)]
    else [c]

def printString (s : String) : List Char := '"' :: (s.toList.flatMap escapeChar ++ ['"'])

def printInt : ℤ → List Char
  | .ofNat n => Nat.toDigits 10 n
  | .negSucc n => '-' :: Nat.toDigits 10 (n + 1)

def printField (field : String × List Char) : List Char := printString field.1 ++ ':' :: field.2

mutual

def print : Json → List Char
  | .null => "null".toList
  | .bool b => if b then "true".toList else "false".toList
  | .int n => printInt n
  | .float text => text.toList
  | .str s => printString s
  | .arr items => '[' :: ([','].intercalate (printItems items) ++ [']'])
  | .obj fields => '\x7b' :: ([','].intercalate ((printFields fields).map printField) ++ ['\x7d'])

def printItems : List Json → List (List Char)
  | [] => []
  | v :: items => print v :: printItems items

def printFields : Fields → List (String × List Char)
  | [] => []
  | (k, v) :: fields => (k, print v) :: printFields fields

end

def IsFloatText (text : List Char) : Prop :=
  NumberText text ∧ ∃ c ∈ text, c = '.' ∨ c = 'e' ∨ c = 'E'

/-- Every number of the value that is no integer has such a text. -/
def FloatsPrinted (v : Json) : Prop :=
  ∀ text, Relation.ReflTransGen Member (.float text) v → IsFloatText text.toList

theorem FloatsPrinted.member {u v : Json} (h : FloatsPrinted v) (hmember : Member u v) :
    FloatsPrinted u :=
  fun text hu => h text (hu.tail hmember)

theorem printItems_eq (items : List Json) : printItems items = items.map print := by
  induction items with
  | nil => rfl
  | cons v items ih => rw [printItems, ih, List.map_cons]

theorem printFields_eq (fields : Fields) :
    printFields fields = fields.map fun field => (field.1, print field.2) := by
  induction fields with
  | nil => rfl
  | cons field fields ih => rw [printFields, ih, List.map_cons]

/-- A character of a string, or its end. -/
def printUnit : Option Char → List Char
  | none => ['"']
  | some c => escapeChar c

def specialChars : List Char := '"' :: '\\' :: (List.range 0x20).map Char.ofNat

variable {v : Json} {c : Char} (r : List Char) (n : ℤ) {text : List Char} {w : Json}

theorem escapeChar_of_not_mem (h : c ∉ specialChars) : escapeChar c = [c] ∧ c ≠ '"' ∧ c ≠ '\\' := by
  have hcontrol : ¬ c.toNat < 0x20 := by
    intro hlt
    apply h
    refine List.mem_cons_of_mem _ (List.mem_cons_of_mem _ ?_)
    exact List.mem_map.mpr ⟨c.toNat, List.mem_range.mpr hlt, Char.ofNat_toNat c⟩
  refine ⟨?_, ?_, ?_⟩
  · unfold escapeChar
    split
    all_goals first
      | exact absurd (by decide) hcontrol
      | exact absurd (by decide) h
      | exact if_neg hcontrol
  · rintro rfl
    exact h (by decide)
  · rintro rfl
    exact h (by decide)

theorem head?_escapeChar_of_mem (h : c ∈ specialChars) : (escapeChar c).head? = some '\\' := by
  have hall : (specialChars.all fun c => (escapeChar c).head? == some '\\') = true := by decide
  exact eq_of_beq (List.all_eq_true.mp hall c h)

theorem eq_of_prefix_escapeChar : ∀ c ∈ specialChars, ∀ d ∈ specialChars,
    escapeChar c <+: escapeChar d → c = d := by
  have hall : (specialChars.all fun c => specialChars.all fun d =>
      decide (escapeChar c <+: escapeChar d → c = d)) = true := by decide +kernel
  intro c hc d hd
  exact of_decide_eq_true (List.all_eq_true.mp (List.all_eq_true.mp hall c hc) d hd)

theorem isPrefixCode_printUnit : IsPrefixCode printUnit := by
  have hhead (c : Char) : ∃ x rest, escapeChar c = x :: rest ∧ x ≠ '"' ∧
      (x = '\\' ↔ c ∈ specialChars) := by
    by_cases hc : c ∈ specialChars
    · obtain ⟨rest, hrest⟩ := List.head?_eq_some_iff.mp (head?_escapeChar_of_mem hc)
      exact ⟨'\\', rest, hrest, by decide, iff_of_true rfl hc⟩
    · obtain ⟨htext, hquote, hbackslash⟩ := escapeChar_of_not_mem hc
      exact ⟨c, [], htext, hquote, iff_of_false hbackslash hc⟩
  intro a b h
  cases a with
  | none =>
    cases b with
    | none => rfl
    | some d =>
      obtain ⟨x, rest, htext, hquote, -⟩ := hhead d
      change ['"'] <+: escapeChar d at h
      rw [htext] at h
      exact absurd (List.cons_prefix_cons.mp h).1.symm hquote
  | some c =>
    obtain ⟨x, rest, htext, hquote, hspecial⟩ := hhead c
    cases b with
    | none =>
      change escapeChar c <+: ['"'] at h
      rw [htext] at h
      exact absurd (List.cons_prefix_cons.mp h).1 hquote
    | some d =>
      obtain ⟨y, rest', htext', -, hspecial'⟩ := hhead d
      change escapeChar c <+: escapeChar d at h
      have hxy : x = y := by
        rw [htext, htext'] at h
        exact (List.cons_prefix_cons.mp h).1
      subst hxy
      by_cases hc : c ∈ specialChars
      · rw [eq_of_prefix_escapeChar c hc d (hspecial'.mp (hspecial.mpr hc)) h]
      · have hd : d ∉ specialChars := fun hd => hc (hspecial.mp (hspecial'.mpr hd))
        rw [(escapeChar_of_not_mem hc).1, (escapeChar_of_not_mem hd).1] at h
        rw [(List.cons_prefix_cons.mp h).1]

theorem printString_apart (s t : String) (r r' : List Char)
    (h : printString s ++ r = printString t ++ r') : s = t ∧ r = r' := by
  unfold printString at h
  rw [List.cons_append, List.cons_append, List.append_assoc, List.append_assoc] at h
  obtain ⟨hlist, hr⟩ := isPrefixCode_printUnit.eq_of_stop (List.cons_eq_cons.mp h).2
  exact ⟨String.toList_injective hlist, hr⟩

theorem toDigits_injective : Function.Injective (Nat.toDigits 10) := by
  intro n m h
  calc
    n = Nat.ofDigitChars 10 (Nat.toDigits 10 n) 0 := Nat.ofDigitChars_ten_toDigits.symm
    _ = Nat.ofDigitChars 10 (Nat.toDigits 10 m) 0 := by rw [h]
    _ = m := Nat.ofDigitChars_ten_toDigits

theorem isDigit_of_mem_toDigits {n : ℕ} (h : c ∈ Nat.toDigits 10 n) : c.isDigit = true :=
  Nat.isDigit_of_mem_toDigits (by decide) (by decide) h

theorem not_mem_toDigits (hc : c.isDigit = false) (n : ℕ) : c ∉ Nat.toDigits 10 n := by
  intro h
  rw [isDigit_of_mem_toDigits h] at hc
  cases hc

theorem printInt_injective : Function.Injective printInt := by
  have hminus : ∀ n m : ℕ, Nat.toDigits 10 n ≠ '-' :: Nat.toDigits 10 m := fun n m h =>
    not_mem_toDigits (by decide) n (h ▸ List.mem_cons_self)
  intro a b h
  cases a with
  | ofNat n =>
    cases b with
    | ofNat m => rw [toDigits_injective h]
    | negSucc m => exact absurd h (hminus n (m + 1))
  | negSucc n =>
    cases b with
    | ofNat m => exact absurd h.symm (hminus m (n + 1))
    | negSucc m =>
      have hnm := Nat.succ_injective (toDigits_injective (List.cons_eq_cons.mp h).2)
      rw [hnm]

def isNumberChar (c : Char) : Bool :=
  c.isDigit || c = '-' || c = '+' || c = '.' || c = 'e' || c = 'E'

theorem isNumberChar_of_isDigit (h : c.isDigit = true) : isNumberChar c = true := by
  unfold isNumberChar
  rw [h]
  rfl

theorem isNumberChar_printInt : ∀ c ∈ printInt n, isNumberChar c = true := by
  intro c hc
  cases n with
  | ofNat n => exact isNumberChar_of_isDigit (isDigit_of_mem_toDigits hc)
  | negSucc n =>
    rcases List.mem_cons.mp hc with rfl | hc
    · decide
    · exact isNumberChar_of_isDigit (isDigit_of_mem_toDigits hc)

theorem isNumberChar_numberText (h : NumberText text) : ∀ c ∈ text, isNumberChar c = true := by
  have hdigits {ds : List Char} (hds : IsDigits ds) (c : Char) (hc : c ∈ ds) :
      isNumberChar c = true := isNumberChar_of_isDigit (hds.2 c hc)
  obtain ⟨hsign, hwhole, -, hfraction, hexponent⟩ := h
  intro c hc
  simp only [List.mem_append] at hc
  rcases hc with ((hc | hc) | hc) | hc
  · rcases hsign with rfl | rfl
    · cases hc
    · rw [List.mem_singleton.mp hc]
      decide
  · exact hdigits hwhole c hc
  · rcases hfraction with rfl | ⟨ds, hds, rfl⟩
    · cases hc
    · rcases List.mem_cons.mp hc with rfl | hc
      · decide
      · exact hdigits hds c hc
  · rcases hexponent with rfl | ⟨e, sign, ds, he, hsign, hds, rfl⟩
    · cases hc
    · rcases List.mem_cons.mp hc with rfl | hc
      · rcases he with rfl | rfl
        · decide
        · decide
      · rcases List.mem_append.mp hc with hc | hc
        · rcases hsign with rfl | rfl | rfl
          · cases hc
          · rw [List.mem_singleton.mp hc]
            decide
          · rw [List.mem_singleton.mp hc]
            decide
        · exact hdigits hds c hc

theorem printInt_ne_floatText (h : IsFloatText text) : printInt n ≠ text := by
  rintro rfl
  obtain ⟨-, c, hc, hpoint⟩ := h
  have hdigit : c ≠ '-' ∧ c.isDigit = false := by
    rcases hpoint with rfl | rfl | rfl
    all_goals decide
  cases n with
  | ofNat n => exact not_mem_toDigits hdigit.2 n hc
  | negSucc n => exact not_mem_toDigits hdigit.2 (n + 1) ((List.mem_cons.mp hc).resolve_left hdigit.1)

/-- What may follow a value. -/
def Tail (r : List Char) : Prop := ∀ c ∈ r.head?, c = ',' ∨ c = ']' ∨ c = '\x7d'

/-- Values of different kinds begin differently. -/
def kind : Json → ℕ
  | .null => 0
  | .bool b => if b then 1 else 2
  | .int _ => 3
  | .float _ => 3
  | .str _ => 4
  | .arr _ => 5
  | .obj _ => 6

def headKind (c : Char) : ℕ :=
  if c = 'n' then 0
  else if c = 't' then 1
  else if c = 'f' then 2
  else if c.isDigit ∨ c = '-' then 3
  else if c = '"' then 4
  else if c = '[' then 5
  else if c = '\x7b' then 6
  else 7

theorem headKind_of_isDigit (h : c.isDigit = true) : headKind c = 3 := by
  have hne : c ≠ 'n' ∧ c ≠ 't' ∧ c ≠ 'f' := by
    refine ⟨?_, ?_, ?_⟩
    all_goals
      rintro rfl
      cases h
  unfold headKind
  rw [if_neg hne.1, if_neg hne.2.1, if_neg hne.2.2, if_pos (.inl h)]

theorem exists_head_printInt : ∃ c rest, printInt n = c :: rest ∧ headKind c = 3 := by
  cases n with
  | ofNat n =>
    obtain ⟨c, rest, htext⟩ := List.exists_cons_of_ne_nil (@Nat.toDigits_ne_nil n 10)
    refine ⟨c, rest, htext, headKind_of_isDigit (isDigit_of_mem_toDigits (n := n) ?_)⟩
    rw [htext]
    exact List.mem_cons_self
  | negSucc n => exact ⟨'-', _, rfl, by decide⟩

theorem exists_head_numberText (h : NumberText text) :
    ∃ c rest, text = c :: rest ∧ headKind c = 3 := by
  obtain ⟨hsign, ⟨hne, hwhole⟩, -, -, -⟩ := h
  rename_i sign whole fraction exponent
  obtain ⟨c, ds, rfl⟩ := List.exists_cons_of_ne_nil hne
  rcases hsign with rfl | rfl
  · exact ⟨c, ds ++ fraction ++ exponent, by simp,
      headKind_of_isDigit (hwhole c List.mem_cons_self)⟩
  · exact ⟨'-', c :: ds ++ fraction ++ exponent, by simp, by decide⟩

theorem exists_head (v : Json) (hv : FloatsPrinted v) :
    ∃ c rest, print v = c :: rest ∧ headKind c = kind v := by
  cases v with
  | null => exact ⟨'n', _, rfl, by decide⟩
  | bool b =>
    cases b with
    | true => exact ⟨'t', _, rfl, by decide⟩
    | false => exact ⟨'f', _, rfl, by decide⟩
  | int n => exact exists_head_printInt n
  | float text => exact exists_head_numberText (hv text .refl).1
  | str s => exact ⟨'"', _, rfl, rfl⟩
  | arr items => exact ⟨'[', _, rfl, rfl⟩
  | obj fields => exact ⟨'\x7b', _, rfl, rfl⟩

theorem kind_eq (hv : FloatsPrinted v) (hw : FloatsPrinted w) {r r' : List Char}
    (heq : print v ++ r = print w ++ r') : kind v = kind w := by
  obtain ⟨c, rest, htext, hkind⟩ := exists_head v hv
  obtain ⟨d, rest', htext', hkind'⟩ := exists_head w hw
  rw [htext, htext'] at heq
  rw [← hkind, ← hkind', (List.cons_eq_cons.mp heq).1]

theorem eq_of_number {text text' r r' : List Char} (h : ∀ c ∈ text, isNumberChar c = true)
    (h' : ∀ c ∈ text', isNumberChar c = true) (hr : Tail r) (hr' : Tail r')
    (heq : text ++ r = text' ++ r') : text = text' ∧ r = r' := by
  have hend {tail : List Char} (htail : Tail tail) : ∀ c ∈ tail.head?, ¬ isNumberChar c = true := by
    intro c hc
    rcases htail c hc with rfl | rfl | rfl
    all_goals decide
  exact eq_of_span h h' (hend hr) (hend hr') heq

theorem induction_on_members {P : Json → Prop} (h : ∀ v, (∀ u, Member u v → P u) → P v)
    (v : Json) : P v := by
  induction hdepth : v.depth using Nat.strong_induction_on generalizing v with
  | _ n ih => exact h v fun u hu => ih u.depth (hdepth ▸ hu.depth_lt) u rfl

theorem tail_comma : Tail (',' :: r) :=
  fun _ h => .inl (Option.some.inj h).symm

theorem tail_closeBracket : Tail (']' :: r) :=
  fun _ h => .inr (.inl (Option.some.inj h).symm)

theorem tail_closeBrace : Tail ('\x7d' :: r) :=
  fun _ h => .inr (.inr (Option.some.inj h).symm)

theorem kind_lt (v : Json) : kind v < 7 := by
  cases v with
  | bool b => cases b <;> decide
  | _ => exact Nat.le_of_ble_eq_true rfl

theorem exists_head_ne (v : Json) (hv : FloatsPrinted v) :
    ∃ c rest, print v = c :: rest ∧ c ≠ ']' := by
  obtain ⟨c, rest, htext, hkind⟩ := exists_head v hv
  refine ⟨c, rest, htext, ?_⟩
  rintro rfl
  exact absurd hkind.symm (kind_lt v).ne

theorem apart_arr {items items' : List Json} (hitems : ∀ v ∈ items ++ items', FloatsPrinted v)
    (hapart : ∀ v ∈ items, ∀ w ∈ items', Apart print Tail v w) :
    Apart print Tail (.arr items) (.arr items') := by
  intro r r' _ _ heq
  rw [print, print, printItems_eq, printItems_eq, List.cons_append, List.cons_append,
    List.append_assoc, List.append_assoc] at heq
  obtain ⟨rfl, hr⟩ := eq_of_intercalate (by decide) tail_comma tail_closeBracket hapart
    (fun v hv => exists_head_ne v (hitems v hv)) (List.cons_eq_cons.mp heq).2
  exact ⟨rfl, hr⟩

/-- The text of a field with its value. -/
def printMember (field : String × Json) : List Char := printField (field.1, print field.2)

theorem apart_printMember {field field' : String × Json}
    (hapart : Apart print Tail field.2 field'.2) : Apart printMember Tail field field' := by
  intro r r' hr hr' heq
  unfold printMember printField at heq
  rw [List.append_assoc, List.append_assoc] at heq
  obtain ⟨hkey, hrest⟩ := printString_apart _ _ _ _ heq
  obtain ⟨hvalue, htail⟩ := hapart r r' hr hr' (List.cons_eq_cons.mp hrest).2
  exact ⟨Prod.ext hkey hvalue, htail⟩

theorem apart_obj {fields fields' : Fields}
    (hapart : ∀ field ∈ fields, ∀ field' ∈ fields', Apart print Tail field.2 field'.2) :
    Apart print Tail (.obj fields) (.obj fields') := by
  intro r r' _ _ heq
  rw [print, print, printFields_eq, printFields_eq, List.map_map, List.map_map, List.cons_append,
    List.cons_append, List.append_assoc, List.append_assoc] at heq
  obtain ⟨rfl, hr⟩ := @eq_of_intercalate _ _ printMember Tail ',' '\x7d' (by decide) tail_comma
    tail_closeBrace fields fields' r r'
    (fun field hfield field' hfield' => apart_printMember (hapart field hfield field' hfield'))
    (fun field _ => ⟨'"', _, rfl, by decide⟩) (List.cons_eq_cons.mp heq).2
  exact ⟨rfl, hr⟩

theorem number_cases (hv : FloatsPrinted v) (h : kind v = 3) :
    (∃ n, v = .int n) ∨ ∃ text, v = .float text ∧ IsFloatText text.toList := by
  cases v with
  | int n => exact .inl ⟨n, rfl⟩
  | float text => exact .inr ⟨text, rfl, hv text .refl⟩
  | bool b => cases b <;> cases h
  | _ => cases h

theorem isNumberChar_print (hv : FloatsPrinted v) (h : kind v = 3) :
    ∀ c ∈ print v, isNumberChar c = true := by
  obtain ⟨n, rfl⟩ | ⟨text, rfl, htext⟩ := number_cases hv h
  · exact isNumberChar_printInt n
  · exact isNumberChar_numberText htext.1

theorem apart_number (hv : FloatsPrinted v) (hw : FloatsPrinted w) (h : kind v = 3)
    (h' : kind w = 3) : Apart print Tail v w := by
  intro r r' hr hr' happend
  obtain ⟨htext, htail⟩ :=
    eq_of_number (isNumberChar_print hv h) (isNumberChar_print hw h') hr hr' happend
  refine ⟨?_, htail⟩
  obtain ⟨n, rfl⟩ | ⟨text, rfl, hfloat⟩ := number_cases hv h
  · obtain ⟨m, rfl⟩ | ⟨text', rfl, hfloat'⟩ := number_cases hw h'
    · exact congrArg Json.int (printInt_injective htext)
    · exact absurd htext (printInt_ne_floatText n hfloat')
  · obtain ⟨m, rfl⟩ | ⟨text', rfl, -⟩ := number_cases hw h'
    · exact absurd htext.symm (printInt_ne_floatText m hfloat)
    · exact congrArg Json.float (String.toList_injective htext)

/-- The texts of two values can be told apart where a separator or a bracket follows. -/
theorem apart_print (v : Json) : FloatsPrinted v → ∀ w, FloatsPrinted w → Apart print Tail v w := by
  induction v using induction_on_members with
  | _ v ih =>
    intro hv w hw r r' hr hr' heq
    have hkind := kind_eq hv hw heq
    cases v with
    | null =>
      cases w with
      | null => exact ⟨rfl, List.append_cancel_left heq⟩
      | bool b => cases b <;> cases hkind
      | _ => cases hkind
    | bool b =>
      cases w with
      | bool b' =>
        have hb : b = b' := by
          cases b <;> cases b' <;> first | rfl | cases hkind
        subst hb
        exact ⟨rfl, List.append_cancel_left heq⟩
      | _ => cases b <;> cases hkind
    | int n => exact apart_number hv hw rfl hkind.symm r r' hr hr' heq
    | float text => exact apart_number hv hw rfl hkind.symm r r' hr hr' heq
    | str s =>
      cases w with
      | str t =>
        obtain ⟨rfl, htail⟩ := printString_apart s t r r' heq
        exact ⟨rfl, htail⟩
      | bool b => cases b <;> cases hkind
      | _ => cases hkind
    | arr items =>
      cases w with
      | arr items' =>
        refine apart_arr ?_ ?_ r r' hr hr' heq
        · intro u hu
          rcases List.mem_append.mp hu with hu | hu
          · exact hv.member (.item hu)
          · exact hw.member (.item hu)
        · exact fun u hu u' hu' =>
            ih u (.item hu) (hv.member (.item hu)) u' (hw.member (.item hu'))
      | bool b => cases b <;> cases hkind
      | _ => cases hkind
    | obj fields =>
      cases w with
      | obj fields' =>
        refine apart_obj ?_ r r' hr hr' heq
        exact fun field hfield field' hfield' => ih field.2 (.field hfield)
          (hv.member (.field hfield)) field'.2 (hw.member (.field hfield'))
      | bool b => cases b <;> cases hkind
      | _ => cases hkind

theorem print_injective (hv : FloatsPrinted v) (hw : FloatsPrinted w) (h : print v = print w) :
    v = w :=
  (apart_print v hv w hw [] [] nofun nofun (by rw [h])).1

end KiroProxy.JsonPrint
