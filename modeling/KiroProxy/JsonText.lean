import KiroProxy.Json

/-!
# JSON texts

The grammar of JSON with the value that a text stands for. Of the value of a number only that it
is one is stated. Every string of a value stands in the text between quotation marks, behind a
part of the text that is made of whole escapes and other characters.
-/

namespace KiroProxy.JsonText

def isJsonSpace (c : Char) : Bool := c == ' ' || c == '\n' || c == '\t' || c == '\r'

/-- The character for which a backslash and this character stand. -/
def simpleEscape : Char → Option Char
  | '"' => some '"'
  | '\\' => some '\\'
  | '/' => some '/'
  | 'b' => some '\x08'
  | 'f' => some '\x0c'
  | 'n' => some '\n'
  | 'r' => some '\r'
  | 't' => some '\t'
  | _ => none

def hexValue (c : Char) : Option ℕ :=
  if '0' ≤ c ∧ c ≤ '9' then some (c.toNat - '0'.toNat)
  else if 'a' ≤ c ∧ c ≤ 'f' then some (c.toNat - 'a'.toNat + 10)
  else if 'A' ≤ c ∧ c ≤ 'F' then some (c.toNat - 'A'.toNat + 10)
  else none

/-- The number that four hexadecimal digits stand for. -/
def hexDigits (a b c d : Char) : Option ℕ := do
  let a ← hexValue a
  let b ← hexValue b
  let c ← hexValue c
  let d ← hexValue d
  return 4096 * a + 256 * b + 16 * c + d

/-- The text of one character of a string. -/
inductive CharText : List Char → Char → Prop
  | literal {c} : 0x20 ≤ c.toNat → c ≠ '"' → c ≠ '\\' → CharText [c] c
  | escape {e c} : simpleEscape e = some c → CharText ['\\', e] c
  | unicode {a b c d n} : hexDigits a b c d = some n → n.isValidChar →
      CharText ['\\', 'u', a, b, c, d] (Char.ofNat n)
  | surrogates {a b c d a' b' c' d' high low} : hexDigits a b c d = some high →
      hexDigits a' b' c' d' = some low → 0xd800 ≤ high → high < 0xdc00 → 0xdc00 ≤ low →
      low < 0xe000 →
      CharText ['\\', 'u', a, b, c, d, '\\', 'u', a', b', c', d']
        (Char.ofNat (0x10000 + 0x400 * (high - 0xd800) + (low - 0xdc00)))

/-- The text of a string between its quotation marks. -/
inductive StringText : List Char → List Char → Prop
  | nil : StringText [] []
  | cons {text c rest s} : CharText text c → StringText rest s → StringText (text ++ rest) (c :: s)

def IsDigits (text : List Char) : Prop := text ≠ [] ∧ ∀ c ∈ text, c.isDigit = true

inductive NumberText : List Char → Prop
  | mk {sign whole fraction exponent} : sign = [] ∨ sign = ['-'] →
      IsDigits whole → (whole.head? = some '0' → whole = ['0']) →
      (fraction = [] ∨ ∃ ds, IsDigits ds ∧ fraction = '.' :: ds) →
      (exponent = [] ∨ ∃ e sign ds, (e = 'e' ∨ e = 'E') ∧ (sign = [] ∨ sign = ['+'] ∨ sign = ['-']) ∧
        IsDigits ds ∧ exponent = e :: (sign ++ ds)) →
      NumberText (sign ++ whole ++ fraction ++ exponent)

def isNumber : Json → Bool
  | .int _ => true
  | .float _ => true
  | _ => false

/-- One member of an object: the space around its name, the texts and the meaning of both. -/
structure Member where
  before : List Char
  nameText : List Char
  after : List Char
  valueText : List Char
  name : List Char
  value : Json

def Member.text (m : Member) : List Char :=
  m.before ++ '"' :: (m.nameText ++ '"' :: (m.after ++ ':' :: m.valueText))

/-- The fields of an object; of several with one name the last one counts. -/
def fieldsOf (members : List Member) : Json.Fields :=
  members.foldl (fun fields m => Json.insertField fields (String.ofList m.name) m.value) []

/-- The text of a value, with space around it. -/
inductive ValueText : List Char → Json → Prop
  | nullWord : ValueText "null".toList .null
  | trueWord : ValueText "true".toList (.bool true)
  | falseWord : ValueText "false".toList (.bool false)
  | number {text v} : NumberText text → isNumber v = true → ValueText text v
  | string {text s} : StringText text s → ValueText ('"' :: (text ++ ['"'])) (.str (String.ofList s))
  | emptyArray {space} : (∀ c ∈ space, isJsonSpace c = true) →
      ValueText ('[' :: (space ++ [']'])) (.arr [])
  | array {items : List (List Char × Json)} : items ≠ [] →
      (∀ item ∈ items, ValueText item.1 item.2) →
      ValueText ('[' :: ([','].intercalate (items.map Prod.fst) ++ [']'])) (.arr (items.map Prod.snd))
  | emptyObject {space} : (∀ c ∈ space, isJsonSpace c = true) →
      ValueText ('\x7b' :: (space ++ ['\x7d'])) (.obj [])
  | object {members : List Member} : members ≠ [] →
      (∀ m ∈ members, (∀ c ∈ m.before, isJsonSpace c = true) ∧
        (∀ c ∈ m.after, isJsonSpace c = true) ∧ StringText m.nameText m.name) →
      (∀ m ∈ members, ValueText m.valueText m.value) →
      ValueText ('\x7b' :: ([','].intercalate (members.map Member.text) ++ ['\x7d']))
        (.obj (fieldsOf members))
  | padded {before text after v} : (∀ c ∈ before, isJsonSpace c = true) →
      (∀ c ∈ after, isJsonSpace c = true) → ValueText text v → ValueText (before ++ text ++ after) v

inductive Units : List Char → Prop
  | nil : Units []
  | plain {c text} : c ≠ '\\' → Units text → Units (c :: text)
  | escape {e c text} : simpleEscape e = some c → Units text → Units ('\\' :: e :: text)
  | unicode {a b c d n text} : hexDigits a b c d = some n → Units text →
      Units ('\\' :: 'u' :: a :: b :: c :: d :: text)

theorem Units.append {text tail : List Char} (h : Units text) (htail : Units tail) :
    Units (text ++ tail) := by
  induction h with
  | nil => exact htail
  | plain hc _ ih => exact .plain hc ih
  | escape he _ ih => exact .escape he ih
  | unicode hn _ ih => exact .unicode hn ih

variable {text s : List Char} {v : Json}

theorem units_of_forall (h : ∀ c ∈ text, c ≠ '\\') : Units text := by
  induction text with
  | nil => exact .nil
  | cons c text ih =>
    exact .plain (h c List.mem_cons_self) (ih fun d hd => h d (List.mem_cons_of_mem _ hd))

theorem units_of_all (h : (text.all fun c => c != '\\') = true) : Units text :=
  units_of_forall (by simpa using h)

theorem units_space {space : List Char} (h : ∀ c ∈ space, isJsonSpace c = true) : Units space := by
  apply units_of_forall
  intro c hc heq
  have hspace := h c hc
  rw [heq] at hspace
  revert hspace
  decide

theorem CharText.units {c : Char} (h : CharText text c) : Units text := by
  cases h with
  | literal _ _ hc => exact .plain hc .nil
  | escape he => exact .escape he .nil
  | unicode hn => exact .unicode hn .nil
  | surrogates hhigh hlow => exact .unicode hhigh (.unicode hlow .nil)

theorem StringText.units (h : StringText text s) : Units text := by
  induction h with
  | nil => exact .nil
  | cons hc _ ih => exact hc.units.append ih

theorem IsDigits.ne_backslash (h : IsDigits text) : ∀ c ∈ text, c ≠ '\\' := by
  intro c hc heq
  have hdigit := h.2 c hc
  rw [heq] at hdigit
  revert hdigit
  decide

theorem NumberText.units (h : NumberText text) : Units text := by
  obtain ⟨hsign, hwhole, -, hfraction, hexponent⟩ := h
  refine Units.append (Units.append (Units.append ?_ ?_) ?_) ?_
  · rcases hsign with rfl | rfl
    · exact .nil
    · exact .plain (by decide) .nil
  · exact units_of_forall hwhole.ne_backslash
  · rcases hfraction with rfl | ⟨ds, hds, rfl⟩
    · exact .nil
    · exact .plain (by decide) (units_of_forall hds.ne_backslash)
  · rcases hexponent with rfl | ⟨e, sign, ds, he, hsign, hds, rfl⟩
    · exact .nil
    · have hdigits := units_of_forall hds.ne_backslash
      have hsigned : Units (sign ++ ds) := by
        rcases hsign with rfl | rfl | rfl
        · exact hdigits
        · exact .plain (by decide) hdigits
        · exact .plain (by decide) hdigits
      rcases he with rfl | rfl
      · exact .plain (by decide) hsigned
      · exact .plain (by decide) hsigned

theorem units_intercalate {texts : List (List Char)} (h : ∀ text ∈ texts, Units text) :
    Units ([','].intercalate texts) := by
  induction texts with
  | nil => exact .nil
  | cons text texts ih =>
    have htext := h text List.mem_cons_self
    have hrest := ih fun t ht => h t (List.mem_cons_of_mem _ ht)
    cases texts with
    | nil => simpa [List.intercalate] using htext
    | cons next texts =>
      rw [List.intercalate_cons_cons]
      exact (htext.append (.plain (by decide) .nil)).append hrest

/-- The string stands in the text, behind whole escapes. -/
def Located (text : List Char) (s : List Char) : Prop :=
  ∃ before body after, text = before ++ '"' :: (body ++ '"' :: after) ∧
    Units before ∧ StringText body s

theorem Located.append {text s before : List Char} (h : Located text s) (hbefore : Units before)
    (after : List Char) : Located (before ++ text ++ after) s := by
  obtain ⟨before', body, after', rfl, hunits, hbody⟩ := h
  exact ⟨before ++ before', body, after' ++ after, by simp, hbefore.append hunits, hbody⟩

theorem located_intercalate {texts : List (List Char)} (hunits : ∀ text ∈ texts, Units text)
    (hmem : text ∈ texts) (h : Located text s) : Located ([','].intercalate texts) s := by
  induction texts with
  | nil => cases hmem
  | cons first texts ih =>
    have hfirst := hunits first List.mem_cons_self
    cases texts with
    | nil =>
      rw [List.mem_singleton] at hmem
      subst hmem
      simpa [List.intercalate] using h
    | cons next texts =>
      rw [List.intercalate_cons_cons]
      rcases List.mem_cons.mp hmem with rfl | hmem
      · have happend := h.append .nil ([','] ++ [','].intercalate (next :: texts))
        simpa using happend
      · have hrest := ih (fun t ht => hunits t (List.mem_cons_of_mem _ ht)) hmem
        have hcomma : Units [','] := .plain (by decide) .nil
        have happend := hrest.append (hfirst.append hcomma) []
        simpa using happend

/-- A string among the items and fields of a value, at any depth. -/
def StringIn (s : List Char) (v : Json) : Prop :=
  Relation.ReflTransGen Json.Member (.str (String.ofList s)) v

theorem StringIn.of_member {v w : Json} (h : StringIn s v) (hmember : Json.Member v w) :
    StringIn s w :=
  Relation.ReflTransGen.tail h hmember

theorem stringIn_arr {items : List Json} (h : StringIn s (.arr items)) :
    ∃ v ∈ items, StringIn s v := by
  rcases Relation.ReflTransGen.cases_tail h with heq | ⟨v, hv, hmember⟩
  · cases heq
  · cases hmember with
    | item hmem => exact ⟨v, hmem, hv⟩

theorem stringIn_obj {fields : Json.Fields} (h : StringIn s (.obj fields)) :
    ∃ field ∈ fields, StringIn s field.2 := by
  rcases Relation.ReflTransGen.cases_tail h with heq | ⟨v, hv, hmember⟩
  · cases heq
  · cases hmember with
    | field hmem => exact ⟨(_, v), hmem, hv⟩

theorem mem_foldl_insertField {members : List Member} {fields : Json.Fields}
    {field : String × Json}
    (h : field ∈ members.foldl (fun fields m =>
      Json.insertField fields (String.ofList m.name) m.value) fields) :
    field ∈ fields ∨ ∃ m ∈ members, field.2 = m.value := by
  induction members generalizing fields with
  | nil => exact Or.inl h
  | cons m members ih =>
    rcases ih h with hmem | ⟨m', hm', heq⟩
    · rcases Json.mem_insertField hmem with heq | hmem
      · exact Or.inr ⟨m, List.mem_cons_self, congrArg Prod.snd heq⟩
      · exact Or.inl hmem
    · exact Or.inr ⟨m', List.mem_cons_of_mem _ hm', heq⟩

theorem Member.units_text {m : Member} (hbefore : ∀ c ∈ m.before, isJsonSpace c = true)
    (hafter : ∀ c ∈ m.after, isJsonSpace c = true) (hname : StringText m.nameText m.name)
    (hvalue : Units m.valueText) : Units m.text :=
  (units_space hbefore).append (.plain (by decide) (hname.units.append
    (.plain (by decide) ((units_space hafter).append (.plain (by decide) hvalue)))))

theorem Member.located_text {m : Member} (hbefore : ∀ c ∈ m.before, isJsonSpace c = true)
    (hafter : ∀ c ∈ m.after, isJsonSpace c = true) (hname : StringText m.nameText m.name)
    (hvalue : Located m.valueText s) : Located m.text s := by
  have hunits : Units (m.before ++ '"' :: (m.nameText ++ '"' :: (m.after ++ [':']))) :=
    (units_space hbefore).append (.plain (by decide) (hname.units.append
      (.plain (by decide) ((units_space hafter).append (.plain (by decide) .nil)))))
  have happend := hvalue.append hunits []
  simpa [Member.text] using happend

/-- Words and numbers have no strings. -/
def isPlain : Json → Bool
  | .str _ => false
  | .arr _ => false
  | .obj _ => false
  | _ => true

theorem not_stringIn_of_isPlain (hv : isPlain v = true) (s : List Char) : ¬ StringIn s v := by
  intro h
  rcases Relation.ReflTransGen.cases_tail h with rfl | ⟨w, -, hmember⟩
  · cases hv
  · cases hmember with
    | item => cases hv
    | field => cases hv

theorem isPlain_of_isNumber (h : isNumber v = true) : isPlain v = true := by
  cases v with
  | int => rfl
  | float => rfl
  | null => cases h
  | bool => cases h
  | str => cases h
  | arr => cases h
  | obj => cases h

/-- The text of a value is made of whole escapes, and each string of the value stands in it. -/
theorem ValueText.located (h : ValueText text v) :
    Units text ∧ ∀ s, StringIn s v → Located text s := by
  induction h with
  | nullWord =>
    exact ⟨units_of_all (by decide), fun s hs => absurd hs (not_stringIn_of_isPlain rfl s)⟩
  | trueWord =>
    exact ⟨units_of_all (by decide), fun s hs => absurd hs (not_stringIn_of_isPlain rfl s)⟩
  | falseWord =>
    exact ⟨units_of_all (by decide), fun s hs => absurd hs (not_stringIn_of_isPlain rfl s)⟩
  | number hnumber hv =>
    exact ⟨hnumber.units,
      fun s hs => absurd hs (not_stringIn_of_isPlain (isPlain_of_isNumber hv) s)⟩
  | @string text s htext =>
    refine ⟨.plain (by decide) (htext.units.append (.plain (by decide) .nil)), fun s' hs => ?_⟩
    rcases Relation.ReflTransGen.cases_tail hs with heq | ⟨v, -, hmember⟩
    · have heq' : s = s' := String.ofList_injective (Json.str.inj heq)
      subst heq'
      exact ⟨[], text, [], rfl, .nil, htext⟩
    · cases hmember
  | emptyArray hspace =>
    refine ⟨.plain (by decide) ((units_space hspace).append (.plain (by decide) .nil)), ?_⟩
    intro s hs
    obtain ⟨v, hv, -⟩ := stringIn_arr hs
    cases hv
  | @array items hne hitems ih =>
    have hunits : ∀ text ∈ items.map Prod.fst, Units text := by
      intro text htext
      obtain ⟨item, hitem, rfl⟩ := List.mem_map.mp htext
      exact (ih item hitem).1
    refine ⟨.plain (by decide) ((units_intercalate hunits).append (.plain (by decide) .nil)), ?_⟩
    intro s hs
    obtain ⟨v, hv, hs⟩ := stringIn_arr hs
    obtain ⟨item, hitem, rfl⟩ := List.mem_map.mp hv
    have hlocated := located_intercalate hunits (List.mem_map_of_mem hitem) ((ih item hitem).2 s hs)
    have hbracket : Units ['['] := .plain (by decide) .nil
    simpa using hlocated.append hbracket [']']
  | emptyObject hspace =>
    refine ⟨.plain (by decide) ((units_space hspace).append (.plain (by decide) .nil)), ?_⟩
    intro s hs
    obtain ⟨field, hfield, -⟩ := stringIn_obj hs
    cases hfield
  | @object members hne hmembers hvalues ih =>
    have hunits : ∀ text ∈ members.map Member.text, Units text := by
      intro text htext
      obtain ⟨m, hm, rfl⟩ := List.mem_map.mp htext
      obtain ⟨hbefore, hafter, hname⟩ := hmembers m hm
      exact Member.units_text hbefore hafter hname (ih m hm).1
    refine ⟨.plain (by decide) ((units_intercalate hunits).append (.plain (by decide) .nil)), ?_⟩
    intro s hs
    obtain ⟨field, hfield, hs⟩ := stringIn_obj hs
    obtain ⟨m, hm, heq⟩ := (mem_foldl_insertField hfield).resolve_left List.not_mem_nil
    rw [heq] at hs
    obtain ⟨hbefore, hafter, hname⟩ := hmembers m hm
    have hlocated := located_intercalate hunits (List.mem_map_of_mem hm)
      (Member.located_text hbefore hafter hname ((ih m hm).2 s hs))
    have hbrace : Units ['\x7b'] := .plain (by decide) .nil
    simpa using hlocated.append hbrace ['\x7d']
  | padded hbefore hafter htext ih =>
    refine ⟨((units_space hbefore).append ih.1).append (units_space hafter), fun s hs => ?_⟩
    exact (ih.2 s hs).append (units_space hbefore) _

end KiroProxy.JsonText
