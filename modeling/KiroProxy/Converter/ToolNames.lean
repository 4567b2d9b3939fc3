import KiroProxy.Json
import KiroProxy.KeyedList
import KiroProxy.Text

/-!
# Tool names sent to Kiro

The mapping of client tool names to names that Kiro accepts: camel case with a digest
suffix, or the name itself when it is already safe. SHA-256 is an arbitrary function of
the hashed text.
-/

namespace KiroProxy.Converter

def toolNameMaxLen : ℕ := 63

def toolHashMarker : String := "Hash"

variable (sha256 : String → Digest)

def capitalizeAsciiFirst : List Char → List Char
  | [] => []
  | first :: rest => first.toUpper :: rest

def isNameSeparator (c : Char) : Bool :=
  c == '_' || c == '-' || !c.isAlphanum

/-- The camel-case form of a name, as characters. -/
def sanitizeToolNameChars (name : List Char) : List Char :=
  match (name.splitOnP isNameSeparator).filter (fun part => !part.isEmpty) with
  | [] => "tool".toList
  | first :: parts =>
    let sanitized := match first with
      | [] => []
      | firstChar :: chars => firstChar.toLower :: chars
    let sanitized := parts.foldl (fun sanitized part => sanitized ++ capitalizeAsciiFirst part)
      sanitized
    match sanitized with
    | [] => "tool".toList
    | c :: _ => if c.isAlpha then sanitized else "tool".toList ++ capitalizeAsciiFirst sanitized

def sanitizeToolName (name : String) : String :=
  String.ofList (sanitizeToolNameChars name.toList)

/-- Truncated name, marker and eight digits of the digest. -/
def shortenToolName (name hashInput : String) : String :=
  let hashSuffix := (sha256 hashInput).hex.take 8
  let prefixMax := toolNameMaxLen - toolHashMarker.utf8ByteSize - 8
  String.ofList (name.toList.take prefixMax ++ toolHashMarker.toList ++ hashSuffix)

def deterministicMappedToolName (name : String) : String :=
  let sanitized := sanitizeToolName name
  if sanitized ≠ name ∨ sanitized.utf8ByteSize > toolNameMaxLen then
    shortenToolName sha256 sanitized name
  else sanitized

def isKiroSafeToolName (name : String) : Bool :=
  name.utf8ByteSize ≤ toolNameMaxLen &&
    match name.toList with
    | [] => false
    | first :: rest => first.isAlpha && rest.all fun ch => ch.isAlphanum || ch == '_' || ch == '-'

def kiroRequestToolName (verbatimWhenValid : Bool) (name : String) : String :=
  if verbatimWhenValid && isKiroSafeToolName name then name
  else deterministicMappedToolName sha256 name

/-- A non-empty list of ASCII letters and digits that starts with a letter. -/
def CamelCase (cs : List Char) : Prop :=
  ∃ c rest, cs = c :: rest ∧ c.isAlpha = true ∧ ∀ x ∈ cs, x.isAlphanum = true

theorem not_separator_of_mem_splitOnP {p : Char → Bool} {name part : List Char}
    (h : part ∈ name.splitOnP p) : ∀ x ∈ part, p x = false := by
  induction name generalizing part with
  | nil =>
    rw [List.splitOnP_nil, List.mem_singleton] at h
    subst h
    exact fun x hx => absurd hx List.not_mem_nil
  | cons c name ih =>
    rw [List.splitOnP_cons_eq_if_modifyHead] at h
    split_ifs at h with hc
    · rcases List.mem_cons.mp h with rfl | h
      · exact fun x hx => absurd hx List.not_mem_nil
      · exact ih h
    · rw [Bool.not_eq_true] at hc
      cases hsplit : name.splitOnP p with
      | nil => exact absurd hsplit (List.splitOnP_ne_nil _ _)
      | cons head parts =>
        rw [hsplit, List.modifyHead_cons] at h
        rw [hsplit] at ih
        rcases List.mem_cons.mp h with rfl | h
        · exact List.forall_mem_cons.mpr ⟨hc, ih List.mem_cons_self⟩
        · exact ih (List.mem_cons_of_mem _ h)

theorem isAlphanum_of_not_separator {c : Char} (h : isNameSeparator c = false) :
    c.isAlphanum = true := by
  simp only [isNameSeparator, Bool.or_eq_false_iff, Bool.not_eq_false'] at h
  exact h.2

theorem isAlphanum_of_mem_part {name part : List Char}
    (h : part ∈ (name.splitOnP isNameSeparator).filter (fun part => !part.isEmpty)) :
    part ≠ [] ∧ ∀ x ∈ part, x.isAlphanum = true := by
  obtain ⟨hpart, hne⟩ := List.mem_filter.mp h
  refine ⟨by simpa using hne, fun x hx => ?_⟩
  exact isAlphanum_of_not_separator (not_separator_of_mem_splitOnP hpart x hx)

theorem isAlphanum_capitalizeAsciiFirst {cs : List Char} (h : ∀ x ∈ cs, x.isAlphanum = true) :
    ∀ x ∈ capitalizeAsciiFirst cs, x.isAlphanum = true := by
  cases cs with
  | nil => exact h
  | cons c cs =>
    rw [List.forall_mem_cons] at h
    exact List.forall_mem_cons.mpr ⟨(isAlphanum_case h.1).2.1, h.2⟩

theorem foldl_append_eq {f : List Char → List Char} (parts : List (List Char)) (acc : List Char) :
    parts.foldl (fun acc part => acc ++ f part) acc = acc ++ parts.flatMap f := by
  induction parts generalizing acc with
  | nil => simp
  | cons part parts ih => rw [List.foldl_cons, ih, List.flatMap_cons, List.append_assoc]

theorem camelCase_sanitizeToolNameChars (name : List Char) :
    CamelCase (sanitizeToolNameChars name) := by
  have htool : CamelCase "tool".toList := ⟨'t', "ool".toList, rfl, by decide, List.all_eq_true.mp rfl⟩
  unfold sanitizeToolNameChars
  have hparts := @isAlphanum_of_mem_part name
  generalize (name.splitOnP isNameSeparator).filter (fun part => !part.isEmpty) = all at hparts
  cases all with
  | nil => exact htool
  | cons first parts =>
    obtain ⟨hne, hfirst⟩ := hparts List.mem_cons_self
    cases first with
    | nil => exact absurd rfl hne
    | cons c rest =>
      rw [List.forall_mem_cons] at hfirst
      obtain ⟨hlower, -, halpha⟩ := isAlphanum_case hfirst.1
      have hall : ∀ x ∈ c.toLower :: rest ++ parts.flatMap capitalizeAsciiFirst,
          x.isAlphanum = true := by
        rw [List.forall_mem_append, List.forall_mem_cons]
        refine ⟨⟨hlower, hfirst.2⟩, fun x hx => ?_⟩
        obtain ⟨part, hpart, hx⟩ := List.mem_flatMap.mp hx
        exact isAlphanum_capitalizeAsciiFirst (hparts (List.mem_cons_of_mem _ hpart)).2 x hx
      simp only [foldl_append_eq, List.cons_append]
      split_ifs with hc
      · exact ⟨_, _, rfl, hc, hall⟩
      · refine ⟨'t', _, rfl, by decide, ?_⟩
        rw [List.forall_mem_append]
        exact ⟨List.all_eq_true.mp rfl, isAlphanum_capitalizeAsciiFirst hall⟩

/-- A letter followed by letters, digits, underscores or hyphens, in at most 63 bytes. -/
def KiroSafe (name : String) : Prop :=
  name.utf8ByteSize ≤ 63 ∧ ∃ first rest, name.toList = first :: rest ∧ first.isAlpha = true ∧
    ∀ ch ∈ rest, ch.isAlphanum = true ∨ ch = '_' ∨ ch = '-'

theorem isKiroSafeToolName_iff (name : String) :
    isKiroSafeToolName name = true ↔ KiroSafe name := by
  unfold isKiroSafeToolName KiroSafe
  rw [Bool.and_eq_true, decide_eq_true_eq]
  refine and_congr Iff.rfl ?_
  cases name.toList with
  | nil => simp
  | cons first rest => simp [or_assoc]

theorem utf8ByteSize_of_isAlphanum {cs : List Char} (h : ∀ x ∈ cs, x.isAlphanum = true) :
    (String.ofList cs).utf8ByteSize = cs.length := by
  rw [utf8ByteSize_ofList]
  induction cs with
  | nil => rfl
  | cons c cs ih =>
    rw [List.forall_mem_cons] at h
    rw [utf8Length_cons, utf8Size_of_lt (lt_of_isAlphanum h.1), ih h.2,
      List.length_cons, Nat.add_comm]

theorem kiroSafe_of_camelCase {cs : List Char} (h : CamelCase cs) (hlen : cs.length ≤ 63) :
    KiroSafe (String.ofList cs) := by
  obtain ⟨c, rest, rfl, hc, hall⟩ := h
  refine ⟨(utf8ByteSize_of_isAlphanum hall).trans_le hlen, c, rest, String.toList_ofList, hc, ?_⟩
  exact fun ch hch => .inl (hall ch (List.mem_cons_of_mem _ hch))

theorem kiroSafe_shortenToolName (name hashInput : String) :
    KiroSafe (shortenToolName sha256 (sanitizeToolName name) hashInput) := by
  obtain ⟨c, rest, hcs, hc, hall⟩ := camelCase_sanitizeToolNameChars name.toList
  have hmarker : (toolHashMarker.utf8ByteSize : ℕ) = 4 := by decide +kernel
  unfold shortenToolName
  simp only [sanitizeToolName, String.toList_ofList, hmarker, toolNameMaxLen]
  rw [hcs] at hall ⊢
  refine kiroSafe_of_camelCase ⟨c, _, rfl, hc, ?_⟩ ?_
  · simp only [List.forall_mem_append]
    refine ⟨⟨fun x hx => hall x (List.mem_of_mem_take hx), List.all_eq_true.mp rfl⟩, fun x hx => ?_⟩
    exact Digest.isAlphanum_of_mem_hex (List.mem_of_mem_take hx)
  · have htake := List.length_take_le (63 - 4 - 8) (c :: rest)
    have hhex := List.length_take_le 8 (sha256 hashInput).hex
    have hlen : toolHashMarker.toList.length = 4 := by decide
    simp only [List.length_append, hlen] at *
    omega

theorem kiroSafe_kiroRequestToolName (verbatimWhenValid : Bool) (name : String) :
    KiroSafe (kiroRequestToolName sha256 verbatimWhenValid name) := by
  unfold kiroRequestToolName
  split_ifs with hverbatim
  · rw [Bool.and_eq_true] at hverbatim
    exact (isKiroSafeToolName_iff name).mp hverbatim.2
  · unfold deterministicMappedToolName
    simp only
    split_ifs with hmapped
    · exact kiroSafe_shortenToolName sha256 name name
    · rw [not_or, not_lt, toolNameMaxLen] at hmapped
      have hlen := hmapped.2
      obtain ⟨c, rest, -, -, hall⟩ := camelCase_sanitizeToolNameChars name.toList
      rw [sanitizeToolName, utf8ByteSize_of_isAlphanum hall] at hlen
      exact kiroSafe_of_camelCase (camelCase_sanitizeToolNameChars name.toList) hlen

example : sanitizeToolName "mcp__fs.list-directory" = "mcpFsListDirectory" := by decide

end KiroProxy.Converter
