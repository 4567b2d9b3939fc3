import KiroProxy.Json
import KiroProxy.Matching
import KiroProxy.Text

/-!
# Session ids in `metadata.user_id`

Two modules read the session id of a user id: the converter takes it as the conversation
id, and the prompt cache asks whether there is one. Both look into a JSON object first and
then for the text after `session_`, but each has its own check of a UUID, and only the
converter's slice of 36 bytes respects the boundaries of characters.
-/

namespace KiroProxy.SessionId

/-- The text of the first `n` bytes, if they end where a character ends. -/
def getPrefix : ℕ → List Char → Option (List Char)
  | 0, _ => some []
  | _ + 1, [] => none
  | n + 1, c :: cs =>
    if c.utf8Size ≤ n + 1 then (getPrefix (n + 1 - c.utf8Size) cs).map (c :: ·) else none

def bytes (cs : List Char) : List UInt8 :=
  cs.flatMap String.utf8EncodeChar

def isAsciiHexdigit (byte : UInt8) : Bool :=
  (0x30 ≤ byte && byte ≤ 0x39) || (0x41 ≤ byte && byte ≤ 0x46) || (0x61 ≤ byte && byte ≤ 0x66)

def isHyphenIndex (idx : ℕ) : Bool :=
  idx == 8 || idx == 13 || idx == 18 || idx == 23

def jsonSessionId (fromStr : List Char → Option Json) (userId : List Char) :
    Option (List Char) :=
  match fromStr userId with
  | some (.obj fields) =>
    ((Json.getField fields "session_id").bind Json.asStr).map String.toList
  | _ => none

/-- The text after the first `session_`. -/
def sessionPart (userId : List Char) : Option (List Char) :=
  (Matching.find "session_".toList userId).map fun pos => userId.drop (pos + 8)

namespace PromptCache

def isValidUuid (value : List Char) : Bool :=
  utf8Length value == 36 && (bytes value).zipIdx.all fun entry =>
    if isHyphenIndex entry.2 then entry.1 == 0x2d else isAsciiHexdigit entry.1

/-- The slice of 36 bytes panics inside a character: the result is then `none`. -/
def metadataUserIdHasSessionId (fromStr : List Char → Option Json) (userId : List Char) :
    Option Bool :=
  if (jsonSessionId fromStr userId).any isValidUuid then some true
  else
    match sessionPart userId with
    | some part =>
      if 36 ≤ utf8Length part then (getPrefix 36 part).map isValidUuid else some false
    | none => some false

end PromptCache

namespace Converter

def isValidUuid (s : List Char) : Bool :=
  utf8Length s == 36 && s.count '-' == 4

def extractSessionId (fromStr : List Char → Option Json) (userId : List Char) :
    Option (List Char) :=
  match (jsonSessionId fromStr userId).filter isValidUuid with
  | some sessionId => some sessionId
  | none => ((sessionPart userId).bind (getPrefix 36)).filter isValidUuid

end Converter

theorem length_bytes (cs : List Char) : (bytes cs).length = utf8Length cs := by
  induction cs with
  | nil => rfl
  | cons c cs ih =>
    have hcons : bytes (c :: cs) = String.utf8EncodeChar c ++ bytes cs := List.flatMap_cons
    rw [hcons, List.length_append, String.length_utf8EncodeChar, ih, utf8Length_cons]

/-- A list holds a value exactly at the positions of a predicate. -/
theorem count_eq_countP_range' {α : Type} [DecidableEq α] {a : α} {p : ℕ → Bool} (l : List α)
    (start : ℕ) (h : ∀ entry ∈ l.zipIdx start, entry.1 = a ↔ p entry.2 = true) :
    l.count a = (List.range' start l.length).countP p := by
  induction l generalizing start with
  | nil => rfl
  | cons x l ih =>
    have hrest := ih (start + 1) fun entry hentry =>
      h entry (by rw [List.zipIdx_cons]; exact List.mem_cons_of_mem _ hentry)
    have hhead : x = a ↔ p start = true :=
      h (x, start) (by rw [List.zipIdx_cons]; exact List.mem_cons_self)
    rw [List.length_cons, List.range'_succ, List.countP_cons, List.count_cons, hrest]
    by_cases hx : x = a
    · simp [hx, hhead.mp hx]
    · simp [hx, mt hhead.mpr hx]

/-- Only one byte is below `0x80` in the encoding of a character of several bytes: none of the
others can begin a character. -/
theorem utf8Size_eq_one_of_ascii {c : Char}
    (h : ∀ byte ∈ String.utf8EncodeChar c, byte < 0x80) : c.utf8Size = 1 := by
  by_contra hne
  have hlen : 1 < (String.utf8EncodeChar c).length := by
    have hpos := c.utf8Size_pos
    rw [String.length_utf8EncodeChar]
    omega
  have hascii := h _ (List.getElem_mem hlen)
  have hfirst : (String.utf8EncodeChar c)[1].IsUTF8FirstByte := by
    have hall : ∀ n < 128, UInt8.ofNat n &&& 0x80 = 0 := by decide
    have hbyte := hall _ (UInt8.lt_iff_toNat_lt.mp hascii)
    rw [UInt8.ofNat_toNat] at hbyte
    exact .inl hbyte
  rw [UInt8.isUTF8FirstByte_getElem_utf8EncodeChar] at hfirst
  cases hfirst

theorem bytes_of_ascii {cs : List Char} (h : ∀ byte ∈ bytes cs, byte < 0x80) :
    bytes cs = cs.map (·.val.toUInt8) ∧ ∀ c ∈ cs, c.val ≤ 127 := by
  induction cs with
  | nil => exact ⟨rfl, fun c hc => by cases hc⟩
  | cons c cs ih =>
    have hcons : bytes (c :: cs) = String.utf8EncodeChar c ++ bytes cs := List.flatMap_cons
    rw [hcons] at h ⊢
    have hsize := utf8Size_eq_one_of_ascii fun byte hbyte => h byte (List.mem_append_left _ hbyte)
    obtain ⟨hmap, hrest⟩ := ih fun byte hbyte => h byte (List.mem_append_right _ hbyte)
    constructor
    · rw [String.utf8EncodeChar_eq_singleton hsize, hmap]
      rfl
    · intro d hd
      rcases List.mem_cons.mp hd with rfl | hd
      · exact Char.utf8Size_eq_one_iff.mp hsize
      · exact hrest d hd

theorem eq_hyphen_iff {c : Char} (h : c.val ≤ 127) : c = '-' ↔ c.val.toUInt8 = 0x2d := by
  constructor
  · rintro rfl
    rfl
  · intro heq
    have hnat := congrArg UInt8.toNat heq
    rw [UInt32.toNat_toUInt8] at hnat
    rw [UInt32.le_iff_toNat_le] at h
    have hval : c.val.toNat = 45 := by
      have h127 : c.val.toNat ≤ 127 := h
      have h45 : c.val.toNat % 2 ^ 8 = 45 := hnat
      omega
    exact Char.ext (UInt32.toNat_inj.mp hval)

theorem lt_of_isAsciiHexdigit {byte : UInt8} (h : isAsciiHexdigit byte = true) :
    byte < 0x80 ∧ byte ≠ 0x2d := by
  have hall : ∀ n < 256, isAsciiHexdigit (UInt8.ofNat n) = true →
      UInt8.ofNat n < 0x80 ∧ UInt8.ofNat n ≠ 0x2d := by decide +kernel
  have hbyte := hall _ (UInt8.toNat_lt byte)
  rw [UInt8.ofNat_toNat] at hbyte
  exact hbyte h

theorem isValidUuid_of_strict {value : List Char} (h : PromptCache.isValidUuid value = true) :
    Converter.isValidUuid value = true := by
  unfold PromptCache.isValidUuid at h
  rw [Bool.and_eq_true, beq_iff_eq, List.all_eq_true] at h
  obtain ⟨hlength, hbytes⟩ := h
  have hascii : ∀ byte ∈ bytes value, byte < 0x80 := by
    intro byte hbyte
    obtain ⟨i, hi, rfl⟩ := List.getElem_of_mem hbyte
    have hentry := hbytes ((bytes value)[i], i)
      (List.mem_zipIdx_iff_getElem?.mpr (List.getElem?_eq_getElem hi))
    dsimp only at hentry
    split_ifs at hentry
    · rw [beq_iff_eq.mp hentry]
      decide
    · exact (lt_of_isAsciiHexdigit hentry).1
  obtain ⟨hmap, hsmall⟩ := bytes_of_ascii hascii
  have hlen : value.length = 36 := by
    rw [← hlength, ← length_bytes, hmap, List.length_map]
  have hcount : value.count '-' = (List.range' 0 value.length).countP isHyphenIndex := by
    refine count_eq_countP_range' value 0 fun entry hentry => ?_
    have hmem : entry.1 ∈ value := List.fst_mem_of_mem_zipIdx hentry
    have hbyte := hbytes (entry.1.val.toUInt8, entry.2) (by
      rw [hmap, List.zipIdx_map]
      exact List.mem_map.mpr ⟨entry, hentry, rfl⟩)
    rw [eq_hyphen_iff (hsmall _ hmem)]
    dsimp only at hbyte
    split_ifs at hbyte with hidx
    · exact iff_of_true (beq_iff_eq.mp hbyte) hidx
    · exact iff_of_false (lt_of_isAsciiHexdigit hbyte).2 hidx
  unfold Converter.isValidUuid
  rw [hlength, hcount, hlen]
  rfl

theorem utf8Length_of_getPrefix {n : ℕ} {cs head : List Char} (h : getPrefix n cs = some head) :
    n ≤ utf8Length cs := by
  induction cs generalizing n head with
  | nil =>
    cases n with
    | zero => exact Nat.zero_le _
    | succ n => cases h
  | cons c cs ih =>
    cases n with
    | zero => exact Nat.zero_le _
    | succ n =>
      rw [getPrefix] at h
      split_ifs at h with hsize
      obtain ⟨rest, hrest, -⟩ := Option.map_eq_some_iff.mp h
      have hle := ih hrest
      rw [utf8Length_cons]
      omega

/-- The 36 bytes after `session_`, where the converter expects the id. -/
def candidate (userId : List Char) : Option (List Char) :=
  (sessionPart userId).bind (getPrefix 36)

/-- The 36 bytes after `session_` end inside a character. -/
def CutsCharacter (userId : List Char) : Prop :=
  ∃ part, sessionPart userId = some part ∧ 36 ≤ utf8Length part ∧ getPrefix 36 part = none

/-- The user id carries an id in the form of a UUID, or nothing that the converter would take
for one. -/
def Unambiguous (fromStr : List Char → Option Json) (userId : List Char) : Prop :=
  (jsonSessionId fromStr userId).any PromptCache.isValidUuid = true ∨
    (candidate userId).any PromptCache.isValidUuid = true ∨
    ¬ CutsCharacter userId ∧
      (jsonSessionId fromStr userId).any Converter.isValidUuid = false ∧
      (candidate userId).any Converter.isValidUuid = false

theorem isSome_filter_eq_any {α : Type} (p : α → Bool) (x : Option α) :
    (x.filter p).isSome = x.any p := by
  cases x with
  | none => rfl
  | some a => by_cases h : p a = true <;> simp [Option.filter, h]

theorem any_loose_of_strict {id : Option (List Char)}
    (h : id.any PromptCache.isValidUuid = true) : id.any Converter.isValidUuid = true := by
  cases id with
  | none => cases h
  | some value => exact isValidUuid_of_strict h

theorem isSome_extractSessionId (fromStr : List Char → Option Json) (userId : List Char) :
    (Converter.extractSessionId fromStr userId).isSome =
      ((jsonSessionId fromStr userId).any Converter.isValidUuid ||
        (candidate userId).any Converter.isValidUuid) := by
  unfold Converter.extractSessionId candidate
  rw [← isSome_filter_eq_any, ← isSome_filter_eq_any]
  cases (jsonSessionId fromStr userId).filter Converter.isValidUuid with
  | none => rfl
  | some sessionId => rfl

theorem metadataUserIdHasSessionId_of_not_json {fromStr : List Char → Option Json}
    {userId : List Char}
    (h : (jsonSessionId fromStr userId).any PromptCache.isValidUuid = false) :
    (CutsCharacter userId ∧ PromptCache.metadataUserIdHasSessionId fromStr userId = none) ∨
      (¬ CutsCharacter userId ∧ PromptCache.metadataUserIdHasSessionId fromStr userId =
        some ((candidate userId).any PromptCache.isValidUuid)) := by
  unfold PromptCache.metadataUserIdHasSessionId CutsCharacter candidate
  rw [h, if_neg (by decide)]
  cases hpart : sessionPart userId with
  | none => exact .inr ⟨fun ⟨part, heq, _⟩ => (by cases heq), rfl⟩
  | some part =>
    rw [Option.bind_some]
    dsimp only
    cases hhead : getPrefix 36 part with
    | none =>
      split_ifs with hlength
      · exact .inl ⟨⟨part, rfl, hlength, hhead⟩, rfl⟩
      · refine .inr ⟨?_, rfl⟩
        rintro ⟨part', heq, hlength', -⟩
        cases heq
        exact hlength hlength'
    | some head =>
      rw [if_pos (utf8Length_of_getPrefix hhead)]
      refine .inr ⟨?_, rfl⟩
      rintro ⟨part', heq, -, hnone⟩
      cases heq
      rw [hhead] at hnone
      cases hnone

/-- The recognisers answer and agree exactly on the unambiguous user ids. -/
theorem recognisers_agree_iff (fromStr : List Char → Option Json) (userId : List Char) :
    (∃ found, PromptCache.metadataUserIdHasSessionId fromStr userId = some found ∧
      (found = true ↔ (Converter.extractSessionId fromStr userId).isSome = true)) ↔
      Unambiguous fromStr userId := by
  rw [isSome_extractSessionId]
  unfold Unambiguous
  cases hjson : (jsonSessionId fromStr userId).any PromptCache.isValidUuid with
  | true =>
    refine iff_of_true ⟨true, ?_, ?_⟩ (.inl rfl)
    · rw [PromptCache.metadataUserIdHasSessionId, hjson, if_pos rfl]
    · rw [any_loose_of_strict hjson, Bool.true_or]
  | false =>
    rcases metadataUserIdHasSessionId_of_not_json hjson with ⟨hcut, hnone⟩ | ⟨hcut, hsome⟩
    · have hcandidate : candidate userId = none := by
        obtain ⟨part, hpart, -, hhead⟩ := hcut
        rw [candidate, hpart, Option.bind_some, hhead]
      rw [hnone, hcandidate]
      refine iff_of_false ?_ ?_
      · rintro ⟨found, heq, -⟩
        cases heq
      · rintro (heq | heq | ⟨hne, -⟩)
        · cases heq
        · cases heq
        · exact hne hcut
    · rw [hsome]
      cases hstrict : (candidate userId).any PromptCache.isValidUuid with
      | true =>
        refine iff_of_true ⟨true, rfl, ?_⟩ (.inr (.inl rfl))
        rw [any_loose_of_strict hstrict, Bool.or_true]
      | false =>
        constructor
        · rintro ⟨found, heq, hiff⟩
          cases heq
          have hfalse : ((jsonSessionId fromStr userId).any Converter.isValidUuid ||
              (candidate userId).any Converter.isValidUuid) = false := by
            rw [Bool.eq_false_iff]
            exact fun htrue => absurd (hiff.mpr htrue) (by decide)
          rw [Bool.or_eq_false_iff] at hfalse
          exact .inr (.inr ⟨hcut, hfalse⟩)
        · rintro (heq | heq | ⟨-, hloose⟩)
          · cases heq
          · cases heq
          · refine ⟨false, rfl, ?_⟩
            rw [hloose.1, hloose.2]
            rfl

/-- 35 letters and then a character of three bytes: the slice ends inside it. -/
def cutUserId : List Char :=
  "user_session_".toList ++ List.replicate 35 'a' ++ ['中']

/-- The cache panics on a user id that the converter just ignores. -/
theorem metadataUserIdHasSessionId_cutUserId :
    ¬ ∃ found, PromptCache.metadataUserIdHasSessionId (fun _ => none) cutUserId = some found ∧
      (found = true ↔ (Converter.extractSessionId (fun _ => none) cutUserId).isSome = true) := by
  rintro ⟨found, heq, -⟩
  have hnone : PromptCache.metadataUserIdHasSessionId (fun _ => none) cutUserId = none := by
    decide +kernel
  rw [hnone] at heq
  cases heq

end KiroProxy.SessionId
