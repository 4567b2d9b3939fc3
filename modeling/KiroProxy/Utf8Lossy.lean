import KiroProxy.Text

/-!
# Lossy UTF-8 decoding

`fromUtf8Lossy` reads an arbitrary byte sequence as text. Well-formed
characters are decoded, and every maximal ill-formed subpart becomes one
replacement character `U+FFFD`. On the encoding of a string it is the inverse
of `encodeUtf8`.
-/

namespace KiroProxy

def encodeUtf8 (s : String) : List UInt8 :=
  s.toList.flatMap String.utf8EncodeChar

def isContinuation (b : UInt8) : Bool := b &&& 0xC0 == 0x80

/-- Whether `c` may follow the three- or four-byte lead `b`: overlong forms,
surrogates and values above `U+10FFFF` are excluded at the second byte. -/
def secondByteAllowed (b c : UInt8) : Bool :=
  if b == 0xE0 then 0xA0 ≤ c && c ≤ 0xBF
  else if b == 0xED then 0x80 ≤ c && c ≤ 0x9F
  else if b == 0xF0 then 0x90 ≤ c && c ≤ 0xBF
  else if b == 0xF4 then 0x80 ≤ c && c ≤ 0x8F
  else isContinuation c

/-- Length of the ill-formed subpart that starts with `b`, when no character
can be decoded there. -/
def invalidPrefixLen (b : UInt8) (rest : List UInt8) : ℕ :=
  if 0xE0 ≤ b ∧ b ≤ 0xEF then
    if secondByteAllowed b (rest.getD 0 0) then 2 else 1
  else if 0xF0 ≤ b ∧ b ≤ 0xF4 then
    if secondByteAllowed b (rest.getD 0 0) then
      if isContinuation (rest.getD 1 0) then 3 else 2
    else 1
  else 1

def decodeFirst (bytes : List UInt8) : Option Char :=
  (bytes.take 4).toByteArray.utf8DecodeChar? 0

/-- Each round consumes at least one byte, so `fuel = bytes.length` rounds
decode everything. -/
def lossyChars : ℕ → List UInt8 → List Char
  | 0, _ => []
  | _, [] => []
  | fuel + 1, b :: rest =>
    match decodeFirst (b :: rest) with
    | some c => c :: lossyChars fuel ((b :: rest).drop c.utf8Size)
    | none => '\uFFFD' :: lossyChars fuel ((b :: rest).drop (invalidPrefixLen b rest))

def fromUtf8Lossy (bytes : List UInt8) : String :=
  String.ofList (lossyChars bytes.length bytes)

theorem decodeFirst_utf8EncodeChar_append (c : Char) (rest : List UInt8) :
    decodeFirst (String.utf8EncodeChar c ++ rest) = some c := by
  have hle : (String.utf8EncodeChar c).length ≤ 4 := by
    rw [String.length_utf8EncodeChar]
    exact c.utf8Size_le_four
  unfold decodeFirst
  rw [List.take_append, List.take_of_length_le hle, List.toByteArray_append]
  exact ByteArray.utf8DecodeChar?_utf8EncodeChar_append

theorem lossyChars_utf8EncodeChar_append (fuel : ℕ) (c : Char) (rest : List UInt8) :
    lossyChars (fuel + 1) (String.utf8EncodeChar c ++ rest) = c :: lossyChars fuel rest := by
  have hdecode := decodeFirst_utf8EncodeChar_append c rest
  have hdrop : (String.utf8EncodeChar c ++ rest).drop c.utf8Size = rest := by
    rw [← String.length_utf8EncodeChar, List.drop_left]
  cases hbytes : String.utf8EncodeChar c ++ rest with
  | nil =>
    have hlen := congrArg List.length hbytes
    have hpos := c.utf8Size_pos
    simp only [List.length_append, String.length_utf8EncodeChar, List.length_nil] at hlen
    omega
  | cons b tail =>
    rw [hbytes] at hdecode hdrop
    simp only [lossyChars, hdecode, hdrop]

variable (cs : List Char) {c : Char} {x : UInt8}

theorem lossyChars_flatMap (fuel : ℕ) (h : cs.length ≤ fuel) :
    lossyChars fuel (cs.flatMap String.utf8EncodeChar) = cs := by
  induction cs generalizing fuel with
  | nil => cases fuel <;> simp [lossyChars]
  | cons c cs ih =>
    cases fuel with
    | zero => simp at h
    | succ fuel =>
      rw [List.flatMap_cons, lossyChars_utf8EncodeChar_append, ih fuel (by simpa using h)]

theorem length_le_length_flatMap_utf8EncodeChar :
    cs.length ≤ (cs.flatMap String.utf8EncodeChar).length := by
  induction cs with
  | nil => simp
  | cons c cs ih =>
    have hpos := c.utf8Size_pos
    simp only [List.length_cons, List.flatMap_cons, List.length_append,
      String.length_utf8EncodeChar]
    omega

/-- Decoding the UTF-8 encoding of a string gives the string back. -/
theorem fromUtf8Lossy_encodeUtf8 (s : String) : fromUtf8Lossy (encodeUtf8 s) = s := by
  unfold fromUtf8Lossy encodeUtf8
  rw [lossyChars_flatMap _ _ (length_le_length_flatMap_utf8EncodeChar s.toList),
    String.ofList_toList]

theorem utf8EncodeChar_of_lt (h : c.toNat < 128) :
    String.utf8EncodeChar c = [UInt8.ofNat c.toNat] := by
  have hle : c.val.toNat ≤ 0x7f := Nat.le_of_lt_succ h
  rw [String.utf8EncodeChar, if_pos hle]
  rfl

theorem le_of_mem_utf8EncodeChar (h : 128 ≤ c.toNat) {byte : UInt8}
    (hbyte : byte ∈ String.utf8EncodeChar c) : 128 ≤ byte.toNat := by
  have hgt : ¬ c.val.toNat ≤ 0x7f := by
    have hval : 128 ≤ c.val.toNat := h
    omega
  rw [String.utf8EncodeChar, if_neg hgt] at hbyte
  split_ifs at hbyte <;>
    simp only [List.mem_cons, List.not_mem_nil, or_false] at hbyte <;>
    rcases hbyte with rfl | rfl | rfl | rfl <;>
    simp only [UInt8.toNat_ofNat'] <;> omega

/-- A byte below `0x80` is in the encoding of its own character only. -/
theorem not_mem_utf8EncodeChar {byte : UInt8} (hbyte : byte < 0x80) (hne : c.toNat ≠ byte.toNat) :
    byte ∉ String.utf8EncodeChar c := by
  have hlt : byte.toNat < 128 := hbyte
  intro hmem
  by_cases hc : c.toNat < 128
  · rw [utf8EncodeChar_of_lt hc, List.mem_singleton] at hmem
    rw [hmem, UInt8.toNat_ofNat', Nat.mod_eq_of_lt (by omega)] at hne
    exact hne rfl
  · have hle := le_of_mem_utf8EncodeChar (Nat.le_of_not_lt hc) hmem
    omega

theorem toNat_ofNat_of_isValidChar {n : ℕ} (h : n.isValidChar) : (Char.ofNat n).toNat = n := by
  rw [Char.ofNat, dif_pos h]
  rfl

def lossy (bytes : List UInt8) : List Char := lossyChars bytes.length bytes

theorem decodeFirst_eq_some_iff {bytes : List UInt8} :
    decodeFirst bytes = some c ↔ String.utf8EncodeChar c <+: bytes := by
  constructor
  · intro h
    have hbytes := congrArg (fun b => b.data.toList) (ByteArray.eq_of_utf8DecodeChar?_eq_some h)
    simp only [ByteArray.toList_data_append, List.toList_data_toByteArray] at hbytes
    have htake : String.utf8EncodeChar c <+: bytes.take 4 := ⟨_, hbytes.symm⟩
    exact htake.trans (List.take_prefix 4 bytes)
  · rintro ⟨rest, rfl⟩
    exact decodeFirst_utf8EncodeChar_append c rest

theorem isContinuation_of_lt {c : UInt8} (h : c < 0x80) : isContinuation c = false := by
  have hall : ∀ i : Fin 128, isContinuation (UInt8.ofNat i) = false := by decide
  have hc := hall ⟨c.toNat, h⟩
  rwa [UInt8.ofNat_toNat] at hc

theorem secondByteAllowed_of_lt {b c : UInt8} (h : c < 0x80) : secondByteAllowed b c = false := by
  have hle {low : UInt8} (hlow : 0x80 ≤ low) : ¬ low ≤ c :=
    fun h' => absurd (UInt8.lt_of_le_of_lt (UInt8.le_trans hlow h') h) (UInt8.lt_irrefl _)
  have h80 : ¬ 0x80 ≤ c := hle (by decide)
  have h90 : ¬ 0x90 ≤ c := hle (by decide)
  have hA0 : ¬ 0xA0 ≤ c := hle (by decide)
  simp [secondByteAllowed, isContinuation_of_lt h, h80, h90, hA0]

theorem invalidPrefixLen_pos (b : UInt8) (rest : List UInt8) : 0 < invalidPrefixLen b rest := by
  rw [invalidPrefixLen]
  split_ifs <;> decide

theorem invalidPrefixLen_le (b : UInt8) (rest : List UInt8) : invalidPrefixLen b rest ≤ 3 := by
  rw [invalidPrefixLen]
  split_ifs <;> decide

theorem lossyChars_of_le {fuel : ℕ} {bytes : List UInt8} (h : bytes.length ≤ fuel) :
    lossyChars fuel bytes = lossy bytes := by
  rw [lossy]
  induction fuel using Nat.strong_induction_on generalizing bytes with
  | _ fuel ih =>
    match fuel, bytes, h with
    | 0, [], _ => rfl
    | _ + 1, [], _ => rfl
    | fuel + 1, b :: rest, h =>
      have hle : rest.length ≤ fuel := Nat.le_of_succ_le_succ h
      have hdrop {n : ℕ} (hn : 0 < n) : lossyChars fuel ((b :: rest).drop n) =
          lossyChars rest.length ((b :: rest).drop n) := by
        have hlength : ((b :: rest).drop n).length ≤ rest.length := by
          rw [List.length_drop, List.length_cons]
          omega
        rw [ih fuel (Nat.lt_succ_self _) (Nat.le_trans hlength hle),
          ih rest.length (Nat.lt_succ_of_le hle) hlength]
      rw [lossyChars, List.length_cons, lossyChars]
      cases decodeFirst (b :: rest) with
      | some c =>
        dsimp only
        rw [hdrop c.utf8Size_pos]
      | none =>
        dsimp only
        rw [hdrop (invalidPrefixLen_pos b rest)]

theorem lossy_utf8EncodeChar_append (c : Char) (rest : List UInt8) :
    lossy (String.utf8EncodeChar c ++ rest) = c :: lossy rest := by
  have hfuel : (String.utf8EncodeChar c ++ rest).length ≤ c.utf8Size + rest.length + 1 := by
    rw [List.length_append, String.length_utf8EncodeChar]
    exact Nat.le_succ _
  rw [← lossyChars_of_le hfuel, lossyChars_utf8EncodeChar_append,
    lossyChars_of_le (Nat.le_add_left _ _)]

theorem lossy_of_decodeFirst_eq_none {b : UInt8} {rest : List UInt8}
    (h : decodeFirst (b :: rest) = none) :
    lossy (b :: rest) = '\uFFFD' :: lossy ((b :: rest).drop (invalidPrefixLen b rest)) := by
  have hpos := invalidPrefixLen_pos b rest
  have hlength : ((b :: rest).drop (invalidPrefixLen b rest)).length ≤ rest.length := by
    rw [List.length_drop, List.length_cons]
    omega
  rw [lossy, List.length_cons, lossyChars, h]
  dsimp only
  rw [lossyChars_of_le hlength]

/-- Character by character, with the ill-formed subparts between them. -/
theorem lossy_induction {motive : List UInt8 → Prop} (nil : motive [])
    (decoded : ∀ c rest, motive rest → motive (String.utf8EncodeChar c ++ rest))
    (illFormed : ∀ b rest, decodeFirst (b :: rest) = none →
      motive ((b :: rest).drop (invalidPrefixLen b rest)) → motive (b :: rest))
    (bytes : List UInt8) : motive bytes := by
  induction hlength : bytes.length using Nat.strong_induction_on generalizing bytes with
  | _ length ih =>
    match bytes with
    | [] => exact nil
    | b :: rest =>
      cases hdecode : decodeFirst (b :: rest) with
      | none =>
        refine illFormed b rest hdecode (ih _ ?_ _ rfl)
        have hpos := invalidPrefixLen_pos b rest
        rw [List.length_drop]
        rw [List.length_cons] at hlength ⊢
        omega
      | some c =>
        obtain ⟨rest', hrest'⟩ := decodeFirst_eq_some_iff.mp hdecode
        rw [← hrest'] at hlength ⊢
        refine decoded c rest' (ih _ ?_ _ rfl)
        have hpos := c.utf8Size_pos
        rw [List.length_append, String.length_utf8EncodeChar] at hlength
        omega

/-- A replacement is not shorter than what it stands for. -/
theorem length_le_utf8Length_lossy (bytes : List UInt8) :
    bytes.length ≤ utf8Length (lossy bytes) := by
  induction bytes using lossy_induction with
  | nil => exact Nat.zero_le _
  | decoded c rest ih =>
    rw [lossy_utf8EncodeChar_append, utf8Length_cons, List.length_append,
      String.length_utf8EncodeChar]
    exact Nat.add_le_add_left ih _
  | illFormed b rest hdecode ih =>
    have hle := invalidPrefixLen_le b rest
    have hsize : '\uFFFD'.utf8Size = 3 := by decide
    rw [lossy_of_decodeFirst_eq_none hdecode, utf8Length_cons, hsize]
    rw [List.length_drop] at ih
    omega

theorem lossy_ascii_cons (hx : x < 0x80) (rest : List UInt8) :
    lossy (x :: rest) = Char.ofNat x.toNat :: lossy rest := by
  have hx' : x.toNat < 128 := hx
  have hvalid : x.toNat.isValidChar := .inl (by omega)
  have htoNat : (Char.ofNat x.toNat).toNat = x.toNat := toNat_ofNat_of_isValidChar hvalid
  have hencode : String.utf8EncodeChar (Char.ofNat x.toNat) = [x] := by
    rw [utf8EncodeChar_of_lt (by rwa [htoNat]), htoNat, UInt8.ofNat_toNat]
  have hlossy := lossy_utf8EncodeChar_append (Char.ofNat x.toNat) rest
  rwa [hencode] at hlossy

theorem invalidPrefixLen_append (hx : x < 0x80) (b : UInt8) (before rest : List UInt8) :
    invalidPrefixLen b (before ++ x :: rest) = invalidPrefixLen b before ∧
      invalidPrefixLen b before ≤ before.length + 1 := by
  have hsecond : secondByteAllowed b x = false := secondByteAllowed_of_lt hx
  have hzero : secondByteAllowed b 0 = false := secondByteAllowed_of_lt (by decide)
  have hthird : isContinuation x = false := isContinuation_of_lt hx
  have hzero' : isContinuation 0 = false := by decide
  match before with
  | [] => simp [invalidPrefixLen, hsecond, hzero]
  | [c] =>
    refine ⟨by simp [invalidPrefixLen, hthird, hzero'], ?_⟩
    simp only [invalidPrefixLen, List.getD_cons_succ, List.getD_nil, hzero', Bool.false_eq_true,
      if_false, List.length_singleton]
    split_ifs <;> decide
  | c :: c' :: before =>
    refine ⟨rfl, (invalidPrefixLen_le _ _).trans ?_⟩
    exact Nat.le_add_left _ _

/-- No character reaches over a byte below `0x80`. -/
theorem decodeFirst_append_eq_none (hx : x < 0x80) {before : List UInt8} (hne : before ≠ [])
    (hdecode : decodeFirst before = none) (rest : List UInt8) :
    decodeFirst (before ++ x :: rest) = none := by
  rw [Option.eq_none_iff_forall_ne_some]
  intro c hc
  have hencode := decodeFirst_eq_some_iff.mp hc
  rcases List.prefix_or_prefix_of_prefix hencode (List.prefix_append before (x :: rest)) with
    hle | ⟨middle, hmiddle⟩
  · rw [decodeFirst_eq_some_iff.mpr hle] at hdecode
    cases hdecode
  · rw [← hmiddle, List.prefix_append_right_inj] at hencode
    rcases List.prefix_cons_iff.mp hencode with rfl | ⟨middle', rfl, -⟩
    · rw [List.append_nil] at hmiddle
      rw [hmiddle, decodeFirst_eq_some_iff.mpr List.prefix_rfl] at hdecode
      cases hdecode
    · have hlength := congrArg List.length hmiddle
      have hpos := List.length_pos_iff.mpr hne
      rw [List.length_append, List.length_cons] at hlength
      by_cases hlt : c.toNat < 128
      · rw [utf8EncodeChar_of_lt hlt, List.length_singleton] at hlength
        omega
      · have hmem : x ∈ String.utf8EncodeChar c := by
          rw [← hmiddle]
          exact List.mem_append_right _ List.mem_cons_self
        have hle := le_of_mem_utf8EncodeChar (Nat.le_of_not_lt hlt) hmem
        have hx' : x.toNat < 128 := hx
        omega

theorem lossy_append_ascii (hx : x < 0x80) (before rest : List UInt8) :
    lossy (before ++ x :: rest) = lossy before ++ Char.ofNat x.toNat :: lossy rest := by
  induction before using lossy_induction with
  | nil => exact lossy_ascii_cons hx rest
  | decoded c before ih =>
    rw [List.append_assoc, lossy_utf8EncodeChar_append, ih, lossy_utf8EncodeChar_append]
    rfl
  | illFormed b before hdecode ih =>
    obtain ⟨hlen, hle⟩ := invalidPrefixLen_append hx b before rest
    have hnone : decodeFirst (b :: (before ++ x :: rest)) = none :=
      decodeFirst_append_eq_none hx (List.cons_ne_nil _ _) hdecode rest
    rw [List.cons_append, lossy_of_decodeFirst_eq_none hnone, hlen,
      lossy_of_decodeFirst_eq_none hdecode, ← List.cons_append,
      List.drop_append_of_le_length hle, ih]
    rfl

theorem lossy_encode : lossy (cs.flatMap String.utf8EncodeChar) = cs :=
  lossyChars_flatMap cs _ (length_le_length_flatMap_utf8EncodeChar cs)

example : fromUtf8Lossy [0x61, 0xE7, 0xBB, 0x62, 0xFF] = "a\uFFFDb\uFFFD" := by decide

end KiroProxy
