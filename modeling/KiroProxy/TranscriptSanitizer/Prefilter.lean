import KiroProxy.JsonText
import KiroProxy.TranscriptSanitizer.Sanitizer
import KiroProxy.Utf8Lossy

/-!
# The prefilter over raw request bodies

The raw path looks for the headings of transcripts in the bytes of the body, with and without
decoding escapes, before it parses anything. A heading at the start of a line of one JSON string
is always found.
-/

namespace KiroProxy.TranscriptSanitizer

open JsonText

def asciiBytes (text : List Char) : List UInt8 := text.map fun c => UInt8.ofNat c.toNat

def rawPrefilterMarkers : List (List UInt8) :=
  ["user Continue".toList, "user Tool results provided.".toList,
    "user Tool results provided".toList, "Tool results:".toList].map asciiBytes

def rawAuthenticatedReasoningMarkers : List (List UInt8) :=
  ["redacted_thinking".toList, "\"signature\"".toList].map asciiBytes

def backslash : UInt8 := 0x5c

def hexNibble (byte : UInt8) : Option ℕ :=
  if 0x30 ≤ byte ∧ byte ≤ 0x39 then some (byte.toNat - 0x30)
  else if 0x61 ≤ byte ∧ byte ≤ 0x66 then some (byte.toNat - 0x61 + 10)
  else if 0x41 ≤ byte ∧ byte ≤ 0x46 then some (byte.toNat - 0x41 + 10)
  else none

def simpleEscapeByte (escaped : UInt8) : Option UInt8 :=
  if escaped = 0x22 ∨ escaped = 0x5c ∨ escaped = 0x2f then some escaped
  else if escaped = 0x62 then some 0x08
  else if escaped = 0x66 then some 0x0c
  else if escaped = 0x6e then some 0x0a
  else if escaped = 0x72 then some 0x0d
  else if escaped = 0x74 then some 0x09
  else none

/-- The digits of an escape; the code point has 16 bits. -/
def codepointOf : List UInt8 → ℕ → Option ℕ
  | [], codepoint => some codepoint
  | byte :: digits, codepoint =>
    match hexNibble byte with
    | none => none
    | some nibble => codepointOf digits ((codepoint * 16 + nibble) % 65536)

/-- The ASCII byte for which the beginning of the input stands, and how many bytes it has. -/
def decodeAsciiJsonEscape : List UInt8 → Option UInt8 × ℕ
  | [] => (none, 0)
  | first :: rest =>
    if first ≠ backslash then (if first < 128 then some first else none, 1)
    else
      match rest with
      | [] => (none, 1)
      | escaped :: digits =>
        match simpleEscapeByte escaped with
        | some simple => (some simple, 2)
        | none =>
          if escaped ≠ 0x75 ∨ digits.length < 4 then (none, 2)
          else
            match codepointOf (digits.take 4) 0 with
            | none => (none, 6)
            | some codepoint =>
              (if codepoint < 128 then some (UInt8.ofNat codepoint) else none, 6)

/-- How much of a marker is matched after one more byte. -/
def advance (byte : UInt8) (marker : List UInt8) (matched : ℕ) : ℕ :=
  if marker[matched]? = some byte then matched + 1
  else if marker.head? = some byte then 1
  else 0

/-- The loop over the decoded bytes, with the part of each marker that is matched. -/
def scanLoop (markers : List (List UInt8)) : ℕ → List ℕ → List UInt8 → Bool
  | 0, _, _ => false
  | fuel + 1, matched, input =>
    if input = [] then false
    else
      let (decoded, consumed) := decodeAsciiJsonEscape input
      match decoded with
      | none => scanLoop markers fuel (matched.map fun _ => 0) (input.drop consumed)
      | some byte =>
        let matched := List.zipWith (advance byte) markers matched
        if (List.zipWith (fun marker n => n == marker.length) markers matched).any id then true
        else scanLoop markers fuel matched (input.drop consumed)

def escapedJsonMayContain (markers : List (List UInt8)) (rawBody : List UInt8) : Bool :=
  scanLoop markers rawBody.length (markers.map fun _ => 0) rawBody

def escapedJsonMayContainTranscriptMarker (rawBody : List UInt8) : Bool :=
  if !rawBody.contains backslash then false
  else escapedJsonMayContain rawPrefilterMarkers rawBody

def hasLiteralMarker (rawBody : List UInt8) : Bool :=
  rawBody.tails.any fun rest =>
    (rest.head? == some 0x75 || rest.head? == some 0x54) &&
      rawPrefilterMarkers.any fun marker =>
        marker.head? == rest.head? && marker.isPrefixOf rest

def rawBodyMayContainTranscriptMarker (rawBody : List UInt8) : Bool :=
  hasLiteralMarker rawBody || escapedJsonMayContainTranscriptMarker rawBody

def rawBodyMayContainAuthenticatedReasoningMarker (rawBody : List UInt8) : Bool :=
  if !rawBody.contains backslash then
    rawAuthenticatedReasoningMarkers.any fun marker =>
      rawBody.tails.any fun rest => marker.isPrefixOf rest
  else escapedJsonMayContain rawAuthenticatedReasoningMarkers rawBody

def utf8Bytes (text : List Char) : List UInt8 := text.flatMap String.utf8EncodeChar

theorem utf8Bytes_append (text tail : List Char) :
    utf8Bytes (text ++ tail) = utf8Bytes text ++ utf8Bytes tail := List.flatMap_append

theorem utf8Bytes_cons (c : Char) (text : List Char) :
    utf8Bytes (c :: text) = String.utf8EncodeChar c ++ utf8Bytes text := List.flatMap_cons

theorem utf8Bytes_of_ascii {text : List Char} (h : ∀ c ∈ text, c.toNat < 128) :
    utf8Bytes text = asciiBytes text := by
  induction text with
  | nil => rfl
  | cons c text ih =>
    rw [utf8Bytes_cons, utf8EncodeChar_of_lt (h c List.mem_cons_self),
      ih fun d hd => h d (List.mem_cons_of_mem _ hd)]
    rfl

variable {c : Char} {n : ℕ} {e a b d : Char}

theorem hexNibble_of_lt (h : c.toNat < 128) : hexNibble (UInt8.ofNat c.toNat) = hexValue c := by
  refine of_ascii (P := fun c => hexNibble (UInt8.ofNat c.toNat) = hexValue c) ?_ h
  decide +kernel

theorem lt_of_hexValue (h : hexValue c = some n) : c.toNat < 128 ∧ n < 16 := by
  have hlt : c.toNat < 128 := by
    by_contra hge
    have hno : hexValue c = none := by
      have hval : ∀ d : Char, d.toNat < 128 → ¬ c ≤ d := by
        intro d hd hle
        have hle' : c.toNat ≤ d.toNat := hle
        omega
      rw [hexValue, if_neg (fun h => hval '9' (by decide) h.2),
        if_neg (fun h => hval 'f' (by decide) h.2), if_neg (fun h => hval 'F' (by decide) h.2)]
    rw [hno] at h
    cases h
  have hsome : ∀ k ∈ hexValue c, k < 16 := by
    refine of_ascii (P := fun c => ∀ k ∈ hexValue c, k < 16) ?_ hlt
    decide +kernel
  exact ⟨hlt, hsome n h⟩

theorem simpleEscapeByte_of_simpleEscape (h : simpleEscape e = some c) :
    e.toNat < 128 ∧ c.toNat < 128 ∧
      simpleEscapeByte (UInt8.ofNat e.toNat) = some (UInt8.ofNat c.toNat) := by
  unfold simpleEscape at h
  split at h <;> cases h <;> decide

theorem decode_of_ne {byte : UInt8} (h : byte ≠ backslash) (rest : List UInt8) :
    decodeAsciiJsonEscape (byte :: rest) = (if byte < 128 then some byte else none, 1) := by
  rw [decodeAsciiJsonEscape.eq_def]
  exact if_pos h

theorem length_utf8Bytes_escape (h : simpleEscape e = some c) :
    (utf8Bytes ['\\', e]).length = 2 := by
  obtain ⟨he, -, -⟩ := simpleEscapeByte_of_simpleEscape h
  rw [utf8Bytes_cons, utf8Bytes_cons, utf8EncodeChar_of_lt (by decide), utf8EncodeChar_of_lt he]
  rfl

theorem decode_escape (h : simpleEscape e = some c) (rest : List UInt8) :
    decodeAsciiJsonEscape (utf8Bytes ['\\', e] ++ rest) = (some (UInt8.ofNat c.toNat), 2) := by
  obtain ⟨he, -, hbyte⟩ := simpleEscapeByte_of_simpleEscape h
  rw [utf8Bytes_cons, utf8Bytes_cons, utf8EncodeChar_of_lt (by decide), utf8EncodeChar_of_lt he]
  change (match simpleEscapeByte (UInt8.ofNat e.toNat) with
    | some simple => (some simple, 2)
    | none => _) = _
  rw [hbyte]

theorem exists_hexValue (h : hexDigits a b c d = some n) :
    ∃ a' b' c' d', hexValue a = some a' ∧ hexValue b = some b' ∧ hexValue c = some c' ∧
      hexValue d = some d' ∧ n = 4096 * a' + 256 * b' + 16 * c' + d' := by
  simp only [hexDigits, Option.bind_eq_bind, Option.bind_eq_some_iff, Option.pure_def,
    Option.some.injEq] at h
  obtain ⟨a', ha, b', hb, c', hc, d', hd, rfl⟩ := h
  exact ⟨a', b', c', d', ha, hb, hc, hd, rfl⟩

theorem utf8Bytes_unicode (h : hexDigits a b c d = some n) :
    utf8Bytes ['\\', 'u', a, b, c, d] =
      [backslash, 0x75, UInt8.ofNat a.toNat, UInt8.ofNat b.toNat, UInt8.ofNat c.toNat,
        UInt8.ofNat d.toNat] := by
  obtain ⟨a', b', c', d', ha, hb, hc, hd, -⟩ := exists_hexValue h
  rw [utf8Bytes_of_ascii]
  · rfl
  · intro e he
    simp only [List.mem_cons, List.not_mem_nil, or_false] at he
    rcases he with rfl | rfl | rfl | rfl | rfl | rfl
    · decide
    · decide
    · exact (lt_of_hexValue ha).1
    · exact (lt_of_hexValue hb).1
    · exact (lt_of_hexValue hc).1
    · exact (lt_of_hexValue hd).1

theorem codepointOf_digits (h : hexDigits a b c d = some n) :
    codepointOf [UInt8.ofNat a.toNat, UInt8.ofNat b.toNat, UInt8.ofNat c.toNat,
      UInt8.ofNat d.toNat] 0 = some n := by
  obtain ⟨a', b', c', d', ha, hb, hc, hd, rfl⟩ := exists_hexValue h
  obtain ⟨halt, ha'⟩ := lt_of_hexValue ha
  obtain ⟨hblt, hb'⟩ := lt_of_hexValue hb
  obtain ⟨hclt, hc'⟩ := lt_of_hexValue hc
  obtain ⟨hdlt, hd'⟩ := lt_of_hexValue hd
  rw [codepointOf, hexNibble_of_lt halt, ha]
  dsimp only
  rw [codepointOf, hexNibble_of_lt hblt, hb]
  dsimp only
  rw [codepointOf, hexNibble_of_lt hclt, hc]
  dsimp only
  rw [codepointOf, hexNibble_of_lt hdlt, hd]
  dsimp only
  rw [codepointOf]
  congr 1
  omega

theorem decode_unicode (h : hexDigits a b c d = some n) (rest : List UInt8) :
    decodeAsciiJsonEscape (utf8Bytes ['\\', 'u', a, b, c, d] ++ rest) =
      (if n < 128 then some (UInt8.ofNat n) else none, 6) := by
  have hsimple : simpleEscapeByte 0x75 = none := by decide
  rw [utf8Bytes_unicode h]
  simp only [List.cons_append, List.nil_append]
  rw [decodeAsciiJsonEscape, if_neg (by simp), hsimple]
  dsimp only
  rw [if_neg (by simp)]
  simp only [List.take_succ_cons, List.take_zero]
  rw [codepointOf_digits h]

theorem decode_charText {text : List Char} (h : CharText text c) (hc : c.toNat < 128)
    (rest : List UInt8) :
    decodeAsciiJsonEscape (utf8Bytes text ++ rest) =
      (some (UInt8.ofNat c.toNat), (utf8Bytes text).length) := by
  cases h with
  | literal _ _ hne =>
    have hbyte : UInt8.ofNat c.toNat ≠ backslash := by
      intro heq
      have hnat := congrArg UInt8.toNat heq
      rw [UInt8.toNat_ofNat', Nat.mod_eq_of_lt (by omega)] at hnat
      exact hne (Char.toNat_inj.mp hnat)
    have hlt : UInt8.ofNat c.toNat < 128 := by
      rw [UInt8.lt_iff_toNat_lt, UInt8.toNat_ofNat', Nat.mod_eq_of_lt (by omega)]
      exact hc
    rw [utf8Bytes_cons, utf8EncodeChar_of_lt hc]
    rw [List.cons_append, List.cons_append, decode_of_ne hbyte, if_pos hlt]
    rfl
  | escape he =>
    rw [decode_escape he, length_utf8Bytes_escape he]
  | @unicode a b c d n hn hvalid =>
    rw [toNat_ofNat_of_isValidChar hvalid] at hc ⊢
    rw [decode_unicode hn, utf8Bytes_unicode hn, if_pos hc]
    rfl
  | @surrogates _ _ _ _ _ _ _ _ high low hhigh hlow h1 h2 h3 h4 =>
    have hvalid : (0x10000 + 0x400 * (high - 0xd800) + (low - 0xdc00)).isValidChar := by
      right
      omega
    rw [toNat_ofNat_of_isValidChar hvalid] at hc
    omega

section scan

variable {markers : List (List UInt8)}

variable {fuel : ℕ} {matched : List ℕ} {input : List UInt8} {byte : UInt8} {bytes rest : List UInt8}

theorem scanLoop_none {fuel consumed : ℕ} (hne : input ≠ [])
    (h : decodeAsciiJsonEscape input = (none, consumed)) :
    scanLoop markers (fuel + 1) matched input =
      scanLoop markers fuel (matched.map fun _ => 0) (input.drop consumed) := by
  rw [scanLoop, if_neg hne, h]

theorem scanLoop_some {fuel consumed : ℕ} (hne : input ≠ [])
    (h : decodeAsciiJsonEscape input = (some byte, consumed)) :
    scanLoop markers (fuel + 1) matched input =
      (if (List.zipWith (fun marker n => n == marker.length) markers
          (List.zipWith (advance byte) markers matched)).any id then true
        else scanLoop markers fuel (List.zipWith (advance byte) markers matched)
          (input.drop consumed)) := by
  rw [scanLoop, if_neg hne, h]

theorem scanLoop_step (hmatched : matched.length = markers.length) (hne : input ≠ []) :
    scanLoop markers (fuel + 1) matched input = true ∨
      ∃ matched', matched'.length = markers.length ∧
        scanLoop markers (fuel + 1) matched input =
          scanLoop markers fuel matched' (input.drop (decodeAsciiJsonEscape input).2) := by
  rcases h : decodeAsciiJsonEscape input with ⟨decoded, consumed⟩
  cases decoded with
  | none => exact Or.inr ⟨_, by rw [List.length_map, hmatched], scanLoop_none hne h⟩
  | some byte =>
    rw [scanLoop_some hne h]
    split_ifs
    · exact Or.inl rfl
    · exact Or.inr ⟨_, by simp [hmatched], rfl⟩

/-- The loop answers within this part of the input or goes on behind it. -/
def ScansPast (markers : List (List UInt8)) (input : List UInt8) : Prop :=
  ∀ rest fuel matched, matched.length = markers.length → (input ++ rest).length ≤ fuel →
    scanLoop markers fuel matched (input ++ rest) = true ∨
      ∃ fuel' matched', rest.length ≤ fuel' ∧ matched'.length = markers.length ∧
        scanLoop markers fuel matched (input ++ rest) = scanLoop markers fuel' matched' rest

theorem scansPast_nil : ScansPast markers [] :=
  fun _ fuel matched hmatched hfuel => Or.inr ⟨fuel, matched, hfuel, hmatched, rfl⟩

theorem ScansPast.append {input input' : List UInt8} (h : ScansPast markers input)
    (h' : ScansPast markers input') : ScansPast markers (input ++ input') := by
  intro rest fuel matched hmatched hfuel
  rw [List.append_assoc] at hfuel ⊢
  rcases h (input' ++ rest) fuel matched hmatched hfuel with hfound | ⟨fuel₁, m₁, hf₁, hm₁, heq⟩
  · exact Or.inl hfound
  · rw [heq]
    exact h' rest fuel₁ m₁ hm₁ hf₁

theorem scansPast_of_decode (hne : input ≠ [])
    (h : ∀ rest, (decodeAsciiJsonEscape (input ++ rest)).2 = input.length) :
    ScansPast markers input := by
  intro rest fuel matched hmatched hfuel
  have hpos : 0 < input.length := List.length_pos_iff.mpr hne
  rw [List.length_append] at hfuel
  cases fuel with
  | zero => omega
  | succ fuel =>
    have hstep := @scanLoop_step markers fuel matched (input ++ rest) hmatched
      (List.append_ne_nil_of_left_ne_nil hne rest)
    rcases hstep with hfound | ⟨matched', hm', heq⟩
    · exact Or.inl hfound
    · refine Or.inr ⟨fuel, matched', by omega, hm', ?_⟩
      rw [heq, h rest, List.drop_left]

theorem scansPast_byte (hbyte : byte ≠ backslash) : ScansPast markers [byte] := by
  apply scansPast_of_decode (List.cons_ne_nil _ _)
  intro rest
  rw [List.singleton_append, decode_of_ne hbyte]
  rfl

theorem scansPast_bytes (h : ∀ byte ∈ bytes, byte ≠ backslash) : ScansPast markers bytes := by
  induction bytes with
  | nil => exact scansPast_nil
  | cons byte bytes ih =>
    exact (scansPast_byte (h byte List.mem_cons_self)).append
      (ih fun b hb => h b (List.mem_cons_of_mem _ hb))

theorem ne_backslash_of_mem_utf8EncodeChar {c : Char} (hc : c ≠ '\\') :
    ∀ byte ∈ String.utf8EncodeChar c, byte ≠ backslash := by
  intro byte hbyte heq
  rw [heq] at hbyte
  exact not_mem_utf8EncodeChar (by decide) (fun hnat => hc (Char.toNat_inj.mp hnat)) hbyte

theorem utf8Bytes_ne_nil {text : List Char} {c : Char} (h : CharText text c) :
    utf8Bytes text ≠ [] := by
  cases h <;> simp [utf8Bytes]

/-- Whole escapes and other characters are never cut by the loop. -/
theorem scansPast_units {text : List Char} (h : Units text) :
    ScansPast markers (utf8Bytes text) := by
  induction h with
  | nil => exact scansPast_nil
  | plain hc _ ih =>
    rw [utf8Bytes_cons]
    exact (scansPast_bytes (ne_backslash_of_mem_utf8EncodeChar hc)).append ih
  | @escape e c text he _ ih =>
    have hpair : utf8Bytes ('\\' :: e :: text) = utf8Bytes ['\\', e] ++ utf8Bytes text :=
      utf8Bytes_append ['\\', e] text
    rw [hpair]
    refine (scansPast_of_decode (by simp [utf8Bytes]) fun rest => ?_).append ih
    rw [decode_escape he, length_utf8Bytes_escape he]
  | @unicode a b c d n text hn _ ih =>
    have hunit : utf8Bytes ('\\' :: 'u' :: a :: b :: c :: d :: text) =
        utf8Bytes ['\\', 'u', a, b, c, d] ++ utf8Bytes text :=
      utf8Bytes_append ['\\', 'u', a, b, c, d] text
    rw [hunit]
    refine (scansPast_of_decode (by simp [utf8Bytes]) fun rest => ?_).append ih
    rw [decode_unicode hn, utf8Bytes_unicode hn]
    rfl

theorem advance_of_not_mem {marker : List UInt8} (h : byte ∉ marker) (matched : ℕ) :
    advance byte marker matched = 0 := by
  rw [advance, if_neg fun heq => h (List.mem_of_getElem? heq),
    if_neg fun heq => h (List.mem_of_head? heq)]

theorem zipWith_advance_of_not_mem (hbyte : ∀ marker ∈ markers, byte ∉ marker)
    (hmatched : matched.length = markers.length) :
    List.zipWith (advance byte) markers matched = markers.map fun _ => 0 := by
  induction markers generalizing matched with
  | nil => rfl
  | cons marker markers ih =>
    cases matched with
    | nil => cases hmatched
    | cons n matched =>
      rw [List.zipWith_cons_cons, advance_of_not_mem (hbyte marker List.mem_cons_self),
        ih (fun m hm => hbyte m (List.mem_cons_of_mem _ hm)) (Nat.succ.inj hmatched)]
      rfl

theorem any_complete_zero (hne : ∀ marker ∈ markers, marker ≠ []) :
    (List.zipWith (fun marker n => n == marker.length) markers (markers.map fun _ => 0)).any id =
      false := by
  induction markers with
  | nil => rfl
  | cons marker markers ih =>
    have hmarker : (0 == marker.length) = false := by
      have hpos := List.length_pos_iff.mpr (hne marker List.mem_cons_self)
      simpa using hpos.ne
    rw [List.map_cons, List.zipWith_cons_cons, List.any_cons, hmarker,
      ih fun m hm => hne m (List.mem_cons_of_mem _ hm)]
    rfl

theorem scanLoop_reset (hne : ∀ marker ∈ markers, marker ≠ [])
    (hbyte : ∀ marker ∈ markers, byte ∉ marker) (hbytes : bytes ≠ [])
    (hdecode : decodeAsciiJsonEscape (bytes ++ rest) = (some byte, bytes.length))
    (hmatched : matched.length = markers.length) :
    scanLoop markers (fuel + 1) matched (bytes ++ rest) =
      scanLoop markers fuel (markers.map fun _ => 0) rest := by
  rw [scanLoop_some (List.append_ne_nil_of_left_ne_nil hbytes rest) hdecode,
    zipWith_advance_of_not_mem hbyte hmatched, any_complete_zero hne, List.drop_left]
  rfl

/-- Once all but the end of a marker is matched, the end of the marker is found. -/
theorem scanLoop_marker {i fuel : ℕ} {done todo s body : List Char}
    (hmarker : markers[i]? = some (asciiBytes (done ++ todo)))
    (hmatched : matched[i]? = some done.length) (htodo : todo ≠ [])
    (hascii : ∀ c ∈ todo, c.toNat < 128) (hbody : StringText body (todo ++ s))
    (hfuel : (utf8Bytes body ++ rest).length ≤ fuel) :
    scanLoop markers fuel matched (utf8Bytes body ++ rest) = true := by
  induction todo generalizing done body fuel matched with
  | nil => exact absurd rfl htodo
  | cons c todo ih =>
    cases hbody with
    | @cons text _ body _ htext hrest =>
      have hdecode := decode_charText htext (hascii c List.mem_cons_self) (utf8Bytes body ++ rest)
      have hne : utf8Bytes text ≠ [] := utf8Bytes_ne_nil htext
      have hpos := List.length_pos_iff.mpr hne
      rw [utf8Bytes_append, List.append_assoc] at hfuel ⊢
      rw [List.length_append] at hfuel
      cases fuel with
      | zero => omega
      | succ fuel =>
        rw [scanLoop_some (List.append_ne_nil_of_left_ne_nil hne _) hdecode, List.drop_left]
        set next := List.zipWith (advance (UInt8.ofNat c.toNat)) markers matched with hnext
        have hadvance : next[i]? = some (done.length + 1) := by
          have hbyte : (asciiBytes (done ++ c :: todo))[done.length]? =
              some (UInt8.ofNat c.toNat) := by
            simp [asciiBytes]
          rw [hnext, List.getElem?_zipWith, hmarker, hmatched]
          dsimp only
          rw [advance, if_pos hbyte]
        split_ifs with hany
        · rfl
        · have hdone : asciiBytes (done ++ c :: todo) = asciiBytes (done ++ [c] ++ todo) := by simp
          rw [hdone] at hmarker
          apply ih hmarker (by simpa using hadvance) _
            (fun d hd => hascii d (List.mem_cons_of_mem _ hd)) hrest (by omega)
          -- behind the last character of the marker the loop would have answered
          intro hnil
          subst hnil
          apply hany
          rw [List.any_eq_true]
          refine ⟨true, List.mem_of_getElem? (i := i) ?_, rfl⟩
          rw [List.getElem?_zipWith, hmarker, hadvance]
          simp [asciiBytes]

theorem scanLoop_reset_marker {m s body : List Char} (hne : ∀ marker ∈ markers, marker ≠ [])
    (hbyte : ∀ marker ∈ markers, byte ∉ marker) (hbytes : bytes ≠ [])
    (hdecode : ∀ rest, decodeAsciiJsonEscape (bytes ++ rest) = (some byte, bytes.length))
    (hmatched : matched.length = markers.length) (hm : asciiBytes m ∈ markers)
    (hascii : ∀ c ∈ m, c.toNat < 128) (hbody : StringText body (m ++ s))
    (hfuel : (bytes ++ (utf8Bytes body ++ rest)).length ≤ fuel) :
    scanLoop markers fuel matched (bytes ++ (utf8Bytes body ++ rest)) = true := by
  obtain ⟨i, hi⟩ := List.getElem?_of_mem hm
  have hpos := List.length_pos_iff.mpr hbytes
  rw [List.length_append] at hfuel
  cases fuel with
  | zero => omega
  | succ fuel =>
    rw [scanLoop_reset hne hbyte hbytes (hdecode _) hmatched]
    have hzero : (markers.map fun _ => 0)[i]? = some ([] : List Char).length := by
      rw [List.getElem?_map, hi]
      rfl
    have hnil : m ≠ [] := by
      rintro rfl
      exact hne _ hm rfl
    exact scanLoop_marker hi hzero hnil hascii hbody (by omega)

end scan

theorem rawPrefilterMarkers_eq : rawPrefilterMarkers = roleLines.map asciiBytes := rfl

theorem stringText_append {body s t : List Char} (h : StringText body (s ++ t)) :
    ∃ first second, body = first ++ second ∧ StringText first s ∧ StringText second t := by
  induction s generalizing body with
  | nil => exact ⟨[], body, rfl, .nil, h⟩
  | cons c s ih =>
    cases h with
    | @cons text _ rest _ hc hrest =>
      obtain ⟨first, second, rfl, hfirst, hsecond⟩ := ih hrest
      exact ⟨text ++ first, second, by simp, .cons hc hfirst, hsecond⟩

theorem stringText_eq {body s : List Char} (h : StringText body s) (hbody : '\\' ∉ body) :
    body = s := by
  induction h with
  | nil => rfl
  | cons hc _ ih =>
    rw [List.mem_append, not_or] at hbody
    rw [ih hbody.2]
    cases hc with
    | literal => rfl
    | escape => exact absurd List.mem_cons_self hbody.1
    | unicode => exact absurd List.mem_cons_self hbody.1
    | surrogates => exact absurd List.mem_cons_self hbody.1

theorem hasLiteralMarker_of_infix {rawBody : List UInt8} {marker : List UInt8}
    (hmarker : marker ∈ rawPrefilterMarkers) (h : marker <:+: rawBody) :
    hasLiteralMarker rawBody = true := by
  have hhead : ∀ m ∈ rawPrefilterMarkers, m.head? = some 0x75 ∨ m.head? = some 0x54 := by decide
  obtain ⟨before, after, rfl⟩ := h
  rw [hasLiteralMarker, List.any_eq_true]
  refine ⟨marker ++ after, ?_, ?_⟩
  · rw [List.mem_tails]
    exact ⟨before, by simp⟩
  · have hne : marker.head? = (marker ++ after).head? := by
      rcases hhead marker hmarker with heq | heq <;> rw [List.head?_append, heq] <;> rfl
    rw [Bool.and_eq_true, List.any_eq_true]
    constructor
    · rw [← hne]
      rcases hhead marker hmarker with heq | heq <;> rw [heq] <;> rfl
    · refine ⟨marker, hmarker, ?_⟩
      rw [Bool.and_eq_true, beq_iff_eq, List.isPrefixOf_iff_prefix]
      exact ⟨hne, List.prefix_append marker after⟩

theorem roleLines_ascii : ∀ m ∈ roleLines, ∀ c ∈ m, c.toNat < 128 := by
  have h : (roleLines.all fun m => m.all fun c => c.toNat < 128) = true := by decide
  simpa using h

theorem rawPrefilterMarkers_ne_nil : ∀ marker ∈ rawPrefilterMarkers, marker ≠ [] := by decide

theorem escapedJsonMayContain_of_located {before body after m s t : List Char}
    (hunits : Units before) (hm : m ∈ roleLines) (ht : AtLineStart t)
    (hbody : StringText body (t ++ (m ++ s))) :
    escapedJsonMayContain rawPrefilterMarkers
      (utf8Bytes (before ++ '"' :: (body ++ '"' :: after))) = true := by
  have hmem : asciiBytes m ∈ rawPrefilterMarkers := by
    rw [rawPrefilterMarkers_eq]
    exact List.mem_map_of_mem hm
  obtain ⟨first, second, rfl, hfirst, hsecond⟩ := stringText_append hbody
  rcases ht with rfl | ⟨line, rfl⟩
  · -- the quotation mark in front of the string starts the markers over
    cases hfirst
    have hquote : ∀ marker ∈ rawPrefilterMarkers, (0x22 : UInt8) ∉ marker := by decide
    have hsplit : utf8Bytes (before ++ '"' :: ([] ++ second ++ '"' :: after)) =
        utf8Bytes before ++ ([0x22] ++ (utf8Bytes second ++ utf8Bytes ('"' :: after))) := by
      simp [utf8Bytes_append, utf8Bytes_cons]
      rfl
    rw [escapedJsonMayContain, hsplit]
    rcases scansPast_units hunits ([0x22] ++ (utf8Bytes second ++ utf8Bytes ('"' :: after))) _
      (rawPrefilterMarkers.map fun _ => 0) (List.length_map _) le_rfl with
      hfound | ⟨fuel, matched, hfuel, hmatched, heq⟩
    · exact hfound
    · rw [heq]
      exact scanLoop_reset_marker rawPrefilterMarkers_ne_nil hquote (List.cons_ne_nil _ _)
        (fun rest => decode_of_ne (by decide) rest) hmatched hmem (roleLines_ascii m hm) hsecond hfuel
  · -- so does the newline in front of the line
    obtain ⟨head, newline, rfl, hhead, hnewline⟩ := stringText_append hfirst
    cases hnewline with
    | @cons text _ rest _ htext hrest =>
      cases hrest
      have hbyte : ∀ marker ∈ rawPrefilterMarkers, UInt8.ofNat '\n'.toNat ∉ marker := by decide
      have hsplit : utf8Bytes (before ++ '"' :: (head ++ (text ++ []) ++ second ++ '"' :: after)) =
          utf8Bytes (before ++ '"' :: head) ++
            (utf8Bytes text ++ (utf8Bytes second ++ utf8Bytes ('"' :: after))) := by
        simp [utf8Bytes_append, utf8Bytes_cons]
      rw [escapedJsonMayContain, hsplit]
      have hpast : Units (before ++ '"' :: head) :=
        hunits.append (.plain (by decide) hhead.units)
      rcases scansPast_units hpast (utf8Bytes text ++ (utf8Bytes second ++ utf8Bytes ('"' :: after)))
        _ (rawPrefilterMarkers.map fun _ => 0) (List.length_map _) le_rfl with
        hfound | ⟨fuel, matched, hfuel, hmatched, heq⟩
      · exact hfound
      · rw [heq]
        exact scanLoop_reset_marker rawPrefilterMarkers_ne_nil hbyte (utf8Bytes_ne_nil htext)
          (decode_charText htext (by decide)) hmatched hmem (roleLines_ascii m hm) hsecond hfuel

theorem rawBodyMayContainTranscriptMarker_of_stringIn {text s t m rest : List Char} {v : Json}
    (htext : ValueText text v) (hs : StringIn s v) (heq : s = t ++ (m ++ rest))
    (ht : AtLineStart t) (hm : m ∈ roleLines) :
    rawBodyMayContainTranscriptMarker (utf8Bytes text) = true := by
  subst heq
  obtain ⟨before, body, after, rfl, hunits, hbody⟩ := htext.located.2 _ hs
  rw [rawBodyMayContainTranscriptMarker, Bool.or_eq_true]
  by_cases hslash : '\\' ∈ before ++ '"' :: (body ++ '"' :: after)
  · right
    have hbyte : backslash ∈ utf8Bytes (before ++ '"' :: (body ++ '"' :: after)) := by
      apply List.mem_flatMap.mpr
      exact ⟨'\\', hslash, by decide⟩
    rw [escapedJsonMayContainTranscriptMarker, List.contains_iff_mem.mpr hbyte]
    exact escapedJsonMayContain_of_located hunits hm ht hbody
  · left
    have hplain : body = t ++ (m ++ rest) := by
      apply stringText_eq hbody
      intro hmem
      exact hslash (by simp [hmem])
    apply hasLiteralMarker_of_infix (List.mem_map_of_mem hm : asciiBytes m ∈ rawPrefilterMarkers)
    refine ⟨utf8Bytes (before ++ '"' :: t), utf8Bytes (rest ++ '"' :: after), ?_⟩
    rw [hplain, ← utf8Bytes_of_ascii (roleLines_ascii m hm), ← utf8Bytes_append,
      ← utf8Bytes_append]
    simp

end KiroProxy.TranscriptSanitizer
