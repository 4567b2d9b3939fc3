import KiroProxy.EventStream.Header

/-!
# Event-stream frames

A frame is a prelude (total length, header length and the CRC of these eight
bytes), the header block, the payload and the CRC of everything before it.
`parseFrame` is the stateless parser of `frame.rs`; `frameBytes` is the layout
documented at the top of that file. The checksum is a parameter: nothing here
depends on which function of the bytes it is.
-/

namespace KiroProxy.EventStream

def preludeSize : ℕ := 12

def minMessageSize : ℕ := preludeSize + 4

def maxMessageSize : ℕ := 16 * 1024 * 1024

structure Frame where
  headers : Headers
  payload : List UInt8
deriving DecidableEq

def slice (buffer : List UInt8) (start stop : ℕ) : List UInt8 :=
  (buffer.take stop).drop start

def u32At (buffer : List UInt8) (start : ℕ) : ℕ :=
  ofBeBytes (slice buffer start (start + 4))

/-- CRC-32/ISO-HDLC, the checksum the program passes to the parser. -/
def crc32IsoHdlc (data : List UInt8) : UInt32 :=
  let shift (c : UInt32) : UInt32 :=
    if c &&& 1 = 1 then (c >>> 1) ^^^ 0xEDB88320 else c >>> 1
  let update (c : UInt32) (b : UInt8) : UInt32 :=
    shift (shift (shift (shift (shift (shift (shift (shift (c ^^^ b.toUInt32))))))))
  data.foldl update 0xFFFFFFFF ^^^ 0xFFFFFFFF

example : crc32IsoHdlc (encodeUtf8 "123456789") = 0xCBF43926 := by decide +kernel

section

variable (crc32 : List UInt8 → UInt32)

/-- `none` asks for more data. -/
def parseFrame (buffer : List UInt8) : ParseResult (Option (Frame × ℕ)) :=
  if buffer.length < preludeSize then .ok none
  else
    let totalLength := u32At buffer 0
    let headerLength := u32At buffer 4
    let preludeCrc := UInt32.ofNat (u32At buffer 8)
    if totalLength < minMessageSize then .error (.messageTooSmall totalLength minMessageSize)
    else if totalLength > maxMessageSize then .error (.messageTooLarge totalLength maxMessageSize)
    else if buffer.length < totalLength then .ok none
    else
      let actualPreludeCrc := crc32 (buffer.take 8)
      if actualPreludeCrc ≠ preludeCrc then
        .error (.preludeCrcMismatch preludeCrc actualPreludeCrc)
      else
        let messageCrc := UInt32.ofNat (u32At buffer (totalLength - 4))
        let actualMessageCrc := crc32 (buffer.take (totalLength - 4))
        if actualMessageCrc ≠ messageCrc then
          .error (.messageCrcMismatch messageCrc actualMessageCrc)
        else
          let headersEnd := preludeSize + headerLength
          if headersEnd > totalLength - 4 then .error (.headerParseFailed "头部长度超出消息边界")
          else do
            let headers ← parseHeaders (slice buffer preludeSize headersEnd) headerLength
            .ok (some (⟨headers, slice buffer headersEnd (totalLength - 4)⟩, totalLength))

def prelude (totalLength headerLength : ℕ) : List UInt8 :=
  let lengths := beBytes 4 totalLength ++ beBytes 4 headerLength
  lengths ++ beBytes 4 (crc32 lengths).toNat

def frameBytes (block payload : List UInt8) : List UInt8 :=
  let message := prelude crc32 (minMessageSize + block.length + payload.length) block.length ++
    block ++ payload
  message ++ beBytes 4 (crc32 message).toNat

@[simp] theorem length_prelude (totalLength headerLength : ℕ) :
    (prelude crc32 totalLength headerLength).length = preludeSize := by
  simp [prelude, preludeSize]

@[simp] theorem length_frameBytes (block payload : List UInt8) :
    (frameBytes crc32 block payload).length = minMessageSize + block.length + payload.length := by
  simp [frameBytes, minMessageSize, preludeSize]
  omega

end

theorem slice_middle {a b c : List UInt8} {start stop : ℕ} (hstart : a.length = start)
    (hstop : start + b.length = stop) : slice (a ++ (b ++ c)) start stop = b := by
  have htake : (a ++ (b ++ c)).take stop = a ++ b := by
    rw [← List.append_assoc]
    exact List.take_left' (by rw [List.length_append]; omega)
  rw [slice, htake, ← hstart, List.drop_left]

theorem u32At_middle {a c : List UInt8} {start v : ℕ} (hstart : a.length = start)
    (hv : v < 2 ^ 32) : u32At (a ++ (beBytes 4 v ++ c)) start = v := by
  rw [u32At, slice_middle hstart (by rw [length_beBytes]), ofBeBytes_beBytes 4 v (by omega)]

variable {buffer : List UInt8} (crc32 : List UInt8 → UInt32)

theorem length_slice {start stop : ℕ} (h : stop ≤ buffer.length) :
    (slice buffer start stop).length = stop - start := by
  rw [slice, List.length_drop, List.length_take, Nat.min_eq_left h]

theorem u32At_lt (buffer : List UInt8) (start : ℕ) : u32At buffer start < 2 ^ 32 := by
  have hlen : (slice buffer start (start + 4)).length ≤ 4 := by
    rw [slice, List.length_drop, List.length_take]
    omega
  have hpow : 256 ^ (slice buffer start (start + 4)).length ≤ 256 ^ 4 :=
    Nat.pow_le_pow_right (by omega) hlen
  have hlt := ofBeBytes_lt (slice buffer start (start + 4))
  unfold u32At
  omega

theorem beBytes_u32At (start : ℕ) (h : start + 4 ≤ buffer.length) :
    beBytes 4 (u32At buffer start) = slice buffer start (start + 4) := by
  have hlen : (slice buffer start (start + 4)).length = 4 := by
    rw [length_slice h, Nat.add_sub_cancel_left]
  simpa only [hlen, u32At] using beBytes_ofBeBytes (slice buffer start (start + 4))

/-- A frame whose length field is its length and in range, with nothing known of
its checksums and headers. -/
structure RawFrame where
  headerLength : ℕ
  preludeCrc : UInt32
  body : List UInt8
  messageCrc : UInt32
  headerLength_lt : headerLength < 2 ^ 32
  size_le : minMessageSize + body.length ≤ maxMessageSize

namespace RawFrame

def totalLength (f : RawFrame) : ℕ := minMessageSize + f.body.length

def lengths (f : RawFrame) : List UInt8 := beBytes 4 f.totalLength ++ beBytes 4 f.headerLength

def message (f : RawFrame) : List UInt8 := f.lengths ++ beBytes 4 f.preludeCrc.toNat ++ f.body

def bytes (f : RawFrame) : List UInt8 := f.message ++ beBytes 4 f.messageCrc.toNat

@[simp] theorem length_message (f : RawFrame) : f.message.length = f.totalLength - 4 := by
  simp [message, lengths, totalLength, minMessageSize, preludeSize]
  omega

@[simp] theorem length_bytes (f : RawFrame) : f.bytes.length = f.totalLength := by
  simp [bytes, totalLength, minMessageSize, preludeSize]
  omega

theorem totalLength_bounds (f : RawFrame) :
    minMessageSize ≤ f.totalLength ∧ f.totalLength ≤ maxMessageSize :=
  ⟨Nat.le_add_right _ _, f.size_le⟩

theorem totalLength_lt (f : RawFrame) : f.totalLength < 2 ^ 32 := by
  have := f.totalLength_bounds.2
  unfold maxMessageSize at this
  omega

/-- What the parser decides about a complete frame once its length is known. -/
def parsed (crc32 : List UInt8 → UInt32) (f : RawFrame) : ParseResult (Option (Frame × ℕ)) :=
  if crc32 f.lengths ≠ f.preludeCrc then
    .error (.preludeCrcMismatch f.preludeCrc (crc32 f.lengths))
  else if crc32 f.message ≠ f.messageCrc then
    .error (.messageCrcMismatch f.messageCrc (crc32 f.message))
  else if preludeSize + f.headerLength > f.totalLength - 4 then
    .error (.headerParseFailed "头部长度超出消息边界")
  else do
    let headers ← parseHeaders (f.body.take f.headerLength) f.headerLength
    .ok (some (⟨headers, f.body.drop f.headerLength⟩, f.totalLength))

end RawFrame

theorem u32At_bytes_append_zero (f : RawFrame) (rest : List UInt8) :
    u32At (f.bytes ++ rest) 0 = f.totalLength := by
  have hbytes : f.bytes ++ rest = [] ++ (beBytes 4 f.totalLength ++ (beBytes 4 f.headerLength ++
      (beBytes 4 f.preludeCrc.toNat ++ (f.body ++ (beBytes 4 f.messageCrc.toNat ++ rest))))) := by
    simp [RawFrame.bytes, RawFrame.message, RawFrame.lengths]
  rw [hbytes, u32At_middle List.length_nil f.totalLength_lt]

theorem u32At_bytes_append_four (f : RawFrame) (rest : List UInt8) :
    u32At (f.bytes ++ rest) 4 = f.headerLength := by
  have hbytes : f.bytes ++ rest = beBytes 4 f.totalLength ++ (beBytes 4 f.headerLength ++
      (beBytes 4 f.preludeCrc.toNat ++ (f.body ++ (beBytes 4 f.messageCrc.toNat ++ rest)))) := by
    simp [RawFrame.bytes, RawFrame.message, RawFrame.lengths]
  rw [hbytes, u32At_middle (length_beBytes 4 _) f.headerLength_lt]

/-- The parser's answer on a complete frame does not depend on what follows it. -/
theorem parseFrame_bytes_append (f : RawFrame) (rest : List UInt8) :
    parseFrame crc32 (f.bytes ++ rest) = f.parsed crc32 := by
  obtain ⟨hmin, hmax⟩ := f.totalLength_bounds
  have hmin' : 16 ≤ f.totalLength := hmin
  have hlen : (f.bytes ++ rest).length = f.totalLength + rest.length := by simp
  have hT := u32At_bytes_append_zero f rest
  have hH := u32At_bytes_append_four f rest
  have hP : u32At (f.bytes ++ rest) 8 = f.preludeCrc.toNat := by
    have : f.bytes ++ rest = f.lengths ++ (beBytes 4 f.preludeCrc.toNat ++
        (f.body ++ (beBytes 4 f.messageCrc.toNat ++ rest))) := by
      simp [RawFrame.bytes, RawFrame.message]
    rw [this, u32At_middle (by simp [RawFrame.lengths]) f.preludeCrc.toNat_lt]
  have hM : u32At (f.bytes ++ rest) (f.totalLength - 4) = f.messageCrc.toNat := by
    rw [RawFrame.bytes, List.append_assoc, u32At_middle f.length_message f.messageCrc.toNat_lt]
  have hlengths : (f.bytes ++ rest).take 8 = f.lengths := by
    rw [RawFrame.bytes, RawFrame.message, List.append_assoc, List.append_assoc, List.append_assoc]
    exact List.take_left' (by simp [RawFrame.lengths])
  have hmessage : (f.bytes ++ rest).take (f.totalLength - 4) = f.message := by
    rw [RawFrame.bytes, List.append_assoc]
    exact List.take_left' f.length_message
  simp only [parseFrame, hT, hH, hP, hM, hlengths, hmessage, UInt32.ofNat_toNat]
  rw [if_neg (by rw [hlen, preludeSize]; omega), if_neg (by omega), if_neg (by omega),
    if_neg (by omega), RawFrame.parsed]
  split_ifs with hpre hmsg hbound
  · rfl
  · rfl
  · rfl
  · have hsplit : f.bytes ++ rest = (f.lengths ++ beBytes 4 f.preludeCrc.toNat) ++
        (f.body ++ (beBytes 4 f.messageCrc.toNat ++ rest)) := by
      simp [RawFrame.bytes, RawFrame.message]
    have hprelude : (f.lengths ++ beBytes 4 f.preludeCrc.toNat).length = preludeSize := by
      simp [RawFrame.lengths, preludeSize]
    have hbody : f.body.length = f.totalLength - 4 - preludeSize := by
      simp [RawFrame.totalLength, minMessageSize, preludeSize]
      omega
    have hle : f.headerLength ≤ f.body.length := by omega
    have hpieces : f.bytes ++ rest = (f.lengths ++ beBytes 4 f.preludeCrc.toNat) ++
        (f.body.take f.headerLength ++ (f.body.drop f.headerLength ++
          (beBytes 4 f.messageCrc.toNat ++ rest))) := by
      rw [← List.append_assoc (f.body.take _), List.take_append_drop, hsplit]
    have hblock : slice (f.bytes ++ rest) preludeSize (preludeSize + f.headerLength) =
        f.body.take f.headerLength := by
      rw [hpieces]
      exact slice_middle hprelude (by rw [List.length_take, Nat.min_eq_left hle])
    have hpayload : slice (f.bytes ++ rest) (preludeSize + f.headerLength) (f.totalLength - 4) =
        f.body.drop f.headerLength := by
      rw [hpieces, ← List.append_assoc]
      refine slice_middle ?_ ?_
      · rw [List.length_append, hprelude, List.length_take, Nat.min_eq_left hle]
      · rw [List.length_drop]
        omega
    rw [hblock, hpayload]

theorem slice_append_slice (buffer : List UInt8) {i j k : ℕ} (hij : i ≤ j) (hjk : j ≤ k) :
    slice buffer i j ++ slice buffer j k = slice buffer i k := by
  have htake : buffer.take j = (buffer.take k).take j := by
    rw [List.take_take, Nat.min_eq_left hjk]
  have hdrop : (buffer.take k).drop j = ((buffer.take k).drop i).drop (j - i) := by
    rw [List.drop_drop, Nat.add_sub_cancel' hij]
  rw [slice, slice, slice, htake, List.drop_take, hdrop, List.take_append_drop]

theorem exists_rawFrame (hmin : minMessageSize ≤ u32At buffer 0)
    (hmax : u32At buffer 0 ≤ maxMessageSize) (hlen : u32At buffer 0 ≤ buffer.length) :
    ∃ f : RawFrame, f.totalLength = u32At buffer 0 ∧
      f.bytes ++ buffer.drop (u32At buffer 0) = buffer := by
  have h16 : 16 ≤ u32At buffer 0 := hmin
  have hbody : (slice buffer 12 (u32At buffer 0 - 4)).length = u32At buffer 0 - 4 - 12 :=
    length_slice (by omega)
  have htotal : minMessageSize + (slice buffer 12 (u32At buffer 0 - 4)).length =
      u32At buffer 0 := by
    rw [hbody, minMessageSize, preludeSize]
    omega
  have hword (i : ℕ) (hi : i + 4 ≤ buffer.length) :
      beBytes 4 (UInt32.ofNat (u32At buffer i)).toNat = slice buffer i (i + 4) := by
    rw [UInt32.toNat_ofNat', Nat.mod_eq_of_lt (u32At_lt buffer i), beBytes_u32At i hi]
  refine ⟨⟨u32At buffer 4, .ofNat (u32At buffer 8), slice buffer 12 (u32At buffer 0 - 4),
    .ofNat (u32At buffer (u32At buffer 0 - 4)), u32At_lt buffer 4,
    by rw [htotal]; exact hmax⟩, htotal, ?_⟩
  simp only [RawFrame.bytes, RawFrame.message, RawFrame.lengths, RawFrame.totalLength, htotal]
  rw [hword 8 (by omega), hword _ (by omega), beBytes_u32At 0 (by omega),
    beBytes_u32At 4 (by omega), slice_append_slice _ (by omega) (by omega),
    slice_append_slice _ (by omega) (by omega), slice_append_slice _ (by omega) (by omega),
    slice_append_slice _ (by omega) (by omega), Nat.sub_add_cancel (by omega), slice,
    List.drop_zero, List.take_append_drop]

theorem u32At_append {p buffer : List UInt8} (h : p <+: buffer) {start : ℕ}
    (hstart : start + 4 ≤ p.length) : u32At p start = u32At buffer start := by
  obtain ⟨t, rfl⟩ := h
  rw [u32At, u32At, slice, slice, List.take_append_of_le_length hstart]

/-- An incomplete frame is never an error: the parser waits for the rest. -/
theorem parseFrame_eq_none_of_prefix {f : RawFrame} {p : List UInt8} (hp : p <+: f.bytes)
    (hlt : p.length < f.totalLength) : parseFrame crc32 p = .ok none := by
  obtain ⟨hmin, hmax⟩ := f.totalLength_bounds
  by_cases hshort : p.length < preludeSize
  · rw [parseFrame, if_pos hshort]
  · have hT : u32At p 0 = f.totalLength := by
      rw [u32At_append hp (by rw [preludeSize] at hshort; omega), ← List.append_nil f.bytes,
        u32At_bytes_append_zero]
    simp only [parseFrame, if_neg hshort, hT]
    rw [if_neg (by omega), if_neg (by omega), if_pos hlt]

/-- The raw frame of the documented layout, with both checksums right. -/
def RawFrame.ofParts (crc32 : List UInt8 → UInt32) (block payload : List UInt8)
    (hsize : minMessageSize + block.length + payload.length ≤ maxMessageSize) : RawFrame where
  headerLength := block.length
  preludeCrc := crc32 (beBytes 4 (minMessageSize + block.length + payload.length) ++
    beBytes 4 block.length)
  body := block ++ payload
  messageCrc := crc32 (prelude crc32 (minMessageSize + block.length + payload.length)
    block.length ++ block ++ payload)
  headerLength_lt := by
    unfold maxMessageSize at hsize
    omega
  size_le := by
    rw [List.length_append]
    omega

theorem RawFrame.bytes_ofParts (block payload : List UInt8)
    (hsize : minMessageSize + block.length + payload.length ≤ maxMessageSize) :
    (RawFrame.ofParts crc32 block payload hsize).bytes = frameBytes crc32 block payload := by
  simp [RawFrame.ofParts, RawFrame.bytes, RawFrame.message, RawFrame.lengths,
    RawFrame.totalLength, frameBytes, prelude, Nat.add_assoc]

theorem RawFrame.parsed_ofParts (block payload : List UInt8)
    (hsize : minMessageSize + block.length + payload.length ≤ maxMessageSize) :
    (RawFrame.ofParts crc32 block payload hsize).parsed crc32 = (do
      let headers ← parseHeaders block block.length
      .ok (some (⟨headers, payload⟩, (frameBytes crc32 block payload).length))) := by
  have hlengths : (RawFrame.ofParts crc32 block payload hsize).lengths =
      beBytes 4 (minMessageSize + block.length + payload.length) ++ beBytes 4 block.length := by
    simp [RawFrame.ofParts, RawFrame.lengths, RawFrame.totalLength, Nat.add_assoc]
  have hmessage : (RawFrame.ofParts crc32 block payload hsize).message =
      prelude crc32 (minMessageSize + block.length + payload.length) block.length ++
        block ++ payload := by
    simp [RawFrame.ofParts, RawFrame.lengths, RawFrame.totalLength, RawFrame.message, prelude,
      Nat.add_assoc]
  have htotal : (RawFrame.ofParts crc32 block payload hsize).totalLength =
      minMessageSize + block.length + payload.length := by
    simp [RawFrame.ofParts, RawFrame.totalLength, Nat.add_assoc]
  rw [RawFrame.parsed, hlengths, hmessage, htotal, length_frameBytes]
  simp only [RawFrame.ofParts, ne_eq, not_true, if_false, List.take_left, List.drop_left]
  rw [if_neg (by simp only [minMessageSize, preludeSize]; omega)]

theorem parseFrame_frameBytes_append {block payload : List UInt8}
    (hsize : minMessageSize + block.length + payload.length ≤ maxMessageSize) {headers : Headers}
    (hheaders : parseHeaders block block.length = .ok headers) (rest : List UInt8) :
    parseFrame crc32 (frameBytes crc32 block payload ++ rest) =
      .ok (some (⟨headers, payload⟩, (frameBytes crc32 block payload).length)) := by
  rw [← RawFrame.bytes_ofParts crc32 block payload hsize, parseFrame_bytes_append,
    RawFrame.parsed_ofParts, RawFrame.bytes_ofParts, hheaders]
  rfl

/-- Once the length field is in range and the frame is complete, the parser
decides on the raw frame alone. -/
theorem parseFrame_complete_cases (buffer : List UInt8) :
    parseFrame crc32 buffer = .ok none ∨
    (∃ length min, parseFrame crc32 buffer = .error (.messageTooSmall length min)) ∨
    (∃ length max, parseFrame crc32 buffer = .error (.messageTooLarge length max)) ∨
    ∃ (f : RawFrame) (rest : List UInt8), f.bytes ++ rest = buffer ∧
      parseFrame crc32 buffer = f.parsed crc32 := by
  by_cases hshort : buffer.length < preludeSize
  · exact .inl (by rw [parseFrame, if_pos hshort])
  by_cases hmin : u32At buffer 0 < minMessageSize
  · exact .inr (.inl ⟨_, _, by simp only [parseFrame, if_neg hshort, if_pos hmin]; rfl⟩)
  by_cases hmax : u32At buffer 0 > maxMessageSize
  · exact .inr (.inr (.inl ⟨_, _, by
      simp only [parseFrame, if_neg hshort, if_neg hmin, if_pos hmax]; rfl⟩))
  by_cases hlen : buffer.length < u32At buffer 0
  · exact .inl (by simp only [parseFrame, if_neg hshort, if_neg hmin, if_neg hmax, if_pos hlen])
  obtain ⟨f, -, hbytes⟩ := exists_rawFrame (Nat.not_lt.mp hmin) (Nat.not_lt.mp hmax)
    (Nat.not_lt.mp hlen)
  refine .inr (.inr (.inr ⟨f, _, hbytes, ?_⟩))
  conv_lhs => rw [← hbytes]
  exact parseFrame_bytes_append crc32 f _

/-- Everything the parser accepts has the documented layout. -/
theorem frameBytes_of_parseFrame {crc32 : List UInt8 → UInt32} {frame : Frame} {consumed : ℕ}
    (h : parseFrame crc32 buffer = .ok (some (frame, consumed))) :
    ∃ block rest : List UInt8, buffer = frameBytes crc32 block frame.payload ++ rest ∧
      minMessageSize + block.length + frame.payload.length ≤ maxMessageSize ∧
      consumed = (frameBytes crc32 block frame.payload).length ∧
      parseHeaders block block.length = .ok frame.headers := by
  rcases parseFrame_complete_cases crc32 buffer with hnone | ⟨_, _, he⟩ | ⟨_, _, he⟩ |
    ⟨f, rest, hbytes, hparsed⟩
  · simp [h] at hnone
  · simp [h] at he
  · simp [h] at he
  rw [h, RawFrame.parsed] at hparsed
  split_ifs at hparsed with hpre hmsg hbound
  have hlen : (f.body.take f.headerLength).length = f.headerLength := by
    have : f.totalLength - 4 = preludeSize + f.body.length := by
      simp only [RawFrame.totalLength, minMessageSize, preludeSize]
      omega
    rw [List.length_take]
    omega
  cases hheaders : parseHeaders (f.body.take f.headerLength) f.headerLength with
  | error e =>
    rw [hheaders] at hparsed
    cases hparsed
  | ok headers =>
    rw [hheaders] at hparsed
    simp only [bind, Except.bind, Except.ok.injEq, Option.some.injEq, Prod.mk.injEq] at hparsed
    obtain ⟨rfl, rfl⟩ := hparsed
    have hsum : (f.body.take f.headerLength).length + (f.body.drop f.headerLength).length =
        f.body.length := by
      rw [← List.length_append, List.take_append_drop]
    have hsize : minMessageSize + (f.body.take f.headerLength).length +
        (f.body.drop f.headerLength).length ≤ maxMessageSize := by
      have := f.size_le
      omega
    have hframe : frameBytes crc32 (f.body.take f.headerLength) (f.body.drop f.headerLength) =
        f.bytes := by
      have htotal : minMessageSize + (f.body.take f.headerLength).length +
          (f.body.drop f.headerLength).length = f.totalLength := by
        rw [RawFrame.totalLength]
        omega
      have hprelude : prelude crc32 f.totalLength f.headerLength =
          f.lengths ++ beBytes 4 f.preludeCrc.toNat := by
        rw [prelude, ← not_not.mp hpre]
        rfl
      have hmessage : prelude crc32 f.totalLength f.headerLength ++
          f.body.take f.headerLength ++ f.body.drop f.headerLength = f.message := by
        rw [hprelude, List.append_assoc, List.take_append_drop, RawFrame.message]
      simp only [frameBytes]
      rw [htotal, hlen, hmessage, not_not.mp hmsg, RawFrame.bytes]
    exact ⟨_, rest, by rw [hframe, hbytes], hsize, by rw [hframe, f.length_bytes],
      by rw [hlen]; exact hheaders⟩

/-- A header as a client writes it: text name and text strings. -/
structure EncodableHeader where
  name : String
  value : HeaderValue
  name_ne : name ≠ ""
  name_le : (encodeUtf8 name).length ≤ 255
  value_fits : (value.map encodeUtf8).Fits

namespace EncodableHeader

def toWire (h : EncodableHeader) : WireHeader where
  name := encodeUtf8 h.name
  value := h.value.map encodeUtf8
  name_pos := by
    have hne : h.name.toList ≠ [] := by simpa using h.name_ne
    have hle := length_le_length_flatMap_utf8EncodeChar h.name.toList
    exact (List.length_pos_of_ne_nil hne).trans_le hle
  name_le := h.name_le
  value_fits := h.value_fits

theorem decoded_toWire (h : EncodableHeader) : h.toWire.decoded = (h.name, h.value) := by
  simp only [WireHeader.decoded, toWire, fromUtf8Lossy_encodeUtf8, HeaderValueOf.map_map]
  rw [HeaderValueOf.map_eq_self (f := fromUtf8Lossy ∘ encodeUtf8) fromUtf8Lossy_encodeUtf8]

def toHeaders (hs : List EncodableHeader) : Headers :=
  (hs.map fun h => (⟨h.name, h.value⟩ : Sigma fun _ : String => HeaderValue)).toFinmap

theorem insertHeaders_insert_of_notMem {hs : List EncodableHeader} {name : String}
    {value : HeaderValue} {headers : Headers} (hname : name ∉ hs.map EncodableHeader.name) :
    insertHeaders (headers.insert name value) (hs.map fun h => (h.name, h.value)) =
      (insertHeaders headers (hs.map fun h => (h.name, h.value))).insert name value := by
  induction hs generalizing headers with
  | nil => rfl
  | cons h hs ih =>
    simp only [List.map_cons, List.mem_cons, not_or] at hname
    rw [List.map_cons, insertHeaders, List.foldl_cons, Finmap.insert_insert_of_ne _ hname.1]
    exact ih hname.2

theorem insertHeaders_eq_toHeaders {hs : List EncodableHeader}
    (hnodup : (hs.map EncodableHeader.name).Nodup) :
    insertHeaders ∅ (hs.map fun h => (h.name, h.value)) = toHeaders hs := by
  induction hs with
  | nil => rfl
  | cons h hs ih =>
    rw [List.map_cons, List.nodup_cons] at hnodup
    rw [List.map_cons, insertHeaders, List.foldl_cons]
    change insertHeaders (Finmap.insert h.name h.value ∅) (hs.map fun h => (h.name, h.value)) = _
    rw [insertHeaders_insert_of_notMem hnodup.1, ih hnodup.2]
    simp only [toHeaders, List.map_cons, Finmap.toFinmap_cons]

end EncodableHeader

/-- Both directions of the frame format. Encoding distinct headers and a payload
and parsing the result gives them back whatever follows the frame, and every
frame the parser returns was laid out in this way, with its header loop ending
exactly at the declared header length. -/
theorem parseFrame_roundTrip (crc32 : List UInt8 → UInt32) :
    (∀ (hs : List EncodableHeader) (payload rest : List UInt8),
      (hs.map EncodableHeader.name).Nodup →
      (frameBytes crc32 (encodeHeaders (hs.map EncodableHeader.toWire)) payload).length ≤
        maxMessageSize →
      parseFrame crc32
          (frameBytes crc32 (encodeHeaders (hs.map EncodableHeader.toWire)) payload ++ rest) =
        .ok (some (⟨EncodableHeader.toHeaders hs, payload⟩,
          (frameBytes crc32 (encodeHeaders (hs.map EncodableHeader.toWire)) payload).length))) ∧
    ∀ (buffer : List UInt8) (frame : Frame) (consumed : ℕ),
      parseFrame crc32 buffer = .ok (some (frame, consumed)) →
      ∃ (hs : List WireHeader) (rest : List UInt8),
        buffer = frameBytes crc32 (encodeHeaders hs) frame.payload ++ rest ∧
        consumed = (frameBytes crc32 (encodeHeaders hs) frame.payload).length ∧
        consumed ≤ maxMessageSize ∧
        u32At buffer 4 = (encodeHeaders hs).length ∧
        parseHeadersLoop (encodeHeaders hs) (u32At buffer 4) (u32At buffer 4) 0 ∅ =
          .ok (frame.headers, u32At buffer 4) := by
  constructor
  · intro hs payload rest hnodup hsize
    rw [length_frameBytes] at hsize
    have hdecoded : (hs.map EncodableHeader.toWire).map WireHeader.decoded =
        hs.map fun h => (h.name, h.value) := by
      simp only [List.map_map, Function.comp_def, EncodableHeader.decoded_toWire]
    refine parseFrame_frameBytes_append crc32 hsize ?_ rest
    rw [parseHeaders_encodeHeaders, hdecoded, EncodableHeader.insertHeaders_eq_toHeaders hnodup]
  · intro buffer frame consumed h
    obtain ⟨block, rest, hbuffer, hsize, hconsumed, hheaders⟩ := frameBytes_of_parseFrame h
    obtain ⟨hs, rfl, hmap⟩ := encodeHeaders_of_parseHeaders hheaders
    have hlen : u32At buffer 4 = (encodeHeaders hs).length := by
      rw [hbuffer, ← RawFrame.bytes_ofParts crc32 _ _ hsize]
      exact u32At_bytes_append_four _ rest
    refine ⟨hs, rest, hbuffer, hconsumed, ?_, hlen, ?_⟩
    · rw [hconsumed, length_frameBytes]
      exact hsize
    · rw [hlen, hmap]
      exact parseHeadersLoop_block hs

def eventTypeHeader : EncodableHeader where
  name := ":event-type"
  value := .string "ok"
  name_ne := by decide
  name_le := by decide
  value_fits := by
    change (encodeUtf8 "ok").length ≤ 65535
    decide

theorem parseFrame_roundTrip_eventType :
    parseFrame crc32IsoHdlc (frameBytes crc32IsoHdlc
        (encodeHeaders [eventTypeHeader.toWire]) [0x7B, 0x7D] ++ [0x00, 0xFF]) =
      .ok (some (⟨EncodableHeader.toHeaders [eventTypeHeader], [0x7B, 0x7D]⟩, 35)) ∧
    ∃ (hs : List WireHeader) (rest : List UInt8),
      frameBytes crc32IsoHdlc (encodeHeaders [eventTypeHeader.toWire]) [0x7B, 0x7D] ++
          [0x00, 0xFF] =
        frameBytes crc32IsoHdlc (encodeHeaders hs) [0x7B, 0x7D] ++ rest ∧
      35 = (frameBytes crc32IsoHdlc (encodeHeaders hs) [0x7B, 0x7D]).length := by
  have h := (parseFrame_roundTrip crc32IsoHdlc).1 [eventTypeHeader] [0x7B, 0x7D] [0x00, 0xFF]
    (by decide) (by rw [length_frameBytes]; decide)
  rw [length_frameBytes] at h
  have hconverse := (parseFrame_roundTrip crc32IsoHdlc).2 _ _ _ h
  obtain ⟨hs, rest, hbytes, hconsumed, -⟩ := hconverse
  exact ⟨h, hs, rest, hbytes, hconsumed⟩

end KiroProxy.EventStream
