import KiroProxy.BigEndian
import KiroProxy.Utf8Lossy

/-!
# Event-stream headers

The header block of a message is a sequence of headers. Each is a name length
byte, the name, a value type byte and a value whose length depends on the type.
`parseHeaders` is the parser of `header.rs`; `WireHeader.encode` is the layout it
reads. A wire header keeps names and string values as bytes, since the parser
accepts bytes that are not UTF-8 and decodes them lossily.
-/

namespace KiroProxy.EventStream

inductive ParseError where
  | incomplete (needed available : ℕ)
  | preludeCrcMismatch (expected actual : UInt32)
  | messageCrcMismatch (expected actual : UInt32)
  | invalidHeaderType (value : UInt8)
  | headerParseFailed (message : String)
  | messageTooLarge (length max : ℕ)
  | messageTooSmall (length min : ℕ)
  | invalidMessageType (messageType : String)
  | payloadDeserialize (error : String)
  | io (error : String)
  | tooManyErrors (count : ℕ) (lastError : String)
  | bufferOverflow (size max : ℕ)
deriving DecidableEq, Repr

/-- `{:08x}` -/
def hex8 (v : UInt32) : String :=
  let digits := Nat.toDigits 16 v.toNat
  String.ofList (List.replicate (8 - digits.length) '0' ++ digits)

/-- The error texts of `error.rs`. -/
def ParseError.display : ParseError → String
  | .incomplete needed available => s!"数据不足: 需要 {needed} 字节, 当前 {available} 字节"
  | .preludeCrcMismatch expected actual =>
    s!"Prelude CRC 校验失败: 期望 0x{hex8 expected}, 实际 0x{hex8 actual}"
  | .messageCrcMismatch expected actual =>
    s!"Message CRC 校验失败: 期望 0x{hex8 expected}, 实际 0x{hex8 actual}"
  | .invalidHeaderType value => s!"无效的头部值类型: {value}"
  | .headerParseFailed message => s!"头部解析失败: {message}"
  | .messageTooLarge length max => s!"消息长度超限: {length} 字节 (最大 {max})"
  | .messageTooSmall length min => s!"消息长度过小: {length} 字节 (最小 {min})"
  | .invalidMessageType messageType => s!"无效的消息类型: {messageType}"
  | .payloadDeserialize error => s!"Payload 反序列化失败: {error}"
  | .io error => s!"IO 错误: {error}"
  | .tooManyErrors count lastError => s!"连续错误过多 ({count} 次)，解码器已停止: {lastError}"
  | .bufferOverflow size max => s!"缓冲区溢出: {size} 字节 (最大 {max})"

abbrev ParseResult := Except ParseError

instance {α : Type} [DecidableEq α] : DecidableEq (ParseResult α)
  | .ok a, .ok b => decidable_of_iff (a = b) (by simp)
  | .error a, .error b => decidable_of_iff (a = b) (by simp)
  | .ok _, .error _ => isFalse (by simp)
  | .error _, .ok _ => isFalse (by simp)

inductive HeaderValueType where
  | boolTrue | boolFalse | byte | short | integer | long | byteArray | string | timestamp | uuid
deriving DecidableEq, Repr

def HeaderValueType.tryFrom (value : UInt8) : ParseResult HeaderValueType :=
  match value with
  | 0 => .ok .boolTrue
  | 1 => .ok .boolFalse
  | 2 => .ok .byte
  | 3 => .ok .short
  | 4 => .ok .integer
  | 5 => .ok .long
  | 6 => .ok .byteArray
  | 7 => .ok .string
  | 8 => .ok .timestamp
  | 9 => .ok .uuid
  | _ => .error (.invalidHeaderType value)

def HeaderValueType.code : HeaderValueType → UInt8
  | .boolTrue => 0
  | .boolFalse => 1
  | .byte => 2
  | .short => 3
  | .integer => 4
  | .long => 5
  | .byteArray => 6
  | .string => 7
  | .timestamp => 8
  | .uuid => 9

/-- Header values whose strings are represented by `σ`: decoded text in
`HeaderValue`, undecoded bytes on the wire. -/
inductive HeaderValueOf (σ : Type) where
  | bool (v : Bool)
  | byte (v : Int8)
  | short (v : Int16)
  | integer (v : Int32)
  | long (v : Int64)
  | byteArray (v : List UInt8)
  | string (v : σ)
  | timestamp (v : Int64)
  | uuid (v : Vector UInt8 16)
deriving DecidableEq

abbrev HeaderValue := HeaderValueOf String

abbrev Headers := Finmap fun _ : String => HeaderValue

def ensureBytes (data : List UInt8) (needed : ℕ) : ParseResult Unit :=
  if data.length < needed then .error (.incomplete needed data.length) else .ok ()

/-- The value at the start of `data` and the number of bytes it occupies, by
which the caller advances its offset. -/
def parseHeaderValue (data : List UInt8) (valueType : HeaderValueType) :
    ParseResult (HeaderValue × ℕ) :=
  match valueType with
  | .boolTrue => .ok (.bool true, 0)
  | .boolFalse => .ok (.bool false, 0)
  | .byte => do
    ensureBytes data 1
    .ok (.byte (.ofBitVec (.ofNat 8 (ofBeBytes (data.take 1)))), 1)
  | .short => do
    ensureBytes data 2
    .ok (.short (.ofBitVec (.ofNat 16 (ofBeBytes (data.take 2)))), 2)
  | .integer => do
    ensureBytes data 4
    .ok (.integer (.ofBitVec (.ofNat 32 (ofBeBytes (data.take 4)))), 4)
  | .long => do
    ensureBytes data 8
    .ok (.long (.ofBitVec (.ofNat 64 (ofBeBytes (data.take 8)))), 8)
  | .timestamp => do
    ensureBytes data 8
    .ok (.timestamp (.ofBitVec (.ofNat 64 (ofBeBytes (data.take 8)))), 8)
  | .byteArray => do
    ensureBytes data 2
    let len := ofBeBytes (data.take 2)
    ensureBytes data (2 + len)
    .ok (.byteArray ((data.drop 2).take len), 2 + len)
  | .string => do
    ensureBytes data 2
    let len := ofBeBytes (data.take 2)
    ensureBytes data (2 + len)
    .ok (.string (fromUtf8Lossy ((data.drop 2).take len)), 2 + len)
  | .uuid => do
    ensureBytes data 16
    .ok (.uuid (Vector.ofFn fun i => data.getD i 0), 16)

/-- One round of the header loop on the bytes from the current offset on: the
header read and the number of bytes consumed. -/
def parseHeader (data : List UInt8) : ParseResult ((String × HeaderValue) × ℕ) :=
  match data with
  | [] => .error (.incomplete 1 0)
  | nameLen :: data =>
    let nameLen := nameLen.toNat
    if nameLen = 0 then .error (.headerParseFailed "头部名称长度不能为 0")
    else if data.length < nameLen then .error (.incomplete nameLen data.length)
    else
      let name := fromUtf8Lossy (data.take nameLen)
      match data.drop nameLen with
      | [] => .error (.incomplete 1 0)
      | code :: rest => do
        let valueType ← HeaderValueType.tryFrom code
        let (value, used) ← parseHeaderValue rest valueType
        .ok ((name, value), 1 + nameLen + 1 + used)

/-- The loop `while offset < header_length`, with the offset it ends at. Every
round advances the offset, so `headerLength` rounds of fuel are enough. -/
def parseHeadersLoop (data : List UInt8) (headerLength : ℕ) :
    ℕ → ℕ → Headers → ParseResult (Headers × ℕ)
  | 0, offset, headers => .ok (headers, offset)
  | fuel + 1, offset, headers =>
    if offset < headerLength then
      if data.length ≤ offset then .ok (headers, offset)
      else do
        let (header, used) ← parseHeader (data.drop offset)
        parseHeadersLoop data headerLength fuel (offset + used)
          (headers.insert header.1 header.2)
    else .ok (headers, offset)

def parseHeaders (data : List UInt8) (headerLength : ℕ) : ParseResult Headers :=
  if data.length < headerLength then .error (.incomplete headerLength data.length)
  else do
    let (headers, _) ← parseHeadersLoop data headerLength headerLength 0 ∅
    .ok headers

namespace HeaderValueOf

variable {σ τ : Type}

def map (f : σ → τ) : HeaderValueOf σ → HeaderValueOf τ
  | .bool v => .bool v
  | .byte v => .byte v
  | .short v => .short v
  | .integer v => .integer v
  | .long v => .long v
  | .byteArray v => .byteArray v
  | .string v => .string (f v)
  | .timestamp v => .timestamp v
  | .uuid v => .uuid v

theorem map_map {υ : Type} (f : σ → τ) (g : τ → υ) (v : HeaderValueOf σ) :
    (v.map f).map g = v.map (g ∘ f) := by
  cases v <;> rfl

theorem map_eq_self {f : σ → σ} (hf : ∀ s, f s = s) (v : HeaderValueOf σ) : v.map f = v := by
  cases v <;> simp [map, hf]

def valueType : HeaderValueOf σ → HeaderValueType
  | .bool true => .boolTrue
  | .bool false => .boolFalse
  | .byte _ => .byte
  | .short _ => .short
  | .integer _ => .integer
  | .long _ => .long
  | .byteArray _ => .byteArray
  | .string _ => .string
  | .timestamp _ => .timestamp
  | .uuid _ => .uuid

def payload : HeaderValueOf (List UInt8) → List UInt8
  | .bool _ => []
  | .byte v => beBytes 1 v.toBitVec.toNat
  | .short v => beBytes 2 v.toBitVec.toNat
  | .integer v => beBytes 4 v.toBitVec.toNat
  | .long v => beBytes 8 v.toBitVec.toNat
  | .byteArray v => beBytes 2 v.length ++ v
  | .string v => beBytes 2 v.length ++ v
  | .timestamp v => beBytes 8 v.toBitVec.toNat
  | .uuid v => v.toList

def Fits : HeaderValueOf (List UInt8) → Prop
  | .byteArray v => v.length ≤ 65535
  | .string v => v.length ≤ 65535
  | _ => True

end HeaderValueOf

structure WireHeader where
  name : List UInt8
  value : HeaderValueOf (List UInt8)
  name_pos : 0 < name.length
  name_le : name.length ≤ 255
  value_fits : value.Fits

namespace WireHeader

def encode (h : WireHeader) : List UInt8 :=
  UInt8.ofNat h.name.length :: h.name ++ h.value.valueType.code :: h.value.payload

def decoded (h : WireHeader) : String × HeaderValue :=
  (fromUtf8Lossy h.name, h.value.map fromUtf8Lossy)

theorem encode_ne_nil (h : WireHeader) : h.encode ≠ [] := by
  simp [encode]

theorem length_encode_pos (h : WireHeader) : 0 < h.encode.length :=
  List.length_pos_of_ne_nil h.encode_ne_nil

end WireHeader

variable {data : List UInt8} {n w : ℕ} {e : ParseError} (hs : List WireHeader) {offset : ℕ}

theorem ensureBytes_of_le {needed : ℕ} (h : needed ≤ data.length) :
    ensureBytes data needed = .ok () := by
  rw [ensureBytes, if_neg (by omega)]

theorem bind_ensureBytes_eq_ok {α : Type} {needed : ℕ} {next : Unit → ParseResult α} {a : α} :
    (ensureBytes data needed >>= next) = .ok a ↔ needed ≤ data.length ∧ next () = .ok a := by
  by_cases h : needed ≤ data.length
  · simp [ensureBytes_of_le h, h, bind, Except.bind]
  · simp [ensureBytes, Nat.lt_of_not_le h, h, bind, Except.bind]

theorem tryFrom_code (t : HeaderValueType) : HeaderValueType.tryFrom t.code = .ok t := by
  cases t <;> rfl

theorem code_of_tryFrom {value : UInt8} {t : HeaderValueType}
    (h : HeaderValueType.tryFrom value = .ok t) : t.code = value := by
  unfold HeaderValueType.tryFrom at h
  split at h <;> cases h <;> rfl

theorem take_length_beBytes_append {n v : ℕ} (rest : List UInt8) :
    (beBytes n v ++ rest).take n = beBytes n v := by
  rw [List.take_append_of_le_length (by simp), List.take_of_length_le (by simp)]

theorem drop_length_beBytes_append {n v : ℕ} (rest : List UInt8) :
    (beBytes n v ++ rest).drop n = rest := by
  exact List.drop_left' (length_beBytes n v)

theorem ofNat_ofBeBytes_take (hw : 2 ^ w = 256 ^ n) (v : BitVec w) (rest : List UInt8) :
    BitVec.ofNat w (ofBeBytes ((beBytes n v.toNat ++ rest).take n)) = v := by
  have hv : v.toNat < 256 ^ n := hw ▸ v.isLt
  rw [take_length_beBytes_append, ofBeBytes_beBytes n _ hv, BitVec.ofNat_toNat, BitVec.setWidth_eq]

theorem fixedWidth_read (hw : 2 ^ w = 256 ^ n) (v : BitVec w) (rest : List UInt8) {α : Type}
    (f : BitVec w → α) :
    (do ensureBytes (beBytes n v.toNat ++ rest) n
        .ok (f (BitVec.ofNat w (ofBeBytes ((beBytes n v.toNat ++ rest).take n)))) :
      ParseResult α) = .ok (f v) := by
  rw [bind_ensureBytes_eq_ok, ofNat_ofBeBytes_take hw]
  exact ⟨by simp, rfl⟩

theorem beBytes_toNat_ofNat (hw : 2 ^ w = 256 ^ n) (hn : n ≤ data.length) :
    beBytes n (BitVec.ofNat w (ofBeBytes (data.take n))).toNat = data.take n := by
  have hlen : (data.take n).length = n := by simp [hn]
  have hlt := ofBeBytes_lt (data.take n)
  rw [hlen] at hlt
  rw [BitVec.toNat_ofNat, Nat.mod_eq_of_lt (by rw [hw]; exact hlt)]
  simpa only [hlen] using beBytes_ofBeBytes (data.take n)

theorem toList_ofFn_getD (h : 16 ≤ data.length) :
    (Vector.ofFn fun i : Fin 16 => data.getD i 0).toList = data.take 16 := by
  apply List.ext_getElem
  · simp [h]
  · intro i hi _
    have hi' : i < data.length := by simp at hi; omega
    rw [Vector.getElem_toList, Vector.getElem_ofFn, List.getD_eq_getElem _ _ hi',
      List.getElem_take]

theorem ofFn_getD_toList_append (u : Vector UInt8 16) (rest : List UInt8) :
    (Vector.ofFn fun i : Fin 16 => (u.toList ++ rest).getD i 0) = u := by
  apply Vector.ext
  intro i hi
  rw [Vector.getElem_ofFn, List.getD_eq_getElem _ _ (by simp; omega),
    List.getElem_append_left (by simpa using hi), Vector.getElem_toList]

/-- Reading a value back from its layout, whatever bytes follow. -/
theorem parseHeaderValue_payload_append (v : HeaderValueOf (List UInt8)) (hv : v.Fits)
    (rest : List UInt8) :
    parseHeaderValue (v.payload ++ rest) v.valueType =
      .ok (v.map fromUtf8Lossy, v.payload.length) := by
  have hvar (bytes : List UInt8) (hb : bytes.length ≤ 65535) :
      ofBeBytes ((beBytes 2 bytes.length ++ bytes ++ rest).take 2) = bytes.length := by
    rw [List.append_assoc, take_length_beBytes_append, ofBeBytes_beBytes 2 _ (by omega)]
  have hbody (bytes : List UInt8) :
      ((beBytes 2 bytes.length ++ bytes ++ rest).drop 2).take bytes.length = bytes := by
    rw [List.append_assoc, drop_length_beBytes_append, List.take_left]
  cases v with
  | bool v => cases v <;> rfl
  | byte v =>
    exact fixedWidth_read (n := 1) (by norm_num) v.toBitVec rest
      fun b => (HeaderValueOf.byte (.ofBitVec b), 1)
  | short v =>
    exact fixedWidth_read (n := 2) (by norm_num) v.toBitVec rest
      fun b => (HeaderValueOf.short (.ofBitVec b), 2)
  | integer v =>
    exact fixedWidth_read (n := 4) (by norm_num) v.toBitVec rest
      fun b => (HeaderValueOf.integer (.ofBitVec b), 4)
  | long v =>
    exact fixedWidth_read (n := 8) (by norm_num) v.toBitVec rest
      fun b => (HeaderValueOf.long (.ofBitVec b), 8)
  | timestamp v =>
    exact fixedWidth_read (n := 8) (by norm_num) v.toBitVec rest
      fun b => (HeaderValueOf.timestamp (.ofBitVec b), 8)
  | byteArray v =>
    simp only [HeaderValueOf.valueType, HeaderValueOf.payload, parseHeaderValue]
    rw [bind_ensureBytes_eq_ok, bind_ensureBytes_eq_ok, hvar v hv, hbody v]
    refine ⟨by simp, by simp, ?_⟩
    simp [HeaderValueOf.map]
  | string v =>
    simp only [HeaderValueOf.valueType, HeaderValueOf.payload, parseHeaderValue]
    rw [bind_ensureBytes_eq_ok, bind_ensureBytes_eq_ok, hvar v hv, hbody v]
    refine ⟨by simp, by simp, ?_⟩
    simp [HeaderValueOf.map]
  | uuid v =>
    simp only [HeaderValueOf.valueType, HeaderValueOf.payload, parseHeaderValue]
    rw [bind_ensureBytes_eq_ok, ofFn_getD_toList_append]
    refine ⟨by simp, ?_⟩
    simp [HeaderValueOf.map]

/-- Everything `parseHeaderValue` accepts is the layout of some value. -/
theorem payload_of_parseHeaderValue {t : HeaderValueType} {value : HeaderValue} {used : ℕ}
    (h : parseHeaderValue data t = .ok (value, used)) :
    ∃ v : HeaderValueOf (List UInt8), v.Fits ∧ v.valueType = t ∧ v.map fromUtf8Lossy = value ∧
      v.payload.length = used ∧ v.payload ++ data.drop used = data := by
  have hfixed {n : ℕ} {bytes : List UInt8} (hbytes : bytes = data.take n) :
      bytes ++ data.drop n = data := by rw [hbytes, List.take_append_drop]
  have hlt : ofBeBytes (data.take 2) ≤ 65535 := by
    have hpow : 256 ^ (data.take 2).length ≤ 256 ^ 2 := Nat.pow_le_pow_right (by omega) (by simp)
    have := ofBeBytes_lt (data.take 2)
    omega
  have hvar (hlen : 2 + ofBeBytes (data.take 2) ≤ data.length) (bytes : List UInt8)
      (hbytes : bytes = (data.drop 2).take (ofBeBytes (data.take 2))) :
      bytes.length = ofBeBytes (data.take 2) ∧
      beBytes 2 bytes.length ++ bytes = data.take (2 + ofBeBytes (data.take 2)) := by
    have hblen : bytes.length = ofBeBytes (data.take 2) := by
      rw [hbytes, List.length_take, List.length_drop]
      omega
    have hpre : beBytes 2 (ofBeBytes (data.take 2)) = data.take 2 := by
      have := beBytes_ofBeBytes (data.take 2)
      rwa [List.length_take, Nat.min_eq_left (by omega)] at this
    refine ⟨hblen, ?_⟩
    rw [hblen, hpre, hbytes, ← List.take_add]
  cases t with
  | boolTrue =>
    cases h
    exact ⟨.bool true, trivial, rfl, rfl, rfl, rfl⟩
  | boolFalse =>
    cases h
    exact ⟨.bool false, trivial, rfl, rfl, rfl, rfl⟩
  | byte =>
    obtain ⟨hlen, h⟩ := bind_ensureBytes_eq_ok.mp h
    cases h
    exact ⟨.byte _, trivial, rfl, rfl, length_beBytes _ _,
      hfixed (beBytes_toNat_ofNat (by norm_num) hlen)⟩
  | short =>
    obtain ⟨hlen, h⟩ := bind_ensureBytes_eq_ok.mp h
    cases h
    exact ⟨.short _, trivial, rfl, rfl, length_beBytes _ _,
      hfixed (beBytes_toNat_ofNat (by norm_num) hlen)⟩
  | integer =>
    obtain ⟨hlen, h⟩ := bind_ensureBytes_eq_ok.mp h
    cases h
    exact ⟨.integer _, trivial, rfl, rfl, length_beBytes _ _,
      hfixed (beBytes_toNat_ofNat (by norm_num) hlen)⟩
  | long =>
    obtain ⟨hlen, h⟩ := bind_ensureBytes_eq_ok.mp h
    cases h
    exact ⟨.long _, trivial, rfl, rfl, length_beBytes _ _,
      hfixed (beBytes_toNat_ofNat (by norm_num) hlen)⟩
  | timestamp =>
    obtain ⟨hlen, h⟩ := bind_ensureBytes_eq_ok.mp h
    cases h
    exact ⟨.timestamp _, trivial, rfl, rfl, length_beBytes _ _,
      hfixed (beBytes_toNat_ofNat (by norm_num) hlen)⟩
  | byteArray =>
    obtain ⟨_, h⟩ := bind_ensureBytes_eq_ok.mp h
    obtain ⟨hlen, h⟩ := bind_ensureBytes_eq_ok.mp h
    cases h
    obtain ⟨hblen, hbytes⟩ := hvar hlen _ rfl
    refine ⟨.byteArray _, hblen.le.trans hlt, rfl, rfl, ?_, hfixed hbytes⟩
    simp only [HeaderValueOf.payload, List.length_append, length_beBytes, hblen]
  | string =>
    obtain ⟨_, h⟩ := bind_ensureBytes_eq_ok.mp h
    obtain ⟨hlen, h⟩ := bind_ensureBytes_eq_ok.mp h
    cases h
    obtain ⟨hblen, hbytes⟩ := hvar hlen _ rfl
    refine ⟨.string _, hblen.le.trans hlt, rfl, rfl, ?_, hfixed hbytes⟩
    simp only [HeaderValueOf.payload, List.length_append, length_beBytes, hblen]
  | uuid =>
    obtain ⟨hlen, h⟩ := bind_ensureBytes_eq_ok.mp h
    cases h
    exact ⟨.uuid _, trivial, rfl, rfl, by simp [HeaderValueOf.payload],
      hfixed (toList_ofFn_getD hlen)⟩

theorem parseHeader_encode_append (h : WireHeader) (rest : List UInt8) :
    parseHeader (h.encode ++ rest) = .ok (h.decoded, h.encode.length) := by
  have hpos := h.name_pos
  have hle := h.name_le
  have hcode : (UInt8.ofNat h.name.length).toNat = h.name.length := by
    rw [UInt8.toNat_ofNat']
    omega
  have hsplit : h.encode ++ rest = UInt8.ofNat h.name.length ::
      (h.name ++ h.value.valueType.code :: (h.value.payload ++ rest)) := by
    simp [WireHeader.encode]
  have hname : (h.name ++ h.value.valueType.code :: (h.value.payload ++ rest)).take h.name.length =
      h.name := List.take_left
  have hdrop : (h.name ++ h.value.valueType.code :: (h.value.payload ++ rest)).drop h.name.length =
      h.value.valueType.code :: (h.value.payload ++ rest) := List.drop_left
  rw [hsplit, parseHeader, hcode]
  simp only [if_neg (Nat.ne_of_gt hpos), hname, hdrop, tryFrom_code, bind, Except.bind,
    parseHeaderValue_payload_append h.value h.value_fits rest]
  rw [if_neg (by simp)]
  simp only [WireHeader.decoded, WireHeader.encode, List.length_append, List.length_cons,
    Except.ok.injEq, Prod.mk.injEq, true_and]
  omega

/-- A header the loop accepts is a wire header, decoded. -/
theorem encode_of_parseHeader {header : String × HeaderValue} {used : ℕ}
    (h : parseHeader data = .ok (header, used)) :
    ∃ w : WireHeader, w.decoded = header ∧ w.encode.length = used ∧
      w.encode ++ data.drop used = data := by
  cases data with
  | nil => simp [parseHeader] at h
  | cons nameLen data =>
    simp only [parseHeader] at h
    split_ifs at h with hzero hshort
    split at h
    next => simp at h
    next code rest hrest =>
      cases htype : HeaderValueType.tryFrom code with
      | error e => simp [htype, bind, Except.bind] at h
      | ok t =>
        cases hvalue : parseHeaderValue rest t with
        | error e => simp [htype, hvalue, bind, Except.bind] at h
        | ok p =>
          obtain ⟨value, valueLen⟩ := p
          simp only [htype, hvalue, bind, Except.bind, Except.ok.injEq, Prod.mk.injEq] at h
          obtain ⟨hheader, hused⟩ := h
          obtain ⟨v, hfits, hvt, hmap, hvlen, hvdata⟩ := payload_of_parseHeaderValue hvalue
          have hname : (data.take nameLen.toNat).length = nameLen.toNat := by
            rw [List.length_take]
            omega
          have hnameByte := nameLen.toNat_lt
          refine ⟨⟨data.take nameLen.toNat, v, by omega, by omega, hfits⟩, ?_, ?_, ?_⟩
          · simp only [WireHeader.decoded, hmap, hheader]
          · simp only [WireHeader.encode, List.length_append, List.length_cons, hname, hvlen]
            omega
          · have hcode : v.valueType.code = code := by rw [hvt, code_of_tryFrom htype]
            have htail : data.drop (nameLen.toNat + 1 + valueLen) = rest.drop valueLen := by
              rw [Nat.add_assoc, ← List.drop_drop, hrest, Nat.add_comm 1, List.drop_succ_cons]
            have hoff : used = (nameLen.toNat + 1 + valueLen) + 1 := by omega
            simp only [WireHeader.encode, hname, UInt8.ofNat_toNat, hoff, List.drop_succ_cons,
              htail, hcode, List.cons_append, List.append_assoc, hvdata]
            rw [← hrest, List.take_append_drop]

/-- The three ways one header can be rejected. -/
theorem parseHeader_error (h : parseHeader data = .error e) :
    (∃ rest, data = 0 :: rest) ∧ e = .headerParseFailed "头部名称长度不能为 0" ∨
      (∃ b, e = .invalidHeaderType b) ∨ ∃ needed available, e = .incomplete needed available := by
  cases data with
  | nil =>
    cases h
    exact .inr (.inr ⟨1, 0, rfl⟩)
  | cons nameLen data =>
    simp only [parseHeader] at h
    split_ifs at h with hzero hshort
    · cases h
      have hz : nameLen = 0 := UInt8.toNat.inj hzero
      exact .inl ⟨⟨data, by rw [hz]⟩, rfl⟩
    · cases h
      exact .inr (.inr ⟨_, _, rfl⟩)
    · split at h
      next =>
        cases h
        exact .inr (.inr ⟨_, _, rfl⟩)
      next code rest hrest =>
        cases htype : HeaderValueType.tryFrom code with
        | error e' =>
          simp only [htype, bind, Except.bind, Except.error.injEq] at h
          subst h
          unfold HeaderValueType.tryFrom at htype
          split at htype <;> simp only [reduceCtorEq, Except.error.injEq] at htype
          exact .inr (.inl ⟨code, htype.symm⟩)
        | ok t =>
          cases hvalue : parseHeaderValue rest t with
          | ok p => simp [htype, hvalue, bind, Except.bind] at h
          | error e' =>
            simp only [htype, hvalue, bind, Except.bind, Except.error.injEq] at h
            subst h
            refine .inr (.inr ?_)
            cases t <;> simp only [parseHeaderValue, ensureBytes, bind, Except.bind, reduceCtorEq] at hvalue <;>
              split_ifs at hvalue <;> simp at hvalue <;> exact ⟨_, _, hvalue.symm⟩

def encodeHeaders (hs : List WireHeader) : List UInt8 :=
  hs.flatMap WireHeader.encode

def insertHeaders (headers : Headers) (hs : List (String × HeaderValue)) : Headers :=
  hs.foldl (fun acc h => acc.insert h.1 h.2) headers

theorem length_le_length_encodeHeaders : hs.length ≤ (encodeHeaders hs).length := by
  induction hs with
  | nil => simp
  | cons h hs ih =>
    have hpos := h.length_encode_pos
    simp only [encodeHeaders, List.flatMap_cons, List.length_append, List.length_cons] at ih ⊢
    omega

theorem lt_length_of_drop_eq_append {data front tail : List UInt8}
    (hdata : data.drop offset = front ++ tail) (hfront : front ≠ []) : offset < data.length := by
  by_contra hge
  rw [List.drop_eq_nil_of_le (by omega)] at hdata
  exact hfront (List.append_eq_nil_iff.mp hdata.symm).1

theorem parseHeadersLoop_step {h : WireHeader} {tail : List UInt8}
    (hdata : data.drop offset = h.encode ++ tail) (fuel : ℕ) (headers : Headers) :
    parseHeadersLoop data data.length (fuel + 1) offset headers =
      parseHeadersLoop data data.length fuel (offset + h.encode.length)
        (headers.insert h.decoded.1 h.decoded.2) := by
  have hlt := lt_length_of_drop_eq_append hdata h.encode_ne_nil
  rw [parseHeadersLoop, if_pos hlt, if_neg (by omega), hdata, parseHeader_encode_append]
  rfl

theorem drop_add_of_drop_eq_append {data front tail : List UInt8}
    (hdata : data.drop offset = front ++ tail) : data.drop (offset + front.length) = tail := by
  rw [← List.drop_drop, hdata, List.drop_left]

theorem parseHeadersLoop_encodeHeaders {data tail : List UInt8}
    (hdata : data.drop offset = encodeHeaders hs ++ tail) (fuel : ℕ) (headers : Headers) :
    parseHeadersLoop data data.length (hs.length + fuel) offset headers =
      parseHeadersLoop data data.length fuel (offset + (encodeHeaders hs).length)
        (insertHeaders headers (hs.map WireHeader.decoded)) := by
  induction hs generalizing offset headers with
  | nil => simp [encodeHeaders, insertHeaders]
  | cons h hs ih =>
    have hcons : data.drop offset = h.encode ++ (encodeHeaders hs ++ tail) := by
      simpa [encodeHeaders, List.append_assoc] using hdata
    rw [List.length_cons, Nat.add_right_comm, parseHeadersLoop_step hcons,
      ih (drop_add_of_drop_eq_append hcons)]
    congr 1
    simp only [encodeHeaders, List.flatMap_cons, List.length_append]
    omega

theorem parseHeaders_of_loop {headers : Headers}
    (h : parseHeadersLoop data data.length data.length 0 ∅ = .ok (headers, offset)) :
    parseHeaders data data.length = .ok headers := by
  rw [parseHeaders, if_neg (Nat.lt_irrefl _), h]
  rfl

theorem parseHeadersLoop_block :
    parseHeadersLoop (encodeHeaders hs) (encodeHeaders hs).length (encodeHeaders hs).length 0 ∅ =
      .ok (insertHeaders ∅ (hs.map WireHeader.decoded), (encodeHeaders hs).length) := by
  have hloop (fuel : ℕ) :
      parseHeadersLoop (encodeHeaders hs) (encodeHeaders hs).length (hs.length + fuel) 0 ∅ =
        .ok (insertHeaders ∅ (hs.map WireHeader.decoded), (encodeHeaders hs).length) := by
    rw [parseHeadersLoop_encodeHeaders hs (show _ = encodeHeaders hs ++ [] by simp), Nat.zero_add]
    cases fuel with
    | zero => rfl
    | succ fuel => rw [parseHeadersLoop, if_neg (by omega)]
  obtain ⟨fuel, hfuel⟩ := Nat.exists_eq_add_of_le (length_le_length_encodeHeaders hs)
  rw [← hloop fuel, ← hfuel]

theorem parseHeaders_encodeHeaders :
    parseHeaders (encodeHeaders hs) (encodeHeaders hs).length =
      .ok (insertHeaders ∅ (hs.map WireHeader.decoded)) :=
  parseHeaders_of_loop (parseHeadersLoop_block hs)

/-- What the loop can do from an offset inside the block: end exactly at the end
of the block after a sequence of wire headers, or fail after one. -/
theorem parseHeadersLoop_cases (data : List UInt8) (fuel offset : ℕ) (headers : Headers)
    (hoffset : offset ≤ data.length) (hfuel : data.length ≤ offset + fuel) :
    (∃ hs : List WireHeader, data.drop offset = encodeHeaders hs ∧
      parseHeadersLoop data data.length fuel offset headers =
        .ok (insertHeaders headers (hs.map WireHeader.decoded), data.length)) ∨
    ∃ (hs : List WireHeader) (tail : List UInt8) (e : ParseError), tail ≠ [] ∧
      data.drop offset = encodeHeaders hs ++ tail ∧ parseHeader tail = .error e ∧
      parseHeadersLoop data data.length fuel offset headers = .error e := by
  induction fuel generalizing offset headers with
  | zero =>
    have hend : offset = data.length := by omega
    exact .inl ⟨[], by simp [hend, encodeHeaders], by rw [hend]; rfl⟩
  | succ fuel ih =>
    by_cases hlt : offset < data.length
    · cases hh : parseHeader (data.drop offset) with
      | error e =>
        refine .inr ⟨[], data.drop offset, e, ?_, rfl, hh, ?_⟩
        · rw [ne_eq, List.drop_eq_nil_iff]
          omega
        · rw [parseHeadersLoop, if_pos hlt, if_neg (by omega), hh]
          rfl
      | ok p =>
        obtain ⟨w, hw, hused, hdata⟩ := encode_of_parseHeader hh
        have hcons : data.drop offset = w.encode ++ data.drop (offset + w.encode.length) := by
          rw [← hdata, ← hused, List.drop_drop, hused]
        have hpos := w.length_encode_pos
        have hnext : offset + w.encode.length ≤ data.length := by
          have := congrArg List.length hcons
          simp only [List.length_drop, List.length_append] at this
          omega
        rcases ih (offset + w.encode.length) (headers.insert w.decoded.1 w.decoded.2) hnext
          (by omega) with ⟨hs, hrest, hok⟩ | ⟨hs, tail, e, htail, hrest, he, herr⟩
        · refine .inl ⟨w :: hs, ?_, ?_⟩
          · rw [hcons, hrest]
            rfl
          · rw [parseHeadersLoop_step hcons, hok]
            rfl
        · refine .inr ⟨w :: hs, tail, e, htail, ?_, he, ?_⟩
          · rw [hcons, hrest, ← List.append_assoc]
            rfl
          · rw [parseHeadersLoop_step hcons, herr]
    · have hend : offset = data.length := by omega
      refine .inl ⟨[], by simp [hend, encodeHeaders], ?_⟩
      rw [parseHeadersLoop, if_neg hlt, hend]
      rfl

theorem parseHeaders_of_loop_error
    (h : parseHeadersLoop data data.length data.length 0 ∅ = .error e) :
    parseHeaders data data.length = .error e := by
  rw [parseHeaders, if_neg (Nat.lt_irrefl _), h]
  rfl

theorem encodeHeaders_of_parseHeaders {headers : Headers}
    (h : parseHeaders data data.length = .ok headers) :
    ∃ hs : List WireHeader, data = encodeHeaders hs ∧
      headers = insertHeaders ∅ (hs.map WireHeader.decoded) := by
  rcases parseHeadersLoop_cases data data.length 0 ∅ (Nat.zero_le _) (by omega) with
    ⟨hs, hdata, hok⟩ | ⟨_, _, e, _, _, _, herr⟩
  · rw [parseHeaders_of_loop hok, Except.ok.injEq] at h
    exact ⟨hs, hdata, h.symm⟩
  · rw [parseHeaders_of_loop_error herr] at h
    cases h

theorem parseHeader_of_parseHeaders_error (h : parseHeaders data data.length = .error e) :
    ∃ (hs : List WireHeader) (tail : List UInt8), data = encodeHeaders hs ++ tail ∧
      parseHeader tail = .error e := by
  rcases parseHeadersLoop_cases data data.length 0 ∅ (Nat.zero_le _) (by omega) with
    ⟨_, _, hok⟩ | ⟨hs, tail, e', _, hdata, he, herr⟩
  · rw [parseHeaders_of_loop hok] at h
    cases h
  · rw [parseHeaders_of_loop_error herr, Except.error.injEq] at h
    exact ⟨hs, tail, hdata, h ▸ he⟩

def HasZeroLengthName (block : List UInt8) : Prop :=
  ∃ (hs : List WireHeader) (rest : List UInt8), block = encodeHeaders hs ++ 0 :: rest

theorem parseHeaders_of_hasZeroLengthName (h : HasZeroLengthName data) :
    parseHeaders data data.length = .error (.headerParseFailed "头部名称长度不能为 0") := by
  obtain ⟨hs, rest, hdata⟩ := h
  have hlen : hs.length + 1 ≤ data.length := by
    have := length_le_length_encodeHeaders hs
    rw [hdata, List.length_append, List.length_cons]
    omega
  obtain ⟨fuel, hfuel⟩ := Nat.exists_eq_add_of_le hlen
  have hdrop : data.drop (encodeHeaders hs).length = 0 :: rest := by
    rw [hdata, List.drop_left]
  have hlt : (encodeHeaders hs).length < data.length := by
    rw [hdata, List.length_append, List.length_cons]
    omega
  have hloop : parseHeadersLoop data data.length (hs.length + (fuel + 1)) 0 ∅ =
      .error (.headerParseFailed "头部名称长度不能为 0") := by
    rw [parseHeadersLoop_encodeHeaders hs (show data.drop 0 = _ from hdata), Nat.zero_add,
      parseHeadersLoop, if_pos hlt, if_neg (by omega), hdrop]
    rfl
  refine parseHeaders_of_loop_error ?_
  rw [← hloop]
  congr 1
  omega

/-- A rejected block either has a zero-length name where the loop stops, or stops
at an unknown value type or at a header cut off by the end of the block. -/
theorem parseHeaders_error_cases (h : parseHeaders data data.length = .error e) :
    HasZeroLengthName data ∧ e = .headerParseFailed "头部名称长度不能为 0" ∨
      ¬ HasZeroLengthName data ∧
        ((∃ b, e = .invalidHeaderType b) ∨ ∃ needed available, e = .incomplete needed available) := by
  obtain ⟨hs, tail, hdata, he⟩ := parseHeader_of_parseHeaders_error h
  rcases parseHeader_error he with ⟨⟨rest, htail⟩, heq⟩ | hother
  · exact .inl ⟨⟨hs, rest, htail ▸ hdata⟩, heq⟩
  · refine .inr ⟨fun hz => ?_, hother⟩
    rw [parseHeaders_of_hasZeroLengthName hz, Except.error.injEq] at h
    rcases hother with ⟨b, hb⟩ | ⟨needed, available, hb⟩ <;> rw [hb] at h <;> cases h

end KiroProxy.EventStream
