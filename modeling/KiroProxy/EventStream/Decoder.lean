import KiroProxy.EventStream.Frame

/-!
# The streaming decoder

`EventStreamDecoder` of `decoder.rs` buffers whatever chunks the transport
delivers and cuts frames off the front of the buffer. A parse error puts it in
the `recovering` state, where the iterator yields nothing until the next `feed`;
too many consecutive errors stop it for good.

A run alternates `feed` with draining the iterator. On a stream of well-formed
frames the outcome of a run depends only on the bytes, not on the cuts.
-/

namespace KiroProxy.EventStream

def defaultMaxBufferSize : ℕ := 16 * 1024 * 1024

def defaultMaxErrors : ℕ := 5

inductive DecoderState where
  | ready | parsing | recovering | stopped
deriving DecidableEq, Repr

structure EventStreamDecoder where
  buffer : List UInt8
  state : DecoderState
  framesDecoded : ℕ
  errorCount : ℕ
  maxErrors : ℕ
  maxBufferSize : ℕ
  bytesSkipped : ℕ
deriving DecidableEq

namespace EventStreamDecoder

def new : EventStreamDecoder where
  buffer := []
  state := .ready
  framesDecoded := 0
  errorCount := 0
  maxErrors := defaultMaxErrors
  maxBufferSize := defaultMaxBufferSize
  bytesSkipped := 0

def feed (d : EventStreamDecoder) (data : List UInt8) : ParseResult Unit × EventStreamDecoder :=
  let newSize := d.buffer.length + data.length
  if newSize > d.maxBufferSize then (.error (.bufferOverflow newSize d.maxBufferSize), d)
  else
    (.ok (), { d with
      buffer := d.buffer ++ data
      state := if d.state = .recovering then .ready else d.state })

def skip (d : EventStreamDecoder) (n : ℕ) : EventStreamDecoder :=
  { d with buffer := d.buffer.drop n, bytesSkipped := d.bytesSkipped + n }

def tryRecover (d : EventStreamDecoder) (error : ParseError) : EventStreamDecoder :=
  if d.buffer = [] then d
  else
    match error with
    | .preludeCrcMismatch _ _ | .messageTooSmall _ _ | .messageTooLarge _ _ => d.skip 1
    | .messageCrcMismatch _ _ | .headerParseFailed _ =>
      if d.buffer.length ≥ preludeSize then
        let totalLength := u32At d.buffer 0
        if totalLength ≥ 16 ∧ totalLength ≤ d.buffer.length then d.skip totalLength else d.skip 1
      else d.skip 1
    | _ => d.skip 1

def pendingBytes (d : EventStreamDecoder) : ℕ := d.buffer.length

def isCleanEof (d : EventStreamDecoder) : Bool := d.buffer.isEmpty

section

variable (crc32 : List UInt8 → UInt32)

def decode (d : EventStreamDecoder) : ParseResult (Option Frame) × EventStreamDecoder :=
  if d.state = .stopped then (.error (.tooManyErrors d.errorCount "解码器已停止"), d)
  else if d.buffer = [] then (.ok none, { d with state := .ready })
  else
    match parseFrame crc32 d.buffer with
    | .ok (some (frame, consumed)) =>
      (.ok (some frame), { d with
        buffer := d.buffer.drop consumed
        state := .ready
        framesDecoded := d.framesDecoded + 1
        errorCount := 0 })
    | .ok none => (.ok none, { d with state := .ready })
    | .error e =>
      let d := { d with state := .parsing, errorCount := d.errorCount + 1 }
      if d.errorCount ≥ d.maxErrors then
        (.error (.tooManyErrors d.errorCount e.display), { d with state := .stopped })
      else (.error e, { d.tryRecover e with state := .recovering })

/-- `DecodeIter::next` -/
def next (d : EventStreamDecoder) : Option (ParseResult Frame) × EventStreamDecoder :=
  match d.state with
  | .stopped => (none, d)
  | .recovering => (none, d)
  | _ =>
    match d.decode crc32 with
    | (.ok (some frame), d) => (some (.ok frame), d)
    | (.ok none, d) => (none, d)
    | (.error e, d) => (some (.error e), d)

/-- The items of at most `fuel` calls of the iterator. -/
def drainLoop : ℕ → EventStreamDecoder → List (ParseResult Frame) × EventStreamDecoder
  | 0, d => ([], d)
  | fuel + 1, d =>
    match d.next crc32 with
    | (none, d) => ([], d)
    | (some item, d) =>
      let (items, d) := drainLoop fuel d
      (item :: items, d)

/-- Iterating until the iterator ends. Every item but the last shortens the
buffer, so the buffer's length bounds the number of calls. -/
def drain (d : EventStreamDecoder) : List (ParseResult Frame) × EventStreamDecoder :=
  drainLoop crc32 (d.buffer.length + 2) d

/-- What a run reports: the result of every `feed` and every item drained. -/
structure Run where
  feeds : List (ParseResult Unit)
  items : List (ParseResult Frame)
  decoder : EventStreamDecoder

def run (d : EventStreamDecoder) : List (List UInt8) → Run
  | [] => ⟨[], [], d⟩
  | chunk :: chunks =>
    let (fed, d) := d.feed chunk
    let (items, d) := d.drain crc32
    let rest := run d chunks
    ⟨fed :: rest.feeds, items ++ rest.items, rest.decoder⟩

end

variable {d : EventStreamDecoder} (crc32 : List UInt8 → UInt32)

theorem feed_of_le {data : List UInt8} (h : d.buffer.length + data.length ≤ d.maxBufferSize) :
    d.feed data = (.ok (), { d with
      buffer := d.buffer ++ data
      state := if d.state = .recovering then .ready else d.state }) := by
  simp only [feed, if_neg (Nat.not_lt.mpr h)]

theorem feed_eq_ok_iff {data : List UInt8} :
    (d.feed data).1 = .ok () ↔ d.buffer.length + data.length ≤ d.maxBufferSize := by
  by_cases h : d.buffer.length + data.length ≤ d.maxBufferSize
  · simp [feed_of_le h, h]
  · simp [feed, Nat.lt_of_not_le h, h]

/-- Everything `decode` can do on a decoder that is not stopped. -/
theorem decode_cases (hstate : d.state ≠ .stopped) :
    d.decode crc32 = (.ok none, { d with state := .ready }) ∨
    (∃ frame consumed, parseFrame crc32 d.buffer = .ok (some (frame, consumed)) ∧
      d.decode crc32 = (.ok (some frame), { d with
        buffer := d.buffer.drop consumed
        state := .ready
        framesDecoded := d.framesDecoded + 1
        errorCount := 0 })) ∨
    ∃ e, parseFrame crc32 d.buffer = .error e ∧ d.buffer ≠ [] ∧
      (d.maxErrors ≤ d.errorCount + 1 ∧
        d.decode crc32 = (.error (.tooManyErrors (d.errorCount + 1) e.display),
          { d with state := .stopped, errorCount := d.errorCount + 1 }) ∨
      d.errorCount + 1 < d.maxErrors ∧
        d.decode crc32 = (.error e,
          { ({ d with state := .parsing, errorCount := d.errorCount + 1 }).tryRecover e with
            state := .recovering })) := by
  by_cases hbuffer : d.buffer = []
  · exact .inl (by simp only [decode, if_neg hstate, if_pos hbuffer])
  cases hparse : parseFrame crc32 d.buffer with
  | ok result =>
    cases result with
    | none => exact .inl (by simp only [decode, if_neg hstate, if_neg hbuffer, hparse])
    | some p =>
      exact .inr (.inl ⟨p.1, p.2, rfl, by simp only [decode, if_neg hstate, if_neg hbuffer, hparse]⟩)
  | error e =>
    refine .inr (.inr ⟨e, rfl, hbuffer, ?_⟩)
    by_cases hmax : d.maxErrors ≤ d.errorCount + 1
    · refine .inl ⟨hmax, ?_⟩
      simp only [decode, if_neg hstate, if_neg hbuffer, hparse, ge_iff_le, if_pos hmax]
    · refine .inr ⟨Nat.lt_of_not_le hmax, ?_⟩
      simp only [decode, if_neg hstate, if_neg hbuffer, hparse, ge_iff_le, if_neg hmax]

theorem next_of_active (hstop : d.state ≠ .stopped) (hrec : d.state ≠ .recovering) :
    d.next crc32 = match d.decode crc32 with
      | (.ok (some frame), d) => (some (.ok frame), d)
      | (.ok none, d) => (none, d)
      | (.error e, d) => (some (.error e), d) := by
  unfold next
  cases hs : d.state <;> simp_all

/-- An upper bound on the items still to come. -/
def rank (d : EventStreamDecoder) : ℕ :=
  if d.state = .stopped ∨ d.state = .recovering then 0 else d.buffer.length + 1

theorem rank_lt_of_next {crc32 : List UInt8 → UInt32} {d d' : EventStreamDecoder}
    {item : ParseResult Frame} (h : d.next crc32 = (some item, d')) : d'.rank < d.rank := by
  by_cases hstop : d.state = .stopped
  · simp [next, hstop] at h
  by_cases hrec : d.state = .recovering
  · simp [next, hrec] at h
  have hrank : d.rank = d.buffer.length + 1 := by simp [rank, hstop, hrec]
  rw [next_of_active crc32 hstop hrec] at h
  rcases decode_cases crc32 hstop with hd | ⟨frame, consumed, hparse, hd⟩ |
    ⟨e, -, -, ⟨-, hd⟩ | ⟨-, hd⟩⟩ <;> rw [hd] at h <;>
    simp only [Prod.mk.injEq, reduceCtorEq, false_and] at h
  · obtain ⟨-, rfl⟩ := h
    obtain ⟨block, rest, hbuffer, -, hconsumed, -⟩ := frameBytes_of_parseFrame hparse
    have hpos : 0 < consumed := by
      rw [hconsumed, length_frameBytes, minMessageSize]
      omega
    have hle : consumed ≤ d.buffer.length := by
      rw [hbuffer, List.length_append, hconsumed]
      omega
    rw [hrank]
    simp only [rank, reduceCtorEq, or_self, if_false, List.length_drop]
    omega
  · obtain ⟨-, rfl⟩ := h
    rw [hrank]
    simp [rank]
  · obtain ⟨-, rfl⟩ := h
    rw [hrank]
    simp [rank]

theorem next_eq_none_again {crc32 : List UInt8 → UInt32} {d d' : EventStreamDecoder}
    (h : d.next crc32 = (none, d')) : (d'.next crc32).1 = none := by
  by_cases hstop : d.state = .stopped
  · simp only [next, hstop, Prod.mk.injEq, true_and] at h
    simp [next, ← h, hstop]
  by_cases hrec : d.state = .recovering
  · simp only [next, hrec, Prod.mk.injEq, true_and] at h
    simp [next, ← h, hrec]
  rw [next_of_active crc32 hstop hrec] at h
  rcases decode_cases crc32 hstop with hd | ⟨_, _, _, hd⟩ | ⟨_, _, _, ⟨_, hd⟩ | ⟨_, hd⟩⟩ <;>
    rw [hd] at h <;> simp only [Prod.mk.injEq, reduceCtorEq, false_and, true_and] at h
  -- `decode` reads only the buffer, so a second call finds the same unfinished frame
  have hagain : decode crc32 { d with state := .ready } = (.ok none, { d with state := .ready }) := by
    have hdecode := hd
    simp only [decode, if_neg hstop] at hdecode
    simp only [decode, reduceCtorEq, if_false]
    split at hdecode
    next hbuffer => rw [if_pos hbuffer]
    next hbuffer =>
      rw [if_neg hbuffer]
      split at hdecode <;> simp_all
  subst h
  rw [next_of_active crc32 (by simp) (by simp), hagain]

theorem drainLoop_exhausts (fuel : ℕ) (d : EventStreamDecoder) (h : d.rank < fuel) :
    ((drainLoop crc32 fuel d).2.next crc32).1 = none := by
  induction fuel generalizing d with
  | zero => omega
  | succ fuel ih =>
    rcases hnext : d.next crc32 with ⟨_ | item, d'⟩
    · simp only [drainLoop, hnext]
      exact next_eq_none_again hnext
    · have hlt := rank_lt_of_next hnext
      simp only [drainLoop, hnext]
      exact ih d' (by omega)

/-- Draining stops because the iterator has ended, never for lack of fuel. -/
theorem drain_exhausts (d : EventStreamDecoder) : ((d.drain crc32).2.next crc32).1 = none := by
  refine drainLoop_exhausts crc32 _ d ?_
  unfold rank
  split_ifs <;> omega

end EventStreamDecoder

/-- A frame with the layout's length fields and checksums, of an admissible size
and with a header block the parser accepts. -/
structure WellFormedFrame (crc32 : List UInt8 → UInt32) where
  block : List UInt8
  frame : Frame
  size_le : minMessageSize + block.length + frame.payload.length ≤ maxMessageSize
  headers_ok : parseHeaders block block.length = .ok frame.headers

namespace WellFormedFrame

variable {crc32 : List UInt8 → UInt32}

def bytes (f : WellFormedFrame crc32) : List UInt8 := frameBytes crc32 f.block f.frame.payload

def toRaw (f : WellFormedFrame crc32) : RawFrame :=
  .ofParts crc32 f.block f.frame.payload f.size_le

variable (f : WellFormedFrame crc32)

theorem bytes_toRaw : f.toRaw.bytes = f.bytes :=
  RawFrame.bytes_ofParts crc32 f.block f.frame.payload f.size_le

theorem length_bytes_pos : 0 < f.bytes.length := by
  rw [bytes, length_frameBytes, minMessageSize]
  omega

theorem parseFrame_append (rest : List UInt8) :
    parseFrame crc32 (f.bytes ++ rest) = .ok (some (f.frame, f.bytes.length)) :=
  parseFrame_frameBytes_append crc32 f.size_le f.headers_ok rest

theorem parseFrame_prefix {p : List UInt8} (hp : p <+: f.bytes) (hlt : p.length < f.bytes.length) :
    parseFrame crc32 p = .ok none := by
  rw [← f.bytes_toRaw] at hp hlt
  exact parseFrame_eq_none_of_prefix crc32 hp (by rwa [RawFrame.length_bytes] at hlt)

end WellFormedFrame

namespace EventStreamDecoder

variable {crc32 : List UInt8 → UInt32}

def streamBytes (frames : List (WellFormedFrame crc32)) : List UInt8 :=
  frames.flatMap WellFormedFrame.bytes

variable {d : EventStreamDecoder} {e : ParseError}

theorem next_incomplete (hready : d.state = .ready)
    (hnone : d.buffer = [] ∨ parseFrame crc32 d.buffer = .ok none) : d.next crc32 = (none, d) := by
  have hdecode : d.decode crc32 = (.ok none, d) := by
    obtain ⟨buffer, state, _, _, _, _, _⟩ := d
    simp only at hready hnone
    subst hready
    rcases hnone with hnil | hnone
    · simp [decode, hnil]
    · by_cases hnil : buffer = []
      · simp [decode, hnil]
      · simp [decode, hnil, hnone]
  rw [next_of_active crc32 (by simp [hready]) (by simp [hready]), hdecode]

theorem next_frame (hready : d.state = .ready) (f : WellFormedFrame crc32) {rest : List UInt8}
    (hbuffer : d.buffer = f.bytes ++ rest) :
    d.next crc32 = (some (.ok f.frame), { d with
      buffer := rest
      framesDecoded := d.framesDecoded + 1
      errorCount := 0 }) := by
  have hne : f.bytes ++ rest ≠ [] := by
    simp [List.ne_nil_of_length_pos f.length_bytes_pos]
  have hdecode : d.decode crc32 = (.ok (some f.frame), { d with
      buffer := rest
      framesDecoded := d.framesDecoded + 1
      errorCount := 0 }) := by
    simp only [decode, hready, reduceCtorEq, if_false, if_neg hne, hbuffer, f.parseFrame_append,
      List.drop_left]
  rw [next_of_active crc32 (by simp [hready]) (by simp [hready]), hdecode]

/-- The decoder between two feeds of a well-formed stream: `todo` are the frames
not yet yielded and `later` the bytes not yet fed. -/
structure InStream (d : EventStreamDecoder) (todo : List (WellFormedFrame crc32))
    (later : List UInt8) : Prop where
  ready : d.state = .ready
  stream : d.buffer ++ later = streamBytes todo

/-- Draining yields the complete frames at the front of the buffer and keeps the
incomplete one. -/
theorem drainLoop_inStream (todo : List (WellFormedFrame crc32)) (fuel : ℕ)
    (d : EventStreamDecoder) (later : List UInt8) (hd : InStream d todo later)
    (hfuel : d.buffer.length < fuel) :
    ∃ done rest : List (WellFormedFrame crc32), todo = done ++ rest ∧
      (drainLoop crc32 fuel d).1 = done.map (fun f => .ok f.frame) ∧
      InStream (drainLoop crc32 fuel d).2 rest later ∧
      (∀ f ∈ rest.head?, (drainLoop crc32 fuel d).2.buffer.length < f.bytes.length) ∧
      (drainLoop crc32 fuel d).2.framesDecoded = d.framesDecoded + done.length := by
  obtain ⟨hready, hstream⟩ := hd
  induction todo generalizing fuel d with
  | nil =>
    have hnil : d.buffer = [] := (List.append_eq_nil_iff.mp hstream).1
    obtain ⟨fuel, rfl⟩ := Nat.exists_eq_succ_of_ne_zero (Nat.ne_zero_of_lt hfuel)
    simp only [drainLoop, next_incomplete hready (.inl hnil)]
    exact ⟨[], [], rfl, rfl, ⟨hready, hstream⟩, by simp, rfl⟩
  | cons f todo ih =>
    obtain ⟨fuel, rfl⟩ := Nat.exists_eq_succ_of_ne_zero (Nat.ne_zero_of_lt hfuel)
    have hcons : d.buffer ++ later = f.bytes ++ streamBytes todo := hstream
    by_cases hlt : d.buffer.length < f.bytes.length
    · have hpre : d.buffer <+: f.bytes :=
        List.prefix_of_prefix_length_le ⟨later, hcons⟩ (List.prefix_append _ _) hlt.le
      simp only [drainLoop, next_incomplete hready (.inr (f.parseFrame_prefix hpre hlt))]
      exact ⟨[], f :: todo, rfl, rfl, ⟨hready, hstream⟩, by simpa using hlt, rfl⟩
    · have hpre : f.bytes <+: d.buffer :=
        List.prefix_of_prefix_length_le (List.prefix_append _ _) ⟨later, hcons⟩ (by omega)
      obtain ⟨rest, hrest⟩ := hpre
      have hpos := f.length_bytes_pos
      have hstream' : rest ++ later = streamBytes todo := by
        rw [← hrest, List.append_assoc] at hcons
        exact List.append_cancel_left hcons
      have hfuel' : rest.length < fuel := by
        rw [← hrest, List.length_append] at hfuel
        omega
      obtain ⟨done, todo', htodo, hitems, hstate, hhead, hcount⟩ := ih fuel
        { d with buffer := rest, framesDecoded := d.framesDecoded + 1, errorCount := 0 }
        hfuel' hready hstream'
      simp only [drainLoop, next_frame hready f hrest.symm]
      refine ⟨f :: done, todo', by rw [htodo]; rfl, by rw [hitems]; rfl, hstate, hhead, ?_⟩
      rw [hcount, List.length_cons, Nat.add_assoc, Nat.add_comm 1]

theorem streamBytes_eq_nil {frames : List (WellFormedFrame crc32)}
    (h : streamBytes frames = []) : frames = [] := by
  cases frames with
  | nil => rfl
  | cons f frames =>
    have hlen := congrArg List.length h
    have hpos := f.length_bytes_pos
    simp only [streamBytes, List.flatMap_cons, List.length_append, List.length_nil] at hlen
    omega

theorem inStream_feed {todo : List (WellFormedFrame crc32)} {chunk later : List UInt8}
    (hstate : d.state = .ready ∨ d.state = .recovering)
    (hstream : d.buffer ++ (chunk ++ later) = streamBytes todo) (hfeed : (d.feed chunk).1 = .ok ()) :
    InStream (d.feed chunk).2 todo later ∧ (d.feed chunk).2.framesDecoded = d.framesDecoded := by
  rw [feed_of_le (feed_eq_ok_iff.mp hfeed)]
  refine ⟨⟨?_, ?_⟩, rfl⟩
  · rcases hstate with hs | hs <;> simp [hs]
  · rw [List.append_assoc]
    exact hstream

/-- A run over any cuts of a well-formed stream yields its frames. -/
theorem run_stream (chunks : List (List UInt8)) (todo : List (WellFormedFrame crc32))
    (d : EventStreamDecoder) (hstate : d.state = .ready ∨ d.state = .recovering)
    (hstream : d.buffer ++ chunks.flatten = streamBytes todo)
    (hlast : chunks = [] → todo = [])
    (hfeeds : ∀ r ∈ (run crc32 d chunks).feeds, r = .ok ()) :
    (run crc32 d chunks).items = todo.map (fun f => .ok f.frame) ∧
      (run crc32 d chunks).decoder.framesDecoded = d.framesDecoded + todo.length ∧
      (run crc32 d chunks).decoder.buffer = [] := by
  induction chunks generalizing todo d with
  | nil =>
    obtain rfl := hlast rfl
    exact ⟨rfl, rfl, (List.append_eq_nil_iff.mp hstream).1⟩
  | cons chunk chunks ih =>
    have hfeed : (d.feed chunk).1 = .ok () := hfeeds _ (by simp [run])
    obtain ⟨hin, hfed⟩ := inStream_feed hstate hstream hfeed
    obtain ⟨done, rest, rfl, hitems, hdrained, hhead, hcount⟩ :=
      drainLoop_inStream todo _ _ _ hin (Nat.lt_add_of_pos_right (Nat.zero_lt_two))
    have hrest : chunks = [] → rest = [] := by
      rintro rfl
      cases rest with
      | nil => rfl
      | cons f rest =>
        have hlt := hhead f rfl
        have hlen := congrArg List.length hdrained.stream
        simp only [streamBytes, List.flatMap_cons, List.length_append, List.flatten_nil,
          List.length_nil] at hlen
        omega
    obtain ⟨hitems', hcount', hbuffer'⟩ := ih rest _ (.inl hdrained.ready) hdrained.stream hrest
      (fun r hr => hfeeds r (by simpa [run, drain] using .inr hr))
    refine ⟨?_, ?_, hbuffer'⟩
    · simp only [run, drain, hitems, hitems', List.map_append]
    · simp only [run, drain, hcount', hcount, hfed, List.length_append]
      omega

/-- Whatever way a well-formed stream is cut into chunks, a fresh decoder yields
exactly its frames, in order and without an error item. -/
theorem run_new_yields_frames (frames : List (WellFormedFrame crc32)) (chunks : List (List UInt8))
    (hcut : chunks.flatten = (frames.map WellFormedFrame.bytes).flatten)
    (hfeeds : ∀ r ∈ (run crc32 new chunks).feeds, r = .ok ()) :
    (run crc32 new chunks).items = frames.map (fun f => .ok f.frame) ∧
      (run crc32 new chunks).decoder.framesDecoded = frames.length ∧
      (run crc32 new chunks).decoder.isCleanEof = true := by
  have hstream : streamBytes frames = chunks.flatten := by
    rw [hcut, streamBytes, List.flatMap_def]
  obtain ⟨hitems, hcount, hbuffer⟩ := run_stream chunks frames new (.inl rfl) hstream.symm
    (fun hnil => streamBytes_eq_nil (by rw [hstream, hnil, List.flatten_nil])) hfeeds
  refine ⟨hitems, ?_, ?_⟩
  · rw [hcount]
    exact Nat.zero_add _
  · rw [isCleanEof, hbuffer]
    rfl

def emptyObjectFrame : WellFormedFrame crc32IsoHdlc where
  block := []
  frame := ⟨∅, [0x7B, 0x7D]⟩
  size_le := by decide
  headers_ok := rfl

theorem run_new_yields_frames_cut_in_prelude :
    (run crc32IsoHdlc new [emptyObjectFrame.bytes.take 5, [],
      emptyObjectFrame.bytes.drop 5 ++ emptyObjectFrame.bytes]).items =
        [.ok emptyObjectFrame.frame, .ok emptyObjectFrame.frame] :=
  (run_new_yields_frames [emptyObjectFrame, emptyObjectFrame]
    [emptyObjectFrame.bytes.take 5, [], emptyObjectFrame.bytes.drop 5 ++ emptyObjectFrame.bytes]
    (by decide +kernel) (by decide +kernel)).1

/-- The buffer starts with a complete frame of admissible length whose prelude
checksum is right. -/
def CompleteFrame (crc32 : List UInt8 → UInt32) (buffer : List UInt8) : Prop :=
  minMessageSize ≤ u32At buffer 0 ∧ u32At buffer 0 ≤ maxMessageSize ∧
    u32At buffer 0 ≤ buffer.length ∧ crc32 (buffer.take 8) = UInt32.ofNat (u32At buffer 8)

def BadMessageCrc (crc32 : List UInt8 → UInt32) (buffer : List UInt8) : Prop :=
  crc32 (buffer.take (u32At buffer 0 - 4)) ≠ UInt32.ofNat (u32At buffer (u32At buffer 0 - 4))

def HeadersOutOfBounds (buffer : List UInt8) : Prop :=
  preludeSize + u32At buffer 4 > u32At buffer 0 - 4

def headerBlock (buffer : List UInt8) : List UInt8 :=
  slice buffer preludeSize (preludeSize + u32At buffer 4)

theorem length_headerBlock {buffer : List UInt8} (hcomplete : CompleteFrame crc32 buffer)
    (hbound : ¬ HeadersOutOfBounds buffer) : (headerBlock buffer).length = u32At buffer 4 := by
  obtain ⟨hmin, -, hlen, -⟩ := hcomplete
  unfold HeadersOutOfBounds at hbound
  rw [headerBlock, length_slice (by omega), Nat.add_sub_cancel_left]

/-- How a complete frame is rejected, and whether its error is one of those for
which `tryRecover` drops the frame. -/
theorem parseFrame_error_cases {buffer : List UInt8} (hcomplete : CompleteFrame crc32 buffer)
    (h : parseFrame crc32 buffer = .error e) :
    (BadMessageCrc crc32 buffer ∨ HeadersOutOfBounds buffer ∨
        HasZeroLengthName (headerBlock buffer)) ∧
      ((∃ expected actual, e = .messageCrcMismatch expected actual) ∨
        ∃ message, e = .headerParseFailed message) ∨
    ¬ (BadMessageCrc crc32 buffer ∨ HeadersOutOfBounds buffer ∨
        HasZeroLengthName (headerBlock buffer)) ∧
      ((∃ b, e = .invalidHeaderType b) ∨ ∃ needed available, e = .incomplete needed available) := by
  have hcomplete' := hcomplete
  obtain ⟨hmin, hmax, hlen, hprelude⟩ := hcomplete'
  have h16 : 16 ≤ u32At buffer 0 := hmin
  simp only [parseFrame] at h
  rw [if_neg (by rw [preludeSize]; omega), if_neg (by omega), if_neg (by omega),
    if_neg (by omega), if_neg (not_not.mpr hprelude)] at h
  by_cases hmsg : crc32 (buffer.take (u32At buffer 0 - 4)) ≠
      UInt32.ofNat (u32At buffer (u32At buffer 0 - 4))
  · rw [if_pos hmsg, Except.error.injEq] at h
    exact .inl ⟨.inl hmsg, .inl ⟨_, _, h.symm⟩⟩
  rw [if_neg hmsg] at h
  by_cases hbound : preludeSize + u32At buffer 4 > u32At buffer 0 - 4
  · rw [if_pos hbound, Except.error.injEq] at h
    exact .inl ⟨.inr (.inl hbound), .inr ⟨_, h.symm⟩⟩
  rw [if_neg hbound] at h
  have hblock := length_headerBlock hcomplete hbound
  cases hheaders : parseHeaders (headerBlock buffer) (headerBlock buffer).length with
  | ok headers =>
    rw [hblock, headerBlock] at hheaders
    rw [hheaders] at h
    cases h
  | error e' =>
    have he : e' = e := by
      rw [hblock, headerBlock] at hheaders
      rw [hheaders] at h
      exact Except.error.inj h
    subst he
    rcases parseHeaders_error_cases hheaders with ⟨hzero, he⟩ | ⟨hzero, he⟩
    · exact .inl ⟨.inr (.inr hzero), .inr ⟨_, he⟩⟩
    · refine .inr ⟨?_, he⟩
      rintro (hmsg' | hbound' | hzero')
      · exact hmsg hmsg'
      · exact hbound hbound'
      · exact hzero hzero'

/-- The decode call that reports the error drops exactly the rejected frame, and
whatever is fed next, the valid frames that follow are yielded. -/
def SkipsRejectedFrame (crc32 : List UInt8 → UInt32) (d : EventStreamDecoder) : Prop :=
  (d.decode crc32).2.buffer = d.buffer.drop (u32At d.buffer 0) ∧
  ∀ (frames : List (WellFormedFrame crc32)) (chunk : List UInt8) (chunks : List (List UInt8)),
    d.buffer.drop (u32At d.buffer 0) ++ (chunk :: chunks).flatten =
      (frames.map WellFormedFrame.bytes).flatten →
    (∀ r ∈ (run crc32 (d.decode crc32).2 (chunk :: chunks)).feeds, r = .ok ()) →
    (run crc32 (d.decode crc32).2 (chunk :: chunks)).items = frames.map (fun f => .ok f.frame)

theorem tryRecover_skips_frame (hmin : minMessageSize ≤ u32At d.buffer 0)
    (hlen : u32At d.buffer 0 ≤ d.buffer.length)
    (he : (∃ expected actual, e = .messageCrcMismatch expected actual) ∨
      ∃ message, e = .headerParseFailed message) : d.tryRecover e = d.skip (u32At d.buffer 0) := by
  have h16 : 16 ≤ u32At d.buffer 0 := hmin
  have hne : d.buffer ≠ [] := List.ne_nil_of_length_pos (by omega)
  rcases he with ⟨_, _, rfl⟩ | ⟨_, rfl⟩ <;>
    simp only [tryRecover, if_neg hne, ge_iff_le] <;>
    rw [if_pos (by rw [preludeSize]; omega), if_pos ⟨h16, hlen⟩]

theorem tryRecover_skips_byte (hne : d.buffer ≠ [])
    (he : (∃ b, e = .invalidHeaderType b) ∨ ∃ needed available, e = .incomplete needed available) :
    d.tryRecover e = d.skip 1 := by
  rcases he with ⟨_, rfl⟩ | ⟨_, _, rfl⟩ <;> simp only [tryRecover, if_neg hne]

/-- A rejected frame is dropped as a whole exactly when its checksum is wrong, its
header block exceeds the frame, or its header loop stops at a zero-length name.
Unknown value types and truncated headers lose one byte instead. -/
theorem skipsRejectedFrame_iff {d : EventStreamDecoder} {e : ParseError}
    (hstate : d.state ≠ .stopped) (hcomplete : CompleteFrame crc32 d.buffer)
    (hreject : parseFrame crc32 d.buffer = .error e) (hcount : d.errorCount + 1 < d.maxErrors) :
    SkipsRejectedFrame crc32 d ↔
      BadMessageCrc crc32 d.buffer ∨ HeadersOutOfBounds d.buffer ∨
        HasZeroLengthName (headerBlock d.buffer) := by
  have h16 : 16 ≤ u32At d.buffer 0 := hcomplete.1
  have hlen : u32At d.buffer 0 ≤ d.buffer.length := hcomplete.2.2.1
  have hne : d.buffer ≠ [] := List.ne_nil_of_length_pos (by omega)
  have hdecode : d.decode crc32 = (.error e,
      { ({ d with state := .parsing, errorCount := d.errorCount + 1 }).tryRecover e with
        state := .recovering }) := by
    rcases decode_cases crc32 hstate with hd | ⟨_, _, hok, -⟩ | ⟨e', he', -, ⟨hmax, -⟩ | ⟨-, hd⟩⟩
    · simp only [decode, if_neg hstate, if_neg hne, hreject] at hd
      split_ifs at hd <;> simp at hd
    · rw [hreject] at hok
      cases hok
    · omega
    · rw [hreject, Except.error.injEq] at he'
      rw [hd, he']
  rcases parseFrame_error_cases hcomplete hreject with ⟨hcond, he⟩ | ⟨hcond, he⟩
  · refine iff_of_true ?_ hcond
    have hskip := tryRecover_skips_frame
      (d := { d with state := .parsing, errorCount := d.errorCount + 1 }) hcomplete.1 hlen he
    rw [SkipsRejectedFrame, hdecode, hskip]
    refine ⟨rfl, fun frames chunk chunks hstream hfeeds => ?_⟩
    rw [← List.flatMap_def] at hstream
    exact (run_stream (chunk :: chunks) frames _ (.inr rfl) hstream (by simp) hfeeds).1
  · refine iff_of_false ?_ hcond
    have hskip := tryRecover_skips_byte
      (d := { d with state := .parsing, errorCount := d.errorCount + 1 }) hne he
    rw [SkipsRejectedFrame, hdecode, hskip]
    rintro ⟨hbuffer, -⟩
    have hlength := congrArg List.length hbuffer
    simp only [skip, List.length_drop] at hlength
    omega

def buffered (bytes : List UInt8) : EventStreamDecoder :=
  { new with buffer := bytes }

def zeroLengthNameBuffer : List UInt8 :=
  frameBytes crc32IsoHdlc [0] [0x7B, 0x7D] ++ emptyObjectFrame.bytes

theorem skipsRejectedFrame_zeroLengthName :
    SkipsRejectedFrame crc32IsoHdlc (buffered zeroLengthNameBuffer) :=
  (skipsRejectedFrame_iff (e := .headerParseFailed "头部名称长度不能为 0") (by decide)
    (by unfold CompleteFrame; decide +kernel) (by decide +kernel) (by decide)).2
    (.inr (.inr ⟨[], [], by decide +kernel⟩))

/-- A frame whose only header `x` has the unknown value type `0xFF`, before a valid frame. -/
def unknownTypeBuffer : List UInt8 :=
  frameBytes crc32IsoHdlc [1, 0x78, 0xFF] [] ++ emptyObjectFrame.bytes

theorem not_skipsRejectedFrame_unknownType :
    (buffered unknownTypeBuffer).state ≠ .stopped ∧
    CompleteFrame crc32IsoHdlc (buffered unknownTypeBuffer).buffer ∧
    parseFrame crc32IsoHdlc (buffered unknownTypeBuffer).buffer = .error (.invalidHeaderType 0xFF) ∧
    (buffered unknownTypeBuffer).errorCount + 1 < (buffered unknownTypeBuffer).maxErrors ∧
    ¬ SkipsRejectedFrame crc32IsoHdlc (buffered unknownTypeBuffer) := by
  refine ⟨by decide, by unfold CompleteFrame; decide +kernel, by decide +kernel, by decide, ?_⟩
  rintro ⟨hbuffer, -⟩
  exact absurd hbuffer (by decide +kernel)

end EventStreamDecoder

end KiroProxy.EventStream
