import KiroProxy.EventStream.Decoder

/-!
# The bytes of a decoder

Every byte that a feed was allowed to add is still in the buffer, was cut off with a frame, or was
skipped. The frames that were yielded are kept with the bytes they were cut from. A call that
yields a frame or an error other than the last one shortens the buffer, and a decoder that has
stopped only buffers what it is fed.
-/

namespace KiroProxy.EventStream.EventStreamDecoder

inductive Call
  | feed (data : List UInt8)
  | decode

/-- A decoder with what has gone through it. -/
structure Account where
  decoder : EventStreamDecoder
  /-- The number of bytes of the feeds that were not rejected. -/
  accepted : ℕ
  /-- The decoded frames with their bytes. -/
  frames : List (Frame × List UInt8)

def Account.new : Account := ⟨EventStreamDecoder.new, 0, []⟩

def Account.framed (s : Account) : ℕ := (s.frames.map fun frame => frame.2.length).sum

/-- A frame, or an error that does not stop the decoder. -/
def Progresses : ParseResult (Option Frame) → Prop
  | .ok (some _) => True
  | .ok none => False
  | .error (.tooManyErrors _ _) => False
  | .error _ => True

section

variable (crc32 : List UInt8 → UInt32)

def Account.call (s : Account) : Call → Account
  | .feed data =>
    match s.decoder.feed data with
    | (.ok (), decoder) => { s with decoder, accepted := s.accepted + data.length }
    | (.error _, decoder) => { s with decoder }
  | .decode =>
    match s.decoder.decode crc32 with
    | (.ok (some frame), decoder) =>
      { s with
        decoder
        frames := s.frames ++ [(frame, s.decoder.buffer.take (u32At s.decoder.buffer 0))] }
    | (.ok none, decoder) => { s with decoder }
    | (.error _, decoder) => { s with decoder }

def Account.run : Account → List Call → Account := List.foldl (Account.call crc32)

/-- The results of consecutive calls of `decode`. -/
def decodes : ℕ → EventStreamDecoder → List (ParseResult (Option Frame))
  | 0, _ => []
  | n + 1, d => (d.decode crc32).1 :: decodes n (d.decode crc32).2

end

variable {crc32 : List UInt8 → UInt32} {d : EventStreamDecoder} {s : Account}

theorem exists_skip_wholeFrame (hpos : 0 < d.buffer.length) :
    ∃ n, 0 < n ∧ n ≤ d.buffer.length ∧
      (if d.buffer.length ≥ preludeSize then
        let totalLength := u32At d.buffer 0
        if totalLength ≥ 16 ∧ totalLength ≤ d.buffer.length then d.skip totalLength else d.skip 1
      else d.skip 1) = d.skip n := by
  dsimp only
  split_ifs with hlen htotal
  · exact ⟨_, by omega, htotal.2, rfl⟩
  · exact ⟨1, Nat.one_pos, hpos, rfl⟩
  · exact ⟨1, Nat.one_pos, hpos, rfl⟩

theorem exists_tryRecover_eq_skip (hne : d.buffer ≠ []) (e : ParseError) :
    ∃ n, 0 < n ∧ n ≤ d.buffer.length ∧ d.tryRecover e = d.skip n := by
  have hpos := List.length_pos_of_ne_nil hne
  unfold tryRecover
  rw [if_neg hne]
  split
  · exact ⟨1, Nat.one_pos, hpos, rfl⟩
  · exact ⟨1, Nat.one_pos, hpos, rfl⟩
  · exact ⟨1, Nat.one_pos, hpos, rfl⟩
  · exact exists_skip_wholeFrame hpos
  · exact exists_skip_wholeFrame hpos
  · exact ⟨1, Nat.one_pos, hpos, rfl⟩

theorem exists_cut_of_parseFrame {buffer : List UInt8} {frame : Frame} {consumed : ℕ}
    (h : parseFrame crc32 buffer = .ok (some (frame, consumed))) :
    ∃ bytes rest, buffer = bytes ++ rest ∧ bytes.length = consumed ∧ 0 < consumed ∧
      u32At buffer 0 = consumed ∧ parseFrame crc32 bytes = .ok (some (frame, consumed)) := by
  obtain ⟨block, rest, hbuffer, hsize, hconsumed, hheaders⟩ := frameBytes_of_parseFrame h
  have hparse := parseFrame_frameBytes_append crc32 hsize hheaders []
  rw [List.append_nil] at hparse
  refine ⟨_, rest, hbuffer, hconsumed.symm, ?_, ?_, hparse.trans (by rw [hconsumed])⟩
  · rw [hconsumed, length_frameBytes, minMessageSize]
    omega
  · have hraw := RawFrame.bytes_ofParts crc32 block frame.payload hsize
    rw [hbuffer, hconsumed, ← hraw, u32At_bytes_append_zero, RawFrame.length_bytes]

theorem decode_of_stopped (h : d.state = .stopped) :
    d.decode crc32 = (.error (.tooManyErrors d.errorCount "解码器已停止"), d) := by
  rw [decode, if_pos h]

/-- What a call of `decode` yields and takes from the buffer. -/
inductive Decoded (crc32 : List UInt8 → UInt32) (d : EventStreamDecoder) :
    ParseResult (Option Frame) → EventStreamDecoder → Prop
  | stopped (count : ℕ) (message : String) (hstop : d.state = .stopped) :
      Decoded crc32 d (.error (.tooManyErrors count message)) d
  | none : d.state ≠ .stopped → Decoded crc32 d (.ok none) { d with state := .ready }
  | frame (frame : Frame) (bytes rest : List UInt8) (hstate : d.state ≠ .stopped)
      (hbuffer : d.buffer = bytes ++ rest) (hbytes : bytes ≠ [])
      (htotal : u32At d.buffer 0 = bytes.length)
      (hparse : parseFrame crc32 bytes = .ok (some (frame, bytes.length))) :
      Decoded crc32 d (.ok (some frame))
        { d with
          buffer := rest
          state := .ready
          framesDecoded := d.framesDecoded + 1
          errorCount := 0 }
  | stop (count : ℕ) (message : String) (hstate : d.state ≠ .stopped) (hne : d.buffer ≠ []) :
      Decoded crc32 d (.error (.tooManyErrors count message))
        { d with state := .stopped, errorCount := d.errorCount + 1 }
  | skip (e : ParseError) (n : ℕ) (hstate : d.state ≠ .stopped) (hpos : 0 < n)
      (hle : n ≤ d.buffer.length) (herrors : d.errorCount + 1 < d.maxErrors) :
      Decoded crc32 d (.error e)
        { d with
          buffer := d.buffer.drop n
          state := .recovering
          errorCount := d.errorCount + 1
          bytesSkipped := d.bytesSkipped + n }

theorem decoded_decode (crc32 : List UInt8 → UInt32) (d : EventStreamDecoder) :
    Decoded crc32 d (d.decode crc32).1 (d.decode crc32).2 := by
  by_cases hstop : d.state = .stopped
  · rw [decode_of_stopped hstop]
    exact .stopped _ _ hstop
  rcases decode_cases crc32 hstop with hd | ⟨frame, consumed, hparse, hd⟩ |
    ⟨e, -, hne, ⟨-, hd⟩ | ⟨hless, hd⟩⟩
  · rw [hd]
    exact .none hstop
  · obtain ⟨bytes, rest, hbuffer, rfl, hpos, htotal, hbytes⟩ := exists_cut_of_parseFrame hparse
    rw [hd, hbuffer, List.drop_left]
    exact .frame frame bytes rest hstop hbuffer (List.ne_nil_of_length_pos hpos) htotal hbytes
  · rw [hd]
    exact .stop _ _ hstop hne
  · obtain ⟨n, hpos, hle, hskip⟩ := exists_tryRecover_eq_skip
      (d := { d with state := .parsing, errorCount := d.errorCount + 1 }) hne e
    rw [hd, hskip]
    exact .skip e n hstop hpos hle hless

theorem length_decode_lt (h : Progresses (d.decode crc32).1) :
    (d.decode crc32).2.pendingBytes < d.pendingBytes := by
  have hdecoded := decoded_decode crc32 d
  generalize d.decode crc32 = result at h hdecoded
  obtain ⟨result, next⟩ := result
  cases hdecoded with
  | stopped count message hstop => cases h
  | none hstate => cases h
  | frame frame bytes rest hstate hbuffer hbytes htotal hparse =>
    have hpos := List.length_pos_of_ne_nil hbytes
    rw [pendingBytes, pendingBytes, hbuffer, List.length_append]
    exact Nat.lt_add_of_pos_left hpos
  | stop count message hstate hne => cases h
  | skip e n hstate hpos hle herrors =>
    rw [pendingBytes, pendingBytes, List.length_drop]
    omega

/-- So that many calls in a row cannot all yield something. -/
theorem length_decodes_le (n : ℕ) (d : EventStreamDecoder)
    (h : ∀ result ∈ decodes crc32 n d, Progresses result) : n ≤ d.pendingBytes := by
  induction n generalizing d with
  | zero => exact Nat.zero_le _
  | succ n ih =>
    obtain ⟨hfirst, hrest⟩ := List.forall_mem_cons.mp h
    have hlt := length_decode_lt hfirst
    have hle := ih _ hrest
    omega

theorem drainLoop_of_ended (crc32 : List UInt8 → UInt32) (fuel : ℕ) (d : EventStreamDecoder)
    (h : d.state = .stopped ∨ d.state = .recovering) : (drainLoop crc32 fuel d).1 = [] := by
  cases fuel with
  | zero => rfl
  | succ fuel => rcases h with h | h <;> simp [drainLoop, next, h]

/-- An iterator yields no more items than there are bytes in the buffer. -/
theorem length_drainLoop_le (fuel : ℕ) (d : EventStreamDecoder) :
    (drainLoop crc32 fuel d).1.length ≤ d.pendingBytes := by
  induction fuel generalizing d with
  | zero => exact Nat.zero_le _
  | succ fuel ih =>
    by_cases hstop : d.state = .stopped
    · simp [drainLoop, next, hstop]
    by_cases hrec : d.state = .recovering
    · simp [drainLoop, next, hrec]
    have hdecoded := decoded_decode crc32 d
    rw [drainLoop, next_of_active crc32 hstop hrec]
    generalize d.decode crc32 = result at hdecoded
    obtain ⟨result, after⟩ := result
    cases hdecoded with
    | stopped count message h => exact absurd h hstop
    | none hstate => exact Nat.zero_le _
    | frame frame bytes rest hstate hbuffer hbytes htotal hparse =>
      have hpos := List.length_pos_of_ne_nil hbytes
      have hle := ih { d with
        buffer := rest
        state := .ready
        framesDecoded := d.framesDecoded + 1
        errorCount := 0 }
      rw [pendingBytes, hbuffer, List.length_append]
      simp only [pendingBytes] at hle
      simp only [List.length_cons]
      omega
    | stop count message hstate hne =>
      have hpos := List.length_pos_of_ne_nil hne
      change (drainLoop crc32 fuel _).1.length + 1 ≤ d.buffer.length
      rw [drainLoop_of_ended crc32 fuel _ (by exact Or.inl rfl)]
      exact hpos
    | skip e n hstate hpos hle herrors =>
      change (drainLoop crc32 fuel _).1.length + 1 ≤ d.buffer.length
      rw [drainLoop_of_ended crc32 fuel _ (by exact Or.inr rfl)]
      exact hpos.trans_le hle

/-- What holds between any two calls on a fresh decoder. -/
structure Accounted (crc32 : List UInt8 → UInt32) (s : Account) : Prop where
  total : s.accepted = s.decoder.pendingBytes + s.framed + s.decoder.bytesSkipped
  parsed : ∀ frame ∈ s.frames, parseFrame crc32 frame.2 = .ok (some (frame.1, frame.2.length))
  count : s.frames.length = s.decoder.framesDecoded
  maxErrors : s.decoder.maxErrors = defaultMaxErrors
  errors : s.decoder.state ≠ .stopped → s.decoder.errorCount < s.decoder.maxErrors

theorem accounted_new (crc32 : List UInt8 → UInt32) : Accounted crc32 .new where
  total := rfl
  parsed := fun _ hmem => (by cases hmem)
  count := rfl
  maxErrors := rfl
  errors := fun _ => (by decide)

theorem Accounted.feed (h : Accounted crc32 s) (data : List UInt8) :
    Accounted crc32 (s.call crc32 (.feed data)) := by
  unfold Account.call EventStreamDecoder.feed
  dsimp only
  split_ifs with hsize hrec
  · exact h
  · refine ⟨?_, h.parsed, h.count, h.maxErrors, fun _ => h.errors (by rw [hrec]; decide)⟩
    have htotal := h.total
    simp only [pendingBytes, List.length_append, Account.framed] at htotal ⊢
    omega
  · refine ⟨?_, h.parsed, h.count, h.maxErrors, h.errors⟩
    have htotal := h.total
    simp only [pendingBytes, List.length_append, Account.framed] at htotal ⊢
    omega

theorem Accounted.decode (h : Accounted crc32 s) : Accounted crc32 (s.call crc32 .decode) := by
  have hdecoded := decoded_decode crc32 s.decoder
  unfold Account.call
  generalize s.decoder.decode crc32 = result at hdecoded
  obtain ⟨result, after⟩ := result
  have htotal := h.total
  cases hdecoded with
  | stopped count message hstop => exact h
  | none hstate => exact ⟨htotal, h.parsed, h.count, h.maxErrors, fun _ => h.errors hstate⟩
  | frame frame bytes rest hstate hbuffer hbytes hlength hparse =>
    have hframe : s.decoder.buffer.take (u32At s.decoder.buffer 0) = bytes := by
      rw [hlength, hbuffer, List.take_left]
    refine ⟨?_, ?_, ?_, h.maxErrors, fun _ => ?_⟩
    · rw [pendingBytes, hbuffer, List.length_append] at htotal
      simp only [pendingBytes, Account.framed, hframe, List.map_append, List.map_cons, List.map_nil,
        List.sum_append, List.sum_singleton] at htotal ⊢
      omega
    · intro entry hmem
      rcases List.mem_append.mp hmem with hmem | hmem
      · exact h.parsed entry hmem
      · rw [List.mem_singleton.mp hmem, hframe]
        exact hparse
    · simp only [List.length_append, List.length_singleton, h.count]
    · dsimp only
      rw [h.maxErrors]
      decide
  | stop count message hstate hne =>
    exact ⟨htotal, h.parsed, h.count, h.maxErrors, fun hstop => absurd rfl hstop⟩
  | skip e n hstate hpos hle herrors =>
    refine ⟨?_, h.parsed, h.count, h.maxErrors, fun _ => herrors⟩
    simp only [pendingBytes, List.length_drop, Account.framed] at htotal ⊢
    omega

theorem accounted_run (crc32 : List UInt8 → UInt32) (calls : List Call) :
    Accounted crc32 (Account.new.run crc32 calls) := by
  have hrun (s : Account) (h : Accounted crc32 s) : Accounted crc32 (s.run crc32 calls) := by
    induction calls generalizing s with
    | nil => exact h
    | cons call calls ih =>
      refine ih (s.call crc32 call) ?_
      cases call with
      | feed data => exact h.feed data
      | decode => exact h.decode
  exact hrun .new (accounted_new crc32)

structure OnlyBuffers (s t : Account) : Prop where
  state : t.decoder.state = .stopped
  buffer : ∃ fed, t.decoder.buffer = s.decoder.buffer ++ fed ∧
    t.accepted = s.accepted + fed.length
  bytesSkipped : t.decoder.bytesSkipped = s.decoder.bytesSkipped
  framesDecoded : t.decoder.framesDecoded = s.decoder.framesDecoded
  frames : t.frames = s.frames

theorem OnlyBuffers.call {t : Account} (h : OnlyBuffers s t) (call : Call) :
    OnlyBuffers s (t.call crc32 call) := by
  obtain ⟨hstate, ⟨fed, hbuffer, haccepted⟩, hskipped, hdecoded, hframes⟩ := h
  cases call with
  | feed data =>
    unfold Account.call EventStreamDecoder.feed
    dsimp only
    split_ifs with hsize hrec
    · exact ⟨hstate, ⟨fed, hbuffer, haccepted⟩, hskipped, hdecoded, hframes⟩
    · rw [hstate] at hrec
      cases hrec
    · refine ⟨hstate, ⟨fed ++ data, ?_, ?_⟩, hskipped, hdecoded, hframes⟩
      · simp only [hbuffer, List.append_assoc]
      · simp only [haccepted, List.length_append, Nat.add_assoc]
  | decode =>
    rw [Account.call, decode_of_stopped hstate]
    exact ⟨hstate, ⟨fed, hbuffer, haccepted⟩, hskipped, hdecoded, hframes⟩

theorem onlyBuffers_run (crc32 : List UInt8 → UInt32) (hstop : s.decoder.state = .stopped)
    (calls : List Call) : OnlyBuffers s (s.run crc32 calls) := by
  have hrun (t : Account) (h : OnlyBuffers s t) : OnlyBuffers s (t.run crc32 calls) := by
    induction calls generalizing t with
    | nil => exact h
    | cons call calls ih => exact ih (t.call crc32 call) (h.call call)
  exact hrun s ⟨hstop, ⟨[], (List.append_nil _).symm, rfl⟩, rfl, rfl, rfl⟩

theorem feed_rejected {data : List UInt8} {e : ParseError} (h : (d.feed data).1 = .error e) :
    (d.feed data).2 = d ∧
      e = .bufferOverflow (d.pendingBytes + data.length) d.maxBufferSize := by
  unfold EventStreamDecoder.feed at h ⊢
  dsimp only at h ⊢
  split_ifs at h ⊢
  exact ⟨rfl, (Except.error.inj h).symm⟩

theorem run_new_bytes_accounted (crc32 : List UInt8 → UInt32) (calls : List Call) :
    let s := Account.new.run crc32 calls
    s.accepted = s.decoder.pendingBytes + (s.frames.map fun frame => frame.2.length).sum +
        s.decoder.bytesSkipped ∧
      s.frames.length = s.decoder.framesDecoded ∧
      (∀ frame ∈ s.frames, parseFrame crc32 frame.2 = .ok (some (frame.1, frame.2.length))) ∧
      (s.decoder.state ≠ .stopped → s.decoder.errorCount < s.decoder.maxErrors) ∧
      (Progresses (s.decoder.decode crc32).1 →
        (s.decoder.decode crc32).2.pendingBytes < s.decoder.pendingBytes) ∧
      (∀ n, (∀ result ∈ decodes crc32 n s.decoder, Progresses result) →
        n ≤ s.decoder.pendingBytes) ∧
      (s.decoder.drain crc32).1.length ≤ s.decoder.pendingBytes ∧
      ((s.decoder.drain crc32).2.next crc32).1 = none ∧
      (∀ data e, (s.decoder.feed data).1 = .error e → (s.decoder.feed data).2 = s.decoder) ∧
      (s.decoder.state = .stopped → ∀ later, OnlyBuffers s (s.run crc32 later)) := by
  have h := accounted_run crc32 calls
  exact ⟨h.total, h.count, h.parsed, h.errors, length_decode_lt,
    fun n => length_decodes_le n _, length_drainLoop_le _ _, drain_exhausts crc32 _,
    fun _ _ hrejected => (feed_rejected hrejected).1, fun hstop => onlyBuffers_run crc32 hstop⟩

end KiroProxy.EventStream.EventStreamDecoder
