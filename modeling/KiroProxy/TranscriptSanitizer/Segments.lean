import KiroProxy.TranscriptSanitizer.Conservation

/-!
# Segments of the assistant text

The output for a segment is a beginning of its text, and the characters behind it are counted as
suppressed. Nothing but these counts is left of a segment when the next one is read, and the counts
have no influence on the output.
-/

namespace KiroProxy.TranscriptSanitizer

/-- What the sanitizer reports as suppressed. -/
structure Report where
  blocks : ℕ
  chars : ℕ
  kinds : List TranscriptLeakKind

/-- The counters of a report have 32 and 64 bits. -/
structure Report.InRange (r : Report) : Prop where
  blocks : r.blocks ≤ 2 ^ 32 - 1
  chars : r.chars ≤ 2 ^ 64 - 1

inductive SegmentEnd
  | structuredToolBoundary
  | finish

inductive Call
  | push (chunk : List Char)
  | stop (segmentEnd : SegmentEnd)

structure Segment where
  chunks : List (List Char)
  segmentEnd : SegmentEnd

namespace Segment

def text (segment : Segment) : List Char := segment.chunks.flatten

def calls (segment : Segment) : List Call := segment.chunks.map .push ++ [.stop segment.segmentEnd]

end Segment

namespace ToolTranscriptSanitizer

def report (s : ToolTranscriptSanitizer) : Report where
  blocks := s.suppressedBlocks
  chars := s.suppressedChars
  kinds := s.matchedKinds

def call (s : ToolTranscriptSanitizer) : Call → ToolTranscriptSanitizer × List Char
  | .push chunk => s.push chunk
  | .stop .structuredToolBoundary => s.structuredToolBoundary
  | .stop .finish => s.finish

def calls (s : ToolTranscriptSanitizer) : List Call → ToolTranscriptSanitizer × List (List Char)
  | [] => (s, [])
  | c :: cs =>
    let (s, output) := s.call c
    let (s, outputs) := s.calls cs
    (s, output :: outputs)

theorem calls_cons (s : ToolTranscriptSanitizer) (c : Call) (cs : List Call) :
    s.calls (c :: cs) =
      (((s.call c).1.calls cs).1, (s.call c).2 :: ((s.call c).1.calls cs).2) := rfl

theorem calls_append (s : ToolTranscriptSanitizer) (cs cs' : List Call) :
    s.calls (cs ++ cs') =
      (((s.calls cs).1.calls cs').1, (s.calls cs).2 ++ ((s.calls cs).1.calls cs').2) := by
  induction cs generalizing s with
  | nil => rfl
  | cons c cs ih =>
    rw [List.cons_append, calls_cons, ih, calls_cons]
    rfl

theorem call_stop (s : ToolTranscriptSanitizer) (segmentEnd : SegmentEnd) :
    s.call (.stop segmentEnd) = s.finishSegment := by
  cases segmentEnd <;> rfl

def after (before : Report) (s : ToolTranscriptSanitizer) : ToolTranscriptSanitizer :=
  { s with
    suppressedBlocks := min (before.blocks + s.suppressedBlocks) (2 ^ 32 - 1)
    suppressedChars := min (before.chars + s.suppressedChars) (2 ^ 64 - 1)
    matchedKinds := s.matchedKinds ∪ before.kinds }

/-- The transcript that the held line may begin. -/
def probeKind (s : ToolTranscriptSanitizer) : Option TranscriptLeakKind :=
  if s.fence.isNone then
    roleLineKind (trimEndBlanks (dropTrailing '\r' (dropTrailing '\n' s.lineProbe)))
  else none

variable {s : ToolTranscriptSanitizer} (n : ℕ)

theorem finishProbeLine_some {kind : TranscriptLeakKind} (h : s.probeKind = some kind) :
    s.finishProbeLine =
      ({ s with
          lineProbe := []
          atLineStart := true
          state := .candidate { kind, buffer := s.lineProbe } }, []) := by
  unfold probeKind at h
  unfold finishProbeLine
  dsimp only
  rw [h]

theorem finishProbeLine_none (h : s.probeKind = none) :
    s.finishProbeLine =
      ({ s with
          fence := (fenceLineAction (dropTrailing '\r' (dropTrailing '\n' s.lineProbe)) s.fence).getD
            s.fence
          lineProbe := []
          atLineStart := true }, s.lineProbe) := by
  unfold probeKind at h
  unfold finishProbeLine
  dsimp only
  rw [h]

section After

variable (before : Report) (s : ToolTranscriptSanitizer)

theorem insert_union_kinds (kind : TranscriptLeakKind) (kinds kinds' : List TranscriptLeakKind) :
    (kinds ∪ kinds').insert kind = kinds.insert kind ∪ kinds' := by
  by_cases hmem : kind ∈ kinds
  · rw [List.insert_of_mem hmem, List.insert_of_mem (List.mem_union_iff.mpr (.inl hmem))]
  · rw [List.insert_of_not_mem hmem, List.cons_union]

theorem recordSuppressedCandidate_after (c : Candidate) :
    (s.after before).recordSuppressedCandidate c = (s.recordSuppressedCandidate c).after before := by
  have hblocks : min (min (before.blocks + s.suppressedBlocks) (2 ^ 32 - 1) + 1) (2 ^ 32 - 1) =
      min (before.blocks + min (s.suppressedBlocks + 1) (2 ^ 32 - 1)) (2 ^ 32 - 1) := by omega
  have hchars : min (min (before.chars + s.suppressedChars) (2 ^ 64 - 1) + c.buffer.length)
      (2 ^ 64 - 1) =
      min (before.chars + min (s.suppressedChars + c.buffer.length) (2 ^ 64 - 1))
        (2 ^ 64 - 1) := by omega
  unfold recordSuppressedCandidate after
  dsimp only
  rw [hblocks, hchars, insert_union_kinds]

theorem finishProbeLine_after :
    (s.after before).finishProbeLine = (s.finishProbeLine.1.after before, s.finishProbeLine.2) := by
  cases hkind : s.probeKind with
  | some kind =>
    rw [finishProbeLine_some hkind, @finishProbeLine_some (s.after before) kind hkind]
    rfl
  | none =>
    rw [finishProbeLine_none hkind, @finishProbeLine_none (s.after before) hkind]
    rfl

theorem processScanChar_after (ch : Char) : (s.after before).processScanChar ch =
    ((s.processScanChar ch).1.after before, (s.processScanChar ch).2) := by
  unfold processScanChar
  by_cases hstart : s.atLineStart = true
  · have hstart' : ¬ (!s.atLineStart) = true := by rw [hstart]; decide
    rw [if_neg hstart', if_neg (show ¬ (!(s.after before).atLineStart) = true from hstart')]
    dsimp only
    by_cases hnewline : ch = '\n'
    · rw [if_pos hnewline, if_pos hnewline]
      exact finishProbeLine_after before { s with lineProbe := s.lineProbe ++ [ch] }
    · rw [if_neg hnewline, if_neg hnewline]
      cases hdecided : (if s.fence.isNone = true then
        openingFenceDecidedBeforeEol (s.lineProbe ++ [ch]) else none) with
      | some fence =>
        have hdecided' : (if (s.after before).fence.isNone = true then
            openingFenceDecidedBeforeEol ((s.after before).lineProbe ++ [ch]) else none) =
              some fence := hdecided
        rw [hdecided']
        rfl
      | none =>
        have hdecided' : (if (s.after before).fence.isNone = true then
            openingFenceDecidedBeforeEol ((s.after before).lineProbe ++ [ch]) else none) = none :=
          hdecided
        rw [hdecided']
        dsimp only
        split_ifs with hdone hdone' hdone'
        · rfl
        · exact absurd hdone hdone'
        · exact absurd hdone' hdone
        · rfl
  · have hstart' : (!s.atLineStart) = true := by simpa using hstart
    rw [if_pos hstart', if_pos (show (!(s.after before).atLineStart) = true from hstart')]
    rfl

theorem releaseCandidate_after (c : Candidate) : (s.after before).releaseCandidate c =
    ((s.releaseCandidate c).1.after before, (s.releaseCandidate c).2) := by
  unfold releaseCandidate
  cases c.tail? <;> rfl

theorem processChar_after (ch : Char) : (s.after before).processChar ch =
    ((s.processChar ch).1.after before, (s.processChar ch).2) := by
  unfold processChar
  rw [show (s.after before).state = s.state from rfl]
  cases s.state with
  | scan =>
    dsimp only
    rw [processScanChar_after]
  | dropUntilBoundary =>
    have hchars : min (min (before.chars + s.suppressedChars) (2 ^ 64 - 1) + 1) (2 ^ 64 - 1) =
        min (before.chars + min (s.suppressedChars + 1) (2 ^ 64 - 1)) (2 ^ 64 - 1) := by omega
    dsimp only [after]
    rw [hchars]
  | candidate c =>
    dsimp only
    rw [show (s.after before).candidateStatus { c with buffer := c.buffer ++ [ch] } =
      s.candidateStatus { c with buffer := c.buffer ++ [ch] } from rfl]
    cases s.candidateStatus { c with buffer := c.buffer ++ [ch] } with
    | possible => rfl
    | confirmed =>
      dsimp only
      rw [recordSuppressedCandidate_after]
      rfl
    | rejected => exact releaseCandidate_after before { s with state := .scan } _

theorem processText_after (fuel : ℕ) (text : List Char) :
    processText fuel (s.after before) text =
      ((processText fuel s text).1.after before, (processText fuel s text).2) := by
  induction fuel generalizing s text with
  | zero => rfl
  | succ fuel ih =>
    cases text with
    | nil => rfl
    | cons ch text =>
      rw [processText, processChar_after]
      dsimp only
      rw [ih]
      rfl

theorem push_after (chunk : List Char) : (s.after before).push chunk =
    ((s.push chunk).1.after before, (s.push chunk).2) :=
  processText_after before s (s.steps chunk) chunk

theorem finishLoop_after (fuel : ℕ) : finishLoop fuel (s.after before) =
    ((finishLoop fuel s).1.after before, (finishLoop fuel s).2) := by
  induction fuel generalizing s with
  | zero => rfl
  | succ fuel ih =>
    rw [finishLoop, finishLoop, show (s.after before).state = s.state from rfl]
    cases s.state with
    | scan => rfl
    | dropUntilBoundary => rfl
    | candidate c =>
      dsimp only
      rw [show (s.after before).candidateHasSensitiveToolPrefix c =
        s.candidateHasSensitiveToolPrefix c from rfl]
      split_ifs
      · rw [recordSuppressedCandidate_after]
      · rw [show ({ s.after before with state := .scan } : ToolTranscriptSanitizer) =
          ({ s with state := .scan } : ToolTranscriptSanitizer).after before from rfl,
          releaseCandidate_after]
        dsimp only
        rw [push_after, ih]

theorem finishSegment_after : (s.after before).finishSegment =
    (s.finishSegment.1.after before, s.finishSegment.2) := by
  unfold finishSegment
  rw [finishLoop_after]
  rfl

theorem calls_after (cs : List Call) : (s.after before).calls cs =
    ((s.calls cs).1.after before, (s.calls cs).2) := by
  induction cs generalizing s with
  | nil => rfl
  | cons c cs ih =>
    have hcall : (s.after before).call c = ((s.call c).1.after before, (s.call c).2) := by
      cases c with
      | push chunk => exact push_after before s chunk
      | stop segmentEnd =>
        rw [call_stop, call_stop]
        exact finishSegment_after before s
    rw [calls_cons, calls_cons, hcall, ih]

end After

structure Counted (start : ToolTranscriptSanitizer) (dropped : List Char)
    (s : ToolTranscriptSanitizer) : Prop where
  blocks : s.suppressedBlocks = min (start.suppressedBlocks + 1) (2 ^ 32 - 1)
  chars : s.suppressedChars = min (start.suppressedChars + dropped.length) (2 ^ 64 - 1)

/-- The characters of a segment are in the output, or they are held back or suppressed, or they are
still to be read. -/
structure Accounts (start : ToolTranscriptSanitizer) (text : List Char) (s : ToolTranscriptSanitizer)
    (output rest : List Char) : Prop where
  sound : s.Sound
  names : s.knownToolNames = start.knownToolNames
  place : s.state ≠ .dropUntilBoundary ∧ s.report = start.report ∧ text = output ++ s.held ++ rest ∨
    s.state = .dropUntilBoundary ∧
      ∃ dropped, Counted start dropped s ∧ text = output ++ dropped ++ rest

section Accounts

variable {text output rest : List Char} {start s s' : ToolTranscriptSanitizer}

theorem finishProbeLine_report (s : ToolTranscriptSanitizer) :
    s.finishProbeLine.1.report = s.report ∧
      s.finishProbeLine.1.knownToolNames = s.knownToolNames := by
  cases hkind : s.probeKind with
  | some kind =>
    rw [finishProbeLine_some hkind]
    exact ⟨rfl, rfl⟩
  | none =>
    rw [finishProbeLine_none hkind]
    exact ⟨rfl, rfl⟩

theorem processScanChar_report (s : ToolTranscriptSanitizer) (ch : Char) :
    (s.processScanChar ch).1.report = s.report ∧
      (s.processScanChar ch).1.knownToolNames = s.knownToolNames := by
  unfold processScanChar
  split_ifs
  · exact ⟨rfl, rfl⟩
  · exact finishProbeLine_report { s with lineProbe := s.lineProbe ++ [ch] }
  · dsimp only
    split
    · exact ⟨rfl, rfl⟩
    · split_ifs
      · exact ⟨rfl, rfl⟩
      · exact ⟨rfl, rfl⟩

theorem releaseCandidate_report (s : ToolTranscriptSanitizer) (c : Candidate) :
    (s.releaseCandidate c).1.report = s.report ∧
      (s.releaseCandidate c).1.knownToolNames = s.knownToolNames := by
  unfold releaseCandidate
  cases c.tail? <;> exact ⟨rfl, rfl⟩

theorem Counted.of_report {dropped : List Char} (h : Counted s dropped s')
    (hreport : s.report = start.report) : Counted start dropped s' := by
  have hblocks : s.suppressedBlocks = start.suppressedBlocks := congrArg Report.blocks hreport
  have hchars : s.suppressedChars = start.suppressedChars := congrArg Report.chars hreport
  exact ⟨hblocks ▸ h.blocks, hchars ▸ h.chars⟩

theorem counted_record (s : ToolTranscriptSanitizer) (c : Candidate) :
    Counted s c.buffer (s.recordSuppressedCandidate c) :=
  ⟨rfl, rfl⟩

theorem processChar_scan {s : ToolTranscriptSanitizer} (hscan : s.state = .scan) (ch : Char) :
    s.processChar ch = ((s.processScanChar ch).1, (s.processScanChar ch).2, []) := by
  unfold ToolTranscriptSanitizer.processChar
  rw [hscan]

theorem processChar_dropUntilBoundary {s : ToolTranscriptSanitizer}
    (hdrop : s.state = .dropUntilBoundary) (ch : Char) : s.processChar ch =
      ({ s with suppressedChars := min (s.suppressedChars + 1) (2 ^ 64 - 1) }, [], []) := by
  unfold ToolTranscriptSanitizer.processChar
  rw [hdrop]

/-- A character of a candidate. -/
theorem place_candidate {c : Candidate} (hcandidate : s.state = .candidate c)
    (hprobe : s.lineProbe = []) (hreport : s.report = start.report) (ch : Char)
    (htext : text = output ++ c.buffer ++ ch :: rest) :
    (s.processChar ch).1.state ≠ .dropUntilBoundary ∧ (s.processChar ch).1.report = start.report ∧
        text = output ++ (s.processChar ch).2.1 ++ (s.processChar ch).1.held ++
          ((s.processChar ch).2.2 ++ rest) ∨
      (s.processChar ch).1.state = .dropUntilBoundary ∧
        ∃ dropped, Counted start dropped (s.processChar ch).1 ∧
          text = output ++ (s.processChar ch).2.1 ++ dropped ++ ((s.processChar ch).2.2 ++ rest) := by
  have hnext : text = output ++ (c.buffer ++ [ch]) ++ rest := by
    rw [htext]
    simp only [List.append_assoc, List.cons_append, List.nil_append]
  unfold ToolTranscriptSanitizer.processChar
  rw [hcandidate]
  dsimp only
  cases s.candidateStatus { c with buffer := c.buffer ++ [ch] } with
  | possible =>
    refine .inl ⟨nofun, hreport, ?_⟩
    rw [List.append_nil]
    exact hnext
  | confirmed =>
    refine .inr ⟨rfl, c.buffer ++ [ch], ?_, ?_⟩
    · obtain ⟨hblocks, hchars⟩ :=
        (counted_record s { c with buffer := c.buffer ++ [ch] }).of_report hreport
      exact ⟨hblocks, hchars⟩
    · dsimp only
      rw [List.append_nil]
      exact hnext
  | rejected =>
    obtain ⟨-, hheld, hall, -, hscan, -⟩ :=
      @releaseCandidate_kept { s with state := .scan } { c with buffer := c.buffer ++ [ch] } rfl
        hprobe
    obtain ⟨hsame, -⟩ := releaseCandidate_report { s with state := .scan }
      { c with buffer := c.buffer ++ [ch] }
    dsimp only at hall ⊢
    refine .inl ⟨?_, hsame.trans hreport, ?_⟩
    · rw [hscan]
      exact nofun
    · rw [hheld, List.append_nil, List.append_assoc output, ← List.append_assoc _ _ rest, hall,
        ← List.append_assoc]
      exact hnext

theorem processChar_knownToolNames (s : ToolTranscriptSanitizer) (ch : Char) :
    (s.processChar ch).1.knownToolNames = s.knownToolNames := by
  cases hstate : s.state with
  | scan =>
    rw [processChar_scan hstate]
    exact (processScanChar_report s ch).2
  | dropUntilBoundary =>
    rw [processChar_dropUntilBoundary hstate]
  | candidate c =>
    unfold ToolTranscriptSanitizer.processChar
    rw [hstate]
    dsimp only
    cases s.candidateStatus { c with buffer := c.buffer ++ [ch] } with
    | possible => rfl
    | confirmed => rfl
    | rejected => exact (releaseCandidate_report { s with state := .scan } _).2

theorem Accounts.processChar {ch : Char} (h : Accounts start text s output (ch :: rest)) :
    Accounts start text (s.processChar ch).1 (output ++ (s.processChar ch).2.1)
      ((s.processChar ch).2.2 ++ rest) := by
  refine ⟨(processChar_kept h.sound ch).1, (processChar_knownToolNames s ch).trans h.names, ?_⟩
  obtain ⟨hkeep, hreport, htext⟩ | ⟨hdrop, dropped, ⟨hblocks, hchars⟩, htext⟩ := h.place
  · cases hstate : s.state with
    | scan =>
      obtain ⟨-, hall, -, hnext⟩ := processScanChar_kept hstate h.sound ch
      rw [processChar_scan hstate]
      refine .inl ⟨hnext, (processScanChar_report s ch).1.trans hreport, ?_⟩
      dsimp only
      rw [List.append_assoc output, hall, htext]
      simp only [List.append_assoc, List.cons_append, List.nil_append]
    | dropUntilBoundary => exact absurd hstate hkeep
    | candidate c =>
      have hheld : s.held = c.buffer := by rw [held, hstate]
      rw [hheld] at htext
      exact place_candidate hstate (h.sound (.inl (by simp [hstate]))) hreport ch htext
  · rw [processChar_dropUntilBoundary hdrop]
    refine .inr ⟨hdrop, dropped ++ [ch], ⟨hblocks, ?_⟩, ?_⟩
    · dsimp only
      rw [hchars, List.length_append, List.length_singleton]
      omega
    · rw [htext]
      simp only [List.append_assoc, List.cons_append, List.nil_append]

theorem Accounts.reads {output' : List Char} (hreads : Reads s rest s' output')
    (h : Accounts start text s output rest) :
    Accounts start text s' (output ++ output') [] := by
  induction hreads generalizing output with
  | nil s =>
    rw [List.append_nil]
    exact h
  | cons _ ih =>
    rw [← List.append_assoc]
    exact ih h.processChar

theorem Accounts.extend (h : Accounts start text s output []) (chunk : List Char) :
    Accounts start (text ++ chunk) s output chunk := by
  refine ⟨h.sound, h.names, ?_⟩
  obtain ⟨hkeep, hreport, htext⟩ | ⟨hdrop, dropped, hcounted, htext⟩ := h.place
  · rw [List.append_nil] at htext
    exact .inl ⟨hkeep, hreport, by rw [htext]⟩
  · rw [List.append_nil] at htext
    exact .inr ⟨hdrop, dropped, hcounted, by rw [htext]⟩

theorem Accounts.push (h : Accounts start text s output []) (chunk : List Char) :
    Accounts start (text ++ chunk) (s.push chunk).1 (output ++ (s.push chunk).2) [] :=
  (h.extend chunk).reads (reads_push h.sound chunk)

theorem Accounts.calls (h : Accounts start text s output []) (chunks : List (List Char)) :
    Accounts start (text ++ chunks.flatten) (s.calls (chunks.map .push)).1
      (output ++ (s.calls (chunks.map .push)).2.flatten) [] := by
  induction chunks generalizing text s output with
  | nil =>
    rw [List.flatten_nil, List.append_nil, List.map_nil, ToolTranscriptSanitizer.calls,
      List.flatten_nil, List.append_nil]
    exact h
  | cons chunk chunks ih =>
    rw [List.flatten_cons, List.map_cons, calls_cons, List.flatten_cons, ← List.append_assoc,
      ← List.append_assoc]
    exact ih (h.push chunk)

structure Finished (start : ToolTranscriptSanitizer) (text output : List Char)
    (s : ToolTranscriptSanitizer) : Prop where
  names : s.knownToolNames = start.knownToolNames
  counts : text = output ∧ s.report = start.report ∨
    ∃ dropped, text = output ++ dropped ∧ Counted start dropped s

theorem Accounts.finishLoop {fuel : ℕ} (h : Accounts start text s output [])
    (hfuel : s.held.length ≤ fuel) :
    Finished start text (output ++ (finishLoop fuel s).2) (finishLoop fuel s).1 := by
  induction fuel generalizing s output with
  | zero =>
    have hheld : s.held = [] := List.length_eq_zero_iff.mp (Nat.le_zero.mp hfuel)
    rw [ToolTranscriptSanitizer.finishLoop, List.append_nil]
    refine ⟨h.names, ?_⟩
    obtain ⟨hkeep, hreport, htext⟩ | ⟨hdrop, dropped, hcounted, htext⟩ := h.place
    · rw [hheld, List.append_nil, List.append_nil] at htext
      exact .inl ⟨htext, hreport⟩
    · rw [List.append_nil] at htext
      exact .inr ⟨dropped, htext, hcounted⟩
  | succ fuel ih =>
    rw [ToolTranscriptSanitizer.finishLoop]
    obtain ⟨hkeep, hreport, htext⟩ | ⟨hdrop, dropped, hcounted, htext⟩ := h.place
    · rw [List.append_nil] at htext
      cases hstate : s.state with
      | scan =>
        rw [held, hstate] at htext
        exact ⟨h.names, .inl ⟨htext, hreport⟩⟩
      | dropUntilBoundary => exact absurd hstate hkeep
      | candidate c =>
        have hprobe : s.lineProbe = [] := h.sound (.inl (by simp [hstate]))
        have hheld : s.held = c.buffer := by rw [held, hstate]
        rw [hheld] at htext hfuel
        dsimp only
        split_ifs
        · rw [List.append_nil]
          exact ⟨h.names, .inr ⟨c.buffer, htext, (counted_record s c).of_report hreport⟩⟩
        · obtain ⟨hsound, hheld', hall, -, hscan, hagain⟩ :=
            @releaseCandidate_kept { s with state := .scan } c rfl hprobe
          obtain ⟨hsame, hnames⟩ := releaseCandidate_report { s with state := .scan } c
          generalize ({ s with state := .scan } : ToolTranscriptSanitizer).releaseCandidate c = first
            at hsound hheld' hall hscan hagain hsame hnames ⊢
          obtain ⟨s₁, output₁, again⟩ := first
          dsimp only at hsound hheld' hall hscan hagain hsame hnames ⊢
          have hreleased : Accounts start text s₁ (output ++ output₁) again := by
            refine ⟨hsound, hnames.trans h.names,
              .inl ⟨by simp [hscan], hsame.trans hreport, ?_⟩⟩
            rw [hheld', List.append_nil, List.append_assoc, hall]
            exact htext
          have hpushed := hreleased.reads (reads_push hsound again)
          have hlength := ((reads_push hsound again).kept hsound).sublist.length_le
          rw [hheld', List.nil_append, List.length_append] at hlength
          rw [List.append_assoc output₁, ← List.append_assoc output, ← List.append_assoc]
          refine ih hpushed ?_
          rcases hagain with rfl | hlt
          · rw [List.length_nil] at hlength
            omega
          · omega
    · rw [hdrop]
      dsimp only
      rw [List.append_nil] at htext ⊢
      exact ⟨h.names, .inr ⟨dropped, htext, hcounted⟩⟩

theorem Accounts.finishSegment (h : Accounts start text s output []) :
    Finished start text (output ++ s.finishSegment.2) s.finishSegment.1 := by
  have hfuel : s.held.length ≤ s.heldLength + 1 := by
    rw [length_held]
    exact Nat.le_succ _
  obtain ⟨hnames, hcounts⟩ := h.finishLoop hfuel
  refine ⟨hnames, ?_⟩
  obtain ⟨htext, hreport⟩ | ⟨dropped, htext, hblocks, hchars⟩ := hcounts
  · exact .inl ⟨htext, hreport⟩
  · exact .inr ⟨dropped, htext, hblocks, hchars⟩

end Accounts

/-- The output for a text is a beginning of it, and the characters behind it are counted. -/
structure Conserved (start : ToolTranscriptSanitizer) (text output : List Char)
    (s : ToolTranscriptSanitizer) : Prop where
  isPrefix : output <+: text
  chars : s.suppressedChars =
    min (start.suppressedChars + (text.length - output.length)) (2 ^ 64 - 1)
  whole : s.suppressedBlocks = start.suppressedBlocks → start.suppressedBlocks < 2 ^ 32 - 1 →
    output = text

structure LikeNew (new s : ToolTranscriptSanitizer) : Prop where
  inRange : s.report.InRange
  eq_after : s = new.after s.report

theorem Finished.conserved {start s : ToolTranscriptSanitizer} {text output : List Char}
    (h : Finished start text output s) (hstart : start.report.InRange) :
    Conserved start text output s ∧ s.report.InRange := by
  obtain ⟨rfl, hreport⟩ | ⟨dropped, rfl, hblocks, hchars⟩ := h.counts
  · have hchars : s.suppressedChars = start.suppressedChars := congrArg Report.chars hreport
    have hle : start.suppressedChars ≤ 2 ^ 64 - 1 := hstart.chars
    refine ⟨⟨List.prefix_rfl, ?_, fun _ _ => rfl⟩, hreport ▸ hstart⟩
    rw [hchars, Nat.sub_self, Nat.add_zero, min_eq_left hle]
  · refine ⟨⟨List.prefix_append _ _, ?_, fun hsame hlt => ?_⟩, ?_⟩
    · rw [hchars, List.length_append, Nat.add_sub_cancel_left]
    · omega
    · refine ⟨?_, ?_⟩
      · change s.suppressedBlocks ≤ _
        omega
      · change s.suppressedChars ≤ _
        omega

section LikeNew

variable {sha256 : String → Digest} {names : List String} {s : ToolTranscriptSanitizer}

theorem likeNew_new : LikeNew (new sha256 names) (new sha256 names) :=
  ⟨⟨Nat.zero_le _, Nat.zero_le _⟩, rfl⟩

theorem eq_after_report (hrange : s.report.InRange)
    (hnames : s.knownToolNames = (new sha256 names).knownToolNames) (hstate : s.state = .scan)
    (hprobe : s.lineProbe = []) (hstart : s.atLineStart = true) (hfence : s.fence = none) :
    s = (new sha256 names).after s.report := by
  have hblocks : min (s.suppressedBlocks + 0) (2 ^ 32 - 1) = s.suppressedBlocks :=
    min_eq_left hrange.blocks
  have hchars : min (s.suppressedChars + 0) (2 ^ 64 - 1) = s.suppressedChars :=
    min_eq_left hrange.chars
  obtain ⟨known, state, lineProbe, atLineStart, fence, blocks, chars, kinds⟩ := s
  dsimp only at hnames hstate hprobe hstart hfence hblocks hchars
  subst hnames hstate hprobe hstart hfence
  dsimp only [after, report, new]
  rw [hblocks, hchars]
  rfl

theorem LikeNew.accounts (h : LikeNew (new sha256 names) s) : Accounts s [] s [] [] := by
  have hstate : s.state = .scan := by
    rw [h.eq_after]
    rfl
  have hprobe : s.lineProbe = [] := by
    rw [h.eq_after]
    rfl
  refine ⟨fun _ => hprobe, rfl, .inl ⟨?_, rfl, ?_⟩⟩
  · rw [hstate]
    exact nofun
  · rw [held, hstate, hprobe]
    rfl

theorem LikeNew.segment (h : LikeNew (new sha256 names) s) (segment : Segment) :
    Conserved s segment.text (s.calls segment.calls).2.flatten (s.calls segment.calls).1 ∧
      LikeNew (new sha256 names) (s.calls segment.calls).1 := by
  have hfinished := (h.accounts.calls segment.chunks).finishSegment
  obtain ⟨hconserved, hrange⟩ := hfinished.conserved h.inRange
  have hcalls : s.calls segment.calls =
      ((s.calls (segment.chunks.map .push)).1.finishSegment.1,
        (s.calls (segment.chunks.map .push)).2 ++
          [(s.calls (segment.chunks.map .push)).1.finishSegment.2]) := by
    rw [Segment.calls, calls_append, calls_cons, call_stop]
    rfl
  rw [hcalls]
  refine ⟨?_, hrange, ?_⟩
  · rw [List.flatten_append, List.flatten_singleton]
    exact hconserved
  · have hnames := hfinished.names
    have hnew : s.knownToolNames = (new sha256 names).knownToolNames := by
      rw [h.eq_after]
      rfl
    exact eq_after_report hrange (hnames.trans hnew) rfl rfl rfl rfl

theorem LikeNew.segments (h : LikeNew (new sha256 names) s) (segments : List Segment) :
    LikeNew (new sha256 names) (s.calls (segments.flatMap Segment.calls)).1 := by
  induction segments generalizing s with
  | nil => exact h
  | cons segment segments ih =>
    rw [List.flatMap_cons, calls_append]
    exact ih (h.segment segment).2

theorem LikeNew.calls {new : ToolTranscriptSanitizer} (h : LikeNew new s) (cs : List Call) :
    s.calls cs = ((new.calls cs).1.after s.report, (new.calls cs).2) := by
  have hcalls := calls_after s.report new cs
  rw [← h.eq_after] at hcalls
  exact hcalls

end LikeNew

/-- The output for a segment is a beginning of its text, the characters behind it are counted up to
the limits of the counters, and behind the segment the sanitizer is like a new one. -/
theorem segment_conserved (sha256 : String → Digest) (names : List String) (earlier : List Segment)
    (segment : Segment) (later : List Call) :
    let fresh := new sha256 names
    let s := (fresh.calls (earlier.flatMap Segment.calls)).1
    let next := (s.calls segment.calls).1
    Conserved s segment.text (s.calls segment.calls).2.flatten next ∧
      (next.calls later).2 = (fresh.calls later).2 ∧
      (next.calls later).1 = (fresh.calls later).1.after next.report := by
  intro fresh s next
  have hs : LikeNew fresh s := likeNew_new.segments earlier
  obtain ⟨hconserved, hnext⟩ := hs.segment segment
  have hcalls : next.calls later =
      ((fresh.calls later).1.after next.report, (fresh.calls later).2) := hnext.calls later
  refine ⟨hconserved, ?_, ?_⟩
  · rw [hcalls]
  · rw [hcalls]

/-- The SHA-256 digest of the name `Bash`. -/
def bashDigest : Digest := 0xd1e9567da9a8a4b0c43da0791da1d2594cf5d7b78547fea132d06bccc1b06091

def bashOnly : ToolTranscriptSanitizer := new (fun _ => bashDigest) ["Bash"]

/-- A segment that is suppressed as a whole. -/
def leakedSegment : Segment where
  chunks := ["user Continue\n\nBash: done".toList]
  segmentEnd := .finish

theorem calls_leakedSegment (h : LikeNew bashOnly s) :
    (s.calls leakedSegment.calls).1.suppressedBlocks =
        min (s.suppressedBlocks + 1) (2 ^ 32 - 1) ∧
      (s.calls leakedSegment.calls).2 = [[], []] := by
  have hnew : (bashOnly.calls leakedSegment.calls).1.suppressedBlocks = 1 ∧
      (bashOnly.calls leakedSegment.calls).2 = [[], []] := by
    decide +kernel
  rw [h.calls]
  refine ⟨?_, hnew.2⟩
  change min (s.suppressedBlocks + _) _ = _
  rw [hnew.1]

def leaked (n : ℕ) : ToolTranscriptSanitizer :=
  (bashOnly.calls ((List.replicate n leakedSegment).flatMap Segment.calls)).1

theorem likeNew_leaked : LikeNew bashOnly (leaked n) :=
  likeNew_new.segments (List.replicate n leakedSegment)

theorem leaked_succ : leaked (n + 1) = ((leaked n).calls leakedSegment.calls).1 := by
  unfold leaked
  rw [List.replicate_succ', List.flatMap_append, calls_append, List.flatMap_singleton]

theorem suppressedBlocks_leaked : (leaked n).suppressedBlocks = min n (2 ^ 32 - 1) := by
  induction n with
  | zero => rfl
  | succ n ih =>
    rw [leaked_succ, (calls_leakedSegment (likeNew_leaked n)).1, ih]
    omega

theorem calls_leaked_of_le {n : ℕ} (h : 2 ^ 32 - 1 ≤ n) :
    ((leaked n).calls leakedSegment.calls).1.suppressedBlocks = (leaked n).suppressedBlocks ∧
      ((leaked n).calls leakedSegment.calls).2.flatten ≠ leakedSegment.text := by
  obtain ⟨hnext, houtput⟩ := calls_leakedSegment (likeNew_leaked n)
  rw [hnext, houtput, suppressedBlocks_leaked]
  refine ⟨?_, by decide⟩
  omega

theorem calls_leaked_at_limit :
    ((leaked (2 ^ 32 - 1)).calls leakedSegment.calls).1.suppressedBlocks =
        (leaked (2 ^ 32 - 1)).suppressedBlocks ∧
      ((leaked (2 ^ 32 - 1)).calls leakedSegment.calls).2.flatten ≠ leakedSegment.text :=
  calls_leaked_of_le le_rfl

end ToolTranscriptSanitizer

end KiroProxy.TranscriptSanitizer
