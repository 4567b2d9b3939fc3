import KiroProxy.Converter.ToolNames

/-!
# The transcript sanitizer

A filter over assistant text that holds back a line which may belong to an internal tool
transcript and drops the rest of the segment once the transcript is confirmed by the name of a
known tool. Texts are lists of characters; sizes count bytes.
-/

namespace KiroProxy.TranscriptSanitizer

def maxCandidateBytes : ℕ := 4096

def newRoleLines : List (List Char) := ["user Continue".toList]

def oldRoleLines : List (List Char) :=
  ["user Tool results provided.".toList, "user Tool results provided".toList]

def toolResultsHeading : List Char := "Tool results:".toList

def rolelessResultLines : List (List Char) := [toolResultsHeading]

inductive TranscriptLeakKind
  | continueToolResult
  | legacyToolResults
  | rolelessToolResults
  deriving DecidableEq, Repr

structure MarkdownFence where
  marker : Char
  len : ℕ
  deriving DecidableEq, Repr

structure Candidate where
  kind : TranscriptLeakKind
  buffer : List Char
  deriving DecidableEq, Repr

inductive State
  | scan
  | candidate (candidate : Candidate)
  | dropUntilBoundary
  deriving DecidableEq, Repr

inductive CandidateStatus
  | possible
  | confirmed
  | rejected
  deriving DecidableEq, Repr

structure ToolTranscriptSanitizer where
  knownToolNames : List (List Char)
  state : State
  lineProbe : List Char
  atLineStart : Bool
  fence : Option MarkdownFence
  suppressedBlocks : ℕ
  suppressedChars : ℕ
  matchedKinds : List TranscriptLeakKind
  deriving DecidableEq, Repr

/-- What follows the first newline of a candidate. -/
def Candidate.tail? (c : Candidate) : Option (List Char) :=
  if c.buffer.contains '\n' then some ((c.buffer.dropWhile (· != '\n')).drop 1) else none

def isLineBlank (c : Char) : Bool := c == ' ' || c == '\t'

def dropTrailing (c : Char) (text : List Char) : List Char :=
  if text.getLast? = some c then text.dropLast else text

def dropSuffix (suffix text : List Char) : List Char :=
  if suffix <:+ text then text.take (text.length - suffix.length) else text

def trimEndBlanks (text : List Char) : List Char :=
  (text.reverse.dropWhile isLineBlank).reverse

def firstLine (text : List Char) : List Char := text.takeWhile (· != '\n')

/-- The first line without a carriage return, and what follows its newline. -/
def takeCompleteLine (value : List Char) : Option (List Char × List Char) :=
  if value.contains '\n' then
    some (dropTrailing '\r' (firstLine value), (value.dropWhile (· != '\n')).drop 1)
  else none

def consumeBlankLines : ℕ → Bool → List Char → Bool × List Char
  | 0, consumed, value => (consumed, value)
  | fuel + 1, consumed, value =>
    match takeCompleteLine value with
    | none => (consumed, value)
    | some (line, rest) =>
      if line.all isLineBlank then consumeBlankLines fuel true rest else (consumed, value)

def consumeRequiredBlankLines (value : List Char) : Option (List Char) :=
  let (consumed, rest) := consumeBlankLines value.length false value
  if consumed then some rest else none

def blankPrefixStatus (value : List Char) : CandidateStatus :=
  if value.all fun c => isLineBlank c || c == '\r' then .possible else .rejected

def scaffoldLinePrefixPossible (line probe : List Char) : Bool :=
  probe.isPrefixOf line ||
    (line.isPrefixOf probe && (probe.drop line.length).all isLineBlank)

def roleLines : List (List Char) := newRoleLines ++ oldRoleLines ++ rolelessResultLines

def roleLinePrefixPossible (probe : List Char) : Bool :=
  roleLines.any fun line => scaffoldLinePrefixPossible line (dropTrailing '\r' probe)

/-- The marker of a fence, its length and what follows it. -/
def leadingFenceParts (line : List Char) : Option (Char × ℕ × List Char) :=
  let spaces := (line.takeWhile (· == ' ')).length
  if 3 < spaces then none
  else
    let rest := line.drop spaces
    match rest with
    | [] => none
    | marker :: _ =>
      if marker ≠ '\x60' ∧ marker ≠ '~' then none
      else
        let len := (rest.takeWhile (· == marker)).length
        some (marker, len, rest.drop len)

def fenceLinePrefixPossible (probe : List Char) (fence : Option MarkdownFence) : Bool :=
  let spaces := (probe.takeWhile (· == ' ')).length
  if spaces = probe.length then decide (spaces ≤ 3)
  else
    match leadingFenceParts probe with
    | none => false
    | some (marker, len, suffix) =>
      match fence with
      | none => decide (len < 3) || suffix.isEmpty
      | some opened =>
        marker == opened.marker &&
          (decide (len < opened.len) || suffix.all fun c => isLineBlank c || c == '\r')

def openingFenceDecidedBeforeEol (probe : List Char) : Option MarkdownFence :=
  match leadingFenceParts probe with
  | none => none
  | some (marker, len, suffix) =>
    if 3 ≤ len ∧ !suffix.isEmpty then some { marker, len } else none

/-- The fence after a line, if the line changes it. -/
def fenceLineAction (line : List Char) (fence : Option MarkdownFence) :
    Option (Option MarkdownFence) :=
  match leadingFenceParts line with
  | none => none
  | some (marker, len, suffix) =>
    match fence with
    | none => if 3 ≤ len then some (some { marker, len }) else none
    | some opened =>
      if marker = opened.marker ∧ opened.len ≤ len ∧ suffix.all isLineBlank then some none
      else none

def legacyOverlongMappedToolName (sha256 : String → Digest) (name : String) : Option String :=
  if name.utf8ByteSize ≤ Converter.toolNameMaxLen then none
  else
    let hashSuffix := (sha256 name).hex.take 8
    let prefixMax := Converter.toolNameMaxLen - 1 - 8
    some (String.ofList (name.toList.take prefixMax ++ '_' :: hashSuffix))

/-- The names under which a known tool may appear in a transcript. -/
def internalNames (sha256 : String → Digest) (name : String) : List (List Char) :=
  ([name, Converter.deterministicMappedToolName sha256 name] ++
    (legacyOverlongMappedToolName sha256 name).toList).map fun name => name.toList.map Char.toLower

namespace ToolTranscriptSanitizer

def new (sha256 : String → Digest) (knownToolNames : List String) : ToolTranscriptSanitizer where
  knownToolNames := (knownToolNames.flatMap (internalNames sha256)).filter fun name => !name.isEmpty
  state := .scan
  lineProbe := []
  atLineStart := true
  fence := none
  suppressedBlocks := 0
  suppressedChars := 0
  matchedKinds := []

def isInternalToolName (s : ToolTranscriptSanitizer) (name : List Char) : Bool :=
  s.knownToolNames.contains (name.map Char.toLower)

def isInternalToolNamePrefix (s : ToolTranscriptSanitizer) (name : List Char) : Bool :=
  let name := name.map Char.toLower
  !name.isEmpty && s.knownToolNames.any fun known => name.isPrefixOf known

def errorSuffix : List Char := " error".toList

def colonToolHeaderStatus (s : ToolTranscriptSanitizer) (value : List Char) : CandidateStatus :=
  let line := dropTrailing '\r' (firstLine value)
  if line.contains ':' then
    let rawName := line.takeWhile (· != ':')
    if s.isInternalToolName (dropSuffix errorSuffix rawName) then .confirmed else .rejected
  else if value.contains '\n' ∨ 128 < utf8Length line then .rejected
  else .possible

def bracketToolHeaderStatus (s : ToolTranscriptSanitizer) (value : List Char) : CandidateStatus :=
  if value = [] ∨ value = ['\r'] then .possible
  else if value.head? ≠ some '[' then .rejected
  else
    let line := firstLine value
    if line.contains ']' then
      if s.isInternalToolName ((line.takeWhile (· != ']')).drop 1) then .confirmed else .rejected
    else if value.contains '\n' ∨ 128 < utf8Length line then .rejected
    else .possible

def newCandidateStatus (s : ToolTranscriptSanitizer) (tail : List Char) : CandidateStatus :=
  match consumeRequiredBlankLines tail with
  | none => blankPrefixStatus tail
  | some rest => s.colonToolHeaderStatus rest

def rolelessCandidateStatus (s : ToolTranscriptSanitizer) (tail : List Char) : CandidateStatus :=
  match consumeRequiredBlankLines tail with
  | none => blankPrefixStatus tail
  | some rest => s.bracketToolHeaderStatus rest

def oldCandidateStatus (s : ToolTranscriptSanitizer) (tail : List Char) : CandidateStatus :=
  match consumeRequiredBlankLines tail with
  | none => blankPrefixStatus tail
  | some rest =>
    let directStatus := s.colonToolHeaderStatus rest
    if directStatus ≠ .rejected then directStatus
    else
      match takeCompleteLine rest with
      | none =>
        if scaffoldLinePrefixPossible toolResultsHeading (dropTrailing '\r' rest) then .possible
        else .rejected
      | some (heading, rest) =>
        if trimEndBlanks heading ≠ toolResultsHeading then .rejected
        else
          match consumeRequiredBlankLines rest with
          | none => blankPrefixStatus rest
          | some rest => s.bracketToolHeaderStatus rest

def candidateStatus (s : ToolTranscriptSanitizer) (c : Candidate) : CandidateStatus :=
  if maxCandidateBytes < utf8Length c.buffer then .rejected
  else
    match c.tail? with
    | none => .possible
    | some tail =>
      match c.kind with
      | .continueToolResult => s.newCandidateStatus tail
      | .legacyToolResults => s.oldCandidateStatus tail
      | .rolelessToolResults => s.rolelessCandidateStatus tail

def upTo (stops value : List Char) : List Char := value.takeWhile fun c => !stops.contains c

def hasSensitiveBracketPrefix (s : ToolTranscriptSanitizer) (value : List Char) : Bool :=
  match consumeRequiredBlankLines value with
  | some ('[' :: name) => s.isInternalToolNamePrefix (upTo ['\r', '\n', ']'] name)
  | _ => false

/-- Whether an unconfirmed candidate ends in the beginning of a known tool's name. -/
def candidateHasSensitiveToolPrefix (s : ToolTranscriptSanitizer) (c : Candidate) : Bool :=
  match c.tail? with
  | none => false
  | some tail =>
    match c.kind with
    | .continueToolResult =>
      match consumeRequiredBlankLines tail with
      | none => false
      | some rest =>
        s.isInternalToolNamePrefix (dropSuffix errorSuffix (dropTrailing '\r' (firstLine rest)))
    | .legacyToolResults =>
      match consumeRequiredBlankLines tail with
      | none => false
      | some rest =>
        if s.isInternalToolNamePrefix (dropSuffix errorSuffix (upTo ['\r', '\n', ':'] rest)) then
          true
        else
          match takeCompleteLine rest with
          | none => false
          | some (heading, rest) =>
            trimEndBlanks heading == toolResultsHeading && s.hasSensitiveBracketPrefix rest
    | .rolelessToolResults => s.hasSensitiveBracketPrefix tail

/-- Counters are 32 and 64 bits wide. -/
def recordSuppressedCandidate (s : ToolTranscriptSanitizer) (c : Candidate) :
    ToolTranscriptSanitizer :=
  { s with
    suppressedBlocks := min (s.suppressedBlocks + 1) (2 ^ 32 - 1)
    suppressedChars := min (s.suppressedChars + c.buffer.length) (2 ^ 64 - 1)
    matchedKinds := s.matchedKinds.insert c.kind }

def roleLineKind (scaffoldLine : List Char) : Option TranscriptLeakKind :=
  if newRoleLines.contains scaffoldLine then some .continueToolResult
  else if oldRoleLines.contains scaffoldLine then some .legacyToolResults
  else if rolelessResultLines.contains scaffoldLine then some .rolelessToolResults
  else none

/-- The end of a line that was held back from its start. -/
def finishProbeLine (s : ToolTranscriptSanitizer) : ToolTranscriptSanitizer × List Char :=
  let line := s.lineProbe
  let logical := dropTrailing '\r' (dropTrailing '\n' line)
  match if s.fence.isNone then roleLineKind (trimEndBlanks logical) else none with
  | some kind =>
    ({ s with lineProbe := [], atLineStart := true, state := .candidate { kind, buffer := line } },
      [])
  | none =>
    ({ s with
        fence := (fenceLineAction logical s.fence).getD s.fence
        lineProbe := []
        atLineStart := true }, line)

def processScanChar (s : ToolTranscriptSanitizer) (ch : Char) :
    ToolTranscriptSanitizer × List Char :=
  if !s.atLineStart then ({ s with atLineStart := ch == '\n' }, [ch])
  else
    let s := { s with lineProbe := s.lineProbe ++ [ch] }
    if ch = '\n' then s.finishProbeLine
    else
      match if s.fence.isNone then openingFenceDecidedBeforeEol s.lineProbe else none with
      | some fence =>
        ({ s with fence := some fence, lineProbe := [], atLineStart := false }, s.lineProbe)
      | none =>
        let rolePossible := s.fence.isNone && roleLinePrefixPossible s.lineProbe
        if !rolePossible && !fenceLinePrefixPossible s.lineProbe s.fence then
          ({ s with lineProbe := [], atLineStart := false }, s.lineProbe)
        else (s, [])

/-- A rejected candidate: its first line is released and the rest is read again. -/
def releaseCandidate (s : ToolTranscriptSanitizer) (c : Candidate) :
    ToolTranscriptSanitizer × List Char × List Char :=
  match c.tail? with
  | none => ({ s with atLineStart := false }, c.buffer, [])
  | some tail =>
    ({ s with atLineStart := true, lineProbe := [] },
      c.buffer.take (c.buffer.length - tail.length), tail)

/-- The new state, the output, and the characters to be read again before the next one. -/
def processChar (s : ToolTranscriptSanitizer) (ch : Char) :
    ToolTranscriptSanitizer × List Char × List Char :=
  match s.state with
  | .scan =>
    let (s, output) := s.processScanChar ch
    (s, output, [])
  | .dropUntilBoundary =>
    ({ s with suppressedChars := min (s.suppressedChars + 1) (2 ^ 64 - 1) }, [], [])
  | .candidate c =>
    let c := { c with buffer := c.buffer ++ [ch] }
    match s.candidateStatus c with
    | .possible => ({ s with state := .candidate c }, [], [])
    | .confirmed => ({ s.recordSuppressedCandidate c with state := .dropUntilBoundary }, [], [])
    | .rejected => { s with state := .scan }.releaseCandidate c

def processText : ℕ → ToolTranscriptSanitizer → List Char → ToolTranscriptSanitizer × List Char
  | 0, s, _ => (s, [])
  | _, s, [] => (s, [])
  | fuel + 1, s, ch :: text =>
    let (s, output, again) := s.processChar ch
    let (s, output') := processText fuel s (again ++ text)
    (s, output ++ output')

/-- The characters that the sanitizer holds back. -/
def heldLength (s : ToolTranscriptSanitizer) : ℕ :=
  match s.state with
  | .candidate c => c.buffer.length
  | _ => s.lineProbe.length

/-- Each rejected candidate has at least one character less to be read again, so this many steps
are enough. -/
def steps (s : ToolTranscriptSanitizer) (text : List Char) : ℕ :=
  (s.heldLength + text.length + 1) * (s.heldLength + text.length + 1)

def push (s : ToolTranscriptSanitizer) (chunk : List Char) : ToolTranscriptSanitizer × List Char :=
  processText (s.steps chunk) s chunk

def finishLoop : ℕ → ToolTranscriptSanitizer → ToolTranscriptSanitizer × List Char
  | 0, s => (s, [])
  | fuel + 1, s =>
    match s.state with
    | .scan => (s, s.lineProbe)
    | .dropUntilBoundary => (s, [])
    | .candidate c =>
      if s.candidateHasSensitiveToolPrefix c then (s.recordSuppressedCandidate c, [])
      else
        let (s, output, again) := { s with state := .scan }.releaseCandidate c
        let (s, output') := s.push again
        let (s, output'') := finishLoop fuel s
        (s, output ++ output' ++ output'')

/-- The end of a segment: at a structured block and at the end of the text. -/
def finishSegment (s : ToolTranscriptSanitizer) : ToolTranscriptSanitizer × List Char :=
  let (s, output) := finishLoop (s.heldLength + 1) s
  ({ s with state := .scan, lineProbe := [], atLineStart := true, fence := none }, output)

def structuredToolBoundary (s : ToolTranscriptSanitizer) : ToolTranscriptSanitizer × List Char :=
  s.finishSegment

def finish (s : ToolTranscriptSanitizer) : ToolTranscriptSanitizer × List Char :=
  s.finishSegment

end ToolTranscriptSanitizer

/-- The part of a text behind its last newline. -/
def lastLine (text : List Char) : List Char := (text.reverse.takeWhile (· != '\n')).reverse

theorem lastLine_concat_newline (text : List Char) : lastLine (text ++ ['\n']) = [] := by
  simp [lastLine]

theorem lastLine_concat {c : Char} (hc : c ≠ '\n') (text : List Char) :
    lastLine (text ++ [c]) = lastLine text ++ [c] := by
  simp [lastLine, hc]

/-- The end of a text behind a newline, or all of it. -/
def AtLineStart (before : List Char) : Prop := before = [] ∨ ∃ text, before = text ++ ['\n']

theorem exists_lastLine (text : List Char) :
    ∃ before, text = before ++ lastLine text ∧ AtLineStart before ∧ '\n' ∉ lastLine text := by
  induction text using List.reverseRecOn with
  | nil => exact ⟨[], rfl, Or.inl rfl, List.not_mem_nil⟩
  | append_singleton text c ih =>
    by_cases hc : c = '\n'
    · subst hc
      rw [lastLine_concat_newline]
      exact ⟨text ++ ['\n'], by simp, Or.inr ⟨text, rfl⟩, List.not_mem_nil⟩
    · obtain ⟨before, htext, hstart, hmem⟩ := ih
      rw [lastLine_concat hc]
      refine ⟨before, ?_, hstart, ?_⟩
      · rw [← List.append_assoc, ← htext]
      · simp [hmem, Ne.symm hc]

/-- A line whose beginning is the heading of a transcript, up to space at its end. -/
def isRoleLine (line : List Char) : Bool :=
  (ToolTranscriptSanitizer.roleLineKind (trimEndBlanks (dropTrailing '\r' line))).isSome

def HasRoleLine (text : List Char) : Prop :=
  ∃ before line after, text = before ++ line ++ '\n' :: after ∧ AtLineStart before ∧
    isRoleLine line = true

theorem HasRoleLine.append {text : List Char} (h : HasRoleLine text) (tail : List Char) :
    HasRoleLine (text ++ tail) := by
  obtain ⟨before, line, after, rfl, hstart, hrole⟩ := h
  exact ⟨before, line, after ++ tail, by simp, hstart, hrole⟩

namespace ToolTranscriptSanitizer

structure Quiet (s : ToolTranscriptSanitizer) (text : List Char) : Prop where
  scan : s.state = .scan
  suppressed : s.suppressedBlocks = 0
  probe : s.lineProbe = if s.atLineStart then lastLine text else []

theorem quiet_new (sha256 : String → Digest) (names : List String) : Quiet (new sha256 names) [] :=
  ⟨rfl, rfl, rfl⟩

variable {s : ToolTranscriptSanitizer} {text : List Char}

theorem Quiet.finishProbeLine (hscan : s.state = .scan) (hsuppressed : s.suppressedBlocks = 0)
    (hprobe : s.lineProbe = lastLine text ++ ['\n']) (hrole : ¬ HasRoleLine (text ++ ['\n'])) :
    Quiet s.finishProbeLine.1 (text ++ ['\n']) := by
  obtain ⟨before, htext, hstart, -⟩ := exists_lastLine text
  have hline : isRoleLine (lastLine text) = false := by
    cases h : isRoleLine (lastLine text) with
    | false => rfl
    | true =>
      exact absurd ⟨before, lastLine text, [], by rw [← htext], hstart, h⟩ hrole
  have hkind : roleLineKind (trimEndBlanks (dropTrailing '\r' (lastLine text))) = none := by
    rw [isRoleLine] at hline
    simpa using hline
  have hdrop : dropTrailing '\n' (lastLine text ++ ['\n']) = lastLine text := by
    simp [dropTrailing]
  rw [ToolTranscriptSanitizer.finishProbeLine, hprobe, hdrop, hkind]
  split
  · rename_i kind hsome
    split_ifs at hsome
  · exact ⟨hscan, hsuppressed, by simp [lastLine_concat_newline]⟩

theorem Quiet.processScanChar {ch : Char} (h : Quiet s text) (hrole : ¬ HasRoleLine (text ++ [ch])) :
    Quiet (s.processScanChar ch).1 (text ++ [ch]) := by
  have hprobe := h.probe
  rw [ToolTranscriptSanitizer.processScanChar]
  cases hstart : s.atLineStart with
  | false =>
    rw [hstart] at hprobe
    refine ⟨h.scan, h.suppressed, ?_⟩
    by_cases hch : ch = '\n'
    · subst hch
      simpa [lastLine_concat_newline] using hprobe
    · simpa [hch] using hprobe
  | true =>
    rw [hstart, if_pos rfl] at hprobe
    dsimp only [Bool.not_true]
    rw [if_neg (by simp), hprobe]
    by_cases hch : ch = '\n'
    · subst hch
      rw [if_pos rfl]
      exact Quiet.finishProbeLine h.scan h.suppressed rfl hrole
    · rw [if_neg hch]
      generalize (if s.fence.isNone = true then openingFenceDecidedBeforeEol (lastLine text ++ [ch])
        else none) = decided
      cases decided with
      | some fence => exact ⟨h.scan, h.suppressed, by simp⟩
      | none =>
        dsimp only
        split_ifs
        · exact ⟨h.scan, h.suppressed, by simp⟩
        · exact ⟨h.scan, h.suppressed, by simp [lastLine_concat hch]⟩

theorem Quiet.processChar {ch : Char} (h : Quiet s text) (hrole : ¬ HasRoleLine (text ++ [ch])) :
    Quiet (s.processChar ch).1 (text ++ [ch]) ∧ (s.processChar ch).2.2 = [] := by
  rw [ToolTranscriptSanitizer.processChar, h.scan]
  exact ⟨h.processScanChar hrole, rfl⟩

theorem Quiet.processText {fuel : ℕ} {text chunk : List Char} (h : Quiet s text)
    (hfuel : chunk.length ≤ fuel) (hrole : ¬ HasRoleLine (text ++ chunk)) :
    Quiet (processText fuel s chunk).1 (text ++ chunk) := by
  induction fuel generalizing s text chunk with
  | zero =>
    have hnil : chunk = [] := List.length_eq_zero_iff.mp (Nat.le_zero.mp hfuel)
    subst hnil
    rw [List.append_nil]
    exact h
  | succ fuel ih =>
    cases chunk with
    | nil =>
      rw [List.append_nil]
      exact h
    | cons ch chunk =>
      have hsplit : text ++ ch :: chunk = text ++ [ch] ++ chunk := by simp
      rw [hsplit] at hrole ⊢
      obtain ⟨hnext, hagain⟩ := h.processChar fun hline => hrole (hline.append chunk)
      rw [ToolTranscriptSanitizer.processText]
      dsimp only
      rw [hagain]
      exact ih hnext (Nat.le_of_succ_le_succ hfuel) hrole

theorem Quiet.push {text chunk : List Char} (h : Quiet s text)
    (hrole : ¬ HasRoleLine (text ++ chunk)) : Quiet (s.push chunk).1 (text ++ chunk) := by
  apply h.processText _ hrole
  rw [steps]
  have hle : chunk.length ≤ s.heldLength + chunk.length + 1 := by omega
  exact hle.trans (Nat.le_mul_of_pos_right _ (Nat.succ_pos _))

theorem Quiet.finishSegment (h : Quiet s text) : Quiet s.finishSegment.1 [] := by
  rw [ToolTranscriptSanitizer.finishSegment, finishLoop, h.scan]
  exact ⟨rfl, h.suppressed, rfl⟩

end ToolTranscriptSanitizer

end KiroProxy.TranscriptSanitizer
