import KiroProxy.Stream.Environment
import KiroProxy.Stream.Output

/-!
# The path of visible text

Text that has passed the transcript sanitizer goes through a buffer that looks for literal
tool calls, then through the guard against repeated stray tokens, and into the text block,
which is started when the text block used last is no longer open.
-/

namespace KiroProxy.Stream

structure LeakedTool where
  name : String
  inputJson : List Char
  signature : List Char
  deriving DecidableEq, Repr

structure TextState where
  textBlockIndex : Option ℕ := none
  invokeSniffBuffer : List Char := []
  codeFenceOpen : Bool := false
  fenceScanPartial : List Char := []
  visibleTextCharsEmitted : ℕ := 0
  repeatGuardLastLine : List Char := []
  repeatGuardRun : ℕ := 0
  repeatGuardTripped : Bool := false
  pendingLeakedTools : List LeakedTool := []
  deriving DecidableEq, Repr

def strayInvokeTokens : List (List Char) :=
  ["call".toList, "count".toList, "card".toList]

def repeatGuardTripThreshold : ℕ := 32

def maxFunctionCallsEnvelopeHoldBytes : ℕ := 262144

def functionCallsOpen : List Char := "<function_calls>".toList

def searchWebOpen : List Char := "<search_web>".toList

/-- The lines of a text, each with the newline that ends it. -/
def splitInclusive : List Char → List (List Char)
  | [] => []
  | c :: cs =>
    if c = '\n' then [c] :: splitInclusive cs
    else
      match splitInclusive cs with
      | [] => [[c]]
      | line :: lines => (c :: line) :: lines

def advanceCodeFenceState : Bool → List Char → List Char → Bool × List Char
  | isOpen, linePart, [] => (isOpen, linePart)
  | isOpen, linePart, c :: cs =>
    if c = '\n' then
      advanceCodeFenceState (isOpen ^^ "```".toList.isPrefixOf (trimStart linePart)) [] cs
    else advanceCodeFenceState isOpen (linePart ++ [c]) cs

def skipProtocolWhitespace (cs : List Char) : List Char :=
  cs.dropWhile fun c => c = ' ' || c = '\t' || c = '\r' || c = '\n'

scoped instance lawfulBEq_chars : LawfulBEq (List Char) := inferInstance

namespace TextState

def repeatGuardLoop : TextState → List Char → List (List Char) → List Char × TextState
  | t, kept, [] => (kept, t)
  | t, kept, segment :: rest =>
    let line := trimChars segment
    if line ∈ strayInvokeTokens then
      let t := if line = t.repeatGuardLastLine then
          { t with repeatGuardRun := t.repeatGuardRun + 1 }
        else { t with repeatGuardLastLine := line, repeatGuardRun := 1 }
      if repeatGuardTripThreshold ≤ t.repeatGuardRun then
        (kept, { t with repeatGuardTripped := true })
      else repeatGuardLoop t (kept ++ segment) rest
    else
      let t := if line = [] then t
        else { t with repeatGuardLastLine := line, repeatGuardRun := 0 }
      repeatGuardLoop t (kept ++ segment) rest

def repeatGuardFilter (t : TextState) (text : List Char) : List Char × TextState :=
  if t.repeatGuardTripped then ([], t) else repeatGuardLoop t [] (splitInclusive text)

def advanceFence (t : TextState) (text : List Char) : TextState :=
  let (isOpen, linePart) := advanceCodeFenceState t.codeFenceOpen t.fenceScanPartial text
  { t with codeFenceOpen := isOpen, fenceScanPartial := linePart }

end TextState

/-- The part of the state that the path of visible text reads and writes. -/
structure TextPath where
  out : Output
  text : TextState
  deriving DecidableEq, Repr

namespace TextPath

def ensureTextBlock (p : TextPath) : ℕ × TextPath :=
  match p.text.textBlockIndex.filter (p.out.manager.isBlockOpenOfType · .text) with
  | some index => (index, p)
  | none =>
    let index := p.out.manager.nextBlockIndex
    (index, ⟨p.out.startNew (.text []), { p.text with textBlockIndex := some index }⟩)

def sendTextDelta (p : TextPath) (index : ℕ) (text : List Char) : TextPath :=
  match p.out.manager.handleContentBlockDelta index (.textDelta text) with
  | some event =>
    ⟨p.out.push event, { p.text with visibleTextCharsEmitted :=
      p.text.visibleTextCharsEmitted + text.countP fun c => !isWhitespace c }⟩
  | none => p

def emitTextDeltaRaw (p : TextPath) (text : List Char) : TextPath :=
  let (kept, t) := p.text.repeatGuardFilter text
  if kept = [] then { p with text := t }
  else
    let (index, p) := ensureTextBlock { p with text := t.advanceFence kept }
    p.sendTextDelta index kept

section Sniffing

variable {σ : Type} (env : Environment σ) (seenToolSigs : List (List Char))

/-- The part of the text before a literal tool call that stays visible, if the call counts. -/
def protocolVisiblePrefix (p : TextPath) (before : List Char) : Option (List Char) :=
  let fenceOpen := (advanceCodeFenceState p.text.codeFenceOpen p.text.fenceScanPartial before).1
  let atLineStart := before = [] ∨ before.getLast? = some '\n' ∨ before.getLast? = some '\r'
  if fenceOpen ∨ ¬atLineStart then none
  else
    let visible := env.stripTrailingStrayTokens before
    let hadStrayMarker := visible.length ≠ before.length
    let atProtocolRoot := p.text.visibleTextCharsEmitted = 0 ∧ isBlank visible
    let continuingProtocolChain := p.text.pendingLeakedTools ≠ [] ∧ isBlank visible
    if hadStrayMarker ∨ atProtocolRoot ∨ continuingProtocolChain then some visible else none

def queueLeakedToolUse (p : TextPath) (call : ParsedLiteralToolCall) : TextPath :=
  let resolved :=
    ToolNameRestore.resolveResponseToolName env.toolNameMap env.knownToolNames call.name
  let inputJson := env.reverseToolInputJson resolved.upstream call.inputJson
  let inputJson := env.repairToolUseInputJsonForCli resolved.original inputJson
  let signature := env.toolUseSignature resolved.original inputJson
  if signature ∈ seenToolSigs ∨ p.text.pendingLeakedTools.any (·.signature = signature) then p
  else { p with text := { p.text with pendingLeakedTools :=
    p.text.pendingLeakedTools ++ [⟨resolved.original, inputJson, signature⟩] } }

def emitNonempty (p : TextPath) (text : List Char) : TextPath :=
  if text = [] then p else p.emitTextDeltaRaw text

def holdBack (p : TextPath) (text : List Char) : TextPath :=
  { p with text := { p.text with invokeSniffBuffer := text } }

/-- An envelope that is not complete yet is held back after its visible part, unless this is
the end of the stream or too much is held. -/
def holdEnvelope (flush : Bool) (p : TextPath) (buf visible : List Char) : TextPath :=
  if flush ∨ maxFunctionCallsEnvelopeHoldBytes < utf8Length (buf.drop visible.length) then
    p.emitTextDeltaRaw buf
  else (p.emitNonempty (buf.take visible.length)).holdBack (buf.drop visible.length)

/-- Every round takes at least an opening tag from the buffer, so as many rounds as the
buffer has characters are enough. -/
def drainLoop (flush : Bool) : ℕ → List Char → TextPath → TextPath
  | 0, _, p => p
  | rounds + 1, buf, p =>
    match env.findNextLiteralProtocolOpen buf with
    | none =>
      if flush then p.emitNonempty buf
      else
        match env.trailingLiteralProtocolCandidateStart buf with
        | some hold => (p.emitNonempty (buf.take hold)).holdBack (buf.drop hold)
        | none => p.emitNonempty buf
    | some (start, kind) =>
      let visibleBefore := p.protocolVisiblePrefix env (buf.take start)
      match kind with
      | .functionCalls =>
        match env.parseFunctionCallsEnvelope buf start, visibleBefore with
        | .complete stop (some calls), some visible =>
          if calls.all fun call => call.name ∈ env.knownToolNames then
            drainLoop flush rounds (skipProtocolWhitespace (buf.drop stop))
              (calls.foldl (queueLeakedToolUse env seenToolSigs) (p.emitNonempty visible))
          else drainLoop flush rounds (buf.drop stop) (p.emitTextDeltaRaw (buf.take stop))
        | .complete stop _, _ =>
          drainLoop flush rounds (buf.drop stop) (p.emitTextDeltaRaw (buf.take stop))
        | .incomplete, some visible => holdEnvelope flush p buf visible
        | .incomplete, none =>
          let released := start + functionCallsOpen.length
          drainLoop flush rounds (buf.drop released) (p.emitTextDeltaRaw (buf.take released))
      | .searchWeb =>
        match env.parseSearchWebEnvelope buf start, visibleBefore with
        | .complete stop (some query), some visible =>
          match env.knownWebsearchToolName with
          | some name =>
            drainLoop flush rounds (skipProtocolWhitespace (buf.drop stop))
              (queueLeakedToolUse env seenToolSigs (p.emitNonempty visible)
                ⟨name, env.searchInputJson query⟩)
          | none => drainLoop flush rounds (buf.drop stop) (p.emitTextDeltaRaw (buf.take stop))
        | .complete stop _, _ =>
          drainLoop flush rounds (buf.drop stop) (p.emitTextDeltaRaw (buf.take stop))
        | .incomplete, some visible => holdEnvelope flush p buf visible
        | .incomplete, none =>
          let released := start + searchWebOpen.length
          drainLoop flush rounds (buf.drop released) (p.emitTextDeltaRaw (buf.take released))

def drainInvokeSniffBuffer (flush : Bool) (p : TextPath) : TextPath :=
  let buf := p.text.invokeSniffBuffer
  drainLoop env seenToolSigs flush (buf.length + 1) buf (p.holdBack [])

def createSanitizedTextDeltaEvents (p : TextPath) (text : List Char) : TextPath :=
  if text = [] then p
  else drainInvokeSniffBuffer env seenToolSigs false
    (p.holdBack (p.text.invokeSniffBuffer ++ text))

end Sniffing

theorem textBlockIndex_repeatGuardLoop (t : TextState) (kept : List Char)
    (segments : List (List Char)) :
    (t.repeatGuardLoop kept segments).2.textBlockIndex = t.textBlockIndex := by
  induction segments generalizing t kept with
  | nil => rfl
  | cons segment rest ih =>
    unfold TextState.repeatGuardLoop
    dsimp only
    split_ifs
    all_goals first | rfl | exact ih _ _

theorem textBlockIndex_repeatGuardFilter (t : TextState) (text : List Char) :
    (t.repeatGuardFilter text).2.textBlockIndex = t.textBlockIndex := by
  unfold TextState.repeatGuardFilter
  split_ifs
  · rfl
  · exact textBlockIndex_repeatGuardLoop t _ _

variable {σ : Type} {env : Environment σ} {marks : Marks}

/-- A property of the path that survives the emission of text, and for which only the text block
counts, survives everything that text can do. -/
structure Kept (P : TextPath → Prop) : Prop where
  with_text : ∀ {p : TextPath} {t : TextState}, P p →
    t.textBlockIndex = p.text.textBlockIndex → P { p with text := t }
  emitTextDeltaRaw : ∀ {p : TextPath} (text : List Char), P p → P (p.emitTextDeltaRaw text)

section Kept

variable {P : TextPath → Prop} {p : TextPath}

theorem Kept.emitNonempty (hP : Kept P) (h : P p) (text : List Char) : P (p.emitNonempty text) := by
  unfold TextPath.emitNonempty
  split_ifs
  · exact h
  · exact hP.emitTextDeltaRaw text h

theorem Kept.holdBack (hP : Kept P) (h : P p) (text : List Char) : P (p.holdBack text) :=
  hP.with_text h rfl

theorem Kept.holdEnvelope (hP : Kept P) (h : P p) (flush : Bool) (buf visible : List Char) :
    P (TextPath.holdEnvelope flush p buf visible) := by
  unfold TextPath.holdEnvelope
  split_ifs
  · exact hP.emitTextDeltaRaw buf h
  · exact hP.holdBack (hP.emitNonempty h _) _

theorem Kept.queueLeakedToolUse (hP : Kept P) (h : P p) (seen : List (List Char))
    (call : ParsedLiteralToolCall) : P (p.queueLeakedToolUse env seen call) := by
  unfold TextPath.queueLeakedToolUse
  dsimp only
  split_ifs
  · exact h
  · exact hP.with_text h rfl

theorem Kept.queueLeakedToolUses (hP : Kept P) (h : P p) (seen : List (List Char))
    (calls : List ParsedLiteralToolCall) :
    P (calls.foldl (TextPath.queueLeakedToolUse env seen) p) := by
  induction calls generalizing p with
  | nil => exact h
  | cons call calls ih => exact ih (hP.queueLeakedToolUse h seen call)

theorem Kept.drainLoop (hP : Kept P) (h : P p) (seen : List (List Char)) (flush : Bool)
    (rounds : ℕ) (buf : List Char) : P (TextPath.drainLoop env seen flush rounds buf p) := by
  induction rounds generalizing buf p with
  | zero => exact h
  | succ rounds ih =>
    unfold TextPath.drainLoop
    split
    · split_ifs
      · exact hP.emitNonempty h buf
      · split
        · exact hP.holdBack (hP.emitNonempty h _) _
        · exact hP.emitNonempty h buf
    · dsimp only
      split
      · split
        · split_ifs
          · exact ih (hP.queueLeakedToolUses (hP.emitNonempty h _) seen _) _
          · exact ih (hP.emitTextDeltaRaw _ h) _
        · exact ih (hP.emitTextDeltaRaw _ h) _
        · exact hP.holdEnvelope h flush buf _
        · exact ih (hP.emitTextDeltaRaw _ h) _
      · split
        · split
          · exact ih (hP.queueLeakedToolUse (hP.emitNonempty h _) seen _) _
          · exact ih (hP.emitTextDeltaRaw _ h) _
        · exact ih (hP.emitTextDeltaRaw _ h) _
        · exact hP.holdEnvelope h flush buf _
        · exact ih (hP.emitTextDeltaRaw _ h) _

theorem Kept.drainInvokeSniffBuffer (hP : Kept P) (h : P p) (seen : List (List Char))
    (flush : Bool) : P (p.drainInvokeSniffBuffer env seen flush) :=
  hP.drainLoop (hP.holdBack h []) seen flush _ _

theorem Kept.createSanitizedTextDeltaEvents (hP : Kept P) (h : P p) (seen : List (List Char))
    (text : List Char) : P (p.createSanitizedTextDeltaEvents env seen text) := by
  unfold TextPath.createSanitizedTextDeltaEvents
  split_ifs
  · exact h
  · exact hP.drainInvokeSniffBuffer (hP.holdBack h _) seen false

end Kept

/-- Nothing is open but the text block of the state. -/
def Textual (marks : Marks) (p : TextPath) : Prop :=
  p.out.Serial marks none ∨
    ∃ i, p.out.Serial marks (some (i, .text)) ∧ p.text.textBlockIndex = some i

variable {p : TextPath}

theorem Textual.with_text (h : Textual marks p) {t : TextState}
    (ht : t.textBlockIndex = p.text.textBlockIndex) : Textual marks { p with text := t } := by
  rcases h with h | ⟨i, h, hi⟩
  · exact .inl h
  · exact .inr ⟨i, h, ht.trans hi⟩

theorem Textual.ensureTextBlock (h : Textual marks p) :
    p.ensureTextBlock.2.out.Serial marks (some (p.ensureTextBlock.1, .text)) ∧
      p.ensureTextBlock.2.text.textBlockIndex = some p.ensureTextBlock.1 := by
  unfold TextPath.ensureTextBlock
  cases hopen : p.text.textBlockIndex.filter (p.out.manager.isBlockOpenOfType · .text) with
  | some index =>
    obtain ⟨hindex, hopen⟩ := Option.filter_eq_some_iff.mp hopen
    rcases h with h | ⟨i, h, -⟩
    · cases (h.isOpen_iff index .text).mp hopen
    · obtain ⟨rfl, -⟩ := Prod.mk.inj (Option.some.inj ((h.isOpen_iff index .text).mp hopen))
      exact ⟨h, hindex⟩
  | none =>
    rcases h with h | ⟨i, h, hi⟩
    · exact ⟨h.startNew rfl, rfl⟩
    · rw [hi] at hopen
      have hopen' := (h.isOpen_iff i .text).mpr rfl
      simp [Option.filter, hopen'] at hopen

theorem Textual.sendTextDelta {i : ℕ}
    (h : p.out.Serial marks (some (i, .text)) ∧ p.text.textBlockIndex = some i) (text : List Char) :
    Textual marks (p.sendTextDelta i text) := by
  unfold TextPath.sendTextDelta
  cases hevent : p.out.manager.handleContentBlockDelta i (.textDelta text) with
  | none => exact .inr ⟨i, h⟩
  | some event =>
    have hout : p.out.push event = p.out.delta i (.textDelta text) := by
      rw [Output.delta, hevent, Output.push, Option.toList_some]
    refine .inr ⟨i, ?_, h.2⟩
    have hserial := h.1.delta i (.textDelta text)
    rwa [← hout] at hserial

theorem Textual.emitTextDeltaRaw (h : Textual marks p) (text : List Char) :
    Textual marks (p.emitTextDeltaRaw text) := by
  have hguard := textBlockIndex_repeatGuardFilter p.text text
  unfold TextPath.emitTextDeltaRaw
  dsimp only
  split_ifs
  · exact h.with_text hguard
  · have hfence : ((p.text.repeatGuardFilter text).2.advanceFence
        (p.text.repeatGuardFilter text).1).textBlockIndex = p.text.textBlockIndex := hguard
    exact Textual.sendTextDelta (Textual.ensureTextBlock (h.with_text hfence)) _

theorem kept_textual (marks : Marks) : Kept (Textual marks) where
  with_text h ht := h.with_text ht
  emitTextDeltaRaw text h := h.emitTextDeltaRaw text

theorem Textual.drainInvokeSniffBuffer (h : Textual marks p) (seen : List (List Char))
    (flush : Bool) : Textual marks (p.drainInvokeSniffBuffer env seen flush) :=
  (kept_textual marks).drainInvokeSniffBuffer h seen flush

theorem Textual.createSanitizedTextDeltaEvents (h : Textual marks p) (seen : List (List Char))
    (text : List Char) : Textual marks (p.createSanitizedTextDeltaEvents env seen text) :=
  (kept_textual marks).createSanitizedTextDeltaEvents h seen text

end TextPath

end KiroProxy.Stream
