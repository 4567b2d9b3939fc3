import KiroProxy.Stream.FinalSerial

/-!
# Whole streams

A stream is a list of upstream events, between which the results of code executions may be
sent, and then the last events. The state manager does not look at other blocks when a
block starts, so the order of the message depends on the order of the upstream events.
`InOrder` says which events keep it.
-/

namespace KiroProxy.Stream.Context

variable {σ : Type} {env : Environment σ} {marks : Marks} {c : Context σ}

/-- What a handler does with the context before the end of the stream. -/
inductive Action
  | event (event : Event)
  | completeCodeExecutions (execute : List Char → ExecutionResult)

def step (env : Environment σ) (c : Context σ) : Action → Context σ
  | .event event => processKiroEvent env event c
  | .completeCodeExecutions execute => completeCodeExecutions env execute c

def start (env : Environment σ) : Context σ :=
  generateInitialEvents (Context.new env)

def run (env : Environment σ) (actions : List Action) : Context σ :=
  actions.foldl (step env) (start env)

/-- The action finds no block open that would still be open after its own block starts. -/
def InOrder (env : Environment σ) (c : Context σ) : Action → Prop
  | .event (.assistantResponse content) => ContentSerial env content c
  | .event (.code content) => ContentSerial env content c
  | .event (.reasoningContent reasoning) => ReasoningSerial env reasoning c
  | .event (.toolUse toolUse) => ToolSerial env toolUse c
  | .event _ => True
  | .completeCodeExecutions _ => CodeSerial c

def SerialFrom (env : Environment σ) : Context σ → List Action → Prop
  | _, [] => True
  | c, action :: actions => InOrder env c action ∧ SerialFrom env (step env c action) actions

variable {s : Slot}

/-- The invariant reads only these fields. -/
theorem Inv.congr {c' : Context σ} (h : Inv env marks c s) (hpath : c'.path = c.path)
    (htool : c'.toolTranscriptSanitizer = c.toolTranscriptSanitizer)
    (hthinking : c'.thinkingTranscriptSanitizer = c.thinkingTranscriptSanitizer)
    (hxml : c'.xml = c.xml) (hnative : c'.native = c.native) (htools : c'.tools = c.tools)
    (htrivial : c'.pendingTrivialText = c.pendingTrivialText) : Inv env marks c' s := by
  obtain ⟨path, toolSanitizer, thinkingSanitizer, xml, native, tools, trivial⟩ := c'
  dsimp only at hpath htool hthinking hxml hnative htools htrivial
  subst hpath htool hthinking hxml hnative htools htrivial
  refine { h with holds := ?_ }
  cases s with
  | idle | text | xml | native | tool => exact h.holds

theorem Inv.recordUpstreamEvent (h : Inv env marks c s) (event : Event) :
    Inv env marks (recordUpstreamEvent event c) s := by
  cases event with
  | assistantResponse | code | reasoningContent | toolUse =>
    exact h.congr rfl rfl rfl rfl rfl rfl rfl
  | metadata | contextUsage | messageMetadata | metering | invalidState | error | exception
  | unknown => exact h

theorem Inv.recordStreamError (h : Inv env marks c s) (errorType message : String) :
    Inv env marks (c.recordStreamError errorType message) s :=
  h.congr rfl rfl rfl rfl rfl rfl rfl

theorem Inv.setStopReason (h : Inv env marks c s) (reason : String) :
    Inv env marks (c.mapOut (·.setStopReason reason)) s :=
  { h.toCore.mapOut (fun _ hserial => hserial.setStopReason reason) subset_rfl with
    undecided := h.undecided
    buffer_empty := h.buffer_empty }

theorem Inv.started (h : Inv env marks c s) :
    Inv env { marks with started := { i | c.out.Started i } } c s := by
  refine { h with holds := ?_ }
  cases s with
  | idle => exact Output.Serial.started h.holds
  | text | xml | native =>
    obtain ⟨i, hserial, hi⟩ := h.holds
    exact ⟨i, hserial.started, hi⟩
  | tool =>
    obtain ⟨i, hserial⟩ := h.holds
    exact ⟨i, hserial.started⟩

theorem admitCall_fst_congr {c' : Context σ} (env : Environment σ) (id name : String)
    (h : c'.tools = c.tools) : (admitCall env id name c').1 = (admitCall env id name c).1 := by
  unfold admitCall
  rw [h]
  dsimp only
  split
  · rfl
  · rfl

theorem Inv.processKiroEvent (h : Inv env marks c s) {event : Event}
    (hserial : InOrder env c (.event event)) :
    ∃ marks' s', Inv env marks' (processKiroEvent env event c) s' := by
  have hrecord := h.started.recordUpstreamEvent event
  cases event with
  | assistantResponse content | code content =>
    have hcontent : ContentSerial env content
        { c with sawUpstreamAssistantContent :=
          c.sawUpstreamAssistantContent || !content.isEmpty } := hserial
    obtain ⟨s', hinv⟩ := hrecord.processAssistantResponse hcontent
    exact ⟨_, s', hinv⟩
  | reasoningContent reasoning =>
    have hreasoning : ReasoningSerial env reasoning
        (Context.recordUpstreamEvent (.reasoningContent reasoning) c) := hserial
    obtain ⟨s', hinv⟩ := hrecord.processReasoningEvent hreasoning
    exact ⟨_, s', hinv⟩
  | toolUse toolUse =>
    have htool : ToolSerial env toolUse { c with sawUpstreamToolUse := true } := by
      intro hadmitted
      refine hserial (Eq.trans ?_ hadmitted)
      exact admitCall_fst_congr env _ _ rfl
    exact hrecord.processToolUse (fun i hi => hi) htool
  | metadata refusal =>
    cases refusal with
    | none => exact ⟨_, s, hrecord⟩
    | some refusal =>
      exact ⟨_, s, (hrecord.setStopReason refusalStopReason).congr rfl rfl rfl rfl rfl rfl rfl⟩
  | contextUsage isFull =>
    cases isFull with
    | false => exact ⟨_, s, hrecord⟩
    | true => exact ⟨_, s, hrecord.setStopReason _⟩
  | messageMetadata | metering | unknown => exact ⟨_, s, hrecord⟩
  | invalidState message | error message => exact ⟨_, s, hrecord.recordStreamError _ _⟩
  | exception exceptionType message =>
    unfold Context.processKiroEvent
    dsimp only
    split_ifs
    · exact ⟨_, s, hrecord.setStopReason _⟩
    · exact ⟨_, s, hrecord.recordStreamError _ _⟩

theorem Inv.step (h : Inv env marks c s) {action : Action} (hserial : InOrder env c action) :
    ∃ marks' s', Inv env marks' (step env c action) s' := by
  cases action with
  | event event => exact h.processKiroEvent hserial
  | completeCodeExecutions execute =>
    have htext : c.tools.pendingCodeExecutions ≠ [] → s.IsText := by
      intro hne
      obtain ⟨htool, hthinking⟩ := Or.resolve_left hserial hne
      exact h.toCore.isText_of_closed htool hthinking
    obtain ⟨s', -, hinv⟩ := h.completeCodeExecutions htext execute
    exact ⟨marks, s', hinv⟩

theorem inv_start (env : Environment σ) : Inv env .none (start env) .idle := by
  have hserial : (start env).out.Serial .none none := by
    obtain ⟨r, hr, htracks⟩ := Output.serial_init
    obtain rfl : MessageRules.init = r := Option.some.inj hr
    exact ⟨⟨.streaming, 0, none⟩, rfl, { htracks with live := .inr rfl }⟩
  have hsettled : env.sanitizer.Settled env.sanitizer.new := env.sanitizer.finishSegment_new
  exact {
    holds := hserial
    native_index := fun _ => rfl
    native_open := fun heq => by cases heq
    segment_seen := fun hopen => by cases hopen
    segment_settled := fun hopen => by cases hopen
    xml_open := fun heq => by cases heq
    thinking_text := fun _ _ hin => by cases hin
    tool_quiet := fun heq => by cases heq
    thinking_settled := fun _ _ => hsettled
    pending_starts := PendingStarts.of_empty rfl
    tool_marks := fun _ _ hget => by cases hget
    undecided := fun _ => hsettled
    buffer_empty := fun _ _ => rfl }

theorem SerialFrom.inv {actions : List Action} (h : SerialFrom env c actions)
    (hinv : Inv env marks c s) :
    ∃ marks' s', Inv env marks' (actions.foldl (Context.step env) c) s' := by
  induction actions generalizing c marks s with
  | nil => exact ⟨marks, s, hinv⟩
  | cons action actions ih =>
    obtain ⟨marks', s', hinv'⟩ := hinv.step h.1
    exact ih h.2 hinv'

theorem SerialFrom.take {actions : List Action} (h : SerialFrom env c actions) (n : ℕ) :
    SerialFrom env c (actions.take n) := by
  induction actions generalizing c n with
  | nil => rwa [List.take_nil]
  | cons action actions ih =>
    cases n with
    | zero => trivial
    | succ n => exact ⟨h.1, ih h.2 n⟩

/-- The run and its last events keep the order of a message: in every state reached, and, when
the end of the stream is in order too, up to the last event. Without a stream error the
message is complete. -/
theorem events_of_serialFrom (env : Environment σ) (actions : List Action)
    (h : SerialFrom env (start env) actions) :
    (∀ n, MessageRules.Accepts (run env (actions.take n)).out.events) ∧
      (FinalSerial env (run env actions) →
        MessageRules.Accepts (generateFinalEvents env (run env actions)).out.events ∧
          ((flushStream env (run env actions)).streamError = none →
            MessageRules.Complete (generateFinalEvents env (run env actions)).out.events)) := by
  constructor
  · intro n
    obtain ⟨marks, s, hinv⟩ := (h.take n).inv (inv_start env)
    obtain ⟨slot, hserial⟩ := hinv.toCore.serial
    exact hserial.accepts
  · intro hfinal
    obtain ⟨marks, s, hinv⟩ := h.inv (inv_start env)
    exact hinv.generateFinalEvents hfinal

theorem noToolOpen_of_openBlocks (h : c.manager.openBlocks (· = .toolUse) = []) :
    NoToolOpen c := by
  intro i
  rw [Bool.eq_false_iff]
  intro hopen
  obtain ⟨b, hb, hisOpen, htype⟩ := SseStateManager.isBlockOpenOfType_iff.mp hopen
  have hmem : i ∈ c.manager.openBlocks (· = .toolUse) :=
    List.mem_map.mpr ⟨(i, b), List.mem_filter.mpr ⟨KeyedList.mem_of_get hb, by
      simp [hisOpen, htype]⟩, rfl⟩
  rw [h] at hmem
  cases hmem

/-- A sanitizer that holds nothing back, as on text without transcripts. -/
def passSanitizer : TranscriptSanitizer Unit where
  new := ()
  push _ text := (text, ())
  finishSegment _ := ([], ())
  suppressedBlocks _ := 0
  finishSegment_new := rfl
  finishSegment_finishSegment _ := rfl

/-- A request with two tools, on text without tags and literal calls. -/
def plainEnvironment : Environment Unit where
  sanitizer := passSanitizer
  thinkingEnabled := true
  extractXmlThinking := true
  syntheticThinkingSignatures := false
  codeExecution := false
  toolNameMap := []
  knownToolNames := ["Read", "Bash"]
  unavailableToolNames := []
  maxToolUses := none
  findRealThinkingStartTagWithVariant _ := none
  thinkingOpenTagPartialStart _ := none
  findRealThinkingEndTagFor _ _ _ _ := none
  findNextLiteralProtocolOpen _ := none
  trailingLiteralProtocolCandidateStart _ := none
  parseFunctionCallsEnvelope _ _ := .incomplete
  parseSearchWebEnvelope _ _ := .incomplete
  stripTrailingStrayTokens text := text
  knownWebsearchToolName := none
  searchInputJson query := query
  isJson text := text = "{}".toList
  parsedJson _ := none
  hasSchemaKeyMap _ := false
  reverseToolInputJson _ input := input
  repairToolUseInputJsonForCli _ input := input
  toolUseSignature name input := name.toList ++ input
  syntheticThinkingSignature _ := []
  publicIdSuffix id := id
  randomToolUseId _ := "toolu_x"
  randomServerToolUseId _ := "srvtoolu_x"
  publicStreamErrorMessage _ message _ := message

/-- Text, and a call in two fragments. -/
def serialActions : List Action :=
  [.event (.assistantResponse "Reading.".toList),
    .event (.toolUse ⟨"Read", "toolu_a", "\x7b".toList, false⟩),
    .event (.toolUse ⟨"Read", "toolu_a", "\x7d".toList, true⟩)]

theorem events_of_serialActions :
    SerialFrom plainEnvironment (start plainEnvironment) serialActions ∧
      FinalSerial plainEnvironment (run plainEnvironment serialActions) ∧
      MessageRules.Complete
        (generateFinalEvents plainEnvironment (run plainEnvironment serialActions)).out.events := by
  have hserial : SerialFrom plainEnvironment (start plainEnvironment) serialActions := by
    refine ⟨.inr ⟨fun _ => rfl, .inr fun _ => ⟨fun hne => absurd rfl hne, fun _ _ _ hfind => ?_⟩⟩,
      fun _ _ _ => noToolOpen_of_openBlocks ?_, fun _ _ => ?_, trivial⟩
    · cases hfind
    · decide +kernel
    · exact ⟨⟨.toolUse, true, false⟩, by decide +kernel⟩
  have hclosed : NoToolOpen (run plainEnvironment serialActions) :=
    noToolOpen_of_openBlocks (by decide +kernel)
  have hfinal : FinalSerial plainEnvironment (run plainEnvironment serialActions) := by
    refine ⟨fun hpending => absurd (by decide +kernel) hpending, fun i hstays => ?_,
      fun hopen => absurd hopen (by decide +kernel),
      fun _ hcode => absurd (by decide +kernel) hcode⟩
    exact absurd ((hclosed i).symm.trans hstays.1) (by decide)
  exact ⟨hserial, hfinal, ((events_of_serialFrom plainEnvironment serialActions hserial).2
    hfinal).2 (by decide +kernel)⟩

/-- The calls of two tools, one begun inside the other. -/
def interleavedActions : List Action :=
  [.event (.toolUse ⟨"Read", "toolu_a", "\x7b".toList, false⟩),
    .event (.toolUse ⟨"Bash", "toolu_b", "\x7b".toList, false⟩),
    .event (.toolUse ⟨"Read", "toolu_a", "\x7d".toList, true⟩),
    .event (.toolUse ⟨"Bash", "toolu_b", "\x7d".toList, true⟩)]

/-- The block of the second call starts while that of the first is open. -/
theorem not_accepts_interleavedActions :
    ¬ MessageRules.Accepts (generateFinalEvents plainEnvironment
      (run plainEnvironment interleavedActions)).out.events := by
  rintro ⟨r, hr⟩
  have hrun : MessageRules.run (generateFinalEvents plainEnvironment
      (run plainEnvironment interleavedActions)).out.events = none := by decide +kernel
  rw [hrun] at hr
  cases hr

end KiroProxy.Stream.Context
