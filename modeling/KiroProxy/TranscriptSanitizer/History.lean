import KiroProxy.TranscriptSanitizer.Sanitizer

/-!
# Sanitizing assistant history

One sanitizer reads all the text of a run of consecutive assistant messages, another one the
thinking. The text is cut into segments by blocks that are neither text nor untyped; within a
segment the texts of blocks and messages follow each other without a separator.
-/

namespace KiroProxy.TranscriptSanitizer

/-- The value of a field, of an object only. -/
def getKey (key : String) : Json → Option Json
  | .obj fields => Json.getField fields key
  | _ => none

def getStr (key : String) (value : Json) : Option String := (getKey key value).bind Json.asStr

def asArray : Json → Option (List Json)
  | .arr items => some items
  | _ => none

def putKey (key : String) (value : Json) : Json → Json
  | .obj fields => .obj (Json.insertField fields key value)
  | other => other

structure AnthropicMessage where
  role : String
  content : Json

structure AssistantHistorySanitization where
  messages : ℕ
  blocks : ℕ
  chars : ℕ
  kinds : List String

def TranscriptLeakKind.asStr : TranscriptLeakKind → String
  | .continueToolResult => "continue_tool_result"
  | .legacyToolResults => "legacy_tool_results"
  | .rolelessToolResults => "roleless_tool_results"

def AssistantHistorySanitization.default : AssistantHistorySanitization where
  messages := 0
  blocks := 0
  chars := 0
  kinds := []

def sanitizationReportForCompleteBlock (s : ToolTranscriptSanitizer) :
    AssistantHistorySanitization where
  messages := 0
  blocks := s.suppressedBlocks
  chars := s.suppressedChars
  kinds := (s.matchedKinds.map TranscriptLeakKind.asStr).insertionSort (· ≤ ·)

/-- Counters are 32 bits wide, the one of characters has 64. -/
def mergeSanitizationReport (target source : AssistantHistorySanitization) :
    AssistantHistorySanitization where
  messages := min (target.messages + source.messages) (2 ^ 32 - 1)
  blocks := min (target.blocks + source.blocks) (2 ^ 32 - 1)
  chars := min (target.chars + source.chars) (2 ^ 64 - 1)
  kinds := (target.kinds ∪ source.kinds).insertionSort (· ≤ ·)

inductive TextLocation
  | string (message : ℕ)
  | block (message block : ℕ)
  deriving DecidableEq, Repr

structure RunState where
  sanitizer : ToolTranscriptSanitizer
  thinkingSanitizer : ToolTranscriptSanitizer
  removedBlocks : List (ℕ × ℕ)
  lastText : Option TextLocation
  releasedText : List (Option TextLocation × List Char)

/-- What is done with thinking that carries a signature. -/
structure ThinkingPolicy where
  preserveAuthenticatedThinking : Bool
  inspectAuthenticatedThinking : Bool

def RunState.release (st : RunState) (pending : List Char) : RunState :=
  if pending.isEmpty then st
  else { st with releasedText := st.releasedText ++ [(st.lastText, pending)] }

def RunState.boundary (st : RunState) : RunState :=
  let (sanitizer, pending) := st.sanitizer.structuredToolBoundary
  { st with sanitizer }.release pending

/-- The field of the thinking, and whether it may not be changed. -/
def thinkingField (block : Json) : String × Bool :=
  if getStr "type" block = some "thinking" then
    ("thinking", (getStr "signature" block).any fun signature => !signature.isEmpty)
  else ("data", true)

def RunState.readThinking (st : RunState) (text : String) : RunState × List Char :=
  let (pushed, safe) := st.thinkingSanitizer.push text.toList
  let (finished, tail) := pushed.finish
  ({ st with thinkingSanitizer := finished }, safe ++ tail)

def processThinking (policy : ThinkingPolicy) (messageIdx blockIdx : ℕ) (st : RunState)
    (block : Json) : RunState × Json :=
  let (field, atomic) := thinkingField block
  if atomic && policy.preserveAuthenticatedThinking then
    if policy.inspectAuthenticatedThinking then
      ((st.readThinking ((getStr field block).getD "")).1, block)
    else (st, block)
  else
    match getStr field block with
    | none => (st, block)
    | some original =>
      let suppressedBefore := st.thinkingSanitizer.suppressedBlocks
      let (st, safe) := st.readThinking original
      if suppressedBefore < st.thinkingSanitizer.suppressedBlocks then
        if safe.isEmpty then
          ({ st with removedBlocks := (messageIdx, blockIdx) :: st.removedBlocks }, block)
        else (st, putKey field (.str (String.ofList safe)) block)
      else (st, block)

def processBlock (policy : ThinkingPolicy) (messageIdx blockIdx : ℕ) (st : RunState)
    (block : Json) : RunState × Json :=
  match getStr "type" block with
  | none => (st, block)
  | some blockType =>
    if blockType = "text" then
      match getStr "text" block with
      | none => (st, block)
      | some text =>
        let (sanitizer, output) := st.sanitizer.push text.toList
        ({ st with sanitizer, lastText := some (.block messageIdx blockIdx) },
          putKey "text" (.str (String.ofList output)) block)
    else if blockType = "thinking" ∨ blockType = "redacted_thinking" then
      processThinking policy messageIdx blockIdx st.boundary block
    else (st.boundary, block)

def processBlocks (policy : ThinkingPolicy) (messageIdx : ℕ) :
    ℕ → RunState → List Json → RunState × List Json
  | _, st, [] => (st, [])
  | blockIdx, st, block :: blocks =>
    let (st, block) := processBlock policy messageIdx blockIdx st block
    let (st, blocks) := processBlocks policy messageIdx (blockIdx + 1) st blocks
    (st, block :: blocks)

def processContent (policy : ThinkingPolicy) (messageIdx : ℕ) (st : RunState) :
    Json → RunState × Json
  | .str text =>
    let (sanitizer, output) := st.sanitizer.push text.toList
    ({ st with sanitizer, lastText := some (.string messageIdx) }, .str (String.ofList output))
  | .arr blocks =>
    let (st, blocks) := processBlocks policy messageIdx 0 st blocks
    (st, .arr blocks)
  | other => (st.boundary, other)

def processContents (policy : ThinkingPolicy) : ℕ → RunState → List Json → RunState × List Json
  | _, st, [] => (st, [])
  | messageIdx, st, content :: contents =>
    let (st, content) := processContent policy messageIdx st content
    let (st, contents) := processContents policy (messageIdx + 1) st contents
    (st, content :: contents)

def appendText (suffix : List Char) (block : Json) : Json :=
  putKey "text" (.str (((getStr "text" block).getD "") ++ String.ofList suffix)) block

def appendToLocation (contents : List Json) (location : Option TextLocation)
    (suffix : List Char) : List Json :=
  match location with
  | none => contents
  | some (.string messageIdx) =>
    contents.modify messageIdx fun content =>
      match content with
      | .str text => .str (text ++ String.ofList suffix)
      | other => other
  | some (.block messageIdx blockIdx) =>
    contents.modify messageIdx fun content =>
      match content with
      | .arr blocks => .arr (blocks.modify blockIdx (appendText suffix))
      | other => other

/-- Messages and blocks from which everything was removed keep one space. -/
def fillContent (removedBlocks : List (ℕ × ℕ)) (messageIdx : ℕ) : Json → Json
  | .str text => if text.isEmpty then .str " " else .str text
  | .arr blocks =>
    let kept := blocks.zipIdx.filterMap fun (block, blockIdx) =>
      if removedBlocks.contains (messageIdx, blockIdx) then none
      else if getStr "type" block = some "text" ∧
        !((getStr "text" block).any fun text => !text.isEmpty) then none
      else some block
    .arr (if kept.isEmpty then [.obj [("text", .str " "), ("type", .str "text")]] else kept)
  | other => other

def sanitizeAssistantRun (sha256 : String → Digest) (policy : ThinkingPolicy)
    (knownToolNames : List String) (originals : List Json) :
    List Json × AssistantHistorySanitization :=
  let sanitizer := ToolTranscriptSanitizer.new sha256 knownToolNames
  let start : RunState :=
    { sanitizer, thinkingSanitizer := sanitizer, removedBlocks := [], lastText := none,
      releasedText := [] }
  let (st, contents) := processContents policy 0 start originals
  let (sanitizer, tail) := st.sanitizer.finish
  let st := { st with sanitizer }.release tail
  let contents := st.releasedText.foldl (fun contents (location, text) =>
    appendToLocation contents location text) contents
  let report := mergeSanitizationReport (sanitizationReportForCompleteBlock st.sanitizer)
    (sanitizationReportForCompleteBlock st.thinkingSanitizer)
  if report.blocks = 0 then (originals, .default)
  else
    let contents := contents.mapIdx (fillContent st.removedBlocks)
    let changed := (contents.zip originals).countP fun (content, original) => content != original
    (contents, { report with messages := min changed (2 ^ 32 - 1) })

/-- The loop over the messages takes each run of assistant messages at once. -/
def sanitizeRuns (sha256 : String → Digest) (policy : ThinkingPolicy) (knownToolNames : List String) :
    ℕ → AssistantHistorySanitization → List AnthropicMessage →
      List AnthropicMessage × AssistantHistorySanitization
  | 0, report, messages => (messages, report)
  | _, report, [] => ([], report)
  | fuel + 1, report, message :: messages =>
    if message.role ≠ "assistant" then
      let (rest, report) := sanitizeRuns sha256 policy knownToolNames fuel report messages
      (message :: rest, report)
    else
      let run := message :: messages.takeWhile fun m => m.role == "assistant"
      let rest := messages.dropWhile fun m => m.role == "assistant"
      let (contents, runReport) :=
        sanitizeAssistantRun sha256 policy knownToolNames (run.map AnthropicMessage.content)
      let (rest, report) := sanitizeRuns sha256 policy knownToolNames fuel
        (mergeSanitizationReport report runReport) rest
      (contents.map (fun content => { role := "assistant", content }) ++ rest, report)

def sanitizeAssistantMessageRunsWithPolicy (sha256 : String → Digest) (policy : ThinkingPolicy)
    (messages : List AnthropicMessage) (knownToolNames : List String) :
    List AnthropicMessage × AssistantHistorySanitization :=
  sanitizeRuns sha256 policy knownToolNames messages.length .default messages

def sanitizeAssistantMessageRuns (sha256 : String → Digest) (messages : List AnthropicMessage)
    (knownToolNames : List String) : List AnthropicMessage × AssistantHistorySanitization :=
  sanitizeAssistantMessageRunsWithPolicy sha256
    { preserveAuthenticatedThinking := true, inspectAuthenticatedThinking := false } messages
    knownToolNames

def arrayAt (key : String) (value : Json) : List Json := ((getKey key value).bind asArray).getD []

def collectKnownToolNamesFromValue (value : Json) : List String :=
  (arrayAt "tools" value).filterMap (getStr "name") ++
    ((arrayAt "messages" value).flatMap (arrayAt "content")).filterMap fun block =>
      if getStr "type" block = some "tool_use" then getStr "name" block else none

/-- The messages of a parsed body. -/
def projectedMessages (value : Json) : List AnthropicMessage :=
  (arrayAt "messages" value).map fun message =>
    { role := (getStr "role" message).getD "", content := (getKey "content" message).getD .null }

/-- The text reaches the sanitizer, or the segment ends. -/
inductive TextEvent
  | text (text : List Char)
  | boundary

def blockEvents (block : Json) : List TextEvent :=
  match getStr "type" block with
  | none => []
  | some blockType =>
    if blockType = "text" then ((getStr "text" block).map fun text => .text text.toList).toList
    else [.boundary]

def contentEvents : Json → List TextEvent
  | .str text => [.text text.toList]
  | .arr blocks => blocks.flatMap blockEvents
  | _ => [.boundary]

def segments (read : List (List Char)) : List TextEvent → List (List (List Char))
  | [] => [read]
  | .text text :: events => segments (read ++ [text]) events
  | .boundary :: events => read :: segments [] events

def blockThinking (policy : ThinkingPolicy) (block : Json) : List (List Char) :=
  if getStr "type" block = some "thinking" ∨ getStr "type" block = some "redacted_thinking" then
    if (thinkingField block).2 && policy.preserveAuthenticatedThinking then
      if policy.inspectAuthenticatedThinking then
        [((getStr (thinkingField block).1 block).getD "").toList]
      else []
    else ((getStr (thinkingField block).1 block).map String.toList).toList
  else []

def contentThinking (policy : ThinkingPolicy) : Json → List (List Char)
  | .arr blocks => blocks.flatMap (blockThinking policy)
  | _ => []

def readEvent (s : ToolTranscriptSanitizer) : TextEvent → ToolTranscriptSanitizer
  | .text text => (s.push text).1
  | .boundary => s.structuredToolBoundary.1

def readWhole (s : ToolTranscriptSanitizer) (text : List Char) : ToolTranscriptSanitizer :=
  (s.push text).1.finish.1

variable (st : RunState) (policy : ThinkingPolicy) (i j : ℕ)

@[simp] theorem RunState.release_sanitizer (pending : List Char) :
    (st.release pending).sanitizer = st.sanitizer := by
  rw [RunState.release]
  split_ifs <;> rfl

@[simp] theorem RunState.release_thinkingSanitizer (pending : List Char) :
    (st.release pending).thinkingSanitizer = st.thinkingSanitizer := by
  rw [RunState.release]
  split_ifs <;> rfl

@[simp] theorem RunState.boundary_sanitizer :
    st.boundary.sanitizer = readEvent st.sanitizer .boundary :=
  RunState.release_sanitizer _ _

@[simp] theorem RunState.boundary_thinkingSanitizer :
    st.boundary.thinkingSanitizer = st.thinkingSanitizer :=
  RunState.release_thinkingSanitizer _ _

theorem RunState.readThinking_thinkingSanitizer (text : String) :
    (st.readThinking text).1.thinkingSanitizer = readWhole st.thinkingSanitizer text.toList := rfl

theorem RunState.readThinking_sanitizer (text : String) :
    (st.readThinking text).1.sanitizer = st.sanitizer := rfl

theorem processThinking_sanitizers (st : RunState) {block : Json}
    (htype : getStr "type" block = some "thinking" ∨
      getStr "type" block = some "redacted_thinking") :
    (processThinking policy i j st block).1.sanitizer = st.sanitizer ∧
    (processThinking policy i j st block).1.thinkingSanitizer =
      (blockThinking policy block).foldl readWhole st.thinkingSanitizer := by
  rw [processThinking, blockThinking, if_pos htype]
  dsimp only
  split_ifs
  · exact ⟨st.readThinking_sanitizer _, st.readThinking_thinkingSanitizer _⟩
  · exact ⟨rfl, rfl⟩
  · cases getStr (thinkingField block).1 block with
    | none => exact ⟨rfl, rfl⟩
    | some original =>
      dsimp only [Option.map_some, Option.toList_some, List.foldl_cons, List.foldl_nil]
      split_ifs <;>
        exact ⟨st.readThinking_sanitizer original, st.readThinking_thinkingSanitizer original⟩

theorem processBlock_sanitizers (st : RunState) (block : Json) :
    (processBlock policy i j st block).1.sanitizer =
      (blockEvents block).foldl readEvent st.sanitizer ∧
    (processBlock policy i j st block).1.thinkingSanitizer =
      (blockThinking policy block).foldl readWhole st.thinkingSanitizer := by
  cases htype : getStr "type" block with
  | none => simp [processBlock, blockEvents, blockThinking, htype]
  | some blockType =>
    by_cases htext : blockType = "text"
    · subst htext
      cases hstr : getStr "text" block with
      | none => simp [processBlock, blockEvents, blockThinking, htype, hstr]
      | some text => simp [processBlock, blockEvents, blockThinking, htype, hstr, readEvent]
    · by_cases hthinking : blockType = "thinking" ∨ blockType = "redacted_thinking"
      · have hor : getStr "type" block = some "thinking" ∨
            getStr "type" block = some "redacted_thinking" := by
          rw [htype]
          exact hthinking.imp (congrArg some) (congrArg some)
        have h := processThinking_sanitizers policy i j st.boundary hor
        rw [RunState.boundary_sanitizer, RunState.boundary_thinkingSanitizer] at h
        simpa [processBlock, blockEvents, htype, htext, hthinking] using h
      · have hne := not_or.mp hthinking
        simp [processBlock, blockEvents, blockThinking, htype, htext, hne.1, hne.2]

theorem processBlocks_sanitizers (st : RunState) (blocks : List Json) :
    (processBlocks policy i j st blocks).1.sanitizer =
      (blocks.flatMap blockEvents).foldl readEvent st.sanitizer ∧
    (processBlocks policy i j st blocks).1.thinkingSanitizer =
      (blocks.flatMap (blockThinking policy)).foldl readWhole st.thinkingSanitizer := by
  induction blocks generalizing j st with
  | nil => exact ⟨rfl, rfl⟩
  | cons block blocks ih =>
    obtain ⟨htext, hthinking⟩ := processBlock_sanitizers policy i j st block
    have hrest := ih (j + 1) (processBlock policy i j st block).1
    rw [htext, hthinking] at hrest
    rw [List.flatMap_cons, List.flatMap_cons, List.foldl_append, List.foldl_append]
    exact hrest

theorem processContent_sanitizers (st : RunState) (content : Json) :
    (processContent policy i st content).1.sanitizer =
      (contentEvents content).foldl readEvent st.sanitizer ∧
    (processContent policy i st content).1.thinkingSanitizer =
      (contentThinking policy content).foldl readWhole st.thinkingSanitizer := by
  cases content with
  | str text => exact ⟨rfl, rfl⟩
  | arr blocks => exact processBlocks_sanitizers policy i 0 st blocks
  | null => exact ⟨st.boundary_sanitizer, st.boundary_thinkingSanitizer⟩
  | bool => exact ⟨st.boundary_sanitizer, st.boundary_thinkingSanitizer⟩
  | int => exact ⟨st.boundary_sanitizer, st.boundary_thinkingSanitizer⟩
  | float => exact ⟨st.boundary_sanitizer, st.boundary_thinkingSanitizer⟩
  | obj => exact ⟨st.boundary_sanitizer, st.boundary_thinkingSanitizer⟩

theorem processContents_sanitizers (st : RunState) (contents : List Json) :
    (processContents policy i st contents).1.sanitizer =
      (contents.flatMap contentEvents).foldl readEvent st.sanitizer ∧
    (processContents policy i st contents).1.thinkingSanitizer =
      (contents.flatMap (contentThinking policy)).foldl readWhole st.thinkingSanitizer := by
  induction contents generalizing i st with
  | nil => exact ⟨rfl, rfl⟩
  | cons content contents ih =>
    obtain ⟨htext, hthinking⟩ := processContent_sanitizers policy i st content
    have hrest := ih (i + 1) (processContent policy i st content).1
    rw [htext, hthinking] at hrest
    rw [List.flatMap_cons, List.flatMap_cons, List.foldl_append, List.foldl_append]
    exact hrest

theorem exists_append_mem_segments (read : List (List Char)) (events : List TextEvent) :
    ∃ texts, read ++ texts ∈ segments read events := by
  induction events generalizing read with
  | nil => exact ⟨[], by simp [segments]⟩
  | cons event events ih =>
    cases event with
    | boundary => exact ⟨[], by simp [segments]⟩
    | text text =>
      obtain ⟨texts, hmem⟩ := ih (read ++ [text])
      exact ⟨text :: texts, by simpa [segments] using hmem⟩

theorem quiet_foldl_readEvent {s : ToolTranscriptSanitizer} {read : List (List Char)}
    {events : List TextEvent} (h : s.Quiet read.flatten)
    (hrole : ∀ texts ∈ segments read events, ¬ HasRoleLine texts.flatten) :
    ∃ texts, (events.foldl readEvent s).Quiet texts := by
  induction events generalizing s read with
  | nil => exact ⟨_, h⟩
  | cons event events ih =>
    cases event with
    | boundary =>
      have hquiet : s.structuredToolBoundary.1.Quiet ([] : List (List Char)).flatten :=
        h.finishSegment
      exact ih hquiet fun texts htexts => hrole texts (List.mem_cons_of_mem _ htexts)
    | text text =>
      obtain ⟨more, hmore⟩ := exists_append_mem_segments (read ++ [text]) events
      have hquiet : (s.push text).1.Quiet (read ++ [text]).flatten := by
        rw [List.flatten_append, List.flatten_singleton]
        apply h.push
        intro hline
        apply hrole _ hmore
        rw [List.flatten_append, List.flatten_append, List.flatten_singleton]
        exact hline.append more.flatten
      exact ih hquiet hrole

theorem quiet_foldl_readWhole {s : ToolTranscriptSanitizer} {texts : List (List Char)}
    (h : s.Quiet []) (hrole : ∀ text ∈ texts, ¬ HasRoleLine text) :
    (texts.foldl readWhole s).Quiet [] := by
  induction texts generalizing s with
  | nil => exact h
  | cons text texts ih =>
    have hquiet : (s.push text).1.Quiet text := h.push (hrole text List.mem_cons_self)
    exact ih hquiet.finishSegment fun t ht => hrole t (List.mem_cons_of_mem _ ht)

def runSegments (contents : List Json) : List (List (List Char)) :=
  segments [] (contents.flatMap contentEvents)

theorem sanitizeAssistantRun_blocks {sha256 : String → Digest} {policy : ThinkingPolicy}
    {names : List String} {contents : List Json}
    (htext : ∀ texts ∈ runSegments contents, ¬ HasRoleLine texts.flatten)
    (hthinking : ∀ text ∈ contents.flatMap (contentThinking policy), ¬ HasRoleLine text) :
    (sanitizeAssistantRun sha256 policy names contents).2.blocks = 0 := by
  have hnew := ToolTranscriptSanitizer.quiet_new sha256 names
  obtain ⟨texts, hquiet⟩ := quiet_foldl_readEvent hnew htext
  have hquiet' := quiet_foldl_readWhole hnew hthinking
  obtain ⟨hs, ht⟩ := processContents_sanitizers policy 0
    { sanitizer := .new sha256 names, thinkingSanitizer := .new sha256 names, removedBlocks := [],
      lastText := none, releasedText := [] } contents
  rw [← hs] at hquiet
  rw [← ht] at hquiet'
  rw [sanitizeAssistantRun]
  dsimp only
  rw [if_pos]
  · rfl
  · simp only [mergeSanitizationReport, sanitizationReportForCompleteBlock,
      RunState.release_sanitizer, RunState.release_thinkingSanitizer]
    have hfinish := hquiet.finishSegment.suppressed
    rw [ToolTranscriptSanitizer.finish, hfinish, hquiet'.suppressed]
    rfl

def IsAssistantRun (messages : List AnthropicMessage) (contents : List Json) : Prop :=
  ∃ before run after, messages = before ++ run ++ after ∧
    run.map AnthropicMessage.content = contents ∧ run ≠ [] ∧
    (∀ m ∈ run, m.role = "assistant") ∧ (∀ m ∈ before.getLast?, m.role ≠ "assistant") ∧
    ∀ m ∈ after.head?, m.role ≠ "assistant"

theorem mergeSanitizationReport_blocks {target source : AssistantHistorySanitization}
    (htarget : target.blocks = 0) (hsource : source.blocks = 0) :
    (mergeSanitizationReport target source).blocks = 0 := by
  rw [mergeSanitizationReport, htarget, hsource]
  rfl

/-- Nothing is reported when nothing is reported for any run. -/
theorem sanitizeRuns_blocks {sha256 : String → Digest} {policy : ThinkingPolicy}
    {names : List String} {fuel : ℕ} {report : AssistantHistorySanitization}
    {before messages : List AnthropicMessage}
    (hruns : ∀ contents, IsAssistantRun (before ++ messages) contents →
      (sanitizeAssistantRun sha256 policy names contents).2.blocks = 0)
    (hbefore : ∀ m ∈ messages.head?, m.role = "assistant" →
      ∀ m' ∈ before.getLast?, m'.role ≠ "assistant") (hreport : report.blocks = 0) :
    (sanitizeRuns sha256 policy names fuel report messages).2.blocks = 0 := by
  induction fuel generalizing report before messages with
  | zero => exact hreport
  | succ fuel ih =>
    cases messages with
    | nil => exact hreport
    | cons message messages =>
      rw [sanitizeRuns]
      by_cases hrole : message.role = "assistant"
      · rw [if_neg (not_not.mpr hrole)]
        dsimp only
        set run := messages.takeWhile fun m => m.role == "assistant" with hrun
        set rest := messages.dropWhile fun m => m.role == "assistant" with hrest
        have hsplit : messages = run ++ rest := List.takeWhile_append_dropWhile.symm
        have hhead : ∀ m ∈ rest.head?, m.role ≠ "assistant" := by
          intro m hm hassistant
          have hnot := List.head?_dropWhile_not (fun m : AnthropicMessage => m.role == "assistant")
            messages
          rw [← hrest, Option.mem_def.mp hm] at hnot
          simp [hassistant] at hnot
        have hall : ∀ m ∈ message :: run, m.role = "assistant" := by
          intro m hm
          rcases List.mem_cons.mp hm with rfl | hm
          · exact hrole
          · simpa using List.mem_takeWhile_imp hm
        have hzero : (sanitizeAssistantRun sha256 policy names
            ((message :: run).map AnthropicMessage.content)).2.blocks = 0 :=
          hruns _ ⟨before, message :: run, rest, by simp [hsplit], rfl, List.cons_ne_nil _ _, hall,
            hbefore message rfl hrole, hhead⟩
        have hnext : ∀ contents, IsAssistantRun (before ++ message :: run ++ rest) contents →
            (sanitizeAssistantRun sha256 policy names contents).2.blocks = 0 := by
          rw [List.append_assoc, List.cons_append, ← hsplit]
          exact hruns
        exact ih hnext (fun m hm hassistant => absurd hassistant (hhead m hm))
          (mergeSanitizationReport_blocks hreport hzero)
      · rw [if_pos hrole]
        have hnext : ∀ contents, IsAssistantRun (before ++ [message] ++ messages) contents →
            (sanitizeAssistantRun sha256 policy names contents).2.blocks = 0 := by
          rw [List.append_assoc, List.singleton_append]
          exact hruns
        refine ih hnext (fun _ _ _ m' hm' => ?_) hreport
        rw [List.getLast?_concat] at hm'
        cases hm'
        exact hrole

end KiroProxy.TranscriptSanitizer
