import KiroProxy.KeyedList
import KiroProxy.MessageStream
import KiroProxy.Transducer

/-!
# Chat Completions

`translateMessage` translates a complete message, `StreamTranslator` its stream, event by event.
`Received.ofFrames` is what a client of the stream puts together: texts are concatenated, and the
arguments of a call by its index. The printer of JSON values is a parameter.
-/

namespace KiroProxy.OpenAI
open MessageStream Transducer

def u64Max : ℕ := 2 ^ 64 - 1

def saturatingAdd (a b : ℕ) : ℕ := min (a + b) u64Max

structure Usage where
  input : ℕ
  output : ℕ
  cacheCreation : ℕ
  cacheRead : ℕ
  deriving DecidableEq, Repr

namespace Usage

def default : Usage := ⟨0, 0, 0, 0⟩

def merge (usage : Usage) (fields : UsageFields) : Usage where
  input := fields.inputTokens.getD usage.input
  output := fields.outputTokens.getD usage.output
  cacheCreation := fields.cacheCreationInputTokens.getD usage.cacheCreation
  cacheRead := fields.cacheReadInputTokens.getD usage.cacheRead

def totalInput (usage : Usage) : ℕ :=
  saturatingAdd (saturatingAdd usage.input usage.cacheCreation) usage.cacheRead

theorem merge_override (usage : Usage) (before later : UsageFields) :
    usage.merge (before.override later) = (usage.merge before).merge later := by
  have hfield (value : ℕ) (before later : Option ℕ) :
      (later.or before).getD value = later.getD (before.getD value) := by
    cases later <;> rfl
  rw [merge, merge, merge, UsageFields.override]
  simp only [hfield]

end Usage

structure CompletionUsage where
  promptTokens : ℕ
  completionTokens : ℕ
  totalTokens : ℕ
  cachedTokens : ℕ
  deriving DecidableEq, Repr

def Usage.toOpenAI (usage : Usage) : CompletionUsage where
  promptTokens := usage.totalInput
  completionTokens := usage.output
  totalTokens := saturatingAdd usage.totalInput usage.output
  cachedTokens := usage.cacheRead

def messageIdStart : List Char := "msg_".toList

/-- `fresh` is the generated part of an id. -/
def prefixedId (start fresh : List Char) : Option (List Char) → List Char
  | none => start ++ fresh
  | some id =>
    let suffix := if messageIdStart <+: id then id.drop messageIdStart.length else id
    start ++ if suffix = [] then fresh else suffix

def modelOr (model : Option (List Char)) (fallback : List Char) : List Char :=
  match model with
  | none => fallback
  | some model => if model = [] then fallback else model

def toolArguments (print : Json → List Char) (input : Json.Fields) : List Char :=
  print (.obj input)

def nonEmpty (text : List Char) : Option (List Char) := if text = [] then none else some text

def apiError : List Char := "api_error".toList

/-- An event of the upstream, when its data has been parsed. -/
inductive SseMessage
  | empty
  | malformed
  | other
  | event (event : Event)

/-- Nothing is translated for it but a comment. -/
def SseMessage.isSilent : SseMessage → Bool
  | .empty => true
  | .other => true
  | .event .ping => true
  | _ => false

namespace Response

def completionId (fresh : List Char) (messageId : Option (List Char)) : List Char :=
  prefixedId "chatcmpl-".toList fresh messageId

def finishReason (stopReason : Option (List Char)) (hasToolCalls : Bool) : List Char :=
  match stopReason with
  | none => if hasToolCalls then "tool_calls".toList else "stop".toList
  | some reason =>
    if reason = "tool_use".toList then "tool_calls".toList
    else if reason = "max_tokens".toList ∨ reason = "model_context_window_exceeded".toList then
      "length".toList
    else if reason = "refusal".toList then "content_filter".toList
    else "stop".toList

structure ToolCall where
  id : List Char
  name : List Char
  arguments : List Char
  deriving DecidableEq, Repr

/-- The list of calls is left out where it is empty. -/
structure Reply where
  content : Option (List Char)
  reasoningContent : Option (List Char)
  toolCalls : List ToolCall
  deriving DecidableEq, Repr

structure Completion where
  id : List Char
  created : ℤ
  model : List Char
  reply : Reply
  finishReason : List Char
  usage : CompletionUsage
  deriving DecidableEq, Repr

def toolCall (print : Json → List Char) : Block → Option ToolCall
  | .toolUse id name input => some ⟨id, name, toolArguments print input⟩
  | _ => none

def translateMessage (print : Json → List Char) (message : Message)
    (fresh fallbackModel : List Char) (created : ℤ) : Completion :=
  let text := message.content.flatMap textOf
  let reasoning := message.content.flatMap reasoningOf
  let toolCalls := message.content.filterMap (toolCall print)
  let hasToolCalls := !toolCalls.isEmpty
  { id := completionId fresh message.id
    created := created
    model := modelOr message.model fallbackModel
    reply :=
      { content := if text = [] ∧ hasToolCalls then none else some text
        reasoningContent := nonEmpty reasoning
        toolCalls := toolCalls }
    finishReason := finishReason message.stopReason hasToolCalls
    usage := (Usage.default.merge message.usage).toOpenAI }

/-- The fields of a chunk that do not change once the stream has started. -/
structure Head where
  id : List Char
  created : ℤ
  model : List Char
  deriving DecidableEq, Repr

inductive ChunkDelta
  /-- The role, and an empty content. -/
  | role
  | content (text : List Char)
  | reasoningContent (text : List Char)
  | toolCall (index : ℕ) (id name arguments : List Char)
  | arguments (index : ℕ) (arguments : List Char)
  | empty
  deriving DecidableEq, Repr

inductive Frame
  | keepalive
  | chunk (head : Head) (delta : ChunkDelta) (finishReason : Option (List Char)) (nullUsage : Bool)
  | usage (head : Head) (usage : CompletionUsage)
  | done
  | error (errorType message : List Char)
  deriving DecidableEq, Repr

inductive BlockKind
  | text
  | thinking
  | tool (index : ℕ) (startInput : Option (List Char)) (sawDelta : Bool)
  | skip
  deriving DecidableEq, Repr

/-- A call notes that a delta of its arguments came, also where it is empty. -/
def BlockKind.note : BlockKind → Delta → BlockKind
  | .tool index startInput _, .inputJsonDelta _ => .tool index startInput true
  | kind, _ => kind

structure StreamTranslator where
  head : Head
  includeUsage : Bool
  started : Bool
  finished : Bool
  blocks : List (ℕ × BlockKind)
  toolCalls : ℕ
  usage : Usage
  stopReason : Option (List Char)
  deriving DecidableEq, Repr

namespace StreamTranslator

def new (fresh model : List Char) (created : ℤ) (includeUsage : Bool) : StreamTranslator where
  head := ⟨completionId fresh none, created, model⟩
  includeUsage := includeUsage
  started := false
  finished := false
  blocks := []
  toolCalls := 0
  usage := Usage.default
  stopReason := none

def fail (translator : StreamTranslator) (errorType message : List Char) :
    StreamTranslator × List Frame :=
  if translator.finished then (translator, [])
  else ({ translator with finished := true }, [.error errorType message])

/-- The upstream ends before `messageStop`. -/
def onEnd (translator : StreamTranslator) : StreamTranslator × List Frame :=
  translator.fail apiError "upstream stream ended before the response completed".toList

def chunk (translator : StreamTranslator) (delta : ChunkDelta)
    (finishReason : Option (List Char)) : Frame :=
  .chunk translator.head delta finishReason translator.includeUsage

def ensureStarted (translator : StreamTranslator) : StreamTranslator × List Frame :=
  if translator.started then (translator, [])
  else ({ translator with started := true }, [translator.chunk .role none])

def openBlock (print : Json → List Char) (toolCalls : ℕ) : Block → BlockKind × List ChunkDelta
  | .text text => (.text, ((nonEmpty text).map .content).toList)
  | .thinking thinking _ => (.thinking, ((nonEmpty thinking).map .reasoningContent).toList)
  | .toolUse id name input =>
    (.tool toolCalls (if input = [] then none else some (toolArguments print input)) false,
      [.toolCall toolCalls id name []])
  | _ => (.skip, [])

def blockStart (print : Json → List Char) (translator : StreamTranslator) (index : ℕ)
    (block : Block) : StreamTranslator × List Frame :=
  let (translator, out) := translator.ensureStarted
  let (kind, deltas) := openBlock print translator.toolCalls block
  ({ translator with
      blocks := KeyedList.insert index kind translator.blocks
      toolCalls := translator.toolCalls + if block.isToolUse then 1 else 0 },
    out ++ deltas.map fun delta => translator.chunk delta none)

def deltaOf : Option BlockKind → Delta → Option ChunkDelta
  | some .skip, _ => none
  | _, .textDelta text => (nonEmpty text).map .content
  | _, .thinkingDelta thinking => (nonEmpty thinking).map .reasoningContent
  | some (.tool index _ _), .inputJsonDelta partialJson =>
    (nonEmpty partialJson).map (.arguments index)
  | _, _ => none

def blockDelta (translator : StreamTranslator) (index : ℕ) (delta : Delta) :
    StreamTranslator × List Frame :=
  let (translator, out) := translator.ensureStarted
  let block := KeyedList.get index translator.blocks
  ({ translator with
      blocks := match block with
        | some kind => KeyedList.insert index (BlockKind.note kind delta) translator.blocks
        | none => translator.blocks },
    out ++ (deltaOf block delta).toList.map fun delta => translator.chunk delta none)

/-- The arguments at the start of a call count where no delta came. -/
def closeBlock : Option BlockKind → Option ChunkDelta
  | some (.tool index (some arguments) false) => some (.arguments index arguments)
  | _ => none

def blockStop (translator : StreamTranslator) (index : ℕ) : StreamTranslator × List Frame :=
  ({ translator with blocks := KeyedList.remove index translator.blocks },
    (closeBlock (KeyedList.get index translator.blocks)).toList.map fun delta =>
      translator.chunk delta none)

def complete (translator : StreamTranslator) : StreamTranslator × List Frame :=
  let (translator, out) := translator.ensureStarted
  let translator := { translator with finished := true }
  (translator,
    out ++ translator.chunk .empty
        (some (finishReason translator.stopReason (0 < translator.toolCalls))) ::
      ((if translator.includeUsage then [.usage translator.head translator.usage.toOpenAI]
        else []) ++ [.done]))

/-- The id and the model are taken from the message before the first chunk only. -/
def messageStart (fresh : List Char) (translator : StreamTranslator)
    (id model : Option (List Char)) (usage : UsageFields) : StreamTranslator × List Frame :=
  let translator :=
    if translator.started then translator
    else
      { translator with
        head :=
          { translator.head with
            id := match id with
              | some id => completionId fresh (some id)
              | none => translator.head.id
            model := modelOr model translator.head.model } }
  { translator with usage := translator.usage.merge usage }.ensureStarted

def onEvent (print : Json → List Char) (fresh : List Char) (translator : StreamTranslator)
    (message : SseMessage) : StreamTranslator × List Frame :=
  if translator.finished then (translator, [])
  else
    match message with
    | .empty => (translator, [])
    | .malformed => translator.fail apiError "upstream stream sent malformed data".toList
    | .other => (translator, [])
    | .event .ping => (translator, [.keepalive])
    | .event (.messageStart id model usage) => translator.messageStart fresh id model usage
    | .event (.contentBlockStart index block) => translator.blockStart print index block
    | .event (.contentBlockDelta index delta) => translator.blockDelta index delta
    | .event (.contentBlockStop index) => translator.blockStop index
    | .event (.messageDelta stopReason usage) =>
      ({ translator with
          usage := translator.usage.merge usage
          stopReason := stopReason.or translator.stopReason }, [])
    | .event .messageStop => translator.complete
    | .event (.error errorType message) =>
      translator.fail (errorType.getD apiError) (message.getD "upstream error".toList)

variable {print : Json → List Char} {fresh : List Char} {translator : StreamTranslator} {idx : ℕ}

/-- Within a message. -/
structure Running (translator : StreamTranslator) : Prop where
  started : translator.started = true
  finished : translator.finished = false

theorem Running.ensureStarted (h : Running translator) :
    translator.ensureStarted = (translator, []) := by
  rw [StreamTranslator.ensureStarted, if_pos h.started]

theorem Running.onEvent (h : Running translator) (event : Event) :
    translator.onEvent print fresh (.event event) =
      match event with
      | .ping => (translator, [.keepalive])
      | .messageStart id model usage => translator.messageStart fresh id model usage
      | .contentBlockStart index block => translator.blockStart print index block
      | .contentBlockDelta index delta => translator.blockDelta index delta
      | .contentBlockStop index => translator.blockStop index
      | .messageDelta stopReason usage =>
        ({ translator with
            usage := translator.usage.merge usage
            stopReason := stopReason.or translator.stopReason }, [])
      | .messageStop => translator.complete
      | .error errorType message =>
        translator.fail (errorType.getD apiError) (message.getD "upstream error".toList) := by
  cases event <;> exact if_neg (Bool.eq_false_iff.mp h.finished)

theorem deltaOf_note (kind : BlockKind) (delta delta' : Delta) :
    deltaOf (some (BlockKind.note kind delta)) delta' = deltaOf (some kind) delta' := by
  cases kind <;> cases delta <;> cases delta' <;> rfl

/-- The deltas of the chunks for a block, when `toolCalls` calls came before. -/
def chunkDeltas (print : Json → List Char) (toolCalls : ℕ) (streamed : Streamed) :
    List ChunkDelta :=
  let (kind, deltas) := openBlock print toolCalls streamed.start
  deltas ++ (streamed.deltas.flatMap fun delta => (deltaOf (some kind) delta).toList) ++
    (closeBlock (some (streamed.deltas.foldl BlockKind.note kind))).toList

theorem blockDelta_of_open (h : Running translator) {kind : BlockKind}
    (hblocks : translator.blocks = [(idx, kind)]) (delta : Delta) :
    translator.blockDelta idx delta =
      ({ translator with blocks := [(idx, BlockKind.note kind delta)] },
        (deltaOf (some kind) delta).toList.map fun delta => translator.chunk delta none) := by
  have hget : KeyedList.get idx translator.blocks = some kind := by
    rw [hblocks, KeyedList.get, if_pos rfl]
  have hinsert : KeyedList.insert idx (BlockKind.note kind delta) translator.blocks =
      [(idx, BlockKind.note kind delta)] := by
    rw [hblocks, KeyedList.insert, if_pos rfl]
  rw [blockDelta, h.ensureStarted]
  dsimp only
  rw [hget]
  dsimp only
  rw [hinsert, List.nil_append]

theorem run_deltas (h : Running translator) {kind : BlockKind}
    (hblocks : translator.blocks = [(idx, kind)]) (deltas : List Delta) :
    run (onEvent print fresh) translator
        (deltas.map fun delta => .event (.contentBlockDelta idx delta)) =
      ({ translator with blocks := [(idx, deltas.foldl BlockKind.note kind)] },
        (deltas.flatMap fun delta => (deltaOf (some kind) delta).toList).map fun delta =>
          translator.chunk delta none) := by
  induction deltas generalizing translator kind with
  | nil =>
    rw [List.foldl_nil, ← hblocks]
    rfl
  | cons delta deltas ih =>
    have hstep : translator.onEvent print fresh (.event (.contentBlockDelta idx delta)) =
        translator.blockDelta idx delta := h.onEvent _
    have hrunning : Running { translator with blocks := [(idx, BlockKind.note kind delta)] } :=
      ⟨h.started, h.finished⟩
    rw [List.map_cons, run_cons, hstep, blockDelta_of_open h hblocks, ih hrunning rfl]
    simp only [deltaOf_note, List.foldl_cons, List.flatMap_cons, List.map_append]
    rfl

/-- The translator when `toolCalls` further calls have come. -/
def withToolCalls (translator : StreamTranslator) (toolCalls : ℕ) : StreamTranslator :=
  { translator with toolCalls := translator.toolCalls + toolCalls }

theorem withToolCalls_withToolCalls (translator : StreamTranslator) (first second : ℕ) :
    (translator.withToolCalls first).withToolCalls second =
      translator.withToolCalls (second + first) := by
  rw [withToolCalls, withToolCalls, withToolCalls, Nat.add_comm second, ← Nat.add_assoc]

theorem run_events (h : Running translator) (hblocks : translator.blocks = [])
    (streamed : Streamed) :
    run (onEvent print fresh) translator ((streamed.events idx).map .event) =
      (translator.withToolCalls (if streamed.start.isToolUse then 1 else 0),
        (chunkDeltas print translator.toolCalls streamed).map fun delta =>
          translator.chunk delta none) := by
  let kind := (openBlock print translator.toolCalls streamed.start).1
  let opened : StreamTranslator :=
    { translator.withToolCalls (if streamed.start.isToolUse then 1 else 0) with
      blocks := [(idx, kind)] }
  have hrunning : Running opened := ⟨h.started, h.finished⟩
  have hstart : translator.onEvent print fresh (.event (.contentBlockStart idx streamed.start)) =
      (opened, (openBlock print translator.toolCalls streamed.start).2.map fun delta =>
        translator.chunk delta none) := by
    rw [h.onEvent]
    dsimp only
    rw [blockStart, h.ensureStarted]
    dsimp only
    rw [hblocks, List.nil_append]
    rfl
  have hstop (kind : BlockKind) :
      ({ opened with blocks := [(idx, kind)] } : StreamTranslator).onEvent print fresh
          (.event (.contentBlockStop idx)) =
        (translator.withToolCalls (if streamed.start.isToolUse then 1 else 0),
          (closeBlock (some kind)).toList.map fun delta => translator.chunk delta none) := by
    have hget : KeyedList.get idx [(idx, kind)] = some kind := by
      rw [KeyedList.get, if_pos rfl]
    have hremove : KeyedList.remove idx [(idx, kind)] = [] :=
      List.filter_cons_of_neg (by rw [bne_self_eq_false]; exact Bool.false_ne_true)
    have hopen : Running { opened with blocks := [(idx, kind)] } := ⟨h.started, h.finished⟩
    rw [hopen.onEvent]
    dsimp only
    rw [blockStop, hget, hremove, withToolCalls, hblocks]
    rfl
  have hmap : (streamed.deltas.map (Event.contentBlockDelta idx)).map SseMessage.event =
      streamed.deltas.map fun delta => .event (.contentBlockDelta idx delta) := List.map_map
  rw [Streamed.events, List.map_cons, run_cons, hstart, List.map_append, hmap, run_append,
    run_deltas hrunning rfl, List.map_singleton, run_singleton, hstop, chunkDeltas,
    List.map_append, List.map_append, List.append_assoc]
  rfl

def streamDeltas (print : Json → List Char) (toolCalls : ℕ) : List Streamed → List ChunkDelta
  | [] => []
  | streamed :: blocks =>
    chunkDeltas print toolCalls streamed ++
      streamDeltas print (toolCalls + if streamed.start.isToolUse then 1 else 0) blocks

theorem run_streamFrom (h : Running translator) (hblocks : translator.blocks = [])
    (blocks : List Streamed) :
    run (onEvent print fresh) translator ((streamFrom idx blocks).map .event) =
      (translator.withToolCalls (blocks.countP fun streamed => streamed.start.isToolUse),
        (streamDeltas print translator.toolCalls blocks).map fun delta =>
          translator.chunk delta none) := by
  induction blocks generalizing translator idx with
  | nil => rfl
  | cons streamed blocks ih =>
    have hrunning : Running
        (translator.withToolCalls (if streamed.start.isToolUse then 1 else 0)) :=
      ⟨h.started, h.finished⟩
    rw [streamFrom, List.map_append, run_append, run_events h hblocks, ih hrunning hblocks,
      withToolCalls_withToolCalls, streamDeltas, List.map_append, List.countP_cons]
    rfl

/-- The chunks of a message that is not interrupted. -/
def frames (head : Head) (includeUsage : Bool) (deltas : List ChunkDelta)
    (finishReason : List Char) (usage : CompletionUsage) : List Frame :=
  (.role :: deltas).map (fun delta => .chunk head delta none includeUsage) ++
    .chunk head .empty (some finishReason) includeUsage ::
      ((if includeUsage then [.usage head usage] else []) ++ [.done])

theorem run_stream (print : Json → List Char) (fresh model : List Char) (created : ℤ)
    (includeUsage : Bool) (stream : StreamedMessage) :
    ∃ head, (run (onEvent print fresh) (new fresh model created includeUsage)
        (stream.events.map .event)).2 =
      frames head includeUsage (streamDeltas print 0 stream.blocks)
        (finishReason stream.stopReason
          (0 < stream.blocks.countP fun streamed => streamed.start.isToolUse))
        (Usage.default.merge (stream.startUsage.override stream.deltaUsage)).toOpenAI := by
  let started := ((new fresh model created includeUsage).messageStart fresh stream.id stream.model
    stream.startUsage).1
  refine ⟨started.head, ?_⟩
  have hrunning : Running started := ⟨rfl, rfl⟩
  let sent := started.withToolCalls
    (stream.blocks.countP fun streamed => streamed.start.isToolUse)
  have hsent : Running sent := ⟨rfl, rfl⟩
  let ending : StreamTranslator :=
    { sent with
      usage := sent.usage.merge stream.deltaUsage
      stopReason := stream.stopReason.or sent.stopReason }
  have hending : Running ending := ⟨rfl, rfl⟩
  have hstart : (new fresh model created includeUsage).onEvent print fresh
      (.event (.messageStart stream.id stream.model stream.startUsage)) =
        (started, [started.chunk .role none]) := rfl
  have hdelta : sent.onEvent print fresh
      (.event (.messageDelta stream.stopReason stream.deltaUsage)) = (ending, []) :=
    hsent.onEvent _
  have hstopReason : ending.stopReason = stream.stopReason := Option.or_none
  have hstop : (ending.onEvent print fresh (.event .messageStop)).2 =
      started.chunk .empty (some (finishReason stream.stopReason
          (0 < stream.blocks.countP fun streamed => streamed.start.isToolUse))) ::
        ((if includeUsage then [.usage started.head (Usage.default.merge
          (stream.startUsage.override stream.deltaUsage)).toOpenAI] else []) ++ [.done]) := by
    rw [hending.onEvent, Usage.merge_override]
    dsimp only
    rw [complete, hending.ensureStarted]
    dsimp only
    rw [hstopReason, List.nil_append, ← Nat.zero_add (List.countP _ _)]
    rfl
  rw [StreamedMessage.events, List.map_cons, run_cons, hstart, List.map_append, run_append,
    run_streamFrom hrunning rfl, List.map_cons, run_cons, hdelta, List.map_singleton, run_singleton,
    hstop, frames]
  rfl

end StreamTranslator

end Response

end KiroProxy.OpenAI
