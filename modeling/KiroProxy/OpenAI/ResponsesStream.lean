import KiroProxy.OpenAI.ResponsesResponse

/-!
# Runs of the responses translator

What the events of one block do, for each kind of block: the item of the block takes the next slot
of the output, and its events come in one ladder. `steps_streamFrom` is the run over all blocks.
-/

namespace KiroProxy.OpenAI.Responses
open MessageStream ResponsesStreamTranslator Transducer

variable {runtime : Runtime} {translator translator' translator'' : ResponsesStreamTranslator}
  {idx : ℕ}

theorem numbered_append (sequence : ℕ) (events events' : List ResponseEvent) :
    numbered sequence (events ++ events') =
      numbered sequence events ++ numbered (sequence + events.length) events' := by
  induction events generalizing sequence with
  | nil => rfl
  | cons event events ih =>
    rw [List.cons_append, numbered, numbered, ih, List.length_cons, Nat.add_right_comm,
      Nat.add_assoc]
    rfl

/-- The messages lead from one translator to another and give these events. -/
structure Steps (runtime : Runtime) (translator : ResponsesStreamTranslator)
    (messages : List SseMessage) (translator' : ResponsesStreamTranslator)
    (events : List ResponseEvent) : Prop where
  run_eq : run (onEvent runtime) translator messages =
    (translator', numbered translator.sequence events)
  sequence : translator'.sequence = translator.sequence + events.length

theorem Steps.refl (runtime : Runtime) (translator : ResponsesStreamTranslator) :
    Steps runtime translator [] translator [] := ⟨rfl, rfl⟩

theorem Steps.trans {messages messages' : List SseMessage} {events events' : List ResponseEvent}
    (h : Steps runtime translator messages translator' events)
    (h' : Steps runtime translator' messages' translator'' events') :
    Steps runtime translator (messages ++ messages') translator'' (events ++ events') := by
  refine ⟨?_, ?_⟩
  · rw [run_append, h.run_eq]
    dsimp only
    rw [h'.run_eq, numbered_append, h.sequence]
  · rw [h'.sequence, h.sequence, List.length_append, Nat.add_assoc]

theorem Steps.single {message : SseMessage} {events : List ResponseEvent}
    (h : translator.onEvent runtime message = (translator', numbered translator.sequence events))
    (hsequence : translator'.sequence = translator.sequence + events.length) :
    Steps runtime translator [message] translator' events :=
  ⟨(run_singleton _ _).trans h, hsequence⟩

theorem Steps.silent {message : SseMessage}
    (h : translator.onEvent runtime message = (translator', []))
    (hsequence : translator'.sequence = translator.sequence) :
    Steps runtime translator [message] translator' [] := .single h hsequence

/-- Within a message. -/
structure Running (translator : ResponsesStreamTranslator) : Prop where
  started : translator.started = true
  finished : translator.finished = false

/-- Within a message, after a block or before the first one. -/
structure Between (translator : ResponsesStreamTranslator) : Prop extends Running translator where
  blocks : translator.blocks = []
  openItems : translator.openItems = []

/-- The translator when the block is over. -/
def after (translator : ResponsesStreamTranslator) (items : List Item)
    (events : List ResponseEvent) : ResponsesStreamTranslator :=
  { translator with
    sequence := translator.sequence + events.length
    output := translator.output ++ items.map some }

theorem Between.after (h : Between translator) (items : List Item) (events : List ResponseEvent) :
    Between (after translator items events) := ⟨⟨h.started, h.finished⟩, h.blocks, h.openItems⟩

theorem after_nil (translator : ResponsesStreamTranslator) :
    after translator [] [] = translator := by
  rw [after, List.map_nil, List.append_nil]
  rfl

theorem after_after (translator : ResponsesStreamTranslator) (items items' : List Item)
    (events events' : List ResponseEvent) :
    after (after translator items events) items' events' =
      after translator (items ++ items') (events ++ events') := by
  rw [after, after, after, List.length_append, List.map_append, Nat.add_assoc, List.append_assoc]

theorem Running.ensureStarted (h : Running translator) :
    translator.ensureStarted = (translator, []) := by
  rw [ResponsesStreamTranslator.ensureStarted, if_pos h.started]

theorem Running.onEvent (h : Running translator) (event : Event) :
    translator.onEvent runtime (.event event) =
      match event with
      | .ping => (translator, [.keepalive])
      | .messageStart id model usage => translator.messageStart runtime id model usage
      | .contentBlockStart index block => translator.blockStart runtime index block
      | .contentBlockDelta index delta => translator.blockDelta runtime index delta
      | .contentBlockStop index => translator.blockStop runtime index
      | .messageDelta stopReason usage =>
        ({ translator with
            usage := translator.usage.merge usage
            stopReason := stopReason.or translator.stopReason }, [])
      | .messageStop => translator.complete runtime
      | .error errorType message =>
        translator.fail (errorType.getD apiError) (message.getD "upstream error".toList) := by
  cases event <;> exact if_neg (Bool.eq_false_iff.mp h.finished)

theorem Between.eq_after (h : Between translator) {items : List Item} {events : List ResponseEvent}
    {sequence : ℕ} {output : List (Option Item)}
    (hsequence : sequence = translator.sequence + events.length)
    (houtput : output = translator.output ++ items.map some) :
    ({ translator with sequence := sequence, blocks := [], openItems := [], output := output } :
      ResponsesStreamTranslator) = Responses.after translator items events := by
  rw [hsequence, houtput, ← h.blocks, ← h.openItems]
  rfl

theorem get_single {α : Type} (idx : ℕ) (value : α) :
    KeyedList.get idx [(idx, value)] = some value := if_pos rfl

theorem insert_single {α : Type} (idx : ℕ) (value value' : α) :
    KeyedList.insert idx value' [(idx, value)] = [(idx, value')] := if_pos rfl

theorem remove_single {α : Type} (idx : ℕ) (value : α) :
    KeyedList.remove idx [(idx, value)] = [] :=
  List.filter_cons_of_neg (by rw [bne_self_eq_false]; exact Bool.false_ne_true)

def moreEvents (kind : TextKind) (id : List Char) (outputIndex : ℕ)
    (before pieces : List (List Char)) : List ResponseEvent :=
  if pieces = [] then []
  else (if before = [] then kind.opening id outputIndex else []) ++
    pieces.map (kind.delta id outputIndex)

theorem moreEvents_append (kind : TextKind) (id : List Char) (outputIndex : ℕ)
    (before pieces pieces' : List (List Char)) :
    moreEvents kind id outputIndex before (pieces ++ pieces') =
      moreEvents kind id outputIndex before pieces ++
        moreEvents kind id outputIndex (before ++ pieces) pieces' := by
  cases pieces with
  | nil => rw [List.append_nil]; rfl
  | cons piece pieces =>
    cases pieces' with
    | nil => rw [List.append_nil, moreEvents, moreEvents, if_pos rfl, List.append_nil]
    | cons piece' pieces' =>
      have hbefore : before ++ piece :: pieces ≠ [] :=
        List.append_ne_nil_of_right_ne_nil _ (List.cons_ne_nil _ _)
      have happend : piece :: pieces ++ piece' :: pieces' ≠ [] := List.cons_ne_nil _ _
      rw [moreEvents, moreEvents, moreEvents, if_neg happend, if_neg (List.cons_ne_nil _ _),
        if_neg (List.cons_ne_nil _ _), if_neg hbefore, List.nil_append, List.map_append,
        List.append_assoc]

def withText (runtime : Runtime) (translator : ResponsesStreamTranslator) (idx : ℕ)
    (kind : TextKind) (pieces : List (List Char)) : ResponsesStreamTranslator :=
  let outputIndex := translator.output.length
  let id := kind.itemId runtime outputIndex
  { translator with
    sequence := translator.sequence + (moreEvents kind id outputIndex [] pieces).length
    blocks := [(idx, .text kind)]
    openItems := if pieces = [] then [] else [(idx, .text kind id outputIndex pieces.flatten)]
    output := if pieces = [] then translator.output else translator.output ++ [none] }

theorem appendText_withText (kind : TextKind) (pieces : List (List Char)) (delta : List Char) :
    (withText runtime translator idx kind pieces).appendText runtime idx delta =
      (withText runtime translator idx kind (pieces ++ [delta]),
        numbered (withText runtime translator idx kind pieces).sequence
          (moreEvents kind (kind.itemId runtime translator.output.length) translator.output.length
            pieces [delta])) := by
  cases pieces with
  | nil =>
    have hopen : (withText runtime translator idx kind []).openText runtime idx =
        ({ withText runtime translator idx kind [] with
            output := translator.output ++ [none]
            openItems := [(idx, .text kind (kind.itemId runtime translator.output.length)
              translator.output.length [])] } : ResponsesStreamTranslator).emit
          (kind.opening (kind.itemId runtime translator.output.length)
            translator.output.length) := by
      rw [openText, withText, if_pos rfl, KeyedList.get]
      dsimp only
      rw [get_single]
      rfl
    rw [appendText, hopen]
    dsimp only [emit]
    rw [get_single]
    dsimp only
    have hflatten : [] ++ delta = [delta].flatten := List.flatten_singleton.symm
    rw [insert_single, ← numbered_append, hflatten]
    cases kind <;> rfl
  | cons piece pieces =>
    have hget : KeyedList.get idx
        (withText runtime translator idx kind (piece :: pieces)).openItems =
          some (.text kind (kind.itemId runtime translator.output.length) translator.output.length
            (piece :: pieces).flatten) := get_single _ _
    have hinsert (item : OpenItem) : KeyedList.insert idx item
        (withText runtime translator idx kind (piece :: pieces)).openItems = [(idx, item)] :=
      insert_single _ _ _
    have hopen : (withText runtime translator idx kind (piece :: pieces)).openText runtime idx =
        (withText runtime translator idx kind (piece :: pieces), []) := by
      rw [openText, hget]
    rw [appendText, hopen]
    dsimp only
    rw [hget]
    dsimp only [emit]
    have hflatten : (piece :: pieces).flatten ++ delta = (piece :: pieces ++ [delta]).flatten := by
      rw [List.flatten_append, List.flatten_singleton]
    have hlength (id : List Char) (outputIndex : ℕ) :
        (moreEvents kind id outputIndex [] (piece :: pieces ++ [delta])).length =
          (moreEvents kind id outputIndex [] (piece :: pieces)).length + 1 := by
      rw [moreEvents_append, List.length_append]
      rfl
    rw [hinsert, hflatten]
    simp only [withText, hlength]
    rfl

theorem appendNonEmpty_withText (kind : TextKind) (pieces : List (List Char)) (delta : List Char) :
    (withText runtime translator idx kind pieces).appendNonEmpty runtime idx delta =
      (withText runtime translator idx kind (pieces ++ (nonEmpty delta).toList),
        numbered (withText runtime translator idx kind pieces).sequence
          (moreEvents kind (kind.itemId runtime translator.output.length) translator.output.length
            pieces (nonEmpty delta).toList)) := by
  rw [appendNonEmpty, nonEmpty]
  by_cases hempty : delta = []
  · rw [if_pos hempty, if_pos hempty, Option.toList_none, List.append_nil]
    rfl
  · rw [if_neg hempty, if_neg hempty]
    exact appendText_withText kind pieces delta

theorem sequence_withText (kind : TextKind) (before pieces : List (List Char)) :
    (withText runtime translator idx kind (before ++ pieces)).sequence =
      (withText runtime translator idx kind before).sequence +
        (moreEvents kind (kind.itemId runtime translator.output.length) translator.output.length
          before pieces).length := by
  rw [withText, withText, moreEvents_append, List.length_append, List.nil_append, Nat.add_assoc]

def TextKind.ofDelta : TextKind → Delta → List Char
  | .message => textOfDelta
  | .reasoning => reasoningOfDelta

def TextKind.ofBlock : TextKind → Block → List Char
  | .message => textOf
  | .reasoning => reasoningOf

def TextKind.Starts : TextKind → Block → Prop
  | .message, .text _ => True
  | .reasoning, .thinking _ _ => True
  | _, _ => False

def deltaPieces (kind : TextKind) (deltas : List Delta) : List (List Char) :=
  deltas.flatMap fun delta => (nonEmpty (kind.ofDelta delta)).toList

def textPieces (kind : TextKind) (streamed : Streamed) : List (List Char) :=
  (nonEmpty (kind.ofBlock streamed.start)).toList ++ deltaPieces kind streamed.deltas

theorem Running.withText (h : Running translator) (kind : TextKind) (pieces : List (List Char)) :
    Running (withText runtime translator idx kind pieces) := ⟨h.started, h.finished⟩

theorem steps_start_text (h : Between translator) {kind : TextKind} {start : Block}
    (hstart : kind.Starts start) :
    Steps runtime translator [.event (.contentBlockStart idx start)]
      (withText runtime translator idx kind (nonEmpty (kind.ofBlock start)).toList)
      (moreEvents kind (kind.itemId runtime translator.output.length) translator.output.length []
        (nonEmpty (kind.ofBlock start)).toList) := by
  have hkind : ({ translator with
      blocks := KeyedList.insert idx (.text kind) translator.blocks } : ResponsesStreamTranslator) =
        withText runtime translator idx kind [] := by
    rw [h.blocks, Responses.withText, if_pos rfl, if_pos rfl, ← h.openItems]
    rfl
  refine .single ?_ ?_
  · rw [h.onEvent]
    dsimp only
    rw [blockStart, h.ensureStarted]
    cases kind <;> cases start <;> first | exact hstart.elim | skip
    all_goals
      dsimp only
      rw [hkind, appendNonEmpty_withText]
      rfl
  · exact sequence_withText kind [] _

theorem steps_deltas_text (h : Between translator) {kind : TextKind} {start : Block}
    (hstart : kind.Starts start) (pieces : List (List Char)) {deltas : List Delta}
    (hfits : ∀ delta ∈ deltas, Delta.Fits start delta) :
    Steps runtime (withText runtime translator idx kind pieces)
      (deltas.map fun delta => .event (.contentBlockDelta idx delta))
      (withText runtime translator idx kind (pieces ++ deltaPieces kind deltas))
      (moreEvents kind (kind.itemId runtime translator.output.length) translator.output.length
        pieces (deltaPieces kind deltas)) := by
  induction deltas generalizing pieces with
  | nil =>
    rw [deltaPieces, List.flatMap_nil, List.append_nil]
    exact .refl _ _
  | cons delta deltas ih =>
    have hdelta : (withText runtime translator idx kind pieces).onEvent runtime
        (.event (.contentBlockDelta idx delta)) =
          (withText runtime translator idx kind pieces).appendNonEmpty runtime idx
            (kind.ofDelta delta) := by
      have hget : KeyedList.get idx (withText runtime translator idx kind pieces).blocks =
        some (.text kind) := get_single _ _
      rw [(h.toRunning.withText kind pieces).onEvent]
      dsimp only
      rw [blockDelta, (h.toRunning.withText kind pieces).ensureStarted]
      dsimp only
      rw [hget]
      have hfits := hfits delta List.mem_cons_self
      cases kind <;> cases start <;> cases delta <;> first
        | exact hstart.elim
        | exact hfits.elim
        | rfl
    have hfirst : Steps runtime (withText runtime translator idx kind pieces)
        [.event (.contentBlockDelta idx delta)]
        (withText runtime translator idx kind
          (pieces ++ (nonEmpty (kind.ofDelta delta)).toList))
        (moreEvents kind (kind.itemId runtime translator.output.length) translator.output.length
          pieces (nonEmpty (kind.ofDelta delta)).toList) :=
      .single (hdelta.trans (appendNonEmpty_withText kind pieces _)) (sequence_withText kind pieces _)
    have hrest := hfirst.trans (ih (pieces ++ (nonEmpty (kind.ofDelta delta)).toList)
      fun delta' hmem => hfits delta' (List.mem_cons_of_mem _ hmem))
    rw [← moreEvents_append, List.append_assoc] at hrest
    exact hrest

def textItem (runtime : Runtime) (kind : TextKind) (outputIndex : ℕ)
    (pieces : List (List Char)) : Option Item :=
  if pieces = [] then none
  else some (kind.item (kind.itemId runtime outputIndex) .completed [pieces.flatten])

def closeEvents (runtime : Runtime) (kind : TextKind) (outputIndex : ℕ)
    (pieces : List (List Char)) : List ResponseEvent :=
  match textItem runtime kind outputIndex pieces with
  | some item =>
    kind.closing (kind.itemId runtime outputIndex) outputIndex pieces.flatten ++
      [.outputItemDone outputIndex item]
  | none => []

def textEvents (runtime : Runtime) (kind : TextKind) (outputIndex : ℕ)
    (pieces : List (List Char)) : List ResponseEvent :=
  moreEvents kind (kind.itemId runtime outputIndex) outputIndex [] pieces ++
    closeEvents runtime kind outputIndex pieces

theorem set_length_append {α : Type} (values : List α) (value value' : α) :
    (values ++ [value]).set values.length value' = values ++ [value'] := by
  induction values with
  | nil => rfl
  | cons first values ih => exact congrArg (first :: ·) ih

theorem steps_stop_text (h : Between translator) (kind : TextKind) (pieces : List (List Char)) :
    Steps runtime (withText runtime translator idx kind pieces)
      [.event (.contentBlockStop idx)]
      (after translator (textItem runtime kind translator.output.length pieces).toList
        (textEvents runtime kind translator.output.length pieces))
      (closeEvents runtime kind translator.output.length pieces) := by
  have hsequence : (withText runtime translator idx kind pieces).sequence +
      (closeEvents runtime kind translator.output.length pieces).length =
        translator.sequence + (textEvents runtime kind translator.output.length pieces).length := by
    rw [textEvents, List.length_append, ← Nat.add_assoc]
    rfl
  refine .single ?_ hsequence.symm
  rw [(h.toRunning.withText kind pieces).onEvent]
  dsimp only
  have hremove : KeyedList.remove idx (withText runtime translator idx kind pieces).blocks = [] :=
    remove_single _ _
  cases pieces with
  | nil =>
    have hget : KeyedList.get idx (withText runtime translator idx kind []).openItems = none := rfl
    rw [blockStop, hget]
    dsimp only
    rw [hremove]
    have houtput : (withText runtime translator idx kind []).output =
        translator.output ++ ([] : List Item).map some := (List.append_nil _).symm
    exact Prod.ext (h.eq_after hsequence houtput) rfl
  | cons piece pieces =>
    have hget : KeyedList.get idx
        (withText runtime translator idx kind (piece :: pieces)).openItems =
          some (.text kind (kind.itemId runtime translator.output.length) translator.output.length
            (piece :: pieces).flatten) := get_single _ _
    have hremoveItem : KeyedList.remove idx
        (withText runtime translator idx kind (piece :: pieces)).openItems = [] :=
      remove_single _ _
    have hset (item : Item) :
        (withText runtime translator idx kind (piece :: pieces)).output.set translator.output.length
          (some item) = translator.output ++ [some item] := set_length_append _ _ _
    rw [blockStop, hget]
    dsimp only
    rw [hremove, hremoveItem, finishItem]
    dsimp only
    rw [hset]
    exact Prod.ext (h.eq_after hsequence rfl) rfl

theorem map_opened (streamed : Streamed) :
    (streamed.opened idx).map SseMessage.event =
      .event (.contentBlockStart idx streamed.start) ::
        streamed.deltas.map fun delta => .event (.contentBlockDelta idx delta) := by
  rw [Streamed.opened, List.map_cons, List.map_map]
  rfl

variable {streamed : Streamed}

theorem steps_opened_text (h : Between translator) {kind : TextKind}
    (hstart : kind.Starts streamed.start) :
    Steps runtime translator ((streamed.opened idx).map .event)
      (withText runtime translator idx kind (textPieces kind streamed))
      (moreEvents kind (kind.itemId runtime translator.output.length) translator.output.length []
        (textPieces kind streamed)) := by
  have hsteps := (@steps_start_text runtime _ idx h _ _ hstart).trans
    (steps_deltas_text h hstart _ streamed.fits)
  have hmore := moreEvents_append kind (kind.itemId runtime translator.output.length)
    translator.output.length [] (nonEmpty (kind.ofBlock streamed.start)).toList
    (deltaPieces kind streamed.deltas)
  rw [List.nil_append] at hmore
  rw [← hmore] at hsteps
  rw [map_opened]
  exact hsteps

theorem steps_text (h : Between translator) {kind : TextKind}
    (hstart : kind.Starts streamed.start) :
    Steps runtime translator ((streamed.events idx).map .event)
      (after translator
        (textItem runtime kind translator.output.length (textPieces kind streamed)).toList
        (textEvents runtime kind translator.output.length (textPieces kind streamed)))
      (textEvents runtime kind translator.output.length (textPieces kind streamed)) := by
  rw [Streamed.events_eq, List.map_append]
  exact (steps_opened_text h hstart).trans (steps_stop_text h kind _)

/-- A call that has brought these arguments in its deltas. -/
def withTool (runtime : Runtime) (translator : ResponsesStreamTranslator) (idx : ℕ)
    (callId name arguments : List Char) (startInput : Option (List Char)) (sent : ℕ) :
    ResponsesStreamTranslator :=
  let custom := translator.declared.isCustom name
  let outputIndex := translator.output.length
  { translator with
    sequence := translator.sequence + sent
    blocks := [(idx, .tool)]
    openItems := [(idx, .tool (toolCallId runtime custom outputIndex) outputIndex callId name
      arguments startInput custom)]
    output := translator.output ++ [none] }

def startInput (runtime : Runtime) (input : Json.Fields) : Option (List Char) :=
  if input = [] then none else some (toolArguments runtime.print input)

def addedEvent (runtime : Runtime) (declared : DeclaredTools) (outputIndex : ℕ)
    (callId name : List Char) : ResponseEvent :=
  let custom := declared.isCustom name
  .outputItemAdded outputIndex (declared.restore (toolCallItem runtime.parse
    (toolCallId runtime custom outputIndex) callId name [] custom .inProgress))

def argumentEvents (runtime : Runtime) (declared : DeclaredTools) (outputIndex : ℕ)
    (name : List Char) (deltas : List Delta) : List ResponseEvent :=
  let custom := declared.isCustom name
  if custom then []
  else (deltas.flatMap fun delta => (nonEmpty (partialJson delta)).toList).map
    (.functionCallArgumentsDelta (toolCallId runtime custom outputIndex) outputIndex)

def toolItem (runtime : Runtime) (declared : DeclaredTools) (outputIndex : ℕ)
    (callId name arguments : List Char) : Item :=
  let custom := declared.isCustom name
  declared.restore (toolCallItem runtime.parse (toolCallId runtime custom outputIndex) callId name
    arguments custom .completed)

/-- The events that end a call with these arguments, of which `pending` have not been given. -/
def closeToolEvents (runtime : Runtime) (declared : DeclaredTools) (outputIndex : ℕ)
    (callId name arguments pending : List Char) : List ResponseEvent :=
  let custom := declared.isCustom name
  let id := toolCallId runtime custom outputIndex
  let input := customToolInput runtime.parse arguments
  (if custom then
      [.customToolCallInputDelta id outputIndex input, .customToolCallInputDone id outputIndex input]
    else
      (if pending = [] then [] else [.functionCallArgumentsDelta id outputIndex pending]) ++
        [.functionCallArgumentsDone id outputIndex arguments]) ++
    [.outputItemDone outputIndex (toolItem runtime declared outputIndex callId name arguments)]

/-- The arguments that are left for the end of a call. -/
def pendingOf (runtime : Runtime) (input : Json.Fields) (deltas : List Delta) : List Char :=
  pendingArguments (deltas.flatMap partialJson)
    (if deltas = [] then startInput runtime input else none)

def toolEvents (runtime : Runtime) (declared : DeclaredTools) (outputIndex : ℕ)
    (callId name : List Char) (input : Json.Fields) (deltas : List Delta) : List ResponseEvent :=
  addedEvent runtime declared outputIndex callId name ::
    (argumentEvents runtime declared outputIndex name deltas ++
      closeToolEvents runtime declared outputIndex callId name
        (deltas.flatMap partialJson ++ pendingOf runtime input deltas)
        (pendingOf runtime input deltas))

theorem Running.withTool (h : Running translator) (callId name arguments : List Char)
    (startInput : Option (List Char)) (sent : ℕ) :
    Running (withTool runtime translator idx callId name arguments startInput sent) :=
  ⟨h.started, h.finished⟩

theorem steps_start_tool (h : Between translator) (callId name : List Char) (input : Json.Fields) :
    Steps runtime translator [.event (.contentBlockStart idx (.toolUse callId name input))]
      (withTool runtime translator idx callId name [] (startInput runtime input) 1)
      [addedEvent runtime translator.declared translator.output.length callId name] := by
  refine .single ?_ rfl
  rw [h.onEvent]
  dsimp only
  rw [blockStart, h.ensureStarted]
  dsimp only
  rw [openTool, h.openItems]
  dsimp only [emit]
  rw [h.blocks]
  rfl

theorem argumentEvents_cons (declared : DeclaredTools) (outputIndex : ℕ) (name : List Char)
    (delta : Delta) (deltas : List Delta) :
    argumentEvents runtime declared outputIndex name (delta :: deltas) =
      argumentEvents runtime declared outputIndex name [delta] ++
        argumentEvents runtime declared outputIndex name deltas := by
  rw [argumentEvents, argumentEvents, argumentEvents]
  by_cases hcustom : declared.isCustom name = true
  · rw [if_pos hcustom, if_pos hcustom, if_pos hcustom]
    rfl
  · rw [if_neg hcustom, if_neg hcustom, if_neg hcustom, List.flatMap_cons, List.map_append,
      List.flatMap_cons, List.flatMap_nil, List.append_nil]

theorem argumentEvents_singleton (declared : DeclaredTools) (outputIndex : ℕ)
    (name partialJson : List Char) :
    argumentEvents runtime declared outputIndex name [.inputJsonDelta partialJson] =
      if (!declared.isCustom name) = true ∧ partialJson ≠ [] then
        [.functionCallArgumentsDelta (toolCallId runtime (declared.isCustom name) outputIndex)
          outputIndex partialJson]
      else [] := by
  rw [argumentEvents]
  cases hcustom : declared.isCustom name with
  | true => rfl
  | false =>
    by_cases hempty : partialJson = []
    · rw [hempty]
      rfl
    · have hpieces : ([Delta.inputJsonDelta partialJson].flatMap fun delta =>
          (nonEmpty (MessageStream.partialJson delta)).toList) = [partialJson] := by
        rw [List.flatMap_singleton, MessageStream.partialJson, nonEmpty, if_neg hempty]
        rfl
      rw [hpieces, if_neg Bool.false_ne_true, if_pos ⟨rfl, hempty⟩]
      rfl

theorem appendArguments_withTool (callId name arguments : List Char)
    (startInput : Option (List Char)) (sent : ℕ) (partialJson : List Char) :
    (withTool runtime translator idx callId name arguments startInput sent).appendArguments idx
        partialJson =
      (withTool runtime translator idx callId name (arguments ++ partialJson) none
          (sent + (argumentEvents runtime translator.declared translator.output.length name
            [.inputJsonDelta partialJson]).length),
        numbered (translator.sequence + sent) (argumentEvents runtime translator.declared
          translator.output.length name [.inputJsonDelta partialJson])) := by
  have hget : KeyedList.get idx
      (withTool runtime translator idx callId name arguments startInput sent).openItems =
        some (.tool (toolCallId runtime (translator.declared.isCustom name) translator.output.length)
          translator.output.length callId name arguments startInput
          (translator.declared.isCustom name)) := get_single _ _
  have hinsert (item : OpenItem) : KeyedList.insert idx item
      (withTool runtime translator idx callId name arguments startInput sent).openItems =
        [(idx, item)] := insert_single _ _ _
  rw [appendArguments, hget]
  dsimp only [emit]
  rw [hinsert, argumentEvents_singleton, withTool, withTool, ← Nat.add_assoc]

theorem steps_deltas_tool (h : Between translator) (callId name arguments : List Char)
    (startInput : Option (List Char)) (sent : ℕ) {deltas : List Delta}
    (hfits : ∀ delta ∈ deltas, ∃ partialJson, delta = .inputJsonDelta partialJson) :
    Steps runtime (withTool runtime translator idx callId name arguments startInput sent)
      (deltas.map fun delta => .event (.contentBlockDelta idx delta))
      (withTool runtime translator idx callId name (arguments ++ deltas.flatMap partialJson)
        (if deltas = [] then startInput else none)
        (sent + (argumentEvents runtime translator.declared translator.output.length name
          deltas).length))
      (argumentEvents runtime translator.declared translator.output.length name deltas) := by
  induction deltas generalizing arguments startInput sent with
  | nil =>
    have hnil : argumentEvents runtime translator.declared translator.output.length name [] = [] :=
      ite_self []
    rw [hnil, if_pos rfl, List.flatMap_nil, List.append_nil]
    exact .refl _ _
  | cons delta deltas ih =>
    obtain ⟨text, rfl⟩ := hfits delta List.mem_cons_self
    have hdelta : (withTool runtime translator idx callId name arguments startInput sent).onEvent
        runtime (.event (.contentBlockDelta idx (.inputJsonDelta text))) =
          (withTool runtime translator idx callId name arguments startInput sent).appendArguments
            idx text := by
      have hget : KeyedList.get idx
          (withTool runtime translator idx callId name arguments startInput sent).blocks =
            some .tool := get_single _ _
      have hrunning := @Running.withTool runtime translator idx h.toRunning callId name arguments
        startInput sent
      rw [hrunning.onEvent]
      dsimp only
      rw [blockDelta, hrunning.ensureStarted]
      dsimp only
      rw [hget]
      rfl
    have hfirst := Steps.single (hdelta.trans (appendArguments_withTool callId name arguments
      startInput sent text)) (Nat.add_assoc _ _ _).symm
    have hrest := hfirst.trans (ih (arguments ++ text) none _
      fun delta' hmem => hfits delta' (List.mem_cons_of_mem _ hmem))
    rw [← argumentEvents_cons, List.append_assoc, ite_self, Nat.add_assoc, ← List.length_append,
      ← argumentEvents_cons] at hrest
    exact hrest

theorem steps_stop_tool (h : Between translator) (callId name arguments : List Char)
    (startInput : Option (List Char)) {events : List ResponseEvent} :
    Steps runtime
      (withTool runtime translator idx callId name arguments startInput events.length)
      [.event (.contentBlockStop idx)]
      (after translator [toolItem runtime translator.declared translator.output.length callId name
          (arguments ++ pendingArguments arguments startInput)]
        (events ++ closeToolEvents runtime translator.declared translator.output.length callId name
          (arguments ++ pendingArguments arguments startInput)
          (pendingArguments arguments startInput)))
      (closeToolEvents runtime translator.declared translator.output.length callId name
        (arguments ++ pendingArguments arguments startInput)
        (pendingArguments arguments startInput)) := by
  have hsequence : translator.sequence + events.length + (closeToolEvents runtime
      translator.declared translator.output.length callId name
      (arguments ++ pendingArguments arguments startInput)
      (pendingArguments arguments startInput)).length =
        translator.sequence + (events ++ closeToolEvents runtime
          translator.declared translator.output.length callId name
          (arguments ++ pendingArguments arguments startInput)
          (pendingArguments arguments startInput)).length := by
    rw [List.length_append, Nat.add_assoc]
  refine .single ?_ hsequence.symm
  have hrunning := @Running.withTool runtime translator idx h.toRunning callId name arguments
    startInput events.length
  have hget : KeyedList.get idx (withTool runtime translator idx callId name arguments startInput
      events.length).openItems = some (.tool
        (toolCallId runtime (translator.declared.isCustom name) translator.output.length)
        translator.output.length callId name arguments startInput
        (translator.declared.isCustom name)) := get_single _ _
  have hremove : KeyedList.remove idx (withTool runtime translator idx callId name arguments
      startInput events.length).blocks = [] := remove_single _ _
  have hremoveItem : KeyedList.remove idx (withTool runtime translator idx callId name arguments
      startInput events.length).openItems = [] := remove_single _ _
  have hset (item : Item) : (withTool runtime translator idx callId name arguments startInput
      events.length).output.set translator.output.length (some item) =
        translator.output ++ [some item] := set_length_append _ _ _
  rw [hrunning.onEvent]
  dsimp only
  rw [blockStop, hget]
  dsimp only
  rw [hremove, hremoveItem, finishItem]
  dsimp only
  rw [hset]
  exact Prod.ext (h.eq_after hsequence rfl) rfl

theorem steps_opened_tool (h : Between translator) {callId name : List Char}
    {input : Json.Fields} (hstart : streamed.start = .toolUse callId name input) :
    Steps runtime translator ((streamed.opened idx).map .event)
      (withTool runtime translator idx callId name streamed.json
        (if streamed.deltas = [] then startInput runtime input else none)
        (addedEvent runtime translator.declared translator.output.length callId name ::
          argumentEvents runtime translator.declared translator.output.length name
            streamed.deltas).length)
      (addedEvent runtime translator.declared translator.output.length callId name ::
        argumentEvents runtime translator.declared translator.output.length name
          streamed.deltas) := by
  have hsteps := (@steps_start_tool runtime translator idx h callId name input).trans
    (steps_deltas_tool h callId name [] (startInput runtime input) 1
      (streamed.fits_toolUse hstart))
  rw [Nat.add_comm 1, ← List.length_cons] at hsteps
  rw [map_opened, hstart]
  exact hsteps

theorem steps_tool (h : Between translator) {callId name : List Char}
    {input : Json.Fields} (hstart : streamed.start = .toolUse callId name input) :
    Steps runtime translator ((streamed.events idx).map .event)
      (after translator [toolItem runtime translator.declared translator.output.length callId name
          (streamed.json ++ pendingOf runtime input streamed.deltas)]
        (toolEvents runtime translator.declared translator.output.length callId name input
          streamed.deltas))
      (toolEvents runtime translator.declared translator.output.length callId name input
        streamed.deltas) := by
  rw [Streamed.events_eq, List.map_append]
  exact (steps_opened_tool h hstart).trans (steps_stop_tool h callId name _ _)

def blockItems (runtime : Runtime) (declared : DeclaredTools) (outputIndex : ℕ)
    (streamed : Streamed) : List Item :=
  match streamed.start with
  | .text _ => (textItem runtime .message outputIndex (textPieces .message streamed)).toList
  | .thinking _ _ =>
    (textItem runtime .reasoning outputIndex (textPieces .reasoning streamed)).toList
  | .toolUse callId name input =>
    [toolItem runtime declared outputIndex callId name
      (streamed.json ++ pendingOf runtime input streamed.deltas)]
  | _ => []

def blockEvents (runtime : Runtime) (declared : DeclaredTools) (outputIndex : ℕ)
    (streamed : Streamed) : List ResponseEvent :=
  match streamed.start with
  | .text _ => textEvents runtime .message outputIndex (textPieces .message streamed)
  | .thinking _ _ => textEvents runtime .reasoning outputIndex (textPieces .reasoning streamed)
  | .toolUse callId name input =>
    toolEvents runtime declared outputIndex callId name input streamed.deltas
  | _ => []

def withSkip (translator : ResponsesStreamTranslator) (idx : ℕ) : ResponsesStreamTranslator :=
  { translator with blocks := [(idx, .skip)] }

theorem steps_opened_skip (h : Between translator)
    (hstart : translator.blockStart runtime idx streamed.start = (withSkip translator idx, [])) :
    Steps runtime translator ((streamed.opened idx).map .event) (withSkip translator idx) [] := by
  have hrunning : Running (withSkip translator idx) := ⟨h.started, h.finished⟩
  have hdeltas (deltas : List Delta) : Steps runtime (withSkip translator idx)
      (deltas.map fun delta => .event (.contentBlockDelta idx delta))
      (withSkip translator idx) [] := by
    induction deltas with
    | nil => exact .refl _ _
    | cons delta deltas ih =>
      have hget : KeyedList.get idx (withSkip translator idx).blocks = some .skip := get_single _ _
      have hdelta : (withSkip translator idx).onEvent runtime
          (.event (.contentBlockDelta idx delta)) = (withSkip translator idx, []) := by
        rw [hrunning.onEvent]
        dsimp only
        rw [blockDelta, hrunning.ensureStarted]
        dsimp only
        rw [hget]
        cases delta <;> rfl
      exact (Steps.silent hdelta rfl).trans ih
  have hfirst : Steps runtime translator [.event (.contentBlockStart idx streamed.start)]
      (withSkip translator idx) [] := .single ((h.onEvent _).trans hstart) rfl
  rw [map_opened]
  exact hfirst.trans (hdeltas streamed.deltas)

theorem steps_skip (h : Between translator)
    (hstart : translator.blockStart runtime idx streamed.start = (withSkip translator idx, [])) :
    Steps runtime translator ((streamed.events idx).map .event) translator [] := by
  have hrunning : Running (withSkip translator idx) := ⟨h.started, h.finished⟩
  have hstop : (withSkip translator idx).onEvent runtime (.event (.contentBlockStop idx)) =
      (translator, []) := by
    have hget : KeyedList.get idx (withSkip translator idx).openItems = none := by
      rw [withSkip, h.openItems]
      rfl
    have hremoveItem : KeyedList.remove idx (withSkip translator idx).openItems =
        translator.openItems := by
      rw [withSkip, h.openItems]
      rfl
    have hremove : KeyedList.remove idx (withSkip translator idx).blocks = translator.blocks := by
      rw [h.blocks]
      exact remove_single _ _
    rw [hrunning.onEvent]
    dsimp only
    rw [blockStop, hget]
    dsimp only
    rw [hremove, hremoveItem]
    rfl
  rw [Streamed.events_eq, List.map_append]
  exact (steps_opened_skip h hstart).trans (Steps.silent hstop rfl)

theorem blockStart_skip (h : Between translator) {start : Block}
    (hstart : (∃ data, start = .redactedThinking data) ∨ ∃ type, start = .serverTool type) :
    translator.blockStart runtime idx start = (withSkip translator idx, []) := by
  rcases hstart with ⟨_, rfl⟩ | ⟨_, rfl⟩ <;>
    (rw [blockStart, h.ensureStarted]
     dsimp only
     rw [h.blocks]
     rfl)

theorem steps_events (h : Between translator) (streamed : Streamed) :
    Steps runtime translator ((streamed.events idx).map .event)
      (after translator
        (blockItems runtime translator.declared translator.output.length streamed)
        (blockEvents runtime translator.declared translator.output.length streamed))
      (blockEvents runtime translator.declared translator.output.length streamed) := by
  cases hstart : streamed.start with
  | text text =>
    have hkind : TextKind.message.Starts streamed.start := by rw [hstart]; trivial
    rw [blockItems, blockEvents, hstart]
    exact steps_text h hkind
  | thinking thinking signature =>
    have hkind : TextKind.reasoning.Starts streamed.start := by rw [hstart]; trivial
    rw [blockItems, blockEvents, hstart]
    exact steps_text h hkind
  | redactedThinking data =>
    rw [blockItems, blockEvents, hstart]
    dsimp only
    rw [after_nil]
    exact steps_skip h (blockStart_skip h (.inl ⟨data, hstart⟩))
  | serverTool type =>
    rw [blockItems, blockEvents, hstart]
    dsimp only
    rw [after_nil]
    exact steps_skip h (blockStart_skip h (.inr ⟨type, hstart⟩))
  | toolUse callId name input =>
    rw [blockItems, blockEvents, hstart]
    exact steps_tool h hstart

def streamItems (runtime : Runtime) (declared : DeclaredTools) (outputIndex : ℕ) :
    List Streamed → List Item
  | [] => []
  | streamed :: blocks =>
    blockItems runtime declared outputIndex streamed ++
      streamItems runtime declared
        (outputIndex + (blockItems runtime declared outputIndex streamed).length) blocks

def streamEvents (runtime : Runtime) (declared : DeclaredTools) (outputIndex : ℕ) :
    List Streamed → List ResponseEvent
  | [] => []
  | streamed :: blocks =>
    blockEvents runtime declared outputIndex streamed ++
      streamEvents runtime declared
        (outputIndex + (blockItems runtime declared outputIndex streamed).length) blocks

theorem steps_streamFrom (h : Between translator) (blocks : List Streamed) :
    Steps runtime translator ((streamFrom idx blocks).map .event)
      (after translator (streamItems runtime translator.declared translator.output.length blocks)
        (streamEvents runtime translator.declared translator.output.length blocks))
      (streamEvents runtime translator.declared translator.output.length blocks) := by
  induction blocks generalizing translator idx with
  | nil =>
    rw [streamItems, streamEvents, after_nil]
    exact .refl _ _
  | cons streamed blocks ih =>
    have hfirst := @steps_events runtime translator idx h streamed
    have hrest := @ih _ (idx + 1) (h.after
      (blockItems runtime translator.declared translator.output.length streamed)
      (blockEvents runtime translator.declared translator.output.length streamed))
    have hlength : (after translator
        (blockItems runtime translator.declared translator.output.length streamed)
        (blockEvents runtime translator.declared translator.output.length streamed)).output.length =
          translator.output.length +
            (blockItems runtime translator.declared translator.output.length streamed).length := by
      rw [after, List.length_append, List.length_map]
    rw [hlength, after_after] at hrest
    rw [streamFrom, List.map_append]
    exact hfirst.trans hrest

theorem steps_complete (h : Between translator) :
    Steps runtime translator [.event .messageStop]
      { translator with finished := true, sequence := translator.sequence + 1 }
      [terminalEvent (translator.shell.object (terminalStatus translator.stopReason).1
        translator.snapshotOutput (some translator.usage.toResponses)
        (terminalStatus translator.stopReason).2 none)] := by
  have hclose : run (blockStop runtime) translator (translator.openItems.map Prod.fst) =
      (translator, []) := by
    rw [h.openItems]
    rfl
  refine .single ?_ rfl
  rw [h.onEvent]
  dsimp only
  rw [complete, h.ensureStarted]
  dsimp only
  rw [hclose]
  rfl

/-- The shell of a stream, when the start of the message has come. -/
def streamShell (runtime : Runtime) (shell : ResponseShell) (id model : Option (List Char)) :
    ResponseShell :=
  { shell with model := modelOr model shell.model }.withId runtime id

theorem run_stream (runtime : Runtime) (shell : ResponseShell) (declared : DeclaredTools)
    (stream : StreamedMessage) :
    ∃ response, response.shell = streamShell runtime shell stream.id stream.model ∧
      response.status = (terminalStatus stream.stopReason).1 ∧
      response.output = streamItems runtime declared 0 stream.blocks ∧
      response.usage = some (Usage.default.merge
        (stream.startUsage.override stream.deltaUsage)).toResponses ∧
      response.incompleteDetails = (terminalStatus stream.stopReason).2 ∧ response.error = none ∧
      ∃ started, (run (onEvent runtime) (new shell declared) (stream.events.map .event)).2 =
        numbered 0 ([.created started, .inProgress started] ++
          streamEvents runtime declared 0 stream.blocks ++ [terminalEvent response]) := by
  let start := (new shell declared).messageStart runtime stream.id stream.model stream.startUsage
  have hbetween : Between start.1 := ⟨⟨rfl, rfl⟩, rfl, rfl⟩
  let items := streamItems runtime declared 0 stream.blocks
  let events := streamEvents runtime declared 0 stream.blocks
  let sent := after start.1 items events
  have hsent : Between sent := hbetween.after items events
  let ending : ResponsesStreamTranslator :=
    { sent with
      usage := sent.usage.merge stream.deltaUsage
      stopReason := stream.stopReason.or sent.stopReason }
  have hending : Between ending := ⟨⟨rfl, rfl⟩, rfl, rfl⟩
  have hstart : Steps runtime (new shell declared)
      [.event (.messageStart stream.id stream.model stream.startUsage)] start.1
      [.created (start.1.shell.object .inProgress [] none none none),
        .inProgress (start.1.shell.object .inProgress [] none none none)] := .single rfl rfl
  have hblocks : Steps runtime start.1 ((streamFrom 0 stream.blocks).map .event) sent events :=
    steps_streamFrom hbetween stream.blocks
  have hdelta : Steps runtime sent
      [.event (.messageDelta stream.stopReason stream.deltaUsage)] ending [] :=
    .silent (hsent.onEvent _) rfl
  have hstopReason : ending.stopReason = stream.stopReason := Option.or_none
  have husage : ending.usage =
      Usage.default.merge (stream.startUsage.override stream.deltaUsage) :=
    (Usage.merge_override _ _ _).symm
  have houtput : ending.snapshotOutput = items := by
    have hmap : (items.map some).filterMap id = items := by
      rw [List.filterMap_map]
      exact List.filterMap_some
    exact hmap
  have hsteps := ((hstart.trans hblocks).trans hdelta).trans (steps_complete hending)
  have hmessages : stream.events.map SseMessage.event =
      [.event (.messageStart stream.id stream.model stream.startUsage)] ++
        (streamFrom 0 stream.blocks).map .event ++
        [.event (.messageDelta stream.stopReason stream.deltaUsage)] ++ [.event .messageStop] := by
    rw [StreamedMessage.events, List.map_cons, List.map_append, List.append_assoc,
      List.append_assoc]
    rfl
  rw [← hmessages, List.append_nil] at hsteps
  rw [hstopReason, husage, houtput] at hsteps
  exact ⟨_, rfl, rfl, rfl, rfl, rfl, rfl, _, congrArg Prod.snd hsteps.run_eq⟩

end KiroProxy.OpenAI.Responses
