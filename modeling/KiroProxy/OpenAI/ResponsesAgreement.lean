import KiroProxy.OpenAI.ResponsesStream

/-!
# The stream and the complete response

`Ladders` says of the events of a stream that every slot of the output is opened once and filled
once, in the order of the slots, and that the deltas of an item make up its text. `SameItem`
compares items up to their ids, and arguments as JSON values.
-/

namespace KiroProxy.OpenAI.Responses
open MessageStream ResponsesStreamTranslator Transducer

variable {runtime : Runtime} {declared : DeclaredTools} {outputIndex : ℕ}

def Frame.event? : Frame → Option (ℕ × ResponseEvent)
  | .keepalive => none
  | .event sequenceNumber data => some (sequenceNumber, data)

def addedIndex? : ResponseEvent → Option ℕ
  | .outputItemAdded outputIndex _ => some outputIndex
  | _ => none

def doneItem? : ResponseEvent → Option (ℕ × Item)
  | .outputItemDone outputIndex item => some (outputIndex, item)
  | _ => none

def delta? : ResponseEvent → Option (ℕ × List Char)
  | .outputTextDelta _ outputIndex delta => some (outputIndex, delta)
  | .reasoningSummaryTextDelta _ outputIndex delta => some (outputIndex, delta)
  | .functionCallArgumentsDelta _ outputIndex delta => some (outputIndex, delta)
  | .customToolCallInputDelta _ outputIndex delta => some (outputIndex, delta)
  | _ => none

def doneText? : ResponseEvent → Option (ℕ × List Char)
  | .contentPartDone _ outputIndex text => some (outputIndex, text)
  | .reasoningSummaryPartDone _ outputIndex text => some (outputIndex, text)
  | .outputTextDone _ outputIndex text => some (outputIndex, text)
  | .reasoningSummaryTextDone _ outputIndex text => some (outputIndex, text)
  | .functionCallArgumentsDone _ outputIndex arguments => some (outputIndex, arguments)
  | .customToolCallInputDone _ outputIndex input => some (outputIndex, input)
  | _ => none

def Item.text : Item → List Char
  | .message _ _ content => content.flatten
  | .reasoning _ summary => summary.flatten
  | .functionCall _ _ _ _ arguments _ => arguments
  | .customToolCall _ _ _ _ input _ => input

def deltasOf (outputIndex : ℕ) (events : List ResponseEvent) : List Char :=
  (events.filterMap delta?).flatMap fun delta => if delta.1 = outputIndex then delta.2 else []

structure Ladder (outputIndex : ℕ) (item : Item) (events : List ResponseEvent) : Prop where
  added : events.filterMap addedIndex? = [outputIndex]
  done : events.filterMap doneItem? = [(outputIndex, item)]
  deltas : deltasOf outputIndex events = item.text
  deltaIndexes : ∀ delta ∈ events.filterMap delta?, delta.1 = outputIndex
  doneTexts : ∀ done ∈ events.filterMap doneText?, done = (outputIndex, item.text)

/-- The events of the items that take the slots from `outputIndex` on. -/
structure Ladders (outputIndex : ℕ) (items : List Item) (events : List ResponseEvent) : Prop where
  added : events.filterMap addedIndex? = List.range' outputIndex items.length
  done : events.filterMap doneItem? = (items.zipIdx outputIndex).map Prod.swap
  deltas : ∀ entry ∈ items.zipIdx outputIndex, deltasOf entry.2 events = entry.1.text
  deltaIndexes : ∀ delta ∈ events.filterMap delta?, outputIndex ≤ delta.1
  doneTexts : ∀ done ∈ events.filterMap doneText?, ∃ entry ∈ items.zipIdx outputIndex,
    done = (entry.2, entry.1.text)

theorem deltasOf_append (outputIndex : ℕ) (events events' : List ResponseEvent) :
    deltasOf outputIndex (events ++ events') =
      deltasOf outputIndex events ++ deltasOf outputIndex events' := by
  rw [deltasOf, List.filterMap_append, List.flatMap_append]
  rfl

theorem deltasOf_eq_nil {events : List ResponseEvent}
    (h : ∀ delta ∈ events.filterMap delta?, delta.1 ≠ outputIndex) :
    deltasOf outputIndex events = [] :=
  List.flatMap_eq_nil_iff.mpr fun delta hmem => if_neg (h delta hmem)

theorem ladders_nil (outputIndex : ℕ) : Ladders outputIndex [] [] :=
  ⟨rfl, rfl, nofun, nofun, nofun⟩

theorem Ladder.append {item : Item} {items : List Item} {events events' : List ResponseEvent}
    (h : Ladder outputIndex item events) (h' : Ladders (outputIndex + 1) items events') :
    Ladders outputIndex (item :: items) (events ++ events') where
  added := by
    rw [List.filterMap_append, h.added, h'.added, List.length_cons, List.range'_succ]
    rfl
  done := by
    rw [List.filterMap_append, h.done, h'.done, List.zipIdx_cons, List.map_cons]
    rfl
  deltas entry hmem := by
    rw [List.zipIdx_cons] at hmem
    rw [deltasOf_append]
    rcases List.mem_cons.mp hmem with rfl | hmem
    · rw [h.deltas, deltasOf_eq_nil fun delta hmem => Nat.ne_of_gt (h'.deltaIndexes delta hmem),
        List.append_nil]
    · have hle : outputIndex + 1 ≤ entry.2 := by
        obtain ⟨item', index⟩ := entry
        exact (List.mem_zipIdx hmem).1
      rw [h'.deltas entry hmem, deltasOf_eq_nil, List.nil_append]
      intro delta hdelta
      rw [h.deltaIndexes delta hdelta]
      exact Nat.ne_of_lt hle
  deltaIndexes delta hmem := by
    rw [List.filterMap_append] at hmem
    rcases List.mem_append.mp hmem with hmem | hmem
    · exact Nat.le_of_eq (h.deltaIndexes delta hmem).symm
    · exact Nat.le_of_succ_le (h'.deltaIndexes delta hmem)
  doneTexts done hmem := by
    rw [List.filterMap_append] at hmem
    rw [List.zipIdx_cons]
    rcases List.mem_append.mp hmem with hmem | hmem
    · exact ⟨(item, outputIndex), List.mem_cons_self, h.doneTexts done hmem⟩
    · obtain ⟨entry, hentry, hdone⟩ := h'.doneTexts done hmem
      exact ⟨entry, List.mem_cons_of_mem _ hentry, hdone⟩

/-- The events of an item that has not been filled yet. -/
structure Opened (outputIndex : ℕ) (text : List Char) (events : List ResponseEvent) : Prop where
  added : events.filterMap addedIndex? = [outputIndex]
  deltas : deltasOf outputIndex events = text
  deltaIndexes : ∀ delta ∈ events.filterMap delta?, delta.1 = outputIndex

variable {streamed : Streamed} {make : List Char → ResponseEvent}

theorem filterMap_map_eq_nil {α : Type} {f : ResponseEvent → Option α}
    (h : ∀ piece, f (make piece) = none)
    (pieces : List (List Char)) : (pieces.map make).filterMap f = [] := by
  refine List.filterMap_eq_nil_iff.mpr fun event hmem => ?_
  obtain ⟨piece, -, rfl⟩ := List.mem_map.mp hmem
  exact h piece

theorem opened_of_parts {opening : List ResponseEvent}
    (hopening : opening.filterMap addedIndex? = [outputIndex] ∧ opening.filterMap delta? = [])
    (hmake : ∀ piece, addedIndex? (make piece) = none ∧
      delta? (make piece) = some (outputIndex, piece)) (pieces : List (List Char)) :
    Opened outputIndex pieces.flatten (opening ++ pieces.map make) := by
  have hdeltas : (opening ++ pieces.map make).filterMap delta? =
      pieces.map fun piece => (outputIndex, piece) := by
    rw [List.filterMap_append, hopening.2, List.nil_append, List.filterMap_map,
      ← List.filterMap_eq_map]
    exact List.filterMap_congr fun piece _ => (hmake piece).2
  refine ⟨?_, ?_, ?_⟩
  · rw [List.filterMap_append, hopening.1, filterMap_map_eq_nil fun piece => (hmake piece).1]
    rfl
  · rw [deltasOf, hdeltas, List.flatMap_map]
    simp only [if_true]
    exact List.flatMap_id
  · intro delta hmem
    rw [hdeltas] at hmem
    obtain ⟨piece, -, rfl⟩ := List.mem_map.mp hmem
    rfl

theorem ladder_of_parts {item : Item} {opening closing : List ResponseEvent}
    {pieces : List (List Char)}
    (hopening : opening.filterMap addedIndex? = [outputIndex] ∧
      opening.filterMap doneItem? = [] ∧ opening.filterMap delta? = [] ∧
      opening.filterMap doneText? = [])
    (hmake : ∀ piece, addedIndex? (make piece) = none ∧ doneItem? (make piece) = none ∧
      delta? (make piece) = some (outputIndex, piece) ∧ doneText? (make piece) = none)
    (hclosing : closing.filterMap addedIndex? = [] ∧
      closing.filterMap doneItem? = [(outputIndex, item)] ∧ closing.filterMap delta? = [] ∧
      ∀ done ∈ closing.filterMap doneText?, done = (outputIndex, item.text))
    (htext : pieces.flatten = item.text) :
    Ladder outputIndex item (opening ++ pieces.map make ++ closing) := by
  obtain ⟨hadded, hdone, hdelta, hdoneText⟩ := hopening
  obtain ⟨hadded', hdone', hdelta', hdoneText'⟩ := hclosing
  have hopened := opened_of_parts ⟨hadded, hdelta⟩
    (fun piece => ⟨(hmake piece).1, (hmake piece).2.2.1⟩) pieces
  refine ⟨?_, ?_, ?_, ?_, ?_⟩
  · rw [List.filterMap_append, hopened.added, hadded']
    rfl
  · rw [List.filterMap_append, List.filterMap_append, hdone, hdone',
      filterMap_map_eq_nil fun piece => (hmake piece).2.1]
    rfl
  · rw [deltasOf_append, hopened.deltas, deltasOf, hdelta', htext]
    exact List.append_nil _
  · intro delta hmem
    rw [List.filterMap_append, hdelta', List.append_nil] at hmem
    exact hopened.deltaIndexes delta hmem
  · rw [List.filterMap_append, List.filterMap_append, hdoneText,
      filterMap_map_eq_nil fun piece => (hmake piece).2.2.2]
    exact hdoneText'

theorem ladder_text (kind : TextKind) {pieces : List (List Char)} (hne : pieces ≠ []) :
    ∃ item, textItem runtime kind outputIndex pieces = some item ∧
      Ladder outputIndex item (textEvents runtime kind outputIndex pieces) := by
  let id := kind.itemId runtime outputIndex
  let item := kind.item id .completed [pieces.flatten]
  have hitem : textItem runtime kind outputIndex pieces = some item := if_neg hne
  have htext : pieces.flatten = item.text := by
    cases kind <;> exact List.flatten_singleton.symm
  have hevents : textEvents runtime kind outputIndex pieces =
      kind.opening id outputIndex ++ pieces.map (kind.delta id outputIndex) ++
        (kind.closing id outputIndex pieces.flatten ++ [.outputItemDone outputIndex item]) := by
    rw [textEvents, moreEvents, if_neg hne, if_pos rfl, closeEvents, hitem]
  refine ⟨item, hitem, ?_⟩
  rw [hevents]
  refine ladder_of_parts ?_ ?_ ?_ htext
  · cases kind <;> exact ⟨rfl, rfl, rfl, rfl⟩
  · intro piece
    cases kind <;> exact ⟨rfl, rfl, rfl, rfl⟩
  · rw [← htext]
    cases kind <;> refine ⟨rfl, rfl, rfl, fun done hmem => ?_⟩ <;>
      rcases List.mem_cons.mp hmem with heq | hmem
    · exact heq
    · exact List.mem_singleton.mp hmem
    · exact heq
    · exact List.mem_singleton.mp hmem

theorem text_restore (declared : DeclaredTools) (item : Item) :
    (declared.restore item).text = item.text := by
  cases item with
  | functionCall id callId name toolNamespace arguments status =>
    rw [DeclaredTools.restore]
    split <;> rfl
  | customToolCall id callId name toolNamespace input status =>
    rw [DeclaredTools.restore]
    split <;> rfl
  | _ => rfl

theorem text_toolItem (callId name arguments : List Char) :
    (toolItem runtime declared outputIndex callId name arguments).text =
      if declared.isCustom name then customToolInput runtime.parse arguments else arguments := by
  rw [toolItem, text_restore, toolCallItem]
  split <;> rfl

theorem flatten_nonEmpty (text : List Char) : (nonEmpty text).toList.flatten = text := by
  rw [nonEmpty]
  split_ifs with hempty
  · exact hempty.symm
  · exact List.flatten_singleton

theorem flatten_flatMap_nonEmpty (piece : Delta → List Char) (deltas : List Delta) :
    (deltas.flatMap fun delta => (nonEmpty (piece delta)).toList).flatten = deltas.flatMap piece := by
  induction deltas with
  | nil => rfl
  | cons delta deltas ih =>
    rw [List.flatMap_cons, List.flatten_append, flatten_nonEmpty, ih, List.flatMap_cons]

theorem ladder_tool (callId name : List Char) (input : Json.Fields) (deltas : List Delta) :
    Ladder outputIndex (toolItem runtime declared outputIndex callId name
        (deltas.flatMap partialJson ++ pendingOf runtime input deltas))
      (toolEvents runtime declared outputIndex callId name input deltas) := by
  let arguments := deltas.flatMap partialJson ++ pendingOf runtime input deltas
  let id := toolCallId runtime (declared.isCustom name) outputIndex
  have htext := @text_toolItem runtime declared outputIndex callId name arguments
  cases hcustom : declared.isCustom name with
  | true =>
    rw [hcustom, if_pos rfl] at htext
    have hevents : toolEvents runtime declared outputIndex callId name input deltas =
        [addedEvent runtime declared outputIndex callId name] ++
          [customToolInput runtime.parse arguments].map (.customToolCallInputDelta id outputIndex) ++
          [.customToolCallInputDone id outputIndex (customToolInput runtime.parse arguments),
            .outputItemDone outputIndex
              (toolItem runtime declared outputIndex callId name arguments)] := by
      rw [toolEvents, argumentEvents, closeToolEvents, if_pos hcustom, if_pos hcustom]
      rfl
    rw [hevents]
    refine ladder_of_parts ⟨rfl, rfl, rfl, rfl⟩ (fun _ => ⟨rfl, rfl, rfl, rfl⟩)
      ⟨rfl, rfl, rfl, fun done hmem => ?_⟩ (List.flatten_singleton.trans htext.symm)
    exact (List.mem_singleton.mp hmem).trans (congrArg _ htext.symm)
  | false =>
    rw [hcustom, if_neg Bool.false_ne_true] at htext
    have hevents : toolEvents runtime declared outputIndex callId name input deltas =
        [addedEvent runtime declared outputIndex callId name] ++
          ((deltas.flatMap fun delta => (nonEmpty (partialJson delta)).toList) ++
            (nonEmpty (pendingOf runtime input deltas)).toList).map
              (.functionCallArgumentsDelta id outputIndex) ++
          [.functionCallArgumentsDone id outputIndex arguments,
            .outputItemDone outputIndex
              (toolItem runtime declared outputIndex callId name arguments)] := by
      rw [toolEvents, argumentEvents, closeToolEvents, if_neg (Bool.eq_false_iff.mp hcustom),
        if_neg (Bool.eq_false_iff.mp hcustom), List.map_append, nonEmpty]
      by_cases hpending : pendingOf runtime input deltas = []
      · rw [if_pos hpending, if_pos hpending, Option.toList_none, List.map_nil, List.append_nil]
        rfl
      · rw [if_neg hpending, if_neg hpending, Option.toList_some, List.append_assoc,
          List.append_assoc, List.append_assoc]
        rfl
    rw [hevents]
    refine ladder_of_parts ⟨rfl, rfl, rfl, rfl⟩ (fun _ => ⟨rfl, rfl, rfl, rfl⟩)
      ⟨rfl, rfl, rfl, fun done hmem => ?_⟩ ?_
    · exact (List.mem_singleton.mp hmem).trans (congrArg _ htext.symm)
    · rw [List.flatten_append, flatten_flatMap_nonEmpty, flatten_nonEmpty]
      exact htext.symm

theorem ladder_block (outputIndex : ℕ) (streamed : Streamed) :
    blockItems runtime declared outputIndex streamed = [] ∧
        blockEvents runtime declared outputIndex streamed = [] ∨
      ∃ item, blockItems runtime declared outputIndex streamed = [item] ∧
        Ladder outputIndex item (blockEvents runtime declared outputIndex streamed) := by
  have htext (kind : TextKind) (pieces : List (List Char)) :
      (textItem runtime kind outputIndex pieces).toList = [] ∧
          textEvents runtime kind outputIndex pieces = [] ∨
        ∃ item, (textItem runtime kind outputIndex pieces).toList = [item] ∧
          Ladder outputIndex item (textEvents runtime kind outputIndex pieces) := by
    by_cases hempty : pieces = []
    · rw [hempty]
      exact .inl ⟨rfl, rfl⟩
    · obtain ⟨item, hitem, hladder⟩ := @ladder_text runtime outputIndex kind pieces hempty
      exact .inr ⟨item, congrArg Option.toList hitem, hladder⟩
  rw [blockItems, blockEvents]
  cases streamed.start with
  | text text => exact htext .message _
  | thinking thinking signature => exact htext .reasoning _
  | toolUse callId name input => exact .inr ⟨_, rfl, ladder_tool callId name input _⟩
  | redactedThinking data => exact .inl ⟨rfl, rfl⟩
  | serverTool type => exact .inl ⟨rfl, rfl⟩

theorem ladders_stream (outputIndex : ℕ) (blocks : List Streamed) :
    Ladders outputIndex (streamItems runtime declared outputIndex blocks)
      (streamEvents runtime declared outputIndex blocks) := by
  induction blocks generalizing outputIndex with
  | nil => exact ladders_nil outputIndex
  | cons streamed blocks ih =>
    rw [streamItems, streamEvents]
    rcases @ladder_block runtime declared outputIndex streamed with
      ⟨hitems, hevents⟩ | ⟨item, hitems, hladder⟩
    · rw [hitems, hevents]
      exact ih outputIndex
    · rw [hitems]
      exact hladder.append (ih (outputIndex + 1))

def SameText (parse : List Char → Option Json) (text text' : List Char) : Prop :=
  text = text' ∨ ∃ value, parse text = some value ∧ parse text' = some value

inductive SameItem (parse : List Char → Option Json) : Item → Item → Prop
  | message (id id' : List Char) (status : Status) (content : List (List Char)) :
    SameItem parse (.message id status content) (.message id' status content)
  | reasoning (id id' : List Char) (summary : List (List Char)) :
    SameItem parse (.reasoning id summary) (.reasoning id' summary)
  | functionCall (id id' callId name : List Char) (toolNamespace : Option (List Char))
      (status : Status) {arguments arguments' : List Char} {input : Json.Fields} :
    parse arguments = some (.obj input) → parse arguments' = some (.obj input) →
    SameItem parse (.functionCall id callId name toolNamespace arguments status)
      (.functionCall id' callId name toolNamespace arguments' status)
  | customToolCall (id id' callId name : List Char) (toolNamespace : Option (List Char))
      (status : Status) {input input' : List Char} :
    SameText parse input input' →
    SameItem parse (.customToolCall id callId name toolNamespace input status)
      (.customToolCall id' callId name toolNamespace input' status)

variable {parse : List Char → Option Json}

theorem SameItem.restore {item item' : Item} (h : SameItem parse item item')
    (declared : DeclaredTools) :
    SameItem parse (declared.restore item) (declared.restore item') := by
  cases h with
  | message id id' status content => exact .message id id' status content
  | reasoning id id' summary => exact .reasoning id id' summary
  | functionCall id id' callId name toolNamespace status harguments harguments' =>
    rw [DeclaredTools.restore, DeclaredTools.restore]
    cases KeyedList.get name declared.namespaced with
    | none => exact .functionCall id id' callId name toolNamespace status harguments harguments'
    | some entry => exact .functionCall id id' callId entry.2 _ status harguments harguments'
  | customToolCall id id' callId name toolNamespace status hinput =>
    rw [DeclaredTools.restore, DeclaredTools.restore]
    cases KeyedList.get name declared.namespaced with
    | none => exact .customToolCall id id' callId name toolNamespace status hinput
    | some entry => exact .customToolCall id id' callId entry.2 _ status hinput

theorem sameText_customToolInput {arguments arguments' : List Char} {input : Json.Fields}
    (h : parse arguments = some (.obj input)) (h' : parse arguments' = some (.obj input)) :
    SameText parse (customToolInput parse arguments) (customToolInput parse arguments') := by
  rw [customToolInput, customToolInput, h, h']
  dsimp only
  cases Json.getField input "input" with
  | none => exact .inr ⟨.obj input, h, h'⟩
  | some value =>
    cases value with
    | str text => exact .inl rfl
    | _ => exact .inr ⟨.obj input, h, h'⟩

theorem sameItem_toolCallItem (id id' callId name : List Char) (custom : Bool) (status : Status)
    {arguments arguments' : List Char} {input : Json.Fields}
    (h : parse arguments = some (.obj input)) (h' : parse arguments' = some (.obj input)) :
    SameItem parse (toolCallItem parse id callId name arguments custom status)
      (toolCallItem parse id' callId name arguments' custom status) := by
  cases custom with
  | true => exact .customToolCall id id' callId name none status (sameText_customToolInput h h')
  | false => exact .functionCall id id' callId name none status h h'

/-- A call with an input at its start has no deltas but empty ones, or a text in them. -/
def KeepsStart (streamed : Streamed) : Prop :=
  ∀ callId name input, streamed.start = .toolUse callId name input → input ≠ [] →
    streamed.deltas = [] ∨ streamed.json ≠ []

theorem parse_arguments {runtime : Runtime} {block : Block}
    (hbuild : streamed.build runtime.parse = some block) {callId name : List Char}
    {input input' : Json.Fields} (hstart : streamed.start = .toolUse callId name input)
    (hblock : block = .toolUse callId name input')
    (hempty : runtime.parse ['\x7b', '\x7d'] = some (.obj []))
    (hround : runtime.parse (runtime.print (.obj input')) = some (.obj input'))
    (hkeeps : KeepsStart streamed) :
    runtime.parse (streamed.json ++ pendingOf runtime input streamed.deltas) =
      some (.obj input') := by
  obtain ⟨_, hblock', hsame, hparse⟩ := streamed.build_toolUse hbuild hstart
  obtain ⟨-, -, rfl⟩ := Block.toolUse.inj (hblock.symm.trans hblock')
  by_cases hjson : streamed.json = []
  · -- No text came in deltas, so the input is the one at the start.
    obtain rfl := hsame hjson
    have hpending : pendingOf runtime input' streamed.deltas =
        pendingArguments [] (if streamed.deltas = [] then startInput runtime input' else none) := by
      rw [pendingOf, ← Streamed.json, hjson]
    rw [hjson, List.nil_append, hpending]
    by_cases hinput : input' = []
    · have hnone : (if streamed.deltas = [] then startInput runtime input' else none) = none := by
        rw [startInput, if_pos hinput, ite_self]
      rw [hnone, hinput]
      exact hempty
    · have hdeltas := (hkeeps callId name input' hstart hinput).resolve_right fun h => h hjson
      rw [if_pos hdeltas, startInput, if_neg hinput]
      exact hround
  · have hdeltas : streamed.deltas ≠ [] := fun hnil =>
      hjson (by rw [Streamed.json, hnil, List.flatMap_nil])
    have hpending : pendingOf runtime input streamed.deltas = [] := by
      rw [pendingOf, if_neg hdeltas]
      exact if_neg hjson
    rw [hpending, List.append_nil]
    exact hparse hjson

theorem starts_build {parse : List Char → Option Json} {kind : TextKind}
    {block : Block} (hbuild : streamed.build parse = some block)
    (hstart : kind.Starts streamed.start) : kind.Starts block := by
  have hfold (block : Block) (deltas : List Delta) (hstart : kind.Starts block) :
      kind.Starts (deltas.foldl Block.append block) := by
    induction deltas generalizing block with
    | nil => exact hstart
    | cons delta deltas ih =>
      refine ih (block.append delta) ?_
      cases kind <;> cases block <;> cases delta <;> exact hstart
  have hstart' := hfold streamed.start streamed.deltas hstart
  rw [Streamed.build] at hbuild
  cases hblock : streamed.deltas.foldl Block.append streamed.start with
  | toolUse callId name input =>
    rw [hblock] at hstart'
    cases kind <;> exact hstart'.elim
  | _ =>
    rw [hblock] at hbuild hstart'
    rw [← Option.some.inj hbuild]
    exact hstart'

theorem flatten_textPieces {parse : List Char → Option Json} (kind : TextKind) {block : Block}
    (hbuild : streamed.build parse = some block) :
    (textPieces kind streamed).flatten = kind.ofBlock block := by
  rw [textPieces, List.flatten_append, flatten_nonEmpty, deltaPieces, flatten_flatMap_nonEmpty]
  cases kind with
  | message => exact (Streamed.part_build (fun h => textOf_append h) (fun _ _ _ => rfl) hbuild).symm
  | reasoning =>
    exact (Streamed.part_build (fun h => reasoningOf_append h) (fun _ _ _ => rfl) hbuild).symm

theorem ne_nil_of_mem_nonEmpty {text piece : List Char} (h : piece ∈ (nonEmpty text).toList) :
    piece ≠ [] := by
  rw [nonEmpty] at h
  split_ifs at h with hempty
  · cases h
  · rw [List.mem_singleton.mp h]
    exact hempty

theorem textPieces_eq_nil (kind : TextKind) (streamed : Streamed) :
    textPieces kind streamed = [] ↔ (textPieces kind streamed).flatten = [] := by
  refine ⟨fun h => by rw [h, List.flatten_nil], fun h => ?_⟩
  have hne : ∀ piece ∈ textPieces kind streamed, piece ≠ [] := by
    intro piece hmem
    rcases List.mem_append.mp hmem with hmem | hmem
    · exact ne_nil_of_mem_nonEmpty hmem
    · obtain ⟨delta, -, hmem⟩ := List.mem_flatMap.mp hmem
      exact ne_nil_of_mem_nonEmpty hmem
  refine List.eq_nil_iff_forall_not_mem.mpr fun piece hmem => hne piece hmem ?_
  exact List.flatten_eq_nil_iff.mp h piece hmem

/-- The same libraries, when they generate other ids. -/
def Runtime.withIds (runtime : Runtime) (freshId : List Char) (freshItemId : ℕ → List Char) :
    Runtime := { runtime with freshId := freshId, freshItemId := freshItemId }

theorem sameItem_text {runtime' : Runtime} {kind : TextKind} {block : Block}
    (hbuild : streamed.build runtime.parse = some block) (hstart : kind.Starts streamed.start)
    (outputIndex outputIndex' : ℕ) :
    List.Forall₂ (SameItem parse)
      (textItem runtime kind outputIndex (textPieces kind streamed)).toList
      (outputItem runtime' declared outputIndex' block).toList := by
  have hflatten := flatten_textPieces kind hbuild
  have houtput : outputItem runtime' declared outputIndex' block =
      (nonEmpty (kind.ofBlock block)).map fun text =>
        kind.item (kind.itemId runtime' outputIndex') .completed [text] := by
    have hblock := starts_build hbuild hstart
    cases kind <;> cases block <;> first | exact hblock.elim | rfl
  rw [houtput, textItem, nonEmpty, ← hflatten]
  by_cases hempty : textPieces kind streamed = []
  · rw [if_pos hempty, if_pos ((textPieces_eq_nil kind streamed).mp hempty)]
    exact .nil
  · rw [if_neg hempty, if_neg fun h => hempty ((textPieces_eq_nil kind streamed).mpr h)]
    refine .cons ?_ .nil
    cases kind with
    | message => exact .message _ _ _ _
    | reasoning => exact .reasoning _ _ _

theorem sameItem_block {block : Block}
    (hbuild : streamed.build runtime.parse = some block)
    (hempty : runtime.parse ['\x7b', '\x7d'] = some (.obj []))
    (hround : ∀ id name input, block = .toolUse id name input →
      runtime.parse (runtime.print (.obj input)) = some (.obj input))
    (hkeeps : KeepsStart streamed) (freshId : List Char) (freshItemId : ℕ → List Char)
    (outputIndex outputIndex' : ℕ) :
    List.Forall₂ (SameItem runtime.parse) (blockItems runtime declared outputIndex streamed)
      (outputItem (runtime.withIds freshId freshItemId) declared outputIndex' block).toList := by
  have hskip (hfold : streamed.deltas.foldl Block.append streamed.start = streamed.start)
      (hnone : outputItem (runtime.withIds freshId freshItemId) declared outputIndex' streamed.start =
        none)
      (hfinish : ∀ json, streamed.start.finish runtime.parse json = some streamed.start) :
      List.Forall₂ (SameItem runtime.parse) []
        (outputItem (runtime.withIds freshId freshItemId) declared outputIndex' block).toList := by
    have hblock : block = streamed.start := by
      rw [Streamed.build, hfold, hfinish] at hbuild
      exact (Option.some.inj hbuild).symm
    rw [hblock, hnone]
    exact .nil
  rw [blockItems]
  cases hstart : streamed.start with
  | text text =>
    have hkind : TextKind.message.Starts streamed.start := by rw [hstart]; trivial
    exact sameItem_text hbuild hkind _ _
  | thinking thinking signature =>
    have hkind : TextKind.reasoning.Starts streamed.start := by rw [hstart]; trivial
    exact sameItem_text hbuild hkind _ _
  | toolUse callId name input =>
    obtain ⟨input', rfl, -⟩ := streamed.build_toolUse hbuild hstart
    have hroundInput := hround callId name input' rfl
    have hparse := parse_arguments hbuild hstart rfl hempty hroundInput hkeeps
    refine .cons ?_ .nil
    exact (sameItem_toolCallItem _ _ callId name _ .completed hparse hroundInput).restore declared
  | redactedThinking data =>
    rw [hstart] at hskip
    exact hskip (List.foldl_fixed' (fun _ => rfl) _) rfl fun _ => rfl
  | serverTool type =>
    rw [hstart] at hskip
    exact hskip (List.foldl_fixed' (fun _ => rfl) _) rfl fun _ => rfl

theorem sameItem_stream {blocks : List Streamed} {content : List Block}
    (hbuild : List.Forall₂ (fun streamed block => streamed.build runtime.parse = some block) blocks
      content)
    (hempty : runtime.parse ['\x7b', '\x7d'] = some (.obj []))
    (hround : ∀ id name input, .toolUse id name input ∈ content →
      runtime.parse (runtime.print (.obj input)) = some (.obj input))
    (hkeeps : ∀ streamed ∈ blocks, KeepsStart streamed) (freshId : List Char)
    (freshItemId : ℕ → List Char) (outputIndex : ℕ) {items output : List Item}
    (hitems : List.Forall₂ (SameItem runtime.parse) items output) :
    List.Forall₂ (SameItem runtime.parse) (items ++ streamItems runtime declared outputIndex blocks)
      (content.foldl (pushItem (runtime.withIds freshId freshItemId) declared) output) := by
  induction hbuild generalizing outputIndex items output with
  | nil =>
    rw [streamItems, List.append_nil]
    exact hitems
  | @cons streamed block blocks content hfirst _ ih =>
    have hblock := @sameItem_block runtime declared streamed block hfirst hempty
      (fun id name input heq => hround id name input (heq ▸ List.mem_cons_self))
      (hkeeps streamed List.mem_cons_self) freshId freshItemId outputIndex output.length
    rw [streamItems, List.foldl_cons, ← List.append_assoc]
    exact ih (fun id name input hmem => hround id name input (List.mem_cons_of_mem _ hmem))
      (fun streamed' hmem => hkeeps streamed' (List.mem_cons_of_mem _ hmem)) _
      (List.rel_append hitems hblock)

/-- The responses are equal up to generated ids. -/
structure SameResponse (parse : List Char → Option Json) (response completion : Response) :
    Prop where
  shell : { response.shell with id := completion.shell.id } = completion.shell
  status : response.status = completion.status
  output : List.Forall₂ (SameItem parse) response.output completion.output
  usage : response.usage = completion.usage
  incompleteDetails : response.incompleteDetails = completion.incompleteDetails
  error : response.error = completion.error

theorem event?_numbered (sequence : ℕ) (events : List ResponseEvent) :
    (numbered sequence events).filterMap Frame.event? =
      (events.zipIdx sequence).map Prod.swap := by
  induction events generalizing sequence with
  | nil => rfl
  | cons event events ih =>
    rw [numbered, List.zipIdx_cons, List.map_cons, ← ih]
    rfl

def Frame.isKeepalive : Frame → Bool
  | .keepalive => true
  | .event _ _ => false

theorem onEvent_silent (runtime : Runtime) (translator : ResponsesStreamTranslator)
    (message : SseMessage) (h : message.isSilent = true) :
    (translator.onEvent runtime message).1 = translator ∧
      (translator.onEvent runtime message).2.filter (fun frame => !frame.isKeepalive) = [] := by
  have hframes : translator.onEvent runtime message = (translator, []) ∨
      translator.onEvent runtime message = (translator, [.keepalive]) := by
    by_cases hfinished : translator.finished = true
    · exact .inl (if_pos hfinished)
    · match message, h with
      | .empty, _ => exact .inl (if_neg hfinished)
      | .other, _ => exact .inl (if_neg hfinished)
      | .event .ping, _ => exact .inr (if_neg hfinished)
  rcases hframes with heq | heq <;> rw [heq] <;> exact ⟨rfl, rfl⟩

theorem filterMap_filter_isKeepalive (frames : List Frame) :
    (frames.filter fun frame => !frame.isKeepalive).filterMap Frame.event? =
      frames.filterMap Frame.event? := by
  rw [List.filterMap_filter]
  refine List.filterMap_congr fun frame _ => ?_
  cases frame <;> rfl

theorem shell_eq (runtime : Runtime) (freshId : List Char) (freshItemId : ℕ → List Char)
    (shell : ResponseShell) (id : Option (List Char)) :
    { shell.withId runtime id with
      id := (shell.withId (runtime.withIds freshId freshItemId) id).id } =
        shell.withId (runtime.withIds freshId freshItemId) id := by
  cases id <;> rfl

/-- The stream ends in one response, which is the translation of the complete message. -/
theorem sameResponse_run {stream : StreamedMessage} {message : Message}
    (hbuild : stream.Builds runtime.parse message)
    (hempty : runtime.parse ['\x7b', '\x7d'] = some (.obj []))
    (hround : ∀ id name input, .toolUse id name input ∈ message.content →
      runtime.parse (runtime.print (.obj input)) = some (.obj input))
    (hkeeps : ∀ streamed ∈ stream.blocks, KeepsStart streamed)
    {messages : List SseMessage}
    (hmessages : (messages.filter fun message => !message.isSilent) = stream.events.map .event)
    (shell : ResponseShell) (declared : DeclaredTools) (freshId : List Char)
    (freshItemId : ℕ → List Char) :
    ∃ before response,
      (run (onEvent runtime) (new shell declared) messages).2.filterMap Frame.event? =
          (before ++ [terminalEvent response]).zipIdx.map Prod.swap ∧
        Ladders 0 response.output before ∧
        SameResponse runtime.parse response
          (translateMessage (runtime.withIds freshId freshItemId) message shell declared) := by
  obtain ⟨response, hshell, hstatus, houtput, husage, hdetails, herror, started, hrun⟩ :=
    run_stream runtime shell declared stream
  have hsilent := (run_of_silent (onEvent_silent runtime) (new shell declared) messages).2
  have hladders := @ladders_stream runtime declared 0 stream.blocks
  refine ⟨[.created started, .inProgress started] ++
    streamEvents runtime declared 0 stream.blocks, response, ?_, ?_, ?_, ?_, ?_, ?_, ?_, ?_⟩
  · rw [← filterMap_filter_isKeepalive, ← hsilent, hmessages, filterMap_filter_isKeepalive, hrun]
    exact event?_numbered 0 _
  · rw [houtput]
    exact ⟨hladders.added, hladders.done, hladders.deltas, hladders.deltaIndexes,
      hladders.doneTexts⟩
  · rw [hshell, streamShell, ← hbuild.id, ← hbuild.model]
    exact shell_eq runtime freshId freshItemId _ message.id
  · rw [hstatus, ← hbuild.stopReason]
    rfl
  · rw [houtput]
    exact sameItem_stream hbuild.content hempty hround hkeeps freshId freshItemId 0 .nil
  · rw [husage, ← hbuild.usage]
    rfl
  · rw [hdetails, ← hbuild.stopReason]
    rfl
  · exact herror

def shellInput : Json.Fields := [("input", .str "ls")]

def shellText : List Char := "\x7b\"input\":\"ls\"\x7d".toList

/-- JSON texts as far as they are needed for the input of the call and the empty object. -/
def shellRuntime : Runtime where
  parse text :=
    if text = shellText then some (.obj shellInput)
    else if text = ['\x7b', '\x7d'] then some (.obj []) else none
  print
    | .obj [("input", .str "ls")] => shellText
    | _ => "null".toList
  freshId := ['0']
  freshItemId := Nat.toDigits 10

def greeting : Streamed where
  start := .text []
  deltas := [.textDelta "Let me".toList, .textDelta [], .textDelta " look.".toList]
  fits delta hmem := by
    rcases List.mem_cons.mp hmem with rfl | hmem
    · trivial
    · rcases List.mem_cons.mp hmem with rfl | hmem
      · trivial
      · rw [List.mem_singleton.mp hmem]
        trivial

def shellCall : Streamed where
  start := .toolUse "toolu_1".toList "shell".toList []
  deltas := [.inputJsonDelta (shellText.take 5), .inputJsonDelta (shellText.drop 5)]
  fits delta hmem := by
    rcases List.mem_cons.mp hmem with rfl | hmem
    · trivial
    · rw [List.mem_singleton.mp hmem]
      trivial

def startedCall : Streamed where
  start := .toolUse "toolu_1".toList "shell".toList shellInput
  deltas := [.inputJsonDelta []]
  fits delta hmem := by
    rw [List.mem_singleton.mp hmem]
    trivial

def shellStream (blocks : List Streamed) : StreamedMessage where
  id := some "msg_01".toList
  model := none
  startUsage := ⟨some 12, some 1, none, none⟩
  blocks := blocks
  stopReason := some "tool_use".toList
  deltaUsage := ⟨none, some 9, none, none⟩

def shellMessage (content : List Block) : Message where
  id := some "msg_01".toList
  model := none
  content := content
  stopReason := some "tool_use".toList
  usage := ⟨some 12, some 9, none, none⟩

def requestShell : ResponseShell := ⟨"resp_0".toList, 0, "model".toList, []⟩

theorem builds_shellStream :
    (shellStream [greeting, shellCall]).Builds shellRuntime.parse
      (shellMessage [.text "Let me look.".toList,
        .toolUse "toolu_1".toList "shell".toList shellInput]) where
  id := rfl
  model := rfl
  content := by
    refine List.Forall₂.cons ?_ (List.Forall₂.cons ?_ .nil)
    · rfl
    · rfl
  stopReason := rfl
  usage := rfl

theorem sameResponse_run_shell :
    ∃ before response,
      (run (onEvent shellRuntime) (new requestShell ⟨["shell".toList], []⟩)
          (.event .ping :: (shellStream [greeting, shellCall]).events.map .event)).2.filterMap
            Frame.event? = (before ++ [terminalEvent response]).zipIdx.map Prod.swap ∧
        Ladders 0 response.output before ∧
        SameResponse shellRuntime.parse response
          (translateMessage (shellRuntime.withIds ['1'] fun _ => ['2'])
            (shellMessage [.text "Let me look.".toList,
              .toolUse "toolu_1".toList "shell".toList shellInput])
            requestShell ⟨["shell".toList], []⟩) := by
  refine sameResponse_run builds_shellStream rfl ?_ ?_ rfl _ _ _ _
  · intro id name input hmem
    have hcall := (List.mem_cons.mp hmem).resolve_left nofun
    cases List.mem_singleton.mp hcall
    rfl
  · intro streamed hmem callId name input hstart hne
    rcases List.mem_cons.mp hmem with rfl | hmem
    · cases hstart
    · rw [List.mem_singleton.mp hmem] at hstart
      cases hstart
      exact absurd rfl hne

/-- An empty delta drops the input at the start, and the call is given the empty object. -/
theorem not_sameResponse_startedCall :
    (shellStream [startedCall]).Builds shellRuntime.parse
        (shellMessage [.toolUse "toolu_1".toList "shell".toList shellInput]) ∧
      ∀ before response,
        (run (onEvent shellRuntime) (new requestShell ⟨[], []⟩)
            ((shellStream [startedCall]).events.map .event)).2.filterMap Frame.event? =
              (before ++ [terminalEvent response]).zipIdx.map Prod.swap →
        ¬ SameResponse shellRuntime.parse response
          (translateMessage shellRuntime
            (shellMessage [.toolUse "toolu_1".toList "shell".toList shellInput])
            requestShell ⟨[], []⟩) := by
  refine ⟨⟨rfl, rfl, .cons rfl .nil, rfl, rfl⟩, fun before response hframes hsame => ?_⟩
  have hlast : ((before ++ [terminalEvent response]).zipIdx.map Prod.swap).getLast? =
      some (0 + before.length, terminalEvent response) := by
    rw [List.zipIdx_append, List.map_append]
    exact List.getLast?_concat
  obtain ⟨completed, hcompleted, houtput⟩ : ∃ completed,
      ((run (onEvent shellRuntime) (new requestShell ⟨[], []⟩)
        ((shellStream [startedCall]).events.map .event)).2.filterMap Frame.event?).getLast? =
          some (6, .completed completed) ∧
      completed.output = [.functionCall "fc_0".toList "toolu_1".toList "shell".toList none
        ['\x7b', '\x7d'] .completed] := ⟨_, rfl, rfl⟩
  rw [hframes, hlast] at hcompleted
  have hterminal : terminalEvent response = .completed completed :=
    congrArg Prod.snd (Option.some.inj hcompleted)
  rw [terminalEvent] at hterminal
  split at hterminal
  · have hresponse := hsame.output
    rw [ResponseEvent.completed.inj hterminal, houtput] at hresponse
    cases hresponse with
    | cons hitem _ =>
      cases hitem with
      | @functionCall _ _ _ _ _ _ _ _ input hstream hmessage =>
        have hempty : some (Json.obj []) = some (.obj input) := hstream
        have hinput : some (Json.obj shellInput) = some (.obj input) := hmessage
        cases hempty
        cases hinput
  · cases hterminal

end KiroProxy.OpenAI.Responses
