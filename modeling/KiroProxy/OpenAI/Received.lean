import KiroProxy.OpenAI.Response

/-!
# What a client of the chunks receives

The texts of the chunks are concatenated, and the arguments of a call by its index.
`agrees_run` compares the result with the translation of the complete message.
-/

namespace KiroProxy.OpenAI.Response
open MessageStream StreamTranslator Transducer

def receiveToolCall (calls : List ToolCall) : ChunkDelta → Option (List ToolCall)
  | .toolCall index id name arguments =>
    if index = calls.length then some (calls ++ [⟨id, name, arguments⟩]) else none
  | .arguments index arguments =>
    if index < calls.length then
      some (calls.modify index fun call => { call with arguments := call.arguments ++ arguments })
    else none
  | _ => some calls

def ChunkDelta.content? : ChunkDelta → Option (List Char)
  | .role => some []
  | .content text => some text
  | _ => none

def ChunkDelta.reasoningContent? : ChunkDelta → Option (List Char)
  | .reasoningContent text => some text
  | _ => none

def pieces (field : ChunkDelta → Option (List Char)) (deltas : List ChunkDelta) : List Char :=
  deltas.flatMap fun delta => (field delta).getD []

def concat (field : ChunkDelta → Option (List Char)) (deltas : List ChunkDelta) :
    Option (List Char) :=
  if deltas.any fun delta => (field delta).isSome then some (pieces field deltas) else none

def Frame.delta? : Frame → Option ChunkDelta
  | .chunk _ delta _ _ => some delta
  | _ => none

def Frame.finishReason? : Frame → Option (List Char)
  | .chunk _ _ finishReason _ => finishReason
  | _ => none

def Frame.usage? : Frame → Option CompletionUsage
  | .usage _ value => some value
  | _ => none

def Frame.isError : Frame → Bool
  | .error _ _ => true
  | _ => false

def Frame.isDone : Frame → Bool
  | .done => true
  | _ => false

structure Received where
  content : Option (List Char)
  reasoningContent : Option (List Char)
  toolCalls : List ToolCall
  finishReason : Option (List Char)
  usage : Option CompletionUsage
  done : Bool
  deriving DecidableEq, Repr

def Received.ofFrames (frames : List Frame) : Option Received :=
  let deltas := frames.filterMap Frame.delta?
  if frames.any Frame.isError then none
  else
    (deltas.foldlM receiveToolCall []).map fun toolCalls =>
      { content := concat ChunkDelta.content? deltas
        reasoningContent := concat ChunkDelta.reasoningContent? deltas
        toolCalls := toolCalls
        finishReason := (frames.filterMap Frame.finishReason?).getLast?
        usage := (frames.filterMap Frame.usage?).getLast?
        done := frames.any Frame.isDone }

variable {print : Json → List Char} {parse : List Char → Option Json}
  {field : ChunkDelta → Option (List Char)} {streamed : Streamed} {block : Block}

theorem pieces_append (field : ChunkDelta → Option (List Char)) (deltas deltas' : List ChunkDelta) :
    pieces field (deltas ++ deltas') = pieces field deltas ++ pieces field deltas' :=
  List.flatMap_append

theorem concat_eq_nonEmpty {deltas : List ChunkDelta}
    (h : ∀ delta ∈ deltas, field delta ≠ some []) :
    concat field deltas = nonEmpty (pieces field deltas) := by
  have hempty : (deltas.any fun delta => (field delta).isSome) = false ↔
      pieces field deltas = [] := by
    rw [List.any_eq_false, pieces, List.flatMap_eq_nil_iff]
    refine forall₂_congr fun delta hmem => ?_
    cases hfield : field delta with
    | none => exact iff_of_true Bool.false_ne_true rfl
    | some text =>
      refine iff_of_false (fun hnot => hnot rfl) fun hnil => h delta hmem ?_
      exact hfield.trans (congrArg some hnil)
  rw [concat, nonEmpty]
  by_cases hpieces : pieces field deltas = []
  · rw [if_pos hpieces, hempty.mpr hpieces, if_neg Bool.false_ne_true]
  · rw [if_neg hpieces, if_pos (Bool.of_not_eq_false (mt hempty.mp hpieces))]

structure Carries (field : ChunkDelta → Option (List Char)) (part : Block → List Char)
    (piece : Delta → List Char) : Prop where
  start : ∀ print toolCalls block, pieces field (openBlock print toolCalls block).2 = part block
  delta : ∀ print toolCalls block delta, Delta.Fits block delta →
    pieces field (deltaOf (some (openBlock print toolCalls block).1) delta).toList = piece delta
  arguments : ∀ index arguments, field (.arguments index arguments) = none

variable {make : List Char → ChunkDelta} {delta : ChunkDelta} {blocks : List Streamed}
  (calls : List ToolCall) (call : ToolCall) (head : Head) (includeUsage : Bool)

theorem eq_of_mem_nonEmpty {text : List Char} (h : delta ∈ ((nonEmpty text).map make).toList) :
    delta = make text ∧ text ≠ [] := by
  rw [nonEmpty] at h
  by_cases hempty : text = []
  · rw [if_pos hempty] at h
    cases h
  · rw [if_neg hempty] at h
    exact ⟨List.mem_singleton.mp h, hempty⟩

theorem pieces_nonEmpty_self (hmake : ∀ text, field (make text) = some text) (text : List Char) :
    pieces field ((nonEmpty text).map make).toList = text := by
  rw [nonEmpty]
  by_cases hempty : text = []
  · rw [if_pos hempty, hempty]
    rfl
  · rw [if_neg hempty]
    have hsome : (field (make text)).getD [] = text := by rw [hmake, Option.getD_some]
    exact (List.append_nil _).trans hsome

theorem pieces_nonEmpty_other (hmake : ∀ text, field (make text) = none) (text : List Char) :
    pieces field ((nonEmpty text).map make).toList = [] := by
  rw [nonEmpty]
  by_cases hempty : text = []
  · rw [if_pos hempty]
    rfl
  · rw [if_neg hempty]
    have hnone : (field (make text)).getD [] = [] := by rw [hmake, Option.getD_none]
    exact (List.append_nil _).trans hnone

theorem carries_content : Carries ChunkDelta.content? textOf textOfDelta where
  start print toolCalls block := by
    cases block with
    | text text => exact pieces_nonEmpty_self (fun _ => rfl) text
    | thinking thinking _ => exact pieces_nonEmpty_other (fun _ => rfl) thinking
    | _ => rfl
  delta print toolCalls block delta hfits := by
    cases block <;> cases delta <;> first
      | exact hfits.elim
      | rfl
      | exact pieces_nonEmpty_self (fun _ => rfl) _
      | exact pieces_nonEmpty_other (fun _ => rfl) _
  arguments _ _ := rfl

theorem carries_reasoningContent :
    Carries ChunkDelta.reasoningContent? reasoningOf reasoningOfDelta where
  start print toolCalls block := by
    cases block with
    | text text => exact pieces_nonEmpty_other (fun _ => rfl) text
    | thinking thinking _ => exact pieces_nonEmpty_self (fun _ => rfl) thinking
    | _ => rfl
  delta print toolCalls block delta hfits := by
    cases block <;> cases delta <;> first
      | exact hfits.elim
      | rfl
      | exact pieces_nonEmpty_self (fun _ => rfl) _
      | exact pieces_nonEmpty_other (fun _ => rfl) _
  arguments _ _ := rfl

theorem closeBlock_arguments {kind : Option BlockKind} (h : delta ∈ (closeBlock kind).toList) :
    ∃ index arguments, delta = .arguments index arguments := by
  match kind, h with
  | some (.tool index (some arguments) false), h => exact ⟨index, arguments, List.mem_singleton.mp h⟩

theorem Carries.pieces_chunkDeltas {part : Block → List Char} {piece : Delta → List Char}
    (h : Carries field part piece) (print : Json → List Char) (toolCalls : ℕ)
    (streamed : Streamed) :
    pieces field (chunkDeltas print toolCalls streamed) =
      part streamed.start ++ streamed.deltas.flatMap piece := by
  have hclose (kind : Option BlockKind) : pieces field (closeBlock kind).toList = [] := by
    refine List.flatMap_eq_nil_iff.mpr fun delta hmem => ?_
    obtain ⟨index, arguments, rfl⟩ := closeBlock_arguments hmem
    rw [h.arguments, Option.getD_none]
  have hdeltas : pieces field (streamed.deltas.flatMap fun delta =>
      (deltaOf (some (openBlock print toolCalls streamed.start).1) delta).toList) =
        streamed.deltas.flatMap piece := by
    rw [pieces, List.flatMap_assoc]
    exact List.flatMap_congr fun delta hmem =>
      h.delta print toolCalls streamed.start delta (streamed.fits delta hmem)
  rw [chunkDeltas]
  dsimp only
  rw [pieces_append, pieces_append, h.start, hdeltas, hclose, List.append_nil]

theorem Carries.pieces_streamDeltas {part : Block → List Char} {piece : Delta → List Char}
    (h : Carries field part piece) (hpart : ∀ {block delta}, Delta.Fits block delta →
      part (block.append delta) = part block ++ piece delta)
    (htool : ∀ id name input, part (.toolUse id name input) = []) {content : List Block}
    (hbuild : List.Forall₂ (fun streamed block => streamed.build parse = some block) blocks content)
    (print : Json → List Char) (toolCalls : ℕ) :
    pieces field (streamDeltas print toolCalls blocks) = content.flatMap part := by
  induction hbuild generalizing toolCalls with
  | nil => rfl
  | cons hfirst _ ih =>
    rw [streamDeltas, pieces_append, h.pieces_chunkDeltas, ih, List.flatMap_cons,
      Streamed.part_build hpart htool hfirst]

theorem reasoningContent_openBlock {toolCalls : ℕ} (h : delta ∈ (openBlock print toolCalls block).2) :
    delta.reasoningContent? ≠ some [] := by
  cases block with
  | text text =>
    obtain ⟨rfl, -⟩ := eq_of_mem_nonEmpty h
    exact nofun
  | thinking thinking _ =>
    obtain ⟨rfl, hne⟩ := eq_of_mem_nonEmpty h
    exact fun heq => hne (Option.some.inj heq)
  | toolUse id name input =>
    rw [List.mem_singleton.mp h]
    exact nofun
  | _ => cases h

theorem reasoningContent_deltaOf {kind : Option BlockKind} {delta : Delta} {chunkDelta : ChunkDelta}
    (h : chunkDelta ∈ (deltaOf kind delta).toList) : chunkDelta.reasoningContent? ≠ some [] := by
  rw [deltaOf.eq_def] at h
  split at h
  · cases h
  · obtain ⟨rfl, -⟩ := eq_of_mem_nonEmpty h
    exact nofun
  · obtain ⟨rfl, hne⟩ := eq_of_mem_nonEmpty h
    exact fun heq => hne (Option.some.inj heq)
  · obtain ⟨rfl, -⟩ := eq_of_mem_nonEmpty h
    exact nofun
  · cases h

theorem reasoningContent_streamDeltas {toolCalls : ℕ}
    (h : delta ∈ streamDeltas print toolCalls blocks) : delta.reasoningContent? ≠ some [] := by
  induction blocks generalizing toolCalls with
  | nil => cases h
  | cons streamed blocks ih =>
    rcases List.mem_append.mp h with h | h
    · rcases List.mem_append.mp h with h | h
      · rcases List.mem_append.mp h with h | h
        · exact reasoningContent_openBlock h
        · obtain ⟨_, -, h⟩ := List.mem_flatMap.mp h
          exact reasoningContent_deltaOf h
      · obtain ⟨index, arguments, rfl⟩ := closeBlock_arguments h
        exact nofun
    · exact ih h

def streamedCall (print : Json → List Char) (streamed : Streamed) : Option ToolCall :=
  match streamed.start with
  | .toolUse id name input =>
    some ⟨id, name, streamed.json ++
      if streamed.deltas = [] ∧ input ≠ [] then toolArguments print input else []⟩
  | _ => none

theorem modify_append_length (f : ToolCall → ToolCall) :
    (calls ++ [call]).modify calls.length f = calls ++ [f call] := by
  induction calls with
  | nil => rfl
  | cons first calls ih => exact congrArg (first :: ·) ih

theorem receiveToolCall_arguments (arguments : List Char) :
    receiveToolCall (calls ++ [call]) (.arguments calls.length arguments) =
      some (calls ++ [{ call with arguments := call.arguments ++ arguments }]) := by
  have hlt : calls.length < (calls ++ [call]).length := by
    rw [List.length_append, List.length_singleton]
    exact Nat.lt_succ_self _
  rw [receiveToolCall, if_pos hlt, modify_append_length]

theorem foldlM_of_fixed {calls : List ToolCall} {deltas : List ChunkDelta}
    (h : ∀ delta ∈ deltas, receiveToolCall calls delta = some calls) :
    deltas.foldlM receiveToolCall calls = some calls := by
  induction deltas with
  | nil => rfl
  | cons delta deltas ih =>
    rw [List.foldlM_cons, h delta List.mem_cons_self]
    exact ih fun delta' hmem => h delta' (List.mem_cons_of_mem _ hmem)

theorem foldlM_arguments (startInput : Option (List Char)) (sawDelta : Bool) {deltas : List Delta}
    (hfits : ∀ delta ∈ deltas, ∃ partialJson, delta = .inputJsonDelta partialJson) :
    (deltas.flatMap fun delta =>
        (deltaOf (some (.tool calls.length startInput sawDelta)) delta).toList).foldlM
          receiveToolCall (calls ++ [call]) =
      some (calls ++ [{ call with arguments := call.arguments ++ deltas.flatMap partialJson }]) := by
  induction deltas generalizing call with
  | nil =>
    rw [List.flatMap_nil, List.flatMap_nil, List.append_nil]
    rfl
  | cons delta deltas ih =>
    obtain ⟨text, rfl⟩ := hfits delta List.mem_cons_self
    have hdelta : (deltaOf (some (.tool calls.length startInput sawDelta))
        (.inputJsonDelta text)).toList.foldlM receiveToolCall (calls ++ [call]) =
          some (calls ++ [{ call with arguments := call.arguments ++ text }]) := by
      rw [deltaOf, nonEmpty]
      by_cases hempty : text = []
      · rw [if_pos hempty, hempty, List.append_nil]
        rfl
      · rw [if_neg hempty]
        refine (bind_pure _).trans ?_
        exact receiveToolCall_arguments calls call text
    rw [List.flatMap_cons, List.foldlM_append, hdelta]
    refine (ih { call with arguments := call.arguments ++ text } fun delta' hmem =>
      hfits delta' (List.mem_cons_of_mem _ hmem)).trans ?_
    rw [List.flatMap_cons, List.append_assoc]
    rfl

theorem foldl_note (index : ℕ) (startInput : Option (List Char)) (sawDelta : Bool)
    {deltas : List Delta}
    (hfits : ∀ delta ∈ deltas, ∃ partialJson, delta = .inputJsonDelta partialJson) :
    deltas.foldl BlockKind.note (.tool index startInput sawDelta) =
      .tool index startInput (sawDelta || !deltas.isEmpty) := by
  induction deltas generalizing sawDelta with
  | nil => rw [List.isEmpty_nil, Bool.not_true, Bool.or_false, List.foldl_nil]
  | cons delta deltas ih =>
    obtain ⟨text, rfl⟩ := hfits delta List.mem_cons_self
    rw [List.foldl_cons, BlockKind.note,
      ih true fun delta' hmem => hfits delta' (List.mem_cons_of_mem _ hmem), Bool.true_or,
      List.isEmpty_cons, Bool.not_false, Bool.or_true]

theorem receiveToolCall_deltaOf {kind : BlockKind}
    (hkind : ∀ index startInput sawDelta, kind ≠ .tool index startInput sawDelta) {delta : Delta}
    {chunkDelta : ChunkDelta} (h : chunkDelta ∈ (deltaOf (some kind) delta).toList)
    (calls : List ToolCall) : receiveToolCall calls chunkDelta = some calls := by
  rw [deltaOf.eq_def] at h
  split at h
  · cases h
  · obtain ⟨rfl, -⟩ := eq_of_mem_nonEmpty h
    rfl
  · obtain ⟨rfl, -⟩ := eq_of_mem_nonEmpty h
    rfl
  · rename_i heq
    exact absurd (Option.some.inj heq) (hkind _ _ _)
  · cases h

theorem foldlM_of_not_toolUse (hstart : streamed.start.isToolUse = false) :
    (chunkDeltas print calls.length streamed).foldlM receiveToolCall calls = some calls := by
  let opened := openBlock print calls.length streamed.start
  have hopened : (∀ index startInput sawDelta, opened.1 ≠ .tool index startInput sawDelta) ∧
      (∀ delta, opened.1.note delta = opened.1) ∧
      ∀ delta ∈ opened.2, receiveToolCall calls delta = some calls := by
    obtain ⟨start, deltas, fits⟩ := streamed
    cases start with
    | text text =>
      refine ⟨nofun, fun _ => rfl, fun delta hmem => ?_⟩
      obtain ⟨rfl, -⟩ := eq_of_mem_nonEmpty hmem
      rfl
    | thinking thinking _ =>
      refine ⟨nofun, fun _ => rfl, fun delta hmem => ?_⟩
      obtain ⟨rfl, -⟩ := eq_of_mem_nonEmpty hmem
      rfl
    | toolUse id name input => exact Bool.noConfusion hstart
    | _ => exact ⟨nofun, fun _ => rfl, nofun⟩
  obtain ⟨hkind, hnote, hdeltas⟩ := hopened
  refine foldlM_of_fixed fun delta hmem => ?_
  rcases List.mem_append.mp hmem with hmem | hmem
  · rcases List.mem_append.mp hmem with hmem | hmem
    · exact hdeltas delta hmem
    · obtain ⟨_, -, hmem⟩ := List.mem_flatMap.mp hmem
      exact receiveToolCall_deltaOf hkind hmem calls
  · have hfold : streamed.deltas.foldl BlockKind.note opened.1 = opened.1 :=
      List.foldl_fixed' hnote streamed.deltas
    have hclose : closeBlock (some opened.1) = none := by
      cases hkind' : opened.1 with
      | tool index startInput sawDelta => exact absurd hkind' (hkind _ _ _)
      | _ => rfl
    have hnil : (closeBlock (some (streamed.deltas.foldl BlockKind.note opened.1))).toList = [] := by
      rw [hfold, hclose]
      rfl
    exact absurd (hnil ▸ hmem) List.not_mem_nil

/-- The arguments at the start come last, and only where no delta came. -/
theorem foldlM_closeBlock (input : Json.Fields) (deltas : List Delta) :
    (closeBlock (some (.tool calls.length
        (if input = [] then none else some (toolArguments print input))
        (false || !deltas.isEmpty)))).toList.foldlM receiveToolCall (calls ++ [call]) =
      some (calls ++ [{ call with arguments := call.arguments ++
        if deltas = [] ∧ input ≠ [] then toolArguments print input else [] }]) := by
  by_cases hinput : input = []
  · rw [if_pos hinput, if_neg fun h => h.2 hinput, List.append_nil]
    rfl
  · rw [if_neg hinput]
    cases deltas with
    | nil =>
      rw [if_pos ⟨rfl, hinput⟩]
      refine (bind_pure _).trans ?_
      exact receiveToolCall_arguments calls call _
    | cons delta deltas =>
      rw [if_neg fun h => List.cons_ne_nil _ _ h.1, List.append_nil]
      rfl

theorem foldlM_chunkDeltas (streamed : Streamed) :
    (chunkDeltas print calls.length streamed).foldlM receiveToolCall calls =
      some (calls ++ (streamedCall print streamed).toList) := by
  cases hstart : streamed.start with
  | toolUse id name input =>
    have hfits := streamed.fits_toolUse hstart
    rw [chunkDeltas, streamedCall, hstart]
    dsimp only [openBlock]
    rw [foldl_note _ _ _ hfits, List.append_assoc, List.singleton_append, List.foldlM_cons,
      receiveToolCall, if_pos rfl, Option.bind_eq_bind, Option.bind_some, List.foldlM_append,
      foldlM_arguments _ _ _ _ hfits, Option.bind_eq_bind, Option.bind_some, foldlM_closeBlock]
    rfl
  | _ =>
    rw [foldlM_of_not_toolUse, streamedCall, hstart]
    · exact congrArg some (List.append_nil _).symm
    · rw [hstart]
      rfl

theorem length_streamedCall (print : Json → List Char) (streamed : Streamed) :
    (streamedCall print streamed).toList.length = if streamed.start.isToolUse then 1 else 0 := by
  rw [streamedCall]
  cases streamed.start <;> rfl

theorem foldlM_streamDeltas (blocks : List Streamed) :
    (streamDeltas print calls.length blocks).foldlM receiveToolCall calls =
      some (calls ++ blocks.filterMap (streamedCall print)) := by
  induction blocks generalizing calls with
  | nil => exact congrArg some (List.append_nil _).symm
  | cons streamed blocks ih =>
    have hlength : calls.length + (if streamed.start.isToolUse then 1 else 0) =
        (calls ++ (streamedCall print streamed).toList).length := by
      rw [List.length_append, length_streamedCall]
    have hcons : (streamed :: blocks).filterMap (streamedCall print) =
        (streamedCall print streamed).toList ++ blocks.filterMap (streamedCall print) := by
      rw [List.filterMap_cons]
      cases streamedCall print streamed <;> rfl
    rw [streamDeltas, List.foldlM_append, foldlM_chunkDeltas, Option.bind_eq_bind,
      Option.bind_some, hlength, ih, hcons, List.append_assoc]

/-- The input of the call is not left to be the empty object. -/
def BringsInput (streamed : Streamed) : Prop :=
  streamed.json ≠ [] ∨ streamed.deltas = [] ∧
    ∃ id name input, streamed.start = .toolUse id name input ∧ input ≠ []

def SameArguments (parse : List Char → Option Json) (streamed : Streamed)
    (calls : ToolCall × ToolCall) : Prop :=
  BringsInput streamed → ∃ input, parse calls.1.arguments = some (.obj input) ∧
    parse calls.2.arguments = some (.obj input)

structure Agrees (parse : List Char → Option Json) (stream : StreamedMessage) (includeUsage : Bool)
    (completion : Completion) (received : Received) : Prop where
  content : received.content = some (completion.reply.content.getD [])
  reasoningContent : received.reasoningContent = completion.reply.reasoningContent
  toolCalls : List.Forall₂ (fun call call' => call.id = call'.id ∧ call.name = call'.name)
    received.toolCalls completion.reply.toolCalls
  arguments : List.Forall₂ (SameArguments parse)
    (stream.blocks.filter fun streamed => streamed.start.isToolUse)
    (received.toolCalls.zip completion.reply.toolCalls)
  finishReason : received.finishReason = some completion.finishReason
  usage : received.usage = if includeUsage then some completion.usage else none
  done : received.done = true

theorem calls_agree {content : List Block}
    (hbuild : List.Forall₂ (fun streamed block => streamed.build parse = some block) blocks content)
    (hround : ∀ id name input, .toolUse id name input ∈ content →
      parse (print (.obj input)) = some (.obj input)) :
    List.Forall₂ (fun call call' => call.id = call'.id ∧ call.name = call'.name)
        (blocks.filterMap (streamedCall print)) (content.filterMap (toolCall print)) ∧
      List.Forall₂ (SameArguments parse)
        (blocks.filter fun streamed => streamed.start.isToolUse)
        ((blocks.filterMap (streamedCall print)).zip (content.filterMap (toolCall print))) := by
  induction hbuild with
  | nil => exact ⟨.nil, .nil⟩
  | @cons streamed block blocks content hfirst _ ih =>
    obtain ⟨hcalls, harguments⟩ := ih fun id name input hmem =>
      hround id name input (List.mem_cons_of_mem _ hmem)
    cases hstart : streamed.start with
    | toolUse id name input =>
      obtain ⟨input', rfl, hempty, hparse⟩ := streamed.build_toolUse hfirst hstart
      have hstreamed : streamedCall print streamed = some ⟨id, name, streamed.json ++
          if streamed.deltas = [] ∧ input ≠ [] then toolArguments print input else []⟩ := by
        rw [streamedCall, hstart]
      have hcall : toolCall print (.toolUse id name input') =
          some ⟨id, name, toolArguments print input'⟩ := rfl
      have htool : streamed.start.isToolUse = true := by rw [hstart]; rfl
      have hfilter := List.filter_cons_of_pos (p := fun streamed => streamed.start.isToolUse)
        (l := blocks) htool
      have hroundInput := hround id name input' List.mem_cons_self
      rw [List.filterMap_cons_some hstreamed, List.filterMap_cons_some hcall, hfilter,
        List.zip_cons_cons]
      refine ⟨.cons ⟨rfl, rfl⟩ hcalls, .cons (fun hbrings => ⟨input', ?_, hroundInput⟩) harguments⟩
      by_cases hjson : streamed.json = []
      · -- The input came at the start.
        obtain ⟨hdeltas, _, _, start, hstart', hne⟩ := hbrings.resolve_left fun h => h hjson
        obtain ⟨-, -, rfl⟩ := Block.toolUse.inj (hstart.symm.trans hstart')
        rw [hjson, if_pos ⟨hdeltas, hne⟩, ← hempty hjson]
        exact hroundInput
      · have hdeltas : streamed.deltas ≠ [] := fun hnil =>
          hjson (by rw [Streamed.json, hnil, List.flatMap_nil])
        rw [if_neg fun h => hdeltas h.1, List.append_nil]
        exact hparse hjson
    | _ =>
      have htool : streamed.start.isToolUse = false := by rw [hstart]; rfl
      have hstreamed : streamedCall print streamed = none := by rw [streamedCall, hstart]
      have hcall : toolCall print block = none := by
        have hblock := (streamed.isToolUse_build hfirst).trans htool
        cases block with
        | toolUse id name input => exact Bool.noConfusion hblock
        | _ => rfl
      have hfilter := List.filter_cons_of_neg (p := fun streamed => streamed.start.isToolUse)
        (l := blocks) (Bool.eq_false_iff.mp htool)
      rw [List.filterMap_cons_none hstreamed, List.filterMap_cons_none hcall, hfilter]
      exact ⟨hcalls, harguments⟩

def deltaChunks (head : Head) (includeUsage : Bool) (deltas : List ChunkDelta) : List Frame :=
  deltas.map fun delta => .chunk head delta none includeUsage

theorem filterMap_deltaChunks {α : Type} {f : Frame → Option α}
    (h : ∀ head delta includeUsage, f (.chunk head delta none includeUsage) = none) (head : Head)
    (includeUsage : Bool) (deltas : List ChunkDelta) :
    (deltaChunks head includeUsage deltas).filterMap f = [] := by
  refine List.filterMap_eq_nil_iff.mpr fun frame hmem => ?_
  obtain ⟨delta, -, rfl⟩ := List.mem_map.mp hmem
  exact h head delta includeUsage

theorem filterMap_delta?_deltaChunks (deltas : List ChunkDelta) :
    (deltaChunks head includeUsage deltas).filterMap Frame.delta? = deltas := by
  rw [deltaChunks, List.filterMap_map]
  exact List.filterMap_some

theorem isError_frames (deltas : List ChunkDelta) (finishReason : List Char)
    (usage : CompletionUsage) :
    (frames head includeUsage deltas finishReason usage).any Frame.isError = false := by
  have hchunks : (deltaChunks head includeUsage (.role :: deltas)).any Frame.isError = false := by
    refine List.any_eq_false.mpr fun frame hmem => ?_
    obtain ⟨delta, -, rfl⟩ := List.mem_map.mp hmem
    exact Bool.false_ne_true
  rw [frames, ← deltaChunks, List.any_append, hchunks]
  cases includeUsage <;> rfl

theorem isDone_frames (deltas : List ChunkDelta) (finishReason : List Char)
    (usage : CompletionUsage) :
    (frames head includeUsage deltas finishReason usage).any Frame.isDone = true := by
  rw [List.any_eq_true]
  exact ⟨.done, List.mem_append_right _ (List.mem_cons_of_mem _
    (List.mem_append_right _ List.mem_cons_self)), rfl⟩

theorem concat_content_frames (deltas : List ChunkDelta) :
    concat ChunkDelta.content? (.role :: (deltas ++ [.empty])) =
      some (pieces ChunkDelta.content? deltas) := by
  have hpieces : pieces ChunkDelta.content? (.role :: (deltas ++ [.empty])) =
      pieces ChunkDelta.content? deltas := by
    rw [← List.cons_append, pieces_append]
    exact List.append_nil _
  rw [concat, hpieces]
  exact if_pos rfl

theorem concat_reasoningContent_frames (deltas : List ChunkDelta) :
    concat ChunkDelta.reasoningContent? (.role :: (deltas ++ [.empty])) =
      concat ChunkDelta.reasoningContent? deltas := by
  have hpieces : pieces ChunkDelta.reasoningContent? (.role :: (deltas ++ [.empty])) =
      pieces ChunkDelta.reasoningContent? deltas := by
    rw [← List.cons_append, pieces_append]
    exact List.append_nil _
  have hany : ((.role :: (deltas ++ [.empty])).any fun delta : ChunkDelta =>
      delta.reasoningContent?.isSome) = deltas.any fun delta => delta.reasoningContent?.isSome := by
    rw [List.any_cons, List.any_append]
    exact Bool.or_false _
  rw [concat, concat, hpieces, hany]

theorem ofFrames_frames (deltas : List ChunkDelta) (finishReason : List Char)
    (usage : CompletionUsage) :
    Received.ofFrames (frames head includeUsage deltas finishReason usage) =
      (deltas.foldlM receiveToolCall []).map fun toolCalls =>
        { content := some (pieces ChunkDelta.content? deltas)
          reasoningContent := concat ChunkDelta.reasoningContent? deltas
          toolCalls := toolCalls
          finishReason := some finishReason
          usage := if includeUsage then some usage else none
          done := true } := by
  have hdeltas : (frames head includeUsage deltas finishReason usage).filterMap Frame.delta? =
      .role :: (deltas ++ [.empty]) := by
    rw [frames, ← deltaChunks, List.filterMap_append, filterMap_delta?_deltaChunks]
    cases includeUsage <;> rfl
  have hcalls : (.role :: (deltas ++ [.empty])).foldlM receiveToolCall [] =
      deltas.foldlM receiveToolCall [] := by
    rw [List.foldlM_cons]
    refine (List.foldlM_append ..).trans ?_
    exact bind_pure _
  have hfinish : (frames head includeUsage deltas finishReason usage).filterMap
      Frame.finishReason? = [finishReason] := by
    rw [frames, ← deltaChunks, List.filterMap_append, filterMap_deltaChunks fun _ _ _ => rfl]
    cases includeUsage <;> rfl
  have husage : ((frames head includeUsage deltas finishReason usage).filterMap
      Frame.usage?).getLast? = if includeUsage then some usage else none := by
    rw [frames, ← deltaChunks, List.filterMap_append, filterMap_deltaChunks fun _ _ _ => rfl]
    cases includeUsage <;> rfl
  rw [Received.ofFrames, isError_frames, isDone_frames, hdeltas, hcalls, hfinish, husage,
    concat_content_frames, concat_reasoningContent_frames]
  rfl

def Frame.isKeepalive : Frame → Bool
  | .keepalive => true
  | _ => false

theorem onEvent_silent (fresh : List Char) (translator : StreamTranslator) (message : SseMessage)
    (h : message.isSilent = true) :
    (translator.onEvent print fresh message).1 = translator ∧
      (translator.onEvent print fresh message).2.filter (fun frame => !frame.isKeepalive) = [] := by
  have hframes : translator.onEvent print fresh message = (translator, []) ∨
      translator.onEvent print fresh message = (translator, [.keepalive]) := by
    by_cases hfinished : translator.finished = true
    · exact .inl (if_pos hfinished)
    · match message, h with
      | .empty, _ => exact .inl (if_neg hfinished)
      | .other, _ => exact .inl (if_neg hfinished)
      | .event .ping, _ => exact .inr (if_neg hfinished)
  rcases hframes with heq | heq <;> rw [heq] <;> exact ⟨rfl, rfl⟩

theorem ofFrames_filter_isKeepalive (frames : List Frame) :
    Received.ofFrames (frames.filter fun frame => !frame.isKeepalive) =
      Received.ofFrames frames := by
  have hfilterMap {α : Type} (f : Frame → Option α) (hf : f .keepalive = none) :
      (frames.filter fun frame => !frame.isKeepalive).filterMap f = frames.filterMap f := by
    rw [List.filterMap_filter]
    refine List.filterMap_congr fun frame _ => ?_
    cases frame <;> first | rfl | exact hf.symm
  have hany (f : Frame → Bool) (hf : f .keepalive = false) :
      (frames.filter fun frame => !frame.isKeepalive).any f = frames.any f := by
    rw [List.any_filter]
    congr 1
    funext frame
    cases frame <;> first | rfl | exact hf.symm
  rw [Received.ofFrames, Received.ofFrames, hfilterMap _ rfl, hfilterMap _ rfl, hfilterMap _ rfl,
    hany _ rfl, hany _ rfl]

theorem content_eq_getD (text : List Char) (hasToolCalls : Bool) :
    (if text = [] ∧ hasToolCalls = true then none else some text).getD [] = text := by
  split_ifs with h
  · exact h.1.symm
  · rfl

theorem not_isEmpty_eq : (!calls.isEmpty) = decide (0 < calls.length) := by
  cases calls <;> rfl

theorem agrees_run {stream : StreamedMessage} {message : Message}
    (hbuild : stream.Builds parse message)
    (hround : ∀ id name input, .toolUse id name input ∈ message.content →
      parse (print (.obj input)) = some (.obj input))
    {messages : List SseMessage}
    (hmessages : (messages.filter fun message => !message.isSilent) = stream.events.map .event)
    (fresh model : List Char) (created : ℤ) (includeUsage : Bool) :
    ∃ received, Received.ofFrames (run (onEvent print fresh)
        (new fresh model created includeUsage) messages).2 = some received ∧
      Agrees parse stream includeUsage (translateMessage print message fresh model created)
        received := by
  obtain ⟨head, hrun⟩ := run_stream print fresh model created includeUsage stream
  obtain ⟨hcalls, harguments⟩ := calls_agree hbuild.content hround
  have hcontent := carries_content.pieces_streamDeltas (fun h => textOf_append h)
    (fun _ _ _ => rfl) hbuild.content print 0
  have hreasoning := carries_reasoningContent.pieces_streamDeltas (fun h => reasoningOf_append h)
    (fun _ _ _ => rfl) hbuild.content print 0
  have hfold : (streamDeltas print 0 stream.blocks).foldlM receiveToolCall [] =
      some (stream.blocks.filterMap (streamedCall print)) := foldlM_streamDeltas [] stream.blocks
  have hcount : (stream.blocks.countP fun streamed => streamed.start.isToolUse) =
      (message.content.filterMap (toolCall print)).length := by
    rw [List.countP_eq_length_filter, harguments.length_eq, List.length_zip, hcalls.length_eq,
      Nat.min_self]
  have hsilent := (run_of_silent (@onEvent_silent print fresh)
    (new fresh model created includeUsage) messages).2
  rw [← ofFrames_filter_isKeepalive, ← hsilent, hmessages, ofFrames_filter_isKeepalive, hrun,
    ofFrames_frames, hfold]
  refine ⟨_, rfl, ?_, ?_, hcalls, harguments, ?_, ?_, rfl⟩
  · rw [hcontent]
    exact congrArg some (content_eq_getD _ _).symm
  · refine (concat_eq_nonEmpty fun delta hmem => reasoningContent_streamDeltas hmem).trans ?_
    rw [hreasoning]
    rfl
  · rw [hcount, ← not_isEmpty_eq, ← hbuild.stopReason]
    rfl
  · rw [← hbuild.usage]
    rfl

def countInput : Json.Fields := [("count", .int 1)]

def countText : List Char := "\x7b\"count\":1\x7d".toList

def parseCount (text : List Char) : Option Json :=
  if text = countText then some (.obj countInput) else none

def printCount : Json → List Char
  | .obj [("count", .int 1)] => countText
  | _ => "null".toList

def countCall : Streamed where
  start := .toolUse "toolu_1".toList "counter".toList []
  deltas := [.inputJsonDelta (countText.take 4), .inputJsonDelta (countText.drop 4)]
  fits delta hmem := by
    rcases List.mem_cons.mp hmem with rfl | hmem
    · trivial
    · rw [List.mem_singleton.mp hmem]
      trivial

def countStream : StreamedMessage where
  id := some "msg_01".toList
  model := none
  startUsage := ⟨some 12, some 1, none, none⟩
  blocks := [countCall]
  stopReason := some "tool_use".toList
  deltaUsage := ⟨none, some 9, none, none⟩

def countMessage : Message where
  id := some "msg_01".toList
  model := none
  content := [.toolUse "toolu_1".toList "counter".toList countInput]
  stopReason := some "tool_use".toList
  usage := ⟨some 12, some 9, none, none⟩

theorem builds_countStream : countStream.Builds parseCount countMessage :=
  ⟨rfl, rfl, .cons rfl .nil, rfl, rfl⟩

theorem agrees_run_counter :
    ∃ received, Received.ofFrames (run (onEvent printCount [])
        (new [] "model".toList 0 true) (.event .ping :: countStream.events.map .event)).2 =
          some received ∧
      Agrees parseCount countStream true
        (translateMessage printCount countMessage [] "model".toList 0) received := by
  refine agrees_run builds_countStream ?_ rfl [] "model".toList 0 true
  intro id name input hmem
  cases List.mem_singleton.mp hmem
  rfl

/-- The content is empty and not null, and the usage comes on demand only. -/
theorem not_same_withoutUsage :
    countStream.Builds parseCount countMessage ∧
      ∃ received, Received.ofFrames (run (onEvent printCount [])
          (new [] "model".toList 0 false) (countStream.events.map .event)).2 = some received ∧
        received.content ≠
          (translateMessage printCount countMessage [] "model".toList 0).reply.content ∧
        received.usage ≠
          some (translateMessage printCount countMessage [] "model".toList 0).usage := by
  refine ⟨builds_countStream, _, rfl, ?_, ?_⟩
  · exact Option.some_ne_none _
  · exact (Option.some_ne_none _).symm

end KiroProxy.OpenAI.Response
