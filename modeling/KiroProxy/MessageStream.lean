import KiroProxy.Json
import KiroProxy.Sse
import Mathlib.Tactic.SplitIfs

/-!
# Messages and their streams

The content blocks of a message of the Messages API, the events of its stream, and how a client
puts the blocks together again. A block comes with a start, deltas in any split, and a stop; blocks
follow each other and are numbered from 0. The parser of JSON texts is a parameter.
-/

namespace KiroProxy.MessageStream

inductive Block
  | text (text : List Char)
  | thinking (thinking signature : List Char)
  | redactedThinking (data : List Char)
  | serverTool (type : List Char)
  | toolUse (id name : List Char) (input : Json.Fields)

def Block.isText : Block → Bool
  | .text _ => true
  | _ => false

def Block.isToolUse : Block → Bool
  | .toolUse _ _ _ => true
  | _ => false

structure UsageFields where
  inputTokens : Option ℕ
  outputTokens : Option ℕ
  cacheCreationInputTokens : Option ℕ
  cacheReadInputTokens : Option ℕ
  deriving DecidableEq, Repr

inductive Event
  | messageStart (id model : Option (List Char)) (usage : UsageFields)
  | contentBlockStart (index : ℕ) (block : Block)
  | contentBlockDelta (index : ℕ) (delta : Delta)
  | contentBlockStop (index : ℕ)
  | messageDelta (stopReason : Option (List Char)) (usage : UsageFields)
  | messageStop
  | ping
  | error (errorType message : Option (List Char))

def Block.append : Block → Delta → Block
  | .text before, .textDelta delta => .text (before ++ delta)
  | .thinking before signature, .thinkingDelta delta => .thinking (before ++ delta) signature
  | .thinking before signature, .signatureDelta delta => .thinking before (signature ++ delta)
  | block, _ => block

def partialJson : Delta → List Char
  | .inputJsonDelta partialJson => partialJson
  | _ => []

/-- The input of a call is the one at its start, unless a JSON text came in deltas. -/
def Block.finish (parse : List Char → Option Json) (json : List Char) : Block → Option Block
  | .toolUse id name input =>
    if json = [] then some (.toolUse id name input)
    else
      match parse json with
      | some (.obj input) => some (.toolUse id name input)
      | _ => none
  | block => some block

def Delta.Fits : Block → Delta → Prop
  | .text _, .textDelta _ => True
  | .thinking _ _, .thinkingDelta _ => True
  | .thinking _ _, .signatureDelta _ => True
  | .serverTool _, .inputJsonDelta _ => True
  | .toolUse _ _ _, .inputJsonDelta _ => True
  | _, _ => False

structure Streamed where
  start : Block
  deltas : List Delta
  fits : ∀ delta ∈ deltas, Delta.Fits start delta

def Streamed.json (streamed : Streamed) : List Char := streamed.deltas.flatMap partialJson

def Streamed.build (parse : List Char → Option Json) (streamed : Streamed) : Option Block :=
  (streamed.deltas.foldl Block.append streamed.start).finish parse streamed.json

def Streamed.events (index : ℕ) (streamed : Streamed) : List Event :=
  .contentBlockStart index streamed.start ::
    (streamed.deltas.map (.contentBlockDelta index) ++ [.contentBlockStop index])

def Streamed.opened (index : ℕ) (streamed : Streamed) : List Event :=
  .contentBlockStart index streamed.start :: streamed.deltas.map (.contentBlockDelta index)

theorem Streamed.events_eq (index : ℕ) (streamed : Streamed) :
    streamed.events index = streamed.opened index ++ [.contentBlockStop index] := rfl

/-- Blocks one after the other, numbered from `index` on. -/
def streamFrom (index : ℕ) : List Streamed → List Event
  | [] => []
  | streamed :: rest => streamed.events index ++ streamFrom (index + 1) rest

def textOf : Block → List Char
  | .text text => text
  | _ => []

def reasoningOf : Block → List Char
  | .thinking thinking _ => thinking
  | _ => []

def textOfDelta : Delta → List Char
  | .textDelta text => text
  | _ => []

def reasoningOfDelta : Delta → List Char
  | .thinkingDelta thinking => thinking
  | _ => []

variable {block : Block} {delta : Delta} {streamed : Streamed}

theorem fits_append (h : Delta.Fits block delta) (delta' : Delta) :
    Delta.Fits (block.append delta) delta' ↔ Delta.Fits block delta' := by
  cases block <;> cases delta <;> first | exact h.elim | cases delta' <;> rfl

theorem textOf_append (h : Delta.Fits block delta) :
    textOf (block.append delta) = textOf block ++ textOfDelta delta := by
  cases block <;> cases delta <;> first | exact h.elim | rfl

theorem reasoningOf_append (h : Delta.Fits block delta) :
    reasoningOf (block.append delta) = reasoningOf block ++ reasoningOfDelta delta := by
  cases block <;> cases delta <;> first | exact h.elim | rfl | exact (List.append_nil _).symm

/-- What every delta appends to a block, all of them append. -/
theorem foldl_append {part : Block → List Char} {piece : Delta → List Char}
    (hpart : ∀ {block delta}, Delta.Fits block delta →
      part (block.append delta) = part block ++ piece delta) {deltas : List Delta}
    (hfits : ∀ delta ∈ deltas, Delta.Fits block delta) :
    part (deltas.foldl Block.append block) = part block ++ deltas.flatMap piece := by
  induction deltas generalizing block with
  | nil => exact (List.append_nil _).symm
  | cons delta deltas ih =>
    have hdelta : Delta.Fits block delta := hfits delta List.mem_cons_self
    rw [List.foldl_cons, ih, hpart hdelta, List.flatMap_cons, List.append_assoc]
    exact fun delta' hmem =>
      (fits_append hdelta delta').mpr (hfits delta' (List.mem_cons_of_mem _ hmem))

variable {parse : List Char → Option Json}

/-- The parts of a block are those of its start and of its deltas. -/
theorem Streamed.part_build {part : Block → List Char} {piece : Delta → List Char}
    (hpart : ∀ {block delta}, Delta.Fits block delta →
      part (block.append delta) = part block ++ piece delta)
    (htool : ∀ id name input, part (.toolUse id name input) = [])
    (hbuild : streamed.build parse = some block) :
    part block = part streamed.start ++ streamed.deltas.flatMap piece := by
  rw [← foldl_append hpart streamed.fits]
  rw [Streamed.build] at hbuild
  cases hfold : streamed.deltas.foldl Block.append streamed.start with
  | toolUse id name input =>
    rw [hfold, Block.finish] at hbuild
    split_ifs at hbuild
    · rw [← Option.some.inj hbuild]
    · split at hbuild
      · rw [← Option.some.inj hbuild, htool, htool]
      · cases hbuild
  | _ =>
    rw [hfold] at hbuild
    rw [← Option.some.inj hbuild]

theorem Streamed.fits_toolUse {id name : List Char} {input : Json.Fields}
    (hstart : streamed.start = .toolUse id name input) :
    ∀ delta ∈ streamed.deltas, ∃ partialJson, delta = .inputJsonDelta partialJson := by
  intro delta hmem
  have hfits := streamed.fits delta hmem
  rw [hstart] at hfits
  cases delta with
  | inputJsonDelta text => exact ⟨text, rfl⟩
  | _ => exact hfits.elim

theorem isToolUse_foldl_append (block : Block) (deltas : List Delta) :
    (deltas.foldl Block.append block).isToolUse = block.isToolUse := by
  induction deltas generalizing block with
  | nil => rfl
  | cons delta deltas ih =>
    rw [List.foldl_cons, ih]
    cases block <;> cases delta <;> rfl

theorem isToolUse_finish {json : List Char} {block block' : Block}
    (h : block.finish parse json = some block') : block'.isToolUse = block.isToolUse := by
  cases block with
  | toolUse id name input =>
    rw [Block.finish] at h
    split_ifs at h
    · rw [← Option.some.inj h]
    · split at h
      · rw [← Option.some.inj h]
        rfl
      · cases h
  | _ => rw [← Option.some.inj h]

theorem Streamed.isToolUse_build
    (hbuild : streamed.build parse = some block) : block.isToolUse = streamed.start.isToolUse :=
  (isToolUse_finish hbuild).trans (isToolUse_foldl_append _ _)

/-- A call has the input of its start, or the one that came in deltas. -/
theorem Streamed.build_toolUse
    (hbuild : streamed.build parse = some block) {id name : List Char} {input : Json.Fields}
    (hstart : streamed.start = .toolUse id name input) :
    ∃ input', block = .toolUse id name input' ∧ (streamed.json = [] → input' = input) ∧
      (streamed.json ≠ [] → parse streamed.json = some (.obj input')) := by
  have hfold : streamed.deltas.foldl Block.append streamed.start = .toolUse id name input := by
    rw [hstart]
    exact List.foldl_fixed' (fun _ => rfl) _
  rw [Streamed.build, hfold, Block.finish] at hbuild
  split_ifs at hbuild with hjson
  · exact ⟨input, (Option.some.inj hbuild).symm, fun _ => rfl, fun hne => absurd hjson hne⟩
  · split at hbuild
    · rename_i input' hparse
      exact ⟨input', (Option.some.inj hbuild).symm, fun heq => absurd heq hjson, fun _ => hparse⟩
    · cases hbuild

/-- The fields that come later, or else those that came before. -/
def UsageFields.override (before later : UsageFields) : UsageFields where
  inputTokens := later.inputTokens.or before.inputTokens
  outputTokens := later.outputTokens.or before.outputTokens
  cacheCreationInputTokens := later.cacheCreationInputTokens.or before.cacheCreationInputTokens
  cacheReadInputTokens := later.cacheReadInputTokens.or before.cacheReadInputTokens

structure Message where
  id : Option (List Char)
  model : Option (List Char)
  content : List Block
  stopReason : Option (List Char)
  usage : UsageFields

/-- A message on its way, with its usage in two places. -/
structure StreamedMessage where
  id : Option (List Char)
  model : Option (List Char)
  startUsage : UsageFields
  blocks : List Streamed
  stopReason : Option (List Char)
  deltaUsage : UsageFields

def StreamedMessage.events (stream : StreamedMessage) : List Event :=
  .messageStart stream.id stream.model stream.startUsage ::
    (streamFrom 0 stream.blocks ++ [.messageDelta stream.stopReason stream.deltaUsage, .messageStop])

structure StreamedMessage.Builds (parse : List Char → Option Json) (stream : StreamedMessage)
    (message : Message) : Prop where
  id : message.id = stream.id
  model : message.model = stream.model
  content : List.Forall₂ (fun streamed block => streamed.build parse = some block) stream.blocks
    message.content
  stopReason : message.stopReason = stream.stopReason
  usage : message.usage = stream.startUsage.override stream.deltaUsage

structure Assembly where
  blocks : List Block
  /-- The open block, with the JSON text that its deltas have brought. -/
  current : Option (Block × List Char)
  stopReason : Option (List Char)

/-- Blocks that overlap or are not numbered in their order are refused. -/
def Assembly.step (parse : List Char → Option Json) (assembly : Assembly) :
    Event → Option Assembly
  | .contentBlockStart index block =>
    match assembly.current with
    | none =>
      if index = assembly.blocks.length then some { assembly with current := some (block, []) }
      else none
    | some _ => none
  | .contentBlockDelta index delta =>
    match assembly.current with
    | none => none
    | some (block, json) =>
      if index = assembly.blocks.length then
        some { assembly with current := some (block.append delta, json ++ partialJson delta) }
      else none
  | .contentBlockStop index =>
    match assembly.current with
    | none => none
    | some (block, json) =>
      if index = assembly.blocks.length then
        (block.finish parse json).map fun block =>
          { assembly with blocks := assembly.blocks ++ [block], current := none }
      else none
  | .messageDelta stopReason _ => some { assembly with stopReason := stopReason }
  | _ => some assembly

def assemble (parse : List Char → Option Json) (events : List Event) : Option Assembly :=
  events.foldlM (Assembly.step parse) ⟨[], none, none⟩

variable {parse : List Char → Option Json} {assembly : Assembly}

theorem foldlM_deltas {json : List Char} (hcurrent : assembly.current = some (block, json))
    (deltas : List Delta) :
    (deltas.map (Event.contentBlockDelta assembly.blocks.length)).foldlM (Assembly.step parse)
        assembly =
      some { assembly with
        current := some (deltas.foldl Block.append block, json ++ deltas.flatMap partialJson) } := by
  induction deltas generalizing assembly block json with
  | nil =>
    rw [List.flatMap_nil, List.append_nil, List.foldl_nil, ← hcurrent]
    rfl
  | cons delta deltas ih =>
    rw [List.map_cons, List.foldlM_cons, Assembly.step, hcurrent]
    dsimp only
    rw [if_pos rfl, Option.bind_eq_bind, Option.bind_some, ih rfl, List.flatMap_cons,
      List.append_assoc, List.foldl_cons]

theorem foldlM_events (hcurrent : assembly.current = none)
    (hbuild : streamed.build parse = some block) :
    (streamed.events assembly.blocks.length).foldlM (Assembly.step parse) assembly =
      some { assembly with blocks := assembly.blocks ++ [block] } := by
  rw [Streamed.events, List.foldlM_cons, Assembly.step, hcurrent]
  dsimp only
  rw [if_pos rfl, Option.bind_eq_bind, Option.bind_some, List.foldlM_append, foldlM_deltas rfl,
    Option.bind_eq_bind, Option.bind_some, List.foldlM_cons, Assembly.step]
  dsimp only
  rw [if_pos rfl, List.nil_append, ← Streamed.json, ← Streamed.build, hbuild, ← hcurrent]
  rfl

theorem foldlM_streamFrom (hcurrent : assembly.current = none) {streamed : List Streamed}
    {blocks : List Block}
    (hbuild : List.Forall₂ (fun streamed block => streamed.build parse = some block) streamed
      blocks) :
    (streamFrom assembly.blocks.length streamed).foldlM (Assembly.step parse) assembly =
      some { assembly with blocks := assembly.blocks ++ blocks } := by
  induction hbuild generalizing assembly with
  | nil => rw [List.append_nil]; rfl
  | @cons first block streamed blocks hfirst _ ih =>
    rw [streamFrom, List.foldlM_append, foldlM_events hcurrent hfirst, Option.bind_eq_bind,
      Option.bind_some]
    have hlength : assembly.blocks.length + 1 = (assembly.blocks ++ [block]).length := by
      rw [List.length_append, List.length_singleton]
    rw [hlength]
    refine (@ih { assembly with blocks := assembly.blocks ++ [block] } hcurrent).trans ?_
    rw [List.append_assoc, List.singleton_append]

/-- A stream of blocks is put together to the blocks that it is made of. -/
theorem assemble_stream {streamed : List Streamed} {blocks : List Block}
    (hbuild : List.Forall₂ (fun streamed block => streamed.build parse = some block) streamed
      blocks) (stopReason : Option (List Char)) (usage : UsageFields) :
    assemble parse (streamFrom 0 streamed ++ [.messageDelta stopReason usage, .messageStop]) =
      some ⟨blocks, none, stopReason⟩ := by
  have hstream := @foldlM_streamFrom parse ⟨[], none, none⟩ rfl _ _ hbuild
  rw [assemble, List.foldlM_append]
  refine (congrArg (· >>= _) hstream).trans ?_
  rfl

end KiroProxy.MessageStream
