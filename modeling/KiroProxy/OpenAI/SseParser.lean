import KiroProxy.Segmentation
import KiroProxy.Transducer
import KiroProxy.Utf8Lossy

/-!
# Server-sent events in chunks

`SseParser` cuts the bytes of a stream into lines, decodes each line, and puts the fields of an
event together. `parse_chunks` says that the chunks do not matter as long as the decoded text is
within the limit, `parse_encoded` that encoded messages are read back.
-/

namespace KiroProxy.OpenAI.EventLines
open Segmentation Transducer

def maxSseEventBytes : ℕ := 32 * 1024 * 1024

structure SseMessage where
  event : Option (List Char)
  data : List Char
  deriving DecidableEq, Repr

/-- The fields of the event whose end has not come yet. -/
structure Pending where
  event : Option (List Char)
  data : List Char

structure SseParser where
  /-- The beginning of a line. -/
  buffer : List UInt8
  pending : Pending

def Pending.none : Pending := ⟨.none, []⟩

def SseParser.new : SseParser := ⟨[], .none⟩

def lineFeed : UInt8 := 10

def carriageReturn : UInt8 := 13

def lines : Rule UInt8 := .endingWith (· == lineFeed)

def stripCarriageReturn (line : List UInt8) : List UInt8 :=
  if line.getLast? = some carriageReturn then line.dropLast else line

def decodeLine (line : List UInt8) : List Char := lossy (stripCarriageReturn line)

def splitField (line : List Char) : List Char × List Char :=
  match line.dropWhile (· ≠ ':') with
  | [] => (line, [])
  | _ :: value =>
    (line.takeWhile (· ≠ ':'), if value.head? = some ' ' then value.tail else value)

def appendData (data value : List Char) : List Char :=
  (if data = [] then [] else data ++ ['\n']) ++ value

def processLine (pending : Pending) (line : List Char) : Pending × List SseMessage :=
  if line = [] then
    if pending.data ≠ [] ∨ pending.event.isSome then (.none, [⟨pending.event, pending.data⟩])
    else (pending, [])
  else if line.head? = some ':' then (pending, [])
  else
    let (field, value) := splitField line
    if field = "event".toList then ({ pending with event := some value }, [])
    else if field = "data".toList then
      ({ pending with data := appendData pending.data value }, [])
    else (pending, [])

/-- A line with the `\n` at its end. -/
def processEnded (pending : Pending) (line : List UInt8) : Pending × List SseMessage :=
  processLine pending (decodeLine line.dropLast)

def SseParser.feed (parser : SseParser) (chunk : List UInt8) :
    Except String (SseParser × List SseMessage) :=
  let (ended, rest) := lines.completed (parser.buffer ++ chunk)
  let (pending, messages) := run processEnded parser.pending ended
  if maxSseEventBytes < rest.length + utf8Length pending.data then
    .error "upstream stream sent an oversized event"
  else .ok (⟨rest, pending⟩, messages)

/-- The last event, if the empty line behind it is missing. -/
def SseParser.finish (parser : SseParser) : Option SseMessage :=
  let (pending, messages) :=
    if parser.buffer = [] then (parser.pending, [])
    else processLine parser.pending (decodeLine parser.buffer)
  (messages ++ (processLine pending []).2).getLast?

def feedAll (parser : SseParser) : List (List UInt8) → Except String (SseParser × List SseMessage)
  | [] => .ok (parser, [])
  | chunk :: chunks =>
    match parser.feed chunk with
    | .error message => .error message
    | .ok (parser, messages) =>
      match feedAll parser chunks with
      | .error message => .error message
      | .ok (parser, messages') => .ok (parser, messages ++ messages')

/-- The messages of a stream that comes in these chunks. -/
def parse (chunks : List (List UInt8)) : Except String (List SseMessage) :=
  match feedAll .new chunks with
  | .error message => .error message
  | .ok (parser, messages) => .ok (messages ++ parser.finish.toList)

/-- The parser after these bytes, whatever their chunks, and the messages of them. -/
def consumed (bytes : List UInt8) : SseParser × List SseMessage :=
  let (pending, messages) := run processEnded .none (lines.completed bytes).1
  (⟨(lines.completed bytes).2, pending⟩, messages)

def SseParser.size (parser : SseParser) : ℕ := parser.buffer.length + utf8Length parser.pending.data

theorem feed_consumed (bytes chunk : List UInt8)
    (h : (consumed (bytes ++ chunk)).1.size ≤ maxSseEventBytes) :
    ∃ messages, (consumed bytes).1.feed chunk = .ok ((consumed (bytes ++ chunk)).1, messages) ∧
      (consumed (bytes ++ chunk)).2 = (consumed bytes).2 ++ messages := by
  have hcompleted := lines.completed_append bytes chunk
  rw [SseParser.size, consumed, hcompleted, run_append] at h
  rw [SseParser.feed, consumed, consumed, hcompleted, run_append]
  dsimp only at h ⊢
  rw [if_neg (Nat.not_lt.mpr h)]
  exact ⟨_, rfl, rfl⟩

theorem feedAll_consumed (bytes : List UInt8) (chunks : List (List UInt8))
    (h : ∀ before, before <+: bytes ++ chunks.flatten →
      (consumed before).1.size ≤ maxSseEventBytes) :
    ∃ messages, feedAll (consumed bytes).1 chunks =
        .ok ((consumed (bytes ++ chunks.flatten)).1, messages) ∧
      (consumed (bytes ++ chunks.flatten)).2 = (consumed bytes).2 ++ messages := by
  induction chunks generalizing bytes with
  | nil =>
    rw [List.flatten_nil, List.append_nil]
    exact ⟨[], rfl, (List.append_nil _).symm⟩
  | cons chunk chunks ih =>
    rw [List.flatten_cons, ← List.append_assoc] at h ⊢
    obtain ⟨messages, hfeed, hmessages⟩ :=
      feed_consumed bytes chunk (h _ (List.prefix_append _ _))
    obtain ⟨messages', hrest, hmessages'⟩ := ih (bytes ++ chunk) h
    refine ⟨messages ++ messages', ?_, ?_⟩
    · rw [feedAll, hfeed]
      dsimp only
      rw [hrest]
    · rw [hmessages', hmessages, List.append_assoc]

def allMessages (bytes : List UInt8) : List SseMessage :=
  (consumed bytes).2 ++ (consumed bytes).1.finish.toList

theorem parse_eq {chunks : List (List UInt8)} (h : ∀ before, before <+: chunks.flatten →
    (consumed before).1.size ≤ maxSseEventBytes) :
    parse chunks = .ok (allMessages chunks.flatten) := by
  obtain ⟨messages, hfeed, hmessages⟩ := feedAll_consumed [] chunks h
  have hnew : (consumed []).1 = .new := rfl
  rw [hnew, List.nil_append] at hfeed
  rw [List.nil_append] at hmessages
  rw [parse, hfeed, allMessages, hmessages]
  rfl

theorem utf8Length_le_of_isSuffix {cs ds : List Char} (h : cs <:+ ds) :
    utf8Length cs ≤ utf8Length ds := by
  obtain ⟨before, rfl⟩ := h
  rw [utf8Length_append]
  exact Nat.le_add_left _ _

theorem splitField_isSuffix (line : List Char) : (splitField line).2 <:+ line := by
  have hsuffix : line.dropWhile (· ≠ ':') <:+ line := List.dropWhile_suffix _
  rw [splitField]
  split
  · exact List.nil_suffix
  next c value hdrop =>
    have hvalue : value <:+ line := (List.suffix_cons c value).trans (hdrop ▸ hsuffix)
    dsimp only
    split_ifs
    · exact (List.tail_suffix value).trans hvalue
    · exact hvalue

theorem utf8Length_appendData (data value : List Char) :
    utf8Length (appendData data value) ≤ utf8Length data + 1 + utf8Length value := by
  rw [appendData, utf8Length_append]
  refine Nat.add_le_add_right ?_ _
  split_ifs
  · exact Nat.zero_le _
  · rw [utf8Length_append]
    exact Nat.le_refl _

theorem utf8Length_processLine (pending : Pending) (line : List Char) :
    utf8Length (processLine pending line).1.data ≤
      utf8Length pending.data + 1 + utf8Length line := by
  have hsame : utf8Length pending.data ≤ utf8Length pending.data + 1 + utf8Length line := by omega
  rw [processLine]
  split_ifs
  · exact Nat.zero_le _
  · exact hsame
  · exact hsame
  · dsimp only
    split_ifs
    · exact hsame
    · have hvalue := utf8Length_le_of_isSuffix (splitField_isSuffix line)
      exact (utf8Length_appendData _ _).trans (Nat.add_le_add_left hvalue _)
    · exact hsame

theorem utf8Length_decodeLine (line : List UInt8) :
    utf8Length (decodeLine line) ≤ utf8Length (lossy line) := by
  rw [decodeLine, stripCarriageReturn]
  split_ifs with hlast
  · obtain ⟨before, rfl⟩ := List.getLast?_eq_some_iff.mp hlast
    rw [List.dropLast_concat, lossy_append_ascii (by decide), utf8Length_append]
    exact Nat.le_add_right _ _
  · exact Nat.le_refl _

theorem utf8Length_processEnded (pending : Pending) (line rest : List UInt8) :
    utf8Length (processEnded pending (line ++ [lineFeed])).1.data + utf8Length (lossy rest) ≤
      utf8Length pending.data + utf8Length (lossy (line ++ [lineFeed] ++ rest)) := by
  have hprocess := utf8Length_processLine pending (decodeLine line)
  have hline := utf8Length_decodeLine line
  have hfeed : (Char.ofNat lineFeed.toNat).utf8Size = 1 := by decide
  rw [processEnded, List.dropLast_concat, List.append_assoc, List.singleton_append,
    lossy_append_ascii (by decide), utf8Length_append, utf8Length_cons, hfeed]
  omega

theorem utf8Length_run {ended : List (List UInt8)}
    (hended : ∀ line ∈ ended, ∃ bytes, line = bytes ++ [lineFeed]) (pending : Pending)
    (rest : List UInt8) :
    utf8Length (run processEnded pending ended).1.data + utf8Length (lossy rest) ≤
      utf8Length pending.data + utf8Length (lossy (ended.flatten ++ rest)) := by
  induction ended generalizing pending with
  | nil => exact Nat.le_refl _
  | cons line ended ih =>
    obtain ⟨bytes, rfl⟩ := hended line List.mem_cons_self
    rw [run_cons, List.flatten_cons, List.append_assoc]
    exact (ih (fun line hmem => hended line (List.mem_cons_of_mem _ hmem)) _).trans
      (utf8Length_processEnded pending bytes _)

theorem size_consumed (before rest : List UInt8) :
    (consumed before).1.size ≤ utf8Length (lossy (before ++ rest)) := by
  have hended : ∀ line ∈ (lines.completed before).1, ∃ bytes, line = bytes ++ [lineFeed] := by
    intro line hmem
    obtain ⟨bytes, e, rfl, he⟩ := Rule.exists_of_mem_completed_endingWith hmem
    exact ⟨bytes, by rw [eq_of_beq he]⟩
  have hrun := utf8Length_run hended .none ((lines.completed before).2 ++ rest)
  have hlength := length_le_utf8Length_lossy ((lines.completed before).2 ++ rest)
  rw [← List.append_assoc, lines.flatten_completed before] at hrun
  rw [List.length_append] at hlength
  have hnone : utf8Length Pending.none.data = 0 := rfl
  rw [SseParser.size, consumed]
  dsimp only
  omega

theorem parse_chunks {chunks : List (List UInt8)}
    (h : utf8Length (lossy chunks.flatten) ≤ maxSseEventBytes) :
    parse chunks = .ok (allMessages chunks.flatten) := by
  refine parse_eq fun before hbefore => ?_
  obtain ⟨rest, hrest⟩ := hbefore
  exact (size_consumed before rest).trans (hrest ▸ h)

structure Line where
  text : List Char
  /-- It is ended by `\r\n`. -/
  crlf : Bool

def Line.bytes (line : Line) : List UInt8 :=
  (line.text ++ if line.crlf then ['\r', '\n'] else ['\n']).flatMap String.utf8EncodeChar

def Line.isComment (line : Line) : Bool := line.text.head? = some ':'

def messageLines (message : SseMessage) : List (List Char) :=
  (message.event.map ("event: ".toList ++ ·)).toList ++
    ((message.data.splitOn '\n').map ("data: ".toList ++ ·) ++ [[]])

structure Encodes (messages : List SseMessage) (lines : List Line) : Prop where
  content : (lines.filter fun line => !line.isComment).map Line.text = messages.flatMap messageLines
  noLineFeed : ∀ line ∈ lines, '\n' ∉ line.text

/-- The data does not begin with an empty line, and is empty only with the name of an event. -/
def SseMessage.Readable (message : SseMessage) : Prop :=
  message.data.head? ≠ some '\n' ∧ (message.event = none → message.data ≠ [])

/-- A line that is ended by `\n` does not end with `\r`. -/
def Line.Readable (line : Line) : Prop :=
  line.isComment = false → line.crlf = false → line.text.getLast? ≠ some '\r'

def Line.content (line : Line) : List UInt8 :=
  (line.text ++ if line.crlf then ['\r'] else []).flatMap String.utf8EncodeChar

theorem Line.bytes_eq (line : Line) : line.bytes = line.content ++ [lineFeed] := by
  have hend : (if line.crlf then ['\r', '\n'] else ['\n']) =
      (if line.crlf then ['\r'] else []) ++ ['\n'] := by split_ifs <;> rfl
  rw [Line.bytes, hend, ← List.append_assoc, List.flatMap_append, Line.content]
  rfl

theorem Line.lineFeed_not_mem_content {line : Line} (h : '\n' ∉ line.text) :
    lineFeed ∉ line.content := by
  intro hmem
  obtain ⟨c, hc, hbyte⟩ := List.mem_flatMap.mp hmem
  have hne : c ≠ '\n' := by
    rintro rfl
    rcases List.mem_append.mp hc with hc | hc
    · exact h hc
    · revert hc
      split_ifs <;> decide
  exact not_mem_utf8EncodeChar (by decide) (fun hnat => hne (Char.toNat_inj.mp hnat)) hbyte

variable {ls : List Line} {messages : List SseMessage} (n : ℕ)

theorem completed_lines (h : ∀ line ∈ ls, '\n' ∉ line.text) :
    lines.completed (ls.flatMap Line.bytes) = (ls.map Line.bytes, []) := by
  induction ls with
  | nil => rfl
  | cons line ls ih =>
    have hcontent : ∀ byte ∈ line.content, (byte == lineFeed) = false := by
      intro byte hmem
      refine beq_eq_false_iff_ne.mpr fun heq => ?_
      exact Line.lineFeed_not_mem_content (h line List.mem_cons_self) (heq ▸ hmem)
    rw [List.flatMap_cons, Line.bytes_eq, List.append_assoc, List.singleton_append, lines,
      Rule.completed_endingWith_append hcontent (beq_self_eq_true lineFeed), ← lines,
      ih fun line hmem => h line (List.mem_cons_of_mem _ hmem), List.map_cons, Line.bytes_eq]

theorem decodeLine_content (line : Line) :
    decodeLine line.content = line.text ∨
      line.crlf = false ∧ line.text = decodeLine line.content ++ ['\r'] := by
  rw [decodeLine, stripCarriageReturn, Line.content]
  cases line.crlf with
  | true =>
    have hcontent : (line.text ++ ['\r']).flatMap String.utf8EncodeChar =
        line.text.flatMap String.utf8EncodeChar ++ [carriageReturn] := List.flatMap_append
    rw [if_pos rfl, hcontent, if_pos List.getLast?_concat, List.dropLast_concat]
    exact .inl (lossy_encode line.text)
  | false =>
    rw [if_neg Bool.false_ne_true, List.append_nil]
    split_ifs with hlast
    · obtain ⟨before, hbefore⟩ := List.getLast?_eq_some_iff.mp hlast
      refine .inr ⟨rfl, ?_⟩
      rw [hbefore, List.dropLast_concat, ← lossy_encode line.text, hbefore,
        lossy_append_ascii (by decide)]
      rfl
    · exact .inl (lossy_encode line.text)

theorem processEnded_bytes {line : Line} (hreadable : line.Readable) (pending : Pending) :
    processEnded pending line.bytes =
      if line.isComment then (pending, []) else processLine pending line.text := by
  rw [processEnded, Line.bytes_eq, List.dropLast_concat]
  rcases decodeLine_content line with htext | ⟨hcrlf, htext⟩
  · rw [htext]
    split_ifs with hcomment
    · have hhead : line.text.head? = some ':' := of_decide_eq_true hcomment
      have hne : line.text ≠ [] := by
        intro hnil
        rw [hnil] at hhead
        cases hhead
      rw [processLine, if_neg hne, if_pos hhead]
    · rfl
  · cases hcomment : line.isComment with
    | false =>
      exact absurd (htext ▸ List.getLast?_concat) (hreadable hcomment hcrlf)
    | true =>
      have hhead : line.text.head? = some ':' := of_decide_eq_true hcomment
      rw [htext] at hhead
      cases hdecode : decodeLine line.content with
      | nil =>
        rw [hdecode] at hhead
        exact absurd hhead (by decide)
      | cons c cs =>
        rw [hdecode] at hhead
        have hhead' : (c :: cs).head? = some ':' := hhead
        rw [processLine, if_neg (List.cons_ne_nil _ _), if_pos hhead', if_pos rfl]

theorem run_bytes (hreadable : ∀ line ∈ ls, line.Readable) (pending : Pending) :
    run processEnded pending (ls.map Line.bytes) =
      run processLine pending ((ls.filter fun line => !line.isComment).map Line.text) := by
  induction ls generalizing pending with
  | nil => rfl
  | cons line ls ih =>
    have hrest := ih fun line hmem => hreadable line (List.mem_cons_of_mem _ hmem)
    rw [List.map_cons, run_cons, processEnded_bytes (hreadable line List.mem_cons_self)]
    cases hcomment : line.isComment with
    | true =>
      rw [if_pos rfl, List.filter_cons_of_neg (by simp [hcomment]), hrest]
      rfl
    | false =>
      rw [if_neg Bool.false_ne_true, List.filter_cons_of_pos (by simp [hcomment]), hrest,
        List.map_cons, run_cons]

theorem processLine_data (event : Option (List Char)) (data value : List Char) :
    processLine ⟨event, data⟩ ("data: ".toList ++ value) =
      (⟨event, appendData data value⟩, []) := rfl

theorem run_data (event : Option (List Char)) (data : List Char) (values : List (List Char)) :
    run processLine ⟨event, data⟩ (values.map ("data: ".toList ++ ·)) =
      (⟨event, values.foldl appendData data⟩, []) := by
  induction values generalizing data with
  | nil => rfl
  | cons value values ih => rw [List.map_cons, run_cons, processLine_data, ih, List.foldl_cons]; rfl

theorem foldl_appendData {data : List Char} (hne : data ≠ []) (values : List (List Char)) :
    values.foldl appendData data = data ++ values.flatMap ('\n' :: ·) := by
  induction values generalizing data with
  | nil => exact (List.append_nil _).symm
  | cons value values ih =>
    have hnext : appendData data value ≠ [] := by
      rw [appendData, if_neg hne]
      simp
    rw [List.foldl_cons, ih hnext, appendData, if_neg hne, List.flatMap_cons]
    simp

theorem intercalate_lineFeed (value : List Char) (values : List (List Char)) :
    ['\n'].intercalate (value :: values) = value ++ values.flatMap ('\n' :: ·) := by
  induction values generalizing value with
  | nil => simp [List.intercalate]
  | cons value' values ih =>
    rw [List.intercalate_cons_cons, ih, List.flatMap_cons, List.append_assoc]
    rfl

theorem foldl_splitOn {data : List Char} (h : data.head? ≠ some '\n') :
    (data.splitOn '\n').foldl appendData [] = data := by
  have hjoin := @List.intercalate_splitOn _ data _ _ '\n'
  cases hsplit : data.splitOn '\n' with
  | nil => exact absurd hsplit (List.splitOn_ne_nil _ _)
  | cons value values =>
    rw [hsplit, intercalate_lineFeed] at hjoin
    rw [List.foldl_cons]
    cases value with
    | nil =>
      cases values with
      | nil => exact hjoin
      | cons value' values =>
        rw [← hjoin] at h
        exact absurd rfl h
    | cons c cs => exact (foldl_appendData (List.cons_ne_nil c cs) values).trans hjoin

theorem run_messageLines {message : SseMessage} (h : message.Readable) :
    run processLine .none (messageLines message) = (.none, [message]) := by
  obtain ⟨event, data⟩ := message
  have hdata := run_data event [] (data.splitOn '\n')
  rw [foldl_splitOn h.1] at hdata
  have hevent : run processLine .none (event.map ("event: ".toList ++ ·)).toList =
      (⟨event, []⟩, []) := by
    cases event with
    | none => rfl
    | some name => rfl
  have hends : data ≠ [] ∨ event.isSome = true := by
    cases event with
    | none => exact .inl (h.2 rfl)
    | some name => exact .inr rfl
  have hend : processLine ⟨event, data⟩ [] = (.none, [⟨event, data⟩]) := by
    rw [processLine, if_pos rfl, if_pos hends]
  rw [messageLines, run_append, run_append, hevent]
  dsimp only
  rw [hdata]
  dsimp only
  rw [run_singleton, hend]
  rfl

theorem run_messages (h : ∀ message ∈ messages, message.Readable) :
    run processLine .none (messages.flatMap messageLines) = (.none, messages) := by
  induction messages with
  | nil => rfl
  | cons message messages ih =>
    rw [List.flatMap_cons, run_append, run_messageLines (h message List.mem_cons_self),
      ih fun message hmem => h message (List.mem_cons_of_mem _ hmem)]
    rfl

theorem consumed_encoded (h : Encodes messages ls)
    (hmessages : ∀ message ∈ messages, message.Readable) (hlines : ∀ line ∈ ls, line.Readable) :
    consumed (ls.flatMap Line.bytes) = (.new, messages) := by
  rw [consumed, completed_lines h.noLineFeed]
  dsimp only
  rw [run_bytes hlines, h.content, run_messages hmessages]
  rfl

theorem parse_encoded (h : Encodes messages ls) (hmessages : ∀ message ∈ messages, message.Readable)
    (hlines : ∀ line ∈ ls, line.Readable) : parse [ls.flatMap Line.bytes] = .ok messages := by
  have hconsumed := consumed_encoded h hmessages hlines
  obtain ⟨messages', hfeed, hmessages'⟩ := feed_consumed [] (ls.flatMap Line.bytes) (by
    rw [List.nil_append, hconsumed]
    exact Nat.zero_le _)
  rw [List.nil_append, hconsumed] at hfeed hmessages'
  have hnil : messages = messages' := hmessages'
  have hnew : (consumed []).1 = .new := rfl
  rw [hnew] at hfeed
  rw [parse, feedAll, hfeed, hnil]
  dsimp only [feedAll]
  rw [List.append_nil]
  exact congrArg _ (List.append_nil _)

/-- The chunks of a stream do not matter, and encoded messages are read back. -/
theorem parse_spec :
    (∀ chunks : List (List UInt8), utf8Length (lossy chunks.flatten) < maxSseEventBytes →
      ∃ messages, parse chunks = .ok messages ∧ parse [chunks.flatten] = .ok messages) ∧
    ∀ messages ls, Encodes messages ls → (∀ message ∈ messages, message.Readable) →
      (∀ line ∈ ls, line.Readable) → parse [ls.flatMap Line.bytes] = .ok messages := by
  refine ⟨fun chunks h => ⟨_, parse_chunks (Nat.le_of_lt h), ?_⟩,
    fun messages ls => parse_encoded⟩
  have hflatten : [chunks.flatten].flatten = chunks.flatten := List.flatten_singleton
  have hparse := @parse_chunks [chunks.flatten] (by
    rw [hflatten]
    exact Nat.le_of_lt h)
  rwa [hflatten] at hparse

instance (message : SseMessage) : Decidable message.Readable :=
  inferInstanceAs (Decidable (_ ∧ _))

instance (line : Line) : Decidable line.Readable := inferInstanceAs (Decidable (_ → _))

/-- Comments, both ends of lines, and data of two lines. -/
def updateLines : List Line :=
  [⟨": open".toList, true⟩, ⟨"event: update".toList, false⟩, ⟨"data: a".toList, true⟩,
    ⟨[':'], false⟩, ⟨"data: b".toList, false⟩, ⟨[], true⟩]

/-- A line that is cut between `\r` and `\n`, and a message with comments. -/
theorem parse_spec_update :
    (∃ messages, parse ["data: a\r".toList.flatMap String.utf8EncodeChar, [10, 13, 10]] =
        .ok messages ∧
      parse ["data: a\r\n\r\n".toList.flatMap String.utf8EncodeChar] = .ok messages) ∧
    parse [updateLines.flatMap Line.bytes] =
      .ok [⟨some "update".toList, "a\nb".toList⟩] := by
  refine ⟨parse_spec.1 ["data: a\r".toList.flatMap String.utf8EncodeChar, [10, 13, 10]]
    (by decide), ?_⟩
  refine parse_spec.2 [⟨some "update".toList, "a\nb".toList⟩] updateLines ⟨rfl, ?_⟩ ?_ ?_
  · decide
  · decide
  · decide

/-- The lines of one message, ended by `\n`. -/
def plainLines (message : SseMessage) : List Line :=
  (messageLines message).map fun text => ⟨text, false⟩

/-- Bytes that are ill-formed, each with an `a` behind it. -/
def illFormed (n : ℕ) : List UInt8 := (List.replicate n [0xFF, 0x61]).flatten

def replaced (n : ℕ) : List Char := (List.replicate n ['\uFFFD', 'a']).flatten

theorem lossy_illFormed : lossy (illFormed n) = replaced n := by
  induction n with
  | zero => rfl
  | succ n ih =>
    have hsucc : illFormed (n + 1) = [0xFF] ++ 0x61 :: illFormed n := rfl
    have hfirst : lossy [0xFF] = ['\uFFFD'] := by decide
    rw [hsucc, lossy_append_ascii (by decide), ih, hfirst]
    rfl

theorem length_illFormed : (illFormed n).length = 2 * n := by
  induction n with
  | zero => rfl
  | succ n ih =>
    have hsucc : illFormed (n + 1) = 0xFF :: 0x61 :: illFormed n := rfl
    rw [hsucc, List.length_cons, List.length_cons, ih]
    omega

theorem utf8Length_replaced : utf8Length (replaced n) = 4 * n := by
  induction n with
  | zero => rfl
  | succ n ih =>
    have hsucc : replaced (n + 1) = '\uFFFD' :: 'a' :: replaced n := rfl
    have hsize : '\uFFFD'.utf8Size = 3 := by decide
    have hsize' : 'a'.utf8Size = 1 := by decide
    rw [hsucc, utf8Length_cons, utf8Length_cons, ih, hsize, hsize']
    omega

def illFormedField (n : ℕ) : List UInt8 := [0x64, 0x61, 0x74, 0x61, 0x3A] ++ illFormed (n + 1)

theorem processLine_illFormedField :
    processLine .none (decodeLine (illFormedField n)) = (⟨none, replaced (n + 1)⟩, []) := by
  have hlast : (illFormedField n).getLast? = some 0x61 := by
    have hsucc : illFormed (n + 1) = illFormed n ++ [0xFF] ++ [0x61] := by
      rw [illFormed, List.replicate_succ', List.flatten_append, List.append_assoc]
      rfl
    rw [illFormedField, hsucc, ← List.append_assoc]
    exact List.getLast?_concat
  rw [decodeLine, stripCarriageReturn, hlast, if_neg (by decide), illFormedField]
  simp only [List.cons_append, List.nil_append]
  rw [lossy_ascii_cons (by decide), lossy_ascii_cons (by decide), lossy_ascii_cons (by decide),
    lossy_ascii_cons (by decide), lossy_ascii_cons (by decide), lossy_illFormed]
  rfl

theorem not_lineFeed_of_mem_illFormedField :
    ∀ byte ∈ illFormedField n, (byte == lineFeed) = false := by
  have hall {bytes : List UInt8} (h : bytes.all (fun byte => byte != lineFeed) = true) :
      ∀ byte ∈ bytes, (byte == lineFeed) = false :=
    fun byte hmem => (Bool.not_eq_true' _).mp (List.all_eq_true.mp h byte hmem)
  intro byte hmem
  rcases List.mem_append.mp hmem with hmem | hmem
  · exact hall (by decide) byte hmem
  · obtain ⟨bytes, hbytes, hmem⟩ := List.mem_flatten.mp hmem
    rw [List.eq_of_mem_replicate hbytes] at hmem
    exact hall (by decide) byte hmem

theorem completed_illFormedField (rest : List UInt8) :
    lines.completed (illFormedField n ++ lineFeed :: rest) =
      ((illFormedField n ++ [lineFeed]) :: (lines.completed rest).1, (lines.completed rest).2) :=
  Rule.completed_endingWith_append (not_lineFeed_of_mem_illFormedField n)
    (beq_self_eq_true lineFeed) rest

theorem processEnded_illFormedField :
    processEnded .none (illFormedField n ++ [lineFeed]) = (⟨none, replaced (n + 1)⟩, []) := by
  rw [processEnded, List.dropLast_concat, processLine_illFormedField]

theorem parse_illFormedField {n : ℕ} (h : maxSseEventBytes < 4 * (n + 1)) :
    parse [illFormedField n ++ [lineFeed], [lineFeed]] =
        .error "upstream stream sent an oversized event" ∧
      parse [illFormedField n ++ [lineFeed, lineFeed]] = .ok [⟨none, replaced (n + 1)⟩] := by
  have hdata : utf8Length (replaced (n + 1)) = 4 * (n + 1) := utf8Length_replaced (n + 1)
  constructor
  · have hfeed : SseParser.new.feed (illFormedField n ++ [lineFeed]) =
        .error "upstream stream sent an oversized event" := by
      have hcompleted : lines.completed (illFormedField n ++ [lineFeed]) =
          ([illFormedField n ++ [lineFeed]], []) := completed_illFormedField n []
      rw [SseParser.feed, SseParser.new, List.nil_append, hcompleted]
      dsimp only
      rw [run_singleton, processEnded_illFormedField]
      dsimp only
      rw [hdata, if_pos (Nat.lt_of_lt_of_le h (Nat.le_add_left _ _))]
    rw [parse, feedAll, hfeed]
  · have hfeed : SseParser.new.feed (illFormedField n ++ [lineFeed, lineFeed]) =
        .ok (.new, [⟨none, replaced (n + 1)⟩]) := by
      have hcompleted := completed_illFormedField n [lineFeed]
      have hblank : lines.completed [lineFeed] = ([[lineFeed]], []) := rfl
      have hend : processEnded ⟨none, replaced (n + 1)⟩ [lineFeed] =
          (.none, [⟨none, replaced (n + 1)⟩]) := rfl
      rw [SseParser.feed, SseParser.new, List.nil_append, hcompleted, hblank]
      dsimp only
      rw [run_cons, processEnded_illFormedField, run_singleton, hend]
      rfl
    rw [parse, feedAll, hfeed]
    rfl

/-- Data that is decoded to more than the limit, an event without a name and data, a `\r` at the
end of a line, and an empty first line. -/
theorem not_parse_spec :
    (∃ chunks : List (List UInt8), chunks.flatten.length < maxSseEventBytes ∧
      (∃ error, parse chunks = .error error) ∧
      ∃ messages, parse [chunks.flatten] = .ok messages) ∧
    (Encodes [⟨none, []⟩] (plainLines ⟨none, []⟩) ∧
      parse [(plainLines ⟨none, []⟩).flatMap Line.bytes] = .ok []) ∧
    (Encodes [⟨none, "a\r".toList⟩] (plainLines ⟨none, "a\r".toList⟩) ∧
      parse [(plainLines ⟨none, "a\r".toList⟩).flatMap Line.bytes] =
        .ok [⟨none, "a".toList⟩]) ∧
    (Encodes [⟨none, "\na".toList⟩] (plainLines ⟨none, "\na".toList⟩) ∧
      parse [(plainLines ⟨none, "\na".toList⟩).flatMap Line.bytes] =
        .ok [⟨none, "a".toList⟩]) := by
  have hsize : maxSseEventBytes < 4 * (8388608 + 1) := by decide
  obtain ⟨herror, hok⟩ := parse_illFormedField hsize
  have hflatten : [illFormedField 8388608 ++ [lineFeed], [lineFeed]].flatten =
      illFormedField 8388608 ++ [lineFeed, lineFeed] := by
    rw [List.flatten_cons, List.flatten_singleton, List.append_assoc]
    rfl
  refine ⟨⟨_, ?_, ⟨_, herror⟩, _, hflatten ▸ hok⟩, ⟨⟨rfl, ?_⟩, rfl⟩, ⟨⟨rfl, ?_⟩, rfl⟩,
    ⟨⟨rfl, ?_⟩, rfl⟩⟩
  · rw [hflatten, List.length_append, illFormedField, List.length_append, length_illFormed]
    decide
  · decide
  · decide
  · decide

end KiroProxy.OpenAI.EventLines
