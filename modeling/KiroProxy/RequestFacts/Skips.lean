import KiroProxy.RequestFacts.Scanner

/-!
# Skipping what JSON is made of

On the text of a value the scanner reads exactly that text and spends one unit of work on each
byte, unless the value is nested too deeply, which is an error.
-/

namespace KiroProxy.RequestFacts

open JsonBytes Fallible

def JsonScanBudget.spend (b : JsonScanBudget) (amount : ℕ) : JsonScanBudget :=
  { b with
    remaining := b.remaining - amount
    consumed := min (b.consumed + amount) (2 ^ 64 - 1) }

def JsonScanBudget.deepen (b : JsonScanBudget) (depth : ℕ) : JsonScanBudget :=
  { b with maxDepth := max b.maxDepth depth }

variable {amount : ℕ} {b : JsonScanBudget}

theorem exec_consume (h : amount ≤ b.remaining) :
    (consume amount).exec b = (.ok (), b.spend amount) := by
  have hget : (consume amount).exec b = (if amount ≤ b.remaining then
      (set (b.spend amount) : Scan Unit) else throw .workLimitExceeded).exec b := rfl
  rw [hget, if_pos h]
  rfl

theorem exec_consume_bind {α : Type} {f : Unit → Scan α} (h : amount ≤ b.remaining) :
    (consume amount >>= f).exec b = (f ()).exec (b.spend amount) := by
  rw [exec_bind, exec_consume h]

theorem remaining_spend (h : amount ≤ b.remaining) :
    b.remaining = (b.spend amount).remaining + amount :=
  (Nat.sub_add_cancel h).symm

theorem exec_observeDepth_bind {α : Type} {depth : ℕ} {f : Unit → Scan α}
    (h : depth ≤ maxMessagesJsonNestingDepth) :
    (observeDepth depth >>= f).exec b = (f ()).exec (b.deepen depth) := by
  rw [observeDepth, if_neg (not_lt.mpr h)]
  rfl

/-- The scan ends behind the text, with one unit spent on each byte of it. -/
def Reads (scan : Scan Bytes) (text rest : Bytes) : Prop :=
  ∀ b : JsonScanBudget, text.length ≤ b.remaining →
    ∃ b', b.remaining = b'.remaining + text.length ∧ scan.exec b = (.ok rest, b')

def Fails {α : Type} (scan : Scan α) (text : Bytes) : Prop :=
  ∀ b : JsonScanBudget, text.length ≤ b.remaining → ∃ e b', scan.exec b = (.error e, b')

theorem reads_pure (rest : Bytes) : Reads (pure rest) [] rest :=
  fun b _ => ⟨b, rfl, rfl⟩

theorem Reads.consume {f : Unit → Scan Bytes} {byte : UInt8} {text rest : Bytes}
    (h : Reads (f ()) text rest) : Reads (consume 1 >>= f) (byte :: text) rest := by
  intro b hb
  rw [List.length_cons] at hb
  have hspend := remaining_spend (Nat.le_of_add_left_le hb)
  obtain ⟨b', hb', hexec⟩ := h (b.spend 1) (by omega)
  refine ⟨b', ?_, ?_⟩
  · rw [List.length_cons]
    omega
  · rw [exec_consume_bind (Nat.le_of_add_left_le hb), hexec]

def NoSpaceFirst (text : Bytes) : Prop := ∀ b ∈ text.head?, isAsciiWhitespace b = false

theorem isAsciiWhitespace_of_isSpace {b : UInt8} (h : isSpace b = true) :
    isAsciiWhitespace b = true := by
  revert h
  simp only [isSpace, isAsciiWhitespace, Bool.or_eq_true, beq_iff_eq]
  tauto

theorem reads_skipJsonWs (space : Space) {rest : Bytes} (hrest : NoSpaceFirst rest) :
    Reads (skipJsonWs (space.1 ++ rest)) space.1 rest := by
  obtain ⟨text, hspace⟩ := space
  induction text with
  | nil =>
    rw [List.nil_append]
    cases rest with
    | nil => exact reads_pure []
    | cons b rest =>
      rw [skipJsonWs, if_neg (Bool.eq_false_iff.mp (hrest b rfl))]
      exact reads_pure (b :: rest)
  | cons b text ih =>
    obtain ⟨hb, htext⟩ := List.forall_mem_cons.mp hspace
    rw [List.cons_append, skipJsonWs, if_pos (isAsciiWhitespace_of_isSpace hb)]
    exact Reads.consume (ih htext)

theorem reads_skipStringBody {raw : Bytes} (h : Closed raw) (rest : Bytes) :
    Reads (skipStringBody false (raw ++ quote :: rest)) (raw ++ [quote]) rest := by
  induction h with
  | nil => exact Reads.consume (reads_pure rest)
  | @plain b raw hquote hbackslash hraw ih =>
    refine Reads.consume ?_
    rw [if_neg Bool.false_ne_true, if_neg hbackslash, if_neg hquote]
    exact ih
  | @escape e raw hraw ih =>
    refine Reads.consume ?_
    rw [if_neg Bool.false_ne_true, if_pos rfl]
    refine Reads.consume ?_
    rw [if_pos rfl]
    exact ih

theorem reads_skipJsonString (token : StringToken) (rest : Bytes) :
    Reads (skipJsonString (token.text ++ rest)) token.text rest := by
  rw [StringToken.text, List.cons_append, List.append_assoc, skipJsonString, if_pos rfl]
  exact Reads.consume (reads_skipStringBody token.closed rest)

def Delimited (text : Bytes) : Prop := ∀ b ∈ text.head?, isDelimiter b = true

theorem isDelimiter_of_isNumberByte {b : UInt8} (h : isNumberByte b = true) :
    isDelimiter b = false := by
  by_contra hdelimiter
  rw [Bool.not_eq_false] at hdelimiter
  simp only [isDelimiter, isAsciiWhitespace, Bool.or_eq_true, beq_iff_eq] at hdelimiter
  rcases hdelimiter with ((rfl | rfl) | rfl) | (((rfl | rfl) | rfl) | rfl) | rfl <;> cases h

theorem reads_skipJsonNumber {text rest : Bytes} (h : ∀ b ∈ text, isNumberByte b = true)
    (hrest : Delimited rest) : Reads (skipJsonNumber (text ++ rest)) text rest := by
  induction text with
  | nil =>
    rw [List.nil_append]
    cases rest with
    | nil => exact reads_pure []
    | cons b rest =>
      rw [skipJsonNumber, if_neg (by rw [hrest b rfl]; decide)]
      exact reads_pure (b :: rest)
  | cons b text ih =>
    obtain ⟨hb, htext⟩ := List.forall_mem_cons.mp h
    rw [List.cons_append, skipJsonNumber, if_pos (isDelimiter_of_isNumberByte hb)]
    exact Reads.consume (ih htext)

theorem reads_skipWord (word rest : Bytes) :
    Reads (skipWord word.length (word ++ rest)) word rest := by
  intro b hb
  refine ⟨b.spend word.length, remaining_spend hb, ?_⟩
  rw [skipWord, exec_consume_bind hb, List.drop_left]
  rfl

section Container

variable {parentDepth : ℕ} {stack stack' stack'' : List UInt8}

/-- Over the text the loop goes on, with another stack. -/
def Moves (parentDepth : ℕ) (stack : List UInt8) (text : Bytes) (stack' : List UInt8) : Prop :=
  ∀ (turns : ℕ) (rest : Bytes) (b : JsonScanBudget), (text ++ rest).length ≤ turns →
    text.length ≤ b.remaining →
    ∃ turns' b', rest.length ≤ turns' ∧ b.remaining = b'.remaining + text.length ∧
      (skipContainerBody parentDepth turns stack (text ++ rest)).exec b =
        (skipContainerBody parentDepth turns' stack' rest).exec b'

def Stops (parentDepth : ℕ) (stack : List UInt8) (text : Bytes) : Prop :=
  ∀ (turns : ℕ) (rest : Bytes), (text ++ rest).length ≤ turns →
    Fails (skipContainerBody parentDepth turns stack (text ++ rest)) text

theorem Moves.nil : Moves parentDepth stack [] stack :=
  fun turns _ b hturns _ => ⟨turns, b, hturns, rfl, rfl⟩

theorem Moves.append {text more : Bytes} (h : Moves parentDepth stack text stack')
    (hmore : Moves parentDepth stack' more stack'') :
    Moves parentDepth stack (text ++ more) stack'' := by
  intro turns rest b hturns hb
  rw [List.length_append] at hb
  rw [List.append_assoc] at hturns ⊢
  obtain ⟨turns', b', hturns', hb', hexec⟩ := h turns (more ++ rest) b hturns (by omega)
  obtain ⟨turns'', b'', hturns'', hb'', hexec'⟩ := hmore turns' rest b' hturns' (by omega)
  refine ⟨turns'', b'', hturns'', ?_, hexec.trans hexec'⟩
  rw [List.length_append]
  omega

theorem Moves.stops {text more : Bytes} (h : Moves parentDepth stack text stack')
    (hmore : Stops parentDepth stack' more) : Stops parentDepth stack (text ++ more) := by
  intro turns rest hturns b hb
  rw [List.length_append] at hb
  rw [List.append_assoc] at hturns ⊢
  obtain ⟨turns', b', hturns', hb', hexec⟩ := h turns (more ++ rest) b hturns (by omega)
  obtain ⟨e, b'', herror⟩ := hmore turns' rest hturns' b' (by omega)
  exact ⟨e, b'', hexec.trans herror⟩

variable {text : Bytes} {byte opening closing : UInt8} {inner : Bytes}

theorem Stops.append (h : Stops parentDepth stack text) (more : Bytes) :
    Stops parentDepth stack (text ++ more) := by
  intro turns rest hturns b hb
  rw [List.length_append] at hb
  rw [List.append_assoc] at hturns ⊢
  exact h turns (more ++ rest) hturns b (by omega)

theorem exec_skipContainerBody {turns : ℕ} (rest : Bytes) {b b' : JsonScanBudget}
    (hquote : byte ≠ quote) (hb : 1 ≤ b'.remaining)
    (hnext : (nextStack parentDepth stack byte).exec b = (.ok stack', b')) :
    (skipContainerBody parentDepth (turns + 1) stack (byte :: rest)).exec b =
      (if stack' = [] then pure rest else
        skipContainerBody parentDepth turns stack' rest : Scan Bytes).exec (b'.spend 1) := by
  rw [skipContainerBody, if_neg hquote, exec_bind, hnext]
  exact exec_consume_bind hb

theorem moves_byte (hquote : byte ≠ quote) (hstack : stack' ≠ [])
    (hnext : ∀ b : JsonScanBudget, ∃ b' : JsonScanBudget, b'.remaining = b.remaining ∧
      (nextStack parentDepth stack byte).exec b = (.ok stack', b')) :
    Moves parentDepth stack [byte] stack' := by
  intro turns rest b hturns hb
  obtain ⟨b', hremaining, hnext⟩ := hnext b
  rw [List.length_singleton, ← hremaining] at hb
  obtain ⟨turns, rfl⟩ : ∃ k, turns = k + 1 := ⟨turns - 1, by simp at hturns; omega⟩
  refine ⟨turns, b'.spend 1, by simpa using hturns, ?_, ?_⟩
  · rw [← hremaining]
    exact remaining_spend hb
  · rw [List.singleton_append, exec_skipContainerBody rest hquote hb hnext, if_neg hstack]

/-- Neither a quotation mark nor a bracket. -/
def IsPlain (byte : UInt8) : Prop :=
  byte ≠ quote ∧ byte ≠ openBrace ∧ byte ≠ openBracket ∧ byte ≠ closeBrace ∧ byte ≠ closeBracket

instance (byte : UInt8) : Decidable (IsPlain byte) :=
  inferInstanceAs (Decidable (_ ∧ _ ∧ _ ∧ _ ∧ _))

theorem moves_plain (hstack : stack ≠ []) (h : ∀ byte ∈ text, IsPlain byte) :
    Moves parentDepth stack text stack := by
  induction text with
  | nil => exact Moves.nil
  | cons byte text ih =>
    obtain ⟨⟨hquote, hopen, hopen', hclose, hclose'⟩, htext⟩ := List.forall_mem_cons.mp h
    refine Moves.append (moves_byte hquote hstack fun b => ⟨b, rfl, ?_⟩) (ih htext)
    rw [nextStack, if_neg (not_or.mpr ⟨hopen, hopen'⟩), if_neg hclose, if_neg hclose']
    rfl

theorem moves_word (hstack : stack ≠ []) (h : (text.all fun byte => decide (IsPlain byte)) = true) :
    Moves parentDepth stack text stack :=
  moves_plain hstack fun byte hbyte => of_decide_eq_true (List.all_eq_true.mp h byte hbyte)

theorem moves_open (hbyte : byte = openBrace ∨ byte = openBracket)
    (h : parentDepth + stack.length + 1 ≤ maxMessagesJsonNestingDepth) :
    Moves parentDepth stack [byte] (byte :: stack) := by
  have hquote : byte ≠ quote := by rcases hbyte with rfl | rfl <;> decide
  refine moves_byte hquote (List.cons_ne_nil _ _) fun b =>
    ⟨b.deepen (parentDepth + (byte :: stack).length), rfl, ?_⟩
  rw [nextStack, if_pos hbyte, if_neg (not_lt.mpr h), exec_observeDepth_bind]
  · rfl
  · rw [List.length_cons]
    omega

theorem stops_open (hbyte : byte = openBrace ∨ byte = openBracket)
    (h : maxMessagesJsonNestingDepth < parentDepth + stack.length + 1) :
    Stops parentDepth stack [byte] := by
  intro turns rest hturns b _
  have hquote : byte ≠ quote := by rcases hbyte with rfl | rfl <;> decide
  obtain ⟨turns, rfl⟩ : ∃ k, turns = k + 1 := ⟨turns - 1, by simp at hturns; omega⟩
  refine ⟨.nestingTooDeep, b, ?_⟩
  rw [List.singleton_append, skipContainerBody, if_neg hquote, nextStack, if_pos hbyte, if_pos h]
  rfl

theorem exec_nextStack_close (h : (opening = openBrace ∧ closing = closeBrace) ∨
      (opening = openBracket ∧ closing = closeBracket)) (b : JsonScanBudget) :
    (nextStack parentDepth (opening :: stack) closing).exec b = (.ok stack, b) := by
  rcases h with ⟨rfl, rfl⟩ | ⟨rfl, rfl⟩ <;> rfl

theorem moves_close (h : (opening = openBrace ∧ closing = closeBrace) ∨
      (opening = openBracket ∧ closing = closeBracket)) (hstack : stack ≠ []) :
    Moves parentDepth (opening :: stack) [closing] stack := by
  have hquote : closing ≠ quote := by rcases h with ⟨-, rfl⟩ | ⟨-, rfl⟩ <;> decide
  exact moves_byte hquote hstack fun b => ⟨b, rfl, exec_nextStack_close h b⟩

theorem moves_string (token : StringToken) : Moves parentDepth stack token.text stack := by
  intro turns rest b hturns hb
  obtain ⟨b', hb', hexec⟩ := reads_skipJsonString token rest b hb
  have hlength : token.text.length = token.1.length + 2 := by simp [StringToken.text]
  obtain ⟨turns, rfl⟩ : ∃ k, turns = k + 1 := ⟨turns - 1, by simp at hturns; omega⟩
  refine ⟨turns, b', ?_, hb', ?_⟩
  · rw [List.length_append] at hturns
    omega
  · rw [StringToken.text, List.cons_append] at hexec ⊢
    rw [skipContainerBody, if_pos rfl, exec_bind, hexec]

theorem isPlain_of_isSpace {b : UInt8} (h : isSpace b = true) : IsPlain b := by
  simp only [isSpace, Bool.or_eq_true, beq_iff_eq] at h
  rcases h with ((rfl | rfl) | rfl) | rfl <;> decide

theorem isPlain_of_isNumberByte {b : UInt8} (h : isNumberByte b = true) : IsPlain b := by
  refine ⟨?_, ?_, ?_, ?_, ?_⟩ <;>
  · rintro rfl
    cases h

theorem moves_space (hstack : stack ≠ []) (space : Space) :
    Moves parentDepth stack space.1 stack :=
  moves_plain hstack fun _ hb => isPlain_of_isSpace (space.2 _ hb)

theorem Moves.punctuation (hstack : stack ≠ []) (hbyte : IsPlain byte)
    (h : Moves parentDepth stack text stack') : Moves parentDepth stack (byte :: text) stack' :=
  (moves_plain hstack (List.forall_mem_singleton.mpr hbyte)).append h

theorem isPlain_comma : IsPlain comma := by decide

theorem isPlain_colon : IsPlain colon := by decide

theorem moves_brackets (h : (opening = openBrace ∧ closing = closeBrace) ∨
      (opening = openBracket ∧ closing = closeBracket)) (hstack : stack ≠ [])
    (hdepth : parentDepth + stack.length + 1 ≤ maxMessagesJsonNestingDepth)
    (hinner : Moves parentDepth (opening :: stack) inner (opening :: stack)) :
    Moves parentDepth stack (opening :: (inner ++ [closing])) stack := by
  have hopening : opening = openBrace ∨ opening = openBracket := h.imp And.left And.left
  exact (moves_open hopening hdepth).append (hinner.append (moves_close h hstack))

mutual

theorem moves_tree (stack : List UInt8) (hstack : stack ≠ []) : ∀ tree : Tree,
    parentDepth + stack.length + tree.depth ≤ maxMessagesJsonNestingDepth →
    Moves parentDepth stack tree.text stack
  | .null, _ => moves_word hstack (by decide)
  | .true, _ => moves_word hstack (by decide)
  | .false, _ => moves_word hstack (by decide)
  | .number token, _ =>
    moves_plain hstack fun b hb => isPlain_of_isNumberByte (token.2.isNumberByte b hb)
  | .string token, _ => moves_string token
  | .emptyArray space, h =>
    moves_brackets (.inr ⟨rfl, rfl⟩) hstack h (moves_space (List.cons_ne_nil _ _) space)
  | .array items, h => by
    rw [Tree.depth] at h
    refine moves_brackets (.inr ⟨rfl, rfl⟩) hstack (by omega) ?_
    exact moves_items _ (List.cons_ne_nil _ _) items (by rw [List.length_cons]; omega)
  | .emptyObject space, h =>
    moves_brackets (.inl ⟨rfl, rfl⟩) hstack h (moves_space (List.cons_ne_nil _ _) space)
  | .object members, h => by
    rw [Tree.depth] at h
    refine moves_brackets (.inl ⟨rfl, rfl⟩) hstack (by omega) ?_
    exact moves_members _ (List.cons_ne_nil _ _) members (by rw [List.length_cons]; omega)

theorem moves_items (stack : List UInt8) (hstack : stack ≠ []) : ∀ items : Items,
    parentDepth + stack.length + items.depth ≤ maxMessagesJsonNestingDepth →
    Moves parentDepth stack items.text stack
  | .last before value after, h =>
    (moves_space hstack before).append ((moves_tree stack hstack value h).append
      (moves_space hstack after))
  | .cons before value after rest, h => by
    rw [Items.depth] at h
    exact (moves_space hstack before).append ((moves_tree stack hstack value (by omega)).append
      ((moves_space hstack after).append ((moves_items stack hstack rest (by omega)).punctuation
        hstack isPlain_comma)))

theorem moves_members (stack : List UInt8) (hstack : stack ≠ []) : ∀ members : Members,
    parentDepth + stack.length + members.depth ≤ maxMessagesJsonNestingDepth →
    Moves parentDepth stack members.text stack
  | .last before name afterName beforeValue value after, h =>
    (moves_space hstack before).append ((moves_string name).append
      ((moves_space hstack afterName).append (((moves_space hstack beforeValue).append
        ((moves_tree stack hstack value h).append (moves_space hstack after))).punctuation
          hstack isPlain_colon)))
  | .cons before name afterName beforeValue value after rest, h => by
    rw [Members.depth] at h
    have hrest := (moves_members stack hstack rest (by omega)).punctuation hstack isPlain_comma
    exact (moves_space hstack before).append ((moves_string name).append
      ((moves_space hstack afterName).append (((moves_space hstack beforeValue).append
        ((moves_tree stack hstack value (by omega)).append
          ((moves_space hstack after).append hrest))).punctuation hstack isPlain_colon)))

end

theorem stops_brackets (hopening : opening = openBrace ∨ opening = openBracket)
    (hinner : parentDepth + stack.length + 1 ≤ maxMessagesJsonNestingDepth →
      Stops parentDepth (opening :: stack) inner) (closing : Bytes) :
    Stops parentDepth stack (opening :: (inner ++ closing)) := by
  by_cases hdepth : parentDepth + stack.length + 1 ≤ maxMessagesJsonNestingDepth
  · exact (moves_open hopening hdepth).stops ((hinner hdepth).append closing)
  · exact (stops_open hopening (not_le.mp hdepth)).append (inner ++ closing)

mutual

theorem stops_tree (stack : List UInt8)
    (hbase : parentDepth + stack.length ≤ maxMessagesJsonNestingDepth) : ∀ tree : Tree,
    maxMessagesJsonNestingDepth < parentDepth + stack.length + tree.depth →
    Stops parentDepth stack tree.text
  | .null, h => absurd h (not_lt.mpr hbase)
  | .true, h => absurd h (not_lt.mpr hbase)
  | .false, h => absurd h (not_lt.mpr hbase)
  | .number _, h => absurd h (not_lt.mpr hbase)
  | .string _, h => absurd h (not_lt.mpr hbase)
  | .emptyArray _, h => stops_brackets (.inr rfl) (fun hdepth => absurd h (not_lt.mpr hdepth)) _
  | .array items, h => by
    rw [Tree.depth] at h
    refine stops_brackets (.inr rfl) (fun hdepth => ?_) _
    exact stops_items _ (List.cons_ne_nil _ _) (by rw [List.length_cons]; omega) items
      (by rw [List.length_cons]; omega)
  | .emptyObject _, h => stops_brackets (.inl rfl) (fun hdepth => absurd h (not_lt.mpr hdepth)) _
  | .object members, h => by
    rw [Tree.depth] at h
    refine stops_brackets (.inl rfl) (fun hdepth => ?_) _
    exact stops_members _ (List.cons_ne_nil _ _) (by rw [List.length_cons]; omega) members
      (by rw [List.length_cons]; omega)

theorem stops_items (stack : List UInt8) (hstack : stack ≠ [])
    (hbase : parentDepth + stack.length ≤ maxMessagesJsonNestingDepth) : ∀ items : Items,
    maxMessagesJsonNestingDepth < parentDepth + stack.length + items.depth →
    Stops parentDepth stack items.text
  | .last before value after, h =>
    (moves_space hstack before).stops ((stops_tree stack hbase value h).append _)
  | .cons before value after rest, h => by
    rw [Items.depth] at h
    by_cases hvalue : parentDepth + stack.length + value.depth ≤ maxMessagesJsonNestingDepth
    · have hrest := stops_items stack hstack hbase rest (by omega)
      exact (moves_space hstack before).stops ((moves_tree stack hstack value hvalue).stops
        ((moves_space hstack after).stops
          ((moves_plain hstack (List.forall_mem_singleton.mpr isPlain_comma)).stops hrest)))
    · have hstops := stops_tree stack hbase value (not_le.mp hvalue)
      exact (moves_space hstack before).stops (hstops.append _)

theorem stops_members (stack : List UInt8) (hstack : stack ≠ [])
    (hbase : parentDepth + stack.length ≤ maxMessagesJsonNestingDepth) : ∀ members : Members,
    maxMessagesJsonNestingDepth < parentDepth + stack.length + members.depth →
    Stops parentDepth stack members.text
  | .last before name afterName beforeValue value after, h => by
    have hvalue := stops_tree stack hbase value h
    exact (moves_space hstack before).stops ((moves_string name).stops
      ((moves_space hstack afterName).stops
        ((moves_plain hstack (List.forall_mem_singleton.mpr isPlain_colon)).stops
          ((moves_space hstack beforeValue).stops (hvalue.append _)))))
  | .cons before name afterName beforeValue value after rest, h => by
    rw [Members.depth] at h
    refine (moves_space hstack before).stops ((moves_string name).stops
      ((moves_space hstack afterName).stops
        ((moves_plain hstack (List.forall_mem_singleton.mpr isPlain_colon)).stops
          ((moves_space hstack beforeValue).stops ?_))))
    by_cases hvalue : parentDepth + stack.length + value.depth ≤ maxMessagesJsonNestingDepth
    · have hrest := stops_members stack hstack hbase rest (by omega)
      exact (moves_tree stack hstack value hvalue).stops ((moves_space hstack after).stops
        ((moves_plain hstack (List.forall_mem_singleton.mpr isPlain_comma)).stops hrest))
    · exact (stops_tree stack hbase value (not_le.mp hvalue)).append _

end

theorem reads_skipJsonContainer (h : (opening = openBrace ∧ closing = closeBrace) ∨
      (opening = openBracket ∧ closing = closeBracket))
    (hdepth : parentDepth + 1 ≤ maxMessagesJsonNestingDepth)
    (hinner : Moves parentDepth [opening] inner [opening]) (rest : Bytes) :
    Reads (skipJsonContainer (opening :: (inner ++ [closing]) ++ rest) parentDepth)
      (opening :: (inner ++ [closing])) rest := by
  have hopening : opening = openBrace ∨ opening = openBracket := h.imp And.left And.left
  have hquote : closing ≠ quote := by rcases h with ⟨-, rfl⟩ | ⟨-, rfl⟩ <;> decide
  intro b hb
  rw [List.cons_append, List.append_assoc, skipJsonContainer, if_pos hopening,
    exec_observeDepth_bind hdepth]
  simp only [List.length_cons, List.length_append, List.length_nil] at hb
  have hone : 1 ≤ (b.deepen (parentDepth + 1)).remaining := Nat.le_of_add_left_le hb
  have hspend := remaining_spend hone
  rw [exec_consume_bind hone]
  have hremaining : (b.deepen (parentDepth + 1)).remaining = b.remaining := rfl
  obtain ⟨turns, b', hturns, hb', hexec⟩ := hinner (inner ++ ([closing] ++ rest)).length
    ([closing] ++ rest) ((b.deepen (parentDepth + 1)).spend 1) le_rfl (by omega)
  obtain ⟨turns, rfl⟩ : ∃ k, turns = k + 1 := ⟨turns - 1, by simp at hturns; omega⟩
  have hlast : 1 ≤ b'.remaining := by omega
  refine ⟨b'.spend 1, ?_, ?_⟩
  · have hspend' := remaining_spend hlast
    simp only [List.length_cons, List.length_append, List.length_nil]
    omega
  · rw [hexec, List.singleton_append,
      exec_skipContainerBody rest hquote hlast (exec_nextStack_close h b'), if_pos rfl]
    rfl

theorem fails_skipJsonContainer (hopening : opening = openBrace ∨ opening = openBracket)
    (hinner : parentDepth + 1 ≤ maxMessagesJsonNestingDepth → Stops parentDepth [opening] inner)
    (rest : Bytes) :
    Fails (skipJsonContainer (opening :: inner ++ rest) parentDepth) (opening :: inner) := by
  intro b hb
  rw [List.cons_append, skipJsonContainer, if_pos hopening]
  by_cases hdepth : parentDepth + 1 ≤ maxMessagesJsonNestingDepth
  · rw [List.length_cons] at hb
    rw [exec_observeDepth_bind hdepth]
    have hone : 1 ≤ (b.deepen (parentDepth + 1)).remaining := Nat.le_of_add_left_le hb
    have hspend := remaining_spend hone
    have hremaining : (b.deepen (parentDepth + 1)).remaining = b.remaining := rfl
    rw [exec_consume_bind hone]
    exact hinner hdepth _ rest le_rfl _ (by omega)
  · refine ⟨.nestingTooDeep, b, ?_⟩
    rw [observeDepth, if_pos (not_le.mp hdepth)]
    rfl

end Container

section Value

variable {parentDepth : ℕ} {rest : Bytes}

theorem noSpaceFirst_tree (tree : Tree) (rest : Bytes) : NoSpaceFirst (tree.text ++ rest) := by
  intro b hb
  cases tree with
  | number token =>
    obtain ⟨c, text, htext, hc⟩ := token.2.exists_head
    rw [Tree.text, htext] at hb
    obtain rfl := Option.some.inj hb
    have hnumber := isDelimiter_of_isNumberByte (token.2.isNumberByte c (htext ▸ List.mem_cons_self))
    rw [isDelimiter, Bool.or_eq_false_iff] at hnumber
    exact hnumber.2
  | _ =>
    obtain rfl := Option.some.inj hb
    rfl

theorem exec_skipJsonValue {byte : UInt8} {text : Bytes} (h : NoSpaceFirst (byte :: text)) :
    skipJsonValue (byte :: text) parentDepth =
      if byte = quote then skipJsonString (byte :: text)
      else if byte = openBrace ∨ byte = openBracket then skipJsonContainer (byte :: text) parentDepth
      else if byte = 0x74 ∧ (byte :: text).take 4 = trueText then skipWord 4 (byte :: text)
      else if byte = 0x66 ∧ (byte :: text).take 5 = falseText then skipWord 5 (byte :: text)
      else if byte = 0x6e ∧ (byte :: text).take 4 = nullText then skipWord 4 (byte :: text)
      else if byte = 0x2d ∨ isDigit byte = true then skipJsonNumber (byte :: text)
      else throw .malformed := by
  rw [skipJsonValue, skipJsonWs, if_neg (Bool.eq_false_iff.mp (h byte rfl))]
  rfl

/-- What is skipped of a value is its text. -/
theorem reads_skipJsonValue (tree : Tree) (hrest : Delimited rest)
    (h : parentDepth + tree.depth ≤ maxMessagesJsonNestingDepth) :
    Reads (skipJsonValue (tree.text ++ rest) parentDepth) tree.text rest := by
  have hfirst := noSpaceFirst_tree tree rest
  cases tree with
  | null =>
    rw [Tree.text, nullText, List.cons_append] at hfirst ⊢
    rw [exec_skipJsonValue hfirst]
    exact reads_skipWord nullText rest
  | «true» =>
    rw [Tree.text, trueText, List.cons_append] at hfirst ⊢
    rw [exec_skipJsonValue hfirst]
    exact reads_skipWord trueText rest
  | «false» =>
    rw [Tree.text, falseText, List.cons_append] at hfirst ⊢
    rw [exec_skipJsonValue hfirst]
    exact reads_skipWord falseText rest
  | number token =>
    obtain ⟨b, text, htext, hb⟩ := token.2.exists_head
    have hnumber := reads_skipJsonNumber token.2.isNumberByte hrest
    rw [Tree.text]
    rw [Tree.text] at hfirst
    have hplain := isPlain_of_isNumberByte (token.2.isNumberByte b (htext ▸ List.mem_cons_self))
    have hword (c : UInt8) (hc : isNumberByte c = false) : b ≠ c := by
      rintro rfl
      rw [token.2.isNumberByte b (htext ▸ List.mem_cons_self)] at hc
      cases hc
    rw [htext, List.cons_append] at hfirst hnumber ⊢
    rw [exec_skipJsonValue hfirst, if_neg hplain.1,
      if_neg (not_or.mpr ⟨hplain.2.1, hplain.2.2.1⟩), if_neg fun hand => hword 0x74 rfl hand.1,
      if_neg fun hand => hword 0x66 rfl hand.1, if_neg fun hand => hword 0x6e rfl hand.1, if_pos hb]
    exact hnumber
  | string token =>
    have hstring := reads_skipJsonString token rest
    rw [Tree.text]
    rw [Tree.text] at hfirst
    rw [StringToken.text, List.cons_append] at hfirst hstring ⊢
    rw [exec_skipJsonValue hfirst, if_pos rfl]
    exact hstring
  | emptyArray space =>
    rw [Tree.text, List.cons_append] at hfirst ⊢
    rw [exec_skipJsonValue hfirst]
    exact reads_skipJsonContainer (.inr ⟨rfl, rfl⟩) h (moves_space (List.cons_ne_nil _ _) space) rest
  | array items =>
    rw [Tree.depth] at h
    rw [Tree.text, List.cons_append] at hfirst ⊢
    rw [exec_skipJsonValue hfirst]
    have hitems := @moves_items parentDepth [openBracket] (List.cons_ne_nil _ _) items
      (by rw [List.length_singleton]; omega)
    exact reads_skipJsonContainer (.inr ⟨rfl, rfl⟩) (by omega) hitems rest
  | emptyObject space =>
    rw [Tree.text, List.cons_append] at hfirst ⊢
    rw [exec_skipJsonValue hfirst]
    exact reads_skipJsonContainer (.inl ⟨rfl, rfl⟩) h (moves_space (List.cons_ne_nil _ _) space) rest
  | object members =>
    rw [Tree.depth] at h
    rw [Tree.text, List.cons_append] at hfirst ⊢
    rw [exec_skipJsonValue hfirst]
    have hmembers := @moves_members parentDepth [openBrace] (List.cons_ne_nil _ _) members
      (by rw [List.length_singleton]; omega)
    exact reads_skipJsonContainer (.inl ⟨rfl, rfl⟩) (by omega) hmembers rest

theorem fails_skipJsonValue (tree : Tree) (hbase : parentDepth ≤ maxMessagesJsonNestingDepth)
    (h : maxMessagesJsonNestingDepth < parentDepth + tree.depth) :
    Fails (skipJsonValue (tree.text ++ rest) parentDepth) tree.text := by
  have hfirst := noSpaceFirst_tree tree rest
  cases tree with
  | emptyArray space =>
    rw [Tree.text, List.cons_append] at hfirst ⊢
    rw [exec_skipJsonValue hfirst]
    exact fails_skipJsonContainer (.inr rfl) (fun hdepth => absurd h (not_lt.mpr hdepth)) rest
  | array items =>
    rw [Tree.depth] at h
    rw [Tree.text, List.cons_append] at hfirst ⊢
    rw [exec_skipJsonValue hfirst]
    refine fails_skipJsonContainer (.inr rfl) (fun hdepth => ?_) rest
    exact (stops_items [openBracket] (List.cons_ne_nil _ _) hdepth items
      (by rw [List.length_singleton]; omega)).append _
  | emptyObject space =>
    rw [Tree.text, List.cons_append] at hfirst ⊢
    rw [exec_skipJsonValue hfirst]
    exact fails_skipJsonContainer (.inl rfl) (fun hdepth => absurd h (not_lt.mpr hdepth)) rest
  | object members =>
    rw [Tree.depth] at h
    rw [Tree.text, List.cons_append] at hfirst ⊢
    rw [exec_skipJsonValue hfirst]
    refine fails_skipJsonContainer (.inl rfl) (fun hdepth => ?_) rest
    exact (stops_members [openBrace] (List.cons_ne_nil _ _) hdepth members
      (by rw [List.length_singleton]; omega)).append _
  | _ => exact absurd h (not_lt.mpr hbase)

end Value

end KiroProxy.RequestFacts
