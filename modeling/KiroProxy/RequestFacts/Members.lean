import KiroProxy.RequestFacts.Skips

/-!
# Probing one member

With two units of work for each byte that is left, the probe takes a member of the top level down
and stands behind it, unless its value is nested too deeply or is too long a model.
-/

namespace KiroProxy.RequestFacts

open JsonBytes Fallible

/-- A member of the top level: the name it stands for, its value, and where that starts. -/
structure Entry where
  name : Bytes
  value : Tree
  start : ℕ

def Entry.span (e : Entry) : Span := ⟨e.start, e.start + e.value.text.length⟩

section Keys

variable {name : Bytes}

def nameOf : ProbedTopLevelKey → Bytes
  | .model => modelName
  | .stream => streamName
  | .maxTokens => maxTokensName
  | .thinking => thinkingName
  | .outputConfig => outputConfigName
  | .cacheControl => cacheControlName
  | .other => []

theorem probedKey_eq_iff {key : ProbedTopLevelKey} (hkey : key ≠ .other) :
    probedKey name = key ↔ name = nameOf key := by
  constructor
  · intro h
    unfold probedKey at h
    split_ifs at h <;> subst h <;> first | assumption | exact absurd rfl hkey
  · rintro rfl
    cases key <;> rfl

theorem probedKey_of_long (token : StringToken)
    (h : maxTopLevelProbedKeyEncodedBytes < token.text.length) :
    probedKey token.decoded = .other := by
  by_contra hkey
  have hlength := token.length_text_le
  have hname := (probedKey_eq_iff hkey).mp rfl
  have hshort : ∀ key, (nameOf key).length ≤ maxTopLevelProbedKeyBytes := by
    intro key
    cases key <;> decide
  have hdecoded : token.decoded.length ≤ maxTopLevelProbedKeyBytes := hname ▸ hshort _
  unfold maxTopLevelProbedKeyEncodedBytes maxJsonAsciiEscapeBytes at h
  omega

end Keys

/-- With two units of work for each byte that is left, the scan succeeds and leaves as much. -/
def Funds {α : Type} (scan : Scan α) (place : Bytes) (a : α) (place' : Bytes) : Prop :=
  ∀ b : JsonScanBudget, 2 * place.length ≤ b.remaining →
    ∃ b', 2 * place'.length ≤ b'.remaining ∧ scan.exec b = (.ok a, b')

theorem Reads.funds {scan : Scan Bytes} {text rest : Bytes} (h : Reads scan text rest) :
    Funds scan (text ++ rest) rest rest := by
  intro b hb
  rw [List.length_append] at hb
  obtain ⟨b', hb', hexec⟩ := h b (by omega)
  exact ⟨b', by omega, hexec⟩

theorem funds_consume {text rest : Bytes} : Funds (consume text.length) (text ++ rest) () rest := by
  intro b hb
  rw [List.length_append] at hb
  have hamount : text.length ≤ b.remaining := by omega
  have hspend := remaining_spend hamount
  exact ⟨b.spend text.length, by omega, exec_consume hamount⟩

theorem between_text (text rest : Bytes) : between (text ++ rest) rest = text := by
  rw [between, List.length_append, Nat.add_sub_cancel, List.take_left]

theorem length_sub_text (text rest : Bytes) :
    (text ++ rest).length - rest.length = text.length := by
  rw [List.length_append, Nat.add_sub_cancel]

theorem exec_skipJsonString_decode {α : Type} {f : Bytes → Scan α} (token : StringToken)
    (rest : Bytes) {b : JsonScanBudget} (hb : 2 * (token.text ++ rest).length ≤ b.remaining) :
    ∃ b', 2 * rest.length + token.text.length ≤ b'.remaining ∧
      (skipJsonString (token.text ++ rest) >>= f).exec b = (f rest).exec b' := by
  rw [List.length_append] at hb
  obtain ⟨b', hb', hexec⟩ := reads_skipJsonString token rest b (by omega)
  refine ⟨b', by omega, ?_⟩
  rw [exec_bind, hexec]

section Decode

variable {serde : SerdeJson}

variable (token : StringToken) (rest : Bytes)

theorem funds_parseProbedTopLevelKeyAt :
    Funds (parseProbedTopLevelKeyAt serde (token.text ++ rest)) (token.text ++ rest)
      (probedKey token.decoded, rest) rest := by
  intro b hb
  obtain ⟨b', hb', hexec⟩ := @exec_skipJsonString_decode _ _ token rest b hb
  rw [parseProbedTopLevelKeyAt, hexec]
  dsimp only
  rw [length_sub_text, between_text, serde.parseString_text]
  split_ifs with hlong
  · exact ⟨b', by omega, by rw [probedKey_of_long token hlong]; rfl⟩
  · have hamount : token.text.length ≤ b'.remaining := by omega
    have hspend := remaining_spend hamount
    refine ⟨b'.spend token.text.length, by omega, ?_⟩
    rw [exec_consume_bind hamount]
    rfl

theorem funds_parseBoundedModelStringAt (hshort : token.decoded.length ≤ maxMessagesModelIdBytes) :
    Funds (parseBoundedModelStringAt serde (token.text ++ rest)) (token.text ++ rest)
      (token.decoded, rest) rest := by
  intro b hb
  obtain ⟨b', hb', hexec⟩ := @exec_skipJsonString_decode _ _ token rest b hb
  have hencoded : ¬maxModelIdEncodedBytes < token.text.length := by
    have hlength := token.length_text_le
    unfold maxModelIdEncodedBytes maxJsonAsciiEscapeBytes
    omega
  have hamount : token.text.length ≤ b'.remaining := by omega
  have hspend := remaining_spend hamount
  rw [parseBoundedModelStringAt, hexec]
  dsimp only
  rw [length_sub_text, between_text, serde.parseString_text, if_neg hencoded]
  refine ⟨b'.spend token.text.length, by omega, ?_⟩
  rw [exec_consume_bind hamount]
  dsimp only
  rw [if_neg (not_lt.mpr hshort)]
  rfl

theorem fails_parseBoundedModelStringAt (hlong : maxMessagesModelIdBytes < token.decoded.length)
    {b : JsonScanBudget} (hb : 2 * (token.text ++ rest).length ≤ b.remaining) :
    ∃ e b', (parseBoundedModelStringAt serde (token.text ++ rest)).exec b = (.error e, b') := by
  obtain ⟨b', hb', hexec⟩ := @exec_skipJsonString_decode _ _ token rest b hb
  rw [parseBoundedModelStringAt, hexec]
  dsimp only
  rw [length_sub_text, between_text, serde.parseString_text]
  split_ifs
  · exact ⟨.modelTooLong, b', rfl⟩
  · have hamount : token.text.length ≤ b'.remaining := by omega
    refine ⟨.modelTooLong, b'.spend token.text.length, ?_⟩
    rw [exec_consume_bind hamount]
    dsimp only
    rw [if_pos hlong]
    rfl

end Decode

section Steps

variable {α β : Type} {place place' place'' : Bytes} {p p' p'' : RawMessagesBodyProbe} {a : α}

/-- With a funded budget, the step succeeds and leaves a funded budget. -/
def Steps (step : Probe α) (place : Bytes) (p : RawMessagesBodyProbe) (a : α) (place' : Bytes)
    (p' : RawMessagesBodyProbe) : Prop :=
  ∀ b : JsonScanBudget, 2 * place.length ≤ b.remaining →
    ∃ b', 2 * place'.length ≤ b'.remaining ∧ step.exec ⟨p, b⟩ = (.ok a, ⟨p', b'⟩)

def Breaks (step : Probe α) (place : Bytes) (p : RawMessagesBodyProbe) : Prop :=
  ∀ b : JsonScanBudget, 2 * place.length ≤ b.remaining → ∃ e s, step.exec ⟨p, b⟩ = (.error e, s)

theorem exec_onBudget (scan : Scan α) (s : Probing) :
    (onBudget scan).exec s = ((scan.exec s.budget).1, { s with budget := (scan.exec s.budget).2 }) :=
  rfl

variable {scan : Scan α} {step : Probe α} {f : α → Probe β}

theorem Funds.steps (h : Funds scan place a place') : Steps (onBudget scan) place p a place' p := by
  intro b hb
  obtain ⟨b', hb', hexec⟩ := h b hb
  refine ⟨b', hb', ?_⟩
  rw [exec_onBudget, hexec]

theorem breaks_onBudget (h : ∀ b : JsonScanBudget, 2 * place.length ≤ b.remaining →
    ∃ e b', scan.exec b = (.error e, b')) : Breaks (onBudget scan) place p := by
  intro b hb
  obtain ⟨e, b', hexec⟩ := h b hb
  refine ⟨e, ⟨p, b'⟩, ?_⟩
  rw [exec_onBudget, hexec]

theorem Fails.breaks {text rest : Bytes} (h : Fails scan text) :
    Breaks (onBudget scan) (text ++ rest) p := by
  refine breaks_onBudget fun b hb => h b ?_
  rw [List.length_append] at hb
  omega

theorem Steps.bind {c : β} (h : Steps step place p a place' p')
    (hf : Steps (f a) place' p' c place'' p'') : Steps (step >>= f) place p c place'' p'' := by
  intro b hb
  obtain ⟨b', hb', hexec⟩ := h b hb
  obtain ⟨b'', hb'', hexec'⟩ := hf b' hb'
  refine ⟨b'', hb'', ?_⟩
  rw [exec_bind, hexec]
  exact hexec'

theorem Steps.breaks (h : Steps step place p a place' p') (hf : Breaks (f a) place' p') :
    Breaks (step >>= f) place p := by
  intro b hb
  obtain ⟨b', hb', hexec⟩ := h b hb
  obtain ⟨e, s, herror⟩ := hf b' hb'
  refine ⟨e, s, ?_⟩
  rw [exec_bind, hexec]
  exact herror

theorem Breaks.bind (h : Breaks step place p) : Breaks (step >>= f) place p := by
  intro b hb
  obtain ⟨e, s, hexec⟩ := h b hb
  refine ⟨e, s, ?_⟩
  rw [exec_bind, hexec]

theorem steps_record (f : RawMessagesBodyProbe → RawMessagesBodyProbe) :
    Steps (record f) place p () place (f p) :=
  fun b hb => ⟨b, hb, rfl⟩

theorem steps_pure (a : α) : Steps (pure a : Probe α) place p a place p :=
  fun b hb => ⟨b, hb, rfl⟩

end Steps

/-- What the probe takes down of a member. -/
def recordEntry (p : RawMessagesBodyProbe) (e : Entry) : RawMessagesBodyProbe :=
  match probedKey e.name with
  | .model =>
    let p := { p with
      duplicateModelField := p.duplicateModelField || p.modelFieldSeen
      modelFieldSeen := true }
    match e.value.asString with
    | some s => { p with model := some s, modelValueSpan := some e.span }
    | none => p
  | .stream =>
    let p := { p with
      duplicateStreamField := p.duplicateStreamField || p.streamFieldSeen
      streamFieldSeen := true }
    match e.value.asBool with
    | some b => { p with stream := some b }
    | none => p
  | .maxTokens => { p with
      duplicateMaxTokensField := p.duplicateMaxTokensField || p.maxTokensFieldSeen
      maxTokensFieldSeen := true
      maxTokensPresent := true
      maxTokens := e.value.asInteger
      maxTokensValueSpan := some e.span }
  | .thinking => { p with
      duplicateThinkingField := p.duplicateThinkingField || p.thinkingFieldSeen
      thinkingFieldSeen := true
      thinkingValueSpan := some e.span }
  | .outputConfig => { p with
      duplicateOutputConfigField := p.duplicateOutputConfigField || p.outputConfigFieldSeen
      outputConfigFieldSeen := true
      outputConfigValueSpan := some e.span }
  | .cacheControl => { p with topLevelCacheControl := decide (e.value.text ≠ nullText) }
  | .other => p

/-- Not too deep, and if it is the model, not too long. -/
def Admitted (e : Entry) : Prop :=
  1 + e.value.depth ≤ maxMessagesJsonNestingDepth ∧
    (e.name = modelName → ∀ s ∈ e.value.asString, s.length ≤ maxMessagesModelIdBytes)

theorem exists_string_of_leads {tree : Tree} (h : Leads tree quote) :
    ∃ token, tree = .string token := by
  cases tree with
  | string token => exact ⟨token, rfl⟩
  | _ => exact absurd h (by dsimp only [Leads]; decide)

theorem head?_of_take {text word : Bytes} {n : ℕ} {b : UInt8} (h : text.take n = b :: word) :
    text.head? = some b := by
  cases text with
  | nil =>
    rw [List.take_nil] at h
    cases h
  | cons c text =>
    cases n with
    | zero => cases h
    | succ n => exact congrArg some (List.cons.inj h).1

theorem eq_true_of_take {tree : Tree} {rest : Bytes} {n : ℕ}
    (h : (tree.text ++ rest).take n = trueText) : tree = .true := by
  have hleads := leads_of_head? (head?_of_take h)
  cases tree with
  | «true» => rfl
  | _ => exact absurd hleads (by dsimp only [Leads]; decide)

theorem eq_false_of_take {tree : Tree} {rest : Bytes} {n : ℕ}
    (h : (tree.text ++ rest).take n = falseText) : tree = .false := by
  have hleads := leads_of_head? (head?_of_take h)
  cases tree with
  | «false» => rfl
  | _ => exact absurd hleads (by dsimp only [Leads]; decide)

section Member

variable {serde : SerdeJson} {size : ℕ} {p : RawMessagesBodyProbe} {name rest : Bytes} {value : Tree}

theorem spanOf_text (hsize : (value.text ++ rest).length ≤ size) :
    spanOf size (value.text ++ rest) rest =
      Entry.span ⟨name, value, indexOf size (value.text ++ rest)⟩ := by
  rw [List.length_append] at hsize
  unfold spanOf Entry.span indexOf
  dsimp only
  rw [List.length_append]
  congr 1
  omega

theorem steps_skipValue (hrest : Delimited rest)
    (h : 1 + value.depth ≤ maxMessagesJsonNestingDepth) :
    Steps (onBudget (skipJsonValue (value.text ++ rest) 1)) (value.text ++ rest) p rest rest p :=
  (reads_skipJsonValue value hrest h).funds.steps

theorem steps_probeModel (hrest : Delimited rest) (hsize : (value.text ++ rest).length ≤ size)
    (hname : probedKey name = .model)
    (h : Admitted ⟨name, value, indexOf size (value.text ++ rest)⟩) :
    Steps (probeModel serde size (value.text ++ rest)) (value.text ++ rest) p rest rest
      (recordEntry p ⟨name, value, indexOf size (value.text ++ rest)⟩) := by
  refine (steps_record _).bind ?_
  rw [recordEntry, hname]
  cases value with
  | string token =>
    have hmodel := h.2 ((probedKey_eq_iff (by decide)).mp hname) token.decoded rfl
    have hhead : ((Tree.string token).text ++ rest).head? = some quote := rfl
    rw [if_pos hhead]
    refine Steps.bind (funds_parseBoundedModelStringAt token rest hmodel).steps ?_
    refine (steps_record _).bind ?_
    dsimp only
    rw [← spanOf_text hsize]
    exact steps_pure rest
  | _ =>
    rw [if_neg fun hhead => ?_]
    · exact steps_skipValue hrest h.1
    · obtain ⟨token, heq⟩ := exists_string_of_leads (leads_of_head? hhead)
      cases heq

theorem breaks_probeModel
    (hbase : 1 + value.depth ≤ maxMessagesJsonNestingDepth)
    (h : ¬Admitted ⟨name, value, indexOf size (value.text ++ rest)⟩) :
    Breaks (probeModel serde size (value.text ++ rest)) (value.text ++ rest) p := by
  refine (steps_record _).breaks ?_
  cases value with
  | string token =>
    have hlong : maxMessagesModelIdBytes < token.decoded.length := by
      by_contra hshort
      refine h ⟨hbase, fun _ s hs => ?_⟩
      obtain rfl := Option.some.inj hs
      exact not_lt.mp hshort
    have hhead : ((Tree.string token).text ++ rest).head? = some quote := rfl
    rw [if_pos hhead]
    exact Breaks.bind (breaks_onBudget fun b hb =>
      fails_parseBoundedModelStringAt token rest hlong hb)
  | _ => exact absurd ⟨hbase, fun _ s hs => by cases hs⟩ h

theorem steps_probeStream (hrest : Delimited rest) (hname : probedKey name = .stream)
    (h : Admitted ⟨name, value, indexOf size (value.text ++ rest)⟩) :
    Steps (probeStream (value.text ++ rest)) (value.text ++ rest) p rest rest
      (recordEntry p ⟨name, value, indexOf size (value.text ++ rest)⟩) := by
  refine (steps_record _).bind ?_
  rw [recordEntry, hname]
  by_cases htrue : value = .true
  · rw [htrue]
    have htake : (Tree.true.text ++ rest).take 4 = trueText := rfl
    rw [if_pos htake]
    refine Steps.bind (@funds_consume trueText rest).steps ?_
    exact (steps_record _).bind (steps_pure rest)
  · rw [if_neg fun htake => htrue (eq_true_of_take htake)]
    by_cases hfalse : value = .false
    · rw [hfalse]
      have htake : (Tree.false.text ++ rest).take 5 = falseText := rfl
      rw [if_pos htake]
      refine Steps.bind (@funds_consume falseText rest).steps ?_
      exact (steps_record _).bind (steps_pure rest)
    · rw [if_neg fun htake => hfalse (eq_false_of_take htake)]
      have hnone : value.asBool = none := by
        cases value with
        | «true» => exact absurd rfl htrue
        | «false» => exact absurd rfl hfalse
        | _ => rfl
      dsimp only
      rw [hnone]
      exact steps_skipValue hrest h.1

theorem steps_probeValue (hrest : Delimited rest) (hsize : (value.text ++ rest).length ≤ size)
    (h : Admitted ⟨name, value, indexOf size (value.text ++ rest)⟩) :
    Steps (probeValue serde size (probedKey name) (value.text ++ rest)) (value.text ++ rest) p rest
      rest (recordEntry p ⟨name, value, indexOf size (value.text ++ rest)⟩) := by
  have hspan := @spanOf_text size name rest value hsize
  have hskip {p} := @steps_skipValue p rest value hrest h.1
  unfold probeValue
  cases hname : probedKey name with
  | model => exact steps_probeModel hrest hsize hname h
  | stream => exact steps_probeStream hrest hname h
  | maxTokens =>
    refine (steps_record _).bind (hskip.bind ((steps_record _).bind ?_))
    rw [recordEntry, hname, between_text, serde.parseInteger_text, hspan]
    exact steps_pure rest
  | thinking =>
    refine hskip.bind ((steps_record _).bind ?_)
    rw [recordEntry, hname, hspan]
    exact steps_pure rest
  | outputConfig =>
    refine hskip.bind ((steps_record _).bind ?_)
    rw [recordEntry, hname, hspan]
    exact steps_pure rest
  | cacheControl =>
    refine hskip.bind ((steps_record _).bind ?_)
    rw [recordEntry, hname, between_text]
    exact steps_pure rest
  | other =>
    rw [recordEntry, hname]
    exact hskip

/-- A value that is not admitted is an error. -/
theorem breaks_probeValue (h : ¬Admitted ⟨name, value, indexOf size (value.text ++ rest)⟩) :
    Breaks (probeValue serde size (probedKey name) (value.text ++ rest)) (value.text ++ rest) p := by
  unfold probeValue
  by_cases hdepth : 1 + value.depth ≤ maxMessagesJsonNestingDepth
  · have hmodel : probedKey name = .model := by
      by_contra hne
      exact h ⟨hdepth, fun heq => absurd ((probedKey_eq_iff (by decide)).mpr heq) hne⟩
    rw [hmodel]
    exact breaks_probeModel hdepth h
  · have hskip {p} : Breaks (onBudget (skipJsonValue (value.text ++ rest) 1)) (value.text ++ rest) p :=
      (fails_skipJsonValue value (by decide) (not_le.mp hdepth)).breaks
    cases hname : probedKey name with
    | model =>
      refine (steps_record _).breaks ?_
      cases value with
      | string token => exact absurd (show 1 ≤ maxMessagesJsonNestingDepth by decide) hdepth
      | _ =>
        rw [if_neg fun hhead => ?_]
        · exact hskip
        · obtain ⟨token, heq⟩ := exists_string_of_leads (leads_of_head? hhead)
          cases heq
    | stream =>
      refine (steps_record _).breaks ?_
      rw [if_neg fun htake => ?_, if_neg fun htake => ?_]
      · exact hskip
      · obtain rfl := eq_false_of_take htake
        exact hdepth (by decide)
      · obtain rfl := eq_true_of_take htake
        exact hdepth (by decide)
    | maxTokens => exact (steps_record _).breaks hskip.bind
    | thinking => exact hskip.bind
    | outputConfig => exact hskip.bind
    | cacheControl => exact hskip.bind
    | other => exact hskip

def EndsMember (next : Bytes) : Prop := next.head? = some comma ∨ next.head? = some closeBrace

theorem EndsMember.noSpaceFirst {next : Bytes} (h : EndsMember next) : NoSpaceFirst next := by
  intro b hb
  rcases h with h | h <;> rw [h] at hb <;> cases hb <;> rfl

theorem EndsMember.delimited {next : Bytes} (h : EndsMember next) : Delimited next := by
  intro b hb
  rcases h with h | h <;> rw [h] at hb <;> cases hb <;> rfl

theorem isDelimiter_of_isSpace {b : UInt8} (h : isSpace b = true) : isDelimiter b = true := by
  rw [isDelimiter, isAsciiWhitespace_of_isSpace h, Bool.or_true]

theorem delimited_space (space : Space) {next : Bytes} (h : Delimited next) :
    Delimited (space.1 ++ next) := by
  obtain ⟨text, hspace⟩ := space
  cases text with
  | nil => exact h
  | cons b text =>
    intro c hc
    obtain rfl := Option.some.inj hc
    exact isDelimiter_of_isSpace (hspace _ List.mem_cons_self)

theorem steps_skipJsonWs (space : Space) {next : Bytes} (hnext : NoSpaceFirst next) :
    Steps (onBudget (skipJsonWs (space.1 ++ next))) (space.1 ++ next) p next next p :=
  (reads_skipJsonWs space hnext).funds.steps

theorem steps_consume {byte : UInt8} : Steps (onBudget (consume 1)) (byte :: rest) p () rest p :=
  (@funds_consume [byte] rest).steps

section ProbeMember

variable (token : StringToken) (afterName beforeValue after : Space) {next : Bytes}

theorem exec_probeMember {b : JsonScanBudget}
    (hb : 2 * (token.text ++ (afterName.1 ++ colon :: (beforeValue.1 ++
      (value.text ++ (after.1 ++ next))))).length ≤ b.remaining) :
    ∃ b', 2 * (value.text ++ (after.1 ++ next)).length ≤ b'.remaining ∧
      (probeMember serde size (token.text ++ (afterName.1 ++ colon :: (beforeValue.1 ++
        (value.text ++ (after.1 ++ next)))))).exec ⟨p, b⟩ =
      (do
        let valueEnd ← probeValue serde size (probedKey token.decoded)
          (value.text ++ (after.1 ++ next))
        onBudget (skipJsonWs valueEnd)).exec ⟨p, b'⟩ := by
  have hcolon : NoSpaceFirst (colon :: (beforeValue.1 ++ (value.text ++ (after.1 ++ next)))) := by
    intro c hc
    obtain rfl := Option.some.inj hc
    rfl
  obtain ⟨b₁, hb₁, hkey⟩ := (funds_parseProbedTopLevelKeyAt token _).steps b hb
  obtain ⟨b₂, hb₂, hspace⟩ := steps_skipJsonWs afterName hcolon b₁ hb₁
  obtain ⟨b₃, hb₃, hconsume⟩ := steps_consume b₂ hb₂
  obtain ⟨b₄, hb₄, hspace'⟩ :=
    steps_skipJsonWs beforeValue (noSpaceFirst_tree value (after.1 ++ next)) b₃ hb₃
  refine ⟨b₄, hb₄, ?_⟩
  rw [probeMember, exec_bind, hkey]
  dsimp only
  rw [exec_bind, hspace]
  dsimp only
  rw [List.head?_cons, if_neg (not_not.mpr rfl), exec_bind, hconsume]
  dsimp only
  rw [List.tail_cons, exec_bind, hspace']

theorem steps_probeMember (hnext : EndsMember next)
    (hsize : (value.text ++ (after.1 ++ next)).length ≤ size)
    (h : Admitted ⟨token.decoded, value, indexOf size (value.text ++ (after.1 ++ next))⟩) :
    Steps (probeMember serde size (token.text ++ (afterName.1 ++ colon :: (beforeValue.1 ++
        (value.text ++ (after.1 ++ next))))))
      (token.text ++ (afterName.1 ++ colon :: (beforeValue.1 ++ (value.text ++ (after.1 ++ next)))))
      p next next
      (recordEntry p ⟨token.decoded, value, indexOf size (value.text ++ (after.1 ++ next))⟩) := by
  intro b hb
  obtain ⟨b', hb', hexec⟩ := exec_probeMember token afterName beforeValue after hb
  rw [hexec]
  have hvalue := @steps_probeValue serde size p token.decoded (after.1 ++ next) value
    (delimited_space after hnext.delimited) hsize h
  exact (hvalue.bind (steps_skipJsonWs after hnext.noSpaceFirst)) b' hb'

theorem breaks_probeMember
    (h : ¬Admitted ⟨token.decoded, value, indexOf size (value.text ++ (after.1 ++ next))⟩) :
    Breaks (probeMember serde size (token.text ++ (afterName.1 ++ colon :: (beforeValue.1 ++
        (value.text ++ (after.1 ++ next))))))
      (token.text ++ (afterName.1 ++ colon :: (beforeValue.1 ++ (value.text ++ (after.1 ++ next)))))
      p := by
  intro b hb
  obtain ⟨b', hb', hexec⟩ := exec_probeMember token afterName beforeValue after hb
  rw [hexec]
  exact (breaks_probeValue h).bind b' hb'

end ProbeMember

end Member

end KiroProxy.RequestFacts
