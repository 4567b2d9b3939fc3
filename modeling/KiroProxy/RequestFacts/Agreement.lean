import KiroProxy.RequestFacts.StrictPass

/-!
# The probe agrees with the document

What is taken down member by member is, where no name comes twice, what a look at the members by
their names gives.
-/

namespace KiroProxy.RequestFacts

open JsonBytes Fallible

theorem map_name_entriesOf : ∀ (members : Members) (offset : ℕ),
    (entriesOf members offset).map Entry.name = names members
  | .last _ _ _ _ _ _, _ => rfl
  | .cons _ _ _ _ _ _ rest, _ => by
    rw [entriesOf, names, List.map_cons, map_name_entriesOf rest]

theorem depth_le_iff {n : ℕ} : ∀ (members : Members) (offset : ℕ),
    members.depth ≤ n ↔ ∀ e ∈ entriesOf members offset, e.value.depth ≤ n
  | .last _ _ _ _ _ _, _ => by
    rw [entriesOf, List.forall_mem_singleton]
    rfl
  | .cons _ _ _ _ _ _ rest, _ => by
    rw [entriesOf, List.forall_mem_cons, Members.depth, Nat.max_le, depth_le_iff rest]

section Find

variable {es : List Entry} {e : Entry} {name : Bytes}

theorem find?_of_mem (hnodup : (es.map Entry.name).Nodup) (he : e ∈ es) (hname : e.name = name) :
    es.find? (fun e => decide (e.name = name)) = some e := by
  induction es with
  | nil => cases he
  | cons first es ih =>
    rw [List.map_cons, List.nodup_cons] at hnodup
    rcases List.mem_cons.mp he with rfl | he
    · rw [List.find?_cons_of_pos (by simpa using hname)]
    · have hne : first.name ≠ name := by
        rintro rfl
        exact hnodup.1 (List.mem_map.mpr ⟨e, he, hname⟩)
      rw [List.find?_cons_of_neg (by simpa using hne)]
      exact ih hnodup.2 he

theorem find?_eq_none (h : name ∉ es.map Entry.name) :
    es.find? (fun e => decide (e.name = name)) = none := by
  rw [List.find?_eq_none]
  intro e he hname
  exact h (List.mem_map.mpr ⟨e, he, of_decide_eq_true hname⟩)

end Find

/-- A probe that has found these members, at most one for each key. -/
def taken (base : RawMessagesBodyProbe) (found : ProbedTopLevelKey → Option Entry) :
    RawMessagesBodyProbe :=
  { base with
    model := (found .model).bind fun e => e.value.asString
    stream := (found .stream).bind fun e => e.value.asBool
    topLevelCacheControl := (found .cacheControl).any fun e => decide (e.value.text ≠ nullText)
    maxTokensPresent := (found .maxTokens).isSome
    maxTokens := (found .maxTokens).bind fun e => e.value.asInteger
    modelValueSpan := (found .model).bind fun e => e.value.asString.map fun _ => e.span
    maxTokensValueSpan := (found .maxTokens).map Entry.span
    thinkingValueSpan := (found .thinking).map Entry.span
    outputConfigValueSpan := (found .outputConfig).map Entry.span
    duplicateThinkingField := false
    duplicateOutputConfigField := false
    modelFieldSeen := (found .model).isSome
    streamFieldSeen := (found .stream).isSome
    maxTokensFieldSeen := (found .maxTokens).isSome
    thinkingFieldSeen := (found .thinking).isSome
    outputConfigFieldSeen := (found .outputConfig).isSome
    duplicateModelField := false
    duplicateStreamField := false
    duplicateMaxTokensField := false }

section Taken

variable {base : RawMessagesBodyProbe} {found found' : ProbedTopLevelKey → Option Entry} {e : Entry}

theorem taken_congr (h : ∀ key, key ≠ .other → found key = found' key) :
    taken base found = taken base found' := by
  unfold taken
  rw [h .model (by decide), h .stream (by decide), h .maxTokens (by decide),
    h .thinking (by decide), h .outputConfig (by decide), h .cacheControl (by decide)]

theorem recordEntry_taken (hnew : found (probedKey e.name) = none) :
    recordEntry (taken base found) e =
      taken base (Function.update found (probedKey e.name) (some e)) := by
  unfold recordEntry
  cases hkey : probedKey e.name with
  | model =>
    rw [hkey] at hnew
    cases hs : e.value.asString <;> simp [taken, Function.update, hnew, hs]
  | stream =>
    rw [hkey] at hnew
    cases hb : e.value.asBool <;> simp [taken, Function.update, hnew, hb]
  | _ =>
    rw [hkey] at hnew
    simp [taken, Function.update, hnew]

theorem foldl_recordEntry {es : List Entry} (hnodup : (es.map Entry.name).Nodup)
    (hnew : ∀ e ∈ es, probedKey e.name ≠ .other → found (probedKey e.name) = none) :
    es.foldl recordEntry (taken base found) =
      taken base fun key =>
        (es.find? fun e => decide (e.name = nameOf key)).or (found key) := by
  induction es generalizing found with
  | nil => rfl
  | cons e es ih =>
    rw [List.map_cons, List.nodup_cons] at hnodup
    obtain ⟨hfirst, hrest⟩ := List.forall_mem_cons.mp hnew
    rw [List.foldl_cons]
    by_cases hkey : probedKey e.name = .other
    · have hsame : recordEntry (taken base found) e = taken base found := by
        unfold recordEntry
        rw [hkey]
      rw [hsame, ih hnodup.2 hrest]
      refine taken_congr fun key hne => ?_
      rw [List.find?_cons_of_neg]
      rw [decide_eq_true_eq, ← probedKey_eq_iff hne, hkey]
      exact hne.symm
    · have hname := (probedKey_eq_iff hkey).mp rfl
      have hlater (e') (he' : e' ∈ es) : probedKey e'.name ≠ probedKey e.name := by
        intro heq
        have hsame : e'.name = e.name := by rw [(probedKey_eq_iff hkey).mp heq, ← hname]
        exact hnodup.1 (List.mem_map.mpr ⟨e', he', hsame⟩)
      rw [recordEntry_taken (hfirst hkey), ih hnodup.2 fun e' he' hne => ?_]
      · refine taken_congr fun key hne => ?_
        by_cases hsame : probedKey e.name = key
        · subst hsame
          rw [Function.update_self, ← hname, find?_eq_none hnodup.1, Option.none_or,
            List.find?_cons_of_pos (by simp), Option.some_or]
        · rw [Function.update_of_ne (Ne.symm hsame), List.find?_cons_of_neg]
          rw [decide_eq_true_eq, ← probedKey_eq_iff hne]
          exact hsame
      · rw [Function.update_of_ne (hlater e' he')]
        exact hrest e' he' hne

end Taken

section Document

variable {serde : SerdeJson} {doc : Document}

theorem mem_member? {name : Bytes} {e : Entry} (h : e ∈ member? doc name) :
    e ∈ entries doc ∧ e.name = name := by
  unfold member? at h
  have hname := @List.find?_some Entry (fun e => decide (e.name = name)) e (entries doc) h
  exact ⟨List.mem_of_find?_eq_some h, of_decide_eq_true hname⟩

theorem nodup_entries (h : ∀ members ∈ objects doc.root, (names members).Nodup) :
    ((entries doc).map Entry.name).Nodup := by
  unfold entries
  split
  case h_1 members hroot =>
    rw [map_name_entriesOf]
    refine h members ?_
    rw [hroot, objects]
    exact List.mem_cons_self
  case h_2 => exact List.nodup_nil

theorem scanned_eq (hnodup : ((entries doc).map Entry.name).Nodup) :
    scanned doc = finished doc.text.length (closeBrace :: doc.after.1)
      (taken (started doc) fun key => member? doc (nameOf key)) := by
  have hstart : started doc = taken (started doc) fun _ => none := rfl
  rw [scanned, hstart, foldl_recordEntry hnodup fun _ _ _ => rfl]
  congr 1
  refine taken_congr fun key _ => ?_
  rw [Option.or_none, member?]

theorem agrees_scanned (hnodup : ((entries doc).map Entry.name).Nodup) (work depth : ℕ) :
    Agrees { scanned doc with scanWorkUnits := work, maxNestingDepth := depth } doc := by
  rw [scanned_eq hnodup]
  exact ⟨rfl, rfl, rfl, rfl, rfl, rfl, rfl, rfl, rfl, rfl, ⟨rfl, rfl, rfl, rfl, rfl⟩, rfl, rfl, rfl,
    rfl, rfl, rfl, rfl⟩

theorem depth_root_le_iff (hobject : IsObject doc.root) :
    doc.root.depth ≤ maxMessagesJsonNestingDepth ↔
      ∀ e ∈ entries doc, 1 + e.value.depth ≤ maxMessagesJsonNestingDepth := by
  unfold entries
  split
  case h_1 members hroot =>
    rw [hroot, Tree.depth, Nat.add_comm]
    have hiff := @depth_le_iff (maxMessagesJsonNestingDepth - 1) members (doc.before.1.length + 1)
    have hpos : 1 ≤ maxMessagesJsonNestingDepth := by decide
    constructor
    · intro h e he
      have hdepth := hiff.mp (by omega) e he
      omega
    · intro h
      have hdepth := hiff.mpr fun e he => (by have := h e he; omega)
      omega
  case h_2 hnot =>
    constructor
    · intro _ e he
      cases he
    · intro _
      cases hroot : doc.root <;> rw [hroot] at hobject
      case object members => exact absurd hroot (hnot members)
      case emptyObject => exact (by decide : 1 ≤ maxMessagesJsonNestingDepth)
      all_goals exact hobject.elim

theorem acceptable_iff : Acceptable doc ↔ (IsObject doc.root ∧ ∀ e ∈ entries doc, Admitted e) ∧
    ∃ m, visit doc.root 0 = .ok m := by
  rw [visit_root_iff]
  constructor
  · intro h
    have hdepth := (depth_root_le_iff h.object).mp h.depth
    have hnodup := nodup_entries h.distinct
    refine ⟨⟨h.object, fun e he => ⟨hdepth e he, fun hname => ?_⟩⟩,
      fun members hmem => ⟨h.distinct members hmem, h.objectKeys members hmem⟩, h.documentKeys⟩
    exact h.model e (find?_of_mem hnodup he hname)
  · rintro ⟨⟨hobject, hadmitted⟩, hfits, hcount⟩
    refine ⟨hobject, (depth_root_le_iff hobject).mpr fun e he => (hadmitted e he).1,
      fun members hmem => (hfits members hmem).1, fun members hmem => (hfits members hmem).2, hcount,
      fun e he => ?_⟩
    obtain ⟨hmem, hname⟩ := mem_member? he
    exact (hadmitted e hmem).2 hname

theorem exists_split_of_mem (space : Space) {e : Entry} : ∀ (members : Members) (offset : ℕ),
    e ∈ entriesOf members offset → ∃ before after : Bytes,
      members.text ++ closeBrace :: space.1 = before ++ (e.value.text ++ after) ∧
        e.start = offset + before.length
  | .last before token afterName beforeValue value after, offset, he => by
    obtain rfl := List.mem_singleton.mp he
    refine ⟨before.1 ++ (token.text ++ (afterName.1 ++ colon :: beforeValue.1)),
      after.1 ++ closeBrace :: space.1, ?_, ?_⟩
    · simp only [Members.text, List.append_assoc, List.cons_append]
    · simp only [List.length_append, List.length_cons]
      omega
  | .cons before token afterName beforeValue value after rest, offset, he => by
    rw [entriesOf_cons] at he
    rcases List.mem_cons.mp he with rfl | he
    · refine ⟨before.1 ++ (token.text ++ (afterName.1 ++ colon :: beforeValue.1)),
        after.1 ++ comma :: (rest.text ++ closeBrace :: space.1), ?_, ?_⟩
      · simp only [Members.text, entryAt, List.append_assoc, List.cons_append]
      · simp only [entryAt, List.length_append, List.length_cons]
        omega
    · obtain ⟨before', after', htext, hstart⟩ := exists_split_of_mem space rest _ he
      refine ⟨before.1 ++ (token.text ++ (afterName.1 ++ colon :: (beforeValue.1 ++ (value.text ++
        (after.1 ++ comma :: before'))))), after', ?_, ?_⟩
      · simp only [Members.text, List.append_assoc, List.cons_append, htext]
      · rw [hstart]
        simp only [entryAt, List.length_append, List.length_cons]
        omega

theorem slice_of_mem {e : Entry} (he : e ∈ entries doc) : slice doc.text e.span = e.value.text := by
  unfold entries at he
  split at he
  case h_1 members hroot =>
    obtain ⟨before, after, htext, hstart⟩ := exists_split_of_mem doc.after members _ he
    have hsplit : doc.text = (doc.before.1 ++ openBrace :: before) ++ (e.value.text ++ after) := by
      rw [text_of_object hroot, htext, List.append_assoc, List.cons_append]
    have hlength : e.start = (doc.before.1 ++ openBrace :: before).length := by
      rw [hstart, List.length_append, List.length_cons]
      omega
    rw [slice, Entry.span, hsplit, hlength, List.drop_left, Nat.add_sub_cancel_left, List.take_left]
  case h_2 => cases he

end Document

section Probing

variable {serde : SerdeJson} {body : Bytes}

section Short

variable (hlength : body.length ≤ maxMessagesBodySize)

include hlength

theorem two_mul_length_le : 2 * body.length ≤ maxRawBodyProbeWorkUnits := by
  unfold maxRawBodyProbeWorkUnits
  omega

theorem probe_eq {scan : Except JsonScanError Unit} {s : Probing}
    (hscan : (scanTopLevelObject serde body.length body).exec
      { budget := { remaining := maxRawBodyProbeWorkUnits } } = (scan, s)) :
    probeRawMessagesBody serde body =
      let probe := { s.probe with
        scanWorkUnits := s.budget.consumed
        maxNestingDepth := s.budget.maxDepth }
      match scanResult serde body scan with
      | .error e => { probe with scanError := some (.from e) }
      | .ok _ =>
        if probe.completeTopLevelObject = false then
          { probe with scanError := some .malformedTopLevelJson }
        else probe := by
  rw [probeRawMessagesBody, if_neg (not_lt.mpr hlength)]
  dsimp only
  rewrite [hscan]
  rfl

theorem scanError_isSome_of_error {scan : Except JsonScanError Unit} {s : Probing}
    {e : JsonScanError}
    (hscan : (scanTopLevelObject serde body.length body).exec
      { budget := { remaining := maxRawBodyProbeWorkUnits } } = (scan, s))
    (herror : scanResult serde body scan = .error e) :
    (probeRawMessagesBody serde body).scanError = some (.from e) := by
  rw [probe_eq hlength hscan, herror]

theorem scanError_of_not_parsed (hparse : serde.parse body = none) :
    (probeRawMessagesBody serde body).scanError ≠ none := by
  rcases hscan : (scanTopLevelObject serde body.length body).exec
    { budget := { remaining := maxRawBodyProbeWorkUnits } } with ⟨scan, s⟩
  have herror : ∃ e, scanResult serde body scan = .error e := by
    cases scan with
    | error e => exact ⟨e, rfl⟩
    | ok _ =>
      rw [scanResult, validateCompleteJsonDocument, hparse]
      cases serde.foundBeforeError body with
      | none => exact ⟨_, rfl⟩
      | some failure => exact ⟨_, rfl⟩
  obtain ⟨e, herror⟩ := herror
  rw [scanError_isSome_of_error hlength hscan herror]
  exact Option.some_ne_none _

theorem scanError_of_not_acceptable {doc : Document}
    (hparse : serde.parse body = some doc) (h : ¬Acceptable doc) :
    (probeRawMessagesBody serde body).scanError ≠ none := by
  have htext := serde.text_of_parse hparse
  have hbudget := two_mul_length_le hlength
  rw [← htext] at hbudget
  suffices herror : ∃ scan s e, (scanTopLevelObject serde body.length body).exec
      { budget := { remaining := maxRawBodyProbeWorkUnits } } = (scan, s) ∧
      scanResult serde body scan = .error e by
    obtain ⟨scan, s, e, hscan, herror⟩ := herror
    rw [scanError_isSome_of_error hlength hscan herror]
    exact Option.some_ne_none _
  by_cases hadmitted : IsObject doc.root ∧ ∀ e ∈ entries doc, Admitted e
  · obtain ⟨b', hscan⟩ := @exec_scan_ok serde doc hadmitted.1 hadmitted.2
      { remaining := maxRawBodyProbeWorkUnits } hbudget
    rw [htext] at hscan
    have hvisit : ∀ m, visit doc.root 0 ≠ .ok m := fun m hm =>
      h (acceptable_iff.mpr ⟨hadmitted, m, hm⟩)
    rw [hscan]
    cases hresult : visit doc.root 0 with
    | ok m => exact absurd hresult (hvisit m)
    | error failure =>
      refine ⟨_, _, .fromFailure failure, rfl, ?_⟩
      rw [scanResult, validateCompleteJsonDocument, hparse]
      dsimp only
      rw [hresult]
  · obtain ⟨e, s, hscan⟩ := @exec_scan_error serde doc hadmitted
      { remaining := maxRawBodyProbeWorkUnits } hbudget
    rw [htext] at hscan
    exact ⟨_, _, e, hscan, rfl⟩

theorem probe_of_acceptable {doc : Document}
    (hparse : serde.parse body = some doc) (h : Acceptable doc) : ∃ work depth,
    probeRawMessagesBody serde body =
      { scanned doc with scanWorkUnits := work, maxNestingDepth := depth } := by
  have htext := serde.text_of_parse hparse
  have hbudget := two_mul_length_le hlength
  rw [← htext] at hbudget
  obtain ⟨⟨hobject, hadmitted⟩, m, hvisit⟩ := acceptable_iff.mp h
  obtain ⟨b', hscan⟩ := @exec_scan_ok serde doc hobject hadmitted
    { remaining := maxRawBodyProbeWorkUnits } hbudget
  rw [htext] at hscan
  refine ⟨b'.consumed, b'.maxDepth, ?_⟩
  rw [probe_eq hlength hscan, scanResult, validateCompleteJsonDocument, hparse]
  dsimp only
  rw [hvisit]
  rfl

end Short

theorem scanError_scanned {doc : Document} (h : Acceptable doc) :
    (scanned doc).scanError = none := by
  rw [scanned_eq (nodup_entries h.distinct)]
  rfl

/-- A body of the size allowed has no scan error if and only if it is a document with an object at
the top and within the limits; the probe then agrees with it, and each place is that of the value. -/
theorem probeRawMessagesBody_correct (serde : SerdeJson) (body : Bytes)
    (hlength : body.length ≤ maxMessagesBodySize) :
    ((probeRawMessagesBody serde body).scanError = none ↔
      ∃ doc, serde.parse body = some doc ∧ Acceptable doc) ∧
    ∀ doc, serde.parse body = some doc → (probeRawMessagesBody serde body).scanError = none →
      Agrees (probeRawMessagesBody serde body) doc ∧
      ∀ e ∈ entries doc, slice body e.span = e.value.text := by
  have hiff : (probeRawMessagesBody serde body).scanError = none ↔
      ∃ doc, serde.parse body = some doc ∧ Acceptable doc := by
    constructor
    · intro hnone
      cases hparse : serde.parse body with
      | none => exact absurd hnone (scanError_of_not_parsed hlength hparse)
      | some doc =>
        by_contra hnot
        exact scanError_of_not_acceptable hlength hparse (fun h => hnot ⟨doc, rfl, h⟩) hnone
    · rintro ⟨doc, hparse, h⟩
      obtain ⟨work, depth, heq⟩ := probe_of_acceptable hlength hparse h
      rw [heq]
      exact scanError_scanned h
  refine ⟨hiff, fun doc hparse hnone => ⟨?_, fun e he => ?_⟩⟩
  · obtain ⟨doc', hparse', h⟩ := hiff.mp hnone
    obtain rfl := Option.some.inj (hparse.symm.trans hparse')
    obtain ⟨work, depth, heq⟩ := probe_of_acceptable hlength hparse h
    rw [heq]
    exact agrees_scanned (nodup_entries h.distinct) work depth
  · rw [← serde.text_of_parse hparse]
    exact slice_of_mem he

end Probing

section OneDocument

/-- A string token is read between its quotation marks. -/
def readString (text : Bytes) : Option Bytes := do
  let s ← unescape text.tail.dropLast
  if isUtf8 s = true then some s else none

theorem readString_text (token : StringToken) : readString token.text = some token.decoded := by
  obtain ⟨s, hs, hutf8⟩ := token.2
  have htext : token.text.tail.dropLast = token.1 := List.dropLast_concat
  rw [readString, htext, StringToken.decoded, hs]
  exact if_pos hutf8

theorem integerOf_text (tree : Tree) : integerOf tree.text = tree.asInteger := by
  obtain ⟨b, text, htext, hleads⟩ := exists_leads tree
  cases tree with
  | number token => rfl
  | _ =>
    rw [htext]
    obtain rfl := hleads
    rfl

/-- A parser that knows one document only. -/
def onlyDocument (doc : Document) : SerdeJson where
  parse bytes := if bytes = doc.text then some doc else none
  foundBeforeError _ := none
  parseString := readString
  parseInteger := integerOf
  text_of_parse h := by
    split_ifs at h with heq
    rw [← Option.some.inj h, heq]
  parseString_text := readString_text
  parseInteger_text := integerOf_text

def modelToken : StringToken := ⟨modelName, modelName, by decide⟩

def escapedToken : StringToken :=
  ⟨[0x6d, 0x6f, backslash, 0x75, 0x30, 0x30, 0x36, 0x34, 0x65, 0x6c], modelName, by decide⟩

def noSpace : Space := ⟨[], by simp⟩

def modelDocument : Document where
  before := noSpace
  root := .object (.last noSpace escapedToken noSpace noSpace (.string modelToken) noSpace)
  after := noSpace

theorem acceptable_modelDocument : Acceptable modelDocument where
  object := trivial
  depth := by decide
  distinct := by decide
  objectKeys := by decide
  documentKeys := by decide
  model := by decide

theorem probeRawMessagesBody_correct_model :
    Agrees (probeRawMessagesBody (onlyDocument modelDocument) modelDocument.text) modelDocument := by
  obtain ⟨hiff, hagrees⟩ := probeRawMessagesBody_correct (onlyDocument modelDocument)
    modelDocument.text (by decide)
  have hparse : (onlyDocument modelDocument).parse modelDocument.text = some modelDocument := by
    simp [onlyDocument]
  exact (hagrees modelDocument hparse (hiff.mpr ⟨modelDocument, hparse, acceptable_modelDocument⟩)).1

end OneDocument

end KiroProxy.RequestFacts
