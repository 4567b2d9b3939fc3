import KiroProxy.RequestFacts.Replaced

/-!
# What a rewritten body says

The four rewrites make their edits at places that the probe has found, and so each gives the text
of the document with the members it names replaced or added.
-/

namespace KiroProxy.RequestFacts

open JsonBytes Splicing

section Rewrites

variable {N : Type} {serde : SerdeValues N} {body : Bytes} {doc : Document}
  {probe : RawMessagesBodyProbe}

theorem spliceEdits_singleton (span : Span) (text : Bytes) :
    spliceEdits body [editOf span text] = body.take span.start ++ text ++ body.drop span.stop := by
  rw [spliceEdits, List.insertionSort_cons, List.insertionSort_nil, List.orderedInsert_nil, splice,
    splice, editOf, List.drop_zero, Nat.sub_zero, List.append_assoc]

variable {e : Entry} {tree : Tree} {out : Bytes} {limit : Option ℤ}

theorem spliceEdits_same (he : e ∈ entries doc) :
    spliceEdits doc.text [editOf e.span e.value.text] = doc.text := by
  have hslice : (doc.text.drop e.start).take (e.start + e.value.text.length - e.start) =
    e.value.text := slice_of_mem he
  rw [Nat.add_sub_cancel_left] at hslice
  have hsplit := List.take_append_drop e.value.text.length (doc.text.drop e.start)
  rw [hslice, List.drop_drop] at hsplit
  rw [spliceEdits_singleton, List.append_assoc]
  change doc.text.take e.start ++ (e.value.text ++ doc.text.drop (e.start + e.value.text.length)) = _
  rw [hsplit, List.take_append_drop]

theorem replaces_of_mem (hnodup : ((entries doc).map Entry.name).Nodup) (he : e ∈ entries doc) :
    Replaces doc [(e.name, tree)] (spliceEdits doc.text [editOf e.span tree.text]) :=
  @replaces_picks doc [(e, tree)] hnodup (List.forall_mem_singleton.mpr he)
    (List.nodup_singleton _)

theorem asString_eq_some {s : Bytes} (h : tree.asString = some s) :
    ∃ token : StringToken, tree = .string token ∧ token.decoded = s := by
  cases tree with
  | string token => exact ⟨token, rfl, Option.some.inj h⟩
  | _ => cases h

theorem replaces_rewriteRawTopLevelModel (hscan : probe.scanError = none)
    (hagrees : Agrees probe doc) (hnodup : ((entries doc).map Entry.name).Nodup) {model : Utf8}
    (h : rewriteRawTopLevelModelWithProbe doc.text probe model = .ok out) :
    ∃ token : StringToken, token.decoded = model.1 ∧
      Replaces doc [(modelName, .string token)] out := by
  rw [rewriteRawTopLevelModelWithProbe, hscan, hagrees.duplicates.1, hagrees.modelValueSpan,
    hagrees.model] at h
  dsimp only at h
  rw [if_neg Bool.false_ne_true] at h
  cases hfound : member? doc modelName with
  | none =>
    rw [hfound] at h
    cases h
  | some e =>
    obtain ⟨he, hname⟩ := mem_member? hfound
    rw [hfound, Option.bind_some, Option.bind_some] at h
    cases hstring : e.value.asString with
    | none =>
      rw [hstring] at h
      cases h
    | some s =>
      obtain ⟨token, hvalue, hdecoded⟩ := asString_eq_some hstring
      rw [hstring, Option.map_some] at h
      dsimp only at h
      by_cases hsame : some s = some model.1
      · rw [if_pos hsame] at h
        obtain rfl := Except.ok.inj h
        refine ⟨token, hdecoded.trans (Option.some.inj hsame), ?_⟩
        have hreplaces := @replaces_of_mem doc e (.string token) hnodup he
        rw [← hvalue, spliceEdits_same he, hname] at hreplaces
        rwa [← hvalue]
      · rw [if_neg hsame] at h
        obtain rfl := Except.ok.inj h
        refine ⟨.ofUtf8 model, decoded_ofUtf8 model, ?_⟩
        have hreplaces := @replaces_of_mem doc e (.string (.ofUtf8 model)) hnodup he
        rw [spliceEdits_singleton, hname] at hreplaces
        exact hreplaces

def maxTokensToken : StringToken :=
  .ofUtf8 ⟨maxTokensName, by decide⟩

theorem addedText_maxTokens (n : ℤ) : addedText maxTokensToken (.number (integerToken n)) =
    bytesOf "\"max_tokens\":" ++ (integerToken n).1 := by
  have hname : maxTokensToken.text ++ [colon] = bytesOf "\"max_tokens\":" := by decide
  rw [addedText, ← hname, List.append_assoc]
  rfl

theorem any_not_whitespace_space (space : Space) :
    (space.1.any fun byte => !isAsciiWhitespace byte) = false := by
  rw [List.any_eq_false]
  intro b hb
  rw [isAsciiWhitespace_of_isSpace (space.2 b hb)]
  decide

theorem any_not_whitespace_members (members : Members) :
    (members.text.any fun byte => !isAsciiWhitespace byte) = true := by
  have hquote : quote ∈ members.text := by
    cases members <;>
    · rw [Members.text, StringToken.text]
      simp only [List.mem_append, List.mem_cons, true_or, or_true]
  exact List.any_eq_true.mpr ⟨quote, hquote, rfl⟩

theorem text_first (space : Space) (name : StringToken) (value : Tree) :
    (Members.last space name .empty .empty value .empty).text = space.1 ++ addedText name value := by
  simp only [Members.text, addedText, Space.empty, List.nil_append, List.append_nil]

theorem adds_of_text {name : StringToken} {value : Tree} {front back out : Bytes}
    (habsent : member? doc name.decoded = none) (htext : doc.text = front ++ back)
    (hout : out = front ++ (if entries doc = [] then addedText name value
      else comma :: addedText name value) ++ back)
    (hadd : (doc.add name value).text = out) : Adds doc name value out where
  absent := habsent
  document read := by
    rw [← hadd]
    exact ⟨Document.text_injective, fun h => congrArg Document.text h⟩
  root readNumber fields v hvalue hfields := value_addMember hvalue hfields
  kept := ⟨front, back, htext, hout⟩

theorem cut_object {text before inner after : Bytes}
    (htext : text = before ++ openBrace :: (inner ++ closeBrace :: after)) :
    slice text ⟨before.length + 1, text.length - (after.length + 1)⟩ = inner ∧
      text.take (text.length - (after.length + 1)) = before ++ openBrace :: inner ∧
      text.drop (text.length - (after.length + 1)) = closeBrace :: after := by
  have hsplit : text = (before ++ openBrace :: inner) ++ closeBrace :: after := by
    rw [htext, List.append_assoc, List.cons_append]
  have hcut : text.length - (after.length + 1) = (before ++ openBrace :: inner).length := by
    rw [hsplit, List.length_append, List.length_cons, Nat.add_sub_cancel]
  have hinner : (before ++ openBrace :: inner).length - (before.length + 1) = inner.length := by
    rw [List.length_append, List.length_cons]
    omega
  refine ⟨?_, ?_, ?_⟩
  · have hdrop : text.drop (before.length + 1) = inner ++ closeBrace :: after := by
      rw [htext, List.drop_append, List.drop_of_length_le (Nat.le_succ _), Nat.add_sub_cancel_left]
      rfl
    rw [slice, hcut, hdrop, hinner, List.take_left]
  · rw [hcut, hsplit, List.take_left]
  · rw [hcut, hsplit, List.drop_left]

theorem adds_rewriteRawMissingTopLevelMaxTokens (hobject : IsObject doc.root)
    (hscan : probe.scanError = none) (hagrees : Agrees probe doc) {defaultValue : ℤ}
    (h : rewriteRawMissingTopLevelMaxTokensWithProbe doc.text probe defaultValue = .ok (some out)) :
    Adds doc maxTokensToken (.number (integerToken defaultValue)) out := by
  rw [rewriteRawMissingTopLevelMaxTokensWithProbe, hscan, hagrees.maxTokensPresent,
    hagrees.completeTopLevelObject, hagrees.objectStartIndex, hagrees.objectEndIndex] at h
  dsimp only at h
  have habsent : member? doc maxTokensName = none := by
    by_contra hne
    rw [if_pos (Option.isSome_iff_ne_none.mpr hne)] at h
    cases h
  rw [habsent, if_neg (by decide), if_neg (by decide), ← addedText_maxTokens] at h
  have hout := (Option.some.inj (Except.ok.inj h)).symm
  cases hroot : doc.root <;> rw [hroot] at hobject
  case emptyObject space =>
    have hentries : entries doc = [] := by rw [entries, hroot]
    have hadd : (doc.add maxTokensToken (.number (integerToken defaultValue))).root =
        .object (.last space maxTokensToken .empty .empty (.number (integerToken defaultValue))
          .empty) := by
      rw [Document.add, hroot, Tree.addMember]
    obtain ⟨hslice, htake, hdrop⟩ := cut_object (text_of_emptyObject hroot)
    rw [hslice, htake, hdrop, any_not_whitespace_space, if_neg Bool.false_ne_true] at hout
    refine adds_of_text habsent (htake ▸ hdrop ▸ (List.take_append_drop _ _).symm) ?_ ?_
    · rw [hentries, if_pos rfl]
      exact hout
    · rw [text_of_object hadd, hout, text_first]
      simp only [List.append_assoc, List.cons_append]
      rfl
  case object members =>
    have hentries : entries doc ≠ [] := by
      rw [entries, hroot]
      cases members <;> exact List.cons_ne_nil _ _
    have hadd : (doc.add maxTokensToken (.number (integerToken defaultValue))).root =
        .object (members.add maxTokensToken (.number (integerToken defaultValue))) := by
      rw [Document.add, hroot, Tree.addMember]
    obtain ⟨hslice, htake, hdrop⟩ := cut_object (text_of_object hroot)
    rw [hslice, htake, hdrop, any_not_whitespace_members, if_pos rfl] at hout
    refine adds_of_text habsent (htake ▸ hdrop ▸ (List.take_append_drop _ _).symm) ?_ ?_
    · rw [if_neg hentries]
      exact hout
    · rw [text_of_object hadd, hout, text_add]
      simp only [List.append_assoc, List.cons_append]
      rfl
  all_goals exact hobject.elim

def memberValue (readNumber : NumberToken → Option N) (doc : Document) (name : Bytes) :
    Option (Value N) :=
  (member? doc name).bind fun e => e.value.value readNumber

theorem parseBoundedProtocolValue_eq_ok {span : Span} {value : Value N} :
    parseBoundedProtocolValue serde body (some span) = .ok (some value) ↔
      span.stop - span.start ≤ maxReasoningProtocolFieldBytes ∧
        serde.fromSlice (slice body span) = .ok value := by
  rw [parseBoundedProtocolValue]
  by_cases hlength : maxReasoningProtocolFieldBytes < span.stop - span.start
  · rw [if_pos hlength]
    exact ⟨nofun, fun h => absurd h.1 (not_le.mpr hlength)⟩
  · rw [if_neg hlength]
    cases serde.fromSlice (slice body span) with
    | error e => exact ⟨nofun, fun h => nomatch h.2⟩
    | ok value' =>
      constructor
      · intro h
        exact ⟨not_lt.mp hlength, congrArg _ (Option.some.inj (Except.ok.inj h))⟩
      · intro h
        exact congrArg (fun v => Except.ok (some v)) (Except.ok.inj h.2)

theorem controlFields_eq_ok {span : Span} {fields : Fields N} :
    controlFields serde body span = .ok (some fields) ↔
      jsonObjectHasDuplicateKeys serde.toSerdeJson (slice body span) = .ok false ∧
        span.stop - span.start ≤ maxReasoningProtocolFieldBytes ∧
        serde.fromSlice (slice body span) = .ok (.object fields) := by
  rw [← parseBoundedProtocolValue_eq_ok, controlFields]
  cases jsonObjectHasDuplicateKeys serde.toSerdeJson (slice body span) with
  | error e => exact ⟨nofun, fun h => nomatch h.1⟩
  | ok duplicate =>
    cases duplicate with
    | true => exact ⟨nofun, fun h => nomatch h.1⟩
    | false =>
      cases parseBoundedProtocolValue serde body (some span) with
      | error e => exact ⟨nofun, fun h => nomatch h.2⟩
      | ok parsed =>
        cases parsed with
        | none => exact ⟨nofun, fun h => nomatch h.2⟩
        | some value =>
          cases value with
          | object fields' =>
            constructor
            · intro h
              exact ⟨rfl, congrArg (fun f => Except.ok (some (Value.object f)))
                (Option.some.inj (Except.ok.inj h))⟩
            · rintro ⟨-, h⟩
              cases h
              rfl
          | _ => exact ⟨nofun, fun h => nomatch h.2⟩

theorem fields_of_controlFields {fields : Fields N} (he : e ∈ entries doc)
    (h : controlFields serde doc.text e.span = .ok (some fields)) :
    e.value.value serde.readNumber = some (.object fields) := by
  obtain ⟨-, -, hparse⟩ := controlFields_eq_ok.mp h
  rw [slice_of_mem he] at hparse
  exact serde.value_of_fromSlice hparse

def Decision.maxTokensChange (decision : Decision N) : Option Tree :=
  if decision.rewriteMaxTokens = true then some (.number (integerToken decision.maxTokens)) else none

def Decision.thinkingChange (serde : SerdeValues N) (decision : Decision N) : Option Tree :=
  decision.thinking.map fun fields => (Value.object fields).tree serde.numberText

/-- What is replaced, under the names of the two members. -/
def Decision.changes (serde : SerdeValues N) (decision : Decision N) : List (Bytes × Tree) :=
  (decision.maxTokensChange.map fun tree => (maxTokensName, tree)).toList ++
    (decision.thinkingChange serde |>.map fun tree => (thinkingName, tree)).toList

/-- A new body is made where there is an object to decide about and something to replace. -/
theorem exists_decision (hscan : probe.scanError = none) (hagrees : Agrees probe doc)
    {result : RawReasoningProtocolNormalization}
    (h : normalizeRawReasoningProtocolWithProbeAndLimit serde body probe limit =
      .ok (some result)) :
    ∃ e ∈ member? doc thinkingName, ∃ fields thinkingType maxTokens decision,
      controlFields serde body e.span = .ok (some fields) ∧
      (KeyedList.get typeKey fields).bind Value.asStr = some thinkingType ∧
      probe.maxTokens = some maxTokens ∧
      decisionFor serde fields thinkingType maxTokens limit = some decision ∧
      applyDecision serde body probe e.span decision = some result.body ∧
      result.originalMaxTokens = some maxTokens ∧
      result.normalizedMaxTokens = some decision.maxTokens ∧
      result.normalizedBudgetTokens = decision.budget := by
  rw [normalizeRawReasoningProtocolWithProbeAndLimit, hagrees.duplicates.2.2.1,
    hagrees.duplicates.2.2.2.1, hscan, hagrees.thinkingValueSpan] at h
  rw [if_neg (by decide)] at h
  cases hfound : member? doc thinkingName with
  | none =>
    rw [hfound] at h
    cases h
  | some e =>
    rw [hfound, Option.map_some] at h
    refine ⟨e, rfl, ?_⟩
    dsimp only at h
    cases hfields : controlFields serde body e.span with
    | error e =>
      rw [hfields] at h
      cases h
    | ok parsed =>
      cases parsed with
      | none =>
        rw [hfields] at h
        cases h
      | some fields =>
        rw [hfields] at h
        have hsome := Except.ok.inj h
        obtain ⟨thinkingType, htype, hsome⟩ := Option.bind_eq_some_iff.mp hsome
        obtain ⟨maxTokens, hmax, hsome⟩ := Option.bind_eq_some_iff.mp hsome
        obtain ⟨-, -, hsome⟩ := Option.bind_eq_some_iff.mp hsome
        obtain ⟨decision, hdecision, hsome⟩ := Option.bind_eq_some_iff.mp hsome
        obtain ⟨out, hout, hsome⟩ := Option.bind_eq_some_iff.mp hsome
        obtain rfl := Option.some.inj hsome
        exact ⟨fields, thinkingType, maxTokens, decision, rfl, htype, hmax, hdecision, hout, hmax,
          rfl, rfl⟩

theorem replaces_two (hnodup : ((entries doc).map Entry.name).Nodup) {name name' : Bytes}
    (hne : name ≠ name') {pick pick' : Option (Entry × Tree)}
    (hpick : ∀ p ∈ pick, p.1 ∈ member? doc name) (hpick' : ∀ p ∈ pick', p.1 ∈ member? doc name') :
    Replaces doc ((pick.map pickedChange).toList ++ (pick'.map pickedChange).toList)
      (spliceEdits doc.text ((pick.map pickedEdit).toList ++ (pick'.map pickedEdit).toList)) := by
  have hmem : ∀ p ∈ pick.toList ++ pick'.toList, p.1 ∈ entries doc := by
    intro p hp
    rcases List.mem_append.mp hp with hp | hp
    · exact (mem_member? (hpick p (Option.mem_toList.mp hp))).1
    · exact (mem_member? (hpick' p (Option.mem_toList.mp hp))).1
  have hnames : ((pick.toList ++ pick'.toList).map fun p => p.1.name).Nodup := by
    cases pick with
    | none =>
      cases pick' with
      | none => exact List.nodup_nil
      | some p' => exact List.nodup_singleton _
    | some p =>
      cases pick' with
      | none => exact List.nodup_singleton _
      | some p' =>
        have hname := (mem_member? (hpick p rfl)).2
        have hname' := (mem_member? (hpick' p' rfl)).2
        refine List.nodup_cons.mpr ⟨fun h => hne ?_, List.nodup_singleton _⟩
        rw [← hname, ← hname']
        exact List.mem_singleton.mp h
  have hreplaces := replaces_picks hnodup hmem hnames
  cases pick <;> cases pick' <;> exact hreplaces

theorem replaces_applyDecision (hnodup : ((entries doc).map Entry.name).Nodup)
    (hagrees : Agrees probe doc) (he : e ∈ member? doc thinkingName) {decision : Decision N}
    (h : applyDecision serde doc.text probe e.span decision = some out) :
    decision.changes serde ≠ [] ∧ Replaces doc (decision.changes serde) out := by
  have hname := (mem_member? he).2
  have hpick : ∀ p ∈ (decision.thinkingChange serde).map (Prod.mk e), p.1 ∈ member? doc thinkingName := by
    intro p hp
    obtain ⟨tree, -, rfl⟩ := Option.map_eq_some_iff.mp hp
    exact he
  have hedit : (decision.thinking.map fun fields => editOf e.span (toVec serde fields)) =
      ((decision.thinkingChange serde).map (Prod.mk e)).map pickedEdit := by
    rw [Decision.thinkingChange, Option.map_map, Option.map_map]
    rfl
  have hchange : ((decision.thinkingChange serde).map (Prod.mk e)).map pickedChange =
      (decision.thinkingChange serde).map fun tree => (thinkingName, tree) := by
    rw [Option.map_map, ← hname]
    rfl
  rw [applyDecision, hagrees.maxTokensValueSpan, hedit] at h
  rw [Decision.changes, ← hchange]
  by_cases hrewrite : decision.rewriteMaxTokens = true
  · rw [if_pos hrewrite, Option.map_map] at h
    obtain ⟨e', he', rfl⟩ := Option.map_eq_some_iff.mp h
    have hname' := (mem_member? he').2
    have hmax : ∀ p ∈ some (e', Tree.number (integerToken decision.maxTokens)),
        p.1 ∈ member? doc maxTokensName := by
      rintro p ⟨⟩
      exact he'
    have hreplaces := replaces_two hnodup (by decide) hmax hpick
    rw [Option.map_some, pickedChange, hname'] at hreplaces
    rw [Decision.maxTokensChange, if_pos hrewrite]
    exact ⟨List.cons_ne_nil _ _, hreplaces⟩
  · have hmax : ∀ p ∈ (none : Option (Entry × Tree)), p.1 ∈ member? doc maxTokensName := by
      rintro _ ⟨⟩
    have hreplaces := replaces_two hnodup (by decide) hmax hpick
    rw [if_neg hrewrite] at h
    rw [Decision.maxTokensChange, if_neg hrewrite]
    cases hthinking : decision.thinking with
    | none =>
      rw [hthinking] at h
      cases h
    | some fields =>
      rw [hthinking, Option.isSome_some, if_pos rfl] at h
      obtain rfl := Option.some.inj h
      refine ⟨?_, hreplaces⟩
      rw [Decision.thinkingChange, hthinking]
      exact List.cons_ne_nil _ _

def withBudget (serde : SerdeValues N) (thinking : Fields N) : Option ℤ → Fields N
  | some budget => thinking.insert budgetTokensKey (.number (serde.fromI32 budget))
  | none => KeyedList.remove budgetTokensKey thinking

theorem thinking_of_decisionFor {thinking fields : Fields N} {thinkingType : Utf8} {maxTokens : ℤ}
    {decision : Decision N}
    (h : decisionFor serde thinking thinkingType maxTokens limit = some decision)
    (hfields : decision.thinking = some fields) :
    fields = withBudget serde thinking decision.budget := by
  rw [decisionFor] at h
  by_cases henabled : thinkingType.1 = bytesOf "enabled"
  · rw [if_pos henabled] at h
    dsimp only at h
    split_ifs at h
    obtain ⟨result, -, rfl⟩ := Option.map_eq_some_iff.mp h
    dsimp only at hfields
    split_ifs at hfields
    exact (Option.some.inj hfields).symm
  · rw [if_neg henabled] at h
    split_ifs at h
    obtain rfl := Option.some.inj h
    dsimp only at hfields
    split_ifs at hfields
    exact (Option.some.inj hfields).symm

theorem fst_sublist (change : Option Tree) (name : Bytes) :
    ((change.map fun tree => (name, tree)).toList.map Prod.fst).Sublist [name] := by
  cases change with
  | none => exact List.nil_sublist _
  | some tree => exact List.Sublist.refl _

theorem replaces_normalizeRawReasoningProtocol (hnodup : ((entries doc).map Entry.name).Nodup)
    (hscan : probe.scanError = none) (hagrees : Agrees probe doc)
    {result : RawReasoningProtocolNormalization}
    (h : normalizeRawReasoningProtocolWithProbeAndLimit serde doc.text probe limit =
      .ok (some result)) :
    ∃ fields changes, memberValue serde.readNumber doc thinkingName = some (.object fields) ∧
      Replaces doc changes result.body ∧ changes ≠ [] ∧
      (changes.map Prod.fst).Sublist [maxTokensName, thinkingName] ∧
      (∀ tree, (maxTokensName, tree) ∈ changes →
        ∃ n, result.normalizedMaxTokens = some n ∧ tree = .number (integerToken n)) ∧
      ∀ tree, (thinkingName, tree) ∈ changes →
        tree = (Value.object (withBudget serde fields result.normalizedBudgetTokens)).tree
          serde.numberText := by
  obtain ⟨e, he, fields, thinkingType, maxTokens, decision, hfields, -, -, hdecision, hout, -, hmax,
    hbudget⟩ := exists_decision hscan hagrees h
  obtain ⟨hne, hreplaces⟩ := replaces_applyDecision hnodup hagrees he hout
  have hvalue := fields_of_controlFields (mem_member? he).1 hfields
  have hmember : memberValue serde.readNumber doc thinkingName = some (.object fields) := by
    rw [memberValue, he, Option.bind_some, hvalue]
  refine ⟨fields, decision.changes serde, hmember, hreplaces, hne, ?_, fun tree htree => ?_,
    fun tree htree => ?_⟩
  · rw [Decision.changes, List.map_append]
    exact (fst_sublist _ _).append (fst_sublist _ _)
  · rw [Decision.changes] at htree
    rcases List.mem_append.mp htree with htree | htree
    · obtain ⟨tree', hchange, heq⟩ := Option.map_eq_some_iff.mp (Option.mem_toList.mp htree)
      obtain rfl := (Prod.mk.inj heq).2
      rw [Decision.maxTokensChange] at hchange
      split_ifs at hchange
      exact ⟨decision.maxTokens, hmax, (Option.some.inj hchange).symm⟩
    · obtain ⟨tree', -, heq⟩ := Option.map_eq_some_iff.mp (Option.mem_toList.mp htree)
      exact absurd (Prod.mk.inj heq).1 (by decide)
  · rw [Decision.changes] at htree
    rcases List.mem_append.mp htree with htree | htree
    · obtain ⟨tree', -, heq⟩ := Option.map_eq_some_iff.mp (Option.mem_toList.mp htree)
      exact absurd (Prod.mk.inj heq).1 (by decide)
    · obtain ⟨tree', hchange, heq⟩ := Option.map_eq_some_iff.mp (Option.mem_toList.mp htree)
      obtain rfl := (Prod.mk.inj heq).2
      obtain ⟨fields', hthinking, rfl⟩ := Option.map_eq_some_iff.mp hchange
      rw [hbudget, thinking_of_decisionFor hdecision hthinking]

def ChangedControl (serde : SerdeValues N) (change : Fields N → Option (Fields N)) (doc : Document)
    (name : Bytes) (tree : Tree) : Prop :=
  ∃ fields fields', memberValue serde.readNumber doc name = some (.object fields) ∧
    change fields = some fields' ∧ tree = (Value.object fields').tree serde.numberText

theorem exists_pick {change : Fields N → Option (Fields N)} {name : Bytes}
    {edits : List (Edit UInt8)}
    (h : controlEdit serde doc.text false ((member? doc name).map Entry.span) change = .ok edits) :
    ∃ pick : Option (Entry × Tree), edits = (pick.map pickedEdit).toList ∧
      ∀ p ∈ pick, p.1 ∈ member? doc name ∧ ChangedControl serde change doc name p.2 := by
  unfold controlEdit at h
  rw [if_neg Bool.false_ne_true] at h
  cases hfound : member? doc name with
  | none =>
    rw [hfound] at h
    obtain rfl := Except.ok.inj h
    exact ⟨none, rfl, nofun⟩
  | some e =>
    rw [hfound, Option.map_some] at h
    dsimp only at h
    cases hfields : controlFields serde doc.text e.span with
    | error e =>
      rw [hfields] at h
      cases h
    | ok parsed =>
      rw [hfields] at h
      cases parsed with
      | none =>
        obtain rfl := Except.ok.inj h
        exact ⟨none, rfl, nofun⟩
      | some fields =>
        obtain rfl := Except.ok.inj h
        have hvalue := fields_of_controlFields (mem_member? hfound).1 hfields
        refine ⟨(change fields).map fun fields' =>
          (e, (Value.object fields').tree serde.numberText), ?_, ?_⟩
        · rw [Option.map_map]
          rfl
        · intro p hp
          obtain ⟨fields', hchange, rfl⟩ := Option.map_eq_some_iff.mp hp
          refine ⟨rfl, fields, fields', ?_, hchange, rfl⟩
          rw [memberValue, hfound, Option.bind_some, hvalue]

theorem of_mem_pickedChange {pick : Option (Entry × Tree)} {name other : Bytes}
    (hpick : ∀ p ∈ pick, p.1 ∈ member? doc name)
    (h : (other, tree) ∈ (pick.map pickedChange).toList) :
    other = name ∧ ∃ p ∈ pick, p.2 = tree := by
  obtain ⟨p, hp, hchange⟩ := Option.map_eq_some_iff.mp (Option.mem_toList.mp h)
  obtain ⟨rfl, rfl⟩ := Prod.mk.inj hchange
  exact ⟨(mem_member? (hpick p hp)).2, p, hp, rfl⟩

theorem map_pickedChange {pick : Option (Entry × Tree)} {name : Bytes}
    (hpick : ∀ p ∈ pick, p.1 ∈ member? doc name) :
    pick.map pickedChange = (pick.map Prod.snd).map fun tree => (name, tree) := by
  cases pick with
  | none => rfl
  | some p =>
    have hname := (mem_member? (hpick p rfl)).2
    rw [← hname]
    rfl

theorem replaces_normalizeRawClientReasoningAliases (hnodup : ((entries doc).map Entry.name).Nodup)
    (hagrees : Agrees probe doc)
    (h : normalizeRawClientReasoningAliasesWithProbe serde doc.text probe = .ok (some out)) :
    ∃ changes, Replaces doc changes out ∧ changes ≠ [] ∧
      (changes.map Prod.fst).Sublist [outputConfigName, thinkingName] ∧
      (∀ tree, (outputConfigName, tree) ∈ changes →
        ChangedControl serde withoutEffort doc outputConfigName tree) ∧
      ∀ tree, (thinkingName, tree) ∈ changes →
        ChangedControl serde withKnownType doc thinkingName tree := by
  rw [normalizeRawClientReasoningAliasesWithProbe, hagrees.duplicates.2.2.2.1,
    hagrees.duplicates.2.2.2.2, hagrees.outputConfigValueSpan, hagrees.thinkingValueSpan] at h
  cases hconfig : controlEdit serde doc.text false ((member? doc outputConfigName).map Entry.span)
    withoutEffort with
  | error e =>
    rw [hconfig] at h
    cases h
  | ok configEdit =>
    cases hthinking : controlEdit serde doc.text false ((member? doc thinkingName).map Entry.span)
      withKnownType with
    | error e =>
      rw [hconfig, hthinking] at h
      cases h
    | ok thinkingEdit =>
      obtain ⟨pick, rfl, hpick⟩ := exists_pick hconfig
      obtain ⟨pick', rfl, hpick'⟩ := exists_pick hthinking
      have hreplaces := replaces_two hnodup (by decide) (fun p hp => (hpick p hp).1)
        fun p hp => (hpick' p hp).1
      rw [hconfig, hthinking] at h
      by_cases hnil : (pick.map pickedEdit).toList ++ (pick'.map pickedEdit).toList = []
      · replace h := Except.ok.inj ((if_pos hnil).symm.trans h)
        cases h
      · replace h := Except.ok.inj ((if_neg hnil).symm.trans h)
        obtain rfl := Option.some.inj h
        refine ⟨_, hreplaces, ?_, ?_, fun tree htree => ?_, fun tree htree => ?_⟩
        · cases pick with
          | none =>
            cases pick' with
            | none => exact absurd rfl hnil
            | some p' => exact List.cons_ne_nil _ _
          | some p => exact List.cons_ne_nil _ _
        · rw [List.map_append, map_pickedChange fun p hp => (hpick p hp).1,
            map_pickedChange fun p hp => (hpick' p hp).1]
          exact (fst_sublist _ _).append (fst_sublist _ _)
        · rcases List.mem_append.mp htree with htree | htree
          · obtain ⟨-, p, hp, rfl⟩ := of_mem_pickedChange (fun p hp => (hpick p hp).1) htree
            exact (hpick p hp).2
          · have hname := (of_mem_pickedChange (fun p hp => (hpick' p hp).1) htree).1
            exact absurd hname (by decide)
        · rcases List.mem_append.mp htree with htree | htree
          · have hname := (of_mem_pickedChange (fun p hp => (hpick p hp).1) htree).1
            exact absurd hname (by decide)
          · obtain ⟨-, p, hp, rfl⟩ := of_mem_pickedChange (fun p hp => (hpick' p hp).1) htree
            exact (hpick' p hp).2

theorem length_le_of_scanError {serde : SerdeJson}
    (h : (probeRawMessagesBody serde body).scanError = none) :
    body.length ≤ maxMessagesBodySize := by
  by_contra hlong
  rw [probeRawMessagesBody, if_pos (not_le.mp hlong)] at h
  cases h

end Rewrites

section OneDocument

/-- A parser that knows one document and the value of one text. -/
def onlyValue (doc : Document) (tree : Tree) : SerdeValues NumberToken where
  toSerdeJson := onlyDocument doc
  fromSlice bytes :=
    match tree.value some with
    | some value => if bytes = tree.text then .ok value else .error "expected value"
    | none => .error "number out of range"
  readNumber := some
  numberText := id
  fromI32 := integerToken
  asI64 token := integerOf token.1
  value_of_fromSlice {tree'} {value} h := by
    cases hvalue : tree.value some with
    | none =>
      rw [hvalue] at h
      cases h
    | some value' =>
      rw [hvalue] at h
      dsimp only at h
      split_ifs at h with htext
      rw [Tree.text_injective htext, hvalue, Except.ok.inj h]

def otherModel : Utf8 := ⟨bytesOf "other", by decide⟩

end OneDocument

end KiroProxy.RequestFacts
