import KiroProxy.RequestFacts.Members

/-!
# What the probe finds

A body without a scan error is a document whose top level is an object within the limits, and the
probe then agrees with the document: on the values of the fields it looks for and on their places.
-/

namespace KiroProxy.RequestFacts

open JsonBytes Fallible

def entriesOf : Members → ℕ → List Entry
  | .last before name afterName beforeValue value _, offset =>
    [⟨name.decoded, value, offset + before.1.length + name.text.length + afterName.1.length + 1 +
      beforeValue.1.length⟩]
  | .cons before name afterName beforeValue value after rest, offset =>
    let start := offset + before.1.length + name.text.length + afterName.1.length + 1 +
      beforeValue.1.length
    ⟨name.decoded, value, start⟩ ::
      entriesOf rest (start + value.text.length + after.1.length + 1)

def entries (doc : Document) : List Entry :=
  match doc.root with
  | .object members => entriesOf members (doc.before.1.length + 1)
  | _ => []

def member? (doc : Document) (name : Bytes) : Option Entry :=
  (entries doc).find? fun e => decide (e.name = name)

def slice (bytes : Bytes) (span : Span) :
    Bytes := (bytes.drop span.start).take (span.stop - span.start)

mutual

def objects : Tree → List Members
  | .array items => objectsOfItems items
  | .object members => members :: objectsOfMembers members
  | _ => []

def objectsOfItems : Items → List Members
  | .last _ value _ => objects value
  | .cons _ value _ rest => objects value ++ objectsOfItems rest

def objectsOfMembers : Members → List Members
  | .last _ _ _ _ value _ => objects value
  | .cons _ _ _ _ value _ rest => objects value ++ objectsOfMembers rest

end

def names : Members → List Bytes
  | .last _ name _ _ _ _ => [name.decoded]
  | .cons _ name _ _ _ _ rest => name.decoded :: names rest

def IsObject : Tree → Prop
  | .emptyObject _ => True
  | .object _ => True
  | _ => False

/-- What the probe lets pass. -/
structure Acceptable (doc : Document) : Prop where
  object : IsObject doc.root
  depth : doc.root.depth ≤ maxMessagesJsonNestingDepth
  distinct : ∀ members ∈ objects doc.root, (names members).Nodup
  objectKeys : ∀ members ∈ objects doc.root, (names members).length ≤ maxJsonObjectKeys
  documentKeys : ((objects doc.root).map fun members => (names members).length).sum ≤
    maxJsonDocumentKeys
  model : ∀ e ∈ member? doc modelName, ∀ s ∈ e.value.asString, s.length ≤ maxMessagesModelIdBytes

/-- What the probe has found is what the document says. -/
structure Agrees (probe : RawMessagesBodyProbe) (doc : Document) : Prop where
  model : probe.model = (member? doc modelName).bind fun e => e.value.asString
  stream : probe.stream = (member? doc streamName).bind fun e => e.value.asBool
  maxTokens : probe.maxTokens = (member? doc maxTokensName).bind fun e => e.value.asInteger
  maxTokensPresent : probe.maxTokensPresent = (member? doc maxTokensName).isSome
  topLevelCacheControl : probe.topLevelCacheControl =
    (member? doc cacheControlName).any fun e => decide (e.value.text ≠ nullText)
  modelFieldSeen : probe.modelFieldSeen = (member? doc modelName).isSome
  streamFieldSeen : probe.streamFieldSeen = (member? doc streamName).isSome
  maxTokensFieldSeen : probe.maxTokensFieldSeen = (member? doc maxTokensName).isSome
  thinkingFieldSeen : probe.thinkingFieldSeen = (member? doc thinkingName).isSome
  outputConfigFieldSeen : probe.outputConfigFieldSeen = (member? doc outputConfigName).isSome
  duplicates : probe.duplicateModelField = false ∧ probe.duplicateStreamField = false ∧
    probe.duplicateMaxTokensField = false ∧ probe.duplicateThinkingField = false ∧
    probe.duplicateOutputConfigField = false
  modelValueSpan : probe.modelValueSpan =
    (member? doc modelName).bind fun e => e.value.asString.map fun _ => e.span
  maxTokensValueSpan : probe.maxTokensValueSpan = (member? doc maxTokensName).map Entry.span
  thinkingValueSpan : probe.thinkingValueSpan = (member? doc thinkingName).map Entry.span
  outputConfigValueSpan : probe.outputConfigValueSpan =
    (member? doc outputConfigName).map Entry.span
  completeTopLevelObject : probe.completeTopLevelObject = true
  objectStartIndex : probe.objectStartIndex = some doc.before.1.length
  objectEndIndex : probe.objectEndIndex = some (doc.text.length - (doc.after.1.length + 1))

section Scan

variable {serde : SerdeJson} {size : ℕ} {p : RawMessagesBodyProbe}

/-- The step goes through when this holds, and stops otherwise. -/
structure Decides {α : Type} (admitted : Prop) (step : Probe α) (place : Bytes)
    (p : RawMessagesBodyProbe) (a : α) (place' : Bytes) (p' : RawMessagesBodyProbe) : Prop where
  steps : admitted → Steps step place p a place' p'
  breaks : ¬ admitted → Breaks step place p

theorem Steps.decides {α β : Type} {step : Probe α} {f : α → Probe β} {place place' place'' : Bytes}
    {p' p'' : RawMessagesBodyProbe} {a : α} {c : β} {admitted : Prop}
    (h : Steps step place p a place' p') (hf : Decides admitted (f a) place' p' c place'' p'') :
    Decides admitted (step >>= f) place p c place'' p'' :=
  ⟨fun hadmitted => h.bind (hf.steps hadmitted), fun hnot => h.breaks (hf.breaks hnot)⟩

/-- What the probe takes down at the closing brace. -/
def finished (size : ℕ) (i : Bytes) (p : RawMessagesBodyProbe) : RawMessagesBodyProbe :=
  { p with
    completeTopLevelObject := true
    objectEndIndex := some (indexOf size i) }

theorem noSpaceFirst_nil : NoSpaceFirst [] := by
  intro b hb
  cases hb

theorem steps_finishObject (space : Space) :
    Steps (finishObject size (closeBrace :: space.1)) (closeBrace :: space.1) p () []
      (finished size (closeBrace :: space.1) p) := by
  have hspace := @steps_skipJsonWs p space [] noSpaceFirst_nil
  rw [List.append_nil] at hspace
  refine steps_consume.bind (hspace.bind ?_)
  rw [if_neg (not_not.mpr rfl)]
  exact steps_record _

theorem endsMember_close (space : Space) : EndsMember (closeBrace :: space.1) := .inr rfl

theorem endsMember_comma (rest : Bytes) : EndsMember (comma :: rest) := .inl rfl

theorem noSpaceFirst_string (token : StringToken) (rest : Bytes) :
    NoSpaceFirst (token.text ++ rest) :=
  noSpaceFirst_tree (.string token) rest

theorem head?_string (token : StringToken) (rest : Bytes) :
    (token.text ++ rest).head? = some quote := rfl

theorem exec_scanMembers {turns : ℕ} (before : Space) (token : StringToken) (text : Bytes)
    {b : JsonScanBudget} (hb : 2 * (before.1 ++ (token.text ++ text)).length ≤ b.remaining) :
    ∃ b', 2 * (token.text ++ text).length ≤ b'.remaining ∧
      (scanMembers serde size (turns + 1) (before.1 ++ (token.text ++ text))).exec ⟨p, b⟩ =
        (do
          let next ← probeMember serde size (token.text ++ text)
          if next.head? = some comma then do
            onBudget (consume 1)
            scanMembers serde size turns next.tail
          else if next.head? = some closeBrace then finishObject size next
          else throw .malformed : Probe Unit).exec ⟨p, b'⟩ := by
  obtain ⟨b', hb', hspace⟩ := @steps_skipJsonWs p before _ (noSpaceFirst_string token text) b hb
  refine ⟨b', hb', ?_⟩
  rw [scanMembers, exec_bind, hspace]
  dsimp only
  rw [head?_string, if_neg (by decide), if_neg (by decide)]

section Turn

variable (before : Space) (token : StringToken) (afterName beforeValue : Space) (value : Tree)
  (after : Space) (next : Bytes)

def memberText : Bytes :=
  before.1 ++ (token.text ++ (afterName.1 ++ colon :: (beforeValue.1 ++
    (value.text ++ (after.1 ++ next)))))

def entryAt (offset : ℕ) : Entry :=
  ⟨token.decoded, value, offset + before.1.length + token.text.length + afterName.1.length + 1 +
    beforeValue.1.length⟩

variable {before token afterName beforeValue value after next}

theorem entryAt_eq {offset : ℕ}
    (h : offset + (memberText before token afterName beforeValue value after next).length = size) :
    entryAt before token afterName beforeValue value offset =
      ⟨token.decoded, value, indexOf size (value.text ++ (after.1 ++ next))⟩ := by
  unfold memberText at h
  unfold entryAt indexOf
  simp only [List.length_append, List.length_cons] at h ⊢
  congr 1
  omega

theorem length_value_le {offset : ℕ}
    (h : offset + (memberText before token afterName beforeValue value after next).length = size) :
    (value.text ++ (after.1 ++ next)).length ≤ size := by
  unfold memberText at h
  simp only [List.length_append, List.length_cons] at h ⊢
  omega

theorem decides_turn {turns offset : ℕ} {p' : RawMessagesBodyProbe} {later : Prop}
    (hnext : EndsMember next)
    (hsize : offset + (memberText before token afterName beforeValue value after next).length = size)
    (hrest : Decides later (if next.head? = some comma then do
          onBudget (consume 1)
          scanMembers serde size turns next.tail
        else if next.head? = some closeBrace then finishObject size next
        else throw .malformed : Probe Unit) next
      (recordEntry p (entryAt before token afterName beforeValue value offset)) () [] p') :
    Decides (Admitted (entryAt before token afterName beforeValue value offset) ∧ later)
      (scanMembers serde size (turns + 1)
        (memberText before token afterName beforeValue value after next))
      (memberText before token afterName beforeValue value after next) p () [] p' := by
  rw [entryAt_eq hsize] at hrest ⊢
  have hmember := @steps_probeMember serde size p value token afterName beforeValue after next hnext
    (length_value_le hsize)
  constructor
  · rintro ⟨hadmitted, hlater⟩ b hb
    obtain ⟨b', hb', hexec⟩ := exec_scanMembers before token _ hb
    rw [memberText, hexec]
    exact ((hmember hadmitted).bind (hrest.steps hlater)) b' hb'
  · intro hnot b hb
    obtain ⟨b', hb', hexec⟩ := exec_scanMembers before token _ hb
    rw [memberText, hexec]
    by_cases hadmitted : Admitted ⟨token.decoded, value, indexOf size (value.text ++ (after.1 ++ next))⟩
    · exact ((hmember hadmitted).breaks (hrest.breaks fun hlater => hnot ⟨hadmitted, hlater⟩)) b' hb'
    · exact (breaks_probeMember token afterName beforeValue after hadmitted).bind b' hb'

theorem text_last_append :
    (Members.last before token afterName beforeValue value after).text ++ next =
      memberText before token afterName beforeValue value after next := by
  simp only [Members.text, memberText, List.append_assoc, List.cons_append]

theorem text_cons_append {rest : Members} :
    (Members.cons before token afterName beforeValue value after rest).text ++ next =
      memberText before token afterName beforeValue value after (comma :: (rest.text ++ next)) := by
  simp only [Members.text, memberText, List.append_assoc, List.cons_append]

theorem entriesOf_last {offset : ℕ} :
    entriesOf (.last before token afterName beforeValue value after) offset =
      [entryAt before token afterName beforeValue value offset] := rfl

theorem entriesOf_cons {rest : Members} {offset : ℕ} :
    entriesOf (.cons before token afterName beforeValue value after rest) offset =
      entryAt before token afterName beforeValue value offset ::
        entriesOf rest ((entryAt before token afterName beforeValue value offset).start +
          value.text.length + after.1.length + 1) := rfl

theorem offset_eq {offset : ℕ} {text : Bytes}
    (h : offset + (memberText before token afterName beforeValue value after
      (comma :: text)).length = size) :
    (entryAt before token afterName beforeValue value offset).start + value.text.length +
      after.1.length + 1 + text.length = size := by
  unfold memberText at h
  unfold entryAt
  simp only [List.length_append, List.length_cons] at h ⊢
  omega

theorem length_memberText_pos : 0 < (memberText before token afterName beforeValue value after
    next).length := by
  unfold memberText
  simp only [List.length_append, List.length_cons]
  omega

end Turn

theorem decides_scanMembers (space : Space) : ∀ (members : Members) (turns offset : ℕ)
    (p : RawMessagesBodyProbe), (members.text ++ closeBrace :: space.1).length ≤ turns →
    offset + (members.text ++ closeBrace :: space.1).length = size →
    Decides (∀ e ∈ entriesOf members offset, Admitted e)
      (scanMembers serde size turns (members.text ++ closeBrace :: space.1))
      (members.text ++ closeBrace :: space.1) p () []
      (finished size (closeBrace :: space.1) ((entriesOf members offset).foldl recordEntry p))
  | .last before token afterName beforeValue value after, turns, offset, p, hturns, hsize => by
    rw [text_last_append] at hturns hsize ⊢
    rw [entriesOf_last, List.forall_mem_singleton, ← and_true (Admitted _)]
    obtain ⟨turns, rfl⟩ : ∃ k, turns = k + 1 :=
      Nat.exists_eq_add_one.mpr (length_memberText_pos.trans_le hturns)
    refine decides_turn (endsMember_close space) hsize ⟨fun _ => ?_, fun hnot => absurd trivial hnot⟩
    rw [List.head?_cons, if_neg (by decide), if_pos rfl]
    exact steps_finishObject space
  | .cons before token afterName beforeValue value after rest, turns, offset, p, hturns, hsize => by
    rw [text_cons_append] at hturns hsize ⊢
    rw [entriesOf_cons, List.forall_mem_cons]
    obtain ⟨turns, rfl⟩ : ∃ k, turns = k + 1 :=
      Nat.exists_eq_add_one.mpr (length_memberText_pos.trans_le hturns)
    refine decides_turn (endsMember_comma _) hsize ?_
    rw [List.head?_cons, if_pos rfl, List.foldl_cons]
    refine steps_consume.decides (decides_scanMembers space rest turns _ _ ?_ (offset_eq hsize))
    unfold memberText at hturns
    simp only [List.length_append, List.length_cons] at hturns ⊢
    omega

theorem steps_observeDepth {depth : ℕ} {place : Bytes}
    (h : depth ≤ maxMessagesJsonNestingDepth) :
    Steps (onBudget (observeDepth depth)) place p () place p := by
  refine Funds.steps fun b hb => ⟨b.deepen depth, hb, ?_⟩
  rw [observeDepth, if_neg (not_lt.mpr h)]
  rfl

/-- What is taken down before the members. -/
def started (doc : Document) :
    RawMessagesBodyProbe := { objectStartIndex := some doc.before.1.length }

/-- What is taken down of a whole document. -/
def scanned (doc : Document) : RawMessagesBodyProbe :=
  finished doc.text.length (closeBrace :: doc.after.1) ((entries doc).foldl recordEntry (started doc))

theorem exec_scanTopLevelObject {before : Space} {text : Bytes} {b : JsonScanBudget}
    (hsize : (before.1 ++ openBrace :: text).length = size)
    (hb : 2 * (before.1 ++ openBrace :: text).length ≤ b.remaining) :
    ∃ b', 2 * text.length ≤ b'.remaining ∧
      (scanTopLevelObject serde size (before.1 ++ openBrace :: text)).exec ⟨{}, b⟩ =
        (scanMembers serde size (text.length + 1) text).exec
          ⟨{ objectStartIndex := some before.1.length }, b'⟩ := by
  have hfirst : NoSpaceFirst (openBrace :: text) := by
    intro c hc
    obtain rfl := Option.some.inj hc
    rfl
  have hstart : indexOf size (openBrace :: text) = before.1.length := by
    rw [← hsize, indexOf, List.length_append, Nat.add_sub_cancel]
  obtain ⟨b₁, hb₁, hspace⟩ := @steps_skipJsonWs {} before _ hfirst b hb
  obtain ⟨b₂, hb₂, hconsume⟩ := @steps_consume {} text openBrace b₁ hb₁
  obtain ⟨b₃, hb₃, hdepth⟩ := @steps_observeDepth {} 1 text (by decide) b₂ hb₂
  refine ⟨b₃, hb₃, ?_⟩
  rw [scanTopLevelObject, exec_bind, hspace]
  dsimp only
  rw [List.head?_cons, if_neg (not_not.mpr rfl), exec_bind, hconsume]
  dsimp only
  rw [exec_bind, hdepth, ← hstart]
  rfl

theorem text_of_object {doc : Document} {members : Members} (h : doc.root = .object members) :
    doc.text = doc.before.1 ++ openBrace :: (members.text ++ closeBrace :: doc.after.1) := by
  rw [Document.text, h, Tree.text, List.cons_append, List.append_assoc, List.singleton_append]

theorem text_of_emptyObject {doc : Document} {space : Space} (h : doc.root = .emptyObject space) :
    doc.text = doc.before.1 ++ openBrace :: (space.1 ++ closeBrace :: doc.after.1) := by
  rw [Document.text, h, Tree.text, List.cons_append, List.append_assoc, List.singleton_append]

theorem length_object (doc : Document) (members : Members) :
    doc.before.1.length + 1 + (members.text ++ closeBrace :: doc.after.1).length =
      (doc.before.1 ++ openBrace :: (members.text ++ closeBrace :: doc.after.1)).length := by
  simp only [List.length_append, List.length_cons]
  omega

theorem noSpaceFirst_close (space : Space) : NoSpaceFirst (closeBrace :: space.1) :=
  (endsMember_close space).noSpaceFirst

/-- The scan of a document whose top level is an object with admitted members. -/
theorem exec_scan_ok {doc : Document} (hobject : IsObject doc.root)
    (hadmitted : ∀ e ∈ entries doc, Admitted e) {b : JsonScanBudget}
    (hb : 2 * doc.text.length ≤ b.remaining) :
    ∃ b', (scanTopLevelObject serde doc.text.length doc.text).exec ⟨{}, b⟩ =
      (.ok (), ⟨scanned doc, b'⟩) := by
  cases hroot : doc.root with
  | object members =>
    have htext := text_of_object hroot
    have hentries : entries doc = entriesOf members (doc.before.1.length + 1) := by
      rw [entries, hroot]
    rw [hentries] at hadmitted
    rw [scanned, started, hentries, htext]
    rw [htext] at hb
    obtain ⟨b', hb', hexec⟩ := exec_scanTopLevelObject rfl hb
    rw [hexec]
    have hscan := @decides_scanMembers serde _ doc.after members
      ((members.text ++ closeBrace :: doc.after.1).length + 1) _
      { objectStartIndex := some doc.before.1.length } (Nat.le_succ _) (length_object doc members)
    obtain ⟨b'', -, hmembers⟩ := hscan.steps hadmitted b' hb'
    exact ⟨b'', hmembers⟩
  | emptyObject space =>
    have htext := text_of_emptyObject hroot
    have hentries : entries doc = [] := by rw [entries, hroot]
    rw [scanned, started, hentries, htext]
    rw [htext] at hb
    obtain ⟨b', hb', hexec⟩ := exec_scanTopLevelObject rfl hb
    obtain ⟨b'', hb'', hspace⟩ := @steps_skipJsonWs { objectStartIndex := some doc.before.1.length }
      space _ (noSpaceFirst_close doc.after) b' hb'
    obtain ⟨b₃, -, hfinish⟩ := steps_finishObject doc.after b'' hb''
    refine ⟨b₃, ?_⟩
    rw [hexec, scanMembers, exec_bind, hspace]
    dsimp only
    rw [List.head?_cons, if_pos rfl]
    exact hfinish
  | _ => rw [hroot] at hobject; exact hobject.elim

theorem exec_scan_error {doc : Document}
    (h : ¬(IsObject doc.root ∧ ∀ e ∈ entries doc, Admitted e)) {b : JsonScanBudget}
    (hb : 2 * doc.text.length ≤ b.remaining) :
    ∃ e s, (scanTopLevelObject serde doc.text.length doc.text).exec ⟨{}, b⟩ = (.error e, s) := by
  by_cases hobject : IsObject doc.root
  · cases hroot : doc.root with
    | object members =>
      have htext := text_of_object hroot
      have hentries : entries doc = entriesOf members (doc.before.1.length + 1) := by
        rw [entries, hroot]
      rw [htext] at hb ⊢
      obtain ⟨b', hb', hexec⟩ := exec_scanTopLevelObject rfl hb
      rw [hexec]
      have hscan := @decides_scanMembers serde _ doc.after members
        ((members.text ++ closeBrace :: doc.after.1).length + 1) _
        { objectStartIndex := some doc.before.1.length } (Nat.le_succ _) (length_object doc members)
      exact hscan.breaks (fun hadmitted => h ⟨hobject, hentries ▸ hadmitted⟩) b' hb'
    | emptyObject space =>
      refine absurd ⟨hobject, fun e he => ?_⟩ h
      rw [entries, hroot] at he
      cases he
    | _ => rw [hroot] at hobject; exact hobject.elim
  · obtain ⟨b', hb', hspace⟩ := @steps_skipJsonWs {} doc.before _
      (noSpaceFirst_tree doc.root doc.after.1) b hb
    rw [Document.text, scanTopLevelObject, exec_bind]
    rw [hspace]
    refine ⟨.malformed, ⟨{}, b'⟩, ?_⟩
    dsimp only
    rw [if_pos fun hhead => ?_]
    · rfl
    · have hleads := leads_of_head? hhead
      cases hroot : doc.root <;> rw [hroot] at hleads hobject
      case emptyObject => exact hobject trivial
      case object => exact hobject trivial
      all_goals
        dsimp only [Leads] at hleads
        revert hleads
        decide

end Scan

end KiroProxy.RequestFacts
