import KiroProxy.JsonBytes.Replacement
import KiroProxy.JsonBytes.Unique
import KiroProxy.RequestFacts.Agreement
import KiroProxy.RequestFacts.Rewrites

/-!
# Edits at the places of members

An edit at the place of a member replaces the member in the document: the new body is the text of
the document with other values at these names, and of no other document.
-/

namespace KiroProxy.RequestFacts

open JsonBytes Splicing

/-- The text is that of the document with these members replaced, and all around them is kept. -/
structure Replaces (doc : Document) (changes : List (Bytes × Tree)) (out : Bytes) : Prop where
  present : ∀ change ∈ changes, (member? doc change.1).isSome = true
  document : ∀ read : Document, read.text = out ↔ read = doc.replace changes
  root : ∀ {N : Type} (readNumber : NumberToken → Option N) (fields : Fields N),
    (∀ change ∈ changes, (change.2.value readNumber).isSome = true) →
    doc.root.value readNumber = some (.object fields) →
    ∃ fields', (doc.replace changes).root.value readNumber = some (.object fields') ∧
      ChangedFields readNumber changes fields fields'
  kept : ∃ pieces last, Splicing.before pieces last = doc.text ∧
    Splicing.after pieces last = out ∧
    Splicing.changes pieces = (entries doc).filterMap fun e =>
      (KeyedList.get e.name changes).map fun tree => (e.value.text, tree.text)

/-- The text is that of the document with one more member at the end, and all else is kept. -/
structure Adds (doc : Document) (name : StringToken) (value : Tree) (out : Bytes) : Prop where
  absent : member? doc name.decoded = none
  document : ∀ read : Document, read.text = out ↔ read = doc.add name value
  root : ∀ {N : Type} (readNumber : NumberToken → Option N) (fields : Fields N) (v : Value N),
    value.value readNumber = some v → doc.root.value readNumber = some (.object fields) →
    (doc.add name value).root.value readNumber = some (.object (fields.insert name.utf8 v))
  kept : ∃ front back, doc.text = front ++ back ∧
    out = front ++ (if entries doc = [] then addedText name value
      else comma :: addedText name value) ++ back

section Edits

variable {changes : List (Bytes × Tree)} {es : List Entry}

def editFor (changes : List (Bytes × Tree)) (e : Entry) : Option (Edit UInt8) :=
  (KeyedList.get e.name changes).map fun tree => editOf e.span tree.text

theorem filterMap_cons_eq {α β : Type} (f : α → Option β) (a : α) (as : List α) :
    (a :: as).filterMap f = (f a).toList ++ as.filterMap f := by
  cases h : f a with
  | none => rw [List.filterMap_cons_none h, Option.toList_none, List.nil_append]
  | some b => rw [List.filterMap_cons_some h, Option.toList_some, List.singleton_append]

theorem start_eq (before : Space) (name : StringToken) (afterName beforeValue : Space)
    (front : Bytes) (offset : ℕ) :
    offset + (front ++ lead before name afterName beforeValue).length =
      offset + front.length + before.1.length + name.text.length + afterName.1.length + 1 +
        beforeValue.1.length := by
  simp only [lead, List.length_append, List.length_cons]
  omega

theorem edits_pieces : ∀ (members : Members) (front : Bytes) (offset : ℕ),
    edits offset (members.pieces changes front) =
      (entriesOf members (offset + front.length)).filterMap (editFor changes)
  | .last before name afterName beforeValue value after, front, offset => by
    have hstart := start_eq before name afterName beforeValue front offset
    rw [Members.pieces, entriesOf, edits, edits, List.append_nil, filterMap_cons_eq,
      List.filterMap_nil, List.append_nil, ← hstart]
    exact congrArg _ (Option.map_map _ _ _)
  | .cons before name afterName beforeValue value after rest, front, offset => by
    have hstart := start_eq before name afterName beforeValue front offset
    have hlater (n : ℕ) : n + value.text.length + after.1.length + 1 =
        n + value.text.length + (after.1 ++ [comma]).length := by
      rw [List.length_append, List.length_singleton, Nat.add_assoc]
    rw [Members.pieces, entriesOf, edits, filterMap_cons_eq, edits_pieces rest, ← hstart, hlater]
    exact congrArg (Option.toList · ++ _) (Option.map_map _ _ _)

theorem changes_pieces : ∀ (members : Members) (front : Bytes) (offset : ℕ),
    Splicing.changes (members.pieces changes front) = (entriesOf members offset).filterMap fun e =>
      (KeyedList.get e.name changes).map fun tree => (e.value.text, tree.text)
  | .last before name afterName beforeValue value after, front, offset => by
    rw [Members.pieces, entriesOf, Splicing.changes, filterMap_cons_eq, filterMap_cons_eq,
      Option.map_map]
    rfl
  | .cons before name afterName beforeValue value after rest, front, offset => by
    have hrest := changes_pieces rest (after.1 ++ [comma])
    rw [Splicing.changes] at hrest
    rw [Members.pieces, entriesOf, Splicing.changes, filterMap_cons_eq, filterMap_cons_eq,
      Option.map_map, hrest]
    rfl

theorem get_cons_of_ne {name other : Bytes} (h : name ≠ other) (tree : Tree) :
    KeyedList.get other ((name, tree) :: changes) = KeyedList.get other changes :=
  if_neg h

def pickedEdit (pick : Entry × Tree) : Edit UInt8 := editOf pick.1.span pick.2.text

def pickedChange (pick : Entry × Tree) : Bytes × Tree := (pick.1.name, pick.2)

theorem filterMap_editFor_of_ne {name : Bytes} (h : name ∉ es.map Entry.name) (tree : Tree) :
    es.filterMap (editFor ((name, tree) :: changes)) = es.filterMap (editFor changes) := by
  refine List.filterMap_congr fun e he => ?_
  have hne : name ≠ e.name := fun heq => h (heq ▸ List.mem_map_of_mem he)
  rw [editFor, get_cons_of_ne hne, editFor]

theorem perm_editFor (hnodup : (es.map Entry.name).Nodup) (picks : List (Entry × Tree))
    (hmem : ∀ pick ∈ picks, pick.1 ∈ es) (hpicks : (picks.map fun pick => pick.1.name).Nodup) :
    (picks.map pickedEdit).Perm (es.filterMap (editFor (picks.map pickedChange))) := by
  induction picks with
  | nil =>
    have hnone : es.filterMap (editFor []) = [] := List.filterMap_eq_nil_iff.mpr fun _ _ => rfl
    rw [List.map_nil, List.map_nil, hnone]
  | cons pick picks ih =>
    obtain ⟨e, tree⟩ := pick
    obtain ⟨hfirst, hrest⟩ := List.forall_mem_cons.mp hmem
    rw [List.map_cons, List.nodup_cons] at hpicks
    have hperm := ih hrest hpicks.2
    obtain ⟨front, back, rfl⟩ := List.append_of_mem hfirst
    rw [List.map_append, List.map_cons, List.nodup_middle, List.nodup_cons, List.mem_append,
      not_or] at hnodup
    have hnone : editFor (picks.map pickedChange) e = none := by
      have hget : KeyedList.get e.name (picks.map pickedChange) = none := by
        rw [KeyedList.get_eq_none_iff, List.map_map]
        exact hpicks.1
      rw [editFor, hget, Option.map_none]
    have hsome : editFor (pickedChange (e, tree) :: picks.map pickedChange) e =
        some (pickedEdit (e, tree)) := by
      rw [editFor, pickedChange, KeyedList.get, if_pos rfl]
      rfl
    rw [List.filterMap_append, List.filterMap_cons_none hnone] at hperm
    rw [List.map_cons, List.map_cons, List.filterMap_append, List.filterMap_cons_some hsome,
      pickedChange, filterMap_editFor_of_ne hnodup.1.1, filterMap_editFor_of_ne hnodup.1.2]
    exact (hperm.cons _).trans List.perm_middle.symm

end Edits

section Replacing

variable {doc : Document} {picks : List (Entry × Tree)}

/-- The document, cut at its members, before and after the edits. -/
theorem exists_pieces (hnodup : ((entries doc).map Entry.name).Nodup)
    (hmem : ∀ pick ∈ picks, pick.1 ∈ entries doc)
    (hpicks : (picks.map fun pick => pick.1.name).Nodup) :
    ∃ pieces last, Splicing.before pieces last = doc.text ∧
      Splicing.after pieces last = (doc.replace (picks.map pickedChange)).text ∧
      Splicing.changes pieces = (entries doc).filterMap (fun e =>
        (KeyedList.get e.name (picks.map pickedChange)).map fun tree => (e.value.text, tree.text)) ∧
      spliceEdits doc.text (picks.map pickedEdit) = Splicing.after pieces last := by
  by_cases hobject : ∃ members, doc.root = .object members
  · obtain ⟨members, hroot⟩ := hobject
    have hentries : entries doc = entriesOf members (doc.before.1.length + 1) := by
      rw [entries, hroot]
    have hreplaced : (doc.replace (picks.map pickedChange)).root =
        .object (members.replace (picks.map pickedChange)) := by
      rw [Document.replace, hroot, Tree.replaceMembers]
    have hbefore := @before_pieces (picks.map pickedChange) members (doc.before.1 ++ [openBrace])
      (closeBrace :: doc.after.1)
    have hafter := @after_pieces (picks.map pickedChange) members (doc.before.1 ++ [openBrace])
      (closeBrace :: doc.after.1)
    have hplaces : edits 0 (members.pieces (picks.map pickedChange) (doc.before.1 ++ [openBrace])) =
        (entries doc).filterMap (editFor (picks.map pickedChange)) := by
      rw [edits_pieces, hentries, List.length_append, List.length_singleton, Nat.zero_add]
    have hsorted := insertionSort_eq_edits (old_ne_nil members _)
      (hplaces ▸ perm_editFor hnodup picks hmem hpicks)
    rw [List.append_assoc, List.singleton_append] at hbefore hafter
    refine ⟨members.pieces (picks.map pickedChange) (doc.before.1 ++ [openBrace]), _,
      hbefore.trans (text_of_object hroot).symm, hafter.trans (text_of_object hreplaced).symm, ?_, ?_⟩
    · rw [hentries]
      exact changes_pieces members _ _
    · rw [spliceEdits, hsorted, text_of_object hroot, ← hbefore]
      exact @splice_edits UInt8 _ _ [] 0 (Nat.zero_le _)
  · have hentries : entries doc = [] := by
      unfold entries
      split
      case h_1 members hroot => exact absurd ⟨members, hroot⟩ hobject
      case h_2 => rfl
    have hnil : picks = [] := by
      rw [hentries] at hmem
      exact List.eq_nil_iff_forall_not_mem.mpr fun pick hpick => List.not_mem_nil (hmem pick hpick)
    have hsame : doc.root.replaceMembers [] = doc.root := by
      cases hroot : doc.root with
      | object members => exact absurd ⟨members, hroot⟩ hobject
      | _ => rfl
    subst hnil
    refine ⟨[], doc.text, rfl, ?_, ?_, rfl⟩
    · rw [List.map_nil, Document.replace, hsame]
      rfl
    · rw [hentries]
      rfl

theorem replaces_picks (hnodup : ((entries doc).map Entry.name).Nodup)
    (hmem : ∀ pick ∈ picks, pick.1 ∈ entries doc)
    (hpicks : (picks.map fun pick => pick.1.name).Nodup) :
    Replaces doc (picks.map pickedChange) (spliceEdits doc.text (picks.map pickedEdit)) := by
  obtain ⟨pieces, last, hbefore, hafter, hchanges, hsplice⟩ := exists_pieces hnodup hmem hpicks
  refine ⟨?_, ?_, ?_, ⟨pieces, last, hbefore, hsplice.symm, hchanges⟩⟩
  · intro change hchange
    obtain ⟨pick, hpick, rfl⟩ := List.mem_map.mp hchange
    have hfound : member? doc pick.1.name = some pick.1 := find?_of_mem hnodup (hmem pick hpick) rfl
    rw [pickedChange, hfound]
    rfl
  · intro read
    rw [hsplice, hafter]
    exact ⟨Document.text_injective, fun h => congrArg Document.text h⟩
  · intro N readNumber fields hreads hfields
    exact value_replaceMembers hreads hfields

end Replacing

end KiroProxy.RequestFacts
