import KiroProxy.JsonBytes.Values
import KiroProxy.Splicing

/-!
# Documents with other members

The members of the object at the top of a document are given other values, or one more member is
added. All text around the values stays, and the value of the document changes at these names only.
-/

namespace KiroProxy.JsonBytes

open Splicing

section Definitions

variable (changes : List (Bytes × Tree)) (added : StringToken) (addedValue : Tree)

def Members.replace : Members → Members
  | .last before name afterName beforeValue value after =>
    .last before name afterName beforeValue
      ((KeyedList.get name.decoded changes).getD value) after
  | .cons before name afterName beforeValue value after rest =>
    .cons before name afterName beforeValue
      ((KeyedList.get name.decoded changes).getD value) after (Members.replace rest)

def Members.add : Members → Members
  | .last before name afterName beforeValue value after =>
    .cons before name afterName beforeValue value after
      (.last .empty added .empty .empty addedValue .empty)
  | .cons before name afterName beforeValue value after rest =>
    .cons before name afterName beforeValue value after (Members.add rest)

def Tree.replaceMembers : Tree → Tree
  | .object members => .object (members.replace changes)
  | tree => tree

def Tree.addMember : Tree → Tree
  | .emptyObject space => .object (.last space added .empty .empty addedValue .empty)
  | .object members => .object (members.add added addedValue)
  | tree => tree

def Document.replace (doc : Document) : Document :=
  { doc with root := doc.root.replaceMembers changes }

def Document.add (doc : Document) : Document :=
  { doc with root := Tree.addMember added addedValue doc.root }

/-- What stands in front of a value in its object. -/
def lead (before : Space) (name : StringToken) (afterName beforeValue : Space) : Bytes :=
  before.1 ++ (name.text ++ (afterName.1 ++ colon :: beforeValue.1))

/-- The members cut into their values and what stands between them. -/
def Members.pieces : Bytes → Members → List (Piece UInt8)
  | front, .last before name afterName beforeValue value _ =>
    [⟨front ++ lead before name afterName beforeValue, value.text,
      (KeyedList.get name.decoded changes).map Tree.text⟩]
  | front, .cons before name afterName beforeValue value after rest =>
    ⟨front ++ lead before name afterName beforeValue, value.text,
      (KeyedList.get name.decoded changes).map Tree.text⟩ ::
      Members.pieces (after.1 ++ [comma]) rest

def Members.lastSpace : Members → Space
  | .last _ _ _ _ _ after => after
  | .cons _ _ _ _ _ _ rest => rest.lastSpace

end Definitions

section Texts

variable {changes : List (Bytes × Tree)} {added : StringToken} {addedValue : Tree}

theorem text_getD (change : Option Tree) (value : Tree) :
    (change.map Tree.text).getD value.text = (change.getD value).text := by
  cases change <;> rfl

theorem before_pieces : ∀ (members : Members) (front last : Bytes),
    Splicing.before (members.pieces changes front) (members.lastSpace.1 ++ last) =
      front ++ (members.text ++ last)
  | .last before name afterName beforeValue value after, front, last => by
    simp only [Members.pieces, Members.lastSpace, Splicing.before, Members.text, lead,
      List.append_assoc, List.cons_append]
  | .cons before name afterName beforeValue value after rest, front, last => by
    rw [Members.pieces, Members.lastSpace, Splicing.before, before_pieces rest]
    simp only [Members.text, lead, List.append_assoc, List.cons_append, List.nil_append]

theorem after_pieces : ∀ (members : Members) (front last : Bytes),
    Splicing.after (members.pieces changes front) (members.lastSpace.1 ++ last) =
      front ++ ((members.replace changes).text ++ last)
  | .last before name afterName beforeValue value after, front, last => by
    simp only [Members.pieces, Members.lastSpace, Splicing.after, Members.replace, Members.text,
      text_getD, lead, List.append_assoc, List.cons_append]
  | .cons before name afterName beforeValue value after rest, front, last => by
    rw [Members.pieces, Members.lastSpace, Splicing.after, after_pieces rest]
    simp only [Members.replace, Members.text, text_getD, lead, List.append_assoc, List.cons_append,
      List.nil_append]

theorem old_ne_nil : ∀ (members : Members) (front : Bytes),
    ∀ piece ∈ members.pieces changes front, piece.old ≠ []
  | .last before name afterName beforeValue value after, front => by
    obtain ⟨b, text, htext, -⟩ := exists_leads value
    refine List.forall_mem_singleton.mpr ?_
    rw [htext]
    exact List.cons_ne_nil _ _
  | .cons before name afterName beforeValue value after rest, front => by
    obtain ⟨b, text, htext, -⟩ := exists_leads value
    refine List.forall_mem_cons.mpr ⟨?_, old_ne_nil rest _⟩
    rw [htext]
    exact List.cons_ne_nil _ _

/-- The text of the member that is added, without a comma. -/
def addedText (added : StringToken) (addedValue : Tree) : Bytes :=
  added.text ++ colon :: addedValue.text

theorem text_add : ∀ members : Members,
    (members.add added addedValue).text = members.text ++ comma :: addedText added addedValue
  | .last before name afterName beforeValue value after => by
    simp only [Members.add, Members.text, addedText, Space.empty, List.append_assoc,
      List.cons_append, List.nil_append, List.append_nil]
  | .cons before name afterName beforeValue value after rest => by
    rw [Members.add, Members.text, text_add rest]
    simp only [Members.text, List.append_assoc, List.cons_append]

end Texts

section Values

variable {N : Type} {readNumber : NumberToken → Option N} {changes : List (Bytes × Tree)}
  {added : StringToken} {addedValue : Tree}

theorem Fields.get_insert (name other : Utf8) (value : Value N) (fields : Fields N) :
    KeyedList.get other (fields.insert name value) =
      if name = other then some value else KeyedList.get other fields := by
  induction fields with
  | nil => rfl
  | cons first fields ih =>
    obtain ⟨key, old⟩ := first
    rw [Fields.insert]
    by_cases hkey : name = key
    · rw [if_pos hkey, KeyedList.get, KeyedList.get, hkey]
      split_ifs <;> rfl
    · rw [if_neg hkey]
      split_ifs with hlt heq heq
      · rw [KeyedList.get, if_pos heq]
      · rw [KeyedList.get, if_neg heq]
      · rw [KeyedList.get, if_neg (heq ▸ Ne.symm hkey), ih, if_pos heq]
      · rw [KeyedList.get, KeyedList.get, ih, if_neg heq]

variable (readNumber) (changes)

def changedValue (name : Utf8) (value : Value N) : Option (Value N) :=
  ((KeyedList.get name.1 changes).map (Tree.value readNumber)).getD (some value)

/-- The members of one object are those of another, with some of them changed. -/
def ChangedFields (fields fields' : Fields N) : Prop :=
  ∀ name, KeyedList.get name fields' =
    (KeyedList.get name fields).bind (changedValue readNumber changes name)

variable {readNumber} {changes}

theorem ChangedFields.insert {fields fields' : Fields N}
    (h : ChangedFields readNumber changes fields fields') {name : Utf8} {value value' : Value N}
    (hvalue : changedValue readNumber changes name value = some value') :
    ChangedFields readNumber changes (fields.insert name value) (fields'.insert name value') := by
  intro other
  rw [Fields.get_insert, Fields.get_insert]
  by_cases hname : name = other
  · rw [if_pos hname, if_pos hname, Option.bind_some, ← hname, hvalue]
  · rw [if_neg hname, if_neg hname, h other]

variable {fields : Fields N} {v : Value N} {tree : Tree}

theorem value_getD {name : StringToken} {value : Tree} (hvalue : value.value readNumber = some v) :
    ((KeyedList.get name.decoded changes).getD value).value readNumber =
      changedValue readNumber changes name.utf8 v := by
  unfold changedValue
  change _ = ((KeyedList.get name.decoded changes).map (Tree.value readNumber)).getD (some v)
  cases KeyedList.get name.decoded changes with
  | none => exact hvalue
  | some tree => rfl

theorem exists_changedValue
    (hchanges : ∀ change ∈ changes, (change.2.value readNumber).isSome = true) (name : Utf8)
    (value : Value N) : ∃ value', changedValue readNumber changes name value = some value' := by
  unfold changedValue
  cases hget : KeyedList.get name.1 changes with
  | none => exact ⟨value, rfl⟩
  | some tree => exact Option.isSome_iff_exists.mp (hchanges _ (KeyedList.mem_of_get hget))

theorem fields_replace
    (hchanges : ∀ change ∈ changes, (change.2.value readNumber).isSome = true) :
    ∀ (members : Members) {start start' fields : Fields N},
      ChangedFields readNumber changes start start' →
      members.fields readNumber start = some fields →
      ∃ fields', (members.replace changes).fields readNumber start' = some fields' ∧
        ChangedFields readNumber changes fields fields'
  | .last before name afterName beforeValue value after, start, start', fields, h, hfields => by
    obtain ⟨v, hvalue, rfl⟩ := Option.map_eq_some_iff.mp hfields
    obtain ⟨v', hv'⟩ := exists_changedValue hchanges name.utf8 v
    refine ⟨start'.insert name.utf8 v', ?_, h.insert hv'⟩
    rw [Members.replace, Members.fields, value_getD hvalue, hv']
    rfl
  | .cons before name afterName beforeValue value after rest, start, start', fields, h, hfields => by
    obtain ⟨v, hvalue, hrest⟩ := Option.bind_eq_some_iff.mp hfields
    obtain ⟨v', hv'⟩ := exists_changedValue hchanges name.utf8 v
    obtain ⟨fields', hfields', hchanged⟩ := fields_replace hchanges rest (h.insert hv') hrest
    refine ⟨fields', ?_, hchanged⟩
    rw [Members.replace, Members.fields, value_getD hvalue, hv']
    exact hfields'

theorem object_of_value (h : tree.value readNumber = some (.object fields)) :
    (∃ space, tree = .emptyObject space ∧ fields = []) ∨
      ∃ members, tree = .object members ∧ members.fields readNumber [] = some fields := by
  cases tree with
  | emptyObject space =>
    cases h
    exact .inl ⟨space, rfl, rfl⟩
  | object members =>
    obtain ⟨fields', hmembers, hfields⟩ := Option.map_eq_some_iff.mp h
    cases hfields
    exact .inr ⟨members, rfl, hmembers⟩
  | array items =>
    obtain ⟨items', -, hitems⟩ := Option.map_eq_some_iff.mp h
    cases hitems
  | number token =>
    obtain ⟨n, -, hn⟩ := Option.map_eq_some_iff.mp h
    cases hn
  | _ => cases h

theorem value_replaceMembers
    (hchanges : ∀ change ∈ changes, (change.2.value readNumber).isSome = true)
    (h : tree.value readNumber = some (.object fields)) :
    ∃ fields', (tree.replaceMembers changes).value readNumber = some (.object fields') ∧
      ChangedFields readNumber changes fields fields' := by
  have hempty : ChangedFields readNumber changes ([] : Fields N) [] := fun _ => rfl
  rcases object_of_value h with ⟨space, rfl, rfl⟩ | ⟨members, rfl, hmembers⟩
  · exact ⟨[], rfl, hempty⟩
  · obtain ⟨fields', hfields', hchanged⟩ := fields_replace hchanges members hempty hmembers
    exact ⟨fields', congrArg (Option.map Value.object) hfields', hchanged⟩

theorem fields_add (hvalue : addedValue.value readNumber = some v) :
    ∀ (members : Members) {start fields : Fields N}, members.fields readNumber start = some fields →
      (members.add added addedValue).fields readNumber start = some (fields.insert added.utf8 v)
  | .last before name afterName beforeValue value after, start, fields, hfields => by
    obtain ⟨w, hw, rfl⟩ := Option.map_eq_some_iff.mp hfields
    rw [Members.add, Members.fields, hw, Option.bind_eq_bind, Option.bind_some, Members.fields, hvalue]
    rfl
  | .cons before name afterName beforeValue value after rest, start, fields, hfields => by
    obtain ⟨w, hw, hrest⟩ := Option.bind_eq_some_iff.mp hfields
    rw [Members.add, Members.fields, hw]
    exact fields_add hvalue rest hrest

theorem value_addMember (hvalue : addedValue.value readNumber = some v)
    (h : tree.value readNumber = some (.object fields)) :
    (Tree.addMember added addedValue tree).value readNumber =
      some (.object (fields.insert added.utf8 v)) := by
  rcases object_of_value h with ⟨space, rfl, rfl⟩ | ⟨members, rfl, hmembers⟩
  · have hfirst : (Members.last space added .empty .empty addedValue .empty).fields readNumber [] =
        some (Fields.insert added.utf8 v []) := by
      rw [Members.fields, hvalue]
      rfl
    exact congrArg (Option.map Value.object) hfirst
  · exact congrArg (Option.map Value.object) (fields_add hvalue members hmembers)

end Values

end KiroProxy.JsonBytes
