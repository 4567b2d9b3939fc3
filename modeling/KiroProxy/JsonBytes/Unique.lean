import KiroProxy.JsonBytes.Syntax

/-!
# A text has one tree

Two trees with the same text are the same, also where more text follows them.
-/

namespace KiroProxy.JsonBytes

theorem append_inj_of_all {p : UInt8 → Bool} {run run' rest rest' : Bytes}
    (hrun : ∀ b ∈ run, p b = true) (hrun' : ∀ b ∈ run', p b = true)
    (hrest : ∀ b ∈ rest.head?, p b = false) (hrest' : ∀ b ∈ rest'.head?, p b = false)
    (h : run ++ rest = run' ++ rest') : run = run' ∧ rest = rest' := by
  have htake {run rest : Bytes} (hrun : ∀ b ∈ run, p b = true)
      (hrest : ∀ b ∈ rest.head?, p b = false) : (run ++ rest).takeWhile p = run := by
    rw [List.takeWhile_append_of_pos hrun]
    cases rest with
    | nil => rw [List.takeWhile_nil, List.append_nil]
    | cons b rest =>
      rw [List.takeWhile_cons_of_neg (by rw [hrest b rfl]; decide), List.append_nil]
  have hsame : run = run' := by rw [← htake hrun hrest, h, htake hrun' hrest']
  subst hsame
  exact ⟨rfl, List.append_cancel_left h⟩

variable {rest rest' : Bytes}

theorem space_append_inj {space space' : Space}
    (hrest : ∀ b ∈ rest.head?, isSpace b = false) (hrest' : ∀ b ∈ rest'.head?, isSpace b = false)
    (h : space.1 ++ rest = space'.1 ++ rest') : space = space' ∧ rest = rest' := by
  obtain ⟨hsame, hrest⟩ := append_inj_of_all space.2 space'.2 hrest hrest' h
  exact ⟨Subtype.ext hsame, hrest⟩

theorem closed_append_inj {raw raw' rest rest' : Bytes} (hraw : Closed raw) (hraw' : Closed raw')
    (h : raw ++ quote :: rest = raw' ++ quote :: rest') : raw = raw' ∧ rest = rest' := by
  induction hraw generalizing raw' with
  | nil =>
    cases hraw' with
    | nil => exact ⟨rfl, (List.cons.inj h).2⟩
    | plain hb _ _ => exact absurd (List.cons.inj h).1.symm hb
    | escape _ => exact absurd (List.cons.inj h).1 (by decide)
  | plain hb hbackslash _ ih =>
    cases hraw' with
    | nil => exact absurd (List.cons.inj h).1 hb
    | plain _ _ hraw' =>
      rw [List.cons_append, List.cons_append, List.cons.injEq] at h
      obtain ⟨rfl, htail⟩ := h
      obtain ⟨rfl, hrest⟩ := ih hraw' htail
      exact ⟨rfl, hrest⟩
    | escape _ => exact absurd (List.cons.inj h).1 hbackslash
  | escape _ ih =>
    cases hraw' with
    | nil => exact absurd (List.cons.inj h).1 (by decide)
    | plain _ hbackslash _ => exact absurd (List.cons.inj h).1.symm hbackslash
    | escape hraw' =>
      simp only [List.cons_append, List.cons.injEq, true_and] at h
      obtain ⟨rfl, htail⟩ := h
      obtain ⟨rfl, hrest⟩ := ih hraw' htail
      exact ⟨rfl, hrest⟩

theorem string_append_inj {token token' : StringToken}
    (h : token.text ++ rest = token'.text ++ rest') : token = token' ∧ rest = rest' := by
  simp only [StringToken.text, List.cons_append, List.append_assoc, List.nil_append,
    List.cons.injEq, true_and] at h
  obtain ⟨hraw, hrest⟩ := closed_append_inj token.closed token'.closed h
  exact ⟨Subtype.ext hraw, hrest⟩

inductive Kind
  | null
  | true
  | false
  | number
  | string
  | array
  | object
  deriving DecidableEq

def Tree.kind : Tree → Kind
  | .null => .null
  | .true => .true
  | .false => .false
  | .number _ => .number
  | .string _ => .string
  | .emptyArray _ => .array
  | .array _ => .array
  | .emptyObject _ => .object
  | .object _ => .object

def kindOf (b : UInt8) : Option Kind :=
  if b = 0x6e then some .null
  else if b = 0x74 then some .true
  else if b = 0x66 then some .false
  else if b = quote then some .string
  else if b = openBracket then some .array
  else if b = openBrace then some .object
  else if isNumberByte b then some .number
  else none

theorem kindOf_of_leads {tree : Tree} {b : UInt8} (h : Leads tree b) :
    kindOf b = some tree.kind := by
  cases tree with
  | number token =>
    have hne (c : UInt8) (hc : isNumberByte c = Bool.false) : b ≠ c := by
      rintro rfl
      exact Bool.false_ne_true (hc.symm.trans h)
    have hnumber : isNumberByte b = Bool.true := h
    unfold kindOf
    rw [if_neg (hne _ rfl), if_neg (hne _ rfl), if_neg (hne _ rfl), if_neg (hne _ rfl),
      if_neg (hne _ rfl), if_neg (hne _ rfl), if_pos hnumber]
    rfl
  | _ =>
    obtain rfl := h
    rfl

theorem kindOf_of_append {tree : Tree} {rest text : Bytes} {b : UInt8}
    (h : tree.text ++ rest = b :: text) : kindOf b = some tree.kind :=
  kindOf_of_leads (@leads_of_head? tree rest b (by rw [h]; rfl))

theorem kind_eq {tree tree' : Tree}
    (h : tree.text ++ rest = tree'.text ++ rest') : tree.kind = tree'.kind := by
  obtain ⟨b, text, htext, hleads⟩ := exists_leads tree
  have hkind := kindOf_of_leads hleads
  rw [htext, List.cons_append] at h
  rw [kindOf_of_append h.symm] at hkind
  exact (Option.some.inj hkind).symm

theorem not_space_of_kindOf {b : UInt8} (h : (kindOf b).isSome = true) : isSpace b = false := by
  by_contra hspace
  rw [Bool.not_eq_false] at hspace
  simp only [isSpace, Bool.or_eq_true, beq_iff_eq] at hspace
  rcases hspace with ((rfl | rfl) | rfl) | rfl <;> cases h

theorem not_space_tree (tree : Tree) (rest : Bytes) :
    ∀ b ∈ (tree.text ++ rest).head?, isSpace b = false := by
  intro b hb
  exact not_space_of_kindOf (by rw [kindOf_of_leads (leads_of_head? hb)]; rfl)

/-- No number goes on into the text. -/
def Ends (rest : Bytes) : Prop := ∀ b ∈ rest.head?, isNumberByte b = false

theorem isNumberByte_of_isSpace {b : UInt8} (h : isSpace b = true) : isNumberByte b = false := by
  simp only [isSpace, Bool.or_eq_true, beq_iff_eq] at h
  rcases h with ((rfl | rfl) | rfl) | rfl <;> rfl

/-- The value is the only one at its place. -/
def Determined (tree : Tree) : Prop :=
  ∀ (tree' : Tree) {rest rest' : Bytes}, Ends rest → Ends rest' →
    tree.text ++ rest = tree'.text ++ rest' → tree = tree' ∧ rest = rest'

/-- The byte behind a value and its space. -/
def IsStop (b : UInt8) : Prop := b = comma ∨ b = closeBracket ∨ b = closeBrace

theorem not_space_of_isStop {b : UInt8} (h : IsStop b) (rest : Bytes) :
    ∀ c ∈ (b :: rest).head?, isSpace c = false := by
  rintro c hc
  obtain rfl := Option.some.inj hc
  rcases h with rfl | rfl | rfl <;> rfl

theorem ends_space {b : UInt8} (h : IsStop b) (space : Space) (rest : Bytes) :
    Ends (space.1 ++ b :: rest) := by
  intro c hc
  cases hspace : space.1 with
  | nil =>
    rw [hspace] at hc
    obtain rfl := Option.some.inj hc
    rcases h with rfl | rfl | rfl <;> rfl
  | cons d text =>
    rw [hspace] at hc
    obtain rfl := Option.some.inj hc
    exact isNumberByte_of_isSpace (space.2 d (hspace ▸ List.mem_cons_self))

theorem Determined.element {before before' after after' : Space} {value value' : Tree}
    {stop stop' : UInt8} (h : Determined value) (hstop : IsStop stop)
    (hstop' : IsStop stop')
    (heq : before.1 ++ (value.text ++ (after.1 ++ stop :: rest)) =
      before'.1 ++ (value'.text ++ (after'.1 ++ stop' :: rest'))) :
    before = before' ∧ value = value' ∧ after = after' ∧ stop = stop' ∧ rest = rest' := by
  obtain ⟨hbefore, heq⟩ :=
    space_append_inj (not_space_tree value _) (not_space_tree value' _) heq
  obtain ⟨hvalue, heq⟩ := h value' (ends_space hstop _ _) (ends_space hstop' _ _) heq
  obtain ⟨hafter, heq⟩ :=
    space_append_inj (not_space_of_isStop hstop _) (not_space_of_isStop hstop' _) heq
  obtain ⟨hstop, hrest⟩ := List.cons.inj heq
  exact ⟨hbefore, hvalue, hafter, hstop, hrest⟩

theorem Determined.member {before before' afterName afterName' beforeValue beforeValue' after
      after' : Space} {name name' : StringToken} {value value' : Tree} {stop stop' : UInt8}
      (h : Determined value) (hstop : IsStop stop) (hstop' : IsStop stop')
    (heq : before.1 ++ (name.text ++ (afterName.1 ++ colon :: (beforeValue.1 ++
        (value.text ++ (after.1 ++ stop :: rest))))) =
      before'.1 ++ (name'.text ++ (afterName'.1 ++ colon :: (beforeValue'.1 ++
        (value'.text ++ (after'.1 ++ stop' :: rest')))))) :
    (before = before' ∧ name = name' ∧ afterName = afterName') ∧ beforeValue = beforeValue' ∧
      value = value' ∧ after = after' ∧ stop = stop' ∧ rest = rest' := by
  have hcolon (text : Bytes) : ∀ c ∈ (colon :: text).head?, isSpace c = false := by
    rintro c hc
    obtain rfl := Option.some.inj hc
    rfl
  obtain ⟨hbefore, heq⟩ := space_append_inj (not_space_tree (.string name) _)
    (not_space_tree (.string name') _) heq
  obtain ⟨hname, heq⟩ := string_append_inj heq
  obtain ⟨hafterName, heq⟩ := space_append_inj (hcolon _) (hcolon _) heq
  exact ⟨⟨hbefore, hname, hafterName⟩, h.element hstop hstop' (List.cons.inj heq).2⟩

theorem close_ne_tree {space before : Space} {value : Tree} {b : UInt8} {rest more : Bytes}
    (hstop : IsStop b) : space.1 ++ b :: rest ≠ before.1 ++ (value.text ++ more) := by
  intro h
  obtain ⟨-, h⟩ := space_append_inj (not_space_of_isStop hstop _) (not_space_tree value _) h
  have hkind := kindOf_of_append h.symm
  rcases hstop with rfl | rfl | rfl <;> cases hkind

theorem close_ne_items (space : Space) (items : Items) (rest rest' : Bytes) :
    space.1 ++ closeBracket :: rest ≠ items.text ++ closeBracket :: rest' := by
  cases items with
  | last before value after =>
    rw [Items.text, List.append_assoc, List.append_assoc]
    exact close_ne_tree (.inr (.inl rfl))
  | cons before value after items =>
    rw [Items.text, List.append_assoc, List.append_assoc]
    exact close_ne_tree (.inr (.inl rfl))

theorem close_ne_members (space : Space) (members : Members) (rest rest' : Bytes) :
    space.1 ++ closeBrace :: rest ≠ members.text ++ closeBrace :: rest' := by
  cases members with
  | last before name afterName beforeValue value after =>
    rw [Members.text, List.append_assoc, List.append_assoc]
    exact @close_ne_tree space before (.string name) _ _ _ (.inr (.inr rfl))
  | cons before name afterName beforeValue value after members =>
    rw [Members.text, List.append_assoc, List.append_assoc]
    exact @close_ne_tree space before (.string name) _ _ _ (.inr (.inr rfl))

theorem array_append {items : Items} {rest : Bytes} :
    (Tree.array items).text ++ rest = openBracket :: (items.text ++ closeBracket :: rest) := by
  rw [Tree.text, List.cons_append, List.append_assoc, List.singleton_append]

theorem emptyArray_append {space : Space} {rest : Bytes} :
    (Tree.emptyArray space).text ++ rest = openBracket :: (space.1 ++ closeBracket :: rest) := by
  rw [Tree.text, List.cons_append, List.append_assoc, List.singleton_append]

theorem object_append {members : Members} {rest : Bytes} :
    (Tree.object members).text ++ rest = openBrace :: (members.text ++ closeBrace :: rest) := by
  rw [Tree.text, List.cons_append, List.append_assoc, List.singleton_append]

theorem emptyObject_append {space : Space} {rest : Bytes} :
    (Tree.emptyObject space).text ++ rest = openBrace :: (space.1 ++ closeBrace :: rest) := by
  rw [Tree.text, List.cons_append, List.append_assoc, List.singleton_append]

mutual

theorem determined : ∀ tree : Tree, Determined tree
  | .null, tree', rest, rest', hrest, hrest', h => by
    have hkind := kind_eq h
    cases tree' with
    | null => exact ⟨rfl, List.append_cancel_left h⟩
    | _ => cases hkind
  | .true, tree', rest, rest', hrest, hrest', h => by
    have hkind := kind_eq h
    cases tree' with
    | «true» => exact ⟨rfl, List.append_cancel_left h⟩
    | _ => cases hkind
  | .false, tree', rest, rest', hrest, hrest', h => by
    have hkind := kind_eq h
    cases tree' with
    | «false» => exact ⟨rfl, List.append_cancel_left h⟩
    | _ => cases hkind
  | .number token, tree', rest, rest', hrest, hrest', h => by
    have hkind := kind_eq h
    cases tree' with
    | number token' =>
      obtain ⟨htext, heq⟩ :=
        append_inj_of_all token.2.isNumberByte token'.2.isNumberByte hrest hrest' h
      exact ⟨congrArg Tree.number (Subtype.ext htext), heq⟩
    | _ => cases hkind
  | .string token, tree', rest, rest', hrest, hrest', h => by
    have hkind := kind_eq h
    cases tree' with
    | string token' =>
      obtain ⟨rfl, heq⟩ := string_append_inj h
      exact ⟨rfl, heq⟩
    | _ => cases hkind
  | .emptyArray space, tree', rest, rest', hrest, hrest', h => by
    have hkind := kind_eq h
    cases tree' with
    | emptyArray space' =>
      rw [emptyArray_append, emptyArray_append, List.cons.injEq] at h
      have hstop : IsStop closeBracket := .inr (.inl rfl)
      obtain ⟨rfl, heq⟩ :=
        space_append_inj (not_space_of_isStop hstop _) (not_space_of_isStop hstop _) h.2
      exact ⟨rfl, (List.cons.inj heq).2⟩
    | array items =>
      rw [emptyArray_append, array_append, List.cons.injEq] at h
      exact absurd h.2 (close_ne_items space items rest rest')
    | _ => cases hkind
  | .array items, tree', rest, rest', hrest, hrest', h => by
    have hkind := kind_eq h
    cases tree' with
    | emptyArray space =>
      rw [emptyArray_append, array_append, List.cons.injEq] at h
      exact absurd h.2.symm (close_ne_items space items rest' rest)
    | array items' =>
      rw [array_append, array_append, List.cons.injEq] at h
      obtain ⟨rfl, heq⟩ := items_append_inj items items' h.2
      exact ⟨rfl, heq⟩
    | _ => cases hkind
  | .emptyObject space, tree', rest, rest', hrest, hrest', h => by
    have hkind := kind_eq h
    cases tree' with
    | emptyObject space' =>
      rw [emptyObject_append, emptyObject_append, List.cons.injEq] at h
      have hstop : IsStop closeBrace := .inr (.inr rfl)
      obtain ⟨rfl, heq⟩ :=
        space_append_inj (not_space_of_isStop hstop _) (not_space_of_isStop hstop _) h.2
      exact ⟨rfl, (List.cons.inj heq).2⟩
    | object members =>
      rw [emptyObject_append, object_append, List.cons.injEq] at h
      exact absurd h.2 (close_ne_members space members rest rest')
    | _ => cases hkind
  | .object members, tree', rest, rest', hrest, hrest', h => by
    have hkind := kind_eq h
    cases tree' with
    | emptyObject space =>
      rw [emptyObject_append, object_append, List.cons.injEq] at h
      exact absurd h.2.symm (close_ne_members space members rest' rest)
    | object members' =>
      rw [object_append, object_append, List.cons.injEq] at h
      obtain ⟨rfl, heq⟩ := members_append_inj members members' h.2
      exact ⟨rfl, heq⟩
    | _ => cases hkind

theorem items_append_inj : ∀ (items items' : Items) {rest rest' : Bytes},
    items.text ++ closeBracket :: rest = items'.text ++ closeBracket :: rest' →
    items = items' ∧ rest = rest'
  | .last before value after, items', rest, rest', h => by
    cases items' with
    | last before' value' after' =>
      simp only [Items.text, List.append_assoc] at h
      obtain ⟨rfl, rfl, rfl, -, heq⟩ :=
        (determined value).element (.inr (.inl rfl)) (.inr (.inl rfl)) h
      exact ⟨rfl, heq⟩
    | cons before' value' after' items' =>
      simp only [Items.text, List.append_assoc, List.cons_append] at h
      obtain ⟨-, -, -, hstop, -⟩ := (determined value).element (.inr (.inl rfl)) (.inl rfl) h
      cases hstop
  | .cons before value after items, items', rest, rest', h => by
    cases items' with
    | last before' value' after' =>
      simp only [Items.text, List.append_assoc, List.cons_append] at h
      obtain ⟨-, -, -, hstop, -⟩ := (determined value).element (.inl rfl) (.inr (.inl rfl)) h
      cases hstop
    | cons before' value' after' items' =>
      simp only [Items.text, List.append_assoc, List.cons_append] at h
      obtain ⟨rfl, rfl, rfl, -, hrest⟩ := (determined value).element (.inl rfl) (.inl rfl) h
      obtain ⟨rfl, heq⟩ := items_append_inj items items' hrest
      exact ⟨rfl, heq⟩

theorem members_append_inj : ∀ (members members' : Members) {rest rest' : Bytes},
    members.text ++ closeBrace :: rest = members'.text ++ closeBrace :: rest' →
    members = members' ∧ rest = rest'
  | .last before name afterName beforeValue value after, members', rest, rest', h => by
    cases members' with
    | last before' name' afterName' beforeValue' value' after' =>
      simp only [Members.text, List.append_assoc, List.cons_append] at h
      obtain ⟨⟨rfl, rfl, rfl⟩, rfl, rfl, rfl, -, heq⟩ :=
        (determined value).member (.inr (.inr rfl)) (.inr (.inr rfl)) h
      exact ⟨rfl, heq⟩
    | cons before' name' afterName' beforeValue' value' after' members' =>
      simp only [Members.text, List.append_assoc, List.cons_append] at h
      obtain ⟨-, -, -, -, hstop, -⟩ := (determined value).member (.inr (.inr rfl)) (.inl rfl) h
      cases hstop
  | .cons before name afterName beforeValue value after members, members', rest, rest', h => by
    cases members' with
    | last before' name' afterName' beforeValue' value' after' =>
      simp only [Members.text, List.append_assoc, List.cons_append] at h
      obtain ⟨-, -, -, -, hstop, -⟩ := (determined value).member (.inl rfl) (.inr (.inr rfl)) h
      cases hstop
    | cons before' name' afterName' beforeValue' value' after' members' =>
      simp only [Members.text, List.append_assoc, List.cons_append] at h
      obtain ⟨⟨rfl, rfl, rfl⟩, rfl, rfl, rfl, -, hrest⟩ :=
        (determined value).member (.inl rfl) (.inl rfl) h
      obtain ⟨rfl, heq⟩ := members_append_inj members members' hrest
      exact ⟨rfl, heq⟩

end

theorem Document.text_injective {doc doc' : Document} (h : doc.text = doc'.text) : doc = doc' := by
  obtain ⟨before, root, after⟩ := doc
  obtain ⟨before', root', after'⟩ := doc'
  obtain ⟨rfl, h⟩ := space_append_inj (not_space_tree root _) (not_space_tree root' _) h
  have hends (space : Space) : Ends space.1 := fun b hb =>
    isNumberByte_of_isSpace (space.2 b (List.mem_of_mem_head? hb))
  obtain ⟨rfl, hafter⟩ := determined root root' (hends after) (hends after') h
  rw [Subtype.ext hafter]

theorem Tree.text_injective {tree tree' : Tree} (h : tree.text = tree'.text) : tree = tree' := by
  have hends : Ends [] := fun b hb => by cases hb
  refine (determined tree tree' hends hends ?_).1
  rw [List.append_nil, List.append_nil, h]

end KiroProxy.JsonBytes
