import Mathlib.Data.List.Forall2
import KiroProxy.ToolSchemaKeys.Traversal
import KiroProxy.Transition

/-!
# The loops of the rewriting

Each loop runs the rewriting of a child in a state that satisfies an invariant, which it
keeps. A rewritten object is described by its fields: which come from a rewritten child
of the original, and which children survive.
-/

namespace KiroProxy.ToolSchemaKeys

open Json Transition

def Keeps (I : SanitizeState → Prop) (child : Sanitizer) : Prop :=
  ∀ path value state value' state', I state → child path value state = .ok (value', state') →
    I state'

def Rewrites (I : SanitizeState → Prop) (child : Sanitizer) (value value' : Json) : Prop :=
  ∃ path state state', I state ∧ child path value state = .ok (value', state')

def EntryRewrites (I : SanitizeState → Prop) (child : Sanitizer) (x x' : String × Json) : Prop :=
  x.1 = x'.1 ∧ Rewrites I child x.2 x'.2

variable {I : SanitizeState → Prop} {child : Sanitizer}

variable {state state' : SanitizeState}

theorem sanitizeEntries_spec (hkeep : Keeps I child) {pathOf : String → String}
    {entries entries' : Fields} (hI : I state)
    (h : sanitizeEntries child pathOf entries state = .ok (entries', state')) :
    I state' ∧ List.Forall₂ (EntryRewrites I child) entries entries' := by
  induction entries generalizing entries' state with
  | nil =>
    cases h
    exact ⟨hI, .nil⟩
  | cons entry entries ih =>
    obtain ⟨⟨value, state₁⟩, h₁, h⟩ := exists_of_bind_eq_ok h
    obtain ⟨⟨rest, state₂⟩, h₂, h⟩ := exists_of_bind_eq_ok h
    cases h
    obtain ⟨hI', hrest⟩ := ih (hkeep _ _ _ _ _ hI h₁) h₂
    exact ⟨hI', .cons ⟨rfl, _, _, _, hI, h₁⟩ hrest⟩

theorem sanitizeItems_spec (hkeep : Keeps I child) {pathOf : ℕ → String} {idx : ℕ}
    {items items' : List Json} (hI : I state)
    (h : sanitizeItems child pathOf idx items state = .ok (items', state')) :
    I state' ∧ List.Forall₂ (Rewrites I child) items items' := by
  induction items generalizing idx items' state with
  | nil =>
    cases h
    exact ⟨hI, .nil⟩
  | cons item items ih =>
    obtain ⟨⟨value, state₁⟩, h₁, h⟩ := exists_of_bind_eq_ok h
    obtain ⟨⟨rest, state₂⟩, h₂, h⟩ := exists_of_bind_eq_ok h
    cases h
    obtain ⟨hI', hrest⟩ := ih (hkeep _ _ _ _ _ hI h₁) h₂
    exact ⟨hI', .cons ⟨_, _, _, hI, h₁⟩ hrest⟩

def KeywordRewrites (I : SanitizeState → Prop)
    (sanitize : String → Json → SanitizeState → Except SchemaKeyMappingError (Json × SanitizeState))
    (key : String) (value value' : Json) : Prop :=
  ∃ state state', I state ∧ sanitize key value state = .ok (value', state')

theorem sanitizeKeywords_spec
    {sanitize : String → Json → SanitizeState → Except SchemaKeyMappingError (Json × SanitizeState)}
    (hkeep : ∀ key value state value' state', I state →
      sanitize key value state = .ok (value', state') → I state')
    {keywords : List String} (hnodup : keywords.Nodup) {fields fields' : Fields} (hI : I state)
    (h : sanitizeKeywords sanitize keywords fields state = .ok (fields', state')) :
    I state' ∧ (∀ key ∉ keywords, getField fields' key = getField fields key) ∧
      ∀ key ∈ keywords, Option.Rel (KeywordRewrites I sanitize key)
        (getField fields key) (getField fields' key) := by
  induction keywords generalizing fields state with
  | nil =>
    cases h
    exact ⟨hI, fun _ _ => rfl, fun _ hkey => absurd hkey List.not_mem_nil⟩
  | cons keyword keywords ih =>
    rw [sanitizeKeywords] at h
    obtain ⟨hnotin, hnodup⟩ := List.nodup_cons.mp hnodup
    split at h
    · next value hvalue =>
      obtain ⟨⟨value', state₁⟩, h₁, h⟩ := exists_of_bind_eq_ok h
      obtain ⟨hI', hother, hself⟩ := ih hnodup (hkeep _ _ _ _ _ hI h₁) h
      refine ⟨hI', fun key hkey => ?_, fun key hkey => ?_⟩
      · rw [hother key fun hmem => hkey (List.mem_cons_of_mem _ hmem)]
        exact getField_setField_of_ne (List.ne_of_not_mem_cons hkey)
      · rcases List.mem_cons.mp hkey with rfl | hkey
        · rw [hother key hnotin, getField_setField_self hvalue, hvalue]
          exact .some ⟨_, _, hI, h₁⟩
        · have hne : key ≠ keyword := fun heq => hnotin (heq ▸ hkey)
          have := hself key hkey
          rwa [getField_setField_of_ne hne] at this
    · next hnone =>
      obtain ⟨hI', hother, hself⟩ := ih hnodup hI h
      refine ⟨hI', fun key hkey => hother key fun hmem => hkey (List.mem_cons_of_mem _ hmem),
        fun key hkey => ?_⟩
      rcases List.mem_cons.mp hkey with rfl | hkey
      · rw [hother key hnotin, hnone]
        exact .none
      · exact hself key hkey

theorem sanitizeMapKeyword_spec (hkeep : Keeps I child) {path key : String} {value value' : Json}
    (hI : I state)
    (h : sanitizeMapKeyword child path key value state = .ok (value', state')) :
    I state' ∧ ((∃ map map', value = .obj map ∧ value' = .obj map' ∧
      List.Forall₂ (EntryRewrites I child) map map') ∨ value' = value ∧ value.isObject = false) := by
  cases value with
  | obj map =>
    obtain ⟨⟨map', state₁⟩, h₁, h⟩ := exists_of_bind_eq_ok h
    cases h
    obtain ⟨hI', hmap⟩ := sanitizeEntries_spec hkeep hI h₁
    exact ⟨hI', .inl ⟨map, map', rfl, rfl, hmap⟩⟩
  | _ =>
    cases h
    exact ⟨hI, .inr ⟨rfl, rfl⟩⟩

theorem sanitizeArrayKeyword_spec (hkeep : Keeps I child) {path key : String} {value value' : Json}
    (hI : I state)
    (h : sanitizeArrayKeyword child path key value state = .ok (value', state')) :
    I state' ∧ ((∃ items items', value = .arr items ∧ value' = .arr items' ∧
      List.Forall₂ (Rewrites I child) items items') ∨ value' = value ∧ ∀ items, value ≠ .arr items) := by
  cases value with
  | arr items =>
    obtain ⟨⟨items', state₁⟩, h₁, h⟩ := exists_of_bind_eq_ok h
    cases h
    obtain ⟨hI', hitems⟩ := sanitizeItems_spec hkeep hI h₁
    exact ⟨hI', .inl ⟨items, items', rfl, rfl, hitems⟩⟩
  | _ =>
    cases h
    exact ⟨hI, .inr ⟨rfl, by simp⟩⟩

theorem objectField_eq_of_getField {fields fields' : Fields} {key : String}
    (h : getField fields' key = getField fields key) :
    objectField fields' key = objectField fields key := by
  rw [objectField, h, objectField]

theorem arrayField_eq_of_getField {fields fields' : Fields} {key : String}
    (h : getField fields' key = getField fields key) :
    arrayField fields' key = arrayField fields key := by
  rw [arrayField, h, arrayField]

theorem objectField_rewrites (hkeep : Keeps I child) {path key : String} {fields fields' : Fields}
    (h : Option.Rel (KeywordRewrites I (sanitizeMapKeyword child path) key)
      (getField fields key) (getField fields' key)) :
    List.Forall₂ (EntryRewrites I child) (objectField fields key) (objectField fields' key) := by
  unfold objectField
  generalize getField fields key = old at h
  generalize getField fields' key = new at h
  cases h with
  | none => exact .nil
  | some h =>
    obtain ⟨state, state', hI, h⟩ := h
    obtain ⟨-, ⟨map, map', rfl, rfl, hmap⟩ | ⟨rfl, hvalue⟩⟩ := sanitizeMapKeyword_spec hkeep hI h
    · exact hmap
    · next value =>
      cases value with
      | obj map => cases hvalue
      | _ => exact .nil

theorem arrayField_rewrites (hkeep : Keeps I child) {path key : String} {fields fields' : Fields}
    (h : Option.Rel (KeywordRewrites I (sanitizeArrayKeyword child path) key)
      (getField fields key) (getField fields' key)) :
    List.Forall₂ (Rewrites I child) (arrayField fields key) (arrayField fields' key) := by
  unfold arrayField
  generalize getField fields key = old at h
  generalize getField fields' key = new at h
  cases h with
  | none => exact .nil
  | some h =>
    obtain ⟨state, state', hI, h⟩ := h
    obtain ⟨-, ⟨items, items', rfl, rfl, hitems⟩ | ⟨rfl, hvalue⟩⟩ :=
      sanitizeArrayKeyword_spec hkeep hI h
    · exact hitems
    · next value =>
      cases value with
      | arr items => exact absurd rfl (hvalue items)
      | _ => exact .nil

variable {scopeMap : ScopeMap}

def renamed (scopeMap : ScopeMap) (key : String) : String :=
  (scopeMap.lookup key).getD key

theorem mem_of_mem_foldl_insertField {rewrite : Json → Json} {old out : Fields} {x : String × Json}
    (h : x ∈ old.foldl (fun out (key, value) =>
      insertField out ((scopeMap.lookup key).getD key) (rewrite value)) out) :
    x ∈ out ∨ ∃ y ∈ old, x = (renamed scopeMap y.1, rewrite y.2) := by
  induction old generalizing out with
  | nil => exact .inl h
  | cons y old ih =>
    rcases ih h with h | ⟨z, hz, rfl⟩
    · rcases mem_insertField h with h | h
      · exact .inr ⟨y, List.mem_cons_self, h⟩
      · exact .inl h
    · exact .inr ⟨z, List.mem_cons_of_mem _ hz, rfl⟩

theorem mem_foldl_insertField {rewrite : Json → Json} {old out : Fields}
    (hinj : (old.map fun x => renamed scopeMap x.1).Nodup)
    (hdisjoint : ∀ x ∈ out, ∀ y ∈ old, x.1 ≠ renamed scopeMap y.1) :
    (∀ x ∈ out, x ∈ old.foldl (fun out (key, value) =>
      insertField out ((scopeMap.lookup key).getD key) (rewrite value)) out) ∧
    ∀ y ∈ old, (renamed scopeMap y.1, rewrite y.2) ∈ old.foldl (fun out (key, value) =>
      insertField out ((scopeMap.lookup key).getD key) (rewrite value)) out := by
  induction old generalizing out with
  | nil => exact ⟨fun x hx => hx, fun y hy => absurd hy List.not_mem_nil⟩
  | cons y old ih =>
    obtain ⟨hnotin, hinj⟩ := List.nodup_cons.mp hinj
    have hdisjoint' : ∀ x ∈ insertField out (renamed scopeMap y.1) (rewrite y.2), ∀ z ∈ old,
        x.1 ≠ renamed scopeMap z.1 := by
      intro x hx z hz heq
      rcases mem_insertField hx with hx | hx
      · exact hnotin (List.mem_map.mpr ⟨z, hz, heq.symm.trans (congrArg Prod.fst hx)⟩)
      · exact hdisjoint x hx z (List.mem_cons_of_mem _ hz) heq
    obtain ⟨hout, hold⟩ := ih hinj hdisjoint'
    refine ⟨fun x hx => hout x ?_, fun z hz => ?_⟩
    · exact mem_insertField_of_ne hx (hdisjoint x hx y List.mem_cons_self)
    · rcases List.mem_cons.mp hz with rfl | hz
      · exact hout _ (mem_insertField_self _ _ _)
      · exact hold z hz

theorem renamed_eq_or (scopeMap : ScopeMap) (key : String) :
    scopeMap.lookup key = none ∧ renamed scopeMap key = key ∨
      scopeMap.lookup key = some (renamed scopeMap key) := by
  unfold renamed
  cases scopeMap.lookup key with
  | none => exact .inl ⟨rfl, rfl⟩
  | some mapped => exact .inr rfl

def ScopeInjective (scopeMap : ScopeMap) : Prop :=
  ∀ key₁ key₂ mapped, scopeMap.lookup key₁ = some mapped → scopeMap.lookup key₂ = some mapped →
    key₁ = key₂

theorem nodup_renamed {old : Fields} (hnodup : (old.map Prod.fst).Nodup)
    (hinj : ScopeInjective scopeMap)
    (hfresh : ∀ x ∈ old, ∀ key, scopeMap.lookup key ≠ some x.1) :
    (old.map fun x => renamed scopeMap x.1).Nodup := by
  have hmap : (old.map fun x => renamed scopeMap x.1) =
      (old.map Prod.fst).map (renamed scopeMap) := by
    rw [List.map_map]
    rfl
  rw [hmap]
  refine hnodup.map_on ?_
  intro key₁ hkey₁ key₂ hkey₂ heq
  obtain ⟨x₁, hx₁, rfl⟩ := List.mem_map.mp hkey₁
  obtain ⟨x₂, hx₂, rfl⟩ := List.mem_map.mp hkey₂
  rcases renamed_eq_or scopeMap x₁.1 with ⟨-, h₁⟩ | h₁ <;>
    rcases renamed_eq_or scopeMap x₂.1 with ⟨-, h₂⟩ | h₂
  · rw [← h₁, heq, h₂]
  · exact absurd (h₂.trans (by rw [← heq, h₁])) (hfresh x₁ hx₁ x₂.1)
  · exact absurd (h₁.trans (by rw [heq, h₂])) (hfresh x₂ hx₂ x₁.1)
  · exact hinj _ _ _ (heq ▸ h₁) h₂

def Reserving (base : Finset String) (state : SanitizeState) : Prop :=
  base ⊆ state.reserved

/-- The rewriting never releases a reserved key. -/
def Grows (child : Sanitizer) : Prop :=
  ∀ base, Keeps (Reserving base) child

variable {mapper : SchemaKeyMapper} {toolName : String} {base : Finset String}

def Generated (mapper : SchemaKeyMapper) (toolName key : String) : Prop :=
  ∃ path original attempt, key = mapper.generatedKey toolName path original attempt

theorem sanitizeKey_spec (hmode : mapper.mode = .sanitize) {path key sanitized : String}
    {reserved reserved' : Finset String}
    (h : mapper.sanitizeKey toolName path key reserved = .ok (sanitized, reserved')) :
    mapper.isMatch sanitized = true ∧ sanitized ∉ reserved ∧ Generated mapper toolName sanitized ∧
      reserved' = insert sanitized reserved := by
  simp only [SchemaKeyMapper.sanitizeKey, hmode] at h
  split at h
  · next candidate hfind =>
    cases h
    have hgood := List.find?_some hfind
    rw [Bool.and_eq_true, decide_eq_true_eq] at hgood
    obtain ⟨attempt, -, hcandidate⟩ := List.mem_map.mp (List.mem_of_find?_eq_some hfind)
    exact ⟨hgood.1, hgood.2, ⟨path, key, attempt, hcandidate.symm⟩, rfl⟩
  · cases h

theorem outputKey_spec (hmode : mapper.mode = .sanitize) {path key output : String}
    {scopeMap scopeMap' : ScopeMap}
    (h : mapper.outputKey toolName path key scopeMap state = .ok (output, scopeMap', state')) :
    (mapper.isMatch key = true ∧ output = key ∧ scopeMap' = scopeMap ∧ state' = state) ∨
    (mapper.isMatch key ≠ true ∧ mapper.isMatch output = true ∧ output ∉ state.reserved ∧
      Generated mapper toolName output ∧ scopeMap' = scopeMap.insert key output ∧
      state'.reserved = insert output state.reserved) := by
  unfold SchemaKeyMapper.outputKey at h
  split_ifs at h with hmatch
  · cases h
    exact .inl ⟨hmatch, rfl, rfl, rfl⟩
  · obtain ⟨⟨sanitized, reserved⟩, h₁, h⟩ := exists_of_bind_eq_ok h
    cases h
    obtain ⟨hvalid, hnotin, hgenerated, rfl⟩ := sanitizeKey_spec hmode h₁
    exact .inr ⟨hmatch, hvalid, hnotin, hgenerated, rfl, rfl⟩

theorem outputKey_match (hmode : mapper.mode = .sanitize) {path key output : String}
    {scopeMap scopeMap' : ScopeMap}
    (h : mapper.outputKey toolName path key scopeMap state = .ok (output, scopeMap', state')) :
    mapper.isMatch output = true ∧ state.reserved ⊆ state'.reserved := by
  rcases outputKey_spec hmode h with ⟨hmatch, rfl, -, rfl⟩ | ⟨-, hmatch, -, -, -, hstate⟩
  · exact ⟨hmatch, Finset.Subset.refl _⟩
  · exact ⟨hmatch, hstate ▸ Finset.subset_insert _ _⟩

theorem sanitizePropertyLoop_mem (hgrow : Grows child) (hmode : mapper.mode = .sanitize)
    {path : String} {old new new' : Fields} {scopeMap scopeMap' : ScopeMap}
    (hI : Reserving base state)
    (h : mapper.sanitizePropertyLoop child toolName path old new scopeMap state =
      .ok (new', scopeMap', state')) :
    Reserving base state' ∧ ∀ x ∈ new', x ∈ new ∨
      mapper.isMatch x.1 = true ∧ ∃ y ∈ old, Rewrites (Reserving base) child y.2 x.2 := by
  induction old generalizing new scopeMap state with
  | nil =>
    cases h
    exact ⟨hI, fun x hx => .inl hx⟩
  | cons y old ih =>
    obtain ⟨⟨output, scopeMap₁, state₁⟩, h₁, h⟩ := exists_of_bind_eq_ok h
    obtain ⟨⟨schema, state₂⟩, h₂, h⟩ := exists_of_bind_eq_ok h
    obtain ⟨hmatch, hsub⟩ := outputKey_match hmode h₁
    have hI₁ : Reserving base state₁ := hI.trans hsub
    obtain ⟨hI', hmem⟩ := ih (hgrow base _ _ _ _ _ hI₁ h₂) h
    refine ⟨hI', fun x hx => ?_⟩
    rcases hmem x hx with hx | ⟨hx, z, hz, hrewrites⟩
    · rcases mem_insertField hx with hx | hx
      · cases hx
        exact .inr ⟨hmatch, y, List.mem_cons_self, _, _, _, hI₁, h₂⟩
      · exact .inl hx
    · exact .inr ⟨hx, z, List.mem_cons_of_mem _ hz, hrewrites⟩

structure ScopeGood (mapper : SchemaKeyMapper) (toolName : String) (scopeMap : ScopeMap)
    (reserved : Finset String) : Prop where
  injective : ScopeInjective scopeMap
  generated : ∀ key mapped, scopeMap.lookup key = some mapped → Generated mapper toolName mapped
  reserved : ∀ key mapped, scopeMap.lookup key = some mapped → mapped ∈ reserved

theorem ScopeGood.empty (reserved : Finset String) : ScopeGood mapper toolName ∅ reserved where
  injective := by
    intro key₁ key₂ mapped h
    simp at h
  generated := by
    intro key mapped h
    simp at h
  reserved := by
    intro key mapped h
    simp at h

theorem ScopeGood.mono {reserved reserved' : Finset String}
    (h : ScopeGood mapper toolName scopeMap reserved) (hsub : reserved ⊆ reserved') :
    ScopeGood mapper toolName scopeMap reserved' :=
  ⟨h.injective, h.generated, fun key mapped hkey => hsub (h.reserved key mapped hkey)⟩

theorem lookup_insert_cases {key key' sanitized mapped : String}
    (h : (scopeMap.insert key sanitized).lookup key' = some mapped) :
    key' = key ∧ mapped = sanitized ∨ key' ≠ key ∧ scopeMap.lookup key' = some mapped := by
  by_cases heq : key' = key
  · subst heq
    rw [Finmap.lookup_insert] at h
    exact .inl ⟨rfl, (Option.some.inj h).symm⟩
  · rw [Finmap.lookup_insert_of_ne _ heq] at h
    exact .inr ⟨heq, h⟩

theorem ScopeGood.insert {reserved : Finset String} {key sanitized : String}
    (h : ScopeGood mapper toolName scopeMap reserved) (hnotin : sanitized ∉ reserved)
    (hgenerated : Generated mapper toolName sanitized) :
    ScopeGood mapper toolName (scopeMap.insert key sanitized) (insert sanitized reserved) where
  injective := by
    intro key₁ key₂ mapped h₁ h₂
    rcases lookup_insert_cases h₁ with ⟨hkey₁, heq₁⟩ | ⟨-, hold₁⟩ <;>
      rcases lookup_insert_cases h₂ with ⟨hkey₂, heq₂⟩ | ⟨-, hold₂⟩
    · rw [hkey₁, hkey₂]
    · exact absurd (heq₁ ▸ h.reserved _ _ hold₂) hnotin
    · exact absurd (heq₂ ▸ h.reserved _ _ hold₁) hnotin
    · exact h.injective _ _ _ hold₁ hold₂
  generated := by
    intro key' mapped h'
    rcases lookup_insert_cases h' with ⟨-, rfl⟩ | ⟨-, h'⟩
    · exact hgenerated
    · exact h.generated _ _ h'
  reserved := by
    intro key' mapped h'
    rcases lookup_insert_cases h' with ⟨-, rfl⟩ | ⟨-, h'⟩
    · exact Finset.mem_insert_self _ _
    · exact Finset.mem_insert_of_mem (h.reserved _ _ h')

/-- No property already written is overwritten by one still to be read. -/
structure PropertyLoopInv (mapper : SchemaKeyMapper) (toolName : String) (base : Finset String)
    (old new : Fields) (scopeMap : ScopeMap) (reserved : Finset String) : Prop where
  base_subset : base ⊆ reserved
  nodup : (old.map Prod.fst).Nodup
  valid_mem : ∀ y ∈ old, mapper.isMatch y.1 = true → y.1 ∈ base ∧ ∀ x ∈ new, x.1 ≠ y.1
  new_mem : ∀ x ∈ new, x.1 ∈ reserved
  scope : ScopeGood mapper toolName scopeMap reserved

theorem PropertyLoopInv.output {path output : String} {y : String × Json} {old new : Fields}
    {scopeMap scopeMap₁ : ScopeMap} {state state₁ : SanitizeState}
    (h : PropertyLoopInv mapper toolName base (y :: old) new scopeMap state.reserved)
    (hmode : mapper.mode = .sanitize)
    (h₁ : mapper.outputKey toolName path y.1 scopeMap state = .ok (output, scopeMap₁, state₁)) :
    (∀ x ∈ new, x.1 ≠ output) ∧ (∀ z ∈ old, mapper.isMatch z.1 = true → output ≠ z.1) ∧
      output ∈ state₁.reserved ∧ ScopeGood mapper toolName scopeMap₁ state₁.reserved := by
  rcases outputKey_spec hmode h₁ with
    ⟨hmatch, rfl, rfl, rfl⟩ | ⟨-, -, hnotin, hgenerated, rfl, hstate⟩
  · obtain ⟨hbase, hne⟩ := h.valid_mem y List.mem_cons_self hmatch
    refine ⟨hne, fun z hz _ heq => ?_, h.base_subset hbase, h.scope⟩
    exact (List.nodup_cons.mp h.nodup).1 (List.mem_map.mpr ⟨z, hz, heq.symm⟩)
  · rw [hstate]
    refine ⟨fun x hx heq => hnotin (heq ▸ h.new_mem x hx), fun z hz hvalid heq => hnotin ?_,
      Finset.mem_insert_self _ _, h.scope.insert hnotin hgenerated⟩
    rw [heq]
    exact h.base_subset (h.valid_mem z (List.mem_cons_of_mem _ hz) hvalid).1

theorem PropertyLoopInv.step {path output : String} {y : String × Json} {schema : Json}
    {old new : Fields} {scopeMap scopeMap₁ : ScopeMap} {state state₁ : SanitizeState}
    {reserved : Finset String}
    (h : PropertyLoopInv mapper toolName base (y :: old) new scopeMap state.reserved)
    (hmode : mapper.mode = .sanitize)
    (h₁ : mapper.outputKey toolName path y.1 scopeMap state = .ok (output, scopeMap₁, state₁))
    (hsub : state₁.reserved ⊆ reserved) :
    PropertyLoopInv mapper toolName base old (insertField new output schema) scopeMap₁ reserved := by
  obtain ⟨-, hold, houtput, hscope⟩ := h.output hmode h₁
  have hmono := (outputKey_match hmode h₁).2.trans hsub
  refine ⟨h.base_subset.trans hmono, (List.nodup_cons.mp h.nodup).2, fun z hz hvalid => ?_,
    fun x hx => ?_, hscope.mono hsub⟩
  · obtain ⟨hbase, hne⟩ := h.valid_mem z (List.mem_cons_of_mem _ hz) hvalid
    refine ⟨hbase, fun x hx => ?_⟩
    rcases mem_insertField hx with hx | hx
    · cases hx
      exact hold z hz hvalid
    · exact hne x hx
  · rcases mem_insertField hx with hx | hx
    · cases hx
      exact hsub houtput
    · exact hmono (h.new_mem x hx)

theorem sanitizePropertyLoop_survives (hgrow : Grows child) (hmode : mapper.mode = .sanitize)
    {path : String} {old new new' : Fields} {scopeMap scopeMap' : ScopeMap}
    (hinv : PropertyLoopInv mapper toolName base old new scopeMap state.reserved)
    (h : mapper.sanitizePropertyLoop child toolName path old new scopeMap state =
      .ok (new', scopeMap', state')) :
    (∀ x ∈ new, x ∈ new') ∧ (∀ y ∈ old, ∃ x ∈ new', Rewrites (Reserving base) child y.2 x.2) ∧
      ScopeGood mapper toolName scopeMap' state'.reserved := by
  induction old generalizing new scopeMap state with
  | nil =>
    cases h
    exact ⟨fun x hx => hx, fun y hy => absurd hy List.not_mem_nil, hinv.scope⟩
  | cons y old ih =>
    obtain ⟨⟨output, scopeMap₁, state₁⟩, h₁, h⟩ := exists_of_bind_eq_ok h
    obtain ⟨⟨schema, state₂⟩, h₂, h⟩ := exists_of_bind_eq_ok h
    have hI₁ : Reserving base state₁ := hinv.base_subset.trans (outputKey_match hmode h₁).2
    have hsub : state₁.reserved ⊆ state₂.reserved :=
      hgrow state₁.reserved _ _ _ _ _ (Finset.Subset.refl _) h₂
    obtain ⟨hnew, hold, hscope⟩ := ih (hinv.step hmode h₁ hsub) h
    refine ⟨fun x hx => hnew x ?_, fun z hz => ?_, hscope⟩
    · exact mem_insertField_of_ne hx ((hinv.output hmode h₁).1 x hx)
    · rcases List.mem_cons.mp hz with rfl | hz
      · exact ⟨_, hnew _ (mem_insertField_self _ _ _), _, _, _, hI₁, h₂⟩
      · exact hold z hz

end KiroProxy.ToolSchemaKeys
