import KiroProxy.ToolSchemaKeys.Rewriting

/-!
# The rewriting of one object

Where the children of a rewritten object come from, and which children of the original
survive. Only the maps whose keys are renamed can lose an entry, to a key that has the
form of a generated one.
-/

namespace KiroProxy.ToolSchemaKeys

open Json Transition

variable {mapper : SchemaKeyMapper} {toolName : String} {base : Finset String}
  {child : Sanitizer} {scopeMap : ScopeMap}

variable {fields : Fields} {key : String}

theorem getField_rewriteField_of_ne {key key' : String} {rewrite : Json → Json} (h : key' ≠ key) :
    getField (rewriteField fields key rewrite) key' = getField fields key' := by
  unfold rewriteField
  split
  · exact getField_setField_of_ne h
  · rfl

def rewriteMap (scopeMap : ScopeMap) (key : String) (rewrite : Json → Json) (fields : Fields) :
    Fields :=
  if scopeMap = ∅ then fields
  else rewriteField fields key (onObject (renameKeys scopeMap rewrite))

theorem getField_rewriteMap_of_ne {key key' : String} {rewrite : Json → Json} (h : key' ≠ key) :
    getField (rewriteMap scopeMap key rewrite fields) key' = getField fields key' := by
  unfold rewriteMap
  split_ifs
  · rfl
  · exact getField_rewriteField_of_ne h

theorem objectField_rewriteField (rewrite : Json → Json) :
    objectField (rewriteField fields key (onObject (renameKeys scopeMap rewrite))) key =
      renameKeys scopeMap rewrite (objectField fields key) := by
  cases hkey : getField fields key with
  | none => simp only [rewriteField, objectField, hkey, renameKeys, List.foldl_nil]
  | some value =>
    cases value with
    | obj map => simp only [rewriteField, objectField, hkey, getField_setField_self hkey, onObject]
    | _ =>
      simp only [rewriteField, objectField, hkey, getField_setField_self hkey, onObject, renameKeys,
        List.foldl_nil]

section RewriteMap

variable {rewrite : Json → Json} {P : Json → Prop}

theorem mem_objectField_rewriteMap (hfix : ∀ v, P (rewrite v) → rewrite v = v) {fields : Fields}
    {key : String} {x : String × Json}
    (hx : x ∈ objectField (rewriteMap scopeMap key rewrite fields) key) (hP : P x.2) :
    ∃ y ∈ objectField fields key, y.2 = x.2 := by
  unfold rewriteMap at hx
  split_ifs at hx
  · exact ⟨x, hx, rfl⟩
  · rw [objectField_rewriteField] at hx
    rcases mem_of_mem_foldl_insertField hx with hx | ⟨y, hy, rfl⟩
    · cases hx
    · exact ⟨y, hy, (hfix y.2 hP).symm⟩

theorem exists_mem_objectField_rewriteMap (hfix : ∀ v, P v → rewrite v = v) {fields : Fields}
    {key : String} (hnodup : ((objectField fields key).map Prod.fst).Nodup)
    (hinj : ScopeInjective scopeMap)
    (hfresh : ∀ x ∈ objectField fields key, ∀ k, scopeMap.lookup k ≠ some x.1)
    {y : String × Json} (hy : y ∈ objectField fields key) (hP : P y.2) :
    ∃ x ∈ objectField (rewriteMap scopeMap key rewrite fields) key, x.2 = y.2 := by
  unfold rewriteMap
  split_ifs
  · exact ⟨y, hy, rfl⟩
  · rw [objectField_rewriteField]
    have hsurvive : (renamed scopeMap y.1, rewrite y.2) ∈
        renameKeys scopeMap rewrite (objectField fields key) :=
      (mem_foldl_insertField (nodup_renamed hnodup hinj hfresh)
        fun x hx => absurd hx List.not_mem_nil).2 y hy
    exact ⟨_, hsurvive, hfix y.2 hP⟩

end RewriteMap

/-- The fields that the rewriting of property names may change. -/
def nameKeywords :
    List String := ["required", "dependentRequired", "dependentSchemas", "dependencies"]

/-- The fields after the four rewritings that follow the properties. -/
def rewriteNames (scopeMap : ScopeMap) (fields : Fields) : Fields :=
  rewriteDependencies scopeMap (rewriteDependentSchemaKeys scopeMap
    (rewriteDependentRequired scopeMap (rewriteRequired scopeMap fields)))

theorem getField_rewriteRequired (h : key ≠ "required") :
    getField (rewriteRequired scopeMap fields) key = getField fields key := by
  unfold rewriteRequired
  split_ifs
  · rfl
  · exact getField_rewriteField_of_ne h

theorem getField_rewriteNames (h : key ∉ nameKeywords) :
    getField (rewriteNames scopeMap fields) key = getField fields key := by
  simp only [nameKeywords, List.mem_cons, List.not_mem_nil, or_false, not_or] at h
  obtain ⟨hrequired, hdependentRequired, hschemas, hdependencies⟩ := h
  calc getField (rewriteNames scopeMap fields) key
      = getField (rewriteDependentSchemaKeys scopeMap
          (rewriteDependentRequired scopeMap (rewriteRequired scopeMap fields))) key :=
        getField_rewriteMap_of_ne hdependencies
    _ = getField (rewriteDependentRequired scopeMap (rewriteRequired scopeMap fields)) key :=
        getField_rewriteMap_of_ne hschemas
    _ = getField (rewriteRequired scopeMap fields) key :=
        getField_rewriteMap_of_ne hdependentRequired
    _ = getField fields key := getField_rewriteRequired hrequired

theorem isSchema_rewritePropertyNameArray {v : Json}
    (h : isSchema (rewritePropertyNameArray scopeMap v) = true) :
    rewritePropertyNameArray scopeMap v = v := by
  cases v with
  | arr items => cases h
  | _ => rfl

theorem rewritePropertyNameArray_of_isSchema {v : Json} (h : isSchema v = true) :
    rewritePropertyNameArray scopeMap v = v := by
  cases v with
  | arr items => cases h
  | _ => rfl

theorem objectField_dependentSchemas_rewriteNames (fields : Fields) :
    objectField (rewriteNames scopeMap fields) "dependentSchemas" =
      objectField (rewriteMap scopeMap "dependentSchemas" id
        (rewriteDependentRequired scopeMap (rewriteRequired scopeMap fields))) "dependentSchemas" :=
  objectField_eq_of_getField (getField_rewriteMap_of_ne (by decide))

theorem objectField_before_dependentSchemas (scopeMap : ScopeMap) (fields : Fields) :
    objectField (rewriteDependentRequired scopeMap (rewriteRequired scopeMap fields))
      "dependentSchemas" = objectField fields "dependentSchemas" :=
  objectField_eq_of_getField
    ((getField_rewriteMap_of_ne (by decide)).trans (getField_rewriteRequired (by decide)))

theorem objectField_before_dependencies (scopeMap : ScopeMap) (fields : Fields) :
    objectField (rewriteDependentSchemaKeys scopeMap
      (rewriteDependentRequired scopeMap (rewriteRequired scopeMap fields))) "dependencies" =
      objectField fields "dependencies" :=
  objectField_eq_of_getField ((getField_rewriteMap_of_ne (by decide)).trans
    ((getField_rewriteMap_of_ne (by decide)).trans (getField_rewriteRequired (by decide))))

theorem mem_dependentSchemas_rewriteNames {x : String × Json}
    (hx : x ∈ objectField (rewriteNames scopeMap fields) "dependentSchemas") :
    ∃ y ∈ objectField fields "dependentSchemas", y.2 = x.2 := by
  rw [objectField_dependentSchemas_rewriteNames] at hx
  rw [← objectField_before_dependentSchemas scopeMap]
  exact mem_objectField_rewriteMap (P := fun _ => True) (fun _ _ => rfl) hx trivial

theorem mem_dependencies_rewriteNames {x : String × Json}
    (hx : x ∈ objectField (rewriteNames scopeMap fields) "dependencies")
    (hschema : isSchema x.2 = true) : ∃ y ∈ objectField fields "dependencies", y.2 = x.2 := by
  rw [← objectField_before_dependencies scopeMap]
  exact mem_objectField_rewriteMap (P := fun v => isSchema v = true)
    (fun _ => isSchema_rewritePropertyNameArray) hx hschema

/-- No key of the two renamed maps has the form of a generated key. -/
def FreshKeys (mapper : SchemaKeyMapper) (toolName : String) (fields : Fields) : Prop :=
  ∀ key ∈ ["dependentSchemas", "dependencies"], ∀ x ∈ objectField fields key,
    ¬ Generated mapper toolName x.1

section Fresh

variable {fields : Fields} {reserved : Finset String}

theorem nodup_objectField (key : String) (h : (Json.obj fields).WellFormed) :
    ((objectField fields key).map Prod.fst).Nodup := by
  unfold objectField
  split
  · next map hmap => exact nodup_keys (Member.wellFormed (.field (mem_of_getField hmap)) h)
  · exact List.nodup_nil

theorem exists_mem_dependentSchemas_rewriteNames
    (hnodup : ((objectField fields "dependentSchemas").map Prod.fst).Nodup)
    (hscope : ScopeGood mapper toolName scopeMap reserved)
    (hfresh : FreshKeys mapper toolName fields) {y : String × Json}
    (hy : y ∈ objectField fields "dependentSchemas") :
    ∃ x ∈ objectField (rewriteNames scopeMap fields) "dependentSchemas", x.2 = y.2 := by
  rw [objectField_dependentSchemas_rewriteNames]
  rw [← objectField_before_dependentSchemas scopeMap] at hy
  refine exists_mem_objectField_rewriteMap (P := fun _ => True) (fun _ _ => rfl) ?_
    hscope.injective ?_ hy trivial
  · rw [objectField_before_dependentSchemas]
    exact hnodup
  · intro x hx key hkey
    rw [objectField_before_dependentSchemas] at hx
    exact hfresh _ (by decide) x hx (hscope.generated _ _ hkey)

theorem exists_mem_dependencies_rewriteNames
    (hnodup : ((objectField fields "dependencies").map Prod.fst).Nodup)
    (hscope : ScopeGood mapper toolName scopeMap reserved)
    (hfresh : FreshKeys mapper toolName fields) {y : String × Json}
    (hy : y ∈ objectField fields "dependencies") (hschema : isSchema y.2 = true) :
    ∃ x ∈ objectField (rewriteNames scopeMap fields) "dependencies", x.2 = y.2 := by
  rw [← objectField_before_dependencies scopeMap] at hy
  refine exists_mem_objectField_rewriteMap (P := fun v => isSchema v = true)
    (fun _ => rewritePropertyNameArray_of_isSchema) ?_ hscope.injective ?_ hy hschema
  · rw [objectField_before_dependencies]
    exact hnodup
  · intro x hx key hkey
    rw [objectField_before_dependencies] at hx
    exact hfresh _ (by decide) x hx (hscope.generated _ _ hkey)

end Fresh

section Object

variable {path : String} {fields fields' : Fields} {state state' : SanitizeState}

theorem sanitizeProperties_spec (hgrow : Grows child) (hmode : mapper.mode = .sanitize)
    (hI : Reserving base state)
    (h : mapper.sanitizeProperties child toolName path fields state =
      .ok (fields', scopeMap, state')) :
    Reserving base state' ∧ (∀ key ≠ "properties", getField fields' key = getField fields key) ∧
      ∀ x ∈ objectField fields' "properties", mapper.isMatch x.1 = true ∧
        ∃ y ∈ objectField fields "properties", Rewrites (Reserving base) child y.2 x.2 := by
  unfold SchemaKeyMapper.sanitizeProperties at h
  split at h
  · next properties hproperties =>
    obtain ⟨⟨new, scopeMap₁, state₁⟩, h₁, h⟩ := exists_of_bind_eq_ok h
    cases h
    obtain ⟨hI', hmem⟩ := sanitizePropertyLoop_mem hgrow hmode hI h₁
    refine ⟨hI', fun key hkey => getField_setField_of_ne hkey, fun x hx => ?_⟩
    simp only [objectField, getField_setField_self hproperties] at hx
    simp only [objectField, hproperties]
    exact (hmem x hx).resolve_left List.not_mem_nil
  · next hproperties =>
    cases h
    refine ⟨hI, fun _ _ => rfl, fun x hx => ?_⟩
    obtain ⟨map, hmap, -⟩ := mem_of_mem_objectField hx
    exact absurd hmap (hproperties map)

theorem sanitizeProperties_survives (hgrow : Grows child) (hmode : mapper.mode = .sanitize)
    (hI : Reserving base state) (hwf : (Json.obj fields).WellFormed)
    (hbase : ∀ key ∈ propertyKeys (.obj fields), mapper.isMatch key = true → key ∈ base)
    (h : mapper.sanitizeProperties child toolName path fields state =
      .ok (fields', scopeMap, state')) :
    (∀ y ∈ objectField fields "properties", ∃ x ∈ objectField fields' "properties",
      Rewrites (Reserving base) child y.2 x.2) ∧
      ScopeGood mapper toolName scopeMap state'.reserved := by
  have hnodup := nodup_objectField "properties" hwf
  unfold SchemaKeyMapper.sanitizeProperties at h
  split at h
  · next properties hproperties =>
    obtain ⟨⟨new, scopeMap₁, state₁⟩, h₁, h⟩ := exists_of_bind_eq_ok h
    cases h
    simp only [propertyKeys, objectField, hproperties] at hbase hnodup ⊢
    rw [getField_setField_self hproperties]
    have hinv : PropertyLoopInv mapper toolName base properties [] ∅ state.reserved := by
      refine ⟨hI, hnodup, fun y hy hmatch => ?_, fun x hx => absurd hx List.not_mem_nil,
        ScopeGood.empty _⟩
      exact ⟨hbase y.1 (List.mem_map_of_mem hy) hmatch, fun x hx => absurd hx List.not_mem_nil⟩
    exact (sanitizePropertyLoop_survives hgrow hmode hinv h₁).2
  · next hproperties =>
    cases h
    refine ⟨fun y hy => ?_, ScopeGood.empty _⟩
    obtain ⟨map, hmap, -⟩ := mem_of_mem_objectField hy
    exact absurd hmap (hproperties map)

section Keeps

variable (hgrow : Grows child) (key : String) (value : Json) (state : SanitizeState) (value' : Json)
  (state' : SanitizeState) (hI : Reserving base state)

include hgrow hI

theorem sanitizeMapKeyword_keeps
    (h : sanitizeMapKeyword child path key value state = .ok (value', state')) :
    Reserving base state' :=
  (sanitizeMapKeyword_spec (hgrow base) hI h).1

theorem sanitizeValueKeyword_keeps
    (h : sanitizeValueKeyword child path key value state = .ok (value', state')) :
    Reserving base state' :=
  hgrow base _ _ _ _ _ hI h

theorem sanitizeArrayKeyword_keeps
    (h : sanitizeArrayKeyword child path key value state = .ok (value', state')) :
    Reserving base state' :=
  (sanitizeArrayKeyword_spec (hgrow base) hI h).1

end Keeps

/-- What the three keyword loops do to the fields of one object. -/
structure KeywordsRewritten (base : Finset String) (child : Sanitizer) (fields fields' : Fields) :
    Prop where
  maps : ∀ key ∈ schemaMapKeywords, List.Forall₂ (EntryRewrites (Reserving base) child)
    (objectField fields key) (objectField fields' key)
  values : ∀ key ∈ schemaValueKeywords, Option.Rel (Rewrites (Reserving base) child)
    (getField fields key) (getField fields' key)
  arrays : ∀ key ∈ schemaArrayKeywords, List.Forall₂ (Rewrites (Reserving base) child)
    (arrayField fields key) (arrayField fields' key)
  others : ∀ key ∉ schemaMapKeywords ++ schemaValueKeywords ++ schemaArrayKeywords,
    getField fields' key = getField fields key

variable {key : String}

theorem mapKeyword_not_mem (h : key ∈ schemaMapKeywords) :
    key ∉ schemaValueKeywords ∧ key ∉ schemaArrayKeywords := by
  revert h key
  decide

theorem valueKeyword_not_mem (h : key ∈ schemaValueKeywords) :
    key ∉ schemaMapKeywords ∧ key ∉ schemaArrayKeywords := by
  revert h key
  decide

theorem arrayKeyword_not_mem (h : key ∈ schemaArrayKeywords) :
    key ∉ schemaMapKeywords ∧ key ∉ schemaValueKeywords := by
  revert h key
  decide

theorem keywordsRewritten (hgrow : Grows child) {fields₁ fields₂ fields₃ fields₄ : Fields}
    {state₁ state₂ state₃ state₄ : SanitizeState} (hI : Reserving base state₁)
    (h₁ : sanitizeKeywords (sanitizeMapKeyword child path) schemaMapKeywords fields₁ state₁ =
      .ok (fields₂, state₂))
    (h₂ : sanitizeKeywords (sanitizeValueKeyword child path) schemaValueKeywords fields₂ state₂ =
      .ok (fields₃, state₃))
    (h₃ : sanitizeKeywords (sanitizeArrayKeyword child path) schemaArrayKeywords fields₃ state₃ =
      .ok (fields₄, state₄)) :
    Reserving base state₄ ∧ KeywordsRewritten base child fields₁ fields₄ := by
  obtain ⟨hI₂, hother₁, hself₁⟩ :=
    sanitizeKeywords_spec (sanitizeMapKeyword_keeps hgrow) (by decide) hI h₁
  obtain ⟨hI₃, hother₂, hself₂⟩ :=
    sanitizeKeywords_spec (sanitizeValueKeyword_keeps hgrow) (by decide) hI₂ h₂
  obtain ⟨hI₄, hother₃, hself₃⟩ :=
    sanitizeKeywords_spec (sanitizeArrayKeyword_keeps hgrow) (by decide) hI₃ h₃
  refine ⟨hI₄, fun key hkey => ?_, fun key hkey => ?_, fun key hkey => ?_, fun key hkey => ?_⟩
  · obtain ⟨hvalue, harray⟩ := mapKeyword_not_mem hkey
    rw [objectField_eq_of_getField ((hother₃ key harray).trans (hother₂ key hvalue))]
    exact objectField_rewrites (hgrow base) (hself₁ key hkey)
  · obtain ⟨hmap, harray⟩ := valueKeyword_not_mem hkey
    have hrel := hself₂ key hkey
    rw [← hother₁ key hmap, hother₃ key harray]
    generalize getField fields₂ key = old at hrel
    generalize getField fields₃ key = new at hrel
    cases hrel with
    | none => exact .none
    | some hrel =>
      obtain ⟨state, state', hI, h⟩ := hrel
      exact .some ⟨_, state, state', hI, h⟩
  · obtain ⟨hmap, hvalue⟩ := arrayKeyword_not_mem hkey
    rw [← arrayField_eq_of_getField ((hother₂ key hvalue).trans (hother₁ key hmap))]
    exact arrayField_rewrites (hgrow base) (hself₃ key hkey)
  · simp only [List.mem_append, not_or] at hkey
    rw [hother₃ key hkey.2, hother₂ key hkey.1.2, hother₁ key hkey.1.1]

structure ObjectRewritten (mapper : SchemaKeyMapper) (child : Sanitizer) (base : Finset String)
    (scopeMap : ScopeMap) (fields middle fields' : Fields) : Prop where
  unchanged : ∀ key ≠ "properties", getField middle key = getField fields key
  properties : ∀ x ∈ objectField middle "properties", mapper.isMatch x.1 = true ∧
    ∃ y ∈ objectField fields "properties", Rewrites (Reserving base) child y.2 x.2
  keywords : KeywordsRewritten base child (rewriteNames scopeMap middle) fields'

theorem sanitizeSchemaValue_obj {fuel : ℕ} {value' : Json}
    (hgrow : Grows (sanitizeSchemaValue mapper toolName fuel))
    (hmode : mapper.mode = .sanitize) (hI : Reserving base state)
    (h : sanitizeSchemaValue mapper toolName (fuel + 1) path (.obj fields) state =
      .ok (value', state')) :
    Reserving base state' ∧ ∃ middle scopeMap fields' state₁, value' = .obj fields' ∧
      mapper.sanitizeProperties (sanitizeSchemaValue mapper toolName fuel) toolName path fields state =
        .ok (middle, scopeMap, state₁) ∧
      ObjectRewritten mapper (sanitizeSchemaValue mapper toolName fuel) base scopeMap
        fields middle fields' := by
  obtain ⟨⟨fields₁, scopeMap, state₁⟩, h₁, h⟩ := exists_of_bind_eq_ok h
  obtain ⟨⟨fields₂, state₂⟩, h₂, h⟩ := exists_of_bind_eq_ok h
  obtain ⟨⟨fields₃, state₃⟩, h₃, h⟩ := exists_of_bind_eq_ok h
  obtain ⟨⟨fields₄, state₄⟩, h₄, h⟩ := exists_of_bind_eq_ok h
  cases h
  obtain ⟨hI₁, hunchanged, hproperties⟩ := sanitizeProperties_spec hgrow hmode hI h₁
  obtain ⟨hI₄, hkeywords⟩ := keywordsRewritten hgrow hI₁ h₂ h₃ h₄
  exact ⟨hI₄, fields₁, scopeMap, fields₄, state₁, rfl, h₁, hunchanged, hproperties, hkeywords⟩

theorem mapKeyword_names (h : key ∈ schemaMapKeywords) (hne : key ≠ "dependentSchemas") :
    key ≠ "properties" ∧ key ∉ nameKeywords := by
  revert h hne key
  decide

theorem valueKeyword_names (h : key ∈ schemaValueKeywords) :
    key ≠ "properties" ∧ key ∉ nameKeywords := by
  revert h key
  decide

theorem arrayKeyword_names (h : key ∈ schemaArrayKeywords) :
    key ≠ "properties" ∧ key ∉ nameKeywords := by
  revert h key
  decide

theorem exists_of_forall₂ {α β : Type} {R : α → β → Prop} {l : List α} {l' : List β}
    (h : List.Forall₂ R l l') :
    (∀ b ∈ l', ∃ a ∈ l, R a b) ∧ ∀ a ∈ l, ∃ b ∈ l', R a b := by
  induction h with
  | nil => exact ⟨fun b hb => absurd hb List.not_mem_nil, fun a ha => absurd ha List.not_mem_nil⟩
  | cons hab _ ih =>
    simp only [List.exists_mem_cons_iff, List.forall_mem_cons]
    exact ⟨⟨.inl hab, fun b hb => .inr (ih.1 b hb)⟩, .inl hab, fun a ha => .inr (ih.2 a ha)⟩

end Object

namespace ObjectRewritten

variable {fields middle fields' : Fields}
  (hobject : ObjectRewritten mapper child base scopeMap fields middle fields')

include hobject

variable {key : String} {value' value : Json}

theorem getField_names (hne : key ≠ "properties") (hkey : key ∉ nameKeywords) :
    getField (rewriteNames scopeMap middle) key = getField fields key := by
  rw [getField_rewriteNames hkey]
  exact hobject.unchanged key hne

theorem objectField_properties :
    objectField fields' "properties" = objectField middle "properties" :=
  objectField_eq_of_getField ((hobject.keywords.others "properties" (by decide)).trans
    (getField_rewriteNames (by decide)))

theorem propertyKeys_match : ∀ key ∈ propertyKeys (.obj fields'), mapper.isMatch key = true := by
  intro key hkey
  rw [propertyKeys, hobject.objectField_properties] at hkey
  obtain ⟨x, hx, rfl⟩ := List.mem_map.mp hkey
  exact (hobject.properties x hx).1

theorem mem_dependencySchemas {dependency : Json}
    (h : dependency ∈ dependencySchemas (.obj fields')) :
    dependency ∈ dependencySchemas (.obj fields) := by
  obtain ⟨hmem, hschema⟩ := List.mem_filter.mp h
  obtain ⟨x, hx, rfl⟩ := List.mem_map.mp hmem
  rw [objectField_eq_of_getField (hobject.keywords.others "dependencies" (by decide))] at hx
  obtain ⟨y, hy, hxy⟩ := mem_dependencies_rewriteNames hx hschema
  rw [objectField_eq_of_getField (hobject.unchanged "dependencies" (by decide))] at hy
  rw [← hxy] at hschema ⊢
  exact List.mem_filter.mpr ⟨List.mem_map_of_mem hy, hschema⟩

theorem mem_mapKeyword (hkey : key ∈ schemaMapKeywords) {x : String × Json}
    (hx : x ∈ objectField fields' key) :
    ∃ y ∈ objectField fields key, Rewrites (Reserving base) child y.2 x.2 := by
  obtain ⟨z, hz, -, hrewrites⟩ := (exists_of_forall₂ (hobject.keywords.maps key hkey)).1 x hx
  by_cases heq : key = "dependentSchemas"
  · subst heq
    obtain ⟨y, hy, hyz⟩ := mem_dependentSchemas_rewriteNames hz
    rw [objectField_eq_of_getField (hobject.unchanged _ (by decide))] at hy
    exact ⟨y, hy, hyz ▸ hrewrites⟩
  · obtain ⟨hne, hnames⟩ := mapKeyword_names hkey heq
    rw [objectField_eq_of_getField (hobject.getField_names hne hnames)] at hz
    exact ⟨z, hz, hrewrites⟩

theorem mem_valueKeyword (hkey : key ∈ schemaValueKeywords) (h : getField fields' key = some value') :
    ∃ value, getField fields key = some value ∧ Rewrites (Reserving base) child value value' := by
  obtain ⟨hne, hnames⟩ := valueKeyword_names hkey
  have hrel := hobject.keywords.values key hkey
  rw [hobject.getField_names hne hnames, h] at hrel
  generalize getField fields key = old at hrel
  cases hrel with
  | some hrewrites => exact ⟨_, rfl, hrewrites⟩

theorem mem_arrayKeyword (hkey : key ∈ schemaArrayKeywords) (h : value' ∈ arrayField fields' key) :
    ∃ value ∈ arrayField fields key, Rewrites (Reserving base) child value value' := by
  obtain ⟨hne, hnames⟩ := arrayKeyword_names hkey
  have hrel := hobject.keywords.arrays key hkey
  rw [arrayField_eq_of_getField (hobject.getField_names hne hnames)] at hrel
  exact (exists_of_forall₂ hrel).1 value' h

theorem exists_original (h : value' ∈ sanitizedChildren (.obj fields')) :
    ∃ value ∈ sanitizedChildren (.obj fields), Rewrites (Reserving base) child value value' := by
  simp only [sanitizedChildren, List.mem_append] at h ⊢
  rcases h with ((h | h) | h) | h
  · obtain ⟨x, hx, rfl⟩ := List.mem_map.mp h
    rw [hobject.objectField_properties] at hx
    obtain ⟨-, y, hy, hrewrites⟩ := hobject.properties x hx
    exact ⟨y.2, .inl (.inl (.inl (List.mem_map_of_mem hy))), hrewrites⟩
  · obtain ⟨key, hkey, h⟩ := List.mem_flatMap.mp h
    obtain ⟨x, hx, rfl⟩ := List.mem_map.mp h
    obtain ⟨y, hy, hrewrites⟩ := hobject.mem_mapKeyword hkey hx
    exact ⟨y.2, .inl (.inl (.inr (List.mem_flatMap.mpr ⟨key, hkey, List.mem_map_of_mem hy⟩))),
      hrewrites⟩
  · obtain ⟨key, hkey, h⟩ := List.mem_filterMap.mp h
    obtain ⟨value, hvalue, hrewrites⟩ := hobject.mem_valueKeyword hkey h
    exact ⟨value, .inl (.inr (List.mem_filterMap.mpr ⟨key, hkey, hvalue⟩)), hrewrites⟩
  · obtain ⟨key, hkey, h⟩ := List.mem_flatMap.mp h
    obtain ⟨value, hvalue, hrewrites⟩ := hobject.mem_arrayKeyword hkey h
    exact ⟨value, .inr (List.mem_flatMap.mpr ⟨key, hkey, hvalue⟩), hrewrites⟩

theorem exists_mem_valueKeyword (hkey : key ∈ schemaValueKeywords)
    (h : getField fields key = some value) :
    ∃ value', getField fields' key = some value' ∧ Rewrites (Reserving base) child value value' := by
  obtain ⟨hne, hnames⟩ := valueKeyword_names hkey
  have hrel := hobject.keywords.values key hkey
  rw [hobject.getField_names hne hnames, h] at hrel
  generalize getField fields' key = new at hrel
  cases hrel with
  | some hrewrites => exact ⟨_, rfl, hrewrites⟩

theorem exists_mem_arrayKeyword (hkey : key ∈ schemaArrayKeywords)
    (h : value ∈ arrayField fields key) :
    ∃ value' ∈ arrayField fields' key, Rewrites (Reserving base) child value value' := by
  obtain ⟨hne, hnames⟩ := arrayKeyword_names hkey
  have hrel := hobject.keywords.arrays key hkey
  rw [arrayField_eq_of_getField (hobject.getField_names hne hnames)] at hrel
  exact (exists_of_forall₂ hrel).2 value h

theorem freshKeys_middle (hfresh : FreshKeys mapper toolName fields) :
    FreshKeys mapper toolName middle := by
  intro key hkey x hx
  have hne : key ≠ "properties" := by
    revert hkey
    simp only [List.mem_cons, List.not_mem_nil, or_false]
    rintro (rfl | rfl) <;> decide
  rw [objectField_eq_of_getField (hobject.unchanged key hne)] at hx
  exact hfresh key hkey x hx

variable {reserved : Finset String} (hwf : (Json.obj fields).WellFormed)
  (hscope : ScopeGood mapper toolName scopeMap reserved) (hfresh : FreshKeys mapper toolName fields)

include hwf hscope hfresh

theorem exists_mem_mapKeyword (hkey : key ∈ schemaMapKeywords) {y : String × Json}
    (hy : y ∈ objectField fields key) :
    ∃ x ∈ objectField fields' key, Rewrites (Reserving base) child y.2 x.2 := by
  have hrel := exists_of_forall₂ (hobject.keywords.maps key hkey)
  by_cases heq : key = "dependentSchemas"
  · subst heq
    have hmiddle := objectField_eq_of_getField (hobject.unchanged "dependentSchemas" (by decide))
    obtain ⟨z, hz, hzy⟩ := exists_mem_dependentSchemas_rewriteNames
      (hmiddle ▸ nodup_objectField _ hwf) hscope (hobject.freshKeys_middle hfresh) (hmiddle ▸ hy)
    obtain ⟨x, hx, -, hrewrites⟩ := hrel.2 z hz
    exact ⟨x, hx, hzy ▸ hrewrites⟩
  · obtain ⟨hne, hnames⟩ := mapKeyword_names hkey heq
    rw [objectField_eq_of_getField (hobject.getField_names hne hnames)] at hrel
    obtain ⟨x, hx, -, hrewrites⟩ := hrel.2 y hy
    exact ⟨x, hx, hrewrites⟩

theorem dependencySchemas_subset {dependency : Json}
    (h : dependency ∈ dependencySchemas (.obj fields)) :
    dependency ∈ dependencySchemas (.obj fields') := by
  obtain ⟨hmem, hschema⟩ := List.mem_filter.mp h
  obtain ⟨y, hy, rfl⟩ := List.mem_map.mp hmem
  have hmiddle := objectField_eq_of_getField (hobject.unchanged "dependencies" (by decide))
  obtain ⟨x, hx, hxy⟩ := exists_mem_dependencies_rewriteNames
    (hmiddle ▸ nodup_objectField _ hwf) hscope (hobject.freshKeys_middle hfresh) (hmiddle ▸ hy)
    hschema
  rw [← objectField_eq_of_getField (hobject.keywords.others "dependencies" (by decide))] at hx
  rw [← hxy] at hschema ⊢
  exact List.mem_filter.mpr ⟨List.mem_map_of_mem hx, hschema⟩

theorem exists_rewritten
    (hproperties : ∀ y ∈ objectField fields "properties", ∃ x ∈ objectField middle "properties",
      Rewrites (Reserving base) child y.2 x.2) (h : value ∈ sanitizedChildren (.obj fields)) :
    ∃ value' ∈ sanitizedChildren (.obj fields'), Rewrites (Reserving base) child value value' := by
  simp only [sanitizedChildren, List.mem_append] at h ⊢
  rcases h with ((h | h) | h) | h
  · obtain ⟨y, hy, rfl⟩ := List.mem_map.mp h
    obtain ⟨x, hx, hrewrites⟩ := hproperties y hy
    rw [← hobject.objectField_properties] at hx
    exact ⟨x.2, .inl (.inl (.inl (List.mem_map_of_mem hx))), hrewrites⟩
  · obtain ⟨key, hkey, h⟩ := List.mem_flatMap.mp h
    obtain ⟨y, hy, rfl⟩ := List.mem_map.mp h
    obtain ⟨x, hx, hrewrites⟩ := hobject.exists_mem_mapKeyword hwf hscope hfresh hkey hy
    exact ⟨x.2, .inl (.inl (.inr (List.mem_flatMap.mpr ⟨key, hkey, List.mem_map_of_mem hx⟩))),
      hrewrites⟩
  · obtain ⟨key, hkey, h⟩ := List.mem_filterMap.mp h
    obtain ⟨value', hvalue', hrewrites⟩ := hobject.exists_mem_valueKeyword hkey h
    exact ⟨value', .inl (.inr (List.mem_filterMap.mpr ⟨key, hkey, hvalue'⟩)), hrewrites⟩
  · obtain ⟨key, hkey, h⟩ := List.mem_flatMap.mp h
    obtain ⟨value', hvalue', hrewrites⟩ := hobject.exists_mem_arrayKeyword hkey h
    exact ⟨value', .inr (List.mem_flatMap.mpr ⟨key, hkey, hvalue'⟩), hrewrites⟩

end ObjectRewritten

end KiroProxy.ToolSchemaKeys
