import KiroProxy.ToolSchemaKeys.Visited

/-!
# Reversal of the rewriting

The mapping of a rewritten schema is flat, while the scopes of property names are nested.
It still sends every property key of a visited object back to its original, since no
generated key is used twice and none is a valid key of a visited object.
-/

namespace KiroProxy.ToolSchemaKeys

open Json Transition

variable {mapper : SchemaKeyMapper} {toolName : String} {base : Finset String}
  {child : Sanitizer} {scopeMap : ScopeMap}

theorem renamed_empty (key : String) : renamed ∅ key = key := by
  rw [renamed, Finmap.lookup_empty, Option.getD_none]

theorem renameString_eq (scopeMap : ScopeMap) (name : String) :
    renameString scopeMap (.str name) = .str (renamed scopeMap name) := by
  unfold renameString renamed
  rw [asStr, Option.bind_some]
  cases scopeMap.lookup name <;> rfl

theorem rewritePropertyNameArray_eq (scopeMap : ScopeMap) (value : Json) :
    rewritePropertyNameArray scopeMap value = substituteNames (renamed scopeMap) value := by
  cases value with
  | arr items =>
    rw [rewritePropertyNameArray, substituteNames]
    congr 1
    refine List.map_congr_left fun item _ => ?_
    cases item with
    | str name => exact renameString_eq scopeMap name
    | _ => rfl
  | _ => rfl

variable (value : Json) {fields : Fields}

theorem substituteNames_empty : substituteNames (renamed ∅) value = value := by
  cases value with
  | arr items =>
    rw [substituteNames]
    congr 1
    refine (List.map_congr_left fun item _ => ?_).trans (List.map_id items)
    cases item with
    | str name => exact congrArg Json.str (renamed_empty name)
    | _ => rfl
  | _ => rfl

theorem exists_mem_insertField (key : String) (value : Json) {x : String × Json} (h : x ∈ fields) :
    ∃ w, (x.1, w) ∈ insertField fields key value := by
  by_cases heq : x.1 = key
  · exact ⟨value, heq ▸ mem_insertField_self _ _ _⟩
  · exact ⟨x.2, mem_insertField_of_ne h heq⟩

theorem exists_mem_foldl_insertField (rewrite : Json → Json) {old : Fields} (out : Fields)
    {key : String}
    (h : (∃ x ∈ out, x.1 = key) ∨ ∃ y ∈ old, renamed scopeMap y.1 = key) :
    ∃ x ∈ old.foldl (fun out (key, value) =>
      insertField out ((scopeMap.lookup key).getD key) (rewrite value)) out, x.1 = key := by
  induction old generalizing out with
  | nil => exact h.resolve_right fun ⟨y, hy, _⟩ => absurd hy List.not_mem_nil
  | cons y old ih =>
    refine ih _ ?_
    rcases h with ⟨x, hx, rfl⟩ | ⟨z, hz, hkey⟩
    · obtain ⟨w, hw⟩ := exists_mem_insertField (renamed scopeMap y.1) (rewrite y.2) hx
      exact .inl ⟨_, hw, rfl⟩
    · rcases List.mem_cons.mp hz with rfl | hz
      · exact .inl ⟨_, mem_insertField_self _ _ _, hkey⟩
      · exact .inr ⟨z, hz, hkey⟩

theorem substitutedMap_renameKeys (scopeMap : ScopeMap) {old : Fields}
    (hnodup : (old.map Prod.fst).Nodup) :
    SubstitutedMap (renamed scopeMap) old
      (renameKeys scopeMap (rewritePropertyNameArray scopeMap) old) := by
  have hsound : ∀ x ∈ renameKeys scopeMap (rewritePropertyNameArray scopeMap) old,
      ∃ y ∈ old, x = (renamed scopeMap y.1, substituteNames (renamed scopeMap) y.2) := by
    intro x hx
    rcases mem_of_mem_foldl_insertField hx with hx | ⟨y, hy, rfl⟩
    · cases hx
    · exact ⟨y, hy, by rw [rewritePropertyNameArray_eq]⟩
  refine ⟨hsound, fun y hy hunique => ?_⟩
  obtain ⟨x, hx, hkey⟩ := exists_mem_foldl_insertField (rewritePropertyNameArray scopeMap) []
    (.inr ⟨y, hy, rfl⟩)
  obtain ⟨z, hz, hxz⟩ := hsound x hx
  have hzy : z.1 = y.1 := hunique z hz (by rw [← hkey, hxz])
  obtain rfl : z = y := List.inj_on_of_nodup_map hnodup hz hy hzy
  rw [← hxz]
  exact hx

theorem substitutedMap_empty (old : Fields) : SubstitutedMap (renamed ∅) old old := by
  refine ⟨fun x hx => ⟨x, hx, ?_⟩, fun y hy _ => ?_⟩
  · rw [renamed_empty, substituteNames_empty]
  · rw [renamed_empty, substituteNames_empty]
    exact hy

theorem substitutedMap_rewriteMap (scopeMap : ScopeMap) {key : String}
    (hnodup : ((objectField fields key).map Prod.fst).Nodup) :
    SubstitutedMap (renamed scopeMap) (objectField fields key) (objectField
      (rewriteMap scopeMap key (rewritePropertyNameArray scopeMap) fields) key) := by
  unfold rewriteMap
  split_ifs with hempty
  · rw [hempty]
    exact substitutedMap_empty _
  · rw [objectField_rewriteField]
    exact substitutedMap_renameKeys scopeMap hnodup

theorem getField_rewriteField_self (fields : Fields) (key : String) (rewrite : Json → Json) :
    getField (rewriteField fields key rewrite) key = (getField fields key).map rewrite := by
  unfold rewriteField
  split
  · next value hvalue => rw [getField_setField_self hvalue, hvalue, Option.map_some]
  · next hnone => rw [hnone, Option.map_none]

theorem getField_rewriteMap_self (fields : Fields) (key : String) (rewrite : Json → Json) :
    getField (rewriteMap scopeMap key rewrite fields) key = (getField fields key).map
      (if scopeMap = ∅ then id else onObject (renameKeys scopeMap rewrite)) := by
  unfold rewriteMap
  split_ifs
  · rw [Option.map_id_fun, id]
  · exact getField_rewriteField_self _ _ _

theorem getField_rewriteRequired_self (scopeMap : ScopeMap) (fields : Fields) :
    getField (rewriteRequired scopeMap fields) "required" =
      (getField fields "required").map (substituteNames (renamed scopeMap)) := by
  unfold rewriteRequired
  split_ifs with hempty
  · rw [hempty]
    cases getField fields "required" with
    | none => rfl
    | some value => rw [Option.map_some, substituteNames_empty]
  · rw [getField_rewriteField_self]
    congr 1
    exact funext (rewritePropertyNameArray_eq scopeMap)

theorem getField_required_rewriteNames (scopeMap : ScopeMap) (fields : Fields) :
    getField (rewriteNames scopeMap fields) "required" =
      (getField fields "required").map (substituteNames (renamed scopeMap)) :=
  calc getField (rewriteNames scopeMap fields) "required"
      = getField (rewriteDependentSchemaKeys scopeMap
          (rewriteDependentRequired scopeMap (rewriteRequired scopeMap fields))) "required" :=
        getField_rewriteMap_of_ne (by decide)
    _ = getField (rewriteDependentRequired scopeMap (rewriteRequired scopeMap fields)) "required" :=
        getField_rewriteMap_of_ne (by decide)
    _ = getField (rewriteRequired scopeMap fields) "required" :=
        getField_rewriteMap_of_ne (by decide)
    _ = (getField fields "required").map (substituteNames (renamed scopeMap)) :=
        getField_rewriteRequired_self scopeMap fields

theorem substitutedMap_dependentRequired
    (hnodup : ((objectField fields "dependentRequired").map Prod.fst).Nodup) :
    SubstitutedMap (renamed scopeMap) (objectField fields "dependentRequired")
      (objectField (rewriteNames scopeMap fields) "dependentRequired") := by
  have hbefore : objectField (rewriteRequired scopeMap fields) "dependentRequired" =
      objectField fields "dependentRequired" :=
    objectField_eq_of_getField (getField_rewriteRequired (by decide))
  have hafter : objectField (rewriteNames scopeMap fields) "dependentRequired" =
      objectField (rewriteDependentRequired scopeMap (rewriteRequired scopeMap fields))
        "dependentRequired" :=
    objectField_eq_of_getField ((getField_rewriteMap_of_ne (by decide)).trans
      (getField_rewriteMap_of_ne (by decide)))
  rw [← hbefore] at hnodup ⊢
  rw [hafter]
  exact substitutedMap_rewriteMap scopeMap hnodup

theorem substitutedMap_dependencies
    (hnodup : ((objectField fields "dependencies").map Prod.fst).Nodup) :
    SubstitutedMap (renamed scopeMap) (objectField fields "dependencies")
      (objectField (rewriteNames scopeMap fields) "dependencies") := by
  rw [← objectField_before_dependencies scopeMap] at hnodup ⊢
  exact substitutedMap_rewriteMap scopeMap hnodup

theorem keywordChildren_congr {fields fields' : Fields}
    (h : ∀ key ∈ schemaMapKeywords ++ schemaValueKeywords ++ schemaArrayKeywords,
      getField fields' key = getField fields key) :
    keywordChildren fields' = keywordChildren fields := by
  simp only [List.mem_append, or_imp, forall_and] at h
  rw [keywordChildren, keywordChildren, keywordValues_congr _ h.1.1, keywordValues_congr _ h.1.2,
    keywordValues_congr _ h.2]

theorem getField_before_dependentSchemas (scopeMap : ScopeMap) (fields : Fields) :
    getField (rewriteDependentRequired scopeMap (rewriteRequired scopeMap fields))
      "dependentSchemas" = getField fields "dependentSchemas" :=
  (getField_rewriteMap_of_ne (by decide)).trans (getField_rewriteRequired (by decide))

/-- Only the keys under `dependentSchemas` are renamed before the keyword loops. -/
theorem keywordChildren_rewriteNames {fields middle : Fields}
    (h : ∀ key ≠ "properties", getField middle key = getField fields key) :
    keywordChildren (rewriteNames scopeMap middle) =
      keywordChildren (rewriteDependentSchemaKeys scopeMap fields) := by
  refine keywordChildren_congr fun key hkey => ?_
  by_cases heq : key = "dependentSchemas"
  · subst heq
    calc getField (rewriteNames scopeMap middle) "dependentSchemas"
        = getField (rewriteDependentSchemaKeys scopeMap (rewriteDependentRequired scopeMap
            (rewriteRequired scopeMap middle))) "dependentSchemas" :=
          getField_rewriteMap_of_ne (by decide)
      _ = (getField middle "dependentSchemas").map
            (if scopeMap = ∅ then id else onObject (renameKeys scopeMap id)) := by
          rw [← getField_before_dependentSchemas scopeMap middle]
          exact getField_rewriteMap_self _ _ _
      _ = getField (rewriteDependentSchemaKeys scopeMap fields) "dependentSchemas" := by
          rw [h _ (by decide)]
          exact (getField_rewriteMap_self _ _ _).symm
  · have hnames : key ≠ "properties" ∧ key ∉ nameKeywords := by
      simp only [List.mem_append] at hkey
      rcases hkey with (hkey | hkey) | hkey
      · exact mapKeyword_names hkey heq
      · exact valueKeyword_names hkey
      · exact arrayKeyword_names hkey
    rw [getField_rewriteNames hnames.2, h key hnames.1]
    exact (getField_rewriteMap_of_ne heq).symm

theorem mem_keywordValues_mapValues {keywords : List String} {value : Json}
    (h : value ∈ keywordValues mapValues keywords fields) :
    ∃ key ∈ keywords, ∃ x ∈ objectField fields key, x.2 = value := by
  obtain ⟨key, hkey, hvalue⟩ := List.mem_flatMap.mp h
  refine ⟨key, hkey, ?_⟩
  unfold objectField
  generalize getField fields key = field at hvalue ⊢
  match field with
  | some (.obj map) => exact List.mem_map.mp hvalue
  | some .null | some (.bool _) | some (.int _) | some (.float _) | some (.str _) | some (.arr _)
  | none => exact absurd hvalue List.not_mem_nil

theorem mem_keywordValues_arrayItems {keywords : List String} {value : Json}
    (h : value ∈ keywordValues arrayItems keywords fields) :
    ∃ key ∈ keywords, value ∈ arrayField fields key := by
  obtain ⟨key, hkey, hvalue⟩ := List.mem_flatMap.mp h
  refine ⟨key, hkey, ?_⟩
  unfold arrayField
  generalize getField fields key = field at hvalue ⊢
  match field with
  | some (.arr items) => exact hvalue
  | some .null | some (.bool _) | some (.int _) | some (.float _) | some (.str _) | some (.obj _)
  | none => exact absurd hvalue List.not_mem_nil

theorem mem_sanitizedChildren_of_keyword {value : Json}
    (h : value ∈ keywordChildren (rewriteDependentSchemaKeys scopeMap fields)) :
    value ∈ sanitizedChildren (.obj fields) := by
  have hkept : ∀ key ≠ "dependentSchemas",
      getField (rewriteDependentSchemaKeys scopeMap fields) key = getField fields key :=
    fun key hkey => getField_rewriteMap_of_ne hkey
  simp only [sanitizedChildren, keywordChildren, List.mem_append] at h ⊢
  rcases h with (h | h) | h
  · obtain ⟨key, hkey, x, hx, rfl⟩ := mem_keywordValues_mapValues h
    refine .inl (.inl (.inr (List.mem_flatMap.mpr ⟨key, hkey, ?_⟩)))
    by_cases heq : key = "dependentSchemas"
    · subst heq
      obtain ⟨y, hy, hyx⟩ :=
        mem_objectField_rewriteMap (P := fun _ => True) (fun _ _ => rfl) hx trivial
      exact hyx ▸ List.mem_map_of_mem hy
    · rw [objectField_eq_of_getField (hkept key heq)] at hx
      exact List.mem_map_of_mem hx
  · obtain ⟨key, hkey, hvalue⟩ := List.mem_flatMap.mp h
    rw [hkept key (by rintro rfl; revert hkey; decide)] at hvalue
    refine .inl (.inr (List.mem_filterMap.mpr ⟨key, hkey, ?_⟩))
    cases hfield : getField fields key with
    | none => rw [hfield] at hvalue; cases hvalue
    | some v =>
      rw [hfield] at hvalue
      rw [List.mem_singleton.mp hvalue]
  · obtain ⟨key, hkey, hvalue⟩ := mem_keywordValues_arrayItems h
    rw [arrayField_eq_of_getField (hkept key (by rintro rfl; revert hkey; decide))] at hvalue
    exact .inr (List.mem_flatMap.mpr ⟨key, hkey, hvalue⟩)

theorem sanitizeSchemaValue_visits_obj {good : Json → Prop} {fuel : ℕ} {path : String}
    {value' : Json} {state state' : SanitizeState}
    (htracing : Tracing mapper.isMatch base good (sanitizeSchemaValue mapper toolName fuel))
    (hmode : mapper.mode = .sanitize) (hwf : (Json.obj fields).WellFormed)
    (hbase : ∀ key ∈ propertyKeys (.obj fields), mapper.isMatch key = true → key ∈ base)
    (hgood : ∀ value ∈ sanitizedChildren (.obj fields), good value) (hI : Reserving base state)
    (h : sanitizeSchemaValue mapper toolName (fuel + 1) path (.obj fields) state =
      .ok (value', state')) :
    Visits mapper.isMatch base (Traversal (.obj fields) value') state state' := by
  obtain ⟨⟨middle, scopeMap, state₁⟩, h₁, h⟩ := exists_of_bind_eq_ok h
  obtain ⟨⟨fields₂, state₂⟩, h₂, h⟩ := exists_of_bind_eq_ok h
  obtain ⟨⟨fields₃, state₃⟩, h₃, h⟩ := exists_of_bind_eq_ok h
  obtain ⟨⟨fields', state₄⟩, h₄, h⟩ := exists_of_bind_eq_ok h
  cases h
  have hproperties : ∀ y ∈ objectField fields "properties", good y.2 := fun y hy => by
    refine hgood y.2 ?_
    simp only [sanitizedChildren, List.mem_append]
    exact .inl (.inl (.inl (List.mem_map_of_mem hy)))
  obtain ⟨⟨entries, visited, hentries, hkeys, htrace, hrenamed, hlogged⟩, hmiddle, hinvalid⟩ :=
    sanitizeProperties_visits htracing hmode hI hwf hbase hproperties h₁
  have hchildren : keywordChildren (rewriteNames scopeMap middle) =
      keywordChildren (rewriteDependentSchemaKeys scopeMap fields) :=
    keywordChildren_rewriteNames hmiddle
  have hkeywords : ∀ value ∈ keywordChildren (rewriteNames scopeMap middle), good value :=
    fun value hvalue => hgood value (mem_sanitizedChildren_of_keyword (hchildren ▸ hvalue))
  obtain ⟨⟨visited', htrace', hrenamed', hlogged'⟩, hother⟩ :=
    keywordChildren_visits htracing (hI.trans hlogged.subset) hkeywords h₂ h₃ h₄
  -- The fields that name properties are those after the four rewritings.
  have hnames : ∀ key ∉ schemaMapKeywords ++ schemaValueKeywords ++ schemaArrayKeywords,
      objectField fields' key = objectField (rewriteNames scopeMap middle) key :=
    fun key hkey => objectField_eq_of_getField (hother key hkey)
  have hentries' : (objectField fields' "properties").Perm entries := by
    rw [hnames "properties" (by decide), objectField_eq_of_getField (getField_rewriteNames (by decide))]
    exact hentries
  have hself : VisitedObject.Renamed mapper.isMatch base ⟨fields, fields', scopeMap⟩ := by
    refine ⟨hbase, hinvalid, ?_, ?_, ?_, ?_⟩
    · have hperm := hentries'.map Prod.fst
      rw [hkeys] at hperm
      exact hperm
    · rw [hother "required" (by decide), getField_required_rewriteNames, hmiddle _ (by decide)]
    · have hold := objectField_eq_of_getField (hmiddle "dependentRequired" (by decide))
      rw [hnames "dependentRequired" (by decide), ← hold]
      exact substitutedMap_dependentRequired (hold ▸ nodup_objectField _ hwf)
    · have hold := objectField_eq_of_getField (hmiddle "dependencies" (by decide))
      rw [hnames "dependencies" (by decide), ← hold]
      exact substitutedMap_dependencies (hold ▸ nodup_objectField _ hwf)
  refine ⟨⟨fields, fields', scopeMap⟩ :: (visited ++ visited'),
    .object (v := ⟨fields, fields', scopeMap⟩) hentries' hkeys htrace (hchildren ▸ htrace'),
    List.forall_mem_cons.mpr ⟨hself, List.forall_mem_append.mpr ⟨hrenamed, hrenamed'⟩⟩, ?_⟩
  rw [List.flatMap_cons, List.flatMap_append, ← List.append_assoc]
  exact hlogged.append hlogged'

theorem tracing_sanitizeSchemaValue (hmode : mapper.mode = .sanitize) (fuel : ℕ) :
    Tracing mapper.isMatch base
      (fun value => value.depth < fuel ∧ value.WellFormed ∧ Reserves mapper.isMatch base value)
      (sanitizeSchemaValue mapper toolName fuel) := by
  induction fuel with
  | zero =>
    rintro path value state value' state' ⟨hfuel, -⟩
    exact absurd hfuel (Nat.not_lt_zero _)
  | succ fuel ih =>
    rintro path value state value' state' ⟨hfuel, hwf, hbase⟩ hI h
    have hgood : ∀ child ∈ sanitizedChildren value,
        child.depth < fuel ∧ child.WellFormed ∧ Reserves mapper.isMatch base child := by
      intro child hchild
      have hlt := depth_lt_of_mem_sanitizedChildren hchild
      exact ⟨by omega, wellFormed_of_transGen
        (transGen_of_mem_rejectChildren (mem_rejectChildren_of_sanitized hchild)) hwf,
        hbase.child hchild⟩
    cases value with
    | obj fields => exact sanitizeSchemaValue_visits_obj ih hmode hwf (hbase _ .refl) hgood hI h
    | arr items =>
      obtain ⟨⟨items', state₁⟩, h₁, h⟩ := exists_of_bind_eq_ok h
      cases h
      obtain ⟨visited, htrace, hrest⟩ := sanitizeItems_visits ih hgood hI h₁
      exact ⟨visited, .array htrace, hrest⟩
    | _ =>
      cases h
      exact .none (.other (fun _ => nofun) fun _ => nofun)

mutual

def reverseValueKeys (mapping : ScopeMap) : Json → Json
  | .obj fields => .obj (reverseFields mapping fields [])
  | .arr items => .arr (reverseItems mapping items)
  | other => other

def reverseFields (mapping : ScopeMap) : Fields → Fields → Fields
  | [], out => out
  | (key, value) :: fields, out =>
    let outputKey := (mapping.lookup key).getD key
    reverseFields mapping fields (insertField out outputKey (reverseValueKeys mapping value))

def reverseItems (mapping : ScopeMap) : List Json → List Json
  | [] => []
  | item :: items => reverseValueKeys mapping item :: reverseItems mapping items

end

structure ToolSchemaKeyMap where
  byTool : Finmap fun _ : String => ScopeMap

namespace ToolSchemaKeyMap

def insertToolMapping (maps : ToolSchemaKeyMap) (toolName : String) (mapping : ScopeMap) :
    ToolSchemaKeyMap :=
  if mapping = ∅ then maps else ⟨maps.byTool.insert toolName mapping⟩

def reverseToolInput (maps : ToolSchemaKeyMap) (toolName : String) (input : Json) : Json :=
  match maps.byTool.lookup toolName with
  | some mapping => reverseValueKeys mapping input
  | none => input

end ToolSchemaKeyMap

variable {mapping : ScopeMap}

theorem reverseFields_eq (fields out : Fields) :
    reverseFields mapping fields out =
      (fields.map fun x => (renamed mapping x.1, reverseValueKeys mapping x.2)).foldl
        (fun out x => insertField out x.1 x.2) out := by
  induction fields generalizing out with
  | nil => rfl
  | cons x fields ih =>
    rw [reverseFields, ih]
    rfl

theorem reverseItems_eq (items : List Json) :
    reverseItems mapping items = items.map (reverseValueKeys mapping) := by
  induction items with
  | nil => rfl
  | cons item items ih => rw [reverseItems, ih, List.map_cons]

theorem foldl_insertField_perm {entries out : Fields}
    (hnodup : ((out ++ entries).map Prod.fst).Nodup) :
    (entries.foldl (fun out x => insertField out x.1 x.2) out).Perm (out ++ entries) := by
  induction entries generalizing out with
  | nil => rw [List.append_nil, List.foldl_nil]
  | cons x entries ih =>
    have hmiddle : (out ++ x :: entries).Perm (x :: out ++ entries) := List.perm_middle
    have hne : ∀ y ∈ out, y.1 ≠ x.1 := fun y hy heq => by
      have hdistinct := (List.nodup_cons.mp ((hmiddle.map Prod.fst).nodup_iff.mp hnodup)).1
      exact hdistinct (heq ▸ List.mem_map_of_mem (List.mem_append_left _ hy))
    have hinsert : (insertField out x.1 x.2 ++ entries).Perm (out ++ x :: entries) :=
      ((insertField_perm hne).append_right entries).trans hmiddle.symm
    exact (ih ((hinsert.map Prod.fst).nodup_iff.mpr hnodup)).trans hinsert

theorem pairwise_foldl_insertField {entries out : Fields}
    (h : (out.map Prod.fst).Pairwise (· < ·)) :
    ((entries.foldl (fun out x => insertField out x.1 x.2) out).map Prod.fst).Pairwise
      (· < ·) := by
  induction entries generalizing out with
  | nil => exact h
  | cons x entries ih => exact ih (pairwise_insertField _ _ h)

theorem foldl_insertField_eq {entries fields : Fields} (hperm : entries.Perm fields)
    (hsorted : (fields.map Prod.fst).Pairwise (· < ·)) :
    entries.foldl (fun out x => insertField out x.1 x.2) [] = fields := by
  have hnodup : (entries.map Prod.fst).Nodup :=
    (hperm.map Prod.fst).nodup_iff.mpr (hsorted.imp fun hlt => ne_of_lt hlt)
  have hperm' := (@foldl_insertField_perm entries [] hnodup).trans hperm
  have hsorted' : ((entries.foldl (fun out x => insertField out x.1 x.2) []).map
      Prod.fst).Pairwise (· < ·) := pairwise_foldl_insertField .nil
  rw [List.pairwise_map] at hsorted hsorted'
  exact hperm'.eq_of_pairwise (fun a b _ _ hab hba => absurd hba (lt_asymm hab)) hsorted' hsorted

/-- A value of the client and the value that a model sends for it. The keys of each object
are related one by one. -/
inductive SentAs (pair : String → String → Prop) : Json → Json → Prop
  | object {fields entries fields' : Fields}
      (hkeys : List.Forall₂ pair (fields.map Prod.fst) (entries.map Prod.fst))
      (hvalues : List.Forall₂ (SentAs pair) (fields.map Prod.snd) (entries.map Prod.snd))
      (hperm : entries.Perm fields') : SentAs pair (.obj fields) (.obj fields')
  | array {items items' : List Json} (h : List.Forall₂ (SentAs pair) items items') :
      SentAs pair (.arr items) (.arr items')
  | other {value : Json} (hobject : ∀ fields, value ≠ .obj fields)
      (harray : ∀ items, value ≠ .arr items) : SentAs pair value value

theorem map_reverse_eq {pair : String → String → Prop} {R : Json → Json → Prop}
    (hpair : ∀ original key, pair original key → renamed mapping key = original)
    {fields entries : Fields}
    (hkeys : List.Forall₂ pair (fields.map Prod.fst) (entries.map Prod.fst))
    (hvalues : List.Forall₂ R (fields.map Prod.snd) (entries.map Prod.snd))
    (hR : ∀ x ∈ fields, ∀ value, R x.2 value → reverseValueKeys mapping value = x.2) :
    (entries.map fun x => (renamed mapping x.1, reverseValueKeys mapping x.2)) = fields := by
  induction fields generalizing entries with
  | nil =>
    cases entries with
    | nil => rfl
    | cons y entries => cases hkeys
  | cons x fields ih =>
    cases entries with
    | nil => cases hkeys
    | cons y entries =>
      obtain ⟨hkey, hkeys⟩ := List.forall₂_cons.mp hkeys
      obtain ⟨hvalue, hvalues⟩ := List.forall₂_cons.mp hvalues
      rw [List.map_cons, ih hkeys hvalues fun z hz => hR z (List.mem_cons_of_mem _ hz),
        hpair _ _ hkey, hR x List.mem_cons_self _ hvalue]

/-- Reversal gives back the value of the client, so no two of its keys are merged. -/
theorem reverseValueKeys_of_sentAs {pair : String → String → Prop}
    (hpair : ∀ original key, pair original key → renamed mapping key = original)
    {client model : Json} (hwf : client.WellFormed) (h : SentAs pair client model) :
    reverseValueKeys mapping model = client := by
  induction hdepth : client.depth using Nat.strong_induction_on generalizing client model with
  | _ n ih =>
    subst hdepth
    have hmember : ∀ value, Member value client → ∀ value', SentAs pair value value' →
        reverseValueKeys mapping value' = value := fun value hvalue value' h' =>
      ih _ hvalue.depth_lt (hvalue.wellFormed hwf) h' rfl
    cases h with
    | @object fields entries fields' hkeys hvalues hperm =>
      have hmap := map_reverse_eq hpair hkeys hvalues fun x hx => hmember x.2 (.field hx)
      rw [reverseValueKeys, reverseFields_eq]
      have hperm' := (hperm.map fun x => (renamed mapping x.1, reverseValueKeys mapping x.2)).symm
      rw [hmap] at hperm'
      rw [WellFormed] at hwf
      rw [foldl_insertField_eq hperm' hwf.1]
    | @array items items' hitems =>
      rw [reverseValueKeys, reverseItems_eq]
      have hreverse : ∀ item ∈ items, ∀ item', SentAs pair item item' →
          reverseValueKeys mapping item' = item := fun item hitem => hmember item (.item hitem)
      congr 1
      clear hmember ih hwf
      induction hitems with
      | nil => rfl
      | cons hitem _ ih =>
        obtain ⟨hself, hrest⟩ := List.forall_mem_cons.mp hreverse
        rw [List.map_cons, hself _ hitem, ih hrest]
    | other hobject harray =>
      cases client with
      | obj fields => exact absurd rfl (hobject fields)
      | arr items => exact absurd rfl (harray items)
      | _ => rfl

theorem sentAs_refl : SentAs Eq value value := by
  induction hdepth : value.depth using Nat.strong_induction_on generalizing value with
  | _ n ih =>
    subst hdepth
    have hmember : ∀ child, Member child value → SentAs Eq child child := fun child hchild =>
      ih _ hchild.depth_lt child rfl
    cases value with
    | obj fields =>
      refine .object (List.forall₂_refl _) (List.forall₂_same.mpr fun v hv => ?_) (.refl _)
      obtain ⟨x, hx, rfl⟩ := List.mem_map.mp hv
      exact hmember x.2 (.field hx)
    | arr items => exact .array (List.forall₂_same.mpr fun item hitem => hmember item (.item hitem))
    | _ => exact .other (fun _ => nofun) fun _ => nofun

theorem reverseValueKeys_empty {value : Json} (hwf : value.WellFormed) :
    reverseValueKeys ∅ value = value :=
  reverseValueKeys_of_sentAs (fun original _ heq => heq ▸ renamed_empty original) hwf
    (sentAs_refl value)

theorem ToolSchemaKeyMap.reverseToolInput_insertToolMapping {maps : ToolSchemaKeyMap}
    (hnew : maps.byTool.lookup toolName = none) {input : Json} (hwf : input.WellFormed) :
    (maps.insertToolMapping toolName mapping).reverseToolInput toolName input =
      reverseValueKeys mapping input := by
  unfold insertToolMapping
  split_ifs with hempty
  · rw [reverseToolInput, hnew, hempty, reverseValueKeys_empty hwf]
  · rw [reverseToolInput, Finmap.lookup_insert]

/-- What the mapping of the whole schema and the substitution of the object's own scope do
to the names in a visited object. -/
structure VisitedObject.Reversible (isMatch : String → Bool) (mapping : ScopeMap)
    (v : VisitedObject) : Prop where
  restored : ((propertyKeys (.obj v.fields')).map (renamed mapping)).Perm
    (propertyKeys (.obj v.fields))
  valid : ∀ key ∈ propertyKeys (.obj v.fields), isMatch key = true → key ∉ mapping
  properties : (propertyKeys (.obj v.fields')).Perm
    ((propertyKeys (.obj v.fields)).map (renamed v.scopeMap))
  required : getField v.fields' "required" =
    (getField v.fields "required").map (substituteNames (renamed v.scopeMap))
  dependentRequired : SubstitutedMap (renamed v.scopeMap)
    (objectField v.fields "dependentRequired") (objectField v.fields' "dependentRequired")
  dependencies : SubstitutedMap (renamed v.scopeMap)
    (objectField v.fields "dependencies") (objectField v.fields' "dependencies")

/-- A key of the client and the key that stands for it in the rewritten schema: that of a
property of a visited object, or a key that the mapping leaves alone. -/
def SentKey (visited : List VisitedObject) (mapping : ScopeMap) (original key : String) : Prop :=
  (∃ v ∈ visited, original ∈ propertyKeys (.obj v.fields) ∧ key = renamed v.scopeMap original) ∨
    key = original ∧ key ∉ mapping

section Mapping

variable {visited : List VisitedObject} {state' : SanitizeState} {reserved : Finset String}
  (hrenamed : ∀ v ∈ visited, v.Renamed mapper.isMatch reserved)
  (hlogged : Logged ⟨reserved, ∅⟩ (visited.flatMap VisitedObject.generated) state')

include hlogged in
theorem not_mem_mapping_of_reserved {key : String} (hkey : key ∈ reserved) :
    state'.mapping.lookup key = none := by
  rw [hlogged.kept key ?_, Finmap.lookup_empty]
  intro hmem
  obtain ⟨p, hp, rfl⟩ := List.mem_map.mp hmem
  exact hlogged.fresh p hp hkey

include hrenamed hlogged in
theorem renamed_mapping_renamed {v : VisitedObject} (hv : v ∈ visited) {key : String}
    (hkey : key ∈ propertyKeys (.obj v.fields)) :
    renamed state'.mapping (renamed v.scopeMap key) = key := by
  cases hlookup : v.scopeMap.lookup key with
  | none =>
    have hmatch : mapper.isMatch key = true := by
      by_contra hne
      have hsome := ((hrenamed v hv).invalid key hkey).mpr hne
      rw [hlookup] at hsome
      cases hsome
    have hnone := not_mem_mapping_of_reserved hlogged ((hrenamed v hv).reserved key hkey hmatch)
    rw [renamed, renamed, hlookup, Option.getD_none, hnone, Option.getD_none]
  | some sanitized =>
    have hgenerated : (sanitized, key) ∈ visited.flatMap VisitedObject.generated :=
      List.mem_flatMap.mpr ⟨v, hv, List.mem_filterMap.mpr ⟨key, hkey, by rw [hlookup]; rfl⟩⟩
    have hadded := hlogged.added _ hgenerated
    rw [renamed, renamed, hlookup, Option.getD_some, hadded, Option.getD_some]

include hrenamed hlogged in
theorem VisitedObject.reversible {v : VisitedObject} (hv : v ∈ visited) :
    v.Reversible mapper.isMatch state'.mapping := by
  have h := hrenamed v hv
  refine ⟨?_, fun key hkey hmatch => ?_, h.properties, h.required, h.dependentRequired,
    h.dependencies⟩
  · refine (h.properties.map _).trans ?_
    rw [List.map_map]
    refine .of_eq ((List.map_congr_left fun key hkey => ?_).trans (List.map_id _))
    exact renamed_mapping_renamed hrenamed hlogged hv hkey
  · rw [← Finmap.lookup_eq_none]
    exact not_mem_mapping_of_reserved hlogged (h.reserved key hkey hmatch)

include hrenamed hlogged in
theorem renamed_mapping_of_sentKey (original key : String)
    (h : SentKey visited state'.mapping original key) : renamed state'.mapping key = original := by
  rcases h with ⟨v, hv, horiginal, rfl⟩ | ⟨rfl, hnotin⟩
  · exact renamed_mapping_renamed hrenamed hlogged hv horiginal
  · rw [renamed, Finmap.lookup_eq_none.mpr hnotin, Option.getD_none]

end Mapping

namespace SchemaKeyMapper

/-- The mapping of a rewritten schema restores the keys of every visited object, and of
every tool input that uses the rewritten keys. -/
theorem applyToSchema_reversible {schema schema' : Json} (hmode : mapper.mode = .sanitize)
    (hwf : schema.WellFormed)
    (h : mapper.applyToSchema toolName schema = .ok (schema', mapping)) :
    ∃ visited, Traversal schema schema' visited ∧
      (∀ v ∈ visited, v.Reversible mapper.isMatch mapping) ∧
      ((visited.flatMap VisitedObject.generated).map Prod.fst).Nodup ∧
      ∀ (maps : ToolSchemaKeyMap) (client model : Json), maps.byTool.lookup toolName = none →
        client.WellFormed → model.WellFormed → SentAs (SentKey visited mapping) client model →
        (maps.insertToolMapping toolName mapping).reverseToolInput toolName model = client := by
  simp only [applyToSchema, hmode] at h
  obtain ⟨⟨value', state'⟩, h₁, h⟩ := exists_of_bind_eq_ok h
  cases h
  obtain ⟨visited, htrace, hrenamed, hlogged⟩ := tracing_sanitizeSchemaValue hmode _ _ _ _ _ _
    ⟨Nat.lt_succ_self _, hwf, reserves_collectValidPropertyKeys (Nat.lt_succ_self _)⟩
    (Finset.Subset.refl _) h₁
  refine ⟨visited, htrace, fun v hv => VisitedObject.reversible hrenamed hlogged hv,
    hlogged.nodup, fun maps client model hnew hclient hmodel hsent => ?_⟩
  rw [ToolSchemaKeyMap.reverseToolInput_insertToolMapping hnew hmodel]
  exact reverseValueKeys_of_sentAs (renamed_mapping_of_sentKey hrenamed hlogged) hclient hsent

theorem applyToSchema_reversible_badProperty :
    ∃ visited, Traversal badProperty goodProperty visited ∧
      (∀ v ∈ visited, v.Reversible defaultMapper.isMatch
        (Finmap.singleton "key249c0ee0d43dafa4" "bad key")) ∧
      ((visited.flatMap VisitedObject.generated).map Prod.fst).Nodup ∧
      ∀ (maps : ToolSchemaKeyMap) (client model : Json), maps.byTool.lookup "lookup" = none →
        client.WellFormed → model.WellFormed →
        SentAs (SentKey visited (Finmap.singleton "key249c0ee0d43dafa4" "bad key")) client model →
        (maps.insertToolMapping "lookup"
          (Finmap.singleton "key249c0ee0d43dafa4" "bad key")).reverseToolInput "lookup" model =
          client :=
  applyToSchema_reversible rfl
    (by simp [badProperty, WellFormed, WellFormedFields]) rfl

end SchemaKeyMapper

end KiroProxy.ToolSchemaKeys
