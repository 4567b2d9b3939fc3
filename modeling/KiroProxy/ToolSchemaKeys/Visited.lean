import KiroProxy.ToolSchemaKeys.Agreement

/-!
# The objects that the rewriting visits

Each step of the rewriting adds the keys it generates to the reserved keys and to the
mapping, and these keys are new. The visited objects are listed with the substitution
that each applies to the names of its properties.
-/

namespace KiroProxy.ToolSchemaKeys

open Json Transition

/-- The state after the generation of some keys, listed with the keys that they replace. -/
structure Logged (state : SanitizeState) (generated : List (String × String))
    (state' : SanitizeState) : Prop where
  nodup : (generated.map Prod.fst).Nodup
  fresh : ∀ p ∈ generated, p.1 ∉ state.reserved
  reserved : ∀ key, key ∈ state'.reserved ↔ key ∈ state.reserved ∨ key ∈ generated.map Prod.fst
  added : ∀ p ∈ generated, state'.mapping.lookup p.1 = some p.2
  kept : ∀ key ∉ generated.map Prod.fst, state'.mapping.lookup key = state.mapping.lookup key

namespace Logged

variable {state state₁ state₂ : SanitizeState} {generated generated' : List (String × String)}

theorem nil (state : SanitizeState) : Logged state [] state where
  nodup := List.nodup_nil
  fresh p hp := absurd hp List.not_mem_nil
  reserved key := by simp
  added p hp := absurd hp List.not_mem_nil
  kept _ _ := rfl

theorem subset (h : Logged state generated state₁) : state.reserved ⊆ state₁.reserved :=
  fun key hkey => (h.reserved key).mpr (.inl hkey)

theorem not_mem_of_mem (h : Logged state generated state₁) (h' : Logged state₁ generated' state₂)
    {key : String} (hkey : key ∈ generated.map Prod.fst) : key ∉ generated'.map Prod.fst := by
  intro hmem
  obtain ⟨p, hp, rfl⟩ := List.mem_map.mp hmem
  exact h'.fresh p hp ((h.reserved _).mpr (.inr hkey))

theorem append (h : Logged state generated state₁) (h' : Logged state₁ generated' state₂) :
    Logged state (generated ++ generated') state₂ where
  nodup := by
    rw [List.map_append]
    refine List.nodup_append'.mpr ⟨h.nodup, h'.nodup, fun key hkey => h.not_mem_of_mem h' hkey⟩
  fresh p hp := by
    rcases List.mem_append.mp hp with hp | hp
    · exact h.fresh p hp
    · exact fun hmem => h'.fresh p hp (h.subset hmem)
  reserved key := by
    rw [h'.reserved, h.reserved, List.map_append, List.mem_append, or_assoc]
  added p hp := by
    rcases List.mem_append.mp hp with hp | hp
    · rw [h'.kept _ (h.not_mem_of_mem h' (List.mem_map_of_mem hp))]
      exact h.added p hp
    · exact h'.added p hp
  kept key hkey := by
    rw [List.map_append, List.mem_append, not_or] at hkey
    rw [h'.kept key hkey.2, h.kept key hkey.1]

theorem perm (h : Logged state generated state₁) (hperm : generated.Perm generated') :
    Logged state generated' state₁ where
  nodup := (hperm.map Prod.fst).nodup_iff.mp h.nodup
  fresh p hp := h.fresh p (hperm.mem_iff.mpr hp)
  reserved key := by rw [h.reserved, (hperm.map Prod.fst).mem_iff]
  added p hp := h.added p (hperm.mem_iff.mpr hp)
  kept key hkey := h.kept key fun hmem => hkey ((hperm.map Prod.fst).mem_iff.mp hmem)

end Logged

variable {mapper : SchemaKeyMapper} {toolName : String} {base : Finset String}
  {child : Sanitizer} {scopeMap : ScopeMap}

def generatedKeys (scopeMap : ScopeMap) (keys : List String) : List (String × String) :=
  keys.filterMap fun key => (scopeMap.lookup key).map fun sanitized => (sanitized, key)

theorem generatedKeys_cons {scopeMap₁ : ScopeMap} {key : String} (keys : List String)
    (h : scopeMap.lookup key = scopeMap₁.lookup key) :
    generatedKeys scopeMap (key :: keys) =
      generatedKeys scopeMap₁ [key] ++ generatedKeys scopeMap keys := by
  simp only [generatedKeys, List.filterMap_cons, List.filterMap_nil, h]
  cases scopeMap₁.lookup key <;> rfl

theorem outputKey_logged (hmode : mapper.mode = .sanitize) {path key output : String}
    {scopeMap' : ScopeMap} {state state' : SanitizeState} (hnew : scopeMap.lookup key = none)
    (h : mapper.outputKey toolName path key scopeMap state = .ok (output, scopeMap', state')) :
    Logged state (generatedKeys scopeMap' [key]) state' ∧ output = renamed scopeMap' key ∧
      ((scopeMap'.lookup key).isSome ↔ mapper.isMatch key ≠ true) ∧
      ∀ key' ≠ key, scopeMap'.lookup key' = scopeMap.lookup key' := by
  unfold SchemaKeyMapper.outputKey at h
  split_ifs at h with hmatch
  · cases h
    have hgenerated : generatedKeys scopeMap [key] = [] := by simp [generatedKeys, hnew]
    refine ⟨hgenerated ▸ .nil state, by rw [renamed, hnew, Option.getD_none], ?_,
      fun _ _ => rfl⟩
    rw [hnew]
    exact ⟨fun hsome => absurd hsome (by decide), fun hne => absurd hmatch hne⟩
  · obtain ⟨⟨sanitized, reserved⟩, h₁, h⟩ := exists_of_bind_eq_ok h
    cases h
    obtain ⟨-, hnotin, -, rfl⟩ := sanitizeKey_spec hmode h₁
    have hlookup : (scopeMap.insert key output).lookup key = some output := Finmap.lookup_insert _
    have hgenerated : generatedKeys (scopeMap.insert key output) [key] = [(output, key)] := by
      simp [generatedKeys, hlookup]
    refine ⟨?_, by rw [renamed, hlookup, Option.getD_some], ?_,
      fun key' hne => Finmap.lookup_insert_of_ne _ hne⟩
    · rw [hgenerated]
      refine ⟨List.nodup_singleton _, ?_, ?_, ?_, ?_⟩
      · intro p hp
        obtain rfl := List.mem_singleton.mp hp
        exact hnotin
      · intro key'
        simp [or_comm]
      · intro p hp
        obtain rfl := List.mem_singleton.mp hp
        exact Finmap.lookup_insert _
      · intro key' hkey'
        exact Finmap.lookup_insert_of_ne _ (by simpa using hkey')
    · rw [hlookup]
      exact ⟨fun _ => hmatch, fun _ => rfl⟩

/-- A schema object before and after the rewriting, with the substitution of its scope. -/
structure VisitedObject where
  fields : Fields
  fields' : Fields
  scopeMap : ScopeMap

def VisitedObject.generated (v : VisitedObject) : List (String × String) :=
  generatedKeys v.scopeMap (propertyKeys (.obj v.fields))

/-- Two lists of values that are related one by one, with the objects visited on the way. -/
inductive Traced (R : Json → Json → List VisitedObject → Prop) :
    List Json → List Json → List VisitedObject → Prop
  | nil : Traced R [] [] []
  | cons {value value' : Json} {values values' : List Json} {visited visited' : List VisitedObject}
      (h : R value value' visited) (hrest : Traced R values values' visited') :
      Traced R (value :: values) (value' :: values') (visited ++ visited')

theorem Traced.append {R : Json → Json → List VisitedObject → Prop} {l₁ l₂ l₁' l₂' : List Json}
    {visited visited' : List VisitedObject} (h₁ : Traced R l₁ l₁' visited)
    (h₂ : Traced R l₂ l₂' visited') : Traced R (l₁ ++ l₂) (l₁' ++ l₂') (visited ++ visited') := by
  induction h₁ with
  | nil => exact h₂
  | cons h _ ih =>
    rw [List.append_assoc]
    exact .cons h ih

def keywordValues (children : Json → List Json) (keywords : List String) (fields : Fields) :
    List Json :=
  keywords.flatMap fun key => ((getField fields key).map children).getD []

def mapValues : Json → List Json
  | .obj map => map.map Prod.snd
  | _ => []

def arrayItems : Json → List Json
  | .arr items => items
  | _ => []

/-- The schemas under the keywords of an object, in the order of the three loops. -/
def keywordChildren (fields : Fields) : List Json :=
  keywordValues mapValues schemaMapKeywords fields ++
    keywordValues (fun value => [value]) schemaValueKeywords fields ++
    keywordValues arrayItems schemaArrayKeywords fields

/-- A schema and its rewriting, with the objects visited: an object, then the schemas of
its properties, then those under its keywords. -/
inductive Traversal : Json → Json → List VisitedObject → Prop
  | object {v : VisitedObject} {entries : Fields} {visited visited' : List VisitedObject}
      (hentries : (objectField v.fields' "properties").Perm entries)
      (hkeys : entries.map Prod.fst = (propertyKeys (.obj v.fields)).map (renamed v.scopeMap))
      (hproperties : Traced Traversal ((objectField v.fields "properties").map Prod.snd)
        (entries.map Prod.snd) visited)
      (hkeywords : Traced Traversal
        (keywordChildren (rewriteDependentSchemaKeys v.scopeMap v.fields))
        (keywordChildren v.fields') visited') :
      Traversal (.obj v.fields) (.obj v.fields') (v :: (visited ++ visited'))
  | array {items items' : List Json} {visited : List VisitedObject}
      (h : Traced Traversal items items' visited) : Traversal (.arr items) (.arr items') visited
  | other {value : Json} (hobject : ∀ fields, value ≠ .obj fields)
      (harray : ∀ items, value ≠ .arr items) : Traversal value value []

def substituteNames (rename : String → String) : Json → Json
  | .arr items => .arr (items.map fun
    | .str name => .str (rename name)
    | item => item)
  | other => other

/-- A map from names to arrays of names under a substitution. An entry can be missing from
the result only when the key of another entry becomes equal to its own. -/
structure SubstitutedMap (rename : String → String) (old new : Fields) : Prop where
  sound : ∀ x ∈ new, ∃ y ∈ old, x = (rename y.1, substituteNames rename y.2)
  complete : ∀ y ∈ old, (∀ z ∈ old, rename z.1 = rename y.1 → z.1 = y.1) →
    (rename y.1, substituteNames rename y.2) ∈ new

/-- What the rewriting does to the names in one object. -/
structure VisitedObject.Renamed (isMatch : String → Bool) (base : Finset String)
    (v : VisitedObject) : Prop where
  reserved : ∀ key ∈ propertyKeys (.obj v.fields), isMatch key = true → key ∈ base
  invalid : ∀ key ∈ propertyKeys (.obj v.fields),
    (v.scopeMap.lookup key).isSome ↔ isMatch key ≠ true
  properties : (propertyKeys (.obj v.fields')).Perm
    ((propertyKeys (.obj v.fields)).map (renamed v.scopeMap))
  required : getField v.fields' "required" =
    (getField v.fields "required").map (substituteNames (renamed v.scopeMap))
  dependentRequired : SubstitutedMap (renamed v.scopeMap)
    (objectField v.fields "dependentRequired") (objectField v.fields' "dependentRequired")
  dependencies : SubstitutedMap (renamed v.scopeMap)
    (objectField v.fields "dependencies") (objectField v.fields' "dependencies")

/-- A part of the rewriting that visits some objects, and generates the keys that these
log. -/
def Visits (isMatch : String → Bool) (base : Finset String)
    (trace : List VisitedObject → Prop) (state state' : SanitizeState) : Prop :=
  ∃ visited, trace visited ∧ (∀ v ∈ visited, v.Renamed isMatch base) ∧
    Logged state (visited.flatMap VisitedObject.generated) state'

namespace Visits

variable {isMatch : String → Bool} {state state₁ state₂ : SanitizeState}

theorem none {trace : List VisitedObject → Prop} (h : trace []) :
    Visits isMatch base trace state state :=
  ⟨[], h, fun _ hv => absurd hv List.not_mem_nil, .nil state⟩

theorem seq {trace trace' trace'' : List VisitedObject → Prop}
    (hseq : ∀ {visited visited'}, trace visited → trace' visited' → trace'' (visited ++ visited'))
    (h : Visits isMatch base trace state state₁) (h' : Visits isMatch base trace' state₁ state₂) :
    Visits isMatch base trace'' state state₂ := by
  obtain ⟨visited, htrace, hrenamed, hlogged⟩ := h
  obtain ⟨visited', htrace', hrenamed', hlogged'⟩ := h'
  refine ⟨visited ++ visited', hseq htrace htrace', List.forall_mem_append.mpr
    ⟨hrenamed, hrenamed'⟩, ?_⟩
  rw [List.flatMap_append]
  exact hlogged.append hlogged'

theorem cons {value value' : Json} {values values' : List Json}
    (h : Visits isMatch base (Traversal value value') state state₁)
    (hrest : Visits isMatch base (Traced Traversal values values') state₁ state₂) :
    Visits isMatch base (Traced Traversal (value :: values) (value' :: values')) state state₂ :=
  seq .cons h hrest

theorem append {l₁ l₂ l₁' l₂' : List Json}
    (h₁ : Visits isMatch base (Traced Traversal l₁ l₁') state state₁)
    (h₂ : Visits isMatch base (Traced Traversal l₂ l₂') state₁ state₂) :
    Visits isMatch base (Traced Traversal (l₁ ++ l₂) (l₁' ++ l₂')) state state₂ :=
  seq Traced.append h₁ h₂

theorem reserving {trace : List VisitedObject → Prop} (h : Visits isMatch base trace state state₁)
    (hI : Reserving base state) : Reserving base state₁ := by
  obtain ⟨visited, -, -, hlogged⟩ := h
  exact hI.trans hlogged.subset

end Visits

/-- The rewriting of a value that meets the condition visits the objects of a traversal. -/
def Tracing (isMatch : String → Bool) (base : Finset String) (good : Json → Prop)
    (child : Sanitizer) : Prop :=
  ∀ path value state value' state', good value → Reserving base state →
    child path value state = .ok (value', state') →
    Visits isMatch base (Traversal value value') state state'

section Loops

variable {isMatch : String → Bool} {good : Json → Prop} {state state' : SanitizeState}
  (htracing : Tracing isMatch base good child)

include htracing

theorem sanitizeItems_visits {pathOf : ℕ → String} {idx : ℕ} {items items' : List Json}
    (hgood : ∀ item ∈ items, good item) (hI : Reserving base state)
    (h : sanitizeItems child pathOf idx items state = .ok (items', state')) :
    Visits isMatch base (Traced Traversal items items') state state' := by
  induction items generalizing idx items' state with
  | nil =>
    cases h
    exact .none .nil
  | cons item items ih =>
    obtain ⟨⟨value, state₁⟩, h₁, h⟩ := exists_of_bind_eq_ok h
    obtain ⟨⟨rest, state₂⟩, h₂, h⟩ := exists_of_bind_eq_ok h
    cases h
    obtain ⟨hitem, hitems⟩ := List.forall_mem_cons.mp hgood
    have hvisits := htracing _ _ _ _ _ hitem hI h₁
    exact hvisits.cons (ih hitems (hvisits.reserving hI) h₂)

theorem sanitizeEntries_visits {pathOf : String → String} {entries entries' : Fields}
    (hgood : ∀ x ∈ entries, good x.2) (hI : Reserving base state)
    (h : sanitizeEntries child pathOf entries state = .ok (entries', state')) :
    Visits isMatch base (Traced Traversal (entries.map Prod.snd) (entries'.map Prod.snd))
      state state' := by
  induction entries generalizing entries' state with
  | nil =>
    cases h
    exact .none .nil
  | cons entry entries ih =>
    obtain ⟨⟨value, state₁⟩, h₁, h⟩ := exists_of_bind_eq_ok h
    obtain ⟨⟨rest, state₂⟩, h₂, h⟩ := exists_of_bind_eq_ok h
    cases h
    obtain ⟨hentry, hentries⟩ := List.forall_mem_cons.mp hgood
    have hvisits := htracing _ _ _ _ _ hentry hI h₁
    exact hvisits.cons (ih hentries (hvisits.reserving hI) h₂)

variable {path key : String} {value value' : Json}

theorem sanitizeMapKeyword_visits (hgood : ∀ v ∈ mapValues value, good v)
    (hI : Reserving base state)
    (h : sanitizeMapKeyword child path key value state = .ok (value', state')) :
    Visits isMatch base (Traced Traversal (mapValues value) (mapValues value')) state state' := by
  cases value with
  | obj map =>
    obtain ⟨⟨map', state₁⟩, h₁, h⟩ := exists_of_bind_eq_ok h
    cases h
    exact sanitizeEntries_visits htracing (List.forall_mem_map.mp hgood) hI h₁
  | _ =>
    cases h
    exact .none .nil

theorem sanitizeValueKeyword_visits (hgood : ∀ v ∈ [value], good v) (hI : Reserving base state)
    (h : sanitizeValueKeyword child path key value state = .ok (value', state')) :
    Visits isMatch base (Traced Traversal [value] [value']) state state' :=
  (htracing _ _ _ _ _ (hgood value List.mem_cons_self) hI h).cons (.none .nil)

theorem sanitizeArrayKeyword_visits (hgood : ∀ v ∈ arrayItems value, good v)
    (hI : Reserving base state)
    (h : sanitizeArrayKeyword child path key value state = .ok (value', state')) :
    Visits isMatch base (Traced Traversal (arrayItems value) (arrayItems value')) state state' := by
  cases value with
  | arr items =>
    obtain ⟨⟨items', state₁⟩, h₁, h⟩ := exists_of_bind_eq_ok h
    cases h
    exact sanitizeItems_visits htracing hgood hI h₁
  | _ =>
    cases h
    exact .none .nil

omit htracing in
theorem keywordValues_congr (children : Json → List Json) {keywords : List String}
    {fields fields' : Fields}
    (h : ∀ key ∈ keywords, getField fields' key = getField fields key) :
    keywordValues children keywords fields' = keywordValues children keywords fields :=
  List.flatMap_congr fun key hkey => by rw [h key hkey]

omit htracing in
theorem sanitizeKeywords_visits
    {sanitize : String → Json → SanitizeState → Except SchemaKeyMappingError (Json × SanitizeState)}
    {children : Json → List Json}
    (hsanitize : ∀ key value state value' state', (∀ v ∈ children value, good v) →
      Reserving base state → sanitize key value state = .ok (value', state') →
      Visits isMatch base (Traced Traversal (children value) (children value')) state state')
    {keywords : List String} (hnodup : keywords.Nodup) {fields fields' : Fields}
    (hgood : ∀ v ∈ keywordValues children keywords fields, good v) (hI : Reserving base state)
    (h : sanitizeKeywords sanitize keywords fields state = .ok (fields', state')) :
    Visits isMatch base (Traced Traversal (keywordValues children keywords fields)
      (keywordValues children keywords fields')) state state' ∧
      ∀ key ∉ keywords, getField fields' key = getField fields key := by
  induction keywords generalizing fields state with
  | nil =>
    cases h
    exact ⟨.none .nil, fun _ _ => rfl⟩
  | cons keyword keywords ih =>
    rw [sanitizeKeywords] at h
    obtain ⟨hnotin, hnodup⟩ := List.nodup_cons.mp hnodup
    simp only [keywordValues, List.flatMap_cons, List.forall_mem_append] at hgood ⊢
    obtain ⟨hself, hrest⟩ := hgood
    split at h
    · next value hvalue =>
      obtain ⟨⟨value', state₁⟩, h₁, h⟩ := exists_of_bind_eq_ok h
      have hother : ∀ key ∈ keywords,
          getField (setField fields keyword value') key = getField fields key := fun key hkey =>
        getField_setField_of_ne fun heq => hnotin (heq ▸ hkey)
      have hcongr := keywordValues_congr children hother
      rw [hvalue, Option.map_some, Option.getD_some] at hself ⊢
      have hvisits := hsanitize _ _ _ _ _ hself hI h₁
      obtain ⟨hvisits', hkept⟩ := ih hnodup (hcongr ▸ hrest) (hvisits.reserving hI) h
      rw [hcongr] at hvisits'
      refine ⟨?_, fun key hkey => ?_⟩
      · rw [hkept keyword hnotin, getField_setField_self hvalue, Option.map_some,
          Option.getD_some]
        exact hvisits.append hvisits'
      · rw [hkept key fun hmem => hkey (List.mem_cons_of_mem _ hmem)]
        exact getField_setField_of_ne (List.ne_of_not_mem_cons hkey)
    · next hnone =>
      obtain ⟨hvisits, hkept⟩ := ih hnodup hrest hI h
      refine ⟨?_, fun key hkey => hkept key fun hmem => hkey (List.mem_cons_of_mem _ hmem)⟩
      rw [hkept keyword hnotin, hnone]
      exact hvisits

theorem sanitizePropertyLoop_visits (hmode : mapper.mode = .sanitize) {old new new' : Fields}
    {scopeMap scopeMap' : ScopeMap}
    (hinv : PropertyLoopInv mapper toolName base old new scopeMap state.reserved)
    (hgood : ∀ y ∈ old, good y.2) (hunmapped : ∀ y ∈ old, scopeMap.lookup y.1 = none)
    (h : mapper.sanitizePropertyLoop child toolName path old new scopeMap state =
      .ok (new', scopeMap', state')) :
    (∃ entries visited, new'.Perm (new ++ entries) ∧
      entries.map Prod.fst = (old.map Prod.fst).map (renamed scopeMap') ∧
      Traced Traversal (old.map Prod.snd) (entries.map Prod.snd) visited ∧
      (∀ v ∈ visited, v.Renamed isMatch base) ∧
      Logged state (generatedKeys scopeMap' (old.map Prod.fst) ++
        visited.flatMap VisitedObject.generated) state') ∧
      (∀ key ∉ old.map Prod.fst, scopeMap'.lookup key = scopeMap.lookup key) ∧
      ∀ key ∈ old.map Prod.fst, (scopeMap'.lookup key).isSome ↔ mapper.isMatch key ≠ true := by
  induction old generalizing new scopeMap state with
  | nil =>
    cases h
    refine ⟨⟨[], [], ?_, rfl, .nil, fun _ hv => absurd hv List.not_mem_nil, .nil _⟩,
      fun _ _ => rfl, fun _ hkey => absurd hkey List.not_mem_nil⟩
    rw [List.append_nil]
  | cons y old ih =>
    obtain ⟨⟨output, scopeMap₁, state₁⟩, h₁, h⟩ := exists_of_bind_eq_ok h
    obtain ⟨⟨schema, state₂⟩, h₂, h⟩ := exists_of_bind_eq_ok h
    obtain ⟨hgoodSelf, hgoodRest⟩ := List.forall_mem_cons.mp hgood
    obtain ⟨hnewSelf, hnewRest⟩ := List.forall_mem_cons.mp hunmapped
    obtain ⟨hnotin, -⟩ := List.nodup_cons.mp hinv.nodup
    obtain ⟨hlogged, houtput, hsome, hkept⟩ := outputKey_logged hmode hnewSelf h₁
    have hI : Reserving base state₁ := hinv.base_subset.trans hlogged.subset
    obtain ⟨visited, htrace, hrenamed, hlogged'⟩ := htracing _ _ _ _ _ hgoodSelf hI h₂
    have hunmapped₁ : ∀ z ∈ old, scopeMap₁.lookup z.1 = none := fun z hz =>
      (hkept z.1 fun heq => hnotin (heq ▸ List.mem_map_of_mem hz)).trans (hnewRest z hz)
    obtain ⟨⟨entries, visited', hperm, hkeys, htrace', hrenamed', hlogged''⟩, hkept', hsome'⟩ :=
      ih (hinv.step hmode h₁ hlogged'.subset) hgoodRest hunmapped₁ h
    have hlookup : scopeMap'.lookup y.1 = scopeMap₁.lookup y.1 := hkept' y.1 hnotin
    refine ⟨⟨(output, schema) :: entries, visited ++ visited', ?_, ?_, .cons htrace htrace',
      List.forall_mem_append.mpr ⟨hrenamed, hrenamed'⟩, ?_⟩, fun key hkey => ?_, ?_⟩
    · have hinsert : (insertField new output schema).Perm ((output, schema) :: new) :=
        insertField_perm (hinv.output hmode h₁).1
      exact hperm.trans ((hinsert.append_right entries).trans List.perm_middle.symm)
    · have hself : renamed scopeMap' y.1 = output := by rw [houtput, renamed, renamed, hlookup]
      rw [List.map_cons, List.map_cons, List.map_cons, hkeys, hself]
    · rw [List.map_cons, generatedKeys_cons _ hlookup, List.flatMap_append, List.append_assoc]
      refine (hlogged.append (hlogged'.append hlogged'')).perm (.append_left _ ?_)
      rw [← List.append_assoc, ← List.append_assoc]
      exact List.perm_append_comm.append_right _
    · rw [List.map_cons, List.mem_cons, not_or] at hkey
      exact (hkept' key hkey.2).trans (hkept key hkey.1)
    · refine List.forall_mem_cons.mpr ⟨?_, hsome'⟩
      rw [hlookup]
      exact hsome

theorem sanitizeProperties_visits (hmode : mapper.mode = .sanitize) {fields middle : Fields}
    (hI : Reserving base state) (hwf : (Json.obj fields).WellFormed)
    (hbase : ∀ key ∈ propertyKeys (.obj fields), mapper.isMatch key = true → key ∈ base)
    (hgood : ∀ y ∈ objectField fields "properties", good y.2)
    (h : mapper.sanitizeProperties child toolName path fields state =
      .ok (middle, scopeMap, state')) :
    (∃ entries visited, (objectField middle "properties").Perm entries ∧
      entries.map Prod.fst = (propertyKeys (.obj fields)).map (renamed scopeMap) ∧
      Traced Traversal ((objectField fields "properties").map Prod.snd) (entries.map Prod.snd)
        visited ∧
      (∀ v ∈ visited, v.Renamed isMatch base) ∧
      Logged state (generatedKeys scopeMap (propertyKeys (.obj fields)) ++
        visited.flatMap VisitedObject.generated) state') ∧
      (∀ key ≠ "properties", getField middle key = getField fields key) ∧
      ∀ key ∈ propertyKeys (.obj fields),
        (scopeMap.lookup key).isSome ↔ mapper.isMatch key ≠ true := by
  have hnodup := nodup_objectField "properties" hwf
  unfold SchemaKeyMapper.sanitizeProperties at h
  split at h
  · next properties hproperties =>
    obtain ⟨⟨new, scopeMap₁, state₁⟩, h₁, h⟩ := exists_of_bind_eq_ok h
    cases h
    simp only [propertyKeys, objectField, hproperties, getField_setField_self hproperties]
      at hbase hnodup hgood ⊢
    have hinv : PropertyLoopInv mapper toolName base properties [] ∅ state.reserved := by
      refine ⟨hI, hnodup, fun y hy hmatch => ?_, fun x hx => absurd hx List.not_mem_nil,
        ScopeGood.empty _⟩
      exact ⟨hbase y.1 (List.mem_map_of_mem hy) hmatch, fun x hx => absurd hx List.not_mem_nil⟩
    obtain ⟨htraced, -, hsome⟩ := sanitizePropertyLoop_visits htracing hmode hinv hgood
      (fun _ _ => Finmap.lookup_empty _) h₁
    exact ⟨htraced, fun key hkey => getField_setField_of_ne hkey, hsome⟩
  · next hproperties =>
    cases h
    have hnone : objectField fields "properties" = [] := by
      unfold objectField
      split
      · next properties hproperties' => exact absurd hproperties' (hproperties properties)
      · rfl
    rw [propertyKeys, hnone]
    exact ⟨⟨[], [], .refl _, rfl, .nil, fun _ hv => absurd hv List.not_mem_nil, .nil _⟩,
      fun _ _ => rfl, fun _ hkey => absurd hkey List.not_mem_nil⟩

theorem keywordChildren_visits {fields₁ fields₂ fields₃ fields₄ : Fields}
    {state₁ state₂ state₃ state₄ : SanitizeState} (hI : Reserving base state₁)
    (hgood : ∀ v ∈ keywordChildren fields₁, good v)
    (h₁ : sanitizeKeywords (sanitizeMapKeyword child path) schemaMapKeywords fields₁ state₁ =
      .ok (fields₂, state₂))
    (h₂ : sanitizeKeywords (sanitizeValueKeyword child path) schemaValueKeywords fields₂ state₂ =
      .ok (fields₃, state₃))
    (h₃ : sanitizeKeywords (sanitizeArrayKeyword child path) schemaArrayKeywords fields₃ state₃ =
      .ok (fields₄, state₄)) :
    Visits isMatch base (Traced Traversal (keywordChildren fields₁) (keywordChildren fields₄))
      state₁ state₄ ∧
      ∀ key ∉ schemaMapKeywords ++ schemaValueKeywords ++ schemaArrayKeywords,
        getField fields₄ key = getField fields₁ key := by
  simp only [keywordChildren, List.forall_mem_append] at hgood
  obtain ⟨⟨hmaps, hvalues⟩, harrays⟩ := hgood
  obtain ⟨hvisits₁, hother₁⟩ := sanitizeKeywords_visits
    (fun _ _ _ _ _ => sanitizeMapKeyword_visits htracing) (by decide) hmaps hI h₁
  have hI₂ := hvisits₁.reserving hI
  have hvalues₂ := keywordValues_congr (fun value => [value])
    fun key hkey => hother₁ key (valueKeyword_not_mem hkey).1
  obtain ⟨hvisits₂, hother₂⟩ := sanitizeKeywords_visits
    (fun _ _ _ _ _ => sanitizeValueKeyword_visits htracing) (by decide) (hvalues₂ ▸ hvalues) hI₂ h₂
  have hI₃ := hvisits₂.reserving hI₂
  have harrays₃ := keywordValues_congr arrayItems fun key hkey =>
    (hother₂ key (arrayKeyword_not_mem hkey).2).trans (hother₁ key (arrayKeyword_not_mem hkey).1)
  obtain ⟨hvisits₃, hother₃⟩ := sanitizeKeywords_visits
    (fun _ _ _ _ _ => sanitizeArrayKeyword_visits htracing) (by decide) (harrays₃ ▸ harrays) hI₃ h₃
  have hmaps' := keywordValues_congr mapValues fun key hkey =>
    (hother₃ key (mapKeyword_not_mem hkey).2).trans (hother₂ key (mapKeyword_not_mem hkey).1)
  have hvalues' := keywordValues_congr (fun value => [value]) fun key hkey =>
    hother₃ key (valueKeyword_not_mem hkey).2
  refine ⟨?_, fun key hkey => ?_⟩
  · rw [keywordChildren, keywordChildren, hmaps', hvalues', ← hvalues₂, ← harrays₃]
    exact (hvisits₁.append hvisits₂).append hvisits₃
  · simp only [List.mem_append, not_or] at hkey
    rw [hother₃ key hkey.2, hother₂ key hkey.1.2, hother₁ key hkey.1.1]

end Loops

end KiroProxy.ToolSchemaKeys
