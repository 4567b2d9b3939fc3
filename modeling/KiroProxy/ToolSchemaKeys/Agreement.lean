import KiroProxy.ToolSchemaKeys.Sanitize

/-!
# Sanitized schemas under the rejecting search

A rewritten schema passes the search for invalid keys when the schemas under
`dependencies`, which the search enters and the rewriting does not, pass it already. The
condition is also necessary unless a renamed map loses an entry to a key that has the
form of a generated one.
-/

namespace KiroProxy.ToolSchemaKeys

open Json Transition

variable {mapper : SchemaKeyMapper} {toolName : String} {base : Finset String}

variable {fuel : ℕ} {path : String} {value' : Json} {state state' : SanitizeState} {value : Json}

theorem sanitizeSchemaValue_arr {items : List Json}
    (hgrow : Grows (sanitizeSchemaValue mapper toolName fuel)) (hI : Reserving base state)
    (h : sanitizeSchemaValue mapper toolName (fuel + 1) path (.arr items) state =
      .ok (value', state')) :
    Reserving base state' ∧ ∃ items', value' = .arr items' ∧
      List.Forall₂ (Rewrites (Reserving base) (sanitizeSchemaValue mapper toolName fuel))
        items items' := by
  obtain ⟨⟨items', state₁⟩, h₁, h⟩ := exists_of_bind_eq_ok h
  cases h
  obtain ⟨hI', hitems⟩ := sanitizeItems_spec (hgrow base) hI h₁
  exact ⟨hI', items', rfl, hitems⟩

theorem grows_sanitizeSchemaValue (hmode : mapper.mode = .sanitize) (fuel : ℕ) :
    Grows (sanitizeSchemaValue mapper toolName fuel) := by
  induction fuel with
  | zero =>
    intro base path value state value' state' hI h
    cases h
    exact hI
  | succ fuel ih =>
    intro base path value state value' state' hI h
    cases value with
    | obj fields => exact (sanitizeSchemaValue_obj ih hmode hI h).1
    | arr items => exact (sanitizeSchemaValue_arr ih hI h).1
    | _ =>
      cases h
      exact hI

/-- The schemas under `dependencies`, at every position that the rewriting reaches, pass the
search. -/
def DependenciesValid (isMatch : String → Bool) (schema : Json) : Prop :=
  ∀ w, Visited schema w → ∀ dependency ∈ dependencySchemas w,
    firstInvalidPropertyKey isMatch dependency = none

theorem DependenciesValid.child {isMatch : String → Bool} {schema child : Json}
    (h : DependenciesValid isMatch schema) (hchild : child ∈ sanitizedChildren schema) :
    DependenciesValid isMatch child :=
  fun w hw => h w (.head hchild hw)

/-- No renamed map, at a position that the rewriting reaches, has a key of the form of a
generated one. -/
def GeneratedKeysFresh (mapper : SchemaKeyMapper) (toolName : String) (schema : Json) : Prop :=
  ∀ fields, Visited schema (.obj fields) → FreshKeys mapper toolName fields

theorem GeneratedKeysFresh.child {schema child : Json}
    (h : GeneratedKeysFresh mapper toolName schema) (hchild : child ∈ sanitizedChildren schema) :
    GeneratedKeysFresh mapper toolName child :=
  fun fields hw => h fields (.head hchild hw)

theorem depth_lt_of_mem_sanitizedChildren {value child : Json}
    (h : child ∈ sanitizedChildren value) : child.depth < value.depth :=
  depth_lt_of_transGen (transGen_of_mem_rejectChildren (mem_rejectChildren_of_sanitized h))

theorem valid_of_sanitizeSchemaValue (hmode : mapper.mode = .sanitize) (hfuel : value.depth < fuel)
    (hclean : DependenciesValid mapper.isMatch value)
    (h : sanitizeSchemaValue mapper toolName fuel path value state = .ok (value', state')) :
    Valid mapper.isMatch value' := by
  induction fuel generalizing path value value' state state' with
  | zero => omega
  | succ fuel ih =>
    have hgrow : Grows (sanitizeSchemaValue mapper toolName fuel) :=
      grows_sanitizeSchemaValue hmode fuel
    have hchildren : ∀ child ∈ sanitizedChildren value, ∀ child',
        Rewrites (Reserving ∅) (sanitizeSchemaValue mapper toolName fuel) child child' →
        Valid mapper.isMatch child' := by
      rintro child hchild child' ⟨path, state, state', -, h⟩
      have hlt := depth_lt_of_mem_sanitizedChildren hchild
      exact ih (by omega) (hclean.child hchild) h
    cases value with
    | obj fields =>
      obtain ⟨-, middle, scopeMap, fields', state₁, rfl, -, hobject⟩ :=
        sanitizeSchemaValue_obj hgrow hmode (Finset.empty_subset _ : Reserving ∅ state) h
      refine (valid_iff _).mpr ⟨hobject.propertyKeys_match, fun child' hchild' => ?_⟩
      rcases List.mem_append.mp hchild' with hchild' | hdependency
      · obtain ⟨child, hchild, hrewrites⟩ := hobject.exists_original hchild'
        exact hchildren child hchild child' hrewrites
      · exact (firstInvalidPropertyKey_eq_none_iff child').mp
          (hclean _ .refl child' (hobject.mem_dependencySchemas hdependency))
    | arr items =>
      obtain ⟨-, items', rfl, hitems⟩ :=
        sanitizeSchemaValue_arr hgrow (Finset.empty_subset _ : Reserving ∅ state) h
      refine (valid_iff _).mpr ⟨fun key hkey => absurd hkey List.not_mem_nil,
        fun child' hchild' => ?_⟩
      rcases List.mem_append.mp hchild' with hchild' | hdependency
      · obtain ⟨child, hchild, hrewrites⟩ := (exists_of_forall₂ hitems).1 child' hchild'
        exact hchildren child hchild child' hrewrites
      · cases hdependency
    | _ =>
      cases h
      exact (valid_iff _).mpr ⟨fun key hkey => absurd hkey List.not_mem_nil,
        fun child hchild => absurd hchild List.not_mem_nil⟩

theorem dependenciesValid_of_valid {isMatch : String → Bool}
    (hself : ∀ dependency ∈ dependencySchemas value, Valid isMatch dependency)
    (hchildren : ∀ child ∈ sanitizedChildren value, DependenciesValid isMatch child) :
    DependenciesValid isMatch value := by
  intro w hw dependency hdependency
  rcases Relation.ReflTransGen.cases_head hw with rfl | ⟨child, hchild, hw⟩
  · exact (firstInvalidPropertyKey_eq_none_iff dependency).mpr (hself dependency hdependency)
  · exact hchildren child hchild w hw dependency hdependency

theorem dependenciesValid_of_sanitizeSchemaValue (hmode : mapper.mode = .sanitize)
    (hfuel : value.depth < fuel) (hwf : value.WellFormed)
    (hfresh : GeneratedKeysFresh mapper toolName value) (hI : Reserving base state)
    (hbase : Reserves mapper.isMatch base value)
    (h : sanitizeSchemaValue mapper toolName fuel path value state = .ok (value', state'))
    (hvalid : Valid mapper.isMatch value') : DependenciesValid mapper.isMatch value := by
  induction fuel generalizing path value value' state state' with
  | zero => omega
  | succ fuel ih =>
    have hgrow : Grows (sanitizeSchemaValue mapper toolName fuel) :=
      grows_sanitizeSchemaValue hmode fuel
    have hchildren : ∀ child ∈ sanitizedChildren value,
        (∃ child' ∈ sanitizedChildren value',
          Rewrites (Reserving base) (sanitizeSchemaValue mapper toolName fuel) child child') →
        DependenciesValid mapper.isMatch child := by
      rintro child hchild ⟨child', hchild', path, state, state', hI, h⟩
      have hlt := depth_lt_of_mem_sanitizedChildren hchild
      have hwf' := wellFormed_of_transGen
        (transGen_of_mem_rejectChildren (mem_rejectChildren_of_sanitized hchild)) hwf
      exact ih (by omega) hwf' (hfresh.child hchild) hI (hbase.child hchild) h
        (((valid_iff _).mp hvalid).2 child' (mem_rejectChildren_of_sanitized hchild'))
    cases value with
    | obj fields =>
      obtain ⟨-, middle, scopeMap, fields', state₁, rfl, hproperties, hobject⟩ :=
        sanitizeSchemaValue_obj hgrow hmode hI h
      obtain ⟨hsurvive, hscope⟩ :=
        sanitizeProperties_survives hgrow hmode hI hwf (hbase _ .refl) hproperties
      have hfreshSelf := hfresh fields .refl
      refine dependenciesValid_of_valid (fun dependency hdependency => ?_) fun child hchild => ?_
      · refine ((valid_iff _).mp hvalid).2 dependency (List.mem_append_right _ ?_)
        exact hobject.dependencySchemas_subset hwf hscope hfreshSelf hdependency
      · exact hchildren child hchild
          (hobject.exists_rewritten hwf hscope hfreshSelf hsurvive hchild)
    | arr items =>
      obtain ⟨-, items', rfl, hitems⟩ := sanitizeSchemaValue_arr hgrow hI h
      refine dependenciesValid_of_valid (fun dependency hdependency => ?_) fun child hchild => ?_
      · cases hdependency
      · exact hchildren child hchild ((exists_of_forall₂ hitems).2 child hchild)
    | _ =>
      exact dependenciesValid_of_valid (fun dependency hdependency => absurd hdependency
        List.not_mem_nil) fun child hchild => absurd hchild List.not_mem_nil

namespace SchemaKeyMapper

/-- A schema that the sanitizing mode rewrites passes the rejecting mode when the schemas
under its `dependencies` do, and only then if no renamed map has a key of generated form. -/
theorem applyToSchema_sanitize_iff {schema schema' : Json}
    {mapping : Finmap fun _ : String => String} (hmode : mapper.mode = .sanitize)
    (h : mapper.applyToSchema toolName schema = .ok (schema', mapping)) :
    (DependenciesValid mapper.isMatch schema →
      firstInvalidPropertyKey mapper.isMatch schema' = none) ∧
    (schema.WellFormed → GeneratedKeysFresh mapper toolName schema →
      firstInvalidPropertyKey mapper.isMatch schema' = none →
      DependenciesValid mapper.isMatch schema) := by
  simp only [applyToSchema, hmode] at h
  obtain ⟨⟨value', state'⟩, h₁, h⟩ := exists_of_bind_eq_ok h
  cases h
  rw [firstInvalidPropertyKey_eq_none_iff]
  refine ⟨fun hclean => ?_, fun hwf hfresh hvalid => ?_⟩
  · exact valid_of_sanitizeSchemaValue hmode (Nat.lt_succ_self _) hclean h₁
  · exact dependenciesValid_of_sanitizeSchemaValue hmode (Nat.lt_succ_self _) hwf hfresh
      (Finset.Subset.refl _) (reserves_collectValidPropertyKeys (Nat.lt_succ_self _)) h₁ hvalid

/-- The default pattern, with the digest of the key `bad key` of a tool `lookup`. -/
def defaultMapper : SchemaKeyMapper where
  mode := .sanitize
  pattern := "^[a-zA-Z0-9_.-]{1,64}$"
  isMatch key := key.toList.all (fun c => c.isAlphanum || c == '_' || c == '.' || c == '-') &&
    1 ≤ key.toList.length && key.toList.length ≤ 64
  sha256 _ := "249c0ee0d43dafa44299ae58b11be1c5dd53bbf383f7957f9580d3a5c8b61c50"

def badProperty : Json :=
  .obj [("properties", .obj [("bad key", .obj [])])]

def badDependency : Json :=
  .obj [("dependencies", .obj [("a", badProperty)])]

def goodProperty : Json :=
  .obj [("properties", .obj [("key249c0ee0d43dafa4", .obj [])])]

theorem dependenciesValid_badProperty : DependenciesValid defaultMapper.isMatch badProperty := by
  refine dependenciesValid_of_valid (fun dependency h => absurd h List.not_mem_nil) ?_
  intro child hchild
  obtain rfl : child = .obj [] := List.mem_singleton.mp hchild
  exact dependenciesValid_of_valid (fun dependency h => absurd h List.not_mem_nil)
    fun child h => absurd h List.not_mem_nil

theorem applyToSchema_sanitize_badProperty :
    defaultMapper.applyToSchema "lookup" badProperty =
      .ok (goodProperty, Finmap.singleton "key249c0ee0d43dafa4" "bad key") ∧
    firstInvalidPropertyKey defaultMapper.isMatch goodProperty = none := by
  have h : defaultMapper.applyToSchema "lookup" badProperty =
      .ok (goodProperty, Finmap.singleton "key249c0ee0d43dafa4" "bad key") := rfl
  exact ⟨h, (applyToSchema_sanitize_iff rfl h).1 dependenciesValid_badProperty⟩

theorem applyToSchema_sanitize_badDependency :
    defaultMapper.applyToSchema "lookup" badDependency = .ok (badDependency, ∅) ∧
      firstInvalidPropertyKey defaultMapper.isMatch badDependency =
        some ("#/dependencies/a/properties/bad key", "bad key") :=
  ⟨rfl, by decide +kernel⟩

end SchemaKeyMapper

end KiroProxy.ToolSchemaKeys
