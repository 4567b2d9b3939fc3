import KiroProxy.ToolSchemaKeys.Mapper

/-!
# Positions of a schema

The sub-schemas that the traversals visit. The search for an invalid key also enters the
schemas under `dependencies`; the rewriting does not. A schema is valid when every
property key at every position of the search matches.
-/

namespace KiroProxy.ToolSchemaKeys

open Json

def propertyKeys : Json → List String
  | .obj fields => (objectField fields "properties").map Prod.fst
  | _ => []

/-- The sub-schemas that the rewriting enters. -/
def sanitizedChildren : Json → List Json
  | .obj fields =>
    (objectField fields "properties").map Prod.snd ++
      (schemaMapKeywords.flatMap fun key => (objectField fields key).map Prod.snd) ++
      schemaValueKeywords.filterMap (getField fields) ++
      schemaArrayKeywords.flatMap (arrayField fields)
  | .arr items => items
  | _ => []

def dependencySchemas : Json → List Json
  | .obj fields => ((objectField fields "dependencies").map Prod.snd).filter isSchema
  | _ => []

/-- The sub-schemas that the search for an invalid key enters. -/
def rejectChildren (value : Json) : List Json :=
  sanitizedChildren value ++ dependencySchemas value

/-- A position that the rewriting reaches. -/
def Visited : Json → Json → Prop :=
  Relation.ReflTransGen fun value child => child ∈ sanitizedChildren value

theorem mem_of_mem_objectField {fields : Fields} {key k : String} {v : Json}
    (h : (k, v) ∈ objectField fields key) :
    ∃ map, getField fields key = some (.obj map) ∧ (k, v) ∈ map := by
  unfold objectField at h
  split at h
  · next map hmap => exact ⟨map, hmap, h⟩
  · cases h

theorem mem_of_mem_arrayField {fields : Fields} {key : String} {v : Json}
    (h : v ∈ arrayField fields key) :
    ∃ items, getField fields key = some (.arr items) ∧ v ∈ items := by
  unfold arrayField at h
  split at h
  · next items hitems => exact ⟨items, hitems, h⟩
  · cases h

theorem transGen_of_mem_objectField {fields : Fields} {key k : String} {v : Json}
    (h : (k, v) ∈ objectField fields key) : Relation.TransGen Member v (.obj fields) := by
  obtain ⟨map, hmap, hmem⟩ := mem_of_mem_objectField h
  exact .tail (.single (.field hmem)) (.field (mem_of_getField hmap))

theorem transGen_of_mem_rejectChildren {value child : Json} (h : child ∈ rejectChildren value) :
    Relation.TransGen Member child value := by
  cases value with
  | obj fields =>
    rcases List.mem_append.mp h with h | h
    · rcases List.mem_append.mp h with h | h
      · rcases List.mem_append.mp h with h | h
        · rcases List.mem_append.mp h with h | h
          · obtain ⟨⟨k, v⟩, hmem, rfl⟩ := List.mem_map.mp h
            exact transGen_of_mem_objectField hmem
          · obtain ⟨key, -, h⟩ := List.mem_flatMap.mp h
            obtain ⟨⟨k, v⟩, hmem, rfl⟩ := List.mem_map.mp h
            exact transGen_of_mem_objectField hmem
        · obtain ⟨key, -, h⟩ := List.mem_filterMap.mp h
          exact .single (.field (mem_of_getField h))
      · obtain ⟨key, -, h⟩ := List.mem_flatMap.mp h
        obtain ⟨items, hitems, hmem⟩ := mem_of_mem_arrayField h
        exact .tail (.single (.item hmem)) (.field (mem_of_getField hitems))
    · obtain ⟨⟨k, v⟩, hmem, rfl⟩ := List.mem_map.mp (List.mem_filter.mp h).1
      exact transGen_of_mem_objectField hmem
  | arr items =>
    rcases List.mem_append.mp h with h | h
    · exact .single (.item h)
    · cases h
  | _ => cases h

theorem mem_rejectChildren_of_sanitized {value child : Json} (h : child ∈ sanitizedChildren value) :
    child ∈ rejectChildren value :=
  List.mem_append_left _ h

variable {isMatch : String → Bool}

def KeysValid (isMatch : String → Bool) : ℕ → Json → Prop
  | 0, _ => True
  | n + 1, value =>
    (∀ key ∈ propertyKeys value, isMatch key = true) ∧
      ∀ child ∈ rejectChildren value, KeysValid isMatch n child

theorem forall_mem_zipIdx_fst {P : Json → Prop} (items : List Json) :
    (∀ x ∈ items.zipIdx, P x.1) ↔ ∀ child ∈ items, P child := by
  rw [← List.forall_mem_map (f := Prod.fst), List.zipIdx_map_fst]

theorem keysValid_succ_obj (fuel : ℕ) (fields : Fields) :
    KeysValid isMatch (fuel + 1) (.obj fields) ↔
      (∀ x ∈ objectField fields "properties", isMatch x.1 = true) ∧
      (∀ x ∈ objectField fields "properties", KeysValid isMatch fuel x.2) ∧
      (∀ key ∈ schemaMapKeywords, ∀ x ∈ objectField fields key, KeysValid isMatch fuel x.2) ∧
      (∀ key ∈ schemaValueKeywords, ∀ child, getField fields key = some child →
        KeysValid isMatch fuel child) ∧
      (∀ key ∈ schemaArrayKeywords, ∀ child ∈ arrayField fields key, KeysValid isMatch fuel child) ∧
      ∀ x ∈ objectField fields "dependencies", isSchema x.2 = true → KeysValid isMatch fuel x.2 := by
  simp only [KeysValid, propertyKeys, rejectChildren, sanitizedChildren, dependencySchemas,
    List.forall_mem_append, List.forall_mem_map, List.forall_mem_flatMap,
    List.forall_mem_filterMap, List.forall_mem_filter, and_assoc]

theorem firstInvalidPropertyKeyFuel_eq_none_iff (fuel : ℕ) (path : String) (value : Json) :
    firstInvalidPropertyKeyFuel isMatch fuel path value = none ↔ KeysValid isMatch fuel value := by
  induction fuel generalizing path value with
  | zero => simp [firstInvalidPropertyKeyFuel, KeysValid]
  | succ fuel ih =>
    cases value with
    | obj fields =>
      simp only [firstInvalidPropertyKeyFuel, Option.orElse_eq_orElse, Option.orElse_eq_or,
        Option.or_eq_none_iff, List.findSome?_eq_none_iff, Option.bind_eq_none_iff,
        ite_eq_left_iff, ite_eq_right_iff, reduceCtorEq, imp_false, not_not, ih,
        forall_mem_zipIdx_fst, keysValid_succ_obj]
    | arr items =>
      simp only [firstInvalidPropertyKeyFuel, List.findSome?_eq_none_iff, ih,
        forall_mem_zipIdx_fst]
      simp [KeysValid, propertyKeys, rejectChildren, sanitizedChildren, dependencySchemas]
    | _ => simp [firstInvalidPropertyKeyFuel, KeysValid, propertyKeys, rejectChildren,
        sanitizedChildren, dependencySchemas]

theorem keysValid_of_depth_lt {fuel n : ℕ} {value : Json} (hfuel : value.depth < fuel)
    (h : KeysValid isMatch fuel value) : KeysValid isMatch n value := by
  induction n generalizing fuel value with
  | zero => exact trivial
  | succ n ih =>
    obtain _ | fuel := fuel
    · omega
    · refine ⟨h.1, fun child hchild => ?_⟩
      have hlt := depth_lt_of_transGen (transGen_of_mem_rejectChildren hchild)
      have hchildFuel : child.depth < fuel := by omega
      exact ih hchildFuel (h.2 child hchild)

/-- Every property key at every position that the search reaches matches. -/
def Valid (isMatch : String → Bool) (value : Json) : Prop :=
  ∀ n, KeysValid isMatch n value

theorem firstInvalidPropertyKey_eq_none_iff (value : Json) :
    firstInvalidPropertyKey isMatch value = none ↔ Valid isMatch value := by
  rw [firstInvalidPropertyKey, firstInvalidPropertyKeyFuel_eq_none_iff]
  exact ⟨fun h n => keysValid_of_depth_lt (Nat.lt_succ_self _) h, fun h => h _⟩

theorem valid_iff (value : Json) :
    Valid isMatch value ↔ (∀ key ∈ propertyKeys value, isMatch key = true) ∧
      ∀ child ∈ rejectChildren value, Valid isMatch child := by
  constructor
  · exact fun h => ⟨(h 1).1, fun child hchild n => (h (n + 1)).2 child hchild⟩
  · rintro ⟨hkeys, hchildren⟩ (_ | n)
    · exact trivial
    · exact ⟨hkeys, fun child hchild => hchildren child hchild n⟩

theorem mem_foldl_union {f : Json → Finset String} {children : List Json} {key : String}
    (keys : Finset String) :
    key ∈ children.foldl (fun keys child => keys ∪ f child) keys ↔
      key ∈ keys ∨ ∃ child ∈ children, key ∈ f child := by
  induction children generalizing keys with
  | nil => simp
  | cons child children ih =>
    rw [List.foldl_cons, ih, Finset.mem_union, List.exists_mem_cons_iff, or_assoc]

theorem mem_collectValidPropertyKeys_self {fuel : ℕ} {value : Json} {key : String}
    (hkey : key ∈ propertyKeys value) (hmatch : isMatch key = true) :
    key ∈ collectValidPropertyKeys isMatch (fuel + 1) value := by
  cases value with
  | obj fields =>
    rw [propertyKeys] at hkey
    simp only [collectValidPropertyKeys, Finset.mem_union, List.mem_toFinset, List.mem_filter]
    exact .inl (.inl (.inl (.inl (.inl ⟨hkey, hmatch⟩))))
  | _ => cases hkey

theorem mem_collectValidPropertyKeys_child {fuel : ℕ} {value child : Json} {key : String}
    (hchild : child ∈ sanitizedChildren value)
    (hkey : key ∈ collectValidPropertyKeys isMatch fuel child) :
    key ∈ collectValidPropertyKeys isMatch (fuel + 1) value := by
  cases value with
  | obj fields =>
    simp only [sanitizedChildren, List.mem_append] at hchild
    simp only [collectValidPropertyKeys, Finset.mem_union, mem_foldl_union]
    rcases hchild with ((h | h) | h) | h
    · exact .inl (.inl (.inl (.inl (.inr (.inr ⟨child, h, hkey⟩)))))
    · exact .inl (.inl (.inl (.inr (.inr ⟨child, h, hkey⟩))))
    · exact .inl (.inl (.inr (.inr ⟨child, h, hkey⟩)))
    · exact .inl (.inr (.inr ⟨child, h, hkey⟩))
  | arr items =>
    rw [collectValidPropertyKeys, mem_foldl_union]
    exact .inr ⟨child, hchild, hkey⟩
  | _ => cases hchild

/-- The valid property keys at every position that the rewriting reaches are reserved. -/
def Reserves (isMatch : String → Bool) (reserved : Finset String) (value : Json) : Prop :=
  ∀ w, Visited value w → ∀ key ∈ propertyKeys w, isMatch key = true → key ∈ reserved

theorem Reserves.child {reserved : Finset String} {value child : Json}
    (h : Reserves isMatch reserved value) (hchild : child ∈ sanitizedChildren value) :
    Reserves isMatch reserved child :=
  fun w hw => h w (.head hchild hw)

theorem reserves_collectValidPropertyKeys {fuel : ℕ} {value : Json} (hfuel : value.depth < fuel) :
    Reserves isMatch (collectValidPropertyKeys isMatch fuel value) value := by
  intro w hw key hkey hmatch
  induction hw using Relation.ReflTransGen.head_induction_on generalizing fuel with
  | refl =>
    obtain _ | fuel := fuel
    · omega
    · exact mem_collectValidPropertyKeys_self hkey hmatch
  | head hchild _ ih =>
    obtain _ | fuel := fuel
    · omega
    · have hlt := depth_lt_of_transGen
        (transGen_of_mem_rejectChildren (mem_rejectChildren_of_sanitized hchild))
      exact mem_collectValidPropertyKeys_child hchild (ih (by omega))

end KiroProxy.ToolSchemaKeys
