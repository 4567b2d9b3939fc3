import Mathlib

/-!
# Keyed lists

A hash map as a list of entries in its iteration order. Keys are distinct; an insertion
replaces the entry of an existing key and otherwise adds one.
-/

namespace KiroProxy.KeyedList

variable {κ α : Type} [DecidableEq κ]

def get (key : κ) : List (κ × α) → Option α
  | [] => none
  | (k, v) :: rest => if k = key then some v else get key rest

def insert (key : κ) (value : α) : List (κ × α) → List (κ × α)
  | [] => [(key, value)]
  | (k, v) :: rest => if k = key then (key, value) :: rest else (k, v) :: insert key value rest

def remove (key : κ) (map : List (κ × α)) : List (κ × α) :=
  map.filter fun entry => entry.1 != key

theorem get_insert_self (key : κ) (value : α) (map : List (κ × α)) :
    get key (insert key value map) = some value := by
  induction map with
  | nil => simp [insert, get]
  | cons entry map ih =>
    by_cases h : entry.1 = key
    · simp [insert, get, h]
    · simp [insert, get, h, ih]

variable {key key' : κ} {map : List (κ × α)} {value : α}

theorem get_append (key : κ) (map map' : List (κ × α)) :
    get key (map ++ map') = (get key map).or (get key map') := by
  induction map with
  | nil => rfl
  | cons entry map ih =>
    rw [List.cons_append, get, get]
    split_ifs
    · rfl
    · exact ih

theorem get_insert_of_ne (hne : key' ≠ key) (value : α) (map : List (κ × α)) :
    get key' (insert key value map) = get key' map := by
  induction map with
  | nil => simp [insert, get, hne.symm]
  | cons entry map ih =>
    by_cases h : entry.1 = key
    · have hentry : entry.1 ≠ key' := fun h' => hne (h'.symm.trans h)
      simp [insert, get, h, hne.symm]
    · simp [insert, get, h, ih]

theorem get_insert_ne_none (h : get key' map ≠ none) (value : α) :
    get key' (insert key value map) ≠ none := by
  by_cases heq : key' = key
  · rw [heq, get_insert_self]
    exact Option.some_ne_none value
  · rwa [get_insert_of_ne heq]

theorem get_mapWithKey (f : κ → α → α) (key : κ) (map : List (κ × α)) :
    get key (map.map fun entry => (entry.1, f entry.1 entry.2)) = (get key map).map (f key) := by
  induction map with
  | nil => rfl
  | cons entry map ih =>
    by_cases h : entry.1 = key
    · simp [get, h]
    · simp [get, h, ih]

theorem get_mapValues (f : α → α) (key : κ) (map : List (κ × α)) :
    get key (map.map fun entry => (entry.1, f entry.2)) = (get key map).map f :=
  get_mapWithKey (fun _ => f) key map

theorem keys_insert_of_get {value value' : α} (h : get key map = some value) :
    (insert key value' map).map Prod.fst = map.map Prod.fst := by
  induction map with
  | nil => cases h
  | cons entry map ih =>
    rw [get] at h
    by_cases heq : entry.1 = key
    · simp [insert, heq]
    · rw [if_neg heq] at h
      simp [insert, heq, ih h]

/-- Replacing a value by one with the same property. -/
theorem any_insert_of_get {p : κ × α → Bool} {value value' : α} (h : get key map = some value)
    (hp : p (key, value') = p (key, value)) : (insert key value' map).any p = map.any p := by
  induction map with
  | nil => cases h
  | cons entry map ih =>
    obtain ⟨k, v⟩ := entry
    rw [get] at h
    split_ifs at h with heq
    · cases h
      subst heq
      rw [insert, if_pos rfl, List.any_cons, List.any_cons, hp]
    · rw [insert, if_neg heq, List.any_cons, List.any_cons, ih h]

theorem mem_insert {entry : κ × α} (h : entry ∈ insert key value map) :
    entry = (key, value) ∨ entry ∈ map := by
  induction map with
  | nil => exact .inl (List.mem_singleton.mp h)
  | cons head map ih =>
    rw [insert] at h
    split_ifs at h with heq
    · exact (List.mem_cons.mp h).imp_right (List.mem_cons_of_mem head)
    · rcases List.mem_cons.mp h with rfl | h
      · exact .inr List.mem_cons_self
      · exact (ih h).imp_right (List.mem_cons_of_mem head)

theorem mem_of_get (h : get key map = some value) : (key, value) ∈ map := by
  induction map with
  | nil => cases h
  | cons entry map ih =>
    rw [get] at h
    split_ifs at h with heq
    · cases h
      rw [← heq]
      exact List.mem_cons_self
    · exact List.mem_cons_of_mem _ (ih h)

theorem get_filter_of_pos {p : κ × α → Bool} (h : get key map = some value)
    (hp : p (key, value) = true) : get key (map.filter p) = some value := by
  induction map with
  | nil => cases h
  | cons entry map ih =>
    obtain ⟨k, v⟩ := entry
    rw [get] at h
    split_ifs at h with heq
    · cases h
      subst heq
      rw [List.filter_cons_of_pos hp, get, if_pos rfl]
    · cases hentry : p (k, v) with
      | true => rw [List.filter_cons_of_pos hentry, get, if_neg heq, ih h]
      | false => rw [List.filter_cons_of_neg (by simp [hentry]), ih h]

theorem get_eq_some_iff (hnodup : (map.map Prod.fst).Nodup) :
    get key map = some value ↔ (key, value) ∈ map := by
  refine ⟨mem_of_get, fun h => ?_⟩
  induction map with
  | nil => cases h
  | cons entry map ih =>
    obtain ⟨hnotin, hnodup⟩ := List.nodup_cons.mp hnodup
    rcases List.mem_cons.mp h with rfl | h
    · simp [get]
    · have hne : entry.1 ≠ key := fun heq => hnotin (List.mem_map.mpr ⟨_, h, heq.symm⟩)
      rw [get, if_neg hne]
      exact ih hnodup h

theorem insert_of_get_eq_none (h : get key map = none) :
    insert key value map = map ++ [(key, value)] := by
  induction map with
  | nil => rfl
  | cons entry map ih =>
    rw [get] at h
    split_ifs at h with heq
    rw [insert, if_neg heq, ih h, List.cons_append]

theorem get_eq_none_iff : get key map = none ↔ key ∉ map.map Prod.fst := by
  induction map with
  | nil => simp [get]
  | cons entry map ih =>
    rw [get, List.map_cons, List.mem_cons, not_or]
    by_cases h : entry.1 = key
    · simp [h]
    · rw [if_neg h, ih]
      exact ⟨fun h' => ⟨fun heq => h heq.symm, h'⟩, fun h' => h'.2⟩

theorem foldl_insert_eq_append {map entries : List (κ × α)}
    (hnodup : ((map ++ entries).map Prod.fst).Nodup) :
    entries.foldl (fun map entry => insert entry.1 entry.2 map) map = map ++ entries := by
  induction entries generalizing map with
  | nil => simp
  | cons entry entries ih =>
    have hnew : get entry.1 map = none := by
      rw [get_eq_none_iff]
      rw [List.map_append, List.map_cons, List.nodup_middle, List.nodup_cons] at hnodup
      exact fun hmem => hnodup.1 (List.mem_append_left _ hmem)
    rw [List.foldl_cons, insert_of_get_eq_none hnew, ih, List.append_assoc]
    · rfl
    · rwa [List.append_assoc]

theorem nodup_keys_insert (hnodup : (map.map Prod.fst).Nodup) (key : κ) (value : α) :
    ((insert key value map).map Prod.fst).Nodup := by
  cases h : get key map with
  | some old => rwa [keys_insert_of_get h]
  | none =>
    rw [insert_of_get_eq_none h, List.map_append]
    apply hnodup.append (List.nodup_singleton key)
    simpa using get_eq_none_iff.mp h

theorem get_remove_self (key : κ) (map : List (κ × α)) : get key (remove key map) = none := by
  rw [get_eq_none_iff]
  simp [remove]

theorem get_remove_of_ne (hne : key' ≠ key) (map : List (κ × α)) :
    get key' (remove key map) = get key' map := by
  induction map with
  | nil => rfl
  | cons entry map ih =>
    rw [remove] at ih ⊢
    by_cases h : entry.1 = key
    · have hne' : entry.1 ≠ key' := fun h' => hne (h'.symm.trans h)
      rw [List.filter_cons_of_neg (by simp [h]), ih, get, if_neg hne']
    · rw [List.filter_cons_of_pos (by simp [h]), get, get, ih]

theorem remove_insert_self (key : κ) (value : α) (map : List (κ × α)) :
    remove key (insert key value map) = remove key map := by
  induction map with
  | nil => simp [insert, remove]
  | cons entry map ih =>
    by_cases h : entry.1 = key
    · simp [insert, remove, h]
    · rw [remove, remove] at ih
      rw [insert, if_neg h, remove, remove, List.filter_cons_of_pos (by simp [h]), ih,
        List.filter_cons_of_pos (by simp [h])]

theorem nodup_keys_remove (hnodup : (map.map Prod.fst).Nodup) (key : κ) :
    ((remove key map).map Prod.fst).Nodup :=
  hnodup.sublist (List.filter_sublist.map Prod.fst)

theorem remove_of_get_eq_none (h : get key map = none) : remove key map = map := by
  rw [remove, List.filter_eq_self]
  intro entry hentry
  have hkey := get_eq_none_iff.mp h
  have hne : entry.1 ≠ key := fun heq => hkey (heq ▸ List.mem_map_of_mem hentry)
  simpa using hne

/-- Where a key of a map stands, and what replacing or removing it leaves. -/
theorem split_of_get (h : get key map = some value) :
    ∃ before after, map = before ++ (key, value) :: after ∧ key ∉ before.map Prod.fst ∧
      ∀ value', insert key value' map = before ++ (key, value') :: after := by
  induction map with
  | nil => cases h
  | cons entry map ih =>
    obtain ⟨k, v⟩ := entry
    rw [get] at h
    split_ifs at h with heq
    · cases h
      subst heq
      exact ⟨[], map, rfl, List.not_mem_nil, fun value' => by rw [insert, if_pos rfl]; rfl⟩
    · obtain ⟨before, after, rfl, hnotin, hinsert⟩ := ih h
      refine ⟨(k, v) :: before, after, rfl, ?_, ?_⟩
      · rw [List.map_cons, List.mem_cons, not_or]
        exact ⟨fun h' => heq h'.symm, hnotin⟩
      · intro value'
        rw [insert, if_neg heq, hinsert value', List.cons_append]

/-- A sum over a map in which one value is replaced. -/
theorem sum_insert_of_get (f : α → ℕ) (h : get key map = some value) (value' : α) :
    ((insert key value' map).map fun entry => f entry.2).sum + f value =
      (map.map fun entry => f entry.2).sum + f value' := by
  obtain ⟨before, after, rfl, -, hinsert⟩ := split_of_get h
  rw [hinsert, List.map_append, List.map_append, List.sum_append, List.sum_append,
    List.map_cons, List.map_cons, List.sum_cons, List.sum_cons]
  dsimp only
  omega

theorem remove_append_cons {before after : List (κ × α)}
    (hnodup : ((before ++ (key, value) :: after).map Prod.fst).Nodup) :
    remove key (before ++ (key, value) :: after) = before ++ after := by
  rw [List.map_append, List.map_cons, List.nodup_middle, List.nodup_cons, List.mem_append,
    not_or] at hnodup
  have hself (l : List (κ × α)) (h : key ∉ l.map Prod.fst) :
      l.filter (fun entry => entry.1 != key) = l := by
    rw [List.filter_eq_self]
    intro entry hentry
    have hne : entry.1 ≠ key := fun heq => h (heq ▸ List.mem_map_of_mem hentry)
    simpa using hne
  rw [remove, List.filter_append, List.filter_cons_of_neg (by simp), hself before hnodup.1.1,
    hself after hnodup.1.2]

theorem length_remove_of_get (hnodup : (map.map Prod.fst).Nodup) (h : get key map = some value) :
    (remove key map).length + 1 = map.length := by
  obtain ⟨before, after, rfl, -, -⟩ := split_of_get h
  rw [remove_append_cons hnodup]
  simp [Nat.add_assoc]

theorem insert_perm (hnodup : (map.map Prod.fst).Nodup) (key : κ) (value : α) :
    (insert key value map).Perm ((key, value) :: remove key map) := by
  cases h : get key map with
  | none =>
    rw [insert_of_get_eq_none h, remove_of_get_eq_none h]
    exact List.perm_append_singleton _ _
  | some old =>
    obtain ⟨before, after, rfl, -, hinsert⟩ := split_of_get h
    rw [hinsert value, remove_append_cons hnodup]
    exact List.perm_middle

/-- A map read in another order is the same map. -/
theorem get_perm {map map' : List (κ × α)} (h : map.Perm map')
    (hnodup : (map.map Prod.fst).Nodup) (key : κ) : get key map' = get key map := by
  have hnodup' := (h.map Prod.fst).nodup hnodup
  apply Option.ext
  intro value
  rw [get_eq_some_iff hnodup', get_eq_some_iff hnodup, h.mem_iff]

end KiroProxy.KeyedList
