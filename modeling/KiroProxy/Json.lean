import Mathlib.Data.List.Basic
import Mathlib.Data.List.Nodup
import Mathlib.Data.String.Basic
import Mathlib.Logic.Relation

/-!
# JSON values

`serde_json::Value` with objects as lists of fields in key order. `insertField` is the
insertion of an ordered map, `setField` the assignment through a mutable reference to
an existing field.
-/

namespace KiroProxy

inductive Json
  | null
  | bool (b : Bool)
  | int (n : Int)
  | float (text : String)
  | str (s : String)
  | arr (items : List Json)
  | obj (fields : List (String × Json))
  deriving Repr

namespace Json

abbrev Fields := List (String × Json)

def getField (fields : Fields) (key : String) : Option Json :=
  match fields with
  | [] => none
  | (k, v) :: rest => if k = key then some v else getField rest key

def setField (fields : Fields) (key : String) (value : Json) : Fields :=
  match fields with
  | [] => []
  | (k, v) :: rest => if k = key then (k, value) :: rest else (k, v) :: setField rest key value

def insertField (fields : Fields) (key : String) (value : Json) : Fields :=
  match fields with
  | [] => [(key, value)]
  | (k, v) :: rest =>
    if key = k then (key, value) :: rest
    else if key < k then (key, value) :: (k, v) :: rest
    else (k, v) :: insertField rest key value

def isObject : Json → Bool
  | .obj _ => true
  | _ => false

def isBoolean : Json → Bool
  | .bool _ => true
  | _ => false

def asStr : Json → Option String
  | .str s => some s
  | _ => none

/-- `value[key]`, which is null where there is no such field. -/
def index (value : Json) (key : String) : Json :=
  match value with
  | .obj fields => (getField fields key).getD .null
  | _ => .null

/-- `value[key] = item`, for an object; null becomes one. -/
def setIndex (value : Json) (key : String) (item : Json) : Json :=
  match value with
  | .obj fields => .obj (insertField fields key item)
  | .null => .obj [(key, item)]
  | other => other

mutual

def beq : Json → Json → Bool
  | .null, .null => true
  | .bool a, .bool b => a == b
  | .int a, .int b => a == b
  | .float a, .float b => a == b
  | .str a, .str b => a == b
  | .arr a, .arr b => beqItems a b
  | .obj a, .obj b => beqFields a b
  | _, _ => false

def beqItems : List Json → List Json → Bool
  | [], [] => true
  | v :: a, w :: b => beq v w && beqItems a b
  | _, _ => false

def beqFields : Fields → Fields → Bool
  | [], [] => true
  | (k, v) :: a, (l, w) :: b => k == l && beq v w && beqFields a b
  | _, _ => false

end

instance : BEq Json := ⟨beq⟩

mutual

def depth : Json → ℕ
  | .arr items => depthItems items + 1
  | .obj fields => depthFields fields + 1
  | _ => 0

def depthItems : List Json → ℕ
  | [] => 0
  | v :: items => max v.depth (depthItems items)

def depthFields : Fields → ℕ
  | [] => 0
  | (_, v) :: fields => max v.depth (depthFields fields)

end

mutual

/-- Keys are in strictly increasing order in every object. -/
def WellFormed : Json → Prop
  | .arr items => WellFormedItems items
  | .obj fields => (fields.map Prod.fst).Pairwise (· < ·) ∧ WellFormedFields fields
  | _ => True

def WellFormedItems : List Json → Prop
  | [] => True
  | v :: items => v.WellFormed ∧ WellFormedItems items

def WellFormedFields : Fields → Prop
  | [] => True
  | (_, v) :: fields => v.WellFormed ∧ WellFormedFields fields

end

/-- An item of an array or a value of an object. -/
inductive Member : Json → Json → Prop
  | item {v : Json} {items : List Json} (h : v ∈ items) : Member v (.arr items)
  | field {key : String} {v : Json} {fields : Fields} (h : (key, v) ∈ fields) :
      Member v (.obj fields)

variable {v w : Json} {fields : Fields} {key key' : String}

theorem Member.depth_lt (h : Member v w) : v.depth < w.depth := by
  cases h with
  | @item _ items h =>
    suffices v.depth ≤ depthItems items by rw [depth]; omega
    induction items with
    | nil => cases h
    | cons w items ih =>
      rw [depthItems]
      rcases List.mem_cons.mp h with rfl | h
      · exact Nat.le_max_left _ _
      · exact (ih h).trans (Nat.le_max_right _ _)
  | @field key _ fields h =>
    suffices v.depth ≤ depthFields fields by rw [depth]; omega
    induction fields with
    | nil => cases h
    | cons field fields ih =>
      rw [depthFields]
      rcases List.mem_cons.mp h with rfl | h
      · exact Nat.le_max_left _ _
      · exact (ih h).trans (Nat.le_max_right _ _)

theorem Member.wellFormed (h : Member v w) (hw : w.WellFormed) : v.WellFormed := by
  cases h with
  | @item _ items h =>
    rw [WellFormed] at hw
    induction items with
    | nil => cases h
    | cons w items ih =>
      rw [WellFormedItems] at hw
      rcases List.mem_cons.mp h with rfl | h
      · exact hw.1
      · exact ih h hw.2
  | @field key _ fields h =>
    rw [WellFormed] at hw
    replace hw := hw.2
    induction fields with
    | nil => cases h
    | cons field fields ih =>
      rw [WellFormedFields] at hw
      rcases List.mem_cons.mp h with rfl | h
      · exact hw.1
      · exact ih h hw.2

theorem depth_lt_of_transGen (h : Relation.TransGen Member v w) : v.depth < w.depth := by
  induction h with
  | single h => exact h.depth_lt
  | tail _ h ih => exact ih.trans h.depth_lt

theorem wellFormed_of_transGen (h : Relation.TransGen Member v w) (hw : w.WellFormed) :
    v.WellFormed := by
  induction h with
  | single h => exact h.wellFormed hw
  | tail _ h ih => exact ih (h.wellFormed hw)

theorem nodup_keys (h : (Json.obj fields).WellFormed) : (fields.map Prod.fst).Nodup := by
  rw [WellFormed] at h
  exact h.1.imp fun hlt => ne_of_lt hlt

theorem mem_of_getField (h : getField fields key = some v) : (key, v) ∈ fields := by
  induction fields with
  | nil => cases h
  | cons field fields ih =>
    rw [getField] at h
    split_ifs at h with heq
    · cases h
      rw [← heq]
      exact List.mem_cons_self
    · exact List.mem_cons_of_mem _ (ih h)

theorem getField_setField_self (h : getField fields key = some w) :
    getField (setField fields key v) key = some v := by
  induction fields with
  | nil => cases h
  | cons field fields ih =>
    rw [getField] at h
    by_cases heq : field.1 = key
    · rw [setField, if_pos heq, getField, if_pos heq]
    · rw [if_neg heq] at h
      rw [setField, if_neg heq, getField, if_neg heq, ih h]

theorem getField_setField_of_ne (h : key' ≠ key) :
    getField (setField fields key v) key' = getField fields key' := by
  induction fields with
  | nil => rfl
  | cons field fields ih =>
    by_cases heq : field.1 = key
    · have hne : field.1 ≠ key' := fun h' => h (h'.symm.trans heq)
      rw [setField, if_pos heq, getField, if_neg hne, getField, if_neg hne]
    · rw [setField, if_neg heq, getField, getField, ih]

theorem getField_insertField_self (fields : Fields) (key : String) (value : Json) :
    getField (insertField fields key value) key = some value := by
  induction fields with
  | nil => rw [insertField, getField, if_pos rfl]
  | cons field fields ih =>
    rw [insertField]
    split_ifs with heq hlt
    · rw [getField, if_pos rfl]
    · rw [getField, if_pos rfl]
    · rw [getField, if_neg (Ne.symm heq), ih]

theorem getField_insertField_of_ne (hne : key' ≠ key) (fields : Fields) (value : Json) :
    getField (insertField fields key value) key' = getField fields key' := by
  induction fields with
  | nil => simp only [insertField, getField, if_neg hne.symm]
  | cons field fields ih =>
    rw [insertField]
    split_ifs with heq hlt
    · have hfield : field.1 ≠ key' := heq ▸ hne.symm
      simp only [getField, if_neg hne.symm, if_neg hfield]
    · simp only [getField, if_neg hne.symm]
    · simp only [getField, ih]

theorem index_setIndex_self {value : Json} (h : value.isObject = true) (key : String)
    (item : Json) : (value.setIndex key item).index key = item := by
  cases value with
  | obj fields => rw [setIndex, index, getField_insertField_self, Option.getD_some]
  | _ => cases h

theorem index_setIndex_of_ne (hne : key' ≠ key) (value item : Json) :
    (value.setIndex key item).index key' = value.index key' := by
  cases value with
  | obj fields => rw [setIndex, index, getField_insertField_of_ne hne, index]
  | null => simp only [setIndex, index, getField, if_neg hne.symm, Option.getD_none]
  | _ => rfl

theorem isObject_of_index {value : Json} (h : value.index key ≠ .null) : value.isObject = true := by
  cases value with
  | obj fields => rfl
  | _ => exact absurd rfl h

theorem mem_insertField {key k : String} {value v : Json}
    (h : (k, v) ∈ insertField fields key value) : (k, v) = (key, value) ∨ (k, v) ∈ fields := by
  induction fields with
  | nil => exact .inl (List.mem_singleton.mp h)
  | cons field fields ih =>
    rw [insertField] at h
    split_ifs at h with heq hlt
    · rcases List.mem_cons.mp h with h | h
      · exact .inl h
      · exact .inr (List.mem_cons_of_mem _ h)
    · rcases List.mem_cons.mp h with h | h
      · exact .inl h
      · exact .inr h
    · rcases List.mem_cons.mp h with h | h
      · exact .inr (h ▸ List.mem_cons_self)
      · exact (ih h).imp_right (List.mem_cons_of_mem _)

theorem mem_insertField_self (fields : Fields) (key : String) (value : Json) :
    (key, value) ∈ insertField fields key value := by
  induction fields with
  | nil => exact List.mem_cons_self
  | cons field fields ih =>
    rw [insertField]
    split_ifs
    · exact List.mem_cons_self
    · exact List.mem_cons_self
    · exact List.mem_cons_of_mem _ ih

theorem mem_insertField_of_ne {key k : String} {value v : Json} (h : (k, v) ∈ fields)
    (hne : k ≠ key) : (k, v) ∈ insertField fields key value := by
  induction fields with
  | nil => cases h
  | cons field fields ih =>
    rw [insertField]
    split_ifs with heq hlt
    · refine List.mem_cons_of_mem _ ((List.mem_cons.mp h).resolve_left fun hfield => hne ?_)
      rw [heq, ← hfield]
    · exact List.mem_cons_of_mem _ h
    · rcases List.mem_cons.mp h with rfl | h
      · exact List.mem_cons_self
      · exact List.mem_cons_of_mem _ (ih h)

theorem insertField_perm {value : Json} (h : ∀ x ∈ fields, x.1 ≠ key) :
    (insertField fields key value).Perm ((key, value) :: fields) := by
  induction fields with
  | nil => exact .refl _
  | cons field fields ih =>
    obtain ⟨hne, htail⟩ := List.forall_mem_cons.mp h
    rw [insertField, if_neg hne.symm]
    split_ifs
    · exact .refl _
    · exact ((ih htail).cons field).trans (.swap _ _ _)

theorem pairwise_insertField (key : String) (value : Json)
    (h : (fields.map Prod.fst).Pairwise (· < ·)) :
    ((insertField fields key value).map Prod.fst).Pairwise (· < ·) := by
  induction fields with
  | nil => exact List.pairwise_singleton _ _
  | cons field fields ih =>
    obtain ⟨hlt, htail⟩ := List.pairwise_cons.mp h
    rw [insertField]
    split_ifs with heq hkey
    · exact List.pairwise_cons.mpr ⟨heq ▸ hlt, htail⟩
    · refine List.pairwise_cons.mpr ⟨fun k hk => ?_, h⟩
      rcases List.mem_cons.mp hk with rfl | hk
      · exact hkey
      · exact hkey.trans (hlt k hk)
    · refine List.pairwise_cons.mpr ⟨fun k hk => ?_, ih htail⟩
      obtain ⟨⟨k, v⟩, hmem, rfl⟩ := List.mem_map.mp hk
      rcases mem_insertField hmem with hmem | hmem
      · cases hmem
        exact lt_of_le_of_ne (le_of_not_gt hkey) (Ne.symm heq)
      · exact hlt k (List.mem_map_of_mem hmem)

end Json

end KiroProxy
