import Mathlib

/-! JSON values as the application and the `jsonb` columns see them. A number keeps the
integer or floating representation it was written with, because the integer accessors
refuse a float; `jsonb` comparison does not, so it goes through `numeric`. An object
lists its fields in key order, one per key, as the map behind it does. -/

inductive Number where
  | int (z : ℤ)
  | float (q : ℚ)
  deriving DecidableEq

inductive Json where
  | null
  | bool (b : Bool)
  | num (n : Number)
  | str (s : String)
  | arr (items : List Json)
  | obj (fields : List (String × Json))

namespace Json

mutual

def decEq : (a b : Json) → Decidable (a = b)
  | .null, .null => isTrue rfl
  | .bool a, .bool b => decidable_of_iff (a = b) (by simp)
  | .num a, .num b => decidable_of_iff (a = b) (by simp)
  | .str a, .str b => decidable_of_iff (a = b) (by simp)
  | .arr a, .arr b =>
    match decEqItems a b with
    | isTrue h => isTrue (by rw [h])
    | isFalse h => isFalse (by simpa using h)
  | .obj a, .obj b =>
    match decEqFields a b with
    | isTrue h => isTrue (by rw [h])
    | isFalse h => isFalse (by simpa using h)
  | .null, .bool _ | .null, .num _ | .null, .str _ | .null, .arr _ | .null, .obj _
  | .bool _, .null | .bool _, .num _ | .bool _, .str _ | .bool _, .arr _ | .bool _, .obj _
  | .num _, .null | .num _, .bool _ | .num _, .str _ | .num _, .arr _ | .num _, .obj _
  | .str _, .null | .str _, .bool _ | .str _, .num _ | .str _, .arr _ | .str _, .obj _
  | .arr _, .null | .arr _, .bool _ | .arr _, .num _ | .arr _, .str _ | .arr _, .obj _
  | .obj _, .null | .obj _, .bool _ | .obj _, .num _ | .obj _, .str _ | .obj _, .arr _ =>
    isFalse (by simp)

def decEqItems : (a b : List Json) → Decidable (a = b)
  | [], [] => isTrue rfl
  | [], _ :: _ | _ :: _, [] => isFalse (by simp)
  | x :: xs, y :: ys =>
    match decEq x y, decEqItems xs ys with
    | isTrue h, isTrue k => isTrue (by rw [h, k])
    | isFalse h, _ => isFalse (by simp [h])
    | _, isFalse k => isFalse (by simp [k])

def decEqFields : (a b : List (String × Json)) → Decidable (a = b)
  | [], [] => isTrue rfl
  | [], _ :: _ | _ :: _, [] => isFalse (by simp)
  | (i, x) :: xs, (j, y) :: ys =>
    match (inferInstance : Decidable (i = j)), decEq x y, decEqFields xs ys with
    | isTrue e, isTrue h, isTrue k => isTrue (by rw [e, h, k])
    | isFalse e, _, _ => isFalse (by simp [e])
    | _, isFalse h, _ => isFalse (by simp [h])
    | _, _, isFalse k => isFalse (by simp [k])

end

instance : DecidableEq Json := decEq

/-- Field access; absent on anything but an object. -/
def get (k : String) : Json → Option Json
  | .obj fields => (fields.find? fun f => decide (f.1 = k)).map Prod.snd
  | _ => none

/-- The fields of an object with one more, in key order. -/
def insertField (k : String) (v : Json) : List (String × Json) → List (String × Json)
  | [] => [(k, v)]
  | (i, w) :: fields =>
    if i = k then (k, v) :: fields
    else if i < k then (i, w) :: insertField k v fields
    else (k, v) :: (i, w) :: fields

/-- Adding a field; nothing happens to anything but an object. -/
def withField (k : String) (v : Json) : Json → Json
  | .obj fields => .obj (insertField k v fields)
  | j => j

/-- Element access; absent on anything but an array. -/
def item (i : ℕ) : Json → Option Json
  | .arr items => items[i]?
  | _ => none

def asStr : Json → Option String
  | .str s => some s
  | _ => none

def asBool : Json → Option Bool
  | .bool b => some b
  | _ => none

def asArray : Json → Option (List Json)
  | .arr items => some items
  | _ => none

def asI64 : Json → Option ℤ
  | .num (.int z) => if -2 ^ 63 ≤ z ∧ z < 2 ^ 63 then some z else none
  | _ => none

def asU64 : Json → Option ℕ
  | .num (.int z) => if 0 ≤ z ∧ z < 2 ^ 64 then some z.toNat else none
  | _ => none

/-- The rounding of a large integer is left out: it keeps order, and every caller only
asks whether the value lies within a small range. -/
def asF64 : Json → Option ℚ
  | .num (.int z) => some z
  | .num (.float q) => some q
  | _ => none

mutual

/-- The value `jsonb` compares: numbers by magnitude, whatever their notation. -/
def numeric : Json → Json
  | .num (.int z) => .num (.float z)
  | .arr items => .arr (numericItems items)
  | .obj fields => .obj (numericFields fields)
  | j => j

def numericItems : List Json → List Json
  | [] => []
  | j :: js => numeric j :: numericItems js

def numericFields : List (String × Json) → List (String × Json)
  | [] => []
  | (k, j) :: fs => (k, numeric j) :: numericFields fs

end

/-- SQL's `a IS DISTINCT FROM b` on two `jsonb` expressions, null included. -/
def isDistinctFrom (a b : Option Json) : Bool :=
  decide (a.map numeric ≠ b.map numeric)

mutual

/-- A `jsonb` column refuses the zero character anywhere in the document. -/
def storable : Json → Bool
  | .str s => !s.toList.contains '\x00'
  | .arr items => storableItems items
  | .obj fields => storableFields fields
  | _ => true

def storableItems : List Json → Bool
  | [] => true
  | j :: js => storable j && storableItems js

def storableFields : List (String × Json) → Bool
  | [] => true
  | (k, j) :: fs => !k.toList.contains '\x00' && storable j && storableFields fs

end

theorem storableFields_mem {fs : List (String × Json)} (h : storableFields fs = true)
    {f : String × Json} (hf : f ∈ fs) : storable f.2 = true := by
  induction fs with
  | nil => cases hf
  | cons g gs ih =>
    obtain ⟨k, j⟩ := g
    simp only [storableFields, Bool.and_eq_true] at h
    rcases List.mem_cons.mp hf with rfl | hf
    · exact h.1.2
    · exact ih h.2 hf

theorem storable_get {j v : Json} {k : String} (h : storable j = true)
    (hv : j.get k = some v) : storable v = true := by
  cases j with
  | obj fields =>
    simp only [get, Option.map_eq_some_iff] at hv
    obtain ⟨f, hf, rfl⟩ := hv
    exact storableFields_mem (by simpa [storable] using h) (List.mem_of_find?_eq_some hf)
  | _ => cases hv

@[simp] theorem numericItems_eq_map (js : List Json) : numericItems js = js.map numeric := by
  induction js with
  | nil => rfl
  | cons j js ih => simp [numericItems, ih]

@[simp] theorem isDistinctFrom_eq_false {a b : Option Json} :
    isDistinctFrom a b = false ↔ a.map numeric = b.map numeric := by
  simp [isDistinctFrom]

@[simp] theorem isDistinctFrom_eq_true {a b : Option Json} :
    isDistinctFrom a b = true ↔ a.map numeric ≠ b.map numeric := by
  simp [isDistinctFrom]

@[simp] theorem asStr_eq_some {j : Json} {s : String} : j.asStr = some s ↔ j = .str s := by
  cases j <;> simp [asStr]

@[simp] theorem asBool_eq_some {j : Json} {b : Bool} : j.asBool = some b ↔ j = .bool b := by
  cases j <;> simp [asBool]

@[simp] theorem asArray_eq_some {j : Json} {js : List Json} :
    j.asArray = some js ↔ j = .arr js := by
  cases j <;> simp [asArray]

end Json
