import Mathlib

/-! Header fields, in the order they were added. A name may have several values: an insert replaces
them all, an append adds one. -/

abbrev HeaderFields (ν : Type*) := List (ν × String)

namespace HeaderFields

variable {ν : Type*} [DecidableEq ν] {fields : HeaderFields ν} {name other : ν} {value : String}

def getAll (fields : HeaderFields ν) (name : ν) : List String :=
  (fields.filter fun f => decide (f.1 = name)).map Prod.snd

/-- Of the values of a name, the first. -/
def get (fields : HeaderFields ν) (name : ν) : Option String := (fields.getAll name).head?

def append (fields : HeaderFields ν) (name : ν) (value : String) : HeaderFields ν :=
  fields ++ [(name, value)]

def insert (fields : HeaderFields ν) (name : ν) (value : String) : HeaderFields ν :=
  append (fields.filter fun f => decide (f.1 ≠ name)) name value

@[simp] theorem getAll_append_self :
    (append fields name value).getAll name = fields.getAll name ++ [value] := by
  simp [append, getAll]

@[simp] theorem getAll_append_of_ne (apart : other ≠ name) :
    (append fields other value).getAll name = fields.getAll name := by
  simp [append, getAll, apart]

theorem getAll_filter_self :
    getAll (fields.filter fun f => decide (f.1 ≠ name)) name = [] := by
  rw [getAll, List.filter_filter, List.filter_eq_nil_iff.mpr, List.map_nil]
  intro f _ both
  rw [Bool.and_eq_true, decide_eq_true_iff, decide_eq_true_iff] at both
  exact both.2 both.1

theorem getAll_filter_of_ne (apart : other ≠ name) :
    getAll (fields.filter fun f => decide (f.1 ≠ other)) name = fields.getAll name := by
  rw [getAll, getAll, List.filter_filter]
  refine congrArg (List.map Prod.snd) (List.filter_congr fun f _ => ?_)
  by_cases same : f.1 = name
  · simp [same, apart.symm]
  · simp [same]

@[simp] theorem getAll_insert_self : (insert fields name value).getAll name = [value] := by
  rw [insert, getAll_append_self, getAll_filter_self, List.nil_append]

@[simp] theorem getAll_insert_of_ne (apart : other ≠ name) :
    (insert fields other value).getAll name = fields.getAll name := by
  rw [insert, getAll_append_of_ne apart, getAll_filter_of_ne apart]

theorem get_eq (fields : HeaderFields ν) (name : ν) :
    fields.get name = (fields.getAll name).head? := rfl

end HeaderFields
