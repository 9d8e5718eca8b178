/-!
Indexes: what keys are bound to. A key that is bound again is bound to the later value.
-/

namespace TypeDocs

structure Index (κ ν : Type) where
  pairs : List (κ × ν) := []
deriving DecidableEq, Repr

namespace Index

variable {κ ν : Type}

def insert (i : Index κ ν) (key : κ) (value : ν) : Index κ ν :=
  ⟨(key, value) :: i.pairs⟩

/-- Binds each key to the value that goes with its position. -/
def ofKeys (place : Nat → ν) (keys : List κ) : Index κ ν :=
  keys.zipIdx.foldl (fun i (key, position) => i.insert key (place position)) {}

@[simp]
theorem ofKeys_concat (place : Nat → ν) (keys : List κ) (key : κ) :
    ofKeys place (keys ++ [key]) = (ofKeys place keys).insert key (place keys.length) := by
  simp [ofKeys, List.zipIdx_append]

section Lookup

variable [DecidableEq κ]

def get? (i : Index κ ν) (key : κ) : Option ν :=
  i.pairs.lookup key

def contains (i : Index κ ν) (key : κ) : Bool :=
  (i.get? key).isSome

@[simp]
theorem get?_empty (key : κ) : ({} : Index κ ν).get? key = none :=
  rfl

theorem get?_insert (i : Index κ ν) (key key' : κ) (value : ν) :
    (i.insert key value).get? key' = if key' = key then some value else i.get? key' := by
  rw [insert, get?, List.lookup_cons, get?]
  by_cases h : key' = key
  · simp [h]
  · simp [h, beq_eq_false_iff_ne.mpr h]

end Lookup

end Index

end TypeDocs
