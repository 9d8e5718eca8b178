import TypeDocs.Catalog.Basic

/-!
Base types above a type. Catalogs may hold circles of base types, so a walk up the chain stops where
it began and after a fixed number of steps.
-/

namespace TypeDocs.Catalog

/-- Base types looked at before a chain counts as endless. -/
def ancestryLimit : Nat := 4097

/-- Whether one of the next `limit` types of the chain above `start` has the full name `name`. -/
def derivesWithin (c : Catalog) (start : TypeId) (name : String) :
    Nat → Option TypeId → Except Defect Bool
  | 0, _ => .ok false
  | _ + 1, none => .ok false
  | limit + 1, some ancestor => do
    let info ← c.lookup ancestor
    if info.fullName = name then return true
    else if ancestor = start then return false
    else derivesWithin c start name limit info.base

/-- Whether a type other than `id` above it has the full name `name`. -/
def derivesFrom (c : Catalog) (id : TypeId) (name : String) : Except Defect Bool := do
  let info ← c.lookup id
  c.derivesWithin id name ancestryLimit info.base

/-- The first method of that name that the type declares itself. -/
def findMethod (c : Catalog) (id : TypeId) (name : String) : Except Defect (Option Method) := do
  let info ← c.lookup id
  return info.methods.find? (·.name = name)

def delegateName : String := "System.Delegate"

def invokeName : String := "Invoke"

/-- The method that stands for a delegate's signature. -/
def delegateMethod (c : Catalog) (id : TypeId) : Except Defect (Option Method) := do
  if ← c.derivesFrom id delegateName then c.findMethod id invokeName else return none

end TypeDocs.Catalog
