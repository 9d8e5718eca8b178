import TypeDocs.Catalog.Ancestry

/-!
The part a type plays in an annotation. Nullable wrappers are invisible there: where a shape has
parts, one layer of wrapping is taken off them.
-/

namespace TypeDocs

structure Signature where
  parameters : List TypeId
  result : Option TypeId
deriving DecidableEq, Repr

inductive Shape where
  | plain
  | nullable (payload : TypeId)
  | array (element : TypeId)
  | sequence (element : TypeId)
  | mapping (key value : TypeId)
  | delegate (signature : Signature)
deriving DecidableEq, Repr

def Signature.ofMethod (m : Method) : Signature :=
  ⟨m.parameters.map Parameter.type, m.result⟩

namespace Shape

def isIndexer : Shape → Bool
  | array _ | sequence _ | mapping _ _ => true
  | _ => false

/-- Types of these shapes have documents of their own. -/
def isDocumentable : Shape → Bool
  | plain | delegate _ => true
  | _ => false

/-- The type whose name stands for a type of this shape: what a nullable wrapper holds. -/
def resolve (id : TypeId) : Shape → TypeId
  | nullable payload => payload
  | _ => id

/-- The types that the script name is made of. -/
def parts : Shape → List TypeId
  | plain | delegate _ => []
  | nullable payload => [payload]
  | array element | sequence element => [element]
  | mapping key value => [key, value]

theorem length_parts_le (s : Shape) : s.parts.length ≤ 2 := by
  cases s <;> simp [parts]

/-- Every type that the shape mentions. -/
def mentioned : Shape → List TypeId
  | delegate signature => signature.parameters ++ signature.result.toList
  | shape => shape.parts

end Shape

def nullableDefinition : String := "System.Nullable`1"

/-- Containers of one kind of item. -/
def sequenceDefinitions : List String :=
  ["System.Collections.Generic.IEnumerable`1",
   "System.Collections.Generic.IList`1",
   "System.Collections.Generic.IReadOnlyList`1",
   "System.Collections.Generic.List`1",
   "System.Collections.Generic.HashSet`1",
   "System.Collections.Immutable.IImmutableList`1"]

/-- Containers of values under keys. -/
def mappingDefinitions : List String :=
  ["System.Collections.Generic.IDictionary`2",
   "System.Collections.Generic.IReadOnlyDictionary`2",
   "System.Collections.Generic.Dictionary`2",
   "System.Collections.Immutable.IImmutableDictionary`2"]

namespace Catalog

/-- The type inside a nullable wrapper. -/
def payload? (c : Catalog) (id : TypeId) : Except Defect (Option TypeId) := do
  let info ← c.lookup id
  match info.definition with
  | none => return none
  | some definition =>
    let d ← c.lookup definition
    return if d.fullName = nullableDefinition then info.arguments.head? else none

/-- A type without its outermost nullable wrapper. -/
def unwrap (c : Catalog) (id : TypeId) : Except Defect TypeId := do
  return (← c.payload? id).getD id

/-- The container that a constructed type is, if its definition is a known one. -/
def container? (c : Catalog) (info : TypeInfo) : Except Defect (Option Shape) := do
  match info.definition with
  | none => return none
  | some definition =>
    let d ← c.lookup definition
    if d.fullName ∈ sequenceDefinitions then
      match info.arguments with
      | element :: _ => return some (.sequence (← c.unwrap element))
      | [] => return none
    else if d.fullName ∈ mappingDefinitions then
      match info.arguments with
      | key :: value :: _ => return some (.mapping (← c.unwrap key) (← c.unwrap value))
      | _ => return none
    else return none

/-- The shape of a type: the first rule that applies decides. -/
def shape (c : Catalog) (id : TypeId) : Except Defect Shape := do
  let info ← c.lookup id
  match ← c.payload? id with
  | some payload => return .nullable payload
  | none =>
    match info.element with
    | some element => return .array (← c.unwrap element)
    | none =>
      match ← c.container? info with
      | some shape => return shape
      | none =>
        match ← c.delegateMethod id with
        | some invoke => return .delegate (.ofMethod invoke)
        | none => return .plain

/-- The base of the type whose name stands for `id`. -/
def resolvedBase (c : Catalog) (id : TypeId) : Except Defect (Option TypeId) := do
  return (← c.lookup ((← c.shape id).resolve id)).base

end Catalog

end TypeDocs
