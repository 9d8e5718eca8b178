import TypeDocs.Catalog.Basic
import TypeDocs.Catalog.Error

/-!
What a catalog must satisfy before it is documented: chains of single references end, a name never
contains itself, constructed types have as many arguments as their definition asks for, and the
fields and properties of a type have names of their own.
-/

namespace TypeDocs

inductive CycleKind where
  | baseType
  | declaringType
  | elementType
  | typeStructure
deriving DecidableEq, Repr

def CycleKind.label : CycleKind → String
  | baseType => "base type"
  | declaringType => "declaring type"
  | elementType => "element type"
  | typeStructure => "type structure"

inductive ValidationError where
  | typeNotFound (name : String)
  | circular (kind : CycleKind) (path : List String)
  | arity (owner : String) (expected given : Nat)
  | duplicateMember (name owner : String)
deriving DecidableEq, Repr

def ValidationError.message : ValidationError → String
  | typeNotFound name => "type '" ++ name ++ "' not found"
  | circular kind path =>
    "circular " ++ kind.label ++ " reference detected: " ++ " -> ".intercalate path
  | arity owner expected given =>
    "validation error: Generic type '" ++ owner ++ "' expects " ++ toString expected ++
      " arguments, got " ++ toString given
  | duplicateMember name owner =>
    "validation error: Duplicate member '" ++ name ++ "' in type '" ++ owner ++ "'"

/-- The types whose names a type's name is made of. -/
def TypeInfo.nameParts (t : TypeInfo) : List TypeId :=
  t.arguments ++ t.element.toList ++ t.enclosing.toList

def TypeInfo.memberNames (t : TypeInfo) : List String :=
  t.fields.map Field.name ++ t.properties.map Property.name

namespace Catalog

/--
Follows one reference after the other. `unseen` are the types of the catalog that are not yet on the
path, so a type of the catalog that is not among them closes a circle.
-/
def checkChain (c : Catalog) (kind : CycleKind) (next : TypeInfo → Option TypeId)
    (path : List String) (unseen : List TypeId) : Option TypeId → Except ValidationError Unit
  | none => .ok ()
  | some id =>
    match c.get? id with
    | none => .error (.typeNotFound id.label)
    | some info =>
      if id ∈ unseen then
        checkChain c kind next (path ++ [c.displayName id]) (unseen.erase id) (next info)
      else .error (.circular kind (path ++ [c.displayName id]))
termination_by unseen.length
decreasing_by
  rename_i h
  exact length_erase_lt h

/--
Walks depth first over everything that the name of `id` is made of. `stack` leads to it and `unseen`
are the types of the catalog that are not on the stack; `acyclic` grows by the types that turn out
well, which need no second visit.
-/
def checkStructure (c : Catalog) (stack unseen acyclic : List TypeId) (id : TypeId) :
    Except ValidationError (List TypeId) :=
  if id ∈ acyclic then .ok acyclic
  else
    match c.get? id with
    | none => .error (.typeNotFound id.label)
    | some info =>
      if _h : id ∈ unseen then do
        let acyclic ← info.nameParts.foldlM
          (fun acyclic part => checkStructure c (stack ++ [id]) (unseen.erase id) acyclic part)
          acyclic
        return id :: acyclic
      else .error (.circular .typeStructure ((stack ++ [id]).map c.displayName))
termination_by unseen.length
decreasing_by exact length_erase_lt _h

def checkArity (c : Catalog) (t : TypeInfo) : Except ValidationError Unit :=
  match t.definition with
  | none => .ok ()
  | some id =>
    match c.get? id with
    | none => .error (.typeNotFound id.label)
    | some definition =>
      match definition.arity with
      | none => .ok ()
      | some expected =>
        if expected = t.arguments.length then .ok ()
        else .error (.arity t.fullName expected t.arguments.length)

/-- Looks for a name that has occurred before, given the names already `seen`. -/
def checkNames (owner : String) (seen : List String) : List String → Except ValidationError Unit
  | [] => .ok ()
  | name :: names =>
    if name ∈ seen then .error (.duplicateMember name owner)
    else checkNames owner (name :: seen) names

def checkType (c : Catalog) (acyclic : List TypeId) (id : TypeId) :
    Except ValidationError (List TypeId) := do
  c.checkChain .baseType TypeInfo.base [] c.ids (some id)
  c.checkChain .declaringType TypeInfo.enclosing [] c.ids (some id)
  c.checkChain .elementType TypeInfo.element [] c.ids (some id)
  let acyclic ← c.checkStructure [] c.ids acyclic id
  match c.get? id with
  | none => .error (.typeNotFound id.label)
  | some info =>
    c.checkArity info
    checkNames info.fullName [] info.memberNames
    return acyclic

def validate (c : Catalog) : Except ValidationError Unit := do
  let _ ← c.ids.foldlM c.checkType []
  return ()

end Catalog

end TypeDocs
