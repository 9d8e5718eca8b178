import TypeDocs.Document.Fields
import TypeDocs.Name.Identifier

/-!
Overload sets: several ways to call one binding. All but the last are told in notes; the last one
alone has its parameters written out and names those of the binding.
-/

namespace TypeDocs

inductive Callable where
  | method (m : Method)
  | constructor (k : Constructor)
deriving DecidableEq, Repr

namespace Callable

def parameters : Callable → List Parameter
  | method m => m.parameters
  | constructor k => k.parameters

def modifiers : Callable → Modifiers
  | method m => m.modifiers
  | constructor k => k.modifiers

end Callable

/-- What calls go to, and the class that constructors return. -/
structure OverloadSet where
  className : String
  binding : String
deriving DecidableEq, Repr

namespace OverloadSet

def member (s : OverloadSet) (name : String) : OverloadSet :=
  { s with binding := s.binding ++ "." ++ name }

/-- The type of a single item, given the type of all variadic items together. -/
def itemType (type : String) : String :=
  if "[]".toList.isSuffixOf type.toList then String.ofList (type.toList.dropLast.dropLast) else type

def notedName (settings : Settings) (p : Parameter) : String :=
  safeName settings.reservedMark p.name ++ if p.isOptional then "?" else ""

def resultType (c : Catalog) (s : OverloadSet) : Callable → Recording (Option String)
  | .method m =>
    match m.result with
    | some id => some <$> Document.memberType c id
    | none => return none
  | .constructor _ => return some s.className

def overloadParameter (c : Catalog) (settings : Settings) (p : Parameter) : Recording String := do
  let type ← Document.memberType c p.type
  return if p.isVariadic then "...:" ++ itemType type else notedName settings p ++ ":" ++ type

def overloadLine (c : Catalog) (settings : Settings) (s : OverloadSet) (x : Callable) :
    Recording Line := do
  let parameters ← x.parameters.mapM (overloadParameter c settings)
  let result ← s.resultType c x
  let tail := match result with
    | some type => ":" ++ type
    | none => ""
  return .note ("@overload fun(" ++ ", ".intercalate parameters ++ ")" ++ tail)

def parameterLine (c : Catalog) (settings : Settings) (p : Parameter) : Recording Line := do
  let type ← Document.memberType c p.type
  let name := if p.isVariadic then "..." else notedName settings p
  return .note ("@param " ++ name ++ " " ++ type)

def bindingLines (c : Catalog) (settings : Settings) (s : OverloadSet) (x : Callable) :
    Recording (List Line) := do
  let parameters ← x.parameters.mapM (parameterLine c settings)
  let result ← s.resultType c x
  let names := x.parameters.map fun p => safeName settings.reservedMark p.name
  return parameters ++ (result.map fun type => Line.note ("@return " ++ type)).toList ++
    [.function s.binding names, .blank]

/-- A set without members has no lines. -/
def lines (c : Catalog) (settings : Settings) (s : OverloadSet) (xs : List Callable) :
    Recording (List Line) := do
  match xs.getLast? with
  | none => return []
  | some last =>
    let overloads ← xs.dropLast.mapM (s.overloadLine c settings)
    return overloads ++ (← s.bindingLines c settings last)

end OverloadSet

end TypeDocs
