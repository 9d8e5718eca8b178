import TypeDocs.Catalog.Basic

/-!
Qualified names. Namespaces, enclosing types and arguments of a type are run together into one
identifier; the marks before arguments tell how deep they are nested.
-/

namespace TypeDocs

structure NameStyle where
  asArgument : Bool := false
  withNamespace : Bool := true
  withEnclosing : Bool := true
  depth : Nat := 1
deriving DecidableEq, Repr

namespace NameStyle

def separator (s : NameStyle) : Char :=
  if s.asArgument then '*' else '.'

def withoutNamespace : NameStyle :=
  { withNamespace := false }

/-- Enclosing types show their own name and arguments only. -/
def enclosing : NameStyle :=
  { withNamespace := false, withEnclosing := false }

def argument (s : NameStyle) : NameStyle :=
  { asArgument := true, depth := s.depth + 1 }

end NameStyle

def dropBrackets : List Char → List Char
  | '[' :: ']' :: s => dropBrackets s
  | c :: s => c :: dropBrackets s
  | [] => []

/-- A raw name without arity and without the marks of references and arrays. -/
def simpleName (raw : String) : String :=
  String.ofList (dropBrackets ((raw.toList.takeWhile (· ≠ '\x60')).filter (· ≠ '&')))

def separated (separator : Char) (namespaceName : String) : String :=
  String.ofList (namespaceName.toList.map fun c => if c = '.' then separator else c)

namespace Catalog

/--
The types around a type, outermost first, beginning from the one right around it. No type of the
chain may stand outside `room`, and none may occur twice.
-/
def enclosingChain (c : Catalog) (room : List TypeId) : Option TypeId → Except Defect (List TypeId)
  | none => .ok []
  | some id => do
    let info ← c.lookup id
    if id ∈ room then
      let outer ← enclosingChain c (room.erase id) info.enclosing
      return outer ++ [id]
    else .error (.endless id)
termination_by room.length
decreasing_by
  rename_i h
  exact length_erase_lt h

/-- Names in the style asked for; `room` are the types that the name may still go through. -/
def nameWithin (c : Catalog) (room : List TypeId) (style : NameStyle) (id : TypeId) :
    Except Defect String := do
  let info ← c.lookup id
  if _h : id ∈ room then
    let separator := style.separator.toString
    let space :=
      match info.properNamespace with
      | some ns => if style.withNamespace then separated style.separator ns ++ separator else ""
      | none => ""
    let chain ←
      if style.withEnclosing then c.enclosingChain (room.erase id) info.enclosing else pure []
    let outer ← chain.mapM fun e => nameWithin c (room.erase id) .enclosing e
    let arguments ← info.arguments.mapM fun a => nameWithin c (room.erase id) style.argument a
    return space ++ String.join (outer.map (· ++ separator)) ++ simpleName info.name ++
      String.join (arguments.map (("*" ++ toString style.depth) ++ ·))
  else .error (.endless id)
termination_by room.length
decreasing_by
  all_goals exact length_erase_lt _h

def nameIn (c : Catalog) (style : NameStyle) (id : TypeId) : Except Defect String :=
  c.nameWithin c.ids style id

/-- The name that stands for a type in class annotations. -/
def qualifiedName (c : Catalog) (id : TypeId) : Except Defect String :=
  c.nameIn {} id

def localName (c : Catalog) (id : TypeId) : Except Defect String :=
  c.nameIn .withoutNamespace id

end Catalog

end TypeDocs
