import TypeDocs.Document.Bindings

/-!
Documents of a session. A session documents a type once, shares what it knows of types between
documents, and can go on to everything that the documents so far have led to.
-/

namespace TypeDocs

structure Document where
  type : TypeId
  className : String
  text : String
deriving DecidableEq, Repr

structure Session where
  settings : Settings := {}
  registry : Registry := {}
  documents : Array Document := #[]
  /-- Where the document of a type stands. -/
  emitted : Index TypeId Nat := {}
  /-- Types whose document is being written. -/
  inProgress : List TypeId := []
deriving DecidableEq, Repr

/-- Work in a session, until it meets a defect of the catalog. -/
abbrev Documenting := StateT Session (Except Defect)

namespace Session

def document? (s : Session) (id : TypeId) : Option Document := do
  let i ← s.emitted.get? id
  s.documents[i]?

def isDocumented (s : Session) (id : TypeId) : Bool :=
  s.emitted.contains id

def enter (s : Session) (id : TypeId) : Session :=
  { s with inProgress := id :: s.inProgress }

def leave (s : Session) (id : TypeId) : Session :=
  { s with inProgress := s.inProgress.erase id }

/-- The document of the type will be the next one. -/
def place (s : Session) (id : TypeId) : Session :=
  { s with emitted := s.emitted.insert id s.documents.size }

def add (s : Session) (d : Document) : Session :=
  { s with documents := s.documents.push d }

end Session

namespace Document

/-- The note that declares the class. The base is that of the type itself, wrapper or not. -/
def classLine (c : Catalog) (className : String) (info : TypeInfo) : Recording Line := do
  match info.base with
  | none => return .note ("@class " ++ className)
  | some base =>
    let baseName ← Recording.qualifiedName c base
    return .note ("@class " ++ className ++ " : " ++ baseName)

/-- Where the bindings live: in the table that is asked for, or else in the default one. -/
def bindingTable (c : Catalog) (settings : Settings) (id : TypeId) :
    Option (List String) → Recording (List String)
  | some path => pure path
  | none => Recording.table c settings.rootNamespace id

/-- The document of a type whose bindings live in `table`, or else in its default table. -/
def compose (c : Catalog) (settings : Settings) (id : TypeId) (table : Option (List String)) :
    Recording Document := do
  let className ← Recording.qualifiedName c id
  let path ← bindingTable c settings id table
  let s : OverloadSet := ⟨className, tableExpression path⟩
  let info ← c.lookup id
  let declaration ← classLine c className info
  let fieldNotes ← fields c settings info.fields
  let propertyNotes ← properties c info.properties
  let methodLines ← methods c settings s info.methods
  let constructorLines ← constructors c settings s info.constructors
  let lines := [.note "@meta", declaration] ++ fieldNotes ++ propertyNotes ++
    [.table s.binding, .blank] ++ methodLines ++ constructorLines
  return ⟨id, className, renderLines lines⟩

end Document

namespace Documenting

def recording {α : Type} (x : Recording α) : Documenting α := fun s => do
  let (a, registry) ← x s.registry
  return (a, { s with registry })

/-- Documents a type unless it is documented already or being documented; tells whether it did. -/
def generateAt (c : Catalog) (table : Option (List String)) (id : TypeId) : Documenting Bool := do
  let s ← get
  if s.isDocumented id then return false
  else if s.inProgress.contains id then return false
  else
    modify (·.enter id)
    let d ← recording (Document.compose c s.settings id table)
    modify (·.leave id)
    modify (·.place id)
    modify (·.add d)
    return true

def generate (c : Catalog) (id : TypeId) : Documenting Bool :=
  generateAt c none id

def generateWithTable (c : Catalog) (id : TypeId) (table : List String) : Documenting Bool :=
  generateAt c (some table) id

/-- Documents a root and links it; counts the documents. -/
def generateRoot (c : Catalog) (id : TypeId) : Documenting Nat := do
  recording (Recording.collect c id)
  return (← generate c id).toNat

/--
Documents the type of a descriptor that has a pair, except that by-reference types and those without
documents of their own are passed by; counts the documents.
-/
def generateDiscovered (c : Catalog) (h : DescriptorId) : Documenting Nat := do
  let d ← recording (Recording.descriptor h)
  if d.shape.isDocumentable then
    let info ← c.lookup d.type
    if info.isByReference then return 0 else return (← generate c d.type).toNat
  else return 0

/--
Documents the types of the pairs from a position on, those included that are found on the way. There
are no more than `limit` of them.
-/
def generateLinked (c : Catalog) : Nat → Nat → Documenting Nat
  | 0, _ => return 0
  | limit + 1, position => do
    match (← get).registry.basePairs[position]? with
    | none => return 0
    | some pair =>
      let produced ← generateDiscovered c pair.derived
      return produced + (← generateLinked c limit (position + 1))

/--
Documents the roots and then everything discovered, in the order of the pairs. There is at most one
pair per type of the catalog.
-/
def generateReachable (c : Catalog) (roots : List TypeId) : Documenting Nat := do
  let first ← roots.mapM (generateRoot c)
  return first.foldr (· + ·) 0 + (← generateLinked c c.size 0)

end Documenting

end TypeDocs
