import TypeDocs.Catalog.Basic
import TypeDocs.Catalog.Error
import TypeDocs.Markup.Token

/-!
What the tag of an element says of a type or of one of its members.
-/

namespace TypeDocs

open Markup

/-- The types that keys stand for. -/
abbrev KeyTable := Index String TypeId

namespace KeyTable

/-- A type goes by the position of its key, and no key may occur twice. -/
def assign (keys : List String) : Except ReadError KeyTable :=
  keys.zipIdx.foldlM (fun (table : KeyTable) (key, position) =>
    if table.contains key then .error (.duplicate "type" key)
    else .ok (table.insert key ⟨position⟩)) {}

def resolve (keys : KeyTable) (key referrer : String) : Except ReadError TypeId :=
  match keys.get? key with
  | some id => .ok id
  | none => .error (.unknownType key referrer)

end KeyTable

namespace Reader

def attributes (tag : Tag) : Except ReadError (List Attribute) :=
  tag.attributes.mapError .reference

def value? (name : String) (attributes : List Attribute) : Option String :=
  (attributes.reverse.find? (·.name = name)).map Attribute.value

/-- Types without a key of their own go by their full name. -/
def typeKey (attributes : List Attribute) : Except ReadError String :=
  match value? "key" attributes, value? "name" attributes with
  | some key, _ => .ok key
  | none, none => .error (.missingAttribute "type" "name")
  | none, some name =>
    .ok (TypeInfo.fullName { name, namespaceName := value? "namespace" attributes })

def checkParent : Option String → Except ReadError Unit
  | none => .error (.layout .typeOutsideCatalog)
  | some parent =>
    if parent = "typeCatalog" then .ok () else .error (.layout (.typeInside parent))

def flag (element name value : String) : Except ReadError Bool :=
  match value with
  | "true" | "1" => .ok true
  | "false" | "0" => .ok false
  | _ => .error (.invalidAttribute element name value)

def visibility (element value : String) : Except ReadError Visibility :=
  match Visibility.parse? value with
  | some v => .ok v
  | none => .error (.invalidAttribute element "visibility" value)

def required (element name : String) : Option String → Except ReadError String
  | some value => .ok value
  | none => .error (.missingAttribute element name)

/-- Attributes of a member in the order written: a bad one is found before a missing one. -/
structure MemberDraft where
  name : Option String := none
  type : Option String := none
  visibility : Visibility := .isPublic
  isStatic : Bool := false
  isAbstract : Bool := false
  isVirtual : Bool := false
  isSpecial : Bool := false
  isOptional : Bool := false
  isVariadic : Bool := false

/-- The attributes that an element of each kind may carry; all others are passed over. -/
def knownAttributes : String → List String
  | "field" => ["name", "type", "visibility", "static"]
  | "property" => ["name", "type"]
  | "getter" | "setter" => ["visibility", "static", "abstract", "virtual"]
  | "method" => ["name", "returns", "visibility", "static", "abstract", "virtual", "specialName"]
  | "constructor" => ["visibility", "static"]
  | "param" => ["name", "type", "optional", "variadic"]
  | _ => []

def MemberDraft.add (element : String) (d : MemberDraft) (a : Attribute) :
    Except ReadError MemberDraft :=
  if a.name ∈ knownAttributes element then
    match a.name with
    | "name" => .ok { d with name := some a.value }
    | "type" | "returns" => .ok { d with type := some a.value }
    | "visibility" => do return { d with visibility := ← Reader.visibility element a.value }
    | "static" => do return { d with isStatic := ← flag element a.name a.value }
    | "abstract" => do return { d with isAbstract := ← flag element a.name a.value }
    | "virtual" => do return { d with isVirtual := ← flag element a.name a.value }
    | "specialName" => do return { d with isSpecial := ← flag element a.name a.value }
    | "optional" => do return { d with isOptional := ← flag element a.name a.value }
    | "variadic" => do return { d with isVariadic := ← flag element a.name a.value }
    | _ => .ok d
  else .ok d

def draft (element : String) (tag : Tag) : Except ReadError MemberDraft := do
  (← attributes tag).foldlM (MemberDraft.add element) {}

def field (keys : KeyTable) (owner : String) (tag : Tag) : Except ReadError Field := do
  let d ← draft "field" tag
  let name ← required "field" "name" d.name
  let key ← required "field" "type" d.type
  let type ← keys.resolve key (owner ++ "." ++ name)
  return { name, type, visibility := d.visibility, isStatic := d.isStatic }

def accessor (element : String) (tag : Tag) : Except ReadError Accessor := do
  let d ← draft element tag
  return { visibility := d.visibility, isStatic := d.isStatic, isAbstract := d.isAbstract,
           isVirtual := d.isVirtual }

def propertyHeader (keys : KeyTable) (owner : String) (tag : Tag) : Except ReadError Property := do
  let d ← draft "property" tag
  let name ← required "property" "name" d.name
  let key ← required "property" "type" d.type
  let type ← keys.resolve key (owner ++ "." ++ name)
  return { name, type }

def parameter (keys : KeyTable) (owner : String) (tag : Tag) : Except ReadError Parameter := do
  let d ← draft "param" tag
  let name ← required "param" "name" d.name
  let key ← required "param" "type" d.type
  let type ← keys.resolve key (owner ++ "(" ++ name ++ ")")
  return { name, type, isOptional := d.isOptional, isVariadic := d.isVariadic }

/-- A method's name must not be empty. A result written `void` is no result. -/
def methodHeader (keys : KeyTable) (owner : String) (tag : Tag) : Except ReadError Method := do
  let d ← draft "method" tag
  let name ← required "method" "name" (d.name.filter (· ≠ ""))
  let result ←
    match d.type.filter (· ≠ "void") with
    | none => pure none
    | some key => do
      let type ← keys.resolve key (owner ++ "." ++ name)
      pure (some type)
  return { name, result, visibility := d.visibility, isStatic := d.isStatic,
           isAbstract := d.isAbstract, isVirtual := d.isVirtual, isSpecial := d.isSpecial }

def constructorHeader (tag : Tag) : Except ReadError Constructor := do
  let d ← draft "constructor" tag
  return { visibility := d.visibility, isStatic := d.isStatic }

/-- Keys in a list of arguments stand between commas and spaces. -/
def argumentKeys (value : String) : List String :=
  let parts := value.toList.splitOnP fun c => c == ',' || c == ' '
  (parts.filter (!·.isEmpty)).map String.ofList

def addTypeAttribute (keys : KeyTable) (key : String) (t : TypeInfo) (a : Attribute) :
    Except ReadError TypeInfo :=
  match a.name with
  | "name" => .ok { t with name := a.value }
  | "namespace" => .ok { t with namespaceName := some a.value }
  | "declaring" => do return { t with enclosing := some (← keys.resolve a.value key) }
  | "definition" => do return { t with definition := some (← keys.resolve a.value key) }
  | "arguments" => do
    return { t with arguments := ← (argumentKeys a.value).mapM (keys.resolve · key) }
  | "element" => do return { t with element := some (← keys.resolve a.value key) }
  | "base" => do return { t with base := some (← keys.resolve a.value key) }
  | _ => .ok t

/-- A type without its members. -/
def typeHeader (keys : KeyTable) (tag : Tag) : Except ReadError Entry := do
  let as ← attributes tag
  let key ← typeKey as
  let info ← as.foldlM (addTypeAttribute keys key) { name := "" }
  let _ ← required "type" "name" (value? "name" as)
  return ⟨key, info⟩

def emptyCatalog (tag : Tag) : Except ReadError Catalog := do
  return { rootNamespace := value? "rootNamespace" (← attributes tag) }

end Reader

end TypeDocs
