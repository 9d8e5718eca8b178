import TypeDocs.Catalog.Element
import TypeDocs.Markup.Event

/-!
From the events of a document to a catalog. Types may refer to each other in any order, so a first
pass gives every type element its position and a second one reads what the elements say.
-/

namespace TypeDocs

open Markup

namespace Reader

/-- What is left of tokens. -/
abbrev Rest (tokens : List Token) := { rest : List Token // rest.length ≤ tokens.length }

namespace Rest

variable {token : Token} {tokens : List Token}

def none : Rest tokens :=
  ⟨[], Nat.zero_le _⟩

def afterFirst : Rest (token :: tokens) :=
  ⟨tokens, Nat.le_succ _⟩

def later (r : Rest tokens) : Rest (token :: tokens) :=
  ⟨r.1, Nat.le_succ_of_le r.2⟩

def within (r : Rest tokens) (s : Rest r.1) : Rest tokens :=
  ⟨s.1, Nat.le_trans s.2 r.2⟩

end Rest

section Events

variable (fault : Option Fault)

/-- Behind the last token a document ends, or its fault comes to light. -/
def atEnd {α : Type} (a : α) : Except ReadError α :=
  match fault with
  | none => .ok a
  | some fault => .error (.markup fault)

/-- The key that an element declares, if it is a type. -/
def declaredKey (parent : Option String) (tag : Tag) : Except ReadError (List String) :=
  if tag.name = "type" then do
    checkParent parent
    let key ← typeKey (← attributes tag)
    return [key]
  else .ok []

/-- Keys of all type elements in document order, inside the elements `opened`, innermost first. -/
def collectKeys (opened : List String) : List Token → Except ReadError (List String)
  | [] => atEnd fault []
  | .opening tag :: tokens => do
    let own ← declaredKey opened.head? tag
    let keys ← collectKeys (tag.name :: opened) tokens
    return own ++ keys
  | .selfClosed tag :: tokens => do
    let own ← declaredKey opened.head? tag
    let keys ← collectKeys opened tokens
    return own ++ keys
  | .closing _ :: tokens => collectKeys opened.tail tokens

/-- Skips to the end of an element, from inside it and `depth` elements more. -/
def skipToEnd (depth : Nat) : (tokens : List Token) → Except ReadError (Rest tokens)
  | [] => atEnd fault .none
  | .opening _ :: tokens => (skipToEnd (depth + 1) tokens).map .later
  | .selfClosed _ :: tokens => (skipToEnd depth tokens).map .later
  | .closing _ :: tokens =>
    match depth with
    | 0 => .ok .afterFirst
    | depth + 1 => (skipToEnd depth tokens).map .later

/-- Visits the children of an element, and goes on behind its end. -/
def forEachChild {α : Type} (visit : α → Tag → Except ReadError α) (a : α) (tokens : List Token) :
    Except ReadError (α × Rest tokens) :=
  match tokens with
  | [] => atEnd fault (a, .none)
  | .opening tag :: tokens => do
    let a ← visit a tag
    let inner ← skipToEnd fault 0 tokens
    let (a, rest) ← forEachChild visit a inner.1
    return (a, (inner.within rest).later)
  | .selfClosed tag :: tokens => do
    let a ← visit a tag
    let (a, rest) ← forEachChild visit a tokens
    return (a, rest.later)
  | .closing _ :: _ => .ok (a, .afterFirst)
termination_by tokens.length
decreasing_by
  · exact Nat.lt_succ_of_le inner.2
  · exact Nat.lt_succ_self _

/-- Getters and setters among the children of a property; the last of each kind counts. -/
def addAccessor (p : Property) (tag : Tag) : Except ReadError Property :=
  match tag.name with
  | "getter" => do return { p with getter := some (← accessor tag.name tag) }
  | "setter" => do return { p with setter := some (← accessor tag.name tag) }
  | _ => .ok p

def readAccessors (p : Property) (tokens : List Token) :
    Except ReadError (Property × Rest tokens) :=
  forEachChild fault addAccessor p tokens

variable (keys : KeyTable)

def addParameter (owner : String) (ps : List Parameter) (tag : Tag) :
    Except ReadError (List Parameter) :=
  if tag.name = "param" then do return ps ++ [← parameter keys owner tag] else .ok ps

def readParameters (owner : String) (tokens : List Token) :
    Except ReadError (List Parameter × Rest tokens) :=
  forEachChild fault (addParameter keys owner) [] tokens

/-- Adds the member, if it is one, whose opening tag stands before the tokens. -/
def startMember (key : String) (t : TypeInfo) (tag : Tag) (tokens : List Token) :
    Except ReadError (TypeInfo × Rest tokens) :=
  match tag.name with
  | "field" => do
    let f ← field keys key tag
    let rest ← skipToEnd fault 0 tokens
    return ({ t with fields := t.fields ++ [f] }, rest)
  | "property" => do
    let p ← propertyHeader keys key tag
    let (p, rest) ← readAccessors fault p tokens
    return ({ t with properties := t.properties ++ [p] }, rest)
  | "method" => do
    let m ← methodHeader keys key tag
    let (ps, rest) ← readParameters fault keys (key ++ "." ++ m.name) tokens
    return ({ t with methods := t.methods ++ [{ m with parameters := ps }] }, rest)
  | "constructor" => do
    let c ← constructorHeader tag
    let (ps, rest) ← readParameters fault keys (key ++ ".ctor") tokens
    return ({ t with constructors := t.constructors ++ [{ c with parameters := ps }] }, rest)
  | "type" => .error (.layout (.typeInside "type"))
  | _ => do
    let rest ← skipToEnd fault 0 tokens
    return (t, rest)

/-- Adds the member, if it is one, whose tag closes itself. -/
def emptyMember (key : String) (t : TypeInfo) (tag : Tag) : Except ReadError TypeInfo :=
  match tag.name with
  | "field" => do return { t with fields := t.fields ++ [← field keys key tag] }
  | "property" => do return { t with properties := t.properties ++ [← propertyHeader keys key tag] }
  | "method" => do return { t with methods := t.methods ++ [← methodHeader keys key tag] }
  | "constructor" => do
    return { t with constructors := t.constructors ++ [← constructorHeader tag] }
  | "type" => .error (.layout (.typeInside "type"))
  | _ => .ok t

/-- Adds the members of the type `key`, and goes on behind its end. -/
def readMembers (key : String) (t : TypeInfo) (tokens : List Token) :
    Except ReadError (TypeInfo × Rest tokens) :=
  match tokens with
  | [] => atEnd fault (t, .none)
  | .opening tag :: tokens => do
    let (t, inner) ← startMember fault keys key t tag tokens
    let (t, rest) ← readMembers key t inner.1
    return (t, (inner.within rest).later)
  | .selfClosed tag :: tokens => do
    let t ← emptyMember keys key t tag
    let (t, rest) ← readMembers key t tokens
    return (t, rest.later)
  | .closing _ :: _ => .ok (t, .afterFirst)
termination_by tokens.length
decreasing_by
  · exact Nat.lt_succ_of_le inner.2
  · exact Nat.lt_succ_self _

/-- The type whose opening tag stands before the tokens. -/
def readType (tag : Tag) (tokens : List Token) : Except ReadError (Entry × Rest tokens) := do
  let e ← typeHeader keys tag
  let (info, rest) ← readMembers fault keys e.key e.info tokens
  return (⟨e.key, info⟩, rest)

/-- The catalog that a type is entered in. -/
def openCatalog : Option Catalog → Except ReadError Catalog
  | some c => .ok c
  | none => .error (.layout .typeOutsideCatalog)

/-- Reads all types. A further catalog element starts over. -/
def readCatalog (catalog : Option Catalog) (tokens : List Token) :
    Except ReadError (Option Catalog) :=
  match tokens with
  | [] => atEnd fault catalog
  | .opening tag :: tokens =>
    match tag.name with
    | "typeCatalog" => do
      let c ← emptyCatalog tag
      readCatalog (some c) tokens
    | "type" => do
      let c ← openCatalog catalog
      let (e, rest) ← readType fault keys tag tokens
      readCatalog (some (c.insert e.key e.info)) rest.1
    | _ => readCatalog catalog tokens
  | .selfClosed tag :: tokens =>
    match tag.name with
    | "typeCatalog" => do
      let c ← emptyCatalog tag
      readCatalog (some c) tokens
    | "type" => do
      let c ← openCatalog catalog
      let e ← typeHeader keys tag
      readCatalog (some (c.insert e.key e.info)) tokens
    | _ => readCatalog catalog tokens
  | .closing _ :: tokens => readCatalog catalog tokens
termination_by tokens.length
decreasing_by
  all_goals first | exact Nat.lt_succ_self _ | exact Nat.lt_succ_of_le rest.2

end Events

end Reader

namespace Catalog

/-- The catalog that a document describes. -/
def parse (text : String) : Except ReadError Catalog := do
  let document := events text
  let keys ← Reader.collectKeys document.fault [] document.tokens
  let table ← KeyTable.assign keys
  match ← Reader.readCatalog document.fault table none document.tokens with
  | none => throw (.layout .noCatalog)
  | some catalog =>
    if catalog.size = keys.length then return catalog
    else throw (.layout (.lostTypes keys.length catalog.size))

end Catalog

/-- The text of a file, if it exists. -/
def textOfFile (content : Option ByteArray) : Except FileFault String :=
  match content with
  | none => .error .missing
  | some bytes =>
    match String.fromUTF8? bytes with
    | some text => .ok text
    | none => .error .notText

def Catalog.parseFile (content : Option ByteArray) : Except ReadError Catalog := do
  let text ← (textOfFile content).mapError ReadError.file
  parse text

end TypeDocs
