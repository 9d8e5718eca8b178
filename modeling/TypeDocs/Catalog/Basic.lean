import TypeDocs.Catalog.Member
import TypeDocs.Index

/-!
A catalog: types in order, each under a key. References between types are positions and need not be
good ones; looking up a bad one is a defect of the catalog.
-/

namespace TypeDocs

/-- What is known of a type. Constructed types name their definition and its arguments. -/
structure TypeInfo where
  name : String
  namespaceName : Option String := none
  enclosing : Option TypeId := none
  definition : Option TypeId := none
  arguments : List TypeId := []
  element : Option TypeId := none
  base : Option TypeId := none
  fields : List Field := []
  properties : List Property := []
  methods : List Method := []
  constructors : List Constructor := []
deriving DecidableEq, Repr

/-- An arity is written in decimal, with or without a plus sign, and has 64 bits. -/
def readArity (s : List Char) : Option Nat :=
  let digits : List Char :=
    match s with
    | '+' :: r => r
    | r => r
  let value := digits.foldl (fun n c => n * 10 + (c.toNat - '0'.toNat)) 0
  if digits ≠ [] ∧ digits.all Char.isDigit ∧ value < UInt64.size then some value else none

namespace TypeInfo

/-- An empty namespace is no namespace. -/
def properNamespace (t : TypeInfo) : Option String :=
  t.namespaceName.filter (· ≠ "")

def fullName (t : TypeInfo) : String :=
  match t.properNamespace with
  | some ns => ns ++ "." ++ t.name
  | none => t.name

/-- The number of arguments that a generic name asks for: what follows its first backtick. -/
def arity (t : TypeInfo) : Option Nat :=
  match t.name.toList.dropWhile (· ≠ '\x60') with
  | _ :: digits => readArity digits
  | [] => none

def isArray (t : TypeInfo) : Bool :=
  t.element.isSome

def isByReference (t : TypeInfo) : Bool :=
  t.name.toList.getLast? = some '&'

def isConstructed (t : TypeInfo) : Bool :=
  t.definition.isSome

end TypeInfo

structure Entry where
  key : String
  info : TypeInfo
deriving DecidableEq, Repr

/-- Entries and, for each key, the type that was entered under it last. -/
structure Catalog where
  rootNamespace : Option String := none
  entries : Array Entry := #[]
  bindings : Index String TypeId := .ofKeys TypeId.mk (entries.toList.map Entry.key)
  bindings_eq : bindings = .ofKeys TypeId.mk (entries.toList.map Entry.key) := by rfl
deriving DecidableEq, Repr

/--
Why documentation breaks off: a reference of the catalog leads nowhere, a name contains itself, or a
registry is asked for a descriptor that it has not issued.
-/
inductive Defect where
  | dangling (id : TypeId)
  | endless (id : TypeId)
  | unissued (index : Nat)
deriving DecidableEq, Repr

namespace Catalog

def size (c : Catalog) : Nat :=
  c.entries.size

/-- All types of a catalog, in order. -/
def ids (c : Catalog) : List TypeId :=
  (List.range c.size).map TypeId.mk

def get? (c : Catalog) (id : TypeId) : Option TypeInfo :=
  c.entries[id.index]?.map Entry.info

def key? (c : Catalog) (id : TypeId) : Option String :=
  c.entries[id.index]?.map Entry.key

/-- The last type entered under a key. -/
def find? (c : Catalog) (key : String) : Option TypeId :=
  c.bindings.get? key

def insert (c : Catalog) (key : String) (info : TypeInfo) : Catalog where
  rootNamespace := c.rootNamespace
  entries := c.entries.push ⟨key, info⟩
  bindings := c.bindings.insert key ⟨c.size⟩
  bindings_eq := by simp [c.bindings_eq, size]

/-- Changes what is known of a type and leaves its key. -/
def update (c : Catalog) (id : TypeId) (info : TypeInfo) : Catalog where
  rootNamespace := c.rootNamespace
  entries := c.entries.modify id.index fun e => { e with info }
  bindings := c.bindings
  bindings_eq := by
    have hkeys : (c.entries.toList.modify id.index fun e => { e with info }).map Entry.key =
        c.entries.toList.map Entry.key := by
      apply List.ext_getElem?
      intro i
      by_cases h : id.index = i <;> simp [h, Function.comp_def]
    rw [c.bindings_eq, Array.toList_modify, hkeys]

def lookup (c : Catalog) (id : TypeId) : Except Defect TypeInfo :=
  match c.get? id with
  | some info => .ok info
  | none => .error (.dangling id)

/-- The key of a type, or its position where there is none. -/
def displayName (c : Catalog) (id : TypeId) : String :=
  (c.key? id).getD id.label

theorem length_erase_lt {id : TypeId} {ids : List TypeId} (h : id ∈ ids) :
    (ids.erase id).length < ids.length := by
  have := List.length_pos_of_mem h
  rw [List.length_erase_of_mem h]
  omega

theorem mem_ids {c : Catalog} {id : TypeId} : id ∈ c.ids ↔ id.index < c.size := by
  cases id
  simp [ids]

theorem mem_ids_of_lookup {c : Catalog} {id : TypeId} {info : TypeInfo}
    (h : c.lookup id = .ok info) : id ∈ c.ids := by
  rw [mem_ids, size]
  unfold lookup at h
  split at h
  · rename_i hg
    obtain ⟨e, he, -⟩ := Option.map_eq_some_iff.mp hg
    exact (Array.getElem?_eq_some_iff.mp he).1
  · simp at h

end Catalog

end TypeDocs
