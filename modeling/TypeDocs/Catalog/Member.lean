/-!
Members that a type declares. Their types are given by position in the catalog.
-/

namespace TypeDocs

/-- A type of a catalog, by position. -/
structure TypeId where
  index : Nat
deriving DecidableEq, Repr, Inhabited

namespace TypeId

/-- Positions have 32 bits. -/
def ofIndex? (index : Nat) : Option TypeId :=
  if index < UInt32.size then some ⟨index⟩ else none

def label (t : TypeId) : String :=
  "#" ++ toString t.index

end TypeId

inductive Visibility where
  | isPublic
  | isPrivate
  | family
  | assembly
  | familyOrAssembly
  | familyAndAssembly
deriving DecidableEq, Repr, Inhabited

/--
Words for a visibility are read in any letter case. Folding ASCII letters is enough: no other
capital has a small form that occurs in these words.
-/
def Visibility.parse? (word : String) : Option Visibility :=
  match String.ofList (word.toList.map Char.toLower) with
  | "public" => some isPublic
  | "private" => some isPrivate
  | "family" | "protected" => some family
  | "assembly" | "internal" => some assembly
  | "familyorassembly" | "protected internal" => some familyOrAssembly
  | "familyandassembly" | "private protected" => some familyAndAssembly
  | _ => none

structure Field where
  name : String
  type : TypeId
  visibility : Visibility := .isPublic
  isStatic : Bool := false
deriving DecidableEq, Repr

structure Accessor where
  visibility : Visibility := .isPublic
  isStatic : Bool := false
  isAbstract : Bool := false
  isVirtual : Bool := false
deriving DecidableEq, Repr

structure Property where
  name : String
  type : TypeId
  getter : Option Accessor := none
  setter : Option Accessor := none
deriving DecidableEq, Repr

structure Parameter where
  name : String
  type : TypeId
  isOptional : Bool := false
  isVariadic : Bool := false
deriving DecidableEq, Repr

/-- A method without a result type returns nothing. -/
structure Method where
  name : String
  result : Option TypeId := none
  parameters : List Parameter := []
  visibility : Visibility := .isPublic
  isStatic : Bool := false
  isAbstract : Bool := false
  isVirtual : Bool := false
  isSpecial : Bool := false
deriving DecidableEq, Repr

structure Constructor where
  parameters : List Parameter := []
  visibility : Visibility := .isPublic
  isStatic : Bool := false
deriving DecidableEq, Repr

namespace Method

def isVoid (m : Method) : Bool :=
  m.result.isNone

def asStatic (m : Method) : Method :=
  { m with isStatic := true }

/-- Abstract methods are virtual. -/
def asAbstract (m : Method) : Method :=
  { m with isAbstract := true, isVirtual := true }

def asVirtual (m : Method) : Method :=
  { m with isVirtual := true }

def asSpecial (m : Method) : Method :=
  { m with isSpecial := true }

end Method

end TypeDocs
