import TypeDocs.Catalog.Basic

/-!
Settings of a documentation run.
-/

namespace TypeDocs

structure Settings where
  /-- Types of this namespace live right below the global table. -/
  rootNamespace : String := "Barotrauma"
  /-- Stands in front of parameter names that are keywords. -/
  reservedMark : String := "luaKey__"
  /-- Fields whose name holds this text store the value of a property. -/
  backingMarker : String := ">k__BackingField"
deriving DecidableEq, Repr

/-- Whether `part` stands somewhere in `s`. -/
def occursIn (part : List Char) : List Char → Bool
  | [] => part.isEmpty
  | c :: s => part.isPrefixOf (c :: s) || occursIn part s

namespace Settings

def isBackingField (settings : Settings) (name : String) : Bool :=
  occursIn settings.backingMarker.toList name.toList

/-- A catalog may name its own root namespace. -/
def forCatalog (c : Catalog) : Settings :=
  match c.rootNamespace with
  | some root => { rootNamespace := root }
  | none => {}

end Settings

end TypeDocs
