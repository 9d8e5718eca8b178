import TypeDocs.Catalog.Member

/-!
Modifiers of a member, as far as annotations tell them. Members with the same modifiers are
documented together.
-/

namespace TypeDocs

structure Modifiers where
  isPublic : Bool
  isPrivate : Bool
  isStatic : Bool
  isAbstract : Bool
  isVirtual : Bool
deriving DecidableEq, Repr

namespace Modifiers

def ofParts (visibility : Visibility) (isStatic isAbstract isVirtual : Bool) : Modifiers :=
  ⟨visibility = .isPublic, visibility = .isPrivate, isStatic, isAbstract, isVirtual⟩

/-- One bit per modifier, in the order in which they are declared. -/
def bits (m : Modifiers) : Nat :=
  m.isPublic.toNat + 2 * m.isPrivate.toNat + 4 * m.isStatic.toNat + 8 * m.isAbstract.toNat +
    16 * m.isVirtual.toNat

def ofBits? (bits : Nat) : Option Modifiers :=
  if bits < 32 then
    some ⟨bits.testBit 0, bits.testBit 1, bits.testBit 2, bits.testBit 3, bits.testBit 4⟩
  else none

def visibilityTag (m : Modifiers) : String :=
  if m.isPublic then "Public" else if m.isPrivate then "Private" else "NonPublic"

def storageTag (m : Modifiers) : String :=
  if m.isStatic then "Static" else "Instance"

/-- The tags of a member of some kind, set off by backticks. -/
def tags (m : Modifiers) (kind : String) : String :=
  "`" ++ kind ++ " " ++ m.visibilityTag ++ " " ++ m.storageTag ++
    (if m.isAbstract then " Abstract" else "") ++ (if m.isVirtual then " Virtual" else "") ++ "`"

end Modifiers

def Field.modifiers (f : Field) : Modifiers :=
  .ofParts f.visibility f.isStatic false false

def Accessor.modifiers (a : Accessor) : Modifiers :=
  .ofParts a.visibility a.isStatic a.isAbstract a.isVirtual

def Method.modifiers (m : Method) : Modifiers :=
  .ofParts m.visibility m.isStatic m.isAbstract m.isVirtual

def Constructor.modifiers (k : Constructor) : Modifiers :=
  .ofParts k.visibility k.isStatic false false

end TypeDocs
