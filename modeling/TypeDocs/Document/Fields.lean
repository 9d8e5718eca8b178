import TypeDocs.Document.Line
import TypeDocs.Document.Modifiers
import TypeDocs.Registry
import TypeDocs.Settings

/-!
Notes on fields and properties.
-/

namespace TypeDocs.Document

/-- The script name of a type that a member mentions. The type is linked on the way. -/
def memberType (c : Catalog) (id : TypeId) : Recording String := do
  Recording.collect c id
  Recording.scriptName c id

def fieldLines (c : Catalog) (f : Field) : Recording (List Line) := do
  let type ← memberType c f.type
  return [.note (f.modifiers.tags "Field"), .note ("@field " ++ f.name ++ " " ++ type)]

/-- Fields that only store the value of a property are left out. -/
def fields (c : Catalog) (settings : Settings) (fs : List Field) : Recording (List Line) := do
  let shown := fs.filter fun f => !settings.isBackingField f.name
  return (← shown.mapM (fieldLines c)).flatten

def propertyLines (c : Catalog) (p : Property) : Recording (List Line) := do
  let type ← memberType c p.type
  let getter := p.getter.map fun a => Line.note (a.modifiers.tags "Getter")
  let setter := p.setter.map fun a => Line.note ("<br/>" ++ a.modifiers.tags "Setter")
  return getter.toList ++ setter.toList ++ [.note ("@field " ++ p.name ++ " " ++ type)]

def properties (c : Catalog) (ps : List Property) : Recording (List Line) := do
  return (← ps.mapM (propertyLines c)).flatten

end TypeDocs.Document
