import TypeDocs.Catalog.Reading
import TypeDocs.Catalog.Validity
import TypeDocs.Session

/-!
From a catalog, or the text of one, to the documents of its roots.
-/

namespace TypeDocs

inductive GenerationError where
  | read (error : ReadError)
  | invalid (error : ValidationError)
  | file (fault : FileFault)
  | unknownRoot (key : String)
  | defective (defect : Defect)
deriving DecidableEq, Repr

def Defect.message : Defect → String
  | dangling id => "type " ++ id.label ++ " is not in the catalog"
  | endless id => "the name of type " ++ id.label ++ " contains itself"
  | unissued index => "no type has been described under " ++ toString index

def GenerationError.message : GenerationError → String
  | read error => "catalog parse error: " ++ error.message
  | invalid error => "catalog error: " ++ error.message
  | file fault => "IO error: " ++ fault.message
  | unknownRoot key => "unknown root type '" ++ key ++ "'"
  | defective defect => "generation error: " ++ defect.message

namespace Catalog

def root (c : Catalog) (key : String) : Except GenerationError TypeId :=
  match c.find? key with
  | some id => .ok id
  | none => .error (.unknownRoot key)

/-- A fresh session with the settings of the catalog. -/
def newSession (c : Catalog) : Session :=
  { settings := .forCatalog c }

/-- Documents roots in order until one is unknown. -/
def documentRoots (c : Catalog) (s : Session) : List String → Except GenerationError Session
  | [] => .ok s
  | key :: keys => do
    let id ← c.root key
    let (_, s) ← ((Documenting.generate c id).run s).mapError .defective
    documentRoots c s keys

/-- One document for each root, in order; roots that come again are passed over. -/
def generate (c : Catalog) (roots : List String) : Except GenerationError (List Document) := do
  let s ← c.documentRoots c.newSession roots
  return s.documents.toList

end Catalog

/-- The documents of the roots of a catalog that is read and validated first. -/
def generateFromText (text : String) (roots : List String) :
    Except GenerationError (List Document) := do
  let c ← (Catalog.parse text).mapError .read
  c.validate.mapError .invalid
  c.generate roots

def generateFromFile (content : Option ByteArray) (roots : List String) :
    Except GenerationError (List Document) := do
  let text ← (textOfFile content).mapError .file
  generateFromText text roots

end TypeDocs
