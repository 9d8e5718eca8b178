import TypeDocs.Session

/-!
Folders of documents, and what programs work on otherwise. Documents are numbered in the order in
which they are written.
-/

namespace TypeDocs

/-- Files and folders by their paths, and what has been printed. -/
structure Host where
  files : Index String ByteArray := {}
  folders : List String := []
  output : String := ""

namespace Host

def writeFile (h : Host) (path text : String) : Host :=
  { h with files := h.files.insert path text.toUTF8 }

/-- Nothing happens to a folder that is there. -/
def makeFolder (h : Host) (path : String) : Host :=
  if path ∈ h.folders then h else { h with folders := path :: h.folders }

def print (h : Host) (text : String) : Host :=
  { h with output := h.output ++ text }

end Host

/-- The path of a file in a folder. -/
def join (folderPath name : String) : String :=
  if folderPath.isEmpty || folderPath.toList.getLast? = some '/' then folderPath ++ name
  else folderPath ++ "/" ++ name

/-- A folder that is being written, and the number of the document that comes next. -/
structure Folder where
  path : String
  next : Nat := 0
deriving DecidableEq, Repr

namespace Folder

def fileName (number : Nat) : String :=
  toString number ++ ".lua"

/-- The path of the file of a number. -/
def file (f : Folder) (number : Nat) : String :=
  join f.path (fileName number)

def create (path : String) : StateM Host Folder := do
  modify (·.makeFolder path)
  return { path }

/-- Writes a document under the next number. -/
def write (f : Folder) (d : Document) : StateM Host Folder := do
  modify (·.writeFile (f.file f.next) d.text)
  return { f with next := f.next + 1 }

end Folder

/-- Writes all documents in order; tells how many there are. -/
def Session.writeTo (s : Session) (f : Folder) : StateM Host (Nat × Folder) := do
  let f ← s.documents.toList.foldlM Folder.write f
  return (s.documents.size, f)

end TypeDocs
