import TypeDocs.Folder
import TypeDocs.Generation

/-!
The command line: a catalog file, a folder for the documents and the keys of the roots. Without
roots, every type that can have a document of its own is one.
-/

namespace TypeDocs.CommandLine

inductive Failure where
  | usage
  | reading (path : String)
  | parsing
  | validating
  | unknownRoot (key : String)
  | defective (defect : Defect)
deriving DecidableEq, Repr

def Failure.message : Failure → String
  | usage => "usage: generate <catalog.xml> <out-dir> [root keys...]"
  | reading path => "reading catalog " ++ path
  | parsing => "parsing catalog"
  | validating => "validating catalog"
  | unknownRoot key => "unknown root type '" ++ key ++ "'"
  | defective defect => defect.message

/-- What a program has done to its host stays done when it fails. -/
abbrev Program := ExceptT Failure (StateM Host)

def sampleCatalog : String :=
  "<typeCatalog rootNamespace=\"Barotrauma\">\n" ++
  "    <type key=\"object\" namespace=\"System\" name=\"Object\"/>\n" ++
  "    <type key=\"int\" namespace=\"System\" name=\"Int32\"/>\n" ++
  "    <type key=\"float\" namespace=\"System\" name=\"Single\"/>\n" ++
  "    <type key=\"string\" namespace=\"System\" name=\"String\"/>\n" ++
  "    <type key=\"list\" namespace=\"System.Collections.Generic\" name=\"List`1\"/>\n" ++
  "    <type key=\"list_string\" namespace=\"System.Collections.Generic\" name=\"List`1\"\n" ++
  "          definition=\"list\" arguments=\"string\"/>\n" ++
  "    <type key=\"Entity\" namespace=\"Barotrauma\" name=\"Entity\" base=\"object\">\n" ++
  "        <field name=\"ID\" type=\"int\"/>\n" ++
  "    </type>\n" ++
  "    <type key=\"Item\" namespace=\"Barotrauma.Items\" name=\"Item\" base=\"Entity\">\n" ++
  "        <field name=\"Condition\" type=\"float\"/>\n" ++
  "        <property name=\"Tags\" type=\"list_string\"><getter/></property>\n" ++
  "        <method name=\"Use\" returns=\"int\" visibility=\"family\" virtual=\"true\">\n" ++
  "            <param name=\"deltaTime\" type=\"float\" optional=\"true\"/>\n" ++
  "        </method>\n" ++
  "        <constructor><param name=\"id\" type=\"int\"/></constructor>\n" ++
  "    </type>\n" ++
  "</typeCatalog>"

def sampleFolder : String := "lua-meta"

/-- Whether a type is a root when no roots are given. -/
def isDefaultRoot (c : Catalog) (id : TypeId) : Except Defect Bool := do
  let info ← c.lookup id
  if info.isByReference then return false else return (← c.shape id).isDocumentable

def defaultRoots (c : Catalog) : Except Defect (List TypeId) :=
  c.ids.filterM (isDefaultRoot c)

def selectRoots (c : Catalog) : List String → Except Failure (List TypeId)
  | [] => (defaultRoots c).mapError .defective
  | keys => keys.mapM fun key =>
    match c.find? key with
    | some id => .ok id
    | none => .error (.unknownRoot key)

/-- The text of a catalog, where its documents go and the keys of their roots. -/
structure Commission where
  text : String
  folderPath : String
  keys : List String

def readText (path : String) : Program String := do
  let content := (← get).files.get? path
  ofExcept ((textOfFile content).mapError fun _ => Failure.reading path)

def commission : List String → Program Commission
  | [] => return ⟨sampleCatalog, sampleFolder, []⟩
  | [_] => throw .usage
  | catalogPath :: folderPath :: keys => do
    let text ← readText catalogPath
    return ⟨text, folderPath, keys⟩

/-- Documents everything that can be reached from the roots of a catalog. -/
def main (arguments : List String) : Program Unit := do
  let ⟨text, folderPath, keys⟩ ← commission arguments
  let c ← ofExcept ((Catalog.parse text).mapError fun _ => Failure.parsing)
  ofExcept (c.validate.mapError fun _ => Failure.validating)
  let roots ← ofExcept (selectRoots c keys)
  let (produced, s) ← ofExcept
    (((Documenting.generateReachable c roots).run c.newSession).mapError Failure.defective)
  let folder ← Folder.create folderPath
  let _ ← s.writeTo folder
  modify (·.print ("Wrote " ++ toString produced ++ " documents to " ++ folderPath ++ " (" ++
    toString s.registry.descriptors.size ++ " descriptors)\n"))

/-- How a run ends and what it leaves behind. -/
structure Outcome where
  exitCode : Nat
  complaint : Option String
  host : Host

def run (host : Host) (arguments : List String) : Outcome :=
  match (main arguments).run.run host with
  | (.ok (), host) => ⟨0, none, host⟩
  | (.error failure, host) => ⟨1, some ("Error: " ++ failure.message), host⟩

end TypeDocs.CommandLine
