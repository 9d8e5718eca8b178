import TypeDocs.Markup.Fault
import TypeDocs.Markup.Reference

/-!
Why a text is no catalog.
-/

namespace TypeDocs

inductive FileFault where
  | missing
  | notText
deriving DecidableEq, Repr

/-- How the elements of a document fail to make up a catalog. -/
inductive LayoutFault where
  | typeOutsideCatalog
  | typeInside (parent : String)
  | noCatalog
  | lostTypes (declared read : Nat)
deriving DecidableEq, Repr

inductive ReadError where
  | markup (fault : Markup.Fault)
  | reference (fault : Markup.ReferenceFault)
  | missingAttribute (element name : String)
  | invalidAttribute (element name value : String)
  | unknownType (key referrer : String)
  | duplicate (kind name : String)
  | layout (fault : LayoutFault)
  | file (fault : FileFault)
deriving DecidableEq, Repr

def FileFault.message : FileFault → String
  | missing => "no such file"
  | notText => "stream did not contain valid UTF-8"

def LayoutFault.message : LayoutFault → String
  | typeOutsideCatalog => "type element outside of typeCatalog"
  | typeInside parent => "type element nested inside " ++ parent
  | noCatalog => "No typeCatalog element found"
  | lostTypes declared read =>
    "declared " ++ toString declared ++ " type elements but parsed " ++ toString read

def ReadError.message : ReadError → String
  | markup fault => "XML parsing error: " ++ fault.message
  | reference fault => "XML escape error: " ++ fault.message
  | missingAttribute element name =>
    "missing required attribute '" ++ name ++ "' on element '" ++ element ++ "'"
  | invalidAttribute element name value =>
    "invalid value '" ++ value ++ "' for attribute '" ++ name ++ "' on element '" ++
      element ++ "'"
  | unknownType key referrer => "unknown type '" ++ key ++ "' referenced by '" ++ referrer ++ "'"
  | duplicate kind name => "duplicate " ++ kind ++ " definition: '" ++ name ++ "'"
  | layout fault => "invalid catalog structure: " ++ fault.message
  | file fault => "IO error: " ++ fault.message

end TypeDocs
