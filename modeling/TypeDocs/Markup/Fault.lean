/-!
What can be wrong with the markup of a document, and the words for it.
-/

namespace TypeDocs.Markup

inductive Fault where
  | unknownMarkup
  | openComment
  | openCharacterData
  | openDoctype
  | namelessDoctype
  | openInstruction
  | openDeclaration
  | openTag
  | openValue (quote : Char)
  | openReference
  | unmatchedClosing (name : String)
  | mismatchedClosing (expected found : String)
deriving DecidableEq, Repr

/-- A document that breaks the grammar at one place, as opposed to one whose parts do not fit. -/
def Fault.isSyntax : Fault → Bool
  | namelessDoctype | openReference | unmatchedClosing _ | mismatchedClosing _ _ => false
  | _ => true

def Fault.detail : Fault → String
  | unknownMarkup => "unknown or missed symbol in markup"
  | openComment => "comment not closed: `-->` not found before end of input"
  | openCharacterData => "CDATA not closed: `]]>` not found before end of input"
  | openDoctype => "DOCTYPE not closed: `>` not found before end of input"
  | namelessDoctype =>
    "`<!DOCTYPE>` declaration does not contain a name of a document type"
  | openInstruction => "processing instruction not closed: `?>` not found before end of input"
  | openDeclaration => "XML declaration not closed: `?>` not found before end of input"
  | openTag => "tag not closed: `>` not found before end of input"
  | openValue quote =>
    "attribute value not closed: `" ++ quote.toString ++ "` not found before end of input"
  | openReference =>
    "entity or character reference not closed: `;` not found before end of input"
  | unmatchedClosing name => "close tag `</" ++ name ++ ">` does not match any open tag"
  | mismatchedClosing expected found =>
    "expected `</" ++ expected ++ ">`, but `</" ++ found ++ ">` was found"

def Fault.message (f : Fault) : String :=
  (if f.isSyntax then "syntax error: " else "ill-formed document: ") ++ f.detail

end TypeDocs.Markup
