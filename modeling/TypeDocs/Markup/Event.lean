import TypeDocs.Markup.Token

/-!
Events of a document: its tags up to the first fault. A closing tag must fit the element that is
open where it stands; elements that are open at the end of the text are no fault.
-/

namespace TypeDocs.Markup

/-- Tokens whose closing tags fit, up to the first that does not. -/
structure Nesting where
  tokens : List Token
  unclosed : List String
  fault : Option Fault

/-- Follows tokens inside the elements `opened`, innermost first. -/
def nest (opened : List String) : List Token → Nesting
  | [] => ⟨[], opened, none⟩
  | token :: tokens =>
    match token with
    | .opening tag =>
      let n := nest (tag.name :: opened) tokens
      { n with tokens := token :: n.tokens }
    | .selfClosed _ =>
      let n := nest opened tokens
      { n with tokens := token :: n.tokens }
    | .closing name =>
      match opened with
      | [] => ⟨[], [], some (.unmatchedClosing name)⟩
      | expected :: outer =>
        if name = expected then
          let n := nest outer tokens
          { n with tokens := token :: n.tokens }
        else ⟨[], opened, some (.mismatchedClosing expected name)⟩

/-- One byte order mark may stand before the text. -/
def withoutMark : List Char → List Char
  | '\uFEFF' :: s => s
  | s => s

structure Events where
  tokens : List Token
  fault : Option Fault

def events (text : String) : Events :=
  let (tokens, fault) := scan (withoutMark text.toList)
  let n := nest [] tokens
  ⟨n.tokens, n.fault.or fault⟩

end TypeDocs.Markup
