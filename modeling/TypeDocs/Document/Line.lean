/-!
Lines of an annotation document. Everything that is told about a type stands in notes, which the
scripting language takes for comments; the rest only binds names.
-/

namespace TypeDocs

inductive Line where
  | note (text : String)
  | table (binding : String)
  | function (binding : String) (parameters : List String)
  | blank
deriving DecidableEq, Repr

def Line.render : Line → String
  | note text => "---" ++ text ++ "\n"
  | table binding => binding ++ " = \x7b\x7d\n"
  | function binding parameters =>
    binding ++ " = function(" ++ ", ".intercalate parameters ++ ") end\n"
  | blank => "\n"

def renderLines (lines : List Line) : String :=
  String.join (lines.map Line.render)

end TypeDocs
