/-!
Names of parameters. A name that the scripting language reserves gets a mark in front.
-/

namespace TypeDocs

def keywords : List String :=
  ["and", "break", "do", "else", "elseif", "end", "false", "for", "function", "goto", "if", "in",
   "local", "nil", "not", "or", "repeat", "return", "then", "true", "until", "while"]

def isKeyword (name : String) : Bool :=
  name ∈ keywords

def safeName (mark name : String) : String :=
  if isKeyword name then mark ++ name else name

end TypeDocs
