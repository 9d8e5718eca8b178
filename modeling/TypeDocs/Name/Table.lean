/-!
Where the bindings of a type live: a path of tables below the global one.
-/

namespace TypeDocs

/-- The parts of a dotted name. -/
def segments (dotted : String) : List String :=
  (dotted.toList.splitOn '.').map String.ofList

/--
Types of the root namespace are found by their local name alone, all others below the tables of
their namespace.
-/
def tablePath (namespaceName : Option String) (localName root : String) : List String :=
  let outer :=
    match namespaceName.filter (· ≠ "") with
    | none => []
    | some ns => if (segments ns).head? = some root then [] else segments ns
  outer ++ segments localName

/-- A path as an expression that indexes the global table. -/
def tableExpression (path : List String) : String :=
  "_G" ++ String.join (path.map fun segment => "['" ++ segment ++ "']")

end TypeDocs
