import TypeDocs.Document.Grouping
import TypeDocs.Document.Overloads

/-!
Bindings of methods and constructors. Scripts may override family methods, so these are bound;
operators and accessors go by other names. A constructor is called through the class itself or
through its member `__new`.
-/

namespace TypeDocs

def Method.isBound (m : Method) : Bool :=
  m.visibility = .family && !m.isSpecial

namespace Document

def constructionMember : String := "__new"

def tagged (kind : String) (modifiers : Modifiers) (lines : List Line) : List Line :=
  .note (modifiers.tags kind) :: lines

def methodGroup (c : Catalog) (settings : Settings) (s : OverloadSet)
    (group : Modifiers × List Method) : Recording (List Line) := do
  return tagged "Method" group.1 (← s.lines c settings (group.2.map .method))

/-- Methods by name and, under each name, by modifiers. -/
def methods (c : Catalog) (settings : Settings) (s : OverloadSet) (ms : List Method) :
    Recording (List Line) := do
  let named := groupBy Method.name (ms.filter Method.isBound)
  let blocks ← named.mapM fun (name, same) =>
    (groupBy Method.modifiers same).mapM (methodGroup c settings (s.member name))
  return blocks.flatten.flatten

def constructorGroup (c : Catalog) (settings : Settings) (s : OverloadSet)
    (group : Modifiers × List Constructor) : Recording (List Line) := do
  let candidates := group.2.map Callable.constructor
  let direct ← s.lines c settings candidates
  let indirect ← (s.member constructionMember).lines c settings candidates
  return tagged "Constructor" group.1 direct ++ tagged "Constructor" group.1 indirect

def constructors (c : Catalog) (settings : Settings) (s : OverloadSet) (ks : List Constructor) :
    Recording (List Line) := do
  return (← (groupBy Constructor.modifiers ks).mapM (constructorGroup c settings s)).flatten

end Document

end TypeDocs
