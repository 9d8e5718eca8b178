import TypeDocs.Proofs.Layout
import TypeDocs.Proofs.Regular
import TypeDocs.Proofs.Tracing

namespace TypeDocs

open Markup

namespace Markup.Forest

/-- Elements side by side, each with what is inside it. -/
def ofList (es : List (Tag × Forest)) : Forest :=
  es.foldr (fun e after => .node e.1 e.2 after) .nil

theorem ofList_cons (e : Tag × Forest) (es : List (Tag × Forest)) :
    ofList (e :: es) = .node e.1 e.2 (ofList es) :=
  rfl

theorem elements_ofList (es : List (Tag × Forest)) :
    (ofList es).elements = es.flatMap fun e => e :: e.2.elements := by
  induction es with
  | nil => rfl
  | cons e es ih =>
    rw [ofList_cons, elements, ih]
    rfl

end Markup.Forest

def Visibility.word : Visibility → String
  | isPublic => "public"
  | isPrivate => "private"
  | family => "family"
  | assembly => "assembly"
  | familyOrAssembly => "familyOrAssembly"
  | familyAndAssembly => "familyAndAssembly"

def flagWord (b : Bool) : String :=
  if b then "true" else "false"

namespace Catalog

variable (c : Catalog)

def fieldElement (f : Field) : Tag × Forest :=
  (element "field" [("name", some f.name), ("type", some (c.displayName f.type)),
    ("visibility", some f.visibility.word), ("static", some (flagWord f.isStatic))], .nil)

/-- Getters and setters are written alike. -/
def accessorElement (kind : String) (a : Accessor) : Tag × Forest :=
  (element kind [("visibility", some a.visibility.word), ("static", some (flagWord a.isStatic)),
    ("abstract", some (flagWord a.isAbstract)), ("virtual", some (flagWord a.isVirtual))], .nil)

def propertyElement (p : Property) : Tag × Forest :=
  (element "property" [("name", some p.name), ("type", some (c.displayName p.type))],
    .ofList ((p.getter.map (accessorElement "getter")).toList ++
      (p.setter.map (accessorElement "setter")).toList))

def parameterElement (p : Parameter) : Tag × Forest :=
  (element "param" [("name", some p.name), ("type", some (c.displayName p.type)),
    ("optional", some (flagWord p.isOptional)), ("variadic", some (flagWord p.isVariadic))], .nil)

/-- A method that returns nothing says nothing of what it returns. -/
def methodElement (m : Method) : Tag × Forest :=
  (element "method" [("name", some m.name), ("returns", m.result.map c.displayName),
    ("visibility", some m.visibility.word), ("static", some (flagWord m.isStatic)),
    ("abstract", some (flagWord m.isAbstract)), ("virtual", some (flagWord m.isVirtual)),
    ("specialName", some (flagWord m.isSpecial))],
    .ofList (m.parameters.map c.parameterElement))

def constructorElement (k : Constructor) : Tag × Forest :=
  (element "constructor" [("visibility", some k.visibility.word),
    ("static", some (flagWord k.isStatic))], .ofList (k.parameters.map c.parameterElement))

def memberElements (t : TypeInfo) : List (Tag × Forest) :=
  t.fields.map c.fieldElement ++ (t.properties.map c.propertyElement ++
    (t.methods.map c.methodElement ++ t.constructors.map c.constructorElement))

/-- The keys of arguments with commas between them. -/
def argumentList (ids : List TypeId) : Option String :=
  if ids = [] then none else some (",".intercalate (ids.map c.displayName))

def typeAttributes (e : Entry) : List (String × Option String) :=
  [("key", some e.key), ("namespace", e.info.namespaceName), ("name", some e.info.name),
    ("definition", e.info.definition.map c.displayName),
    ("arguments", c.argumentList e.info.arguments),
    ("element", e.info.element.map c.displayName), ("base", e.info.base.map c.displayName),
    ("declaring", e.info.enclosing.map c.displayName)]

def typeElement (e : Entry) : Tag × Forest :=
  (element "type" (c.typeAttributes e), .ofList (c.memberElements e.info))

def rootTag : Tag :=
  element "typeCatalog" [("rootNamespace", c.rootNamespace)]

def outline : Forest :=
  .node c.rootTag (.ofList (c.entries.toList.map c.typeElement)) .nil

/-- The catalog as a document. -/
def write : String :=
  String.ofList (c.outline.write 0)

example : write { rootNamespace := some "R&D", entries := #[
      ⟨"o", { name := "Object" }⟩, ⟨"<b>", { name := "Box", base := some ⟨0⟩ }⟩] } =
    "<typeCatalog rootNamespace=\"R&amp;D\">\n  <type key=\"o\" name=\"Object\"/>\n" ++
      "  <type key=\"&lt;b&gt;\" name=\"Box\" base=\"o\"/>\n</typeCatalog>\n" := by
  decide +kernel

section Plain

/-- Below a type there are plain tags, none of them of a type. -/
def AreInner (f : Forest) : Prop :=
  ∀ e ∈ f.elements, e.1.IsPlain ∧ e.1.name ≠ "type"

theorem areInner_nil : AreInner .nil := by
  simp [AreInner, Forest.elements]

theorem areInner_ofList {es : List (Tag × Forest)}
    (h : ∀ e ∈ es, (e.1.IsPlain ∧ e.1.name ≠ "type") ∧ AreInner e.2) :
    AreInner (.ofList es) := by
  intro e he
  rw [Forest.elements_ofList, List.mem_flatMap] at he
  obtain ⟨e', he', hmem⟩ := he
  rcases List.mem_cons.mp hmem with rfl | hmem
  · exact (h e he').1
  · exact (h e' he').2 e hmem

/-- The attributes that are read are names. -/
theorem areNames_knownAttributes (kind : String) : AreNames (Reader.knownAttributes kind) := by
  unfold Reader.knownAttributes
  split <;> decide

/-- Members and their parts have the attributes that are read of their kind. -/
theorem isPlain_element {kind : String} {l : List (String × Option String)} (hkind : IsWord kind)
    (hne : kind ≠ "type") (hl : l.map Prod.fst = Reader.knownAttributes kind) :
    (element kind l).IsPlain ∧ (element kind l).name ≠ "type" :=
  ⟨⟨kind, l, hkind, hl ▸ areNames_knownAttributes kind, rfl⟩, hne⟩

theorem areInner_parameters (ps : List Parameter) :
    AreInner (.ofList (ps.map c.parameterElement)) := by
  apply areInner_ofList
  rw [List.forall_mem_map]
  exact fun p _ => ⟨isPlain_element (by decide) (by decide) rfl, areInner_nil⟩

theorem areInner_accessors (p : Property) : AreInner (c.propertyElement p).2 := by
  apply areInner_ofList
  rw [List.forall_mem_append]
  simp only [Option.mem_toList, Option.map_eq_some_iff]
  constructor
  · rintro _ ⟨a, -, rfl⟩
    exact ⟨isPlain_element (by decide) (by decide) rfl, areInner_nil⟩
  · rintro _ ⟨a, -, rfl⟩
    exact ⟨isPlain_element (by decide) (by decide) rfl, areInner_nil⟩

theorem areInner_members (t : TypeInfo) : AreInner (.ofList (c.memberElements t)) := by
  apply areInner_ofList
  simp only [memberElements, List.forall_mem_append, List.forall_mem_map]
  refine ⟨fun f _ => ⟨?_, areInner_nil⟩, fun p _ => ⟨?_, c.areInner_accessors p⟩,
    fun m _ => ⟨?_, c.areInner_parameters m.parameters⟩,
    fun k _ => ⟨?_, c.areInner_parameters k.parameters⟩⟩
  all_goals exact isPlain_element (by decide) (by decide) rfl

theorem areNames_typeAttributes (e : Entry) : AreNames ((c.typeAttributes e).map Prod.fst) := by
  change AreNames ["key", "namespace", "name", "definition", "arguments", "element", "base",
    "declaring"]
  decide

theorem areNames_rootTag :
    AreNames ([("rootNamespace", c.rootNamespace)].map Prod.fst) := by
  change AreNames ["rootNamespace"]
  decide

/-- The whole document is written in plain tags. -/
theorem isPlain_outline : c.outline.IsPlain := by
  have htypes : (Forest.ofList (c.entries.toList.map c.typeElement)).IsPlain := by
    intro e he
    rw [Forest.elements_ofList, List.mem_flatMap] at he
    obtain ⟨e', he', hmem⟩ := he
    obtain ⟨entry, -, rfl⟩ := List.mem_map.mp he'
    rcases List.mem_cons.mp hmem with rfl | hmem
    · exact ⟨"type", _, by decide, c.areNames_typeAttributes entry, rfl⟩
    · exact (c.areInner_members entry.info e hmem).1
  have hroot : c.rootTag.IsPlain := ⟨"typeCatalog", _, by decide, c.areNames_rootTag, rfl⟩
  exact Forest.isPlain_node.mpr ⟨hroot, htypes, by simp [Forest.IsPlain, Forest.elements]⟩

/-- The document is read as the elements that were written. -/
theorem read_write : read c.write = ⟨c.outline, [], none⟩ :=
  Markup.read_write c.isPlain_outline

end Plain

end Catalog

end TypeDocs
