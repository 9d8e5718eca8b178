import TypeDocs.Document.Bindings
import TypeDocs.Proofs.Grouping
import TypeDocs.Proofs.Regular

namespace TypeDocs

/-- The types that the document of a type mentions. -/
def TypeInfo.shownTypes (settings : Settings) (t : TypeInfo) : List TypeId :=
  (t.fields.filter fun f => !settings.isBackingField f.name).map Field.type ++
    t.properties.map Property.type ++ (t.methods.filter Method.isBound).flatMap Method.types ++
    t.constructors.flatMap Constructor.types

/-- Backing fields and methods that are not bound are what is not shown. -/
theorem TypeInfo.mem_references_of_shown {settings : Settings} {t : TypeInfo} {id : TypeId}
    (h : id ∈ t.shownTypes settings) : id ∈ t.references := by
  simp only [shownTypes, List.mem_append, List.mem_map, List.mem_flatMap, List.mem_filter] at h
  simp only [references, List.mem_append, List.mem_map, List.mem_flatMap]
  rcases h with ((⟨f, ⟨hf, -⟩, rfl⟩ | ⟨p, hp, rfl⟩) | ⟨m, ⟨hm, -⟩, ht⟩) | ⟨k, hk, ht⟩
  · exact .inl (.inl (.inl (.inr ⟨f, hf, rfl⟩)))
  · exact .inl (.inl (.inr ⟨p, hp, rfl⟩))
  · exact .inl (.inr ⟨m, hm, ht⟩)
  · exact .inr ⟨k, hk, ht⟩

namespace Callable

def results : Callable → List TypeId
  | method m => m.result.toList
  | constructor _ => []

def types (x : Callable) : List TypeId :=
  x.parameters.map Parameter.type ++ x.results

@[simp]
theorem types_method (m : Method) : (method m).types = m.types :=
  rfl

@[simp]
theorem types_constructor (k : Constructor) : (constructor k).types = k.types :=
  List.append_nil _

end Callable

namespace OverloadSet

section Rendering

variable (settings : Settings) (s : OverloadSet) (type : TypeId → String)

/-- What is returned, and by which name. -/
def resultName : Callable → Option String
  | .method m => m.result.map type
  | .constructor _ => some s.className

/-- A parameter in the note of an overload. -/
def parameterText (p : Parameter) : String :=
  if p.isVariadic then "...:" ++ itemType (type p.type)
  else notedName settings p ++ ":" ++ type p.type

def overloadNote (x : Callable) : Line :=
  let parameters := x.parameters.map (parameterText settings type)
  let tail := match s.resultName type x with
    | some name => ":" ++ name
    | none => ""
  .note ("@overload fun(" ++ ", ".intercalate parameters ++ ")" ++ tail)

def parameterNote (p : Parameter) : Line :=
  .note ("@param " ++ (if p.isVariadic then "..." else notedName settings p) ++ " " ++ type p.type)

/-- Parameters and result in notes, and then the binding with the names of the parameters. -/
def bindingSection (x : Callable) : List Line :=
  x.parameters.map (parameterNote settings type) ++
    ((s.resultName type x).map fun name => Line.note ("@return " ++ name)).toList ++
    [.function s.binding (x.parameters.map fun p => safeName settings.reservedMark p.name), .blank]

/-- All but the last in a note each, the last one bound. -/
def written (xs : List Callable) : List Line :=
  xs.dropLast.map (s.overloadNote settings type) ++
    (xs.getLast?.map (s.bindingSection settings type)).getD []

end Rendering

variable {settings : Settings} {s : OverloadSet} {type : TypeId → String}

@[simp]
theorem written_concat (init : List Callable) (last : Callable) :
    s.written settings type (init ++ [last]) =
      init.map (s.overloadNote settings type) ++ s.bindingSection settings type last := by
  simp [written]

end OverloadSet

namespace Document

section Rendering

variable (settings : Settings) (s : OverloadSet) (type : TypeId → String)

def fieldNotes (f : Field) : List Line :=
  [.note (f.modifiers.tags "Field"), .note ("@field " ++ f.name ++ " " ++ type f.type)]

def propertyNotes (p : Property) : List Line :=
  (p.getter.map fun a => Line.note (a.modifiers.tags "Getter")).toList ++
    (p.setter.map fun a => Line.note ("<br/>" ++ a.modifiers.tags "Setter")).toList ++
    [.note ("@field " ++ p.name ++ " " ++ type p.type)]

/-- What methods are documented by: their names, and among those of one name their modifiers. -/
def blockKey (m : Method) : String × Modifiers :=
  (m.name, m.modifiers)

/-- The keys of methods: names as they come up, and under each of them modifiers as they come up. -/
def blockKeys (ms : List Method) : List (String × Modifiers) :=
  (ms.map Method.name).eraseDups.flatMap fun name =>
    ((ms.filter (·.name = name)).map Method.modifiers).eraseDups.map (name, ·)

/-- The block of a key: a tag, and then the methods of that key as one overload set. -/
def block (ms : List Method) (key : String × Modifiers) : List Line :=
  tagged "Method" key.2
    ((s.member key.1).written settings type ((ms.filter (blockKey · = key)).map .method))

/-- The constructors of the same modifiers, in the order in which they are declared. -/
def sameConstructors (ks : List Constructor) (key : Modifiers) : List Callable :=
  (ks.filter (·.modifiers = key)).map .constructor

/-- One way to write them: a tag, and then all of them as one overload set. -/
def spelling (ks : List Constructor) (key : Modifiers) : List Line :=
  tagged "Constructor" key (s.written settings type (sameConstructors ks key))

/-- Both ways to write them, for the class and for its member for construction. -/
def spelledTwice (ks : List Constructor) (key : Modifiers) : List Line :=
  spelling settings s type ks key ++ spelling settings (s.member constructionMember) type ks key

/-- The notes on fields and properties, the table, the methods and the constructors of a type. -/
def memberLines (info : TypeInfo) : List Line :=
  let shown := info.fields.filter fun f => !settings.isBackingField f.name
  let bound := info.methods.filter Method.isBound
  shown.flatMap (fieldNotes type) ++ info.properties.flatMap (propertyNotes type) ++
    [.table s.binding, .blank] ++ (blockKeys bound).flatMap (block settings s type bound) ++
    (info.constructors.map Constructor.modifiers).eraseDups.flatMap
      (spelledTwice settings s type info.constructors)

end Rendering

section Blocks

variable {settings : Settings} {s : OverloadSet} {type : TypeId → String} {ms : List Method}

theorem mem_blockKeys {key : String × Modifiers} :
    key ∈ blockKeys ms ↔ ∃ m ∈ ms, blockKey m = key := by
  obtain ⟨name, modifiers⟩ := key
  simp only [blockKeys, List.mem_flatMap, List.mem_eraseDups, List.mem_map, List.mem_filter,
    decide_eq_true_eq, Prod.mk.injEq, blockKey]
  constructor
  · rintro ⟨_, -, _, ⟨m, ⟨hm, rfl⟩, rfl⟩, rfl, rfl⟩
    exact ⟨m, hm, rfl, rfl⟩
  · rintro ⟨m, hm, rfl, rfl⟩
    exact ⟨m.name, ⟨m, hm, rfl⟩, m.modifiers, ⟨m, ⟨hm, rfl⟩, rfl⟩, rfl, rfl⟩

theorem nodup_blockKeys (ms : List Method) : (blockKeys ms).Nodup := by
  rw [blockKeys, List.nodup_flatMap]
  constructor
  · intro name _
    exact (nodup_eraseDups _).map fun a b h => (Prod.mk.inj h).2
  · refine (nodup_eraseDups _).imp fun {a b} hab => ?_
    rw [Function.onFun_apply, List.disjoint_left]
    rintro _ ha hb
    obtain ⟨_, -, rfl⟩ := List.mem_map.mp ha
    obtain ⟨_, -, h⟩ := List.mem_map.mp hb
    exact hab (Prod.mk.inj h).1.symm

/-- Grouping by name and then by modifiers gives the blocks of the keys. -/
theorem groups_flatten (block : String → Modifiers × List Method → List Line) :
    ((groupBy Method.name ms).map fun named =>
      (groupBy Method.modifiers named.2).map (block named.1)).flatten.flatten =
      (blockKeys ms).flatMap fun key => block key.1 (key.2, ms.filter (blockKey · = key)) := by
  have hfilter (name : String) (modifiers : Modifiers) :
      (ms.filter (·.name = name)).filter (·.modifiers = modifiers) =
        ms.filter (blockKey · = (name, modifiers)) := by
    rw [List.filter_filter]
    refine List.filter_congr fun m _ => ?_
    simp [blockKey, Bool.and_comm]
  rw [blockKeys, List.flatMap_assoc, List.flatten_flatten, groupBy_eq]
  simp only [groupBy_eq, List.map_map, Function.comp_def, hfilter, List.flatMap_map,
    ← List.flatMap_def]

/-- The methods of a block, the last of them set apart. -/
theorem exists_block {key : String × Modifiers} (hkey : key ∈ blockKeys ms) :
    ∃ init last, ms.filter (blockKey · = key) = init ++ [last] ∧
      block settings s type ms key = .note (key.2.tags "Method") ::
        (init.map (fun m => (s.member key.1).overloadNote settings type (.method m)) ++
          (s.member key.1).bindingSection settings type (.method last)) := by
  obtain ⟨m, hm, rfl⟩ := mem_blockKeys.mp hkey
  have hne : ms.filter (blockKey · = blockKey m) ≠ [] :=
    List.ne_nil_of_mem (List.mem_filter.mpr ⟨hm, by simp⟩)
  obtain ⟨init, last, hlast⟩ := (List.eq_nil_or_concat' _).resolve_left hne
  refine ⟨init, last, hlast, ?_⟩
  rw [block, hlast, List.map_append, List.map_singleton, OverloadSet.written_concat, List.map_map]
  rfl

end Blocks

section Spellings

variable {settings : Settings} {s : OverloadSet} {type : TypeId → String} {ks : List Constructor}

/-- The constructors of a key, the last of them set apart. -/
theorem exists_sameConstructors {key : Modifiers} (hkey : key ∈ ks.map Constructor.modifiers) :
    ∃ init last, sameConstructors ks key = init ++ [last] := by
  obtain ⟨k, hk, rfl⟩ := List.mem_map.mp hkey
  have hne : sameConstructors ks k.modifiers ≠ [] :=
    List.ne_nil_of_mem (List.mem_map_of_mem (List.mem_filter.mpr ⟨hk, by simp⟩))
  exact (List.eq_nil_or_concat' _).resolve_left hne

end Spellings

end Document

end TypeDocs
