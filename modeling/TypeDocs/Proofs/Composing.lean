import TypeDocs.Proofs.Asking
import TypeDocs.Session

namespace TypeDocs

open Recording

/-- Wrappers are named by what they hold, all other types by themselves. -/
def Catalog.IsNamed (c : Catalog) (id : TypeId) (name : String) : Prop :=
  ∃ s, c.shape id = .ok s ∧ c.qualifiedName (s.resolve id) = .ok name

/-- The bindings of a type live in the table that is asked for, or else in its default one. -/
def Catalog.BindsIn (c : Catalog) (root : String) (id : TypeId) (table : Option (List String))
    (path : List String) : Prop :=
  table = some path ∨
    table = none ∧ ∃ s, c.shape id = .ok s ∧ c.defaultTable root (s.resolve id) = .ok path

namespace Catalog

variable {c : Catalog} {root : String} {id : TypeId}

theorem IsNamed.unique {n n' : String} (h : c.IsNamed id n) (h' : c.IsNamed id n') : n = n' := by
  obtain ⟨s, hs, hn⟩ := h
  obtain ⟨s', hs', hn'⟩ := h'
  obtain rfl : s = s' := Except.ok.inj (hs.symm.trans hs')
  exact Except.ok.inj (hn.symm.trans hn')

theorem BindsIn.unique {table : Option (List String)} {p p' : List String}
    (h : c.BindsIn root id table p) (h' : c.BindsIn root id table p') : p = p' := by
  rcases h with rfl | ⟨rfl, s, hs, hp⟩
  · simpa [BindsIn] using h'
  · obtain ⟨s', hs', hp'⟩ : ∃ s, c.shape id = .ok s ∧ c.defaultTable root (s.resolve id) = .ok p' :=
      by simpa [BindsIn] using h'
    obtain rfl : s = s' := Except.ok.inj (hs.symm.trans hs')
    exact Except.ok.inj (hp.symm.trans hp')

end Catalog

namespace Document

/-- The note that declares a class, with its base if there is one. -/
def classNote (className : String) : Option String → Line
  | none => .note ("@class " ++ className)
  | some baseName => .note ("@class " ++ className ++ " : " ++ baseName)

/-- A document as it is written for its type, with names and tables as the catalog has them. -/
structure IsComposed (c : Catalog) (settings : Settings) (table : Option (List String))
    (d : Document) : Prop where
  className : c.IsNamed d.type d.className
  text : ∃ info baseName path type, c.get? d.type = some info ∧
    Option.Rel c.IsNamed info.base baseName ∧ c.BindsIn settings.rootNamespace d.type table path ∧
    (∀ t ∈ info.shownTypes settings, c.ScriptName t (type t)) ∧
    d.text = renderLines (.note "@meta" :: classNote d.className baseName ::
      memberLines settings ⟨d.className, tableExpression path⟩ type info)

variable {c : Catalog} {root : String} {settings : Settings} {id : TypeId} {info : TypeInfo}

theorem classLine_tells {tables : TypeId → List String → Prop} (className : String)
    (info : TypeInfo) : (classLine c className info).Tells c tables fun l =>
      ∃ baseName, Option.Rel c.IsNamed info.base baseName ∧ l = classNote className baseName := by
  unfold classLine
  cases info.base with
  | none => exact .pure ⟨none, .none, rfl⟩
  | some base =>
    exact qualifiedName_tells.bind fun name hname => .pure ⟨some name, .some hname, rfl⟩

theorem classNote_unique {className : String} {base : Option TypeId} {l l' : Line}
    (h : ∃ baseName, Option.Rel c.IsNamed base baseName ∧ l = classNote className baseName)
    (h' : ∃ baseName, Option.Rel c.IsNamed base baseName ∧ l' = classNote className baseName) :
    l = l' := by
  obtain ⟨_, hname, rfl⟩ := h
  obtain ⟨_, hname', rfl⟩ := h'
  cases hname with
  | none =>
    cases hname'
    rfl
  | some h =>
    cases hname' with
    | some h' => rw [h.unique h']

theorem classLine_notes (hc : c.IsRegular) (className : String)
    (hbase : ∀ b, info.base = some b → b ∈ c.ids) : (classLine c className info).Notes c := by
  unfold classLine
  cases hb : info.base with
  | none => exact .pure _
  | some base => exact (qualifiedName_notes hc (hbase base hb)).andPure _

theorem bindingTable_finds (table : Option (List String)) :
    (bindingTable c settings id table).Finds c settings.rootNamespace
      (c.BindsIn settings.rootNamespace id table) := by
  cases table with
  | some path => exact .pure (.inl rfl)
  | none => exact (table_tells fun _ _ h => h).mono fun path hpath => .inr ⟨rfl, hpath⟩

theorem bindingTable_notes (hc : c.IsRegular) (settings : Settings) (hid : id ∈ c.ids)
    (table : Option (List String)) : (bindingTable c settings id table).Notes c := by
  cases table with
  | some path => exact .pure path
  | none => exact table_notes hc settings.rootNamespace hid

/-- What is known when the class is declared; all else that is written asks for types. -/
theorem members_ask (c : Catalog) (settings : Settings) (id : TypeId) (s : OverloadSet)
    (declaration : Line) (info : TypeInfo) : Recording.Asks c (do
      let fieldNotes ← fields c settings info.fields
      let propertyNotes ← properties c info.properties
      let methodLines ← methods c settings s info.methods
      let constructorLines ← constructors c settings s info.constructors
      let lines := [.note "@meta", declaration] ++ fieldNotes ++ propertyNotes ++
        [.table s.binding, .blank] ++ methodLines ++ constructorLines
      return (⟨id, s.className, renderLines lines⟩ : Document))
    {t | t ∈ info.shownTypes settings} fun type => ⟨id, s.className, renderLines
      (.note "@meta" :: declaration :: memberLines settings s type info)⟩ := by
  refine ((fields_asks info.fields).bind fun fieldNotes => (properties_asks info.properties).bind
    fun propertyNotes => (methods_asks info.methods).bind fun methodLines =>
      (constructors_asks info.constructors).andPure _).congr ?_ fun type => ?_
  · ext t
    simp [TypeInfo.shownTypes, @eq_comm _ t]
  · simp [memberLines]

theorem compose_finds (settings : Settings) (id : TypeId) (table : Option (List String)) :
    (compose c settings id table).Finds c settings.rootNamespace fun d =>
      d.type = id ∧ d.IsComposed c settings table := by
  obtain ⟨type, htype⟩ := c.exists_namesTypes
  refine qualifiedName_tells.bind fun className hname => ?_
  refine (bindingTable_finds table).bind fun path hpath => ?_
  refine (Tells.lift (.self _)).bind fun info hi => ?_
  refine (classLine_tells className info).bind ?_
  rintro declaration ⟨baseName, hbase, rfl⟩
  refine ((members_ask c settings id ⟨className, tableExpression path⟩ _ info).tells htype).mono ?_
  rintro d ⟨hshown, rfl⟩
  exact ⟨rfl, hname, info, baseName, path, type, Catalog.lookup_eq_ok.mp hi, hbase, hpath, hshown,
    rfl⟩

/-- A document is determined by the catalog and the settings, and links the types that it shows. -/
theorem compose_meets (hc : c.IsRegular) (settings : Settings) (table : Option (List String))
    (hi : c.get? id = some info) :
    ∃ d : Document, d.type = id ∧ (compose c settings id table).Meets c settings.rootNamespace
      {t | t ∈ info.shownTypes settings} (· = d) := by
  have hid : id ∈ c.ids := Catalog.mem_ids_of_get hi
  have hbase : ∀ b, info.base = some b → b ∈ c.ids := fun b hb =>
    hc.closed id info hi b (by simp [TypeInfo.references, hb])
  have hshown : ∀ t ∈ info.shownTypes settings, t ∈ c.ids := fun t ht =>
    hc.closed id info hi t (TypeInfo.mem_references_of_shown ht)
  obtain ⟨type, htype⟩ := c.exists_namesTypes
  let root := settings.rootNamespace
  obtain ⟨className, hname⟩ : (qualifiedName c id).Determined c root ∅ :=
    qualifiedName_determined hc hid
  obtain ⟨path, hpath⟩ : (bindingTable c settings id table).Determined c root ∅ :=
    (Meets.of_notes (bindingTable_notes hc settings hid table)
      (bindingTable_finds table)).determined
      fun p q hp hq => hp.unique hq
  have hlookup : Meets c root ∅ (liftM (c.lookup id)) (· = info) :=
    .lift ⟨info, Catalog.lookup_eq_ok.mpr hi, rfl⟩
  obtain ⟨declaration, hdecl⟩ : (classLine c className info).Determined c root ∅ :=
    (Meets.of_notes (classLine_notes hc className hbase)
      (classLine_tells className info)).determined
      fun _ _ => classNote_unique
  have hmembers := members_ask c settings id ⟨className, tableExpression path⟩ declaration info
  have hrest : Meets c root _ _ _ := Asks.meets hc htype hmembers hshown
  refine ⟨_, rfl, (hname.bindEq (hpath.bindEq (hlookup.bindEq (hdecl.bindEq hrest)))).congr ?_⟩
  simp only [Set.empty_union]

end Document

end TypeDocs
