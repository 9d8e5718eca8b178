import TypeDocs.Proofs.Writing

namespace TypeDocs

open Markup

/-- A type without its members. -/
def TypeInfo.header (t : TypeInfo) : TypeInfo :=
  { t with fields := [], properties := [], methods := [], constructors := [] }

namespace Catalog

/-- A key that can stand in a list of arguments. -/
def IsArgument (key : String) : Prop :=
  key ≠ "" ∧ ',' ∉ key.toList ∧ ' ' ∉ key.toList

instance (key : String) : Decidable (IsArgument key) :=
  inferInstanceAs (Decidable (_ ∧ _))

/--
Catalogs that the format can express. Keys tell the types apart, lists of arguments can be taken
apart, methods have names, and no result is taken for none.
-/
structure IsWritable (c : Catalog) : Prop where
  keys_nodup : c.keys.Nodup
  closed : c.IsClosed
  arguments : ∀ e ∈ c.entries.toList, ∀ t ∈ e.info.arguments, ∀ key ∈ c.key? t, IsArgument key
  names : ∀ e ∈ c.entries.toList, ∀ m ∈ e.info.methods, m.name ≠ ""
  results : ∀ e ∈ c.entries.toList, ∀ m ∈ e.info.methods, ∀ t ∈ m.result, c.key? t ≠ some "void"

variable {c : Catalog}

/-- A catalog is closed when the types entered refer to types of its own. -/
theorem isClosed_iff : c.IsClosed ↔ ∀ e ∈ c.entries.toList, ∀ t ∈ e.info.references, t ∈ c.ids := by
  constructor
  · intro h e he
    obtain ⟨i, hi⟩ := Array.mem_iff_getElem?.mp (Array.mem_toList_iff.mp he)
    exact h ⟨i⟩ e.info (by simp [get?, hi])
  · intro h id info hinfo
    obtain ⟨e, he, rfl⟩ := Option.map_eq_some_iff.mp hinfo
    exact h e (Array.mem_toList_iff.mpr (Array.mem_of_getElem? he))

/-- Types of the catalog are shown by their keys. -/
theorem key?_eq_displayName {t : TypeId} (ht : t ∈ c.ids) : c.key? t = some (c.displayName t) := by
  have hlt : t.index < c.entries.size := mem_ids.mp ht
  simp [displayName, key?, hlt]

end Catalog

namespace Reader

section Values

@[simp]
theorem visibility_word (element : String) (v : Visibility) :
    visibility element v.word = .ok v := by
  cases v <;> rfl

@[simp]
theorem flag_flagWord (element name : String) (b : Bool) :
    flag element name (flagWord b) = .ok b := by
  cases b <;> rfl

/-- Parts without a separator come out as they were put together. -/
theorem splitOnP_intercalate {separates : Char → Bool} {separator : Char}
    (hseparator : separates separator = true) {parts : List (List Char)} (hne : parts ≠ [])
    (h : ∀ part ∈ parts, ∀ x ∈ part, separates x = false) :
    ([separator].intercalate parts).splitOnP separates = parts := by
  induction parts with
  | nil => exact absurd rfl hne
  | cons part parts ih =>
    rw [List.forall_mem_cons] at h
    by_cases hlast : parts = []
    · rw [hlast, List.intercalate_singleton, List.splitOnP_eq_singleton h.1]
    · rw [List.intercalate_cons_of_ne_nil hlast, List.append_assoc, List.singleton_append,
        List.splitOnP_append_cons_of_forall_mem h.1 separator hseparator, ih hlast h.2]

/-- Arguments are told apart by their commas. -/
theorem argumentKeys_intercalate {keys : List String} (hne : keys ≠ [])
    (h : ∀ key ∈ keys, Catalog.IsArgument key) :
    argumentKeys (",".intercalate keys) = keys := by
  let separates (c : Char) : Bool := c == ',' || c == ' '
  have hparts : (",".intercalate keys).toList.splitOnP separates = keys.map String.toList := by
    rw [String.toList_intercalate]
    refine splitOnP_intercalate (by decide) (by simpa using hne) ?_
    rw [List.forall_mem_map]
    intro key hkey x hx
    obtain ⟨-, hcomma, hblank⟩ := h key hkey
    have hx₁ : x ≠ ',' := fun hxc => hcomma (hxc ▸ hx)
    have hx₂ : x ≠ ' ' := fun hxc => hblank (hxc ▸ hx)
    simp [separates, hx₁, hx₂]
  have hnonempty : (keys.map String.toList).filter (!·.isEmpty) = keys.map String.toList := by
    rw [List.filter_eq_self, List.forall_mem_map]
    intro key hkey
    simpa using (h key hkey).1
  have hback : (keys.map String.toList).map String.ofList = keys := by
    simp
  rw [argumentKeys, hparts, hnonempty, hback]

/-- What a draft takes from the attributes of an element. -/
theorem draft_element (kind : String) {l : List (String × Option String)}
    (hl : l.map Prod.fst = knownAttributes kind) :
    draft kind (element kind l) = (present l).foldlM (MemberDraft.add kind) {} := by
  rw [draft, attributes_element kind (hl ▸ Catalog.areNames_knownAttributes kind)]
  rfl

end Values

section Members

variable {c : Catalog} (key : String)

/-- The key of a type leads back to the type. -/
theorem resolve_displayName (hkeys : c.keys.Nodup) {t : TypeId} (ht : t ∈ c.ids)
    (referrer : String) : KeyTable.resolve c.bindings (c.displayName t) referrer = .ok t := by
  have hfind : c.bindings.get? (c.displayName t) = some t :=
    (Catalog.find?_eq_some_iff hkeys).mpr (Catalog.key?_eq_displayName ht)
  rw [KeyTable.resolve, hfind]

theorem field_fieldElement (hkeys : c.keys.Nodup) {f : Field} (hf : f.type ∈ c.ids) :
    field c.bindings key (c.fieldElement f).1 = .ok f := by
  have hdraft : draft "field" (c.fieldElement f).1 = .ok {
      name := some f.name, type := some (c.displayName f.type), visibility := f.visibility,
      isStatic := f.isStatic } := by
    rw [Catalog.fieldElement, draft_element "field" rfl]
    simp +decide [present, MemberDraft.add]
  rw [field, hdraft]
  simp [required, resolve_displayName hkeys hf]

theorem accessor_accessorElement {kind : String} (hkind : kind = "getter" ∨ kind = "setter")
    (a : Accessor) : accessor kind (Catalog.accessorElement kind a).1 = .ok a := by
  have hdraft : draft kind (Catalog.accessorElement kind a).1 = .ok {
      visibility := a.visibility, isStatic := a.isStatic, isAbstract := a.isAbstract,
      isVirtual := a.isVirtual } := by
    rcases hkind with rfl | rfl
    · rw [Catalog.accessorElement, draft_element "getter" rfl]
      simp +decide [present, MemberDraft.add]
    · rw [Catalog.accessorElement, draft_element "setter" rfl]
      simp +decide [present, MemberDraft.add]
  rw [accessor, hdraft]
  rfl

theorem propertyHeader_propertyElement (hkeys : c.keys.Nodup) {p : Property}
    (hp : p.type ∈ c.ids) :
    propertyHeader c.bindings key (c.propertyElement p).1 =
      .ok { name := p.name, type := p.type } := by
  have hdraft : draft "property" (c.propertyElement p).1 = .ok {
      name := some p.name, type := some (c.displayName p.type) } := by
    rw [Catalog.propertyElement, draft_element "property" rfl]
    simp +decide [present, MemberDraft.add]
  rw [propertyHeader, hdraft]
  simp [required, resolve_displayName hkeys hp]

/-- A getter is written when there is one, and so is a setter. -/
theorem accessors_propertyElement (p : Property) :
    accessors { name := p.name, type := p.type } (c.propertyElement p).2 = .ok p := by
  have hname (kind : String) (a : Accessor) : (Catalog.accessorElement kind a).1.name = kind := rfl
  have hgetter := accessor_accessorElement (.inl rfl : "getter" = "getter" ∨ "getter" = "setter")
  have hsetter := accessor_accessorElement (.inr rfl : "setter" = "getter" ∨ "setter" = "setter")
  obtain ⟨name, type, getter, setter⟩ := p
  cases getter <;> cases setter
  all_goals
    simp [Catalog.propertyElement, Forest.ofList, accessors, addAccessor, hname, hgetter, hsetter]

theorem parameter_parameterElement (hkeys : c.keys.Nodup) {p : Parameter} (hp : p.type ∈ c.ids) :
    parameter c.bindings key (c.parameterElement p).1 = .ok p := by
  have hdraft : draft "param" (c.parameterElement p).1 = .ok {
      name := some p.name, type := some (c.displayName p.type), isOptional := p.isOptional,
      isVariadic := p.isVariadic } := by
    rw [Catalog.parameterElement, draft_element "param" rfl]
    simp +decide [present, MemberDraft.add]
  rw [parameter, hdraft]
  simp [required, resolve_displayName hkeys hp]

theorem parameters_ofList (hkeys : c.keys.Nodup) {ps : List Parameter}
    (hps : ∀ p ∈ ps, p.type ∈ c.ids) :
    parameters c.bindings key (.ofList (ps.map c.parameterElement)) = .ok ps := by
  induction ps with
  | nil => rfl
  | cons p ps ih =>
    rw [List.forall_mem_cons] at hps
    have hname : (c.parameterElement p).1.name = "param" := rfl
    rw [List.map_cons, Forest.ofList_cons, parameters, if_pos hname,
      parameter_parameterElement key hkeys hps.1, ih hps.2]
    rfl

theorem methodHeader_methodElement (hkeys : c.keys.Nodup) {m : Method} (hname : m.name ≠ "")
    (hresult : ∀ t ∈ m.result, t ∈ c.ids ∧ c.displayName t ≠ "void") :
    methodHeader c.bindings key (c.methodElement m).1 = .ok { m with parameters := [] } := by
  have hdraft : draft "method" (c.methodElement m).1 = .ok {
      name := some m.name, type := m.result.map c.displayName, visibility := m.visibility,
      isStatic := m.isStatic, isAbstract := m.isAbstract, isVirtual := m.isVirtual,
      isSpecial := m.isSpecial } := by
    rw [Catalog.methodElement, draft_element "method" rfl]
    cases m.result <;> simp +decide [present, MemberDraft.add]
  have hfilter : (some m.name).filter (· ≠ "") = some m.name := by
    simp [Option.filter, hname]
  rw [methodHeader, hdraft]
  simp only [ok_bind, hfilter, required]
  cases hm : m.result with
  | none => rfl
  | some t =>
    obtain ⟨ht, hvoid⟩ := hresult t hm
    have hkey : (some (c.displayName t)).filter (· ≠ "void") = some (c.displayName t) := by
      simp [Option.filter, hvoid]
    rw [Option.map_some, hkey]
    simp only [resolve_displayName hkeys ht]
    rfl

theorem constructorHeader_constructorElement (k : Constructor) :
    constructorHeader (c.constructorElement k).1 = .ok { k with parameters := [] } := by
  have hdraft : draft "constructor" (c.constructorElement k).1 = .ok {
      visibility := k.visibility, isStatic := k.isStatic } := by
    rw [Catalog.constructorElement, draft_element "constructor" rfl]
    simp +decide [present, MemberDraft.add]
  rw [constructorHeader, hdraft]
  rfl

/-- Where one element adds one member, elements of its kind add their members in order. -/
theorem members_map {keys : KeyTable} {α : Type} {write : α → Tag × Forest}
    (put : TypeInfo → List α → TypeInfo) (hnil : ∀ t, put t [] = t)
    (hcons : ∀ t a as, put (put t [a]) as = put t (a :: as)) {as : List α}
    (h : ∀ a ∈ as, ∀ t, member keys key t (write a).1 (write a).2 = .ok (put t [a]))
    (t : TypeInfo) (es : List (Tag × Forest)) :
    members keys key t (.ofList (as.map write ++ es)) =
      members keys key (put t as) (.ofList es) := by
  induction as generalizing t with
  | nil => rw [List.map_nil, List.nil_append, hnil]
  | cons a as ih =>
    rw [List.forall_mem_cons] at h
    rw [List.map_cons, List.cons_append, Forest.ofList_cons, members, h.1, ok_bind, ih h.2, hcons]

end Members

section Header

variable {c : Catalog} (key : String) {t : TypeInfo}

/-- Attributes without a value are passed over. -/
theorem foldlM_present_cons {ε β : Type} (f : β → Attribute → Except ε β) (b : β) (name : String)
    (value : Option String) (l : List (String × Option String)) :
    (present ((name, value) :: l)).foldlM f b =
      ((value.map (Attribute.mk name)).toList.foldlM f b >>= (present l).foldlM f) := by
  rw [present_cons, List.foldlM_append]

/-- A reference sets its part of the header, if there is one. -/
theorem foldlM_reference (hkeys : c.keys.Nodup) (name : String)
    (put : TypeInfo → Option TypeId → TypeInfo) {u : Option TypeId} (hu : ∀ v ∈ u, v ∈ c.ids)
    (hnone : put t none = t)
    (hadd : ∀ value, addTypeAttribute c.bindings key t ⟨name, value⟩ =
      (do return put t (some (← KeyTable.resolve c.bindings value key)))) :
    ((u.map c.displayName).map (Attribute.mk name)).toList.foldlM
      (addTypeAttribute c.bindings key) t = .ok (put t u) := by
  cases u with
  | none => exact congrArg _ hnone.symm
  | some v => simp [hadd, resolve_displayName hkeys (hu v rfl)]

theorem foldlM_namespace (hnone : t.namespaceName = none) (value : Option String) :
    (value.map (Attribute.mk "namespace")).toList.foldlM (addTypeAttribute c.bindings key) t =
      .ok { t with namespaceName := value } := by
  obtain ⟨name, _⟩ := t
  obtain rfl := hnone
  cases value <;> rfl

theorem foldlM_arguments (hkeys : c.keys.Nodup) {ids : List TypeId} (hids : ∀ u ∈ ids, u ∈ c.ids)
    (harguments : ∀ u ∈ ids, Catalog.IsArgument (c.displayName u)) (hnil : t.arguments = []) :
    ((c.argumentList ids).map (Attribute.mk "arguments")).toList.foldlM
      (addTypeAttribute c.bindings key) t = .ok { t with arguments := ids } := by
  by_cases hempty : ids = []
  · have hlist : c.argumentList ids = none := if_pos hempty
    rw [hlist, hempty, ← hnil]
    rfl
  · have hlist : c.argumentList ids = some (",".intercalate (ids.map c.displayName)) :=
      if_neg hempty
    have hsplit : argumentKeys (",".intercalate (ids.map c.displayName)) =
        ids.map c.displayName := by
      refine argumentKeys_intercalate (by simpa using hempty) ?_
      rw [List.forall_mem_map]
      exact harguments
    have hresolve (l : List TypeId) (hl : ∀ u ∈ l, u ∈ c.ids) :
        (l.map c.displayName).mapM (KeyTable.resolve c.bindings · key) = .ok l := by
      induction l with
      | nil => rfl
      | cons u l ih =>
        rw [List.forall_mem_cons] at hl
        rw [List.map_cons, List.mapM_cons, resolve_displayName hkeys hl.1, ih hl.2]
        rfl
    simp [hlist, addTypeAttribute, hsplit, hresolve ids hids]

/-- The value of an attribute whose name is not used again. -/
theorem value?_of_mem {as : List Attribute} (hnodup : (as.map Attribute.name).Nodup)
    {a : Attribute} (ha : a ∈ as) : value? a.name as = some a.value := by
  have hsome : (as.reverse.find? (·.name = a.name)).isSome := by
    rw [List.find?_isSome]
    exact ⟨a, List.mem_reverse.mpr ha, by simp⟩
  obtain ⟨b, hb⟩ := Option.isSome_iff_exists.mp hsome
  have hname : b.name = a.name := by simpa using List.find?_some hb
  have hmem : b ∈ as := List.mem_reverse.mp (List.mem_of_find?_eq_some hb)
  rw [value?, hb, List.inj_on_of_nodup_map hnodup hmem ha hname, Option.map_some]

theorem value?_typeAttributes {e : Entry} {name value : String}
    (h : (name, some value) ∈ c.typeAttributes e) :
    value? name (present (c.typeAttributes e)) = some value := by
  have hnodup := (names_present (c.typeAttributes e)).nodup (c.areNames_typeAttributes e).1
  have hmem : (⟨name, value⟩ : Attribute) ∈ present (c.typeAttributes e) :=
    List.mem_filterMap.mpr ⟨(name, some value), h, rfl⟩
  exact value?_of_mem hnodup hmem

/-- Types are written under their keys. -/
theorem typeKey_typeAttributes (e : Entry) :
    typeKey (present (c.typeAttributes e)) = .ok e.key := by
  have hkey : value? "key" (present (c.typeAttributes e)) = some e.key :=
    value?_typeAttributes (by simp [Catalog.typeAttributes])
  rw [typeKey, hkey]

end Header

section Types

variable {c : Catalog} (h : c.IsWritable) {e : Entry} (he : e ∈ c.entries.toList)
include h he

/-- All members are found again, each kind in order. -/
theorem members_memberElements (t : TypeInfo) :
    members c.bindings e.key t (.ofList (c.memberElements e.info)) = .ok { t with
      fields := t.fields ++ e.info.fields, properties := t.properties ++ e.info.properties,
      methods := t.methods ++ e.info.methods,
      constructors := t.constructors ++ e.info.constructors } := by
  have hrefers := Catalog.isClosed_iff.mp h.closed e he
  simp only [TypeInfo.references, List.forall_mem_append, List.forall_mem_map,
    List.forall_mem_flatMap] at hrefers
  obtain ⟨⟨⟨⟨-, hfields⟩, hproperties⟩, hmethods⟩, hconstructors⟩ := hrefers
  have hfield : ∀ f ∈ e.info.fields, ∀ t,
      member c.bindings e.key t (c.fieldElement f).1 (c.fieldElement f).2 =
        .ok { t with fields := t.fields ++ [f] } := by
    intro f hf t
    have hname : (c.fieldElement f).1.name = "field" := rfl
    rw [member, hname]
    simp [field_fieldElement e.key h.keys_nodup (hfields f hf)]
  have hproperty : ∀ p ∈ e.info.properties, ∀ t,
      member c.bindings e.key t (c.propertyElement p).1 (c.propertyElement p).2 =
        .ok { t with properties := t.properties ++ [p] } := by
    intro p hp t
    have hname : (c.propertyElement p).1.name = "property" := rfl
    rw [member, hname]
    simp [propertyHeader_propertyElement e.key h.keys_nodup (hproperties p hp),
      accessors_propertyElement]
  have hmethod : ∀ m ∈ e.info.methods, ∀ t,
      member c.bindings e.key t (c.methodElement m).1 (c.methodElement m).2 =
        .ok { t with methods := t.methods ++ [m] } := by
    intro m hm t
    have hname : (c.methodElement m).1.name = "method" := rfl
    have htypes := hmethods m hm
    rw [Method.types, List.forall_mem_append, List.forall_mem_map] at htypes
    obtain ⟨hparameters, hresult⟩ := htypes
    have hvoid : ∀ u ∈ m.result, u ∈ c.ids ∧ c.displayName u ≠ "void" := by
      intro u hu
      have hu' := hresult u (Option.mem_toList.mpr hu)
      refine ⟨hu', fun hv => h.results e he m hm u hu ?_⟩
      rw [Catalog.key?_eq_displayName hu', hv]
    have hread : parameters c.bindings (e.key ++ "." ++ m.name) (c.methodElement m).2 =
        .ok m.parameters := parameters_ofList _ h.keys_nodup hparameters
    rw [member, hname]
    simp [methodHeader_methodElement e.key h.keys_nodup (h.names e he m hm) hvoid, hread]
  have hconstructor : ∀ k ∈ e.info.constructors, ∀ t,
      member c.bindings e.key t (c.constructorElement k).1 (c.constructorElement k).2 =
        .ok { t with constructors := t.constructors ++ [k] } := by
    intro k hk t
    have hname : (c.constructorElement k).1.name = "constructor" := rfl
    have htypes := hconstructors k hk
    rw [Constructor.types, List.forall_mem_map] at htypes
    have hread : parameters c.bindings (e.key ++ ".ctor") (c.constructorElement k).2 =
        .ok k.parameters := parameters_ofList _ h.keys_nodup htypes
    rw [member, hname]
    simp [constructorHeader_constructorElement, hread]
  have hlast (t : TypeInfo) : members c.bindings e.key t
      (.ofList (e.info.constructors.map c.constructorElement)) =
        .ok { t with constructors := t.constructors ++ e.info.constructors } := by
    have hall := members_map e.key (fun t ks => { t with constructors := t.constructors ++ ks })
      (by simp) (by simp) hconstructor t []
    rwa [List.append_nil] at hall
  rw [Catalog.memberElements,
    members_map e.key (fun t fs => { t with fields := t.fields ++ fs }) (by simp) (by simp) hfield,
    members_map e.key (fun t ps => { t with properties := t.properties ++ ps }) (by simp) (by simp)
      hproperty,
    members_map e.key (fun t ms => { t with methods := t.methods ++ ms }) (by simp) (by simp)
      hmethod,
    hlast]

/-- The attributes of a type give its header. -/
theorem typeHeader_typeElement :
    typeHeader c.bindings (c.typeElement e).1 = .ok ⟨e.key, e.info.header⟩ := by
  have hrefers := Catalog.isClosed_iff.mp h.closed e he
  simp only [TypeInfo.references, List.forall_mem_append, Option.mem_toList] at hrefers
  obtain ⟨⟨⟨⟨⟨⟨⟨⟨henclosing, hdefinition⟩, harguments⟩, helement⟩, hbase⟩, -⟩, -⟩, -⟩, -⟩ := hrefers
  have hargument : ∀ u ∈ e.info.arguments, Catalog.IsArgument (c.displayName u) := fun u hu =>
    h.arguments e he u hu _ (Catalog.key?_eq_displayName (harguments u hu))
  have hname : value? "name" (present (c.typeAttributes e)) = some e.info.name :=
    value?_typeAttributes (by simp [Catalog.typeAttributes])
  have hfold : (present (c.typeAttributes e)).foldlM (addTypeAttribute c.bindings e.key)
      { name := "" } = .ok e.info.header := by
    have hsteps (t : TypeInfo) (value : String) :
        ((some value).map (Attribute.mk "key")).toList.foldlM
            (addTypeAttribute c.bindings e.key) t = .ok t ∧
          ((some value).map (Attribute.mk "name")).toList.foldlM
            (addTypeAttribute c.bindings e.key) t = .ok { t with name := value } :=
      ⟨rfl, rfl⟩
    rw [Catalog.typeAttributes, foldlM_present_cons, (hsteps _ _).1, ok_bind,
      foldlM_present_cons, foldlM_namespace e.key rfl, ok_bind,
      foldlM_present_cons, (hsteps _ _).2, ok_bind,
      foldlM_present_cons, foldlM_reference e.key h.keys_nodup "definition"
        (fun t u => { t with definition := u }) hdefinition rfl (fun _ => rfl), ok_bind,
      foldlM_present_cons, foldlM_arguments e.key h.keys_nodup harguments hargument rfl, ok_bind,
      foldlM_present_cons, foldlM_reference e.key h.keys_nodup "element"
        (fun t u => { t with element := u }) helement rfl (fun _ => rfl), ok_bind,
      foldlM_present_cons, foldlM_reference e.key h.keys_nodup "base"
        (fun t u => { t with base := u }) hbase rfl (fun _ => rfl), ok_bind,
      foldlM_present_cons, foldlM_reference e.key h.keys_nodup "declaring"
        (fun t u => { t with enclosing := u }) henclosing rfl (fun _ => rfl), ok_bind]
    rfl
  rw [typeHeader, Catalog.typeElement, attributes_element "type" (c.areNames_typeAttributes e)]
  simp [typeKey_typeAttributes, hfold, hname, required]

theorem typeEntry_typeElement :
    typeEntry c.bindings (c.typeElement e).1 (c.typeElement e).2 = .ok e := by
  have hmembers := members_memberElements h he e.info.header
  have hinside : (c.typeElement e).2 = .ofList (c.memberElements e.info) := rfl
  rw [typeEntry, typeHeader_typeElement h he, ok_bind, hinside, hmembers]
  rfl

end Types

section Walks

variable {c : Catalog}

/-- Members declare no keys. -/
theorem declaredKeys_inner {f : Forest} (h : Catalog.AreInner f) (parent : Option String) :
    declaredKeys parent f = .ok [] := by
  induction f generalizing parent with
  | nil => rfl
  | node tag inside after ihi iha =>
    simp only [Catalog.AreInner, Forest.elements, List.forall_mem_cons,
      List.forall_mem_append] at h
    obtain ⟨⟨-, htag⟩, hinside, hafter⟩ := h
    rw [declaredKeys, declaredKey, if_neg htag, ihi hinside, iha hafter]
    rfl

/-- The first walk finds the keys of the types that are written. -/
theorem declaredKeys_types (es : List Entry) :
    declaredKeys (some "typeCatalog") (.ofList (es.map c.typeElement)) =
      .ok (es.map Entry.key) := by
  induction es with
  | nil => rfl
  | cons e es ih =>
    have hname : (c.typeElement e).1.name = "type" := rfl
    have hattributes : attributes (c.typeElement e).1 = .ok (present (c.typeAttributes e)) :=
      attributes_element "type" (c.areNames_typeAttributes e)
    rw [List.map_cons, Forest.ofList_cons, declaredKeys, declaredKey, hname, if_pos rfl,
      hattributes, ih]
    have hinside : declaredKeys (some "type") (c.typeElement e).2 = .ok [] :=
      declaredKeys_inner (c.areInner_members e.info) _
    simp only [checkParent, if_pos, ok_bind, typeKey_typeAttributes, hinside]
    rfl

/-- The second walk enters the types that are written. -/
theorem catalogFrom_types (h : c.IsWritable) {es : List Entry}
    (hes : ∀ e ∈ es, e ∈ c.entries.toList) (c₀ : Catalog) :
    catalogFrom c.bindings (some c₀) (.ofList (es.map c.typeElement)) =
      .ok (some (es.foldl (fun c e => c.insert e.key e.info) c₀)) := by
  induction es generalizing c₀ with
  | nil => rfl
  | cons e es ih =>
    rw [List.forall_mem_cons] at hes
    have hname : (c.typeElement e).1.name = "type" := rfl
    rw [List.map_cons, Forest.ofList_cons, catalogFrom, hname, if_neg (by decide), if_pos rfl]
    simp only [openCatalog, typeEntry_typeElement h hes.1, ok_bind, ih hes.2]
    rfl

end Walks

end Reader

namespace Catalog

/-- The types of a catalog determine what its keys are bound to. -/
theorem eq_of_entries {c c' : Catalog} (hroot : c.rootNamespace = c'.rootNamespace)
    (hentries : c.entries = c'.entries) : c = c' := by
  obtain ⟨root, entries, bindings, rfl⟩ := c
  obtain ⟨root', entries', bindings', rfl⟩ := c'
  obtain rfl : root = root' := hroot
  obtain rfl : entries = entries' := hentries
  rfl

theorem foldl_insert (c : Catalog) (es : List Entry) :
    (es.foldl (fun c e => c.insert e.key e.info) c).rootNamespace = c.rootNamespace ∧
      (es.foldl (fun c e => c.insert e.key e.info) c).entries = c.entries ++ es.toArray := by
  induction es generalizing c with
  | nil => simp
  | cons e es ih =>
    obtain ⟨hroot, hentries⟩ := ih (c.insert e.key e.info)
    rw [List.foldl_cons, hroot, hentries]
    simp [insert]

/--
Any catalog that the format can express is read back from its document: the same types under the
same keys, with the same members in the same order, whichever characters are in their names.
-/
theorem parse_write {c : Catalog} (h : c.IsWritable) : parse c.write = .ok c := by
  have hdeclared : Reader.declaredKeys none c.outline = .ok c.keys := by
    have hname : c.rootTag.name = "typeCatalog" := rfl
    rw [outline, Reader.declaredKeys, Reader.declaredKey, hname, if_neg (by decide),
      Reader.declaredKeys_types]
    simp [Reader.declaredKeys, keys]
  have hfound : Reader.catalogFrom c.bindings none c.outline = .ok (some c) := by
    have hname : c.rootTag.name = "typeCatalog" := rfl
    have hroot : Reader.emptyCatalog c.rootTag = .ok { rootNamespace := c.rootNamespace } := by
      rw [Reader.emptyCatalog, rootTag, attributes_element "typeCatalog" c.areNames_rootTag]
      cases c.rootNamespace <;> rfl
    obtain ⟨hroot', hentries⟩ :=
      foldl_insert { rootNamespace := c.rootNamespace } c.entries.toList
    have hall : c.entries.toList.foldl (fun c e => c.insert e.key e.info)
        { rootNamespace := c.rootNamespace } = c :=
      eq_of_entries hroot' (by simpa using hentries)
    rw [outline, Reader.catalogFrom, if_pos hname, hroot, ok_bind,
      Reader.catalogFrom_types h (fun e he => he), ok_bind, hall]
    rfl
  have hsize : c.size = c.keys.length := by
    simp [size, keys]
  rw [c.bindings_eq] at hfound
  rw [parse_eq, c.read_write, ofReading_eq_ok_iff]
  exact ⟨c.keys, hdeclared, rfl, h.keys_nodup, hfound, hsize⟩

/--
A class that refers to itself and to types after it, with members of every kind and with names full
of markup.
-/
def boxes : Catalog where
  rootNamespace := some "R&D"
  entries := #[
    ⟨"box", {
      name := "Box", namespaceName := some "", base := some ⟨3⟩,
      fields := [{ name := "<Lid>k__'Field'", type := ⟨0⟩, visibility := .isPrivate }],
      properties := [{
        name := "Lid", type := ⟨0⟩, getter := some {},
        setter := some { visibility := .familyOrAssembly, isStatic := true } }],
      methods := [
        { name := "Open", isAbstract := true, isVirtual := true, isSpecial := true },
        { name := "\"Fill\"", result := some ⟨1⟩, isStatic := true,
          parameters := [{ name := "β", type := ⟨1⟩, isVariadic := true }] }],
      constructors := [{ parameters := [{ name := "n", type := ⟨1⟩, isOptional := true }] }] }⟩,
    ⟨"Text", { name := "Text", namespaceName := some "Sys", enclosing := some ⟨2⟩ }⟩,
    ⟨"", { name := "Pair\x602" }⟩,
    ⟨"two words", {
      name := "Pair\x602", definition := some ⟨2⟩, arguments := [⟨0⟩, ⟨1⟩],
      element := some ⟨3⟩ }⟩]

theorem boxes_isWritable : boxes.IsWritable where
  keys_nodup := by decide +kernel
  closed := isClosed_iff.mpr (by decide +kernel)
  arguments := by decide +kernel
  names := by decide +kernel
  results := by decide +kernel

theorem parse_write_boxes : boxes.IsWritable ∧ parse boxes.write = .ok boxes :=
  ⟨boxes_isWritable, parse_write boxes_isWritable⟩

end Catalog

end TypeDocs
