import TypeDocs.Proofs.Elements
import TypeDocs.Proofs.Reading

namespace TypeDocs

open Markup

namespace Catalog

variable {c : Catalog} {id : TypeId} {key : String}

/-- The keys of all types, in order. -/
def keys (c : Catalog) : List String :=
  c.entries.toList.map Entry.key

theorem key?_eq_some_iff : c.key? id = some key ↔ c.keys[id.index]? = some key := by
  simp [key?, keys]

/-- When no key occurs twice, a type is found under its own key and under no other. -/
theorem find?_eq_some_iff (h : c.keys.Nodup) : c.find? key = some id ↔ c.key? id = some key := by
  rw [find?_eq_some_iff_last]
  refine and_iff_left_of_imp fun hid t ht => ?_
  have hkey := key?_eq_some_iff.mp ht
  have hindex : t.index = id.index :=
    (List.getElem?_inj (List.getElem?_eq_some_iff.mp hkey).1 h).mp
      (hkey.trans (key?_eq_some_iff.mp hid).symm)
  exact Nat.le_of_eq hindex

end Catalog

section Written

open Reader

variable (find : String → Option TypeId)

/-- There is a reference just where there is an attribute, to the type whose key it spells. -/
def Refers (spelled : Option String) (t : Option TypeId) : Prop :=
  t.map some = spelled.map find

/-- An element that gives something a name and the type whose key it spells. -/
def Declares (e : Tag × Forest) (name : String) (t : TypeId) : Prop :=
  ∃ as, attributes e.1 = .ok as ∧ value? "name" as = some name ∧
    (value? "type" as).bind find = some t

def HasParameters (e : Tag × Forest) (ps : List Parameter) : Prop :=
  List.Forall₂ (fun e p => Declares find e p.name p.type) (e.2.named "param") ps

/-- A method refers to its result unless the result is written `void`. -/
def DeclaresMethod (e : Tag × Forest) (m : Method) : Prop :=
  (∃ as, attributes e.1 = .ok as ∧ value? "name" as = some m.name ∧
    Refers find ((value? "returns" as).filter (· ≠ "void")) m.result) ∧
  HasParameters find e m.parameters

/-- The members of a type stand in its element, those of one kind in order. -/
structure HasMembers (inside : Forest) (t : TypeInfo) : Prop where
  fields : List.Forall₂ (fun e f => Declares find e f.name f.type) (inside.named "field") t.fields
  properties : List.Forall₂ (fun e p => Declares find e p.name p.type) (inside.named "property")
    t.properties
  methods : List.Forall₂ (DeclaresMethod find) (inside.named "method") t.methods
  constructors : List.Forall₂ (fun e k => HasParameters find e k.parameters)
    (inside.named "constructor") t.constructors

/-- A type without its members, as its attributes give it. -/
structure HasHeader (as : List Attribute) (t : TypeInfo) : Prop where
  name : t.name = (value? "name" as).getD ""
  namespaceName : t.namespaceName = value? "namespace" as
  enclosing : Refers find (value? "declaring" as) t.enclosing
  definition : Refers find (value? "definition" as) t.definition
  arguments : t.arguments.map some = (((value? "arguments" as).map argumentKeys).getD []).map find
  element : Refers find (value? "element" as) t.element
  base : Refers find (value? "base" as) t.base

/-- The key that the attributes of a type element come to. -/
def HasKey (e : Tag × Forest) (key : String) : Prop :=
  ∃ as, attributes e.1 = .ok as ∧ typeKey as = .ok key

/-- An element that gives a type its key, its header and its members. -/
structure DeclaresType (e : Tag × Forest) (entry : Entry) : Prop where
  key : HasKey e entry.key
  header : ∃ as, attributes e.1 = .ok as ∧
    (value? "key" as = none → entry.key = entry.info.fullName) ∧
    (value? "name" as).isSome ∧ HasHeader find as entry.info
  members : HasMembers find e.2 entry.info

end Written

namespace Reader

variable {keys : KeyTable} {tag : Tag} {inside after : Forest}

theorem resolve_find (key referrer : String) :
    Ensures (keys.resolve key referrer) fun t => keys.get? key = some t := by
  unfold KeyTable.resolve
  cases keys.get? key with
  | none => exact .error _
  | some t => exact .ok rfl

theorem required_eq (element name : String) (value : Option String) :
    Ensures (required element name value) fun s => value = some s := by
  cases value with
  | none => exact .error _
  | some s => exact .ok rfl

theorem value?_concat (name : String) (as : List Attribute) (a : Attribute) :
    value? name (as ++ [a]) = if a.name = name then some a.value else value? name as := by
  simp only [value?, List.reverse_append, List.reverse_singleton, List.singleton_append,
    List.find?_cons]
  split <;> simp_all

/-- Of an attribute that an element may carry, a draft takes the name or the key or neither. -/
theorem add_values {element key : String} (hname : "name" ∈ knownAttributes element)
    (hkey : key ∈ ["type", "returns"])
    (hknown : ∀ n ∈ ["type", "returns"], (n ∈ knownAttributes element ↔ n = key))
    (d : MemberDraft) (a : Attribute) :
    Ensures (d.add element a) fun d' =>
      d'.name = (if a.name = "name" then some a.value else d.name) ∧
        d'.type = if a.name = key then some a.value else d.type := by
  have hne : "name" ≠ key := by
    rintro rfl
    simp at hkey
  unfold MemberDraft.add
  split
  · rename_i hmem
    split
    · rename_i ha
      exact .ok ⟨by simp [ha], by simp [ha, hne]⟩
    · rename_i ha
      exact .ok ⟨by simp [ha], by simp [(hknown _ (by simp)).mp (ha ▸ hmem), ha]⟩
    · rename_i ha
      exact .ok ⟨by simp [ha], by simp [(hknown _ (by simp)).mp (ha ▸ hmem), ha]⟩
    all_goals
      have hna : a.name ≠ "name" := by simp_all
      have hka : a.name ≠ key := by
        rintro rfl
        simp_all
      simp only [if_neg hna, if_neg hka]
    · exact .after fun _ => .pure ⟨rfl, rfl⟩
    · exact .after fun _ => .pure ⟨rfl, rfl⟩
    · exact .after fun _ => .pure ⟨rfl, rfl⟩
    · exact .after fun _ => .pure ⟨rfl, rfl⟩
    · exact .after fun _ => .pure ⟨rfl, rfl⟩
    · exact .after fun _ => .pure ⟨rfl, rfl⟩
    · exact .after fun _ => .pure ⟨rfl, rfl⟩
    · exact .ok ⟨rfl, rfl⟩
  · rename_i hmem
    have ha : a.name ≠ "name" := fun h => hmem (h ▸ hname)
    have hak : a.name ≠ key := fun h => hmem (h ▸ (hknown key hkey).mpr rfl)
    exact .ok ⟨by simp [ha], by simp [hak]⟩

/-- The name and the key that the attributes of a member give. -/
theorem draft_values (element key : String) (hname : "name" ∈ knownAttributes element)
    (hkey : key ∈ ["type", "returns"])
    (hknown : ∀ n ∈ ["type", "returns"], (n ∈ knownAttributes element ↔ n = key))
    (tag : Tag) :
    Ensures (draft element tag) fun d => ∃ as, attributes tag = .ok as ∧
      d.name = value? "name" as ∧ d.type = value? key as := by
  refine (Ensures.self _).bind fun as has => ?_
  have hfold : Ensures (as.foldlM (MemberDraft.add element) {}) fun d =>
      d.name = value? "name" as ∧ d.type = value? key as := by
    refine Ensures.foldlM_prefix
      (I := fun (before : List Attribute) (d : MemberDraft) =>
        d.name = value? "name" before ∧ d.type = value? key before) ?_ ⟨rfl, rfl⟩
    intro before a d ⟨hn, ht⟩
    rw [value?_concat, value?_concat, ← hn, ← ht]
    exact add_values hname hkey hknown d a
  exact hfold.mono fun d hd => ⟨as, has, hd⟩

/-- What fields, properties and parameters have in common. -/
theorem declares_of_draft {α : Type} (element : String) (hname : "name" ∈ knownAttributes element)
    (hknown : ∀ n ∈ ["type", "returns"], (n ∈ knownAttributes element ↔ n = "type"))
    (tag : Tag) (inside : Forest) (referrer : String → String) {P : α → Prop}
    {make : MemberDraft → String → TypeId → α}
    (hmake : ∀ d name t, Declares keys.get? (tag, inside) name t → P (make d name t)) :
    Ensures (do
      let d ← draft element tag
      let name ← required element "name" d.name
      let key ← required element "type" d.type
      let type ← keys.resolve key (referrer name)
      return make d name type) P := by
  refine (draft_values element "type" hname (by simp) hknown tag).bind fun d ⟨as, has, hn, ht⟩ => ?_
  refine (required_eq _ _ _).bind fun name hname => (required_eq _ _ _).bind fun key hkey => ?_
  refine (resolve_find key _).bind fun t hfind => .pure (hmake d name t ⟨as, has, ?_, ?_⟩)
  · exact hn.symm.trans hname
  · rw [← ht, hkey]
    exact hfind

theorem field_declares (owner : String) (tag : Tag) (inside : Forest) :
    Ensures (field keys owner tag) fun f => Declares keys.get? (tag, inside) f.name f.type :=
  declares_of_draft "field" (by decide) (by decide) tag inside _ fun _ _ _ h => h

theorem propertyHeader_declares (owner : String) (tag : Tag) (inside : Forest) :
    Ensures (propertyHeader keys owner tag) fun p =>
      Declares keys.get? (tag, inside) p.name p.type :=
  declares_of_draft "property" (by decide) (by decide) tag inside _ fun _ _ _ h => h

theorem parameter_declares (owner : String) (tag : Tag) (inside : Forest) :
    Ensures (parameter keys owner tag) fun p => Declares keys.get? (tag, inside) p.name p.type :=
  declares_of_draft "param" (by decide) (by decide) tag inside _ fun _ _ _ h => h

theorem parameters_declare (owner : String) (inside : Forest) :
    Ensures (parameters keys owner inside) fun ps =>
      List.Forall₂ (fun e p => Declares keys.get? e p.name p.type) (inside.named "param") ps := by
  induction inside with
  | nil => exact .ok .nil
  | node tag inner after _ ih =>
    unfold parameters Forest.named
    split
    · refine (parameter_declares owner tag inner).bind fun p hp => ?_
      exact ih.bind fun later hl => .pure (.cons hp hl)
    · exact ih.bind fun later hl => .pure hl

theorem methodHeader_declares (owner : String) (tag : Tag) :
    Ensures (methodHeader keys owner tag) fun m => ∃ as, attributes tag = .ok as ∧
      value? "name" as = some m.name ∧
        Refers keys.get? ((value? "returns" as).filter (· ≠ "void")) m.result := by
  refine (draft_values "method" "returns" (by decide) (by decide) (by decide) tag).bind
    fun d ⟨as, has, hn, ht⟩ => ?_
  refine (required_eq _ _ _).bind fun name hname => ?_
  have hvalue : value? "name" as = some name := hn ▸ (Option.filter_eq_some_iff.mp hname).1
  rw [ht]
  dsimp only
  split
  · rename_i hr
    exact .pure ⟨as, has, hvalue, by rw [Refers, hr]; rfl⟩
  · rename_i key hr
    refine (resolve_find key _).bind fun t hfind => .pure ⟨as, has, hvalue, ?_⟩
    rw [Refers, hr, Option.map_some, Option.map_some, hfind]

/-- What a list of members gains from the elements of its kind. -/
def Gains {α : Type} (R : Tag × Forest → α → Prop) (kind : String) (inside : Forest)
    (before after : List α) : Prop :=
  ∃ new, after = before ++ new ∧ List.Forall₂ R (inside.named kind) new

section Gains

variable {α : Type} {R : Tag × Forest → α → Prop} {kind : String} {l l' : List α}

theorem Gains.nil : Gains R kind .nil l l :=
  ⟨[], by simp, .nil⟩

theorem Gains.cons {a : α} (h : Gains R kind after (l ++ [a]) l') (htag : tag.name = kind)
    (ha : R (tag, inside) a) : Gains R kind (.node tag inside after) l l' := by
  obtain ⟨new, rfl, hnew⟩ := h
  exact ⟨a :: new, by simp, by simpa [Forest.named, htag] using ⟨ha, hnew⟩⟩

theorem Gains.skip (h : Gains R kind after l l') (htag : tag.name ≠ kind) :
    Gains R kind (.node tag inside after) l l' := by
  obtain ⟨new, rfl, hnew⟩ := h
  exact ⟨new, rfl, by simpa [Forest.named, htag] using hnew⟩

end Gains

/-- What a type gains from the elements inside its own. -/
structure GainsMembers (find : String → Option TypeId) (inside : Forest) (t t' : TypeInfo) :
    Prop where
  header : t' = { t with
    fields := t'.fields, properties := t'.properties, methods := t'.methods,
    constructors := t'.constructors }
  fields : Gains (fun e f => Declares find e f.name f.type) "field" inside t.fields t'.fields
  properties : Gains (fun e p => Declares find e p.name p.type) "property" inside t.properties
    t'.properties
  methods : Gains (DeclaresMethod find) "method" inside t.methods t'.methods
  constructors : Gains (fun e k => HasParameters find e k.parameters) "constructor" inside
    t.constructors t'.constructors

/-- A member is gained before those that come after it. -/
theorem member_gains (key : String) (t : TypeInfo) (tag : Tag) (inside after : Forest) :
    Ensures (member keys key t tag inside) fun t₁ => ∀ t', GainsMembers keys.get? after t₁ t' →
      GainsMembers keys.get? (.node tag inside after) t t' := by
  unfold member
  split
  · rename_i htag
    refine (field_declares key tag inside).bind fun f hf => .pure fun t' h => ?_
    exact ⟨h.header, h.fields.cons htag hf, h.properties.skip (by simp [htag]),
      h.methods.skip (by simp [htag]), h.constructors.skip (by simp [htag])⟩
  · rename_i htag
    refine (propertyHeader_declares key tag inside).bind fun p hp => ?_
    refine (accessors_keep p inside).bind fun q hq => .pure fun t' h => ?_
    exact ⟨h.header, h.fields.skip (by simp [htag]), h.properties.cons htag (hq.1 ▸ hq.2 ▸ hp),
      h.methods.skip (by simp [htag]), h.constructors.skip (by simp [htag])⟩
  · rename_i htag
    refine (methodHeader_declares key tag).bind fun m hm => ?_
    refine (parameters_declare _ inside).bind fun ps hps => .pure fun t' h => ?_
    exact ⟨h.header, h.fields.skip (by simp [htag]), h.properties.skip (by simp [htag]),
      h.methods.cons htag ⟨hm, hps⟩, h.constructors.skip (by simp [htag])⟩
  · rename_i htag
    refine .after fun k => ?_
    refine (parameters_declare _ inside).bind fun ps hps => .pure fun t' h => ?_
    exact ⟨h.header, h.fields.skip (by simp [htag]), h.properties.skip (by simp [htag]),
      h.methods.skip (by simp [htag]), h.constructors.cons htag hps⟩
  · exact .error _
  · rename_i hfield hproperty hmethod hconstructor _
    refine .ok fun t' h => ?_
    exact ⟨h.header, h.fields.skip hfield, h.properties.skip hproperty,
      h.methods.skip hmethod, h.constructors.skip hconstructor⟩

theorem members_gain (key : String) (t : TypeInfo) (inside : Forest) :
    Ensures (members keys key t inside) fun t' => GainsMembers keys.get? inside t t' := by
  induction inside generalizing t with
  | nil => exact .ok ⟨rfl, .nil, .nil, .nil, .nil⟩
  | node tag inner after _ ih =>
    exact (member_gains key t tag inner after).bind fun t₁ h => (ih t₁).mono h

/-- Each attribute of a type sets its own part of the header. -/
theorem addTypeAttribute_header (key : String) {as : List Attribute} {t : TypeInfo}
    (h : HasHeader keys.get? as t) (a : Attribute) :
    Ensures (addTypeAttribute keys key t a) (HasHeader keys.get? (as ++ [a])) := by
  have hresolve : Ensures (keys.resolve a.value key) fun u =>
      Refers keys.get? (some a.value) (some u) :=
    (resolve_find _ _).mono fun u hu => congrArg some hu.symm
  obtain ⟨hname, hspace, henclosing, hdefinition, harguments, helement, hbase⟩ := h
  unfold addTypeAttribute
  split
  · exact .ok (by constructor <;> simp [value?_concat, *])
  · exact .ok (by constructor <;> simp [value?_concat, *])
  · exact hresolve.bind fun u hu => .pure (by constructor <;> simp [value?_concat, *])
  · exact hresolve.bind fun u hu => .pure (by constructor <;> simp [value?_concat, *])
  · refine (Ensures.mapM_map fun _ _ => resolve_find _ key).bind fun us hus => .pure ?_
    constructor <;> simp [value?_concat, *]
  · exact hresolve.bind fun u hu => .pure (by constructor <;> simp [value?_concat, *])
  · exact hresolve.bind fun u hu => .pure (by constructor <;> simp [value?_concat, *])
  · have hother {name : String} (ha : a.name ≠ name) :
        value? name (as ++ [a]) = value? name as := by
      rw [value?_concat, if_neg ha]
    refine .ok ⟨?_, ?_, ?_, ?_, ?_, ?_, ?_⟩
    all_goals
      rw [hother (by assumption)]
      assumption

/-- A type whose members have not been read. -/
def IsBare (t : TypeInfo) : Prop :=
  t.fields = [] ∧ t.properties = [] ∧ t.methods = [] ∧ t.constructors = []

theorem addTypeAttribute_bare (key : String) {t : TypeInfo} (h : IsBare t) (a : Attribute) :
    Ensures (addTypeAttribute keys key t a) IsBare := by
  unfold addTypeAttribute
  split
  · exact .ok h
  · exact .ok h
  · exact .after fun _ => .pure h
  · exact .after fun _ => .pure h
  · exact .after fun _ => .pure h
  · exact .after fun _ => .pure h
  · exact .after fun _ => .pure h
  · exact .ok h

theorem typeHeader_header (tag : Tag) : Ensures (typeHeader keys tag) fun e =>
    IsBare e.info ∧ ∃ as, attributes tag = .ok as ∧ typeKey as = .ok e.key ∧
      (value? "name" as).isSome ∧ HasHeader keys.get? as e.info := by
  refine (Ensures.self _).bind fun as has => ?_
  intro e he
  obtain ⟨key, hkey, he⟩ := bind_eq_ok.mp he
  obtain ⟨info, hinfo, he⟩ := bind_eq_ok.mp he
  obtain ⟨name, hname, he⟩ := bind_eq_ok.mp he
  obtain rfl := Except.ok.inj he
  have hheader : Ensures (as.foldlM (addTypeAttribute keys key) { name := "" })
      (HasHeader keys.get? as) :=
    Ensures.foldlM_prefix (I := HasHeader keys.get?)
      (fun _ a _ ht => addTypeAttribute_header key ht a) ⟨rfl, rfl, rfl, rfl, rfl, rfl, rfl⟩
  have hbare : Ensures (as.foldlM (addTypeAttribute keys key) { name := "" }) IsBare :=
    Ensures.foldlM (fun a _ _ ht => addTypeAttribute_bare key ht a) ⟨rfl, rfl, rfl, rfl⟩
  exact ⟨hbare info hinfo, as, has, hkey, by simp [required_eq _ _ _ name hname],
    hheader info hinfo⟩

/-- Without a key of its own a type goes by the full name that its header comes to. -/
theorem key_eq_fullName {find : String → Option TypeId} {as : List Attribute} (entry : Entry)
    (hkey : typeKey as = .ok entry.key) (h : HasHeader find as entry.info)
    (hnone : value? "key" as = none) : entry.key = entry.info.fullName := by
  unfold typeKey at hkey
  rw [hnone] at hkey
  cases hn : value? "name" as with
  | none => simp [hn] at hkey
  | some name =>
    simp only [hn, Except.ok.injEq] at hkey
    rw [← hkey, TypeInfo.fullName, TypeInfo.fullName, TypeInfo.properNamespace,
      TypeInfo.properNamespace, h.name, h.namespaceName, hn]
    rfl

theorem typeEntry_declares (tag : Tag) (inside : Forest) :
    Ensures (typeEntry keys tag inside) (DeclaresType keys.get? (tag, inside)) := by
  refine (typeHeader_header tag).bind fun e ⟨⟨hfs, hps, hms, hks⟩, as, has, hkey, hname, h⟩ => ?_
  refine (members_gain e.key e.info inside).bind fun info hgain => .pure ⟨⟨as, has, hkey⟩, ?_, ?_⟩
  · have hheader : HasHeader keys.get? as info := by
      rw [hgain.header]
      exact { h with }
    exact ⟨as, has, key_eq_fullName ⟨e.key, info⟩ hkey hheader, hname, hheader⟩
  · obtain ⟨-, ⟨fs, hf, hfs'⟩, ⟨ps, hp, hps'⟩, ⟨ms, hm, hms'⟩, ⟨ks, hk, hks'⟩⟩ := hgain
    rw [hfs, List.nil_append] at hf
    rw [hps, List.nil_append] at hp
    rw [hms, List.nil_append] at hm
    rw [hks, List.nil_append] at hk
    exact ⟨hf ▸ hfs', hp ▸ hps', hm ▸ hms', hk ▸ hks'⟩

/-- An element has one key. -/
theorem hasKey_rightUnique : Relator.RightUnique HasKey := by
  rintro e key key' ⟨as, has, hkey⟩ ⟨as', has', hkey'⟩
  obtain rfl := Except.ok.inj (has.symm.trans has')
  exact Except.ok.inj (hkey.symm.trans hkey')

/-- The elements of types in document order, wherever they stand. -/
def typeElements (f : Forest) : List (Tag × Forest) :=
  f.elements.filter (·.1.name = "type")

theorem typeElements_of_type (htag : tag.name = "type") :
    typeElements (.node tag inside after) =
      (tag, inside) :: (typeElements inside ++ typeElements after) := by
  simp [typeElements, Forest.elements, htag]

theorem typeElements_of_ne (htag : tag.name ≠ "type") :
    typeElements (.node tag inside after) = typeElements inside ++ typeElements after := by
  simp [typeElements, Forest.elements, htag]

theorem declaredKey_type (parent : Option String) (tag : Tag) (inside : Forest) :
    Ensures (declaredKey parent tag) fun own => List.Forall₂ HasKey
      (if tag.name = "type" then [(tag, inside)] else []) own := by
  unfold declaredKey
  split
  · refine .after fun _ => (Ensures.self _).bind fun as has => ?_
    exact (Ensures.self _).bind fun key hkey => .pure (.cons ⟨as, has, hkey⟩ .nil)
  · exact .ok .nil

/-- The first pass reads the key of every type element. -/
theorem declaredKeys_type (parent : Option String) (f : Forest) :
    Ensures (declaredKeys parent f) (List.Forall₂ HasKey (typeElements f)) := by
  induction f generalizing parent with
  | nil => exact .ok .nil
  | node tag inside after ihi iha =>
    have hnode : typeElements (.node tag inside after) =
        (if tag.name = "type" then [(tag, inside)] else []) ++ typeElements inside ++
          typeElements after := by
      split
      · simp [typeElements_of_type ‹_›]
      · simp [typeElements_of_ne ‹_›]
    refine (declaredKey_type parent tag inside).bind fun own hown => ?_
    refine (ihi _).bind fun inner hinner => (iha _).bind fun later hlater => .pure ?_
    rw [hnode]
    exact List.rel_append (List.rel_append hown hinner) hlater

/-- The types of a catalog are declared by some of the elements, in order. -/
def ReadFrom (keys : KeyTable) (es : List (Tag × Forest)) (found : Option Catalog) : Prop :=
  ∀ c ∈ found, ∃ es', es'.Sublist es ∧
    List.Forall₂ (DeclaresType keys.get?) es' c.entries.toList

section ReadFrom

variable {es : List (Tag × Forest)} {found : Option Catalog}

theorem ReadFrom.append (h : ReadFrom keys es found) (more : List (Tag × Forest)) :
    ReadFrom keys (es ++ more) found := by
  intro c hc
  obtain ⟨es', hsub, hes⟩ := h c hc
  exact ⟨es', hsub.trans (List.sublist_append_left es more), hes⟩

theorem ReadFrom.insert {c : Catalog} {e : Tag × Forest} {entry : Entry}
    (h : ReadFrom keys es (some c)) (he : DeclaresType keys.get? e entry) :
    ReadFrom keys (es ++ [e]) (some (c.insert entry.key entry.info)) := by
  rintro _ ⟨⟩
  obtain ⟨es', hsub, hes⟩ := h c rfl
  refine ⟨es' ++ [e], hsub.append_right [e], ?_⟩
  rw [Catalog.insert, Array.toList_push]
  exact List.rel_append hes (.cons he .nil)

theorem emptyCatalog_readFrom (tag : Tag) :
    Ensures (emptyCatalog tag) fun c => ReadFrom keys es (some c) := by
  refine .after fun _ => .pure ?_
  rintro _ ⟨⟩
  exact ⟨[], List.nil_sublist es, .nil⟩

/--
The second walk passes over what is inside members and starts over at a further catalog, but it
comes to no element twice and to none before its turn.
-/
theorem catalogFrom_readFrom (forest : Forest) (h : ReadFrom keys es found) :
    Ensures (catalogFrom keys found forest) (ReadFrom keys (es ++ typeElements forest)) := by
  induction forest generalizing found es with
  | nil => exact .ok (h.append [])
  | node tag inside after ihi iha =>
    rw [catalogFrom]
    split
    · rename_i htag
      rw [typeElements_of_ne (by simp [htag]), ← List.append_assoc]
      exact (emptyCatalog_readFrom tag).bind fun c hc => (ihi hc).bind fun found' h' => iha h'
    · split
      · rename_i htag
        rw [typeElements_of_type htag, List.append_cons, ← List.append_assoc]
        refine (openCatalog_eq found).bind fun c hopen => ?_
        exact (typeEntry_declares tag inside).bind fun entry he =>
          iha (((hopen ▸ h).insert he).append (typeElements inside))
      · rename_i htag
        rw [typeElements_of_ne htag, ← List.append_assoc]
        exact (ihi h).bind fun found' h' => iha h'

end ReadFrom

end Reader

namespace Catalog

open Reader

variable {c : Catalog}

/--
An accepted document has a type for each type element, in document order and wherever the elements
stand. Types have distinct keys, those that their elements give, and every reference leads to the
type under the key that an attribute spells.
-/
theorem parse_traced (text : String) (h : parse text = .ok c) :
    (typeElements (read text).content).map Prod.fst =
        ((tokens text).filterMap Token.tag?).filter (·.name = "type") ∧
      List.Forall₂ (DeclaresType c.find?) (typeElements (read text).content) c.entries.toList ∧
      c.keys.Nodup ∧ (∀ id key, c.find? key = some id ↔ c.key? id = some key) ∧ c.IsClosed := by
  obtain ⟨keys, hkeys, hfault, hnodup, hfound, hsize⟩ := parse_eq_ok_iff.mp h
  have hdeclared := declaredKeys_type none _ keys hkeys
  have hread :
      ReadFrom (.ofKeys TypeId.mk keys) ([] ++ typeElements (read text).content) (some c) :=
    catalogFrom_readFrom _ (by simp [ReadFrom]) _ hfound
  obtain ⟨es, hsub, hes⟩ := hread c rfl
  -- there are as many types as keys, so no element has been left out
  obtain rfl := hsub.eq_of_length (hes.length_eq.trans (hsize.trans hdeclared.length_eq.symm))
  have hkeys' : List.Forall₂ HasKey (typeElements (read text).content) c.keys :=
    List.forall₂_map_right_iff.mpr (hes.imp fun _ _ h => h.key)
  obtain rfl : c.keys = keys := hasKey_rightUnique.forall₂ hkeys' hdeclared
  have hfind : c.find? = (Index.ofKeys TypeId.mk c.keys).get? := by
    rw [keys, ← c.bindings_eq]
    rfl
  refine ⟨?_, hfind ▸ hes, hnodup, fun id key => find?_eq_some_iff hnodup,
    parse_isClosed text c h⟩
  rw [← elements_read hfault, List.filter_map]
  rfl

/-- Catalogs side by side and inside one another, one of them inside a field; two types in all. -/
def scatteredText : String :=
  "<all><typeCatalog/><typeCatalog><typeCatalog><type namespace=\"N\" name=\"A\" base=\"b\">" ++
    "<field name=\"f\" type=\"N.A\"><typeCatalog/></field></type><note/>" ++
    "<type key=\"b\" name=\"B\"/></typeCatalog></typeCatalog></all>"

/-- The catalog of that text. -/
def scattered : Catalog where
  entries := #[
    ⟨"N.A", {
      name := "A", namespaceName := some "N", base := some ⟨1⟩,
      fields := [{ name := "f", type := ⟨0⟩ }] }⟩,
    ⟨"b", { name := "B" }⟩]

theorem parse_scattered : parse scatteredText = .ok scattered := by
  decide +kernel

theorem scattered_traced :
    parse scatteredText = .ok scattered ∧
      List.Forall₂ (DeclaresType scattered.find?) (typeElements (read scatteredText).content)
        scattered.entries.toList ∧
      scattered.keys.Nodup :=
  have ⟨_, hdeclared, hnodup, _⟩ := parse_traced scatteredText parse_scattered
  ⟨parse_scattered, hdeclared, hnodup⟩

end Catalog

end TypeDocs
