import TypeDocs.Proofs.Elements
import TypeDocs.Proofs.Escaping
import TypeDocs.Proofs.Reading

namespace TypeDocs

namespace Markup

section Reports

variable {used : List String} {s rest : List Char} {a : RawAttribute}

theorem notMem_of_cut {mark : Char} {before after : List Char}
    (h : cut [mark] s = some (before, after)) : mark ∉ before := by
  induction s generalizing before with
  | nil => simp [cut] at h
  | cons c s ih =>
    rw [cut] at h
    split at h
    · obtain ⟨rfl, -⟩ := Prod.mk.inj (Option.some.inj h)
      exact List.not_mem_nil
    · rename_i hc
      obtain ⟨⟨b, e⟩, hcut, hp⟩ := Option.map_eq_some_iff.mp h
      obtain ⟨rfl, rfl⟩ := Prod.mk.inj hp
      rw [List.mem_cons, not_or]
      exact ⟨by simpa using hc, ih hcut⟩

/-- A value that has been read lacks the quotes it stood between, so some quotes can be written. -/
theorem RawAttribute.quote_notMem {c : Char} (hc : isQuote c = true) (h : c ∉ a.value) :
    a.quote ∉ a.value := by
  unfold RawAttribute.quote
  split
  · rename_i hdouble
    obtain rfl | rfl : c = '\x22' ∨ c = '\x27' := by simpa [isQuote] using hc
    · exact absurd hdouble h
    · exact h
  · assumption

theorem readValue_eq_ok {name : String} (h : readValue used name s = (.ok a, rest)) :
    a.name = name ∧ name ∉ used ∧ a.quote ∉ a.value := by
  unfold readValue at h
  split at h
  · simp at h
  · rename_i hused
    split at h
    · simp at h
    · split at h
      · rename_i c r _ hc
        split at h
        · simp at h
        · rename_i value after hcut
          obtain ⟨ha, -⟩ := Prod.mk.inj h
          obtain rfl := Except.ok.inj ha
          exact ⟨rfl, hused, RawAttribute.quote_notMem hc (notMem_of_cut hcut)⟩
      · simp at h

/-- What is read without a fault can be written and is not a repetition. -/
theorem isWritable_of_readAttribute (h : readAttribute used s = some (.ok a, rest)) :
    a.IsWritable ∧ a.name ∉ used := by
  unfold readAttribute at h
  split at h
  · simp at h
  · rename_i c r hr
    have hc : isBlank c = false := by
      have := List.head?_dropWhile_not isBlank s
      simpa [hr] using this
    split at h
    · obtain ⟨hname, hused, hvalue⟩ := readValue_eq_ok (Option.some.inj h)
      refine ⟨⟨⟨c, r.takeWhile isNameChar, ?_, hc, fun x hx => ?_⟩, hvalue⟩, hname ▸ hused⟩
      · rw [hname, String.toList_ofList]
      · exact List.all_eq_true.mp List.all_takeWhile x hx
    · simp at h

/-- The well-formed attributes of a text have different names, none of them taken before. -/
theorem wellFormed_attributeReports (used : List String) (s : List Char) :
    (∀ a ∈ (attributeReports used s).filterMap Except.toOption, a.IsWritable ∧ a.name ∉ used) ∧
      (((attributeReports used s).filterMap Except.toOption).map RawAttribute.name).Nodup := by
  fun_induction attributeReports used s with
  | case1 => simp
  | case2 used s report rest h ih =>
    obtain ⟨ihall, ihnodup⟩ := ih
    cases report with
    | error fault =>
      refine ⟨fun a ha => ?_, ihnodup⟩
      exact ⟨(ihall a ha).1, fun hmem => (ihall a ha).2 (List.mem_append_right _ hmem)⟩
    | ok a =>
      have hfirst : Except.toOption (.ok a : AttributeReport) = some a := rfl
      rw [List.filterMap_cons_some hfirst, List.forall_mem_cons, List.map_cons, List.nodup_cons]
      refine ⟨⟨isWritable_of_readAttribute h, fun b hb => ?_⟩, ?_, ihnodup⟩
      · exact ⟨(ihall b hb).1, fun hmem => (ihall b hb).2 (List.mem_append_right _ hmem)⟩
      · rw [List.mem_map]
        rintro ⟨b, hb, hname⟩
        exact (ihall b hb).2 (by simp [claimedName, hname])

end Reports

namespace Tag

/-- The attributes that are as the grammar has them, as they are written. -/
def wellFormed (t : Tag) : List RawAttribute :=
  t.reports.filterMap Except.toOption

/-- What is wrong with the others. -/
def faults (t : Tag) : List AttributeFault :=
  t.reports.filterMap fun
    | .ok _ => none
    | .error fault => some fault

/-- No attribute is malformed. -/
def IsIntact (t : Tag) : Prop :=
  t.faults = []

instance : DecidablePred IsIntact :=
  fun t => inferInstanceAs (Decidable (t.faults = []))

/-- The tag without its malformed attributes. -/
def mended (t : Tag) : Tag :=
  ⟨t.name, t.wellFormed.flatMap RawAttribute.write⟩

variable (t : Tag)

theorem reports_mended : t.mended.reports = t.wellFormed.map .ok := by
  obtain ⟨hall, hnodup⟩ := wellFormed_attributeReports [] t.body
  exact attributeReports_write (fun a ha => (hall a ha).1) hnodup [] (by simp)

theorem isIntact_mended : t.mended.IsIntact := by
  rw [IsIntact, faults, reports_mended, List.filterMap_map]
  exact List.filterMap_eq_nil_iff.mpr fun _ _ => rfl

theorem wellFormed_mended : t.mended.wellFormed = t.wellFormed := by
  rw [wellFormed, reports_mended, List.filterMap_map]
  exact List.filterMap_some

theorem attributes_mended : t.mended.attributes = t.attributes := by
  exact congrArg (List.mapM RawAttribute.decode) t.wellFormed_mended

end Tag

namespace Forest

/-- The same elements with other tags. -/
def retag (g : Tag → Tag) : Forest → Forest
  | .nil => .nil
  | .node tag inside after => .node (g tag) (inside.retag g) (after.retag g)

theorem elements_retag (g : Tag → Tag) (f : Forest) :
    (f.retag g).elements = f.elements.map fun e => (g e.1, e.2.retag g) := by
  induction f with
  | nil => rfl
  | node tag inside after ihi iha => simp [retag, elements, ihi, iha]

end Forest

/-- What is read of a text, without the malformed attributes. -/
def Reading.mended (r : Reading) : Reading :=
  { r with content := r.content.retag Tag.mended }

end Markup

open Markup

namespace Reader

section Retag

variable {g : Tag → Tag} {keys : KeyTable}

/-- Other tags of the same names and attributes. -/
def IsFaithful (g : Tag → Tag) : Prop :=
  ∀ t, (g t).name = t.name ∧ (g t).attributes = t.attributes

variable (hg : IsFaithful g)
include hg

theorem attributes_retag (tag : Tag) : attributes (g tag) = attributes tag :=
  congrArg (Except.mapError ReadError.reference) (hg tag).2

theorem declaredKeys_retag (parent : Option String) (f : Forest) :
    declaredKeys parent (f.retag g) = declaredKeys parent f := by
  induction f generalizing parent with
  | nil => rfl
  | node tag inside after ihi iha =>
    simp only [Forest.retag, declaredKeys, declaredKey, (hg tag).1, attributes_retag hg, ihi, iha]

theorem draft_retag (element : String) (tag : Tag) : draft element (g tag) = draft element tag := by
  simp only [draft, attributes_retag hg]

theorem field_retag (owner : String) (tag : Tag) :
    field keys owner (g tag) = field keys owner tag := by
  simp only [field, draft_retag hg]

theorem accessors_retag (p : Property) (f : Forest) : accessors p (f.retag g) = accessors p f := by
  induction f generalizing p with
  | nil => rfl
  | node tag inside after _ iha =>
    simp only [Forest.retag, accessors, addAccessor, accessor, (hg tag).1, draft_retag hg, iha]

theorem parameters_retag (owner : String) (f : Forest) :
    parameters keys owner (f.retag g) = parameters keys owner f := by
  induction f with
  | nil => rfl
  | node tag inside after _ iha =>
    simp only [Forest.retag, parameters, parameter, (hg tag).1, draft_retag hg, iha]

theorem members_retag (key : String) (t : TypeInfo) (f : Forest) :
    members keys key t (f.retag g) = members keys key t f := by
  induction f generalizing t with
  | nil => rfl
  | node tag inside after _ iha =>
    simp only [Forest.retag, members, member, propertyHeader, methodHeader, constructorHeader,
      (hg tag).1, field_retag hg, draft_retag hg, accessors_retag hg, parameters_retag hg, iha]

theorem typeEntry_retag (tag : Tag) (inside : Forest) :
    typeEntry keys (g tag) (inside.retag g) = typeEntry keys tag inside := by
  simp only [typeEntry, typeHeader, attributes_retag hg, members_retag hg]

theorem catalogFrom_retag (catalog : Option Catalog) (f : Forest) :
    catalogFrom keys catalog (f.retag g) = catalogFrom keys catalog f := by
  induction f generalizing catalog with
  | nil => rfl
  | node tag inside after ihi iha =>
    simp only [Forest.retag, catalogFrom, emptyCatalog, (hg tag).1, attributes_retag hg,
      typeEntry_retag hg, ihi, iha]

theorem ofReading_retag (r : Reading) :
    Catalog.ofReading { r with content := r.content.retag g } = Catalog.ofReading r := by
  simp only [Catalog.ofReading, declaredKeys_retag hg, catalogFrom_retag hg]

end Retag

section Understood

/-- The tags of a member whose attributes are read: its own and those of accessors or parameters. -/
def tagsOfMember (tag : Tag) (inside : Forest) : List Tag :=
  match tag.name with
  | "field" => [tag]
  | "property" => tag :: (inside.named "getter" ++ inside.named "setter").map Prod.fst
  | "method" | "constructor" => tag :: (inside.named "param").map Prod.fst
  | _ => []

/-- The tags in the element of a type whose attributes are read. -/
def memberTags : Forest → List Tag
  | .nil => []
  | .node tag inside after => tagsOfMember tag inside ++ memberTags after

/-- The tags whose attributes are read. -/
def readTags : Forest → List Tag
  | .nil => []
  | .node tag inside after =>
    if tag.name = "typeCatalog" then tag :: (readTags inside ++ readTags after)
    else if tag.name = "type" then tag :: (memberTags inside ++ readTags after)
    else readTags inside ++ readTags after

def IsUnderstood (tag : Tag) : Prop :=
  ∃ as, attributes tag = .ok as

variable {keys : KeyTable} {tag : Tag} {inside after : Forest}

/-- Attributes that have been made out keep their names. -/
theorem IsUnderstood.names (h : IsUnderstood tag) : ∃ as, attributes tag = .ok as ∧
    tag.wellFormed.map RawAttribute.name = as.map Attribute.name := by
  obtain ⟨as, has⟩ := h
  have hdecode : tag.wellFormed.mapM RawAttribute.decode = .ok as := mapError_eq_ok.mp has
  have hnames (a : RawAttribute) : Ensures a.decode fun b => a.name = b.name :=
    .after fun _ => .pure rfl
  exact ⟨as, has, Ensures.mapM_map (fun a _ => hnames a) as hdecode⟩

theorem attributes_understood : Ensures (attributes tag) fun _ => IsUnderstood tag :=
  fun as has => ⟨as, has⟩

theorem draft_understood (element : String) (tag : Tag) :
    Ensures (draft element tag) fun _ => IsUnderstood tag :=
  attributes_understood.first

theorem accessors_understood (p : Property) (inside : Forest) :
    Ensures (accessors p inside) fun _ => (∀ e ∈ inside.named "getter", IsUnderstood e.1) ∧
      ∀ e ∈ inside.named "setter", IsUnderstood e.1 := by
  induction inside generalizing p with
  | nil => exact .ok ⟨List.forall_mem_nil _, List.forall_mem_nil _⟩
  | node tag inner after _ ih =>
    unfold accessors addAccessor Forest.named
    split
    · rename_i htag
      refine (draft_understood _ tag).first.first.bind fun q ha => (ih q).mono fun _ h => ?_
      rw [if_pos htag, if_neg (by simp [htag])]
      exact ⟨List.forall_mem_cons.mpr ⟨ha, h.1⟩, h.2⟩
    · rename_i htag
      refine (draft_understood _ tag).first.first.bind fun q ha => (ih q).mono fun _ h => ?_
      rw [if_neg (by simp [htag]), if_pos htag]
      exact ⟨h.1, List.forall_mem_cons.mpr ⟨ha, h.2⟩⟩
    · rename_i hgetter hsetter
      rw [if_neg hgetter, if_neg hsetter]
      exact ih p

theorem parameters_understood (owner : String) (inside : Forest) :
    Ensures (parameters keys owner inside) fun _ =>
      ∀ e ∈ inside.named "param", IsUnderstood e.1 := by
  induction inside with
  | nil => exact .ok (List.forall_mem_nil _)
  | node tag inner after _ ih =>
    unfold parameters Forest.named
    split
    · refine (draft_understood _ tag).first.bind fun ps hp => ih.bind fun _ hl => .pure ?_
      exact List.forall_mem_cons.mpr ⟨hp, hl⟩
    · exact ih.bind fun _ hl => .pure hl

theorem member_understood (key : String) (t : TypeInfo) (tag : Tag) (inside : Forest) :
    Ensures (member keys key t tag inside) fun _ =>
      ∀ u ∈ tagsOfMember tag inside, IsUnderstood u := by
  unfold member tagsOfMember
  split
  · rename_i htag
    rw [htag]
    refine (draft_understood _ tag).first.bind fun f hf => .pure ?_
    exact List.forall_mem_singleton.mpr hf
  · rename_i htag
    rw [htag]
    refine (draft_understood _ tag).first.bind fun p hp => ?_
    refine (accessors_understood p inside).bind fun q hq => .pure ?_
    refine List.forall_mem_cons.mpr ⟨hp, ?_⟩
    rw [List.forall_mem_map, List.forall_mem_append]
    exact hq
  · rename_i htag
    rw [htag]
    refine (draft_understood _ tag).first.bind fun m hm => ?_
    refine (parameters_understood _ inside).bind fun ps hps => .pure ?_
    exact List.forall_mem_cons.mpr ⟨hm, List.forall_mem_map.mpr hps⟩
  · rename_i htag
    rw [htag]
    refine (draft_understood _ tag).first.bind fun k hk => ?_
    refine (parameters_understood _ inside).bind fun ps hps => .pure ?_
    exact List.forall_mem_cons.mpr ⟨hk, List.forall_mem_map.mpr hps⟩
  · exact .error _
  · refine .ok ?_
    split
    all_goals first | contradiction | exact List.forall_mem_nil _

theorem members_understood (key : String) (t : TypeInfo) (inside : Forest) :
    Ensures (members keys key t inside) fun _ => ∀ u ∈ memberTags inside, IsUnderstood u := by
  induction inside generalizing t with
  | nil => exact .ok (List.forall_mem_nil _)
  | node tag inner after _ ih =>
    refine (member_understood key t tag inner).bind fun t hown => (ih t).mono fun _ h => ?_
    exact List.forall_mem_append.mpr ⟨hown, h⟩

theorem typeEntry_understood (tag : Tag) (inside : Forest) : Ensures (typeEntry keys tag inside)
    fun _ => ∀ u ∈ tag :: memberTags inside, IsUnderstood u := by
  refine attributes_understood.first.bind fun e he => ?_
  refine (members_understood e.key e.info inside).bind fun info hinfo => .pure ?_
  exact List.forall_mem_cons.mpr ⟨he, hinfo⟩

theorem catalogFrom_understood (catalog : Option Catalog) (f : Forest) :
    Ensures (catalogFrom keys catalog f) fun _ => ∀ u ∈ readTags f, IsUnderstood u := by
  induction f generalizing catalog with
  | nil => exact .ok (by simp [readTags])
  | node tag inside after ihi iha =>
    rw [catalogFrom, readTags]
    split
    · refine attributes_understood.first.bind fun c hc => (ihi _).bind fun found hi => ?_
      refine (iha found).mono fun _ ha => ?_
      exact List.forall_mem_cons.mpr ⟨hc, List.forall_mem_append.mpr ⟨hi, ha⟩⟩
    · split
      · refine .after fun c => (typeEntry_understood tag inside).bind fun e he => ?_
        exact (iha _).mono fun _ ha => List.forall_mem_append.mpr ⟨he, ha⟩
      · refine (ihi catalog).bind fun found hi => (iha found).mono fun _ ha => ?_
        exact List.forall_mem_append.mpr ⟨hi, ha⟩

end Understood

end Reader

namespace Catalog

open Reader

/--
A text is read as if its malformed attributes were not there: what the tags are mended to has their
names and their well-formed attributes only. Of a text that is accepted, every tag whose attributes
are read has its well-formed ones made out, in order.
-/
theorem parse_mended (text : String) :
    parse text = ofReading (read text).mended ∧
      (∀ e ∈ (read text).mended.content.elements, e.1.IsIntact) ∧
      (∀ tag : Tag, tag.mended.name = tag.name ∧ tag.mended.reports = tag.wellFormed.map .ok) ∧
      ∀ c, parse text = .ok c → ∀ tag ∈ readTags (read text).content, ∃ as,
        attributes tag = .ok as ∧
          tag.wellFormed.map RawAttribute.name = as.map Attribute.name := by
  refine ⟨?_, ?_, fun tag => ⟨rfl, tag.reports_mended⟩, fun c h tag htag => ?_⟩
  · have hfaithful : IsFaithful Tag.mended := fun t => ⟨rfl, t.attributes_mended⟩
    rw [parse_eq]
    exact (ofReading_retag hfaithful (read text)).symm
  · rw [Reading.mended, Forest.elements_retag, List.forall_mem_map]
    exact fun e _ => e.1.isIntact_mended
  · obtain ⟨keys, -, -, -, hfound, -⟩ := parse_eq_ok_iff.mp h
    exact (catalogFrom_understood none (read text).content _ hfound tag htag).names

/-- A text with a malformed attribute of every kind. -/
def damagedText : String :=
  "<typeCatalog rootNamespace><type name=\x22A\x22 name=\x22Z\x22/><type name=\x22B\x22 base=A>" ++
    "<field name=\x22f\x22 type=\x22A\x22 static=/><method name=\x22m\x22 x\x22y=\x22z>" ++
    "<param name=\x22p\x22 type=\x27B\x27/></method></type></typeCatalog>"

/-- What is read of it: the second type has no base. -/
def damaged : Catalog where
  entries := #[⟨"A", { name := "A" }⟩,
    ⟨"B", {
      name := "B", fields := [{ name := "f", type := ⟨0⟩ }],
      methods := [{ name := "m", parameters := [{ name := "p", type := ⟨1⟩ }] }] }⟩]

theorem parse_mended_damaged : parse damagedText = .ok damaged ∧
    ofReading (read damagedText).mended = .ok damaged ∧
    (readTags (read damagedText).content).flatMap Tag.faults =
      [.missingEquals "rootNamespace", .repeated "name", .unquoted "base", .missingValue "static",
        .missingQuote "x\x22y"] ∧
    ∀ tag ∈ readTags (read damagedText).content, ∃ as, attributes tag = .ok as ∧
      tag.wellFormed.map RawAttribute.name = as.map Attribute.name := by
  have hparse : parse damagedText = .ok damaged := by decide +kernel
  obtain ⟨hmended, -, -, hread⟩ := parse_mended damagedText
  exact ⟨hparse, hmended ▸ hparse, by decide +kernel, hread damaged hparse⟩

/-- A reference that is spelled without quotes. -/
def unquotedText : String :=
  "<typeCatalog><type name=\x22A\x22/><type name=\x22B\x22 base=A/></typeCatalog>"

/-- What is read of it: neither type has a base. -/
def unquoted : Catalog where
  entries := #[⟨"A", { name := "A" }⟩, ⟨"B", { name := "B" }⟩]

/-- So a text that is accepted may have malformed attributes, and a reference may become none. -/
theorem exists_parse_malformed : ¬ ∀ text c, parse text = .ok c →
    ∀ tag ∈ readTags (read text).content, tag.IsIntact := by
  intro h
  have hparse : parse unquotedText = .ok unquoted := by decide +kernel
  have hmalformed : ¬ ∀ tag ∈ readTags (read unquotedText).content, tag.IsIntact := by
    decide +kernel
  exact hmalformed (h unquotedText unquoted hparse)

end Catalog

end TypeDocs
