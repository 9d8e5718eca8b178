import TypeDocs.Proofs.Collecting
import TypeDocs.Proofs.Emitting

namespace TypeDocs

open Recording Documenting Operation

namespace Document

/-- The text opens with the declaration of that class. -/
def Opens (className : String) (baseName : Option String) (d : Document) : Prop :=
  ∃ lines, d.text = renderLines (.note "@meta" :: classNote className baseName :: lines)

theorem Opens.isPrefixOf {className : String} {baseName : Option String} {d : Document}
    (h : d.Opens className baseName) : ((Line.note "@meta").render.toList ++
      (classNote className baseName).render.toList).isPrefixOf d.text.toList = true := by
  obtain ⟨lines, h⟩ := h
  rw [List.isPrefixOf_iff_prefix, h]
  exact ⟨(renderLines lines).toList, by simp [renderLines, String.toList_join]⟩

/-- The document declares the base that the catalog gives its type, wrapper or not. -/
def DeclaresOwn (c : Catalog) (d : Document) : Prop :=
  ∃ info name baseName, c.get? d.type = some info ∧ c.IsNamed d.type name ∧
    Option.Rel c.IsNamed info.base baseName ∧ d.Opens name baseName

/-- Whatever the members and the table, a document that is composed opens with its own base. -/
theorem IsComposed.declaresOwn {c : Catalog} {settings : Settings} {table : Option (List String)}
    {d : Document} (h : d.IsComposed c settings table) : d.DeclaresOwn c := by
  obtain ⟨info, baseName, path, type, hi, hbase, -, -, htext⟩ := h.text
  exact ⟨info, d.className, baseName, hi, h.className, hbase, _, htext⟩

end Document

namespace Session

variable {c : Catalog} {s : Session} {id : TypeId} {name : String}

/-- What the session calls a type. -/
def Calls (c : Catalog) (s : Session) (id : TypeId) (name : String) : Prop :=
  s.Answers (Recording.qualifiedName c id) name

/-- The document opens with its class and that base, both named as the session names them. -/
def Declares (c : Catalog) (s : Session) (d : Document) (base : Option TypeId) : Prop :=
  ∃ name baseName, s.Calls c d.type name ∧ Option.Rel (s.Calls c) base baseName ∧
    d.Opens name baseName

theorem IsSound.calls (hs : s.IsSound c) (hc : c.IsRegular) (h : c.IsNamed id name) :
    s.Calls c id name := by
  obtain ⟨shape, hshape, hname⟩ := h
  exact hs.answers (qualifiedName_meets hc hshape hname)

theorem IsSound.declares (hs : s.IsSound c) (hc : c.IsRegular) {d : Document}
    (hd : d.DeclaresOwn c) : ∃ info, c.get? d.type = some info ∧ s.Declares c d info.base := by
  obtain ⟨info, name, baseName, hi, hname, hbase, hopens⟩ := hd
  refine ⟨info, hi, name, baseName, hs.calls hc hname, ?_, hopens⟩
  generalize info.base = base at hbase ⊢
  cases hbase with
  | none => exact .none
  | some h => exact .some (hs.calls hc h)

/-- A recorded link goes to the base of the type behind. -/
theorem IsSound.base_eq_some (hs : s.IsSound c) {base : Option TypeId}
    (h : s.registry.base? id = some base) : c.resolvedBase id = .ok base := by
  rw [hs.registry.indexed.base_eq_some_iff] at h
  exact (hs.registry.settled _ h).base

end Session

namespace Catalog

variable {c : Catalog} {id : TypeId} {info : TypeInfo} {shape : Shape}

/-- The two bases can differ for nullable wrappers only. -/
theorem resolvedBase_of_not_nullable (hi : c.get? id = some info) (hs : c.shape id = .ok shape)
    (h : ∀ payload, shape ≠ .nullable payload) : c.resolvedBase id = .ok info.base := by
  have hself : shape.resolve id = id := by
    cases shape with
    | nullable payload => exact absurd rfl (h payload)
    | _ => rfl
  simp [resolvedBase, hs, hself, lookup_eq_ok.mpr hi]

end Catalog

namespace Session

variable {c : Catalog}

/--
After any operations, a document declares the base that the catalog gives its type, and the link of
this type, if there is one, goes to the base of the type behind it. So document and link agree for
every type that is no nullable wrapper, and for wrappers that have the base of what they hold.
-/
theorem declared_base (hc : c.IsRegular) (settings : Settings) (ops : List Operation)
    (hops : ∀ op ∈ ops, ∀ t ∈ op.types, t ∈ c.ids) :
    ∃ s, (performAll c ops).run { settings } = .ok ((), s) ∧
      ∀ d ∈ s.documents.toList, ∃ info shape, c.get? d.type = some info ∧
        c.shape d.type = .ok shape ∧ s.Declares c d info.base ∧
        ∀ base, s.registry.base? d.type = some base → c.resolvedBase d.type = .ok base ∧
          ((∀ payload, shape = .nullable payload → c.resolvedBase d.type = .ok info.base) →
            s.Declares c d base) := by
  obtain ⟨⟨⟨⟩, s⟩, hs, hcont⟩ := performAll_yields hc ops hops (isSound_empty settings)
  obtain ⟨hholds, -⟩ := performAll_upholds ops
    (fun _ _ => Document.composes fun _ _ hd => hd.declaresOwn)
    { settings } holds_empty _ hs
  have hsound : s.IsSound c := hcont.sound
  refine ⟨s, hs, fun d hd => ?_⟩
  obtain ⟨info, hi, hown⟩ := hsound.declares hc (hholds.documents d hd)
  obtain ⟨shape, hshape, -⟩ := hc.closed.shape_yields (Catalog.mem_ids_of_get hi)
  refine ⟨info, shape, hi, hshape, hown, fun base hbase => ?_⟩
  have hlink := hsound.base_eq_some hbase
  refine ⟨hlink, fun hwrapper => ?_⟩
  have hsame : c.resolvedBase d.type = .ok info.base := by
    by_cases hn : ∃ payload, shape = .nullable payload
    · obtain ⟨payload, hpayload⟩ := hn
      exact hwrapper payload hpayload
    · exact Catalog.resolvedBase_of_not_nullable hi hshape fun payload h => hn ⟨payload, h⟩
  rwa [← Except.ok.inj (hsame.symm.trans hlink)]

/-- An enumeration and the wrapper of it, which is a value type of its own. -/
def colors : Catalog where
  entries := #[⟨"Nullable", { name := "Nullable`1", namespaceName := some "System" }⟩,
    ⟨"ValueType", { name := "ValueType", namespaceName := some "System" }⟩,
    ⟨"Enum", { name := "Enum", namespaceName := some "System", base := some ⟨1⟩ }⟩,
    ⟨"Color", { name := "Color", namespaceName := some "Game", base := some ⟨2⟩ }⟩,
    ⟨"Color?",
      { name := "Nullable`1", namespaceName := some "System", definition := some ⟨0⟩,
        arguments := [⟨3⟩], base := some ⟨1⟩ }⟩]

theorem colors_isRegular : colors.IsRegular :=
  Catalog.isRegular_of_earlier (by decide +kernel)

/-- Both are documented under one name, and both are linked to the base of the enumeration. -/
theorem colors_declared_base :
    ∃ s d e, (performAll colors [.collect ⟨4⟩, .generate ⟨4⟩, .collect ⟨3⟩, .generate ⟨3⟩]).run {} =
        .ok ((), s) ∧
      s.documents.toList = [d, e] ∧ d.className = e.className ∧
      d.type = ⟨4⟩ ∧ s.registry.base? ⟨4⟩ = some (some ⟨2⟩) ∧ s.Declares colors d (some ⟨1⟩) ∧
      e.type = ⟨3⟩ ∧ s.registry.base? ⟨3⟩ = some (some ⟨2⟩) ∧ s.Declares colors e (some ⟨2⟩) := by
  obtain ⟨s, hs, hall⟩ := declared_base colors_isRegular {}
    [.collect ⟨4⟩, .generate ⟨4⟩, .collect ⟨3⟩, .generate ⟨3⟩] (by decide +kernel)
  have hdocs : s.documents.toList.map (fun d => (d.type, d.className)) =
      [(⟨4⟩, "Game.Color"), (⟨3⟩, "Game.Color")] :=
    eq_of_map_eq_ok hs (f := fun out => out.2.documents.toList.map _) (by decide +kernel)
  have hwrapper : s.registry.base? ⟨4⟩ = some (some ⟨2⟩) :=
    eq_of_map_eq_ok hs (f := fun out => out.2.registry.base? ⟨4⟩) (by decide +kernel)
  have hcolor : s.registry.base? ⟨3⟩ = some (some ⟨2⟩) :=
    eq_of_map_eq_ok hs (f := fun out => out.2.registry.base? ⟨3⟩) (by decide +kernel)
  obtain ⟨d, rest, hcons, hd, hrest⟩ := List.map_eq_cons_iff.mp hdocs
  obtain ⟨e, rest, rfl, he, hnil⟩ := List.map_eq_cons_iff.mp hrest
  obtain rfl := List.map_eq_nil_iff.mp hnil
  obtain ⟨htype, hname⟩ := Prod.mk.inj hd
  obtain ⟨htype', hname'⟩ := Prod.mk.inj he
  obtain ⟨info, -, hi, -, hown, -⟩ := hall d (by simp [hcons])
  obtain ⟨info', shape, -, hs', -, hlink⟩ := hall e (by simp [hcons])
  rw [htype] at hi
  rw [htype'] at hs' hlink
  obtain rfl := Option.some.inj hi
  refine ⟨s, d, e, hs, hcons, hname.trans hname'.symm, htype, hwrapper, hown, htype', hcolor, ?_⟩
  have hplain : colors.shape ⟨3⟩ = .ok .plain := by decide +kernel
  obtain rfl := Except.ok.inj (hs'.symm.trans hplain)
  exact (hlink (some ⟨2⟩) hcolor).2 (by simp)

/-- A document need not declare the base that its type is linked to. -/
theorem exists_declared_base_not_linked : ¬ ∀ (c : Catalog), c.IsRegular →
    ∀ (settings : Settings) (ops : List Operation), (∀ op ∈ ops, ∀ t ∈ op.types, t ∈ c.ids) →
      ∃ s, (performAll c ops).run { settings } = .ok ((), s) ∧
        ∀ d ∈ s.documents.toList, ∀ base, s.registry.base? d.type = some base →
          s.Declares c d base := by
  intro h
  obtain ⟨s, hs, hall⟩ := h colors colors_isRegular {} [.collect ⟨4⟩, .generate ⟨4⟩]
    (by decide +kernel)
  have hdocs : s.documents.toList = [⟨⟨4⟩, "Game.Color",
      "---@meta\n---@class Game.Color : System.ValueType\n_G['Game']['Color'] = \x7b\x7d\n\n"⟩] :=
    eq_of_map_eq_ok hs (f := fun out => out.2.documents.toList) (by decide +kernel)
  have hlink : s.registry.base? ⟨4⟩ = some (some ⟨2⟩) :=
    eq_of_map_eq_ok hs (f := fun out => out.2.registry.base? ⟨4⟩) (by decide +kernel)
  have hcont : Continues colors {} s :=
    (performAll_yields colors_isRegular _ (by decide +kernel) (isSound_empty {})).of_eq_ok hs
  have hsound : s.IsSound colors := hcont.sound
  have hcolor : s.Calls colors ⟨4⟩ "Game.Color" := hsound.calls colors_isRegular
    ⟨.nullable ⟨3⟩, by decide +kernel, by decide +kernel⟩
  have henum : s.Calls colors ⟨2⟩ "System.Enum" := hsound.calls colors_isRegular
    ⟨.plain, by decide +kernel, by decide +kernel⟩
  rw [hdocs] at hall
  obtain ⟨name, baseName, hname, hbase, hopens⟩ := hall _ List.mem_cons_self (some ⟨2⟩) hlink
  obtain rfl := Answers.unique hname hcolor
  cases hbase with
  | some hbase =>
    obtain rfl := Answers.unique hbase henum
    exact absurd hopens.isPrefixOf (by decide +kernel)

end Session

end TypeDocs
