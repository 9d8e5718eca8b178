import TypeDocs.Proofs.Emitting

namespace TypeDocs

/-- The types that a type refers to, its members left out. -/
def TypeInfo.headerTypes (t : TypeInfo) : List TypeId :=
  t.enclosing.toList ++ t.definition.toList ++ t.arguments ++ t.element.toList ++ t.base.toList

/-- The types that the members of a type refer to. -/
def TypeInfo.memberTypes (t : TypeInfo) : List TypeId :=
  t.fields.map Field.type ++ t.properties.map Property.type ++
    t.methods.flatMap Method.types ++ t.constructors.flatMap Constructor.types

theorem TypeInfo.references_eq (t : TypeInfo) :
    t.references = t.headerTypes ++ t.memberTypes := by
  simp only [references, headerTypes, memberTypes, List.append_assoc]

namespace Catalog

open Relation

variable {c : Catalog} {id : TypeId} {info : TypeInfo}

/-- Bases and parts of the name settle in the catalog, and the definition has been looked up. -/
theorem IsSound.header (h : c.IsSound id info) (hi : c.get? id = some info) :
    ∀ t ∈ info.headerTypes, t ∈ c.ids := by
  have hname (t : TypeId) (ht : c.NamePart id t) : t ∈ c.ids := (h.name.step ht).mem
  simp only [TypeInfo.headerTypes, List.forall_mem_append, Option.mem_toList]
  refine ⟨⟨⟨⟨?_, ?_⟩, ?_⟩, ?_⟩, ?_⟩
  · exact fun t ht => hname t ⟨info, hi, .inr (.inr ht)⟩
  · intro d hd
    obtain ⟨generic, hg, -⟩ := h.definition d hd
    exact mem_ids_of_get hg
  · exact fun t ht => hname t ⟨info, hi, .inl ht⟩
  · exact fun t ht => hname t ⟨info, hi, .inr (.inl ht)⟩
  · exact fun t ht => (h.base.step ⟨info, hi, ht⟩).mem

/-- So a valid catalog is closed when its members are. -/
theorem isClosed_of_members (h : c.validate = .ok ())
    (hm : ∀ id info, c.get? id = some info → ∀ t ∈ info.memberTypes, t ∈ c.ids) :
    c.IsClosed := by
  intro id info hi
  rw [TypeInfo.references_eq, List.forall_mem_append]
  exact ⟨(isSound_of_validate h hi).header hi, hm id info hi⟩

open Session Operation

/--
In a valid catalog no header refers to a missing type. If no member does either, then every sequence
of operations on its types succeeds; and whatever the members refer to, a type gets a document only
where all that the document shows is there.
-/
theorem validate_references (h : c.validate = .ok ()) :
    (∀ id info, c.get? id = some info → ∀ t ∈ info.headerTypes, t ∈ c.ids) ∧
      ((∀ id info, c.get? id = some info → ∀ t ∈ info.memberTypes, t ∈ c.ids) →
        ∀ settings ops, (∀ op ∈ ops, ∀ t ∈ Operation.types op, t ∈ c.ids) →
          ∃ s, (performAll c ops).run { settings } = .ok ((), s)) ∧
      ∀ settings ops s, (performAll c ops).run { settings } = .ok ((), s) →
        ∀ id ∈ s.documented, ∀ t, c.Shows settings id t → t ∈ c.ids := by
  refine ⟨fun id info hi => (isSound_of_validate h hi).header hi, ?_, ?_⟩
  · intro hm settings ops hops
    have hc : c.IsRegular := isRegular_of_validate (isClosed_of_members h hm) h
    obtain ⟨⟨⟨⟩, s⟩, hs, -⟩ := performAll_yields hc ops hops (isSound_empty settings)
    exact ⟨s, hs⟩
  · intro settings ops s hs id hid t ht
    let D : Document → Prop := fun d => ∃ table, d.IsComposed c settings table
    have hcomposes (table : Option (List String)) (id : TypeId) :
        Document.Composes c settings D table id :=
      Document.composes fun _ _ hd => ⟨table, hd⟩
    obtain ⟨hheld, -⟩ := performAll_upholds ops hcomposes { settings } holds_empty ((), s) hs
    obtain ⟨d, hd, rfl⟩ := List.mem_map.mp hid
    obtain ⟨table, hcomposed⟩ := hheld.documents d hd
    exact hcomposed.mem_ids_of_shows ht

/-- A class with a field of a type that is not there. -/
def loose : Catalog where
  entries := #[⟨"Node", { name := "Node", fields := [{ name := "next", type := ⟨1⟩ }] }⟩]

/-- The class is valid, and no run documents it. -/
theorem loose_references : loose.validate = .ok () ∧
    ∀ ops s, (performAll loose ops).run {} = .ok ((), s) → ⟨0⟩ ∉ s.documented := by
  have hvalid : loose.validate = .ok () := by decide +kernel
  obtain ⟨-, -, hshown⟩ := validate_references hvalid
  refine ⟨hvalid, fun ops s hs hmem => ?_⟩
  have hfield : loose.Shows {} ⟨0⟩ ⟨1⟩ := ⟨_, rfl, by decide⟩
  have hnot : ⟨1⟩ ∉ loose.ids := by decide
  exact hnot (hshown {} ops s hs ⟨0⟩ hmem ⟨1⟩ hfield)

/-- Its field leads nowhere all the same, and generation meets it. -/
theorem validate_loose_not_closed : loose.validate = .ok () ∧ ¬ loose.IsClosed ∧
    (Documenting.generate loose ⟨0⟩).run {} = .error (.dangling ⟨1⟩) := by
  have hvalid : loose.validate = .ok () := by decide +kernel
  have hrun : (Documenting.generate loose ⟨0⟩).run {} = .error (.dangling ⟨1⟩) := by decide +kernel
  refine ⟨hvalid, fun hclosed => ?_, hrun⟩
  have hmem : ⟨1⟩ ∈ loose.ids := hclosed ⟨0⟩ _ rfl ⟨1⟩ (by decide)
  exact absurd hmem (by decide)

end Catalog

end TypeDocs
