import TypeDocs.Generation
import TypeDocs.Proofs.Operating

namespace TypeDocs

open Session Operation Documenting

/-- Whatever else may fail, the catalog that is documented has no defect. -/
def IsClean {α : Type} (x : Except GenerationError α) : Prop :=
  ∀ defect, x ≠ .error (.defective defect)

section Clean

variable {α β : Type}

theorem IsClean.ok (a : α) : IsClean (.ok a) := by
  rintro _ ⟨⟩

theorem IsClean.bind {x : Except GenerationError α} {f : α → Except GenerationError β}
    (hx : IsClean x) (hf : ∀ a, x = .ok a → IsClean (f a)) : IsClean (x >>= f) := by
  cases x with
  | ok a => exact hf a rfl
  | error e =>
    intro defect h
    exact hx defect (congrArg Except.error (Except.error.inj h))

theorem IsClean.mapError {ε : Type} {x : Except ε α} {g : ε → GenerationError}
    (hg : ∀ e defect, g e ≠ .defective defect) : IsClean (x.mapError g) := by
  cases x with
  | ok a => exact .ok a
  | error e =>
    intro defect h
    exact hg e defect (Except.error.inj h)

end Clean

namespace Catalog

variable {c : Catalog}

theorem mem_ids_of_root {key : String} {id : TypeId} (h : c.root key = .ok id) : id ∈ c.ids := by
  unfold root at h
  split at h
  · rename_i found hf
    obtain rfl := Except.ok.inj h
    exact mem_ids_of_find hf
  · simp at h

theorem root_isClean (key : String) : IsClean (c.root key) := by
  unfold root
  split
  · exact .ok _
  · rintro _ ⟨⟩

theorem documentRoots_isClean (hc : c.IsRegular) (keys : List String) {s : Session}
    (hs : s.IsSound c) : IsClean (c.documentRoots s keys) := by
  induction keys generalizing s with
  | nil => exact .ok s
  | cons key keys ih =>
    refine (root_isClean key).bind fun id hid => ?_
    obtain ⟨⟨b, s'⟩, hrun, -, hext⟩ := generateAt_extends hc none hs (mem_ids_of_root hid)
    rw [Documenting.generate, hrun]
    exact ih hext.sound

end Catalog

theorem generateFromText_isClean (text : String) (roots : List String) :
    IsClean (generateFromText text roots) := by
  refine (IsClean.mapError (by simp)).bind fun c hparse => ?_
  refine (IsClean.mapError (by simp)).bind fun _ hvalid => ?_
  have hc : c.IsRegular := Catalog.isRegular_of_validate
    (Catalog.parse_isClosed text c (mapError_eq_ok.mp hparse)) (mapError_eq_ok.mp hvalid)
  exact (Catalog.documentRoots_isClean hc roots (isSound_empty _)).bind fun s _ => .ok _

/--
Documents come out of a text or an error of the text or the roots does, never a defect of the
catalog that the text describes. Likewise any operations on a catalog that is read and validated
come to an end, in a state with at most one descriptor per type, from which reachable documentation
comes to an end as well.
-/
theorem generation_total (text : String) (roots : List String) :
    (∀ defect, generateFromText text roots ≠ .error (.defective defect)) ∧
      ∀ c, Catalog.parse text = .ok c → c.validate = .ok () →
        (c.size ≤ 2 ^ 32 → ∀ t ∈ c.ids, TypeId.ofIndex? t.index = some t) ∧
        ∀ settings ops, (∀ op ∈ ops, ∀ t ∈ op.types, t ∈ c.ids) →
          ∃ s, (performAll c ops).run { settings } = .ok ((), s) ∧
            s.registry.descriptors.size ≤ c.size ∧ (∀ t ∈ s.registry.types, t ∈ c.ids) ∧
            ∀ roots, (∀ t ∈ roots, t ∈ c.ids) → ∃ first s₁ later s',
              (roots.mapM (generateRoot c)).run s = .ok (first, s₁) ∧
              Drains c 0 s₁ later s' ∧
              (generateReachable c roots).run s = .ok (first.sum + later, s') := by
  refine ⟨generateFromText_isClean text roots, fun c hparse hvalid => ⟨?_, ?_⟩⟩
  · intro hsize t ht
    have hindex : t.index < UInt32.size := Nat.lt_of_lt_of_le (Catalog.mem_ids.mp ht) hsize
    rw [TypeId.ofIndex?, if_pos hindex]
  · intro settings ops hops
    have hc := Catalog.isRegular_of_validate (Catalog.parse_isClosed text c hparse) hvalid
    obtain ⟨⟨⟨⟩, s⟩, hs, hcont⟩ := performAll_yields hc ops hops (isSound_empty settings)
    have hsound : s.IsSound c := hcont.sound
    refine ⟨s, hs, ?_, fun t ht => hsound.registry.mem_ids ht, fun roots hroots => ?_⟩
    · have hle := Catalog.length_le_size hsound.registry.indexed.types_nodup
        fun t ht => hsound.registry.mem_ids ht
      simpa [Registry.types] using hle
    · obtain ⟨⟨count, s'⟩, hrun, first, s₁, later, hfirst, hdrain, rfl⟩ :=
        generateReachable_drains hc hroots hsound
      exact ⟨first, s₁, later, s', hfirst, hdrain, hrun⟩

/-- A class that its own field comes back to is no exception. -/
theorem nodes_total : Catalog.parse nodesText = .ok nodes ∧ nodes.validate = .ok () ∧
    (∀ defect, generateFromText nodesText ["Node", "Node[]"] ≠ .error (.defective defect)) ∧
    ∃ s, (performAll nodes [.obtain ⟨2⟩, .collect ⟨1⟩, .generateReachable [⟨2⟩]]).run {} =
      .ok ((), s) ∧ s.registry.descriptors.size ≤ 3 := by
  obtain ⟨hclean, hall⟩ := generation_total nodesText ["Node", "Node[]"]
  obtain ⟨-, hruns⟩ := hall nodes parse_nodes validate_nodes
  obtain ⟨s, hs, hsize, -⟩ := hruns {} [.obtain ⟨2⟩, .collect ⟨1⟩, .generateReachable [⟨2⟩]]
    (by decide +kernel)
  exact ⟨parse_nodes, validate_nodes, hclean, s, hs, hsize⟩

end TypeDocs
