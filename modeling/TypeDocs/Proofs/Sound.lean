import Mathlib.Data.Set.Lattice
import TypeDocs.Proofs.Keeping

namespace TypeDocs

open Relation

namespace Registry

/-- Descriptors agree with the catalog, links are those of its types, and nothing is half done. -/
structure IsSound (c : Catalog) (root : String) (r : Registry) : Prop where
  coherent : r.IsCoherent c
  agrees : r.Agrees c root
  settled : ∀ l ∈ r.links.toList, IsSettled c r l

variable {c : Catalog} {root : String} {r r' r'' : Registry} {id : TypeId}

theorem isSound_empty : IsSound c root {} :=
  ⟨isCoherent_empty, fits_empty, by simp [links]⟩

namespace IsSound

theorem indexed (h : r.IsSound c root) : r.IsIndexed :=
  h.coherent.indexed

/-- A link set that contains what each of its types leads to contains all that they lead to. -/
theorem closed (h : r.IsSound c root) {a b : TypeId} (ha : a ∈ r.linked)
    (hab : ReflTransGen c.LeadsTo a b) : b ∈ r.linked :=
  reach_of_settled h.settled ha hab

theorem mem_ids (h : r.IsSound c root) (hid : id ∈ r.types) : id ∈ c.ids :=
  h.coherent.mem_ids hid

theorem mem_ids_of_linked (h : r.IsSound c root) (hid : id ∈ r.linked) : id ∈ c.ids := by
  obtain ⟨l, hl, rfl⟩ := List.mem_map.mp hid
  exact h.mem_ids (h.settled l hl).derived_mem

end IsSound

/-- How a sound registry moves on when the types `touched` are linked. -/
structure Advances (c : Catalog) (root : String) (touched : Set TypeId) (r r' : Registry) :
    Prop where
  sound : r'.IsSound c root
  types : r.types <+: r'.types
  links : r.links.toList <+: r'.links.toList
  linked : ∀ t, t ∈ r'.linked ↔ t ∈ r.linked ∨ ∃ s ∈ touched, ReflTransGen c.LeadsTo s t

theorem Advances.refl (h : r.IsSound c root) : Advances c root ∅ r r :=
  ⟨h, List.prefix_refl _, List.prefix_refl _, by simp⟩

theorem Advances.trans {touched more : Set TypeId} (h : Advances c root touched r r')
    (h' : Advances c root more r' r'') : Advances c root (touched ∪ more) r r'' := by
  refine ⟨h'.sound, h.types.trans h'.types, h.links.trans h'.links, ?_⟩
  intro t
  simp only [h'.linked, h.linked, Set.mem_union, or_and_right, exists_or, or_assoc]

/-- Without a new pair nothing is touched. -/
theorem Advances.of_keeps (h : r.IsSound c root) (hr' : r'.IsCoherent c)
    (hagrees : r'.Agrees c root) (hk : r.Keeps r') (hb : r'.basePairs = r.basePairs) :
    Advances c root ∅ r r' := by
  have hlinks : r'.links = r.links := h.indexed.links_of_isPrefix hk.prefix_types hb
  have hlinked : r'.linked = r.linked := by rw [Registry.linked, hlinks, Registry.linked]
  refine ⟨⟨hr', hagrees, fun l hl => ?_⟩, hk.prefix_types, ?_, ?_⟩
  · rw [hlinks] at hl
    exact (h.settled l hl).mono (fun t ht => hk.mem_types ht) fun t ht => hlinked ▸ ht
  · exact hlinks ▸ List.prefix_refl _
  · simp [hlinked]

/-- Since sound registries are closed, linking types links exactly what they lead to. -/
theorem Advances.of_linkedFrom {sources : List TypeId} (h : r.IsSound c root)
    (hl : LinkedFrom c sources r r') (hagrees : r'.Agrees c root) :
    Advances c root {t | t ∈ sources} r r' := by
  obtain ⟨new, hn, -⟩ := hl.added
  exact ⟨⟨(h.coherent.linkedFrom hl).1, hagrees, hl.settled h.settled⟩, hl.grows.prefix_types,
    ⟨new, hn.symm⟩, hl.linked_iff h.settled⟩

end Registry

end TypeDocs
