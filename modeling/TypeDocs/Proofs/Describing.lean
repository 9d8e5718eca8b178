import Mathlib.Data.List.Forall2
import TypeDocs.Proofs.Indexing
import TypeDocs.Proofs.Naming

/-!
What describing a type adds to a registry: descriptors of types that the shape of that type leads
to, each with everything its own shape mentions. The descriptor of a type stands before those of the
types it mentions, so while they are described the registry is not yet closed; what holds throughout
is that the new part closes itself.
-/

namespace TypeDocs

open Relation

/-- A descriptor as it is made: the shape is that of the type, and no name is known. -/
structure Descriptor.IsFresh (c : Catalog) (d : Descriptor) : Prop where
  shape : c.shape d.type = .ok d.shape
  blank : d = { type := d.type, shape := d.shape }

namespace Registry

variable {c : Catalog} {r r' r'' : Registry} {id : TypeId} {h : DescriptorId}

/--
The descriptors have grown. The new ones are of types that the `sources` lead to, and whatever their
shapes mention is described.
-/
def Grows (c : Catalog) (sources : List TypeId) (r r' : Registry) : Prop :=
  ∃ new, r'.descriptors.toList = r.descriptors.toList ++ new ∧ ∀ d ∈ new, d.IsFresh c ∧
    (∃ s ∈ sources, ReflTransGen c.Mentions s d.type) ∧ ∀ t ∈ d.shape.mentioned, t ∈ r'.types

namespace Grows

variable {sources others : List TypeId}

theorem refl : Grows c sources r r :=
  ⟨[], by simp⟩

theorem prefix_types (hg : Grows c sources r r') : r.types <+: r'.types := by
  obtain ⟨new, hn, -⟩ := hg
  exact ⟨new.map Descriptor.type, by simp [types, hn]⟩

theorem mem_types (hg : Grows c sources r r') (hid : id ∈ r.types) : id ∈ r'.types :=
  hg.prefix_types.subset hid

theorem get {d : Descriptor} (hg : Grows c sources r r') (hd : r.get? h = some d) :
    r'.get? h = some d := by
  obtain ⟨new, hn, -⟩ := hg
  rw [get?, ← Array.getElem?_toList] at hd ⊢
  rw [hn, List.getElem?_append_left (List.getElem?_eq_some_iff.mp hd).1, hd]

theorem trans (hg : Grows c sources r r') (hg' : Grows c others r' r'') :
    Grows c (sources ++ others) r r'' := by
  have hkept (t : TypeId) (ht : t ∈ r'.types) : t ∈ r''.types := hg'.mem_types ht
  obtain ⟨new, hn, hnew⟩ := hg
  obtain ⟨new', hn', hnew'⟩ := hg'
  refine ⟨new ++ new', by simp [hn', hn], ?_⟩
  intro d hd
  rcases List.mem_append.mp hd with hd | hd
  · obtain ⟨hf, ⟨s, hs, hsd⟩, hm⟩ := hnew d hd
    exact ⟨hf, ⟨s, List.mem_append_left _ hs, hsd⟩, fun t ht => hkept t (hm t ht)⟩
  · obtain ⟨hf, ⟨s, hs, hsd⟩, hm⟩ := hnew' d hd
    exact ⟨hf, ⟨s, List.mem_append_right _ hs, hsd⟩, hm⟩

theorem mono (hg : Grows c sources r r') (hs : ∀ t ∈ sources, t ∈ others) :
    Grows c others r r' := by
  obtain ⟨new, hn, hnew⟩ := hg
  refine ⟨new, hn, ?_⟩
  intro d hd
  obtain ⟨hf, ⟨s, hs', hsd⟩, hm⟩ := hnew d hd
  exact ⟨hf, ⟨s, hs s hs', hsd⟩, hm⟩

theorem congr (hg : Grows c sources r r') (hd : r''.descriptors = r'.descriptors) :
    Grows c sources r r'' := by
  rw [Grows, hd, types, hd]
  exact hg

end Grows

/-- The outcome of describing `ids` one after the other. -/
structure Described (c : Catalog) (ids : List TypeId) (r r' : Registry) : Prop where
  grows : Grows c ids r r'
  mem : ∀ t ∈ ids, t ∈ r'.types
  indexed : r'.IsIndexed
  basePairs : r'.basePairs = r.basePairs
  based : r'.based = r.based

theorem Described.links {ids : List TypeId} (hd : Described c ids r r') (hr : r.IsIndexed) :
    r'.links = r.links :=
  hr.links_of_isPrefix hd.grows.prefix_types hd.basePairs

/-- Describing a list, when `f` describes each type of it whatever has been described before. -/
theorem foldlM_described {f : Registry → TypeId → Except Defect Registry} (room ids : List TypeId)
    (hf : ∀ t ∈ ids, ∀ r : Registry, r.IsIndexed → (∀ u ∈ c.ids, u ∉ r.types → u ∈ room) →
      Yields (f r t) (Described c [t] r)) (r : Registry) (hr : r.IsIndexed)
    (hroom : ∀ u ∈ c.ids, u ∉ r.types → u ∈ room) :
    Yields (ids.foldlM f r) (Described c ids r) := by
  induction ids generalizing r with
  | nil => exact .pure ⟨.refl, by simp, hr, rfl, rfl⟩
  | cons id ids ih =>
    rw [List.foldlM_cons]
    refine (hf id List.mem_cons_self r hr hroom).bind fun r₁ h₁ => ?_
    refine (ih (fun t ht => hf t (List.mem_cons_of_mem id ht)) r₁ h₁.indexed
      fun u hu hn => hroom u hu fun h => hn (h₁.grows.mem_types h)).mono fun r₂ h₂ => ?_
    refine ⟨h₁.grows.trans h₂.grows, List.forall_mem_cons.mpr ⟨?_, h₂.mem⟩, h₂.indexed,
      h₂.basePairs.trans h₁.basePairs, h₂.based.trans h₁.based⟩
    exact h₂.grows.mem_types (h₁.mem id List.mem_cons_self)

theorem describe_of_position (room : List TypeId) (hh : r.position? id = some h) :
    describe c room r id = .ok (h, r) := by
  rw [describe, hh]

/-- Describing a type adds it and what its shape leads to, and nothing else. -/
theorem describe_described (hc : c.IsClosed) (room : List TypeId) (r : Registry) (id : TypeId)
    (hr : r.IsIndexed) (hroom : ∀ t ∈ c.ids, t ∉ r.types → t ∈ room) (hid : id ∈ c.ids) :
    Yields (describe c room r id) fun out =>
      Described c [id] r out.2 ∧ out.2.position? id = some out.1 := by
  fun_induction describe c room r id with
  | case1 room r id h hh =>
    have hmem : id ∈ r.types := hr.isSome_position_iff.mp (hh ▸ rfl)
    exact .pure ⟨⟨.refl, by simpa using hmem, hr, rfl, rfl⟩, hh⟩
  | case2 room r id hnone hmem ih =>
    have hnot : id ∉ r.types := by
      rw [← hr.isSome_position_iff, hnone]
      exact Bool.false_ne_true
    obtain ⟨s, hs, -⟩ := hc.shape_yields hid
    rw [hs, ok_bind]
    -- `id` leaves the room and is described, so the room still holds all that is not
    have hr₁ : (r.insert { type := id, shape := s }).IsIndexed := hr.insert hnot
    have hfold := foldlM_described (room.erase id) s.mentioned
      (fun t ht r hr hroom => (ih r t hr hroom (hc.mem_mentioned hs ht)).bind fun out hout =>
        .pure hout.1)
      (r.insert { type := id, shape := s }) hr₁ (by
        intro u hu hn
        rw [types_insert, List.mem_append, List.mem_singleton, not_or] at hn
        exact (List.mem_erase_of_ne hn.2).mpr (hroom u hu hn.1))
    refine hfold.bind fun r' hd => .pure ?_
    have hself : id ∈ r'.types := hd.grows.mem_types (by simp)
    have hnext : r'.position? id = some r.nextId :=
      hr₁.position_of_isPrefix hd.indexed hd.grows.prefix_types (position_insert r _)
    obtain ⟨new, hn, hnew⟩ := hd.grows
    refine ⟨⟨⟨{ type := id, shape := s } :: new, by simp [hn, insert], ?_⟩, by simpa, hd.indexed,
      hd.basePairs, hd.based⟩, hnext⟩
    rw [List.forall_mem_cons]
    refine ⟨⟨⟨hs, rfl⟩, ⟨id, by simp, .refl⟩, hd.mem⟩, ?_⟩
    intro d hd
    obtain ⟨hf, ⟨t, ht, htd⟩, hdm⟩ := hnew d hd
    exact ⟨hf, ⟨id, by simp, .head ⟨s, hs, ht⟩ htd⟩, hdm⟩
  | case3 room r id hnone hmem =>
    refine absurd (hroom id hid fun h => ?_) hmem
    rw [← hr.isSome_position_iff, hnone] at h
    exact Bool.false_ne_true h

/-- The handles of types, in order. -/
def Handles (r : Registry) (ids : List TypeId) (hs : List DescriptorId) : Prop :=
  List.Forall₂ (fun t h => r.position? t = some h) ids hs

theorem Handles.grows {sources ids : List TypeId} {hs : List DescriptorId}
    (hh : r.Handles ids hs) (hg : Grows c sources r r') (hr : r.IsIndexed) (hr' : r'.IsIndexed) :
    r'.Handles ids hs :=
  List.Forall₂.imp (fun _ _ h => hr.position_of_isPrefix hr' hg.prefix_types h) hh

theorem describeAll_described (hc : c.IsClosed) (r : Registry) (hr : r.IsIndexed)
    (ids : List TypeId) (hids : ∀ t ∈ ids, t ∈ c.ids) :
    Yields (r.describeAll c ids) fun out =>
      Described c ids r out.2 ∧ out.2.Handles ids out.1.val := by
  induction ids generalizing r with
  | nil => exact .pure ⟨⟨.refl, by simp, hr, rfl, rfl⟩, .nil⟩
  | cons id ids ih =>
    rw [List.forall_mem_cons] at hids
    rw [describeAll]
    refine (describe_described hc c.ids r id hr (fun _ ht _ => ht) hids.1).bind
      fun ⟨h, r₁⟩ ⟨h₁, hh⟩ => ?_
    refine (ih r₁ h₁.indexed hids.2).bind fun ⟨⟨hs, _⟩, r₂⟩ ⟨h₂, hhs⟩ => .pure ⟨?_, ?_⟩
    · refine ⟨h₁.grows.trans h₂.grows, List.forall_mem_cons.mpr ⟨?_, h₂.mem⟩, h₂.indexed,
        h₂.basePairs.trans h₁.basePairs, h₂.based.trans h₁.based⟩
      exact h₂.grows.mem_types (h₁.mem id List.mem_cons_self)
    · exact .cons (h₁.indexed.position_of_isPrefix h₂.indexed h₂.grows.prefix_types hh) hhs

end Registry

namespace Recording

open Registry

variable {c : Catalog} {r : Registry} {id : TypeId} {h : DescriptorId} {d : Descriptor}

theorem run_descriptor (hd : r.get? h = some d) : (descriptor h).run r = .ok (d, r) := by
  simp [descriptor, hd]

/-- What is described on the way to a handle, under which the type is found from then on. -/
theorem handle_described (hc : c.IsClosed) (hid : id ∈ c.ids) (hr : r.IsIndexed) :
    Yields ((handle c id).run r) fun out =>
      Described c [id] r out.2 ∧ out.2.position? id = some out.1 :=
  describe_described hc c.ids r id hr (fun _ ht _ => ht) hid

theorem obtain_described (hc : c.IsClosed) (hid : id ∈ c.ids) (hr : r.IsIndexed) :
    Yields ((obtain c id).run r) fun out => Described c [id] r out.2 ∧ out.1.type = id ∧
      ∃ h, out.2.position? id = some h ∧ out.2.get? h = some out.1 := by
  rw [obtain, StateT.run_bind]
  refine (handle_described hc hid hr).bind fun ⟨h, r'⟩ ⟨hd, hh⟩ => ?_
  obtain ⟨d, hget, ht⟩ := hd.indexed.position_eq_some_iff.mp hh
  exact ⟨(d, r'), run_descriptor hget, hd, ht, h, hh, hget⟩

end Recording

end TypeDocs
