import TypeDocs.Proofs.Describing

namespace TypeDocs.Registry

open Relation

variable {c : Catalog} {r r' r'' : Registry} {id : TypeId} {h : DescriptorId}

theorem descriptors_link (r : Registry) (h : DescriptorId) (base : Option DescriptorId) :
    (r.link h base).2.descriptors = r.descriptors := by
  unfold link
  split <;> rfl

/-- Descriptors have the shapes that the catalog gives their types. -/
def IsShaped (c : Catalog) (r : Registry) : Prop :=
  ∀ d ∈ r.descriptors.toList, c.shape d.type = .ok d.shape

theorem IsShaped.grows {sources : List TypeId} (hs : r.IsShaped c) (hg : Grows c sources r r') :
    r'.IsShaped c := by
  obtain ⟨new, hn, hnew⟩ := hg
  rw [IsShaped, hn, List.forall_mem_append]
  exact ⟨hs, fun d hd => (hnew d hd).1.shape⟩

theorem IsShaped.congr (hs : r.IsShaped c) (hd : r'.descriptors = r.descriptors) :
    r'.IsShaped c := by
  rw [IsShaped, hd]
  exact hs

theorem IsShaped.mem_ids (hs : r.IsShaped c) (hid : id ∈ r.types) : id ∈ c.ids := by
  obtain ⟨d, hd, rfl⟩ := List.mem_map.mp hid
  exact Catalog.mem_ids_of_shape (hs d hd)

/--
A link as it is recorded in `r'`: to the base behind the type, between described types, and with
everything the type leads to linked as well.
-/
structure IsSettled (c : Catalog) (r' : Registry) (l : BaseLink) : Prop where
  base : c.resolvedBase l.derived = .ok l.base
  derived_mem : l.derived ∈ r'.types
  base_mem : ∀ b, l.base = some b → b ∈ r'.types
  closed : ∀ t, c.LeadsTo l.derived t → t ∈ r'.linked

/-- The outcome of linking `sources`: links of types that these lead to, and of no others. -/
structure LinkedFrom (c : Catalog) (sources : List TypeId) (r r' : Registry) : Prop where
  grows : Grows c c.ids r r'
  mem : ∀ t ∈ sources, t ∈ r'.linked
  indexed : r'.IsIndexed
  basePairs : r.basePairs.toList <+: r'.basePairs.toList
  added : ∃ new, r'.links.toList = r.links.toList ++ new ∧ ∀ l ∈ new, IsSettled c r' l ∧
    ∃ s ∈ sources, ReflTransGen c.LeadsTo s l.derived

theorem LinkedFrom.prefix_linked {sources : List TypeId} (h : LinkedFrom c sources r r') :
    r.linked <+: r'.linked := by
  obtain ⟨new, hn, -⟩ := h.added
  exact ⟨new.map BaseLink.derived, by simp [linked, hn]⟩

theorem IsSettled.mono {l : BaseLink} (h : IsSettled c r l) (ht : ∀ t ∈ r.types, t ∈ r'.types)
    (hl : ∀ t ∈ r.linked, t ∈ r'.linked) : IsSettled c r' l :=
  ⟨h.base, ht _ h.derived_mem, fun b hb => ht b (h.base_mem b hb),
    fun t hlt => hl t (h.closed t hlt)⟩

/-- Links that contain what each of their types leads to contain all that they lead to. -/
theorem reach_of_settled (h : ∀ l ∈ r.links.toList, IsSettled c r l) {a b : TypeId}
    (ha : a ∈ r.linked) (hab : ReflTransGen c.LeadsTo a b) : b ∈ r.linked := by
  induction hab with
  | refl => exact ha
  | tail _ hbc ih =>
    obtain ⟨l, hl, rfl⟩ := List.mem_map.mp ih
    exact (h l hl).closed _ hbc

theorem LinkedFrom.settled {sources : List TypeId} (hl : LinkedFrom c sources r r')
    (h : ∀ l ∈ r.links.toList, IsSettled c r l) : ∀ l ∈ r'.links.toList, IsSettled c r' l := by
  obtain ⟨new, hn, hnew⟩ := hl.added
  rw [hn, List.forall_mem_append]
  refine ⟨fun l hlm => ?_, fun l hlm => (hnew l hlm).1⟩
  exact (h l hlm).mono (fun t ht => hl.grows.mem_types ht)
    fun t ht => hl.prefix_linked.subset ht

/-- On top of settled links, exactly what the sources lead to is linked. -/
theorem LinkedFrom.linked_iff {sources : List TypeId} (hl : LinkedFrom c sources r r')
    (h : ∀ l ∈ r.links.toList, IsSettled c r l) (t : TypeId) :
    t ∈ r'.linked ↔ t ∈ r.linked ∨ ∃ s ∈ sources, ReflTransGen c.LeadsTo s t := by
  obtain ⟨new, hn, hnew⟩ := hl.added
  constructor
  · intro ht
    have hmap : r'.linked = r.linked ++ new.map BaseLink.derived := by simp [linked, hn]
    rw [hmap, List.mem_append] at ht
    refine ht.imp_right fun ht => ?_
    obtain ⟨l, hlm, rfl⟩ := List.mem_map.mp ht
    exact (hnew l hlm).2
  · rintro (ht | ⟨s, hsm, hst⟩)
    · exact hl.prefix_linked.subset ht
    · exact reach_of_settled (hl.settled h) (hl.mem s hsm) hst

/-- One step: `id` gets its link, and what it leads to takes its place among the pending types. -/
theorem LinkedFrom.step {rest : List TypeId} {s : Shape} {b : Option TypeId}
    (hs : c.shape id = .ok s) (hb : c.resolvedBase id = .ok b)
    (hg : Grows c c.ids r r') (hp : r.basePairs.toList <+: r'.basePairs.toList)
    (hl : r'.links = r.links.push ⟨id, b⟩) (hm : id ∈ r'.types)
    (hbm : ∀ t, b = some t → t ∈ r'.types)
    (hlf : LinkedFrom c (b.toList ++ s.parts ++ rest) r' r'') :
    LinkedFrom c (id :: rest) r r'' := by
  obtain ⟨new, hn, hnew⟩ := hlf.added
  have hself : id ∈ r''.linked := hlf.prefix_linked.subset (by simp [linked, hl])
  refine ⟨(hg.trans hlf.grows).mono (by simp), ?_, hlf.indexed, hp.trans hlf.basePairs,
    ⟨id, b⟩ :: new, by simp [hn, hl], ?_⟩
  · exact List.forall_mem_cons.mpr ⟨hself, fun t ht => hlf.mem t (List.mem_append_right _ ht)⟩
  · rw [List.forall_mem_cons]
    constructor
    · refine ⟨⟨hb, hlf.grows.mem_types hm, fun t ht => hlf.grows.mem_types (hbm t ht), ?_⟩,
        id, List.mem_cons_self, .refl⟩
      rintro t (ht | ⟨s', hs', ht⟩)
      · obtain rfl : b = some t := Except.ok.inj (hb.symm.trans ht)
        exact hlf.mem t (by simp)
      · obtain rfl : s = s' := Except.ok.inj (hs.symm.trans hs')
        exact hlf.mem t (by simp [ht])
    · intro l hl
      obtain ⟨hsettled, t, ht, htl⟩ := hnew l hl
      refine ⟨hsettled, ?_⟩
      simp only [List.mem_append, Option.mem_toList, or_assoc] at ht
      rcases ht with ht | ht | ht
      · exact ⟨id, List.mem_cons_self, .head (Or.inl (hb.trans (congrArg Except.ok ht))) htl⟩
      · exact ⟨id, List.mem_cons_self, .head (Or.inr ⟨s, hs, ht⟩) htl⟩
      · exact ⟨t, List.mem_cons_of_mem id ht, htl⟩

/-- The handle of a base that was looked for, and the base behind it. -/
theorem Handles.head {base : Option TypeId} {hs : List DescriptorId}
    (hh : r.Handles base.toList hs) (hr : r.IsIndexed) :
    hs.head?.map r.typeAt = base ∧ ∀ b, hs.head? = some b → r.Issued b := by
  cases base with
  | none =>
    cases hh
    exact ⟨rfl, nofun⟩
  | some t =>
    obtain ⟨h, _, hpos, hnil, rfl⟩ := List.forall₂_cons_left_iff.mp hh
    cases hnil
    obtain ⟨d, hd, -⟩ := hr.position_eq_some_iff.mp hpos
    refine ⟨congrArg some (hr.typeAt_of_position hpos), ?_⟩
    rintro _ ⟨⟩
    exact issued_of_get hd

/--
A descriptor that had none gets its pair once its base is described, and then the parts of its shape
are described.
-/
structure Paired (c : Catalog) (h : DescriptorId) (d : Descriptor) (base : Option TypeId)
    (next : List DescriptorId) (r r' : Registry) : Prop where
  grows : Grows c c.ids r r'
  indexed : r'.IsIndexed
  basePairs : ∃ b, r'.basePairs = r.basePairs.push ⟨h, b⟩
  links : r'.links = r.links.push ⟨d.type, base⟩
  base_mem : ∀ t, base = some t → t ∈ r'.types
  handles : r'.Handles (base.toList ++ d.shape.parts) next

theorem Paired.prefix_basePairs {d : Descriptor} {base : Option TypeId} {next : List DescriptorId}
    (hp : Paired c h d base next r r') : r.basePairs.toList <+: r'.basePairs.toList := by
  obtain ⟨b, hb⟩ := hp.basePairs
  rw [hb, Array.toList_push]
  exact List.prefix_append _ _

theorem pair_yields {d : Descriptor} (hc : c.IsClosed) (hr : r.IsIndexed) (hs : r.IsShaped c)
    (hd : r.get? h = some d) (hnew : r.isBased h = false) :
    ∃ info, c.lookup d.resolved = .ok info ∧ ∃ base r₁ parts r₂,
      r.describeAll c info.base.toList = .ok (base, r₁) ∧
      (r₁.link h base.val.head?).2.describeAll c d.shape.parts = .ok (parts, r₂) ∧
      c.resolvedBase d.type = .ok info.base ∧ Described c info.base.toList r r₁ ∧
      Paired c h d info.base (base.val ++ parts.val) r r₂ := by
  have hshape : c.shape d.type = .ok d.shape := hs d (mem_of_get hd)
  have hid : d.type ∈ c.ids := Catalog.mem_ids_of_shape hshape
  obtain ⟨b, hb, hbase⟩ := hc.resolvedBase_yields hid
  have hlookup := hb
  rw [Catalog.resolvedBase, hshape, ok_bind] at hlookup
  obtain ⟨info, hi, hinfo⟩ := bind_eq_ok.mp hlookup
  obtain rfl : info.base = b := Except.ok.inj hinfo
  obtain ⟨⟨base, r₁⟩, hrun₁, h₁, hbases⟩ :=
    describeAll_described hc r hr info.base.toList (by simpa using hbase)
  dsimp only at h₁ hbases
  obtain ⟨hhead, hissued⟩ := hbases.head h₁.indexed
  have hnew₁ : r₁.isBased h = false := by rw [isBased, h₁.based]; exact hnew
  have hd₁ : r₁.get? h = some d := h₁.grows.get hd
  have hr₂ : (r₁.link h base.val.head?).2.IsIndexed := h₁.indexed.link (issued_of_get hd₁) hissued
  obtain ⟨⟨parts, r₂⟩, hrun₂, h₂, hparts⟩ :=
    describeAll_described hc _ hr₂ d.shape.parts fun t ht => hc.mem_part hshape ht
  dsimp only at h₂ hparts
  have hlink : Grows c c.ids r (r₁.link h base.val.head?).2 := by
    refine (h₁.grows.mono ?_).congr (descriptors_link r₁ h _)
    simpa using hbase
  refine ⟨info, hi, base, r₁, parts, r₂, hrun₁, hrun₂, hb, h₁, ?_, h₂.indexed, ?_, ?_, ?_, ?_⟩
  · refine (hlink.trans h₂.grows).mono fun t ht => ?_
    rw [List.mem_append] at ht
    exact ht.elim (fun h => h) (hc.mem_part hshape)
  · refine ⟨base.val.head?, ?_⟩
    rw [h₂.basePairs, link, hnew₁, ← h₁.basePairs]
    rfl
  · rw [h₂.links hr₂, links_link hnew₁, h₁.links hr, typeAt_of_get hd₁, hhead]
  · exact fun t ht => h₂.grows.mem_types (by
      rw [types_link]
      exact h₁.mem t (by simp [ht]))
  · have hkept : (r₁.link h base.val.head?).2.Handles info.base.toList base.val := by
      refine hbases.imp fun t h ht => ?_
      rw [hr₂.position_eq_some_iff, get?, descriptors_link]
      exact h₁.indexed.position_eq_some_iff.mp ht
    exact List.rel_append (hkept.grows h₂.grows hr₂ h₂.indexed) hparts

theorem linkAll_linked (hc : c.IsClosed) (room : List TypeId) (r : Registry)
    (pending : List DescriptorId) {sources : List TypeId} (hr : r.IsIndexed) (hs : r.IsShaped c)
    (hroom : ∀ t ∈ c.ids, t ∉ r.linked → t ∈ room) (hp : r.Handles sources pending) :
    Yields (linkAll c room r pending) (LinkedFrom c sources r) := by
  fun_induction linkAll c room r pending generalizing sources with
  | case1 room r =>
    cases hp
    exact .pure ⟨.refl, by simp, hr, List.prefix_refl _, [], by simp⟩
  | case2 room r h rest hl ih =>
    obtain ⟨id, sources, hpos, hrest, rfl⟩ := List.forall₂_cons_right_iff.mp hp
    refine (ih hr hs hroom hrest).mono fun r' hlf => ?_
    obtain ⟨new, hn, hnew⟩ := hlf.added
    refine ⟨hlf.grows, ?_, hlf.indexed, hlf.basePairs, new, hn, ?_⟩
    · have hid : id ∈ r.linked := (hr.isBased_iff_linked hpos).mp hl
      exact List.forall_mem_cons.mpr ⟨hlf.prefix_linked.subset hid, hlf.mem⟩
    · intro l hl
      obtain ⟨hs, t, ht, htl⟩ := hnew l hl
      exact ⟨hs, t, List.mem_cons_of_mem id ht, htl⟩
  | case3 room r h rest hl hnone =>
    obtain ⟨id, sources, hpos, -, rfl⟩ := List.forall₂_cons_right_iff.mp hp
    obtain ⟨d, hd, -⟩ := hr.position_eq_some_iff.mp hpos
    exact absurd (hnone.symm.trans hd) nofun
  | case4 room r h rest hl d hd hmem ih =>
    obtain ⟨id, sources, hpos, hrest, rfl⟩ := List.forall₂_cons_right_iff.mp hp
    obtain rfl : d.type = id := by
      rw [← typeAt_of_get hd, hr.typeAt_of_position hpos]
    obtain ⟨info, hi, base, r₁, parts, r₂, hrun₁, hrun₂, hb, -, hpair⟩ :=
      pair_yields hc hr hs hd (by simpa using hl)
    rw [hi, ok_bind, hrun₁, ok_bind]
    dsimp only
    rw [hrun₂, ok_bind]
    dsimp only
    have hlinked : r₂.linked = r.linked ++ [d.type] := by simp [linked, hpair.links]
    have hhandles :=
      List.rel_append hpair.handles (Handles.grows hrest hpair.grows hr hpair.indexed)
    -- the type has its link now, so the room may do without it
    refine (ih info base.val base.property parts.val parts.property r₂ hpair.indexed
      (hs.grows hpair.grows) ?_ hhandles).mono
      fun r' hlf => ?_
    · intro t ht hn
      rw [hlinked, List.mem_append, List.mem_singleton, not_or] at hn
      exact (List.mem_erase_of_ne hn.2).mpr (hroom t ht hn.1)
    · exact LinkedFrom.step (hs d (mem_of_get hd)) hb hpair.grows hpair.prefix_basePairs hpair.links
        (hpair.grows.mem_types (mem_types (mem_of_get hd))) hpair.base_mem hlf
  | case5 room r h rest hl d hd hmem =>
    obtain ⟨id, sources, hpos, -, rfl⟩ := List.forall₂_cons_right_iff.mp hp
    obtain rfl : d.type = id := by
      rw [← typeAt_of_get hd, hr.typeAt_of_position hpos]
    refine absurd (hroom d.type (hs.mem_ids (mem_types (mem_of_get hd))) fun hid => ?_) hmem
    exact hl ((hr.isBased_iff_linked hpos).mpr hid)

end TypeDocs.Registry
