import Mathlib.Algebra.Ring.Nat
import TypeDocs.Proofs.Documenting

namespace TypeDocs

open Relation Session

/-- Types that discovery documents. -/
def Catalog.isDiscoverable (c : Catalog) (id : TypeId) : Bool :=
  match c.shape id, c.get? id with
  | .ok shape, some info => shape.isDocumentable && !info.isByReference
  | _, _ => false

/-- Links and documents that call for no more links or documents. -/
structure Catalog.IsSaturated (c : Catalog) (settings : Settings) (linked documented : Set TypeId) :
    Prop where
  leads : ∀ t ∈ linked, ∀ u, c.LeadsTo t u → u ∈ linked
  shows : ∀ t ∈ documented, ∀ u, c.Shows settings t u → u ∈ linked
  discovers : ∀ t ∈ linked, c.isDiscoverable t → t ∈ documented

/-- Saturated pairs that contain what a session has linked and documented, and the roots. -/
def Session.saturations (c : Catalog) (s : Session) (roots : List TypeId) :
    Set (Set TypeId × Set TypeId) :=
  {p | (∀ t ∈ s.linked ++ roots, t ∈ p.1) ∧ (∀ t ∈ s.documented ++ roots, t ∈ p.2) ∧
    c.IsSaturated s.settings p.1 p.2}

theorem Session.saturations_congr (c : Catalog) (s : Session) {roots others : List TypeId}
    (h : ∀ t, t ∈ others ↔ t ∈ roots) : s.saturations c others = s.saturations c roots := by
  simp only [saturations, List.forall_mem_append, h]

variable {c : Catalog} {s s' : Session} {id : TypeId} {collected : Set TypeId} {new : List TypeId}

theorem Catalog.IsSaturated.reach {settings : Settings} {linked documented : Set TypeId}
    (h : c.IsSaturated settings linked documented) {a b : TypeId} (ha : a ∈ linked)
    (hab : ReflTransGen c.LeadsTo a b) : b ∈ linked := by
  induction hab with
  | refl => exact ha
  | tail _ hbc ih => exact h.leads _ ih _ hbc

theorem Session.IsSound.length_linked_le (h : s.IsSound c) : s.linked.length ≤ c.size :=
  Catalog.length_le_size h.registry.indexed.linked_nodup fun _ ht => h.registry.mem_ids_of_linked ht

/-- A session that goes on within saturated sets does not leave them. -/
theorem Session.Extends.within {linked documented : Set TypeId} (h : s.Extends c collected new s')
    (hsat : c.IsSaturated s.settings linked documented) (hl : ∀ t ∈ s.linked, t ∈ linked)
    (hd : ∀ t ∈ s.documented, t ∈ documented) (hc : ∀ t ∈ collected, t ∈ linked)
    (hn : ∀ t ∈ new, t ∈ documented) :
    (∀ t ∈ s'.linked, t ∈ linked) ∧ ∀ t ∈ s'.documented, t ∈ documented := by
  constructor
  · intro t ht
    rcases (h.registry.linked t).mp ht with ht | ⟨u, hu, hut⟩
    · exact hl t ht
    · apply hsat.reach _ hut
      rcases hu with hu | ⟨d, hdn, hdu⟩
      · exact hc u hu
      · exact hsat.shows d (hn d hdn) u hdu
  · rw [h.documented, List.forall_mem_append]
    exact ⟨hd, hn⟩

namespace Documenting

/-- Documents that come in for `ids`: one for each that has none, in the order of first mention. -/
def newcomers (known ids : List TypeId) : List TypeId :=
  (ids.filter (· ∉ known)).eraseDups

theorem mem_newcomers {known ids : List TypeId} {t : TypeId} :
    t ∈ newcomers known ids ↔ t ∈ ids ∧ t ∉ known := by
  rw [newcomers, List.mem_eraseDups, List.mem_filter, decide_eq_true_eq]

theorem newcomers_cons (known : List TypeId) (id : TypeId) (ids : List TypeId) :
    newcomers known (id :: ids) = (if id ∈ known then [] else [id]) ++
      newcomers (known ++ if id ∈ known then [] else [id]) ids := by
  by_cases h : id ∈ known
  · simp [newcomers, h]
  · have hfilter : (ids.filter (· ∉ known)).filter (fun t => !t == id) =
        ids.filter (· ∉ known ++ [id]) := by
      rw [List.filter_filter]
      apply List.filter_congr
      intro t _
      by_cases ht : t = id <;> simp [ht]
    simp only [newcomers, h, not_false_eq_true, decide_true, List.filter_cons_of_pos, if_neg,
      List.eraseDups_cons, hfilter, List.singleton_append]

theorem newcomers_append (known xs ys : List TypeId) :
    newcomers known (xs ++ ys) =
      newcomers known xs ++ newcomers (known ++ newcomers known xs) ys := by
  induction xs generalizing known with
  | nil => simp [newcomers]
  | cons x xs ih => rw [List.cons_append, newcomers_cons, newcomers_cons known x xs, ih]; simp

theorem newcomers_singleton (known : List TypeId) (id : TypeId) :
    newcomers known [id] = if id ∈ known then [] else [id] := by
  by_cases h : id ∈ known <;> simp [newcomers, h, List.eraseDups_cons]

theorem generateRoot_extends (hc : c.IsRegular) (hs : s.IsSound c) (hid : id ∈ c.ids) :
    Yields ((generateRoot c id).run s) fun out =>
      s.Extends c {id} (newcomers s.documented [id]) out.2 ∧
        out.1 = (newcomers s.documented [id]).length := by
  have hcollect := recording_extends hs (Recording.collect_meets hc.closed hid)
  rw [generateRoot, StateT.run_bind]
  apply hcollect.bind
  intro out ⟨_, h₁⟩
  have hgenerate := generateAt_extends hc none h₁.sound hid
  rw [StateT.run_bind]
  apply hgenerate.bind
  intro out ⟨hout, h₂⟩
  refine .pure ⟨?_, ?_⟩
  · apply (h₁.trans h₂).congr (Set.union_empty _)
    rw [newcomers_singleton, h₁.documented, List.append_nil, List.nil_append]
  · rw [newcomers_singleton, hout, h₁.documented, List.append_nil]
    by_cases hdoc : id ∈ s.documented <;> simp [hdoc]

theorem generateRoots_extends (hc : c.IsRegular) (roots : List TypeId)
    (hroots : ∀ t ∈ roots, t ∈ c.ids) (hs : s.IsSound c) :
    Yields ((roots.mapM (generateRoot c)).run s) fun out =>
      s.Extends c {t | t ∈ roots} (newcomers s.documented roots) out.2 ∧
        out.1.sum = (newcomers s.documented roots).length := by
  induction roots generalizing s with
  | nil => exact .pure ⟨by simpa [newcomers] using Extends.refl hs, by simp [newcomers]⟩
  | cons id roots ih =>
    rw [List.forall_mem_cons] at hroots
    rw [List.mapM_cons, StateT.run_bind]
    apply (generateRoot_extends hc hs hroots.1).bind
    intro out ⟨h₁, hn₁⟩
    rw [StateT.run_bind]
    apply (ih hroots.2 h₁.sound).bind
    intro out ⟨h₂, hn₂⟩
    have hnew := newcomers_append s.documented [id] roots
    rw [List.singleton_append] at hnew
    rw [h₁.documented] at h₂ hn₂
    refine .pure ⟨(h₁.trans h₂).congr ?_ hnew.symm, ?_⟩
    · ext t
      simp
    · rw [hnew, List.length_append, List.sum_cons, hn₁, hn₂]

/-- The pair at a position joins descriptors, and it is that of the type linked there. -/
theorem exists_linked {position : Nat} {p : BasePair} (hs : s.IsSound c)
    (hp : s.registry.basePairs[position]? = some p) :
    ∃ d, s.registry.get? p.derived = some d ∧ s.linked[position]? = some d.type := by
  have hmem : p ∈ s.registry.basePairs.toList := List.mem_of_getElem? (by simpa using hp)
  obtain ⟨d, hd⟩ := Registry.issued_iff.mp (hs.registry.indexed.issued p hmem).1
  refine ⟨d, hd, ?_⟩
  simp [Session.linked, Registry.linked_eq, hp, Registry.typeAt_of_get hd]

/-- The document that discovery adds for a descriptor, if any, as its shape and name say. -/
theorem generateDiscovered_extends {h : DescriptorId} {d : Descriptor} (hc : c.IsRegular)
    (hs : s.IsSound c) (hd : s.registry.get? h = some d) :
    Yields ((generateDiscovered c h).run s) fun out =>
      s.Extends c ∅ (newcomers s.documented ([d.type].filter c.isDiscoverable)) out.2 ∧
        out.1 = (newcomers s.documented ([d.type].filter c.isDiscoverable)).length := by
  have hshape : c.shape d.type = .ok d.shape := (hs.registry.agrees.get hd).shape
  have hid : d.type ∈ c.ids := Catalog.mem_ids_of_shape hshape
  obtain ⟨info, hi⟩ := Catalog.mem_ids_iff.mp hid
  have hlookup : c.lookup d.type = .ok info := Catalog.lookup_eq_ok.mpr hi
  have hrun : (recording (Recording.descriptor h)).run s = .ok (d, s) := by
    rw [run_recording, Recording.run_descriptor hd]
    rfl
  have hdisc : c.isDiscoverable d.type = (d.shape.isDocumentable && !info.isByReference) := by
    simp [Catalog.isDiscoverable, hshape, hi]
  have hnone (h : c.isDiscoverable d.type = false) :
      s.Extends c ∅ (newcomers s.documented ([d.type].filter c.isDiscoverable)) s ∧
        0 = (newcomers s.documented ([d.type].filter c.isDiscoverable)).length := by
    have hnew : newcomers s.documented ([d.type].filter c.isDiscoverable) = [] := by
      simp [newcomers, h]
    rw [hnew]
    exact ⟨.refl hs, rfl⟩
  rw [generateDiscovered, StateT.run_bind, hrun, ok_bind]
  dsimp only
  split
  · rename_i hdoc
    rw [hdoc, Bool.true_and] at hdisc
    rw [StateT.run_bind]
    have hlift : (liftM (c.lookup d.type) : Documenting TypeInfo).run s = .ok (info, s) := by
      rw [hlookup]
      rfl
    rw [hlift, ok_bind]
    dsimp only
    split
    · rename_i href
      exact .pure (hnone (by simp [hdisc, href]))
    · rename_i href
      rw [StateT.run_bind]
      refine (generateAt_extends hc none hs hid).bind fun out ⟨hout, hext⟩ => ?_
      have hfilter : [d.type].filter c.isDiscoverable = [d.type] := by simp [hdisc, href]
      rw [hfilter, newcomers_singleton]
      refine .pure ⟨hext, ?_⟩
      by_cases hdocumented : d.type ∈ s.documented <;> simp [hout, hdocumented]
  · rename_i hdoc
    exact .pure (hnone (by simp [hdisc, hdoc]))

/-- How the cursor goes along the pairs of a session until there is none at its position. -/
inductive Drains (c : Catalog) : Nat → Session → Nat → Session → Prop where
  | done {position : Nat} {s : Session} (hp : s.registry.basePairs[position]? = none) :
      Drains c position s 0 s
  | next {position n m : Nat} {s s₁ s' : Session} {p : BasePair}
      (hp : s.registry.basePairs[position]? = some p)
      (hn : (generateDiscovered c p.derived).run s = .ok (n, s₁))
      (hm : Drains c (position + 1) s₁ m s') : Drains c position s (n + m) s'

theorem length_linked (s : Session) : s.linked.length = s.registry.basePairs.size := by
  simp [Session.linked, Registry.linked_eq]

/-- Since there is at most one pair per type, the cursor gets to the end of the pairs in time. -/
theorem generateLinked_drains (hc : c.IsRegular) (limit position : Nat) (hs : s.IsSound c)
    (hlimit : c.size ≤ position + limit) :
    Yields ((generateLinked c limit position).run s) fun out =>
      Drains c position s out.1 out.2 := by
  induction limit generalizing position s with
  | zero =>
    have hle := hs.length_linked_le
    have hend : s.registry.basePairs.size ≤ position := by
      rw [← length_linked]
      omega
    exact .pure (.done (Array.getElem?_eq_none hend))
  | succ limit ih =>
    cases hp : s.registry.basePairs[position]? with
    | none => exact ⟨(0, s), by simp [generateLinked, hp], .done hp⟩
    | some p =>
      obtain ⟨d, hd, -⟩ := exists_linked hs hp
      obtain ⟨⟨n, s₁⟩, hn, h₁, -⟩ := generateDiscovered_extends hc hs hd
      obtain ⟨⟨m, s'⟩, hm, hdrain⟩ := ih (position + 1) h₁.sound (by omega)
      exact ⟨(n + m, s'), by simp [generateLinked, hp, hn, hm], .next hp hn hdrain⟩

/-- The cursor documents what discovery does, in the order of the links as they are in the end. -/
theorem Drains.extends (hc : c.IsRegular) {position n : Nat} (h : Drains c position s n s')
    (hs : s.IsSound c) :
    s.Extends c ∅ (newcomers s.documented ((s'.linked.drop position).filter c.isDiscoverable)) s' ∧
      n = (newcomers s.documented ((s'.linked.drop position).filter c.isDiscoverable)).length := by
  induction h with
  | @done position s hp =>
    have hdrop : s.linked.drop position = [] := by
      rw [List.drop_eq_nil_iff, length_linked]
      exact Array.getElem?_eq_none_iff.mp hp
    rw [hdrop]
    exact ⟨by simpa [newcomers] using Extends.refl hs, by simp [newcomers]⟩
  | @next position n m s s₁ s' p hp hn hm ih =>
    obtain ⟨d, hd, hget⟩ := exists_linked hs hp
    obtain ⟨h₁, hn₁⟩ := (generateDiscovered_extends hc hs hd).of_eq_ok hn
    dsimp only at h₁ hn₁
    obtain ⟨h₂, hm₂⟩ := ih h₁.sound
    have hget' : s'.linked[position]? = some d.type := by
      obtain ⟨rest, hrest⟩ := h₁.prefix_linked.trans h₂.prefix_linked
      rw [← hrest, List.getElem?_append_left (List.getElem?_eq_some_iff.mp hget).1, hget]
    have hdrop : s'.linked.drop position = [d.type] ++ s'.linked.drop (position + 1) := by
      rw [List.drop_eq_getElem?_toList_append, hget', Option.toList_some]
    rw [h₁.documented] at h₂ hm₂
    rw [hdrop, List.filter_append, newcomers_append, List.length_append, hn₁, hm₂]
    exact ⟨(h₁.trans h₂).congr (Set.union_empty _) rfl, rfl⟩

/-- Nor does the cursor leave saturated sets. -/
theorem Drains.within (hc : c.IsRegular) {position n : Nat} (h : Drains c position s n s')
    (hs : s.IsSound c) {linked documented : Set TypeId}
    (hsat : c.IsSaturated s.settings linked documented) (hl : ∀ t ∈ s.linked, t ∈ linked)
    (hd : ∀ t ∈ s.documented, t ∈ documented) :
    (∀ t ∈ s'.linked, t ∈ linked) ∧ ∀ t ∈ s'.documented, t ∈ documented := by
  induction h with
  | done => exact ⟨hl, hd⟩
  | @next position n m s s₁ s' p hp hn hm ih =>
    obtain ⟨d, hd', hget⟩ := exists_linked hs hp
    have hmem : d.type ∈ s.linked := List.mem_of_getElem? hget
    obtain ⟨h₁, -⟩ := (generateDiscovered_extends hc hs hd').of_eq_ok hn
    have hnew : ∀ t ∈ newcomers s.documented ([d.type].filter c.isDiscoverable),
        t ∈ documented := by
      intro t ht
      obtain ⟨ht, hdisc⟩ := List.mem_filter.mp (mem_newcomers.mp ht).1
      rw [List.mem_singleton.mp ht] at hdisc ⊢
      exact hsat.discovers _ (hl _ hmem) hdisc
    obtain ⟨hl₁, hd₁⟩ := h₁.within hsat hl hd (by simp) hnew
    exact ih h₁.sound (h₁.settings ▸ hsat) hl₁ hd₁

/-- The roots are documented in order, and then the cursor gets to the end of the links. -/
theorem generateReachable_drains (hc : c.IsRegular) {roots : List TypeId}
    (hroots : ∀ t ∈ roots, t ∈ c.ids) (hs : s.IsSound c) :
    Yields ((generateReachable c roots).run s) fun out => ∃ first s₁ later,
      (roots.mapM (generateRoot c)).run s = .ok (first, s₁) ∧ Drains c 0 s₁ later out.2 ∧
        out.1 = first.sum + later := by
  obtain ⟨⟨first, s₁⟩, hfirst, h₁, -⟩ := generateRoots_extends hc roots hroots hs
  obtain ⟨⟨later, s'⟩, hlater, hdrain⟩ :=
    generateLinked_drains hc c.size 0 h₁.sound (by omega)
  exact ⟨(first.sum + later, s'), by simp [generateReachable, hfirst, hlater, List.sum_eq_foldr],
    first, s₁, later, hfirst, hdrain, rfl⟩

/--
Reachable documentation adds the roots and then what the links in the end lead to, in this order and
each once.
-/
theorem generateReachable_extends (hc : c.IsRegular) {roots : List TypeId}
    (hroots : ∀ t ∈ roots, t ∈ c.ids) (hs : s.IsSound c) :
    Yields ((generateReachable c roots).run s) fun out => s.Extends c {t | t ∈ roots}
        (newcomers s.documented (roots ++ out.2.linked.filter c.isDiscoverable)) out.2 ∧
      out.1 = (newcomers s.documented (roots ++ out.2.linked.filter c.isDiscoverable)).length := by
  apply (generateReachable_drains hc hroots hs).mono
  rintro ⟨count, s'⟩ ⟨first, s₁, later, hfirst, hdrain, rfl⟩
  obtain ⟨h₁, hn₁⟩ := (generateRoots_extends hc roots hroots hs).of_eq_ok hfirst
  obtain ⟨h₂, hn₂⟩ := hdrain.extends hc h₁.sound
  dsimp only at h₁ hn₁ hdrain h₂ hn₂ ⊢
  rw [List.drop_zero, h₁.documented] at h₂ hn₂
  rw [newcomers_append, List.length_append, hn₁, hn₂]
  exact ⟨(h₁.trans h₂).congr (Set.union_empty _) rfl, rfl⟩

/-- Nothing is left out: what is linked and documented in the end is saturated. -/
theorem generateReachable_saturated {roots : List TypeId} (h : s.Extends c {t | t ∈ roots}
      (newcomers s.documented (roots ++ s'.linked.filter c.isDiscoverable)) s') :
    ({t | t ∈ s'.linked}, {t | t ∈ s'.documented}) ∈ s.saturations c roots := by
  have hmem (t : TypeId) (ht : t ∈ roots ++ s'.linked.filter c.isDiscoverable) :
      t ∈ s'.documented := by
    rw [h.documented, List.mem_append, mem_newcomers]
    by_cases hdoc : t ∈ s.documented
    · exact Or.inl hdoc
    · exact Or.inr ⟨ht, hdoc⟩
  refine ⟨?_, ?_, ?_⟩
  · rw [List.forall_mem_append]
    exact ⟨fun t ht => h.prefix_linked.subset ht,
      fun t ht => (h.registry.linked t).mpr (Or.inr ⟨t, Or.inl ht, .refl⟩)⟩
  · rw [List.forall_mem_append]
    refine ⟨fun t ht => ?_, fun t ht => hmem t (List.mem_append_left _ ht)⟩
    show t ∈ s'.documented
    rw [h.documented]
    exact List.mem_append_left _ ht
  · refine ⟨?_, ?_, ?_⟩
    · exact fun t ht u htu => h.sound.registry.closed ht (.single htu)
    · rw [← h.settings]
      exact h.sound.shown
    · exact fun t ht hdisc => hmem t (List.mem_append_right _ (List.mem_filter.mpr ⟨ht, hdisc⟩))

/-- Nothing is added in excess: whatever is saturated contains the outcome. -/
theorem generateReachable_within (hc : c.IsRegular) {roots : List TypeId}
    (hroots : ∀ t ∈ roots, t ∈ c.ids) (hs : s.IsSound c) {p : Set TypeId × Set TypeId}
    (hp : p ∈ s.saturations c roots) :
    Yields ((generateReachable c roots).run s) fun out =>
      (∀ t ∈ out.2.linked, t ∈ p.1) ∧ ∀ t ∈ out.2.documented, t ∈ p.2 := by
  obtain ⟨hl, hd, hsat⟩ := hp
  rw [List.forall_mem_append] at hl hd
  apply (generateReachable_drains hc hroots hs).mono
  rintro ⟨count, s'⟩ ⟨first, s₁, later, hfirst, hdrain, rfl⟩
  obtain ⟨h₁, -⟩ := (generateRoots_extends hc roots hroots hs).of_eq_ok hfirst
  have hnew : ∀ t ∈ newcomers s.documented roots, t ∈ p.2 :=
    fun t ht => hd.2 t (mem_newcomers.mp ht).1
  obtain ⟨hl₁, hd₁⟩ := h₁.within hsat hl.1 hd.1 hl.2 hnew
  exact hdrain.within hc h₁.sound (h₁.settings ▸ hsat) hl₁ hd₁

theorem generateReachable_isLeast (hc : c.IsRegular) {roots : List TypeId}
    (hroots : ∀ t ∈ roots, t ∈ c.ids) (hs : s.IsSound c) :
    Yields ((generateReachable c roots).run s) fun out =>
      IsLeast (s.saturations c roots) ({t | t ∈ out.2.linked}, {t | t ∈ out.2.documented}) := by
  obtain ⟨out, hout, hext, -⟩ := generateReachable_extends hc hroots hs
  refine ⟨out, hout, generateReachable_saturated hext, ?_⟩
  intro p hp
  exact (generateReachable_within hc hroots hs hp).of_eq_ok hout

end Documenting

end TypeDocs
