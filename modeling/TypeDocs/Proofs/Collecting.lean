import TypeDocs.Proofs.Visiting

namespace TypeDocs.Registry

open Relation Recording

variable {c : Catalog} {r r' : Registry} {sources : Set TypeId}

/-- The links are those of what the `sources` lead to. -/
structure IsCollected (c : Catalog) (sources : Set TypeId) (r : Registry) : Prop where
  coherent : r.IsCoherent c
  settled : ∀ l ∈ r.links.toList, IsSettled c r l
  linked : ∀ t, t ∈ r.linked ↔ ∃ s ∈ sources, ReflTransGen c.LeadsTo s t

theorem isCollected_empty : IsCollected c ∅ {} :=
  ⟨isCoherent_empty, by simp [links], by simp [Registry.linked, links]⟩

/-- Where no pair comes in, the links stay. -/
theorem IsCollected.keeps (h : r.IsCollected c sources) (hr' : r'.IsCoherent c) (hk : r.Keeps r')
    (hb : r'.basePairs = r.basePairs) : r'.IsCollected c sources := by
  have hlinks : r'.links = r.links :=
    h.coherent.indexed.links_of_isPrefix hk.prefix_types hb
  have hlinked : r'.linked = r.linked := by rw [Registry.linked, hlinks, Registry.linked]
  refine ⟨hr', fun l hl => ?_, hlinked ▸ h.linked⟩
  rw [hlinks] at hl
  exact (h.settled l hl).mono (fun t ht => hk.mem_types ht) fun t ht => hlinked ▸ ht

theorem IsCollected.linkedFrom {ids : List TypeId} (h : r.IsCollected c sources)
    (hl : LinkedFrom c ids r r') : r'.IsCollected c (sources ∪ {t | t ∈ ids}) := by
  refine ⟨(h.coherent.linkedFrom hl).1, hl.settled h.settled, fun t => ?_⟩
  simp only [hl.linked_iff h.settled, h.linked, Set.mem_union, Set.mem_ofPred_eq, or_and_right,
    exists_or]

theorem IsIndexed.isSome_base_iff {t : TypeId} (hr : r.IsIndexed) :
    (r.base? t).isSome ↔ t ∈ r.linked := by
  simp only [Option.isSome_iff_exists, hr.base_eq_some_iff, linked, List.mem_map]
  constructor
  · rintro ⟨b, hb⟩
    exact ⟨⟨t, b⟩, hb, rfl⟩
  · rintro ⟨l, hl, rfl⟩
    exact ⟨l.base, hl⟩

namespace Request

/-- Requests about types of the catalog, other than to record a link. -/
def IsUsual (c : Catalog) : Request TypeId → Prop
  | obtain id | position id | qualifiedName id | localName id | scriptName id => id ∈ c.ids
  | table _ id | collect id => id ∈ c.ids
  | record _ _ => False

instance (c : Catalog) : DecidablePred (IsUsual c)
  | obtain id | position id | qualifiedName id => inferInstanceAs (Decidable (id ∈ c.ids))
  | localName id | scriptName id => inferInstanceAs (Decidable (id ∈ c.ids))
  | table _ id | collect id => inferInstanceAs (Decidable (id ∈ c.ids))
  | record _ _ => .isFalse fun h => h

/-- Requests are carried out one after the other. -/
def performAll (c : Catalog) : List (Request TypeId) → Recording Unit
  | [] => return
  | q :: qs => do
    q.perform c (handle c)
    performAll c qs

end Request

open Request

variable {q : Request TypeId} {qs : List (Request TypeId)}

/-- Noting names leaves the links to be those of what has been collected. -/
theorem IsCollected.discard {α : Type} {x : Recording α} (h : r.IsCollected c sources)
    (hx : x.Notes c) :
    Yields ((discard x : Recording Unit).run r) fun out => out.2.IsCollected c sources := by
  obtain ⟨⟨a, r'⟩, hrun, hr'⟩ := hx r h.coherent
  exact ⟨((), r'), run_discard hrun, h.keeps hr'.coherent hr'.keeps hr'.basePairs⟩

/-- A request adds what it collects to what has been collected. -/
theorem perform_collects (hc : c.IsRegular) (h : r.IsCollected c sources) (hq : q.IsUsual c) :
    Yields ((q.perform c (handle c)).run r) fun out =>
      out.2.IsCollected c (sources ∪ {t | .collect t = q}) := by
  have hkept {α : Type} {x : Recording α} (hx : x.Notes c) (hnone : ∀ t, .collect t ≠ q) :
      Yields ((discard x : Recording Unit).run r) fun out =>
        out.2.IsCollected c (sources ∪ {t | .collect t = q}) := by
    simpa [hnone] using h.discard hx
  cases q with
  | record derived base => exact hq.elim
  | collect id =>
    show Yields ((Recording.collect c id).run r) _
    simpa [eq_comm] using (collect_linked hc.closed hq h.coherent).mono fun _ hl => h.linkedFrom hl
  | position id => exact ⟨((), r), rfl, by simpa using h⟩
  | obtain id => exact hkept (obtain_notes hc.closed hq) nofun
  | qualifiedName id => exact hkept (qualifiedName_notes hc hq) nofun
  | localName id => exact hkept (localName_notes hc hq) nofun
  | scriptName id => exact hkept (scriptName_notes hc hq) nofun
  | table root id => exact hkept (table_notes hc root hq) nofun

theorem performAll_collects (hc : c.IsRegular) (h : r.IsCollected c sources)
    (hqs : ∀ q ∈ qs, q.IsUsual c) : Yields ((performAll c qs).run r) fun out =>
      out.2.IsCollected c (sources ∪ {t | .collect t ∈ qs}) := by
  induction qs generalizing r sources with
  | nil => exact ⟨((), r), rfl, by simpa using h⟩
  | cons q qs ih =>
    rw [List.forall_mem_cons] at hqs
    rw [performAll, StateT.run_bind]
    refine (perform_collects hc h hqs.1).bind fun out h₁ => (ih h₁ hqs.2).mono fun _ h₂ => ?_
    simpa only [List.mem_cons, Set.ofPred_or, Set.union_assoc] using h₂

/-- What has been collected decides the links, up to their order. -/
theorem IsCollected.perm {r' : Registry} (h : r.IsCollected c sources)
    (h' : r'.IsCollected c sources) : r'.links.toList.Perm r.links.toList := by
  have hsubset {r₁ r₂ : Registry} (h₁ : r₁.IsCollected c sources) (h₂ : r₂.IsCollected c sources)
      (l : BaseLink) (hl : l ∈ r₁.links.toList) : l ∈ r₂.links.toList := by
    have hderived : l.derived ∈ r₂.linked :=
      (h₂.linked _).mpr ((h₁.linked _).mp (List.mem_map_of_mem hl))
    obtain ⟨l', hl', ht⟩ := List.mem_map.mp hderived
    have hbase : l'.base = l.base :=
      Except.ok.inj ((h₂.settled l' hl').base.symm.trans (ht ▸ (h₁.settled l hl).base))
    obtain ⟨t, b⟩ := l
    obtain ⟨t', b'⟩ := l'
    obtain rfl : t' = t := ht
    obtain rfl : b' = b := hbase
    exact hl'
  refine (List.perm_ext_iff_of_nodup h'.coherent.indexed.linked_nodup.of_map
    h.coherent.indexed.linked_nodup.of_map).mpr fun l => ?_
  exact ⟨hsubset h' h l, hsubset h h' l⟩

/--
After any requests other than to record a link, a type is linked just when a type that has been
collected leads to it, through bases and parts of shapes, and it is linked to the base of the type
behind it, both of them described. Requests that collect the same types, in any order and however
often, with any others in between, leave the same links.
-/
theorem linked_iff_collected (hc : c.IsRegular) (hqs : ∀ q ∈ qs, q.IsUsual c) :
    ∃ r, (performAll c qs).run {} = .ok ((), r) ∧
      (∀ t, (r.base? t).isSome ↔ ∃ s, .collect s ∈ qs ∧ ReflTransGen c.LeadsTo s t) ∧
      (∀ t b, r.base? t = some b → c.resolvedBase t = .ok b ∧ (r.position? t).isSome ∧
        ∀ u, b = some u → (r.position? u).isSome) ∧
      (∀ t b, r.base? t = some b ↔ ⟨t, b⟩ ∈ r.links.toList) ∧
      ∀ others : List (Request TypeId), (∀ q ∈ others, q.IsUsual c) →
        (∀ s, .collect s ∈ others ↔ .collect s ∈ qs) →
          ∃ r', (performAll c others).run {} = .ok ((), r') ∧
            r'.links.toList.Perm r.links.toList := by
  obtain ⟨⟨⟨⟩, r⟩, hrun, hr⟩ := performAll_collects hc isCollected_empty hqs
  rw [Set.empty_union] at hr
  dsimp only at hr
  have hlinked : ∀ t b, r.base? t = some b ↔ ⟨t, b⟩ ∈ r.links.toList :=
    fun _ _ => hr.coherent.indexed.base_eq_some_iff
  refine ⟨r, hrun, fun t => ?_, fun t b hb => ?_, hlinked, fun others hothers hsame => ?_⟩
  · rw [hr.coherent.indexed.isSome_base_iff]
    exact hr.linked t
  · have hsettled := hr.settled ⟨t, b⟩ ((hlinked t b).mp hb)
    exact ⟨hsettled.base, hr.coherent.indexed.isSome_position_iff.mpr hsettled.derived_mem,
      fun u hu => hr.coherent.indexed.isSome_position_iff.mpr (hsettled.base_mem u hu)⟩
  · obtain ⟨⟨⟨⟩, r'⟩, hrun', hr'⟩ := performAll_collects hc isCollected_empty hothers
    rw [Set.empty_union] at hr'
    simp only [hsame] at hr'
    exact ⟨r', hrun', hr.perm hr'⟩

/--
The array and the list of handlers, in either order: nothing leads from these to the type of all
lists, which is described later on but never linked.
-/
theorem circles_linked_iff_collected :
    let qs : List (Request TypeId) := [.scriptName ⟨6⟩, .collect ⟨4⟩, .table "" ⟨2⟩, .collect ⟨6⟩]
    let others : List (Request TypeId) := [.collect ⟨6⟩, .collect ⟨4⟩, .obtain ⟨1⟩, .collect ⟨6⟩]
    ∃ r r', (performAll circles qs).run {} = .ok ((), r) ∧
      (performAll circles others).run {} = .ok ((), r') ∧
      r.linked = [⟨4⟩, ⟨3⟩, ⟨2⟩, ⟨6⟩, ⟨5⟩, ⟨0⟩] ∧ r'.linked = [⟨6⟩, ⟨5⟩, ⟨0⟩, ⟨4⟩, ⟨3⟩, ⟨2⟩] ∧
      (∃ s, .collect s ∈ qs ∧ ReflTransGen circles.LeadsTo s ⟨2⟩) ∧
      (¬ ∃ s, .collect s ∈ qs ∧ ReflTransGen circles.LeadsTo s ⟨1⟩) ∧
      circles.resolvedBase ⟨2⟩ = .ok (some ⟨3⟩) ∧ r'.links.toList.Perm r.links.toList := by
  intro qs others
  obtain ⟨r, hrun, hlinked, hbase, -, hothers⟩ :=
    linked_iff_collected circles_isRegular (by decide +kernel : ∀ q ∈ qs, q.IsUsual circles)
  obtain ⟨r', hrun', hperm⟩ := hothers others (by decide +kernel) (by simp [qs, others, or_comm])
  have hlinks : r.linked = [⟨4⟩, ⟨3⟩, ⟨2⟩, ⟨6⟩, ⟨5⟩, ⟨0⟩] :=
    eq_of_map_eq_ok hrun (f := fun out => out.2.linked) (by decide +kernel)
  have hlinks' : r'.linked = [⟨6⟩, ⟨5⟩, ⟨0⟩, ⟨4⟩, ⟨3⟩, ⟨2⟩] :=
    eq_of_map_eq_ok hrun' (f := fun out => out.2.linked) (by decide +kernel)
  have hhen : r.base? ⟨2⟩ = some (some ⟨3⟩) :=
    eq_of_map_eq_ok hrun (f := fun out => out.2.base? ⟨2⟩) (by decide +kernel)
  have hlist : r.base? ⟨1⟩ = none :=
    eq_of_map_eq_ok hrun (f := fun out => out.2.base? ⟨1⟩) (by decide +kernel)
  refine ⟨r, r', hrun, hrun', hlinks, hlinks', ?_, ?_, (hbase _ _ hhen).1, hperm⟩
  · exact (hlinked ⟨2⟩).mp (by rw [hhen]; rfl)
  · rw [← hlinked, hlist]
    exact Bool.false_ne_true

end TypeDocs.Registry
