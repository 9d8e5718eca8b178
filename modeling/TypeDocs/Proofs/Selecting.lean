import TypeDocs.Proofs.Answering

namespace TypeDocs

open Session Documenting

namespace Catalog

variable {c : Catalog} {id : TypeId}

/-- Types are numbered in the order of the catalog. -/
theorem pairwise_ids (c : Catalog) : c.ids.Pairwise (·.index < ·.index) :=
  List.pairwise_map.mpr List.pairwise_lt_range

theorem isDiscoverable_iff : c.isDiscoverable id = true ↔ ∃ info shape,
    c.get? id = some info ∧ c.shape id = .ok shape ∧ info.isByReference = false ∧
      (shape = .plain ∨ ∃ signature, shape = .delegate signature) := by
  unfold isDiscoverable
  split
  · rename_i shape info hs hi
    cases shape <;> simp [hs, hi, Shape.isDocumentable]
  · rename_i hnone
    constructor
    · intro h
      exact absurd h Bool.false_ne_true
    · rintro ⟨info, shape, hi, hs, -⟩
      exact (hnone shape info hs hi).elim

end Catalog

namespace Documenting

/-- Where all have documents there are no newcomers. -/
theorem newcomers_of_known {known ids : List TypeId} (hknown : ∀ t ∈ ids, t ∈ known) :
    newcomers known ids = [] := by
  have hfilter : ids.filter (· ∉ known) = [] :=
    List.filter_eq_nil_iff.mpr fun t ht => by simp [hknown t ht]
  rw [newcomers, hfilter, List.eraseDups_nil]

variable {c : Catalog} {s : Session} {id : TypeId} {roots : List TypeId}

theorem generateRoot_fresh (hc : c.IsRegular) (hs : s.IsSound c) (hid : id ∈ c.ids)
    (hfresh : id ∉ s.documented) :
    Yields ((generateRoot c id).run s) fun out => out.1 = 1 ∧ s.Extends c {id} [id] out.2 := by
  refine (generateRoot_extends hc hs hid).mono fun out ⟨hext, hcount⟩ => ?_
  rw [newcomers_singleton, if_neg hfresh] at hext hcount
  exact ⟨hcount, hext⟩

/-- Of different roots without a document, none is passed over. -/
theorem generateRoots_fresh (hc : c.IsRegular) (hroots : ∀ t ∈ roots, t ∈ c.ids)
    (hnodup : roots.Nodup) (hs : s.IsSound c) (hfresh : ∀ t ∈ roots, t ∉ s.documented) :
    Yields ((roots.mapM (generateRoot c)).run s) fun out =>
      out.1 = roots.map (fun _ => 1) ∧ out.2.IsSound c ∧
        out.2.documented = s.documented ++ roots := by
  induction roots generalizing s with
  | nil => exact .pure ⟨rfl, hs, by simp⟩
  | cons id roots ih =>
    rw [List.forall_mem_cons] at hroots hfresh
    rw [List.nodup_cons] at hnodup
    rw [List.mapM_cons, StateT.run_bind]
    refine (generateRoot_fresh hc hs hroots.1 hfresh.1).bind fun out ⟨hone, hext⟩ => ?_
    have hfresh' : ∀ t ∈ roots, t ∉ out.2.documented := by
      intro t ht
      rw [hext.documented, List.mem_append, List.mem_singleton, not_or]
      exact ⟨hfresh.2 t ht, ne_of_mem_of_not_mem ht hnodup.1⟩
    rw [StateT.run_bind]
    refine (ih hroots.2 hnodup.2 hext.sound hfresh').bind fun rest ⟨hones, hs', hdoc⟩ => ?_
    refine .pure ⟨by rw [hone, hones, List.map_cons], hs', ?_⟩
    rw [hdoc, hext.documented, List.append_assoc, List.singleton_append]

/-- Where all that discovery documents has a document, the cursor adds nothing on its way. -/
theorem Drains.idle {position n : Nat} {s' : Session} (hc : c.IsRegular)
    (h : Drains c position s n s') (hs : s.IsSound c)
    (hall : ∀ t ∈ c.ids, c.isDiscoverable t = true → t ∈ s.documented) :
    n = 0 ∧ s'.documents = s.documents := by
  obtain ⟨hext, hn⟩ := h.extends hc hs
  have hnone : newcomers s.documented ((s'.linked.drop position).filter c.isDiscoverable) = [] := by
    refine newcomers_of_known fun t ht => ?_
    obtain ⟨hlinked, hdisc⟩ := List.mem_filter.mp ht
    have hid := hext.sound.registry.mem_ids_of_linked (List.mem_of_mem_drop hlinked)
    exact hall t hid hdisc
  rw [hnone] at hext hn
  obtain ⟨docs, hdocs, hempty⟩ := hext.documents
  rw [List.map_eq_nil_iff.mp hempty, List.append_nil] at hdocs
  exact ⟨hn, Array.toList_inj.mp hdocs⟩

end Documenting

namespace CommandLine

variable {c : Catalog}

/--
Without keys the roots are, in the order of the catalog, the types that are neither by reference nor
of another shape than plain ones and delegates. Each of them gets its document and is counted, and
then the cursor goes along all links without adding anything: the documents are those of the roots
in their order.
-/
theorem whole_catalog_documented {text : String} (hparse : Catalog.parse text = .ok c)
    (hvalid : c.validate = .ok ()) :
    ∃ roots, selectRoots c [] = .ok roots ∧ roots.Pairwise (·.index < ·.index) ∧
      (∀ id, id ∈ roots ↔ ∃ info shape, c.get? id = some info ∧ c.shape id = .ok shape ∧
        info.isByReference = false ∧ (shape = .plain ∨ ∃ signature, shape = .delegate signature)) ∧
      ∀ settings, ∃ s₁ s, (roots.mapM (generateRoot c)).run { settings } =
          .ok (roots.map fun _ => 1, s₁) ∧ Drains c 0 s₁ 0 s ∧ s.documents = s₁.documents ∧
        (generateReachable c roots).run { settings } = .ok (roots.length, s) ∧
        s.documents.toList.map Document.type = roots := by
  have hc := Catalog.isRegular_of_validate (Catalog.parse_isClosed text c hparse) hvalid
  let roots := c.ids.filter c.isDiscoverable
  have hroots : ∀ t ∈ roots, t ∈ c.ids := fun t ht => (List.mem_filter.mp ht).1
  have hall : ∀ t ∈ c.ids, c.isDiscoverable t = true → t ∈ roots :=
    fun t hid hdisc => List.mem_filter.mpr ⟨hid, hdisc⟩
  refine ⟨roots, selectRoots_known hc.closed (by simp), c.pairwise_ids.filter _, fun id => ?_,
    fun settings => ?_⟩
  · rw [← Catalog.isDiscoverable_iff]
    refine ⟨fun h => (List.mem_filter.mp h).2, fun h => ?_⟩
    obtain ⟨info, -, hi, -⟩ := Catalog.isDiscoverable_iff.mp h
    exact hall id (Catalog.mem_ids_of_get hi) h
  · have hs := isSound_empty (c := c) settings
    obtain ⟨⟨count, s⟩, hrun, first, s₁, later, hfirst, hdrains, hcount⟩ :=
      generateReachable_drains hc hroots hs
    obtain ⟨hones, hs₁, hdoc⟩ := (generateRoots_fresh hc hroots (c.nodup_ids.filter _) hs
      (by simp [documented])).of_eq_ok hfirst
    dsimp only at hones hs₁ hdoc hdrains hcount
    have hdoc' : s₁.documented = roots := by simpa [documented] using hdoc
    obtain ⟨rfl, hsame⟩ := hdrains.idle hc hs₁ (hdoc' ▸ hall)
    have hlength : count = roots.length := by simp [hcount, hones]
    exact ⟨s₁, s, hones ▸ hfirst, hdrains, hsame, hlength ▸ hrun, by rw [hsame]; exact hdoc'⟩

/-- Hens with an array of references to hens, and a delegate. -/
def coopText : String :=
  "<typeCatalog><type name=\"Hen[]\" element=\"Hen&amp;\"/><type name=\"Hen&amp;\"/>" ++
    "<type name=\"Feed\" base=\"System.Delegate\"><method name=\"Invoke\"/></type>" ++
    "<type name=\"System.Delegate\"/>" ++
    "<type name=\"Hen\"><field name=\"all\" type=\"Hen[]\"/></type></typeCatalog>"

/-- The catalog of that text. -/
def coop : Catalog where
  entries := #[⟨"Hen[]", { name := "Hen[]", element := some ⟨1⟩ }⟩, ⟨"Hen&", { name := "Hen&" }⟩,
    ⟨"Feed", { name := "Feed", base := some ⟨3⟩, methods := [{ name := "Invoke" }] }⟩,
    ⟨"System.Delegate", { name := "System.Delegate" }⟩,
    ⟨"Hen", { name := "Hen", fields := [{ name := "all", type := ⟨0⟩ }] }⟩]

theorem parse_coop : Catalog.parse coopText = .ok coop := by
  decide +kernel

/-- The array and the reference are linked, and neither is selected or discovered. -/
theorem coop_documented : Catalog.parse coopText = .ok coop ∧ coop.validate = .ok () ∧
    selectRoots coop [] = .ok [⟨2⟩, ⟨3⟩, ⟨4⟩] ∧
    ∃ s, (generateReachable coop [⟨2⟩, ⟨3⟩, ⟨4⟩]).run {} = .ok (3, s) ∧
      s.documents.toList.map Document.type = [⟨2⟩, ⟨3⟩, ⟨4⟩] ∧
      s.linked = [⟨2⟩, ⟨3⟩, ⟨4⟩, ⟨0⟩, ⟨1⟩] := by
  have hvalid : coop.validate = .ok () := by decide +kernel
  have hselected : selectRoots coop [] = .ok [⟨2⟩, ⟨3⟩, ⟨4⟩] := by decide +kernel
  obtain ⟨roots, hroots, -, -, hall⟩ := whole_catalog_documented parse_coop hvalid
  obtain rfl := Except.ok.inj (hroots.symm.trans hselected)
  obtain ⟨s₁, s, -, -, -, hrun, hdocs⟩ := hall {}
  have hlinked : s.linked = [⟨2⟩, ⟨3⟩, ⟨4⟩, ⟨0⟩, ⟨1⟩] :=
    eq_of_map_eq_ok hrun (f := fun out => out.2.linked) (by decide +kernel)
  exact ⟨parse_coop, hvalid, hselected, s, hrun, hdocs, hlinked⟩

end CommandLine

end TypeDocs
