import TypeDocs.Proofs.Generating

namespace TypeDocs

open Session Documenting

/--
The document that sessions of these settings write for a type, whatever they have been through: it
comes in behind the documents there are, and nothing else does.
-/
def Document.IsWrittenFor (c : Catalog) (settings : Settings) (id : TypeId) (d : Document) : Prop :=
  d.type = id ∧ ∀ s : Session, s.IsSound c → s.settings = settings → id ∉ s.documented →
    Yields ((generate c id).run s) fun out => out.2.IsSound c ∧ out.2.settings = settings ∧
      out.2.documents = s.documents.push d

namespace Catalog

variable {c : Catalog} {settings : Settings} {keys : List String} {ids : List TypeId}

/-- Every type of a regular catalog has such a document. -/
theorem IsRegular.exists_document (hc : c.IsRegular) (settings : Settings) :
    ∃ document : TypeId → Document, ∀ id ∈ c.ids,
      (document id).IsWrittenFor c settings id := by
  have hwritten : ∀ id ∈ c.ids, ∃ d : Document, d.IsWrittenFor c settings id := by
    intro id hid
    obtain ⟨d, htype, hd⟩ := generateAt_new hc settings none hid
    refine ⟨d, htype, fun s hs hset hnot => ?_⟩
    refine (hd s hs hset hnot).mono fun out ⟨_, hext, hpush⟩ => ?_
    exact ⟨hext.sound, hext.settings.trans hset, hpush⟩
  have : Nonempty Document := ⟨⟨⟨0⟩, "", ""⟩⟩
  choose! document hdocument using hwritten
  exact ⟨document, hdocument⟩

theorem root_eq_ok_iff {key : String} {id : TypeId} :
    c.root key = .ok id ↔ c.find? key = some id := by
  unfold root
  cases c.find? key <;> simp

/-- Known roots have the types that their keys stand for. -/
theorem map_find_eq (h : ∀ key ∈ keys, (c.find? key).isSome) :
    keys.map c.find? = (keys.filterMap c.find?).map some := by
  induction keys with
  | nil => rfl
  | cons key keys ih =>
    rw [List.forall_mem_cons] at h
    obtain ⟨id, hid⟩ := Option.isSome_iff_exists.mp h.1
    rw [List.map_cons, ih h.2, List.filterMap_cons_some hid, List.map_cons, hid]

/-- Known roots bring in the documents of their types, each at its first mention. -/
theorem documentRoots_known {document : TypeId → Document}
    (hdocument : ∀ id ∈ c.ids, (document id).IsWrittenFor c settings id)
    (hkeys : keys.map c.find? = ids.map some) {s : Session} (hs : s.IsSound c)
    (hset : s.settings = settings) :
    Yields (c.documentRoots s keys) fun s' =>
      s'.documents.toList = s.documents.toList ++ (newcomers s.documented ids).map document := by
  induction keys generalizing ids s with
  | nil =>
    obtain rfl := List.map_eq_nil_iff.mp hkeys.symm
    exact .pure (by simp [newcomers])
  | cons key keys ih =>
    obtain ⟨id, ids, rfl, hid, hrest⟩ := List.map_eq_cons_iff.mp hkeys.symm
    have hmem : id ∈ c.ids := mem_ids_of_find hid.symm
    rw [documentRoots, root_eq_ok_iff.mpr hid.symm, ok_bind, newcomers_cons]
    by_cases hdoc : id ∈ s.documented
    · rw [Documenting.generate, generateAt_old none hs.placed hdoc, if_pos hdoc, List.append_nil,
        List.nil_append]
      exact ih hrest.symm hs hset
    · obtain ⟨htype, hwritten⟩ := hdocument id hmem
      obtain ⟨⟨answer, s'⟩, hrun, hs', hset', hpush⟩ := hwritten s hs hset hdoc
      dsimp only at hs' hset' hpush
      have hdocumented : s'.documented = s.documented ++ [id] := by
        simp [documented, hpush, htype]
      rw [hrun]
      refine (ih hrest.symm hs' hset').mono fun s'' hs'' => ?_
      rw [hs'', hdocumented, hpush]
      simp [hdoc]

/-- The first unknown root ends it, whatever has been documented until then. -/
theorem documentRoots_unknown (hc : c.IsRegular) {key : String}
    (hkey : keys.find? (fun k => (c.find? k).isNone) = some key) {s : Session} (hs : s.IsSound c) :
    c.documentRoots s keys = .error (.unknownRoot key) := by
  induction keys generalizing s with
  | nil => simp at hkey
  | cons k keys ih =>
    cases hk : c.find? k with
    | none =>
      obtain rfl : k = key := by simpa [hk] using hkey
      simp [documentRoots, root, hk, bind, Except.bind]
    | some id =>
      rw [List.find?_cons_of_neg (by simp [hk])] at hkey
      obtain ⟨⟨answer, s'⟩, hrun, -, hext⟩ :=
        generateAt_extends hc none hs (mem_ids_of_find hk)
      rw [documentRoots, root_eq_ok_iff.mpr hk, ok_bind, Documenting.generate, hrun]
      exact ih hkey hext.sound

/-- Known roots have documents: one for each type among them, in the order of first mention. -/
theorem generate_known {document : TypeId → Document}
    (hdocument : ∀ id ∈ c.ids, (document id).IsWrittenFor c (.forCatalog c) id)
    (hkeys : ∀ key ∈ keys, (c.find? key).isSome) :
    c.generate keys = .ok ((keys.filterMap c.find?).eraseDups.map document) := by
  obtain ⟨s, hs, hdocs⟩ := documentRoots_known hdocument (map_find_eq hkeys)
    (isSound_empty (Settings.forCatalog c)) rfl
  have hfresh : newcomers [] (keys.filterMap c.find?) = (keys.filterMap c.find?).eraseDups := by
    simp [newcomers]
  rw [generate, newSession, hs, ok_bind, pure_eq_ok, hdocs]
  exact congrArg (fun ids => Except.ok (ids.map document)) hfresh

theorem generate_unknown (hc : c.IsRegular) {key : String}
    (hkey : keys.find? (fun k => (c.find? k).isNone) = some key) :
    c.generate keys = .error (.unknownRoot key) := by
  rw [generate, newSession, documentRoots_unknown hc hkey (isSound_empty _)]
  rfl

/-- Either all roots are known or there is a first one that is not. -/
theorem generate_cases (hc : c.IsRegular) (keys : List String) :
    (∀ key ∈ keys, (c.find? key).isSome) ∨
      ∃ key, keys.find? (fun k => (c.find? k).isNone) = some key ∧
        c.generate keys = .error (.unknownRoot key) := by
  cases hkey : keys.find? (fun k => (c.find? k).isNone) with
  | none =>
    left
    intro key hmem
    have hnone := List.find?_eq_none.mp hkey key hmem
    rwa [← Option.not_isNone, Bool.not_eq_true', ← Bool.not_eq_true]
  | some key => exact Or.inr ⟨key, rfl, generate_unknown hc hkey⟩

/-- So there are documents just when all roots are known. -/
theorem keys_known (hc : c.IsRegular) {docs : List Document} (h : c.generate keys = .ok docs) :
    ∀ key ∈ keys, (c.find? key).isSome := by
  rcases generate_cases hc keys with hkeys | ⟨key, -, herror⟩
  · exact hkeys
  · simp [herror] at h

/--
Roots are documented when all of them are known, and the first one that is not is the error
otherwise. There is one document for each type among the roots, in the order of first mention, and
it is the one that the root has when it is documented alone. So another order of the roots makes
another order of the documents and no other difference, and further roots leave the documents of
the others as they are.
-/
theorem generate_rootwise (hc : c.IsRegular) (roots : List String) :
    ((∃ docs, c.generate roots = .ok docs) ↔ ∀ key ∈ roots, (c.find? key).isSome) ∧
    (∀ key, roots.find? (fun k => (c.find? k).isNone) = some key →
      c.generate roots = .error (.unknownRoot key)) ∧
    ∀ docs, c.generate roots = .ok docs →
      docs.map Document.type = (roots.filterMap c.find?).eraseDups ∧
      (∀ d ∈ docs, ∃ key ∈ roots, c.find? key = some d.type) ∧
      (∀ d ∈ docs, ∀ key, c.find? key = some d.type → c.generate [key] = .ok [d]) ∧
      (∀ others, others.Perm roots → ∃ docs', c.generate others = .ok docs' ∧ docs'.Perm docs) ∧
      ∀ others docs', c.generate others = .ok docs' → roots ⊆ others → docs ⊆ docs' := by
  obtain ⟨document, hdocument⟩ := hc.exists_document (.forCatalog c)
  have hknown {keys : List String} (hkeys : ∀ key ∈ keys, (c.find? key).isSome) :=
    generate_known hdocument hkeys
  refine ⟨⟨fun ⟨_, h⟩ => keys_known hc h, fun h => ⟨_, hknown h⟩⟩,
    fun key hkey => generate_unknown hc hkey, ?_⟩
  intro docs hdocs
  have hroots := keys_known hc hdocs
  obtain rfl : (roots.filterMap c.find?).eraseDups.map document = docs :=
    Except.ok.inj ((hknown hroots).symm.trans hdocs)
  have hfound {t : TypeId} (ht : t ∈ (roots.filterMap c.find?).eraseDups) :
      ∃ key ∈ roots, c.find? key = some t :=
    List.mem_filterMap.mp (List.mem_eraseDups.mp ht)
  have htype {t : TypeId} (ht : t ∈ (roots.filterMap c.find?).eraseDups) :
      (document t).type = t := by
    obtain ⟨key, -, hkey⟩ := hfound ht
    exact (hdocument t (mem_ids_of_find hkey)).1
  refine ⟨?_, ?_, ?_, ?_, ?_⟩
  · calc ((roots.filterMap c.find?).eraseDups.map document).map Document.type
        = (roots.filterMap c.find?).eraseDups.map (Document.type ∘ document) := List.map_map
      _ = (roots.filterMap c.find?).eraseDups.map id := List.map_congr_left fun t ht => htype ht
      _ = (roots.filterMap c.find?).eraseDups := List.map_id _
  · intro d hd
    obtain ⟨t, ht, rfl⟩ := List.mem_map.mp hd
    rw [htype ht]
    exact hfound ht
  · intro d hd key hkey
    obtain ⟨t, ht, rfl⟩ := List.mem_map.mp hd
    rw [htype ht] at hkey
    rw [hknown (by simp [hkey])]
    simp [hkey, List.eraseDups_cons]
  · intro others hperm
    refine ⟨_, hknown fun key hkey => hroots key (hperm.subset hkey), ?_⟩
    apply List.Perm.map
    rw [List.perm_ext_iff_of_nodup (nodup_eraseDups _) (nodup_eraseDups _)]
    intro t
    rw [List.mem_eraseDups, List.mem_eraseDups]
    exact (hperm.filterMap c.find?).mem_iff
  · intro others docs' hdocs' hsub d hd
    obtain rfl := Except.ok.inj ((hknown (keys_known hc hdocs')).symm.trans hdocs')
    obtain ⟨t, ht, rfl⟩ := List.mem_map.mp hd
    obtain ⟨key, hkey, hid⟩ := hfound ht
    exact List.mem_map_of_mem
      (List.mem_eraseDups.mpr (List.mem_filterMap.mpr ⟨key, hsub hkey, hid⟩))

/-- The class and its array, in either order and one of them twice. -/
theorem nodes_rootwise :
    (∃ docs, nodes.generate ["Node[]", "Node", "Node[]"] = .ok docs ∧
      docs.map Document.type = [⟨2⟩, ⟨1⟩] ∧ (∀ d ∈ docs, ∃ key, nodes.generate [key] = .ok [d]) ∧
      ∃ docs', nodes.generate ["Node", "Node[]", "Node[]"] = .ok docs' ∧ docs'.Perm docs) ∧
    nodes.generate ["Node", "Nod", "Nodes"] = .error (.unknownRoot "Nod") := by
  obtain ⟨hok, -, hall⟩ := generate_rootwise nodes_isRegular ["Node[]", "Node", "Node[]"]
  obtain ⟨-, hunknown, -⟩ := generate_rootwise nodes_isRegular ["Node", "Nod", "Nodes"]
  obtain ⟨docs, hdocs⟩ := hok.mpr (by decide +kernel)
  obtain ⟨htypes, hfound, halone, hperm, -⟩ := hall docs hdocs
  refine ⟨⟨docs, hdocs, htypes.trans (by decide +kernel), fun d hd => ?_,
    hperm _ (List.Perm.swap _ _ _)⟩, hunknown "Nod" (by decide +kernel)⟩
  obtain ⟨key, -, hkey⟩ := hfound d hd
  exact ⟨key, halone d hd key hkey⟩

end Catalog

end TypeDocs
