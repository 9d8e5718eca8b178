import TypeDocs.Proofs.Composing

namespace TypeDocs

/-- What the document of a type shows. -/
def Catalog.Shows (c : Catalog) (settings : Settings) (a b : TypeId) : Prop :=
  ∃ info, c.get? a = some info ∧ b ∈ info.shownTypes settings

namespace Session

/-- The types documented, in order. -/
def documented (s : Session) : List TypeId :=
  s.documents.toList.map Document.type

/-- The types linked, in order. -/
def linked (s : Session) : List TypeId :=
  s.registry.linked

/-- What is noted as documented is documented, just there. -/
def IsPlaced (s : Session) : Prop :=
  s.emitted.Locates (fun n => n) s.documented

/--
The registry is sound, documents are those of types of the catalog, in the places that are noted,
with links to everything that they show, and no document is being written.
-/
structure IsSound (c : Catalog) (s : Session) : Prop where
  registry : s.registry.IsSound c s.settings.rootNamespace
  idle : s.inProgress = []
  mem_ids : ∀ t ∈ s.documented, t ∈ c.ids
  placed : s.IsPlaced
  shown : ∀ t ∈ s.documented, ∀ u, c.Shows s.settings t u → u ∈ s.linked

variable {c : Catalog} {s s' s'' : Session} {id : TypeId} {collected more : Set TypeId}
  {new newer : List TypeId}

theorem isPlaced_empty (settings : Settings) : IsPlaced { settings } :=
  Index.locates_empty

theorem isSound_empty (settings : Settings) : IsSound c { settings } := by
  refine ⟨Registry.isSound_empty, rfl, ?_, isPlaced_empty settings, ?_⟩ <;> simp [documented]

theorem mem_documented : id ∈ s.documented ↔ ∃ d ∈ s.documents.toList, d.type = id :=
  List.mem_map

/-- The documents with one more, as it is noted and then added. -/
theorem documented_add (d : Document) :
    ((s.place d.type).add d).documented = s.documented ++ [d.type] := by
  simp [documented, add, place]

namespace IsPlaced

theorem nodup (hs : s.IsPlaced) : s.documented.Nodup :=
  Index.Locates.nodup hs fun _ _ h => h

theorem isDocumented_iff (hs : s.IsPlaced) : s.isDocumented id = true ↔ id ∈ s.documented :=
  Index.Locates.isSome_iff hs

/-- The next document takes the place that is noted for it. -/
theorem add (hs : s.IsPlaced) {d : Document} (hd : d.type ∉ s.documented) :
    ((s.place d.type).add d).IsPlaced := by
  have hsize : s.documents.size = s.documented.length := by simp [documented]
  rw [IsPlaced, documented_add]
  show (s.emitted.insert d.type s.documents.size).Locates _ _
  rw [hsize]
  exact Index.Locates.concat hs hd

/-- A document is looked up in the place of its type. -/
theorem document_eq_some_iff (hs : s.IsPlaced) {d : Document} :
    s.document? id = some d ↔ d ∈ s.documents.toList ∧ d.type = id := by
  have hplace (i : Nat) : s.emitted.get? id = some i ↔
      ∃ d, s.documents[i]? = some d ∧ d.type = id := by
    rw [hs id i, documented]
    simp
  simp only [document?, Option.bind_eq_bind, Option.bind_eq_some_iff, List.mem_iff_getElem?,
    hplace, Array.getElem?_toList]
  constructor
  · rintro ⟨i, ⟨e, he, rfl⟩, hd⟩
    obtain rfl : e = d := Option.some.inj (he.symm.trans hd)
    exact ⟨⟨i, hd⟩, rfl⟩
  · rintro ⟨⟨i, hd⟩, rfl⟩
    exact ⟨i, ⟨d, hd, rfl⟩, hd⟩

end IsPlaced

theorem IsSound.nodup (hs : s.IsSound c) : s.documented.Nodup :=
  hs.placed.nodup

/--
How a session goes on: documents of `new` types come in at the end, and what the types `collected`
and the types that the new documents show lead to is linked.
-/
structure Extends (c : Catalog) (collected : Set TypeId) (new : List TypeId) (s s' : Session) :
    Prop where
  sound : s'.IsSound c
  settings : s'.settings = s.settings
  documents : ∃ docs, s'.documents.toList = s.documents.toList ++ docs ∧
    docs.map Document.type = new
  registry : s.registry.Advances c s.settings.rootNamespace
    (collected ∪ {t | ∃ d ∈ new, c.Shows s.settings d t}) s'.registry

namespace Extends

theorem refl (h : s.IsSound c) : Extends c ∅ [] s s :=
  ⟨h, rfl, ⟨[], by simp⟩, by simpa using Registry.Advances.refl h.registry⟩

theorem trans (h : Extends c collected new s s') (h' : Extends c more newer s' s'') :
    Extends c (collected ∪ more) (new ++ newer) s s'' := by
  obtain ⟨docs, hd, hn⟩ := h.documents
  obtain ⟨docs', hd', hn'⟩ := h'.documents
  refine ⟨h'.sound, h'.settings.trans h.settings, ⟨docs ++ docs', ?_, ?_⟩, ?_⟩
  · rw [hd', hd, List.append_assoc]
  · rw [List.map_append, hn, hn']
  · have htouched : collected ∪ more ∪ {t | ∃ d ∈ new ++ newer, c.Shows s.settings d t} =
        collected ∪ {t | ∃ d ∈ new, c.Shows s.settings d t} ∪
          (more ∪ {t | ∃ d ∈ newer, c.Shows s.settings d t}) := by
      ext t
      simp only [Set.mem_union, Set.mem_ofPred_eq, List.mem_append, or_and_right, exists_or]
      exact or_or_or_comm
    have hreg := h'.registry
    rw [h.settings] at hreg
    exact htouched ▸ h.registry.trans hreg

theorem congr (h : Extends c collected new s s') (ht : collected = more) (hn : new = newer) :
    Extends c more newer s s' :=
  ht ▸ hn ▸ h

theorem documented (h : Extends c collected new s s') : s'.documented = s.documented ++ new := by
  obtain ⟨docs, hd, hn⟩ := h.documents
  rw [Session.documented, hd, List.map_append, hn, Session.documented]

theorem length_documented (h : Extends c collected new s s') :
    s'.documented.length = s.documented.length + new.length := by
  rw [h.documented, List.length_append]

theorem prefix_linked (h : Extends c collected new s s') : s.linked <+: s'.linked :=
  h.registry.links.map BaseLink.derived

end Extends

end Session

namespace Documenting

open Session

variable {c : Catalog} {s : Session} {id : TypeId} {collected : Set TypeId}

theorem run_recording {α : Type} (x : Recording α) (s : Session) : (recording x).run s =
    (x.run s.registry >>= fun out => pure (out.1, { s with registry := out.2 })) :=
  rfl

theorem recording_extends {α : Type} {x : Recording α} {P : α → Prop} (hs : s.IsSound c)
    (hx : x.Meets c s.settings.rootNamespace collected P) :
    Yields ((recording x).run s) fun out => P out.1 ∧ s.Extends c collected [] out.2 := by
  obtain ⟨⟨a, r⟩, hr, hP, ha⟩ := hx s.registry hs.registry
  refine ⟨(a, { s with registry := r }), ?_, hP, ?_, rfl, ⟨[], by simp⟩, by simpa using ha⟩
  · rw [run_recording, hr, ok_bind, pure_eq_ok]
  · refine { hs with registry := ha.sound, shown := ?_ }
    intro t ht u hu
    exact (ha.linked u).mpr (Or.inl (hs.shown t ht u hu))

/-- Where a type has no document and none is being written, the one that is composed is added. -/
theorem run_generateAt (table : Option (List String)) (hs : s.IsPlaced) (hidle : s.inProgress = [])
    (hnot : id ∉ s.documented) : (generateAt c table id).run s = (do
      let (d, registry) ← (Document.compose c s.settings id table).run s.registry
      return (true, (({ s with registry } : Session).place id).add d)) := by
  have hfree : s.isDocumented id = false := by
    rw [Bool.eq_false_iff]
    exact fun h => hnot (hs.isDocumented_iff.mp h)
  cases h : (Document.compose c s.settings id table).run s.registry with
  | error d =>
    simp [generateAt, hidle, hfree, run_recording, enter, h]
    rfl
  | ok out =>
    simp [generateAt, hidle, hfree, run_recording, enter, leave, place, Session.add, h]

/--
Documenting a type that has no document adds the one document that the catalog, the settings and the
table determine.
-/
theorem generateAt_new (hc : c.IsRegular) (settings : Settings) (table : Option (List String))
    (hid : id ∈ c.ids) :
    ∃ d : Document, d.type = id ∧ ∀ s : Session, s.IsSound c → s.settings = settings →
      id ∉ s.documented → Yields ((generateAt c table id).run s) fun out => out.1 = true ∧
        s.Extends c ∅ [id] out.2 ∧
        out.2.documents = s.documents.push d := by
  obtain ⟨info, hi⟩ := Catalog.mem_ids_iff.mp hid
  obtain ⟨d, rfl, hmeets⟩ := Document.compose_meets hc settings table hi
  refine ⟨d, rfl, ?_⟩
  rintro s hs rfl hnot
  obtain ⟨⟨e, r⟩, hr, he, ha⟩ := hmeets s.registry hs.registry
  obtain rfl : e = d := he
  have hshown : {t | t ∈ info.shownTypes s.settings} = {t | c.Shows s.settings e.type t} := by
    ext t
    constructor
    · exact fun ht => ⟨info, hi, ht⟩
    · rintro ⟨i, hi', ht⟩
      obtain rfl : info = i := Option.some.inj (hi.symm.trans hi')
      exact ht
  rw [hshown] at ha
  let s₁ : Session := { s with registry := r }
  refine ⟨(true, (s₁.place e.type).add e), ?_, rfl, ⟨?_, rfl, ⟨[e], ?_, rfl⟩, ?_⟩, rfl⟩
  · rw [run_generateAt table hs.placed hs.idle hnot, hr]
    rfl
  · have hdoc : ((s₁.place e.type).add e).documented = s.documented ++ [e.type] := documented_add e
    refine ⟨ha.sound, hs.idle, ?_, IsPlaced.add (s := s₁) hs.placed hnot, ?_⟩
    · rw [hdoc, List.forall_mem_append]
      exact ⟨hs.mem_ids, by simpa using hid⟩
    · rw [hdoc, List.forall_mem_append]
      constructor
      · intro t ht u hu
        exact (ha.linked u).mpr (Or.inl (hs.shown t ht u hu))
      · rintro t ht u hu
        rw [List.mem_singleton.mp ht] at hu
        exact (ha.linked u).mpr (Or.inr ⟨u, hu, .refl⟩)
  · exact Array.toList_push
  · simpa [s₁, Session.add, place] using ha

/-- A type that has a document is passed over. -/
theorem generateAt_old (table : Option (List String)) (hs : s.IsPlaced) (hdoc : id ∈ s.documented) :
    (generateAt c table id).run s = .ok (false, s) := by
  simp [generateAt, hs.isDocumented_iff.mpr hdoc]

theorem generateAt_extends (hc : c.IsRegular) (table : Option (List String)) (hs : s.IsSound c)
    (hid : id ∈ c.ids) :
    Yields ((generateAt c table id).run s) fun out => out.1 = decide (id ∉ s.documented) ∧
      s.Extends c ∅ (if id ∈ s.documented then [] else [id]) out.2 := by
  by_cases hdoc : id ∈ s.documented
  · refine ⟨(false, s), generateAt_old table hs.placed hdoc, by simp [hdoc], ?_⟩
    rw [if_pos hdoc]
    exact .refl hs
  · obtain ⟨d, -, hd⟩ := generateAt_new hc s.settings table hid
    refine (hd s hs rfl hdoc).mono fun out ⟨hout, hext, _⟩ => ?_
    rw [if_neg hdoc]
    exact ⟨by simp [hout, hdoc], hext⟩

end Documenting

end TypeDocs
