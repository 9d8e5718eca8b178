import TypeDocs.Proofs.Operating

namespace TypeDocs

/-- The operations that may add documents. -/
def Operation.Documents : Operation → Prop
  | .generate _ | .generateWithTable _ _ | .generateReachable _ => True
  | .obtain _ | .qualifiedName _ | .scriptName _ | .table _ | .collect _ => False

namespace Session

variable {c : Catalog} {s s' : Session} {id : TypeId}

theorem Continues.documents_prefix (h : Continues c s s') :
    s.documents.toList <+: s'.documents.toList := by
  obtain ⟨collected, new, h⟩ := h
  obtain ⟨docs, hd, -⟩ := h.documents
  exact ⟨docs, hd.symm⟩

/-- A type is noted at the place of its document, and nowhere else. -/
theorem IsPlaced.emitted_iff (hs : s.IsPlaced) {i : Nat} :
    s.emitted.get? id = some i ↔ (s.documents[i]?).map Document.type = some id := by
  rw [hs id i, documented]
  simp

/--
One document of the type comes in at the end if there was none, and is found from then on; if there
was one, the session stays as it is. The answer tells which.
-/
def DocumentsOnce (s : Session) (id : TypeId) (x : Documenting Bool) : Prop :=
  ∃ answer s', x.run s = .ok (answer, s') ∧
    (answer = true ↔ ∀ d ∈ s.documents.toList, d.type ≠ id) ∧
    (answer = true → ∃ d, d.type = id ∧ s'.documents = s.documents.push d ∧
      s'.document? id = some d) ∧
    (answer = false → s' = s)

end Session

namespace Documenting

open Session

variable {c : Catalog} {s s' : Session} {id : TypeId}

theorem generateAt_once (hc : c.IsRegular) (table : Option (List String)) (hs : s.IsSound c)
    (hid : id ∈ c.ids) : s.DocumentsOnce id (generateAt c table id) := by
  by_cases hdoc : id ∈ s.documented
  · refine ⟨false, s, generateAt_old table hs.placed hdoc, ?_, by simp, fun _ => rfl⟩
    simpa using mem_documented.mp hdoc
  · obtain ⟨d, hd, hnew⟩ := generateAt_new hc s.settings table hid
    obtain ⟨⟨answer, s'⟩, hrun, rfl, hext, hpush⟩ := hnew s hs rfl hdoc
    have hfound : s'.document? id = some d := by
      refine hext.sound.placed.document_eq_some_iff.mpr ⟨?_, hd⟩
      rw [hpush]
      simp
    refine ⟨true, s', hrun, ?_, fun _ => ⟨d, hd, hpush, hfound⟩, by simp⟩
    simpa [mem_documented] using hdoc

theorem documents_recording {α : Type} {x : Recording α} {a : α}
    (h : (recording x).run s = .ok (a, s')) : s'.documents = s.documents := by
  rw [run_recording] at h
  obtain ⟨⟨b, r⟩, -, hout⟩ := bind_eq_ok.mp h
  obtain ⟨-, rfl⟩ := Prod.mk.inj (Except.ok.inj hout)
  rfl

end Documenting

namespace Operation

open Session Documenting

variable {c : Catalog} {s s' : Session}

theorem documents_discard {α : Type} {x : Recording α} {out : Unit}
    (h : (discard (recording x) : Documenting Unit).run s = .ok (out, s')) :
    s'.documents = s.documents := by
  rw [discard, LawfulFunctor.map_const, Function.comp, map_eq_pure_bind, StateT.run_bind] at h
  obtain ⟨⟨a, t⟩, hx, hout⟩ := bind_eq_ok.mp h
  obtain ⟨-, rfl⟩ := Prod.mk.inj (Except.ok.inj hout)
  exact documents_recording hx

/-- What only records leaves the documents alone. -/
theorem documents_perform {op : Operation} (hop : ¬ op.Documents)
    (h : (op.perform c).run s = .ok ((), s')) : s'.documents = s.documents := by
  cases op with
  | obtain id => exact documents_discard h
  | qualifiedName id => exact documents_discard h
  | scriptName id => exact documents_discard h
  | table id => exact documents_discard (x := Recording.table c s.settings.rootNamespace id) h
  | collect id => exact documents_recording h
  | generate id => exact absurd trivial hop
  | generateWithTable id path => exact absurd trivial hop
  | generateReachable roots => exact absurd trivial hop

theorem documents_performAll {ops : List Operation} (hops : ∀ op ∈ ops, ¬ op.Documents)
    (h : (performAll c ops).run s = .ok ((), s')) : s'.documents = s.documents := by
  induction ops generalizing s with
  | nil =>
    obtain ⟨-, rfl⟩ := Prod.mk.inj (Except.ok.inj h)
    rfl
  | cons op ops ih =>
    rw [List.forall_mem_cons] at hops
    rw [performAll, StateT.run_bind] at h
    obtain ⟨⟨⟨⟩, s₁⟩, h₁, h₂⟩ := bind_eq_ok.mp h
    exact (ih hops.2 h₂).trans (documents_perform hops.1 h₁)

end Operation

namespace Session

open Documenting Operation

variable {c : Catalog}

/--
After any operations no document is being written, types have one document at most, and types are
noted at the places of their documents, so a document is found under its type. Whatever is done
next, the documents stay in place and new ones come in after them, and only by the operations that
document types. Asking for the document of a type adds it just when there is none.
-/
theorem documents_recorded (hc : c.IsRegular) (settings : Settings) (ops : List Operation)
    (hops : ∀ op ∈ ops, ∀ t ∈ op.types, t ∈ c.ids) :
    ∃ s, (performAll c ops).run { settings } = .ok ((), s) ∧ s.inProgress = [] ∧
      (s.documents.toList.map Document.type).Nodup ∧
      (∀ id i, s.emitted.get? id = some i ↔ (s.documents[i]?).map Document.type = some id) ∧
      (∀ id, s.isDocumented id = true ↔ ∃ d ∈ s.documents.toList, d.type = id) ∧
      (∀ id d, s.document? id = some d ↔ d ∈ s.documents.toList ∧ d.type = id) ∧
      (∀ more : List Operation, (∀ op ∈ more, ∀ t ∈ op.types, t ∈ c.ids) →
        ∃ s', (performAll c more).run s = .ok ((), s') ∧
          s.documents.toList <+: s'.documents.toList ∧
          ((∀ op ∈ more, ¬ op.Documents) → s'.documents = s.documents)) ∧
      ∀ id ∈ c.ids, s.DocumentsOnce id (generate c id) ∧
        ∀ path, s.DocumentsOnce id (generateWithTable c id path) := by
  obtain ⟨⟨⟨⟩, s⟩, hs, hcont⟩ := performAll_yields hc ops hops (isSound_empty settings)
  have hsound : s.IsSound c := hcont.sound
  refine ⟨s, hs, hsound.idle, hsound.nodup, ?_, ?_, ?_, ?_, ?_⟩
  · exact fun id i => hsound.placed.emitted_iff
  · exact fun id => hsound.placed.isDocumented_iff.trans mem_documented
  · exact fun id d => hsound.placed.document_eq_some_iff
  · intro more hmore
    obtain ⟨⟨⟨⟩, s'⟩, hs', hcont'⟩ := performAll_yields hc more hmore hsound
    exact ⟨s', hs', hcont'.documents_prefix, fun h => documents_performAll h hs'⟩
  · intro id hid
    exact ⟨generateAt_once hc none hsound hid,
      fun path => generateAt_once hc (some path) hsound hid⟩

/-- The class is documented once, however often and in whatever way it is asked for. -/
theorem node_documents_recorded :
    ∃ s, (performAll nodes [.generate ⟨1⟩, .generateReachable [⟨1⟩], .collect ⟨2⟩]).run {} =
        .ok ((), s) ∧
      s.documents.toList.map Document.type = [⟨1⟩, ⟨0⟩] ∧
      (∃ s', (performAll nodes [.scriptName ⟨2⟩]).run s = .ok ((), s') ∧
        s'.documents = s.documents) ∧
      s.DocumentsOnce ⟨1⟩ (generateWithTable nodes ⟨1⟩ ["Nodes"]) := by
  have hrun : ((performAll nodes
      [.generate ⟨1⟩, .generateReachable [⟨1⟩], .collect ⟨2⟩]).run {}).map
      (fun out => out.2.documented) = .ok [⟨1⟩, ⟨0⟩] := by
    decide +kernel
  obtain ⟨s, hs, -, -, -, -, -, hmore, honce⟩ := documents_recorded nodes_isRegular {}
    [.generate ⟨1⟩, .generateReachable [⟨1⟩], .collect ⟨2⟩] (by decide +kernel)
  rw [hs] at hrun
  obtain ⟨s', hs', -, hsame⟩ := hmore [.scriptName ⟨2⟩] (by decide +kernel)
  exact ⟨s, hs, Except.ok.inj hrun, ⟨s', hs', hsame (by simp [Operation.Documents])⟩,
    (honce ⟨1⟩ (by decide +kernel)).2 ["Nodes"]⟩

end Session

end TypeDocs
