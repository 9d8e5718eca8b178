import TypeDocs.Proofs.Operating

namespace TypeDocs

/-- Documents in their places, all of them as `D` says, of a catalog that the registry fits. -/
structure Session.Holds (c : Catalog) (settings : Settings) (D : Document → Prop) (s : Session) :
    Prop where
  configured : s.settings = settings
  registry : s.registry.Agrees c settings.rootNamespace
  idle : s.inProgress = []
  placed : s.IsPlaced
  documents : ∀ d ∈ s.documents.toList, D d

/-- Work that adds documents only as `D` says. -/
abbrev Documenting.Upholds {α : Type} (c : Catalog) (settings : Settings) (D : Document → Prop)
    (x : Documenting α) (Q : α → Prop) : Prop :=
  Maintains (Session.Holds c settings D) x Q

/-- The document that is composed for a type is as `D` says. -/
def Document.Composes (c : Catalog) (settings : Settings) (D : Document → Prop)
    (table : Option (List String)) (id : TypeId) : Prop :=
  (compose c settings id table).Finds c settings.rootNamespace fun d => d.type = id ∧ D d

variable {c : Catalog} {settings : Settings} {D : Document → Prop} {s : Session}
  {id : TypeId}

theorem Document.composes {table : Option (List String)}
    (hD : ∀ d : Document, d.type = id → d.IsComposed c settings table → D d) :
    Composes c settings D table id := by
  unfold Composes
  exact (compose_finds settings id table).mono fun d ⟨ht, hd⟩ => ⟨ht, hD d ht hd⟩

/-- What a document shows has been asked for. -/
theorem Document.IsComposed.mem_ids_of_shows {table : Option (List String)} {d : Document}
    (hd : d.IsComposed c settings table) {t : TypeId} (ht : c.Shows settings d.type t) :
    t ∈ c.ids := by
  obtain ⟨info, -, -, type, hi, -, -, hshown, -⟩ := hd.text
  obtain ⟨info', hi', ht⟩ := ht
  obtain rfl : info = info' := Option.some.inj (hi.symm.trans hi')
  exact (hshown t ht).mem_ids

namespace Session

theorem holds_empty : Holds c settings D { settings } :=
  ⟨rfl, Registry.fits_empty, rfl, isPlaced_empty settings, by simp⟩

end Session

namespace Documenting

open Session

theorem recording_upholds {α : Type} {x : Recording α} {Q : α → Prop}
    (hx : x.Finds c settings.rootNamespace Q) : (recording x).Upholds c settings D Q := by
  intro s hs
  rw [run_recording]
  refine Ensures.bind (hx s.registry hs.registry) fun out ⟨hr, hQ⟩ => .pure ⟨?_, hQ⟩
  exact ⟨hs.configured, hr.fits, hs.idle, hs.placed, hs.documents⟩

theorem generateAt_upholds {table : Option (List String)}
    (hcompose : Document.Composes c settings D table id) :
    (generateAt c table id).Upholds c settings D fun _ => True := by
  intro s hs
  by_cases hdoc : id ∈ s.documented
  · rw [generateAt_old table hs.placed hdoc]
    exact .ok ⟨hs, trivial⟩
  · obtain ⟨rfl, hregistry, hidle, hplaced, hdocuments⟩ := hs
    rw [run_generateAt table hplaced hidle hdoc]
    refine Ensures.bind (hcompose s.registry hregistry) fun ⟨d, r⟩ ⟨hr, hd, hD⟩ =>
      .pure ⟨?_, trivial⟩
    obtain rfl : d.type = id := hd
    refine ⟨rfl, hr.fits, hidle, IsPlaced.add (s := { s with registry := r }) hplaced hdoc, ?_⟩
    show ∀ e ∈ (s.documents.push d).toList, D e
    rw [Array.toList_push, List.forall_mem_append, List.forall_mem_singleton]
    exact ⟨hdocuments, hD⟩

/-- Discovery adds documents of the types that it documents. -/
theorem generateDiscovered_upholds (h : DescriptorId)
    (hD : ∀ t, c.isDiscoverable t = true → Document.Composes c settings D none t) :
    (generateDiscovered c h).Upholds c settings D fun _ => True := by
  have hdescriptor : (recording (Recording.descriptor h)).Upholds c settings D
      fun d => c.shape d.type = .ok d.shape := by
    refine recording_upholds fun r hr => ?_
    rw [Recording.TellsFrom]
    cases hd : r.get? h with
    | none => simpa [Recording.descriptor, hd] using .error _
    | some d =>
      rw [Recording.run_descriptor hd]
      exact .ok ⟨.refl hr, (hr.get hd).shape⟩
  refine hdescriptor.bind fun d hshape => ?_
  split
  · rename_i hdoc
    refine (Maintains.lift (.self _)).bind fun info hi => ?_
    split
    · exact .pure trivial
    · rename_i href
      have hget : c.get? d.type = some info := Catalog.lookup_eq_ok.mp hi
      have hdisc : c.isDiscoverable d.type = true := by
        simp [Catalog.isDiscoverable, hshape, hget, hdoc, href]
      exact (generateAt_upholds (hD d.type hdisc)).andPure _
  · exact .pure trivial

/-- Beyond the roots, documents are of types that discovery documents. -/
theorem generateLinked_upholds
    (hD : ∀ t, c.isDiscoverable t = true → Document.Composes c settings D none t)
    (limit position : Nat) :
    (generateLinked c limit position).Upholds c settings D fun _ => True := by
  induction limit generalizing position with
  | zero => exact .pure trivial
  | succ limit ih =>
    intro s hs
    cases hp : s.registry.basePairs[position]? with
    | none =>
      have hrun : (generateLinked c (limit + 1) position).run s = .ok (0, s) := by
        simp [generateLinked, hp]
      rw [hrun]
      exact .ok ⟨hs, trivial⟩
    | some pair =>
      have hrun : (generateLinked c (limit + 1) position).run s = (do
          let produced ← generateDiscovered c pair.derived
          return produced + (← generateLinked c limit (position + 1))).run s := by
        simp [generateLinked, hp]
      rw [hrun]
      have hrest : (do
          let produced ← generateDiscovered c pair.derived
          return produced + (← generateLinked c limit (position + 1))).Upholds c settings D
          fun _ => True :=
        (generateDiscovered_upholds pair.derived hD).bind
          fun _ _ => (ih (position + 1)).andPure _
      exact hrest s hs

theorem generateReachable_upholds
    (hD : ∀ t, c.isDiscoverable t = true → Document.Composes c settings D none t)
    {roots : List TypeId} (hroots : ∀ t ∈ roots, Document.Composes c settings D none t) :
    (generateReachable c roots).Upholds c settings D fun _ => True := by
  have hroot (t : TypeId) (ht : t ∈ roots) :
      (generateRoot c t).Upholds c settings D fun _ => True :=
    (recording_upholds Recording.collect_tells).bind fun _ _ =>
      (generateAt_upholds (hroots t ht)).andPure _
  exact (Maintains.mapM hroot).bind fun _ _ => (generateLinked_upholds hD _ _).andPure _

end Documenting

namespace Operation

open Documenting

/-- An operation adds documents as they are composed. -/
theorem perform_upholds (op : Operation)
    (hD : ∀ id, Document.Composes c settings D none id)
    (htable : ∀ id path, op = .generateWithTable id path →
      Document.Composes c settings D (some path) id) :
    (op.perform c).Upholds c settings D fun _ => True := by
  cases op with
  | obtain id => exact (recording_upholds Recording.obtain_tells).discard
  | qualifiedName id => exact (recording_upholds Recording.qualifiedName_tells).discard
  | scriptName id => exact (recording_upholds Recording.scriptName_tells).discard
  | table id =>
    intro s hs
    obtain rfl := hs.configured
    have hrun : ((table id).perform c).run s =
        (discard (recording (Recording.table c s.settings.rootNamespace id))).run s := by
      rw [perform, StateT.run_bind]
      rfl
    rw [hrun]
    exact (recording_upholds (Recording.table_tells fun _ _ h => h)).discard s hs
  | collect id => exact (recording_upholds Recording.collect_tells).mono fun _ _ => trivial
  | generate id => exact (generateAt_upholds (hD id)).discard
  | generateWithTable id path => exact (generateAt_upholds (htable id path rfl)).discard
  | generateReachable roots =>
    exact (generateReachable_upholds (fun t _ => hD t) fun t _ => hD t).discard

theorem performAll_upholds (ops : List Operation)
    (hD : ∀ table id, Document.Composes c settings D table id) :
    (performAll c ops).Upholds c settings D fun _ => True := by
  induction ops with
  | nil => exact .pure trivial
  | cons op ops ih =>
    exact (perform_upholds op (hD none) fun id path _ => hD (some path) id).bind fun _ _ => ih

end Operation

end TypeDocs
