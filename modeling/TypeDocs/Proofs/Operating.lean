import TypeDocs.Proofs.Discovering
import TypeDocs.Proofs.Reading

namespace TypeDocs

open Session

/-- What can be asked of a session. -/
inductive Operation where
  | obtain (id : TypeId)
  | qualifiedName (id : TypeId)
  | scriptName (id : TypeId)
  | table (id : TypeId)
  | collect (id : TypeId)
  | generate (id : TypeId)
  | generateWithTable (id : TypeId) (path : List String)
  | generateReachable (roots : List TypeId)
deriving DecidableEq, Repr

namespace Operation

/-- The types that an operation is asked about. -/
def types : Operation → List TypeId
  | obtain id | qualifiedName id | scriptName id | table id | collect id => [id]
  | generate id | generateWithTable id _ => [id]
  | generateReachable roots => roots

open Documenting

/-- The effect of an operation on the session; what it answers is left out. -/
def perform (c : Catalog) : Operation → Documenting Unit
  | obtain id => discard (recording (Recording.obtain c id))
  | qualifiedName id => discard (recording (Recording.qualifiedName c id))
  | scriptName id => discard (recording (Recording.scriptName c id))
  | table id => do
    discard (recording (Recording.table c (← get).settings.rootNamespace id))
  | collect id => recording (Recording.collect c id)
  | generate id => discard (Documenting.generate c id)
  | generateWithTable id path => discard (Documenting.generateWithTable c id path)
  | generateReachable roots => discard (Documenting.generateReachable c roots)

def performAll (c : Catalog) : List Operation → Documenting Unit
  | [] => return
  | op :: ops => do
    op.perform c
    performAll c ops

end Operation

namespace Session

/-- A session that has gone on in some way or other. -/
def Continues (c : Catalog) (s s' : Session) : Prop :=
  ∃ collected new, s.Extends c collected new s'

variable {c : Catalog} {s s' s'' : Session}

theorem Continues.refl (hs : s.IsSound c) : Continues c s s :=
  ⟨∅, [], .refl hs⟩

theorem Continues.trans (h : Continues c s s') (h' : Continues c s' s'') : Continues c s s'' := by
  obtain ⟨collected, new, h⟩ := h
  obtain ⟨more, newer, h'⟩ := h'
  exact ⟨collected ∪ more, new ++ newer, h.trans h'⟩

theorem Continues.sound (h : Continues c s s') : s'.IsSound c := by
  obtain ⟨collected, new, h⟩ := h
  exact h.sound

theorem Continues.settings (h : Continues c s s') : s'.settings = s.settings := by
  obtain ⟨collected, new, h⟩ := h
  exact h.settings

/-- What a session says when it is asked. -/
def Answers {α : Type} (s : Session) (x : Recording α) (a : α) : Prop :=
  ∃ s', (Documenting.recording x).run s = .ok (a, s')

theorem Answers.unique {α : Type} {x : Recording α} {a b : α} (ha : s.Answers x a)
    (hb : s.Answers x b) : a = b := by
  obtain ⟨s₁, h₁⟩ := ha
  obtain ⟨s₂, h₂⟩ := hb
  exact (Prod.mk.inj (Except.ok.inj (h₁.symm.trans h₂))).1

theorem IsSound.answers {α : Type} {x : Recording α} {a : α} {touched : Set TypeId}
    (hs : s.IsSound c) (hx : x.Meets c s.settings.rootNamespace touched (· = a)) :
    s.Answers x a := by
  obtain ⟨⟨_, s'⟩, hrun, rfl, -⟩ := Documenting.recording_extends hs hx
  exact ⟨s', hrun⟩

end Session

namespace Operation

open Documenting

variable {c : Catalog} {s : Session}

theorem discard_yields {α : Type} {x : Documenting α} {P : Session → Prop}
    (hx : Yields (x.run s) fun out => P out.2) :
    Yields ((discard x : Documenting Unit).run s) fun out => P out.2 := by
  obtain ⟨⟨a, s'⟩, hr, hP⟩ := hx
  exact ⟨((), s'), by simp [discard, LawfulFunctor.map_const, hr], hP⟩

/-- Every operation on types of the catalog succeeds from every sound session. -/
theorem perform_yields (hc : c.IsRegular) (op : Operation) (hop : ∀ t ∈ op.types, t ∈ c.ids)
    (hs : s.IsSound c) : Yields ((op.perform c).run s) fun out => s.Continues c out.2 := by
  have hrecord {α : Type} {x : Recording α} {touched : Set TypeId} {P : α → Prop}
      (hx : x.Meets c s.settings.rootNamespace touched P) :
      Yields ((recording x).run s) fun out => s.Continues c out.2 :=
    (recording_extends hs hx).mono fun _ h => ⟨_, _, h.2⟩
  have hdetermined {α : Type} {x : Recording α} {touched : Set TypeId}
      (hx : x.Determined c s.settings.rootNamespace touched) :
      Yields ((recording x).run s) fun out => s.Continues c out.2 := by
    obtain ⟨a, ha⟩ := hx
    exact hrecord ha
  have hgenerate (table : Option (List String)) (id : TypeId) (hid : id ∈ c.ids) :
      Yields ((generateAt c table id).run s) fun out => s.Continues c out.2 :=
    (generateAt_extends hc table hs hid).mono fun _ h => ⟨_, _, h.2⟩
  cases op with
  | obtain id =>
    have hid : id ∈ c.ids := hop id List.mem_cons_self
    exact discard_yields (hrecord (Recording.obtain_meets hc.closed hid))
  | qualifiedName id =>
    have hid : id ∈ c.ids := hop id List.mem_cons_self
    exact discard_yields (hdetermined (Recording.qualifiedName_determined hc hid))
  | scriptName id =>
    have hid : id ∈ c.ids := hop id List.mem_cons_self
    exact discard_yields (hdetermined (Recording.scriptName_determined hc hid))
  | table id =>
    have hid : id ∈ c.ids := hop id List.mem_cons_self
    exact discard_yields (hdetermined (Recording.table_determined hc hid))
  | collect id =>
    have hid : id ∈ c.ids := hop id List.mem_cons_self
    exact hdetermined (Recording.collect_determined hc.closed hid)
  | generate id => exact discard_yields (hgenerate none id (hop id List.mem_cons_self))
  | generateWithTable id path =>
    exact discard_yields (hgenerate (some path) id (hop id List.mem_cons_self))
  | generateReachable roots =>
    have hreach := generateReachable_extends hc hop hs
    exact discard_yields (hreach.mono fun _ h => ⟨_, _, h.1⟩)

/-- So does every run of them. -/
theorem performAll_yields (hc : c.IsRegular) (ops : List Operation)
    (hops : ∀ op ∈ ops, ∀ t ∈ op.types, t ∈ c.ids) (hs : s.IsSound c) :
    Yields ((performAll c ops).run s) fun out => s.Continues c out.2 := by
  induction ops generalizing s with
  | nil => exact .pure (.refl hs)
  | cons op ops ih =>
    rw [List.forall_mem_cons] at hops
    rw [performAll, StateT.run_bind]
    refine (perform_yields hc op hops.1 hs).bind fun out h₁ => ?_
    exact (ih hops.2 h₁.sound).mono fun _ h₂ => h₁.trans h₂

end Operation

namespace Session

open Documenting Operation

variable {c : Catalog}

/-- A class with a base and with a field that comes back to it by way of an array. -/
def nodesText : String :=
  "<typeCatalog><type name=\"Object\"/><type name=\"Node\" base=\"Object\"><field name=\"next\" " ++
    "type=\"Node[]\"/></type><type name=\"Node[]\" element=\"Node\"/></typeCatalog>"

/-- The catalog of that text. -/
def nodes : Catalog where
  entries := #[⟨"Object", { name := "Object" }⟩,
    ⟨"Node", { name := "Node", base := some ⟨0⟩, fields := [{ name := "next", type := ⟨2⟩ }] }⟩,
    ⟨"Node[]", { name := "Node[]", element := some ⟨1⟩ }⟩]

theorem parse_nodes : Catalog.parse nodesText = .ok nodes := by
  decide +kernel

theorem validate_nodes : nodes.validate = .ok () := by
  decide +kernel

theorem nodes_isRegular : nodes.IsRegular :=
  Catalog.isRegular_of_validate (Catalog.parse_isClosed nodesText nodes parse_nodes) validate_nodes

/-- Both sessions succeed in adding one document, and it is the same for both. -/
def AddAlike (x : Documenting Bool) (s t : Session) : Prop :=
  ∃ d s' t', x.run s = .ok (true, s') ∧ s'.documents = s.documents.push d ∧
    x.run t = .ok (true, t') ∧ t'.documents = t.documents.push d

/--
What is written about a type does not depend on the history of the session: after any operations the
document of a type that has none comes out as it would in a fresh session.
-/
theorem document_history_free (hc : c.IsRegular) (settings : Settings) (ops : List Operation)
    (hops : ∀ op ∈ ops, ∀ t ∈ op.types, t ∈ c.ids) :
    ∃ s, (performAll c ops).run { settings } = .ok ((), s) ∧
      ∀ id ∈ c.ids, id ∉ s.documented → AddAlike (generate c id) s { settings } ∧
        ∀ path, AddAlike (generateWithTable c id path) s { settings } := by
  have hfresh := isSound_empty (c := c) settings
  obtain ⟨⟨⟨⟩, s⟩, hs, hcont⟩ := performAll_yields hc ops hops hfresh
  refine ⟨s, hs, fun id hid hnot => ?_⟩
  have halike (table : Option (List String)) : AddAlike (generateAt c table id) s { settings } := by
    obtain ⟨d, -, hd⟩ := generateAt_new hc settings table hid
    obtain ⟨⟨b, s'⟩, hb, rfl, -, hpush⟩ := hd s hcont.sound hcont.settings hnot
    obtain ⟨⟨b', t'⟩, hb', rfl, -, hpush'⟩ := hd { settings } hfresh rfl (by simp [documented])
    exact ⟨d, s', t', hb, hpush, hb', hpush'⟩
  exact ⟨halike none, fun path => halike (some path)⟩

/-- The class comes out the same after its base has been documented and its array named. -/
theorem node_document_history_free :
    ∃ s, (performAll nodes [.scriptName ⟨2⟩, .generate ⟨0⟩]).run {} = .ok ((), s) ∧
      AddAlike (generate nodes ⟨1⟩) s {} ∧
      AddAlike (generateWithTable nodes ⟨1⟩ ["Nodes"]) s {} := by
  have hrun : ((performAll nodes [.scriptName ⟨2⟩, .generate ⟨0⟩]).run {}).map
      (fun out => out.2.documented) = .ok [⟨0⟩] := by
    decide +kernel
  obtain ⟨s, hs, hall⟩ := document_history_free nodes_isRegular {}
    [.scriptName ⟨2⟩, .generate ⟨0⟩] (by decide +kernel)
  rw [hs] at hrun
  have hdoc : s.documented = [⟨0⟩] := Except.ok.inj hrun
  obtain ⟨hnone, hsome⟩ := hall ⟨1⟩ (by decide +kernel) (by simp [hdoc])
  exact ⟨s, hs, hnone, hsome ["Nodes"]⟩

/--
Reachable documentation ends and arrives at the least saturated links and documents. New documents
come in the order of the roots and then of the links, each once, and their number is the answer. The
order of the roots and repetitions among them do not show in what is linked and documented.
-/
theorem reachable_isLeast (hc : c.IsRegular) (settings : Settings) (ops : List Operation)
    (hops : ∀ op ∈ ops, ∀ t ∈ op.types, t ∈ c.ids) :
    ∃ s, (performAll c ops).run { settings } = .ok ((), s) ∧
      ∀ roots : List TypeId, (∀ t ∈ roots, t ∈ c.ids) →
        ∃ count s', (generateReachable c roots).run s = .ok (count, s') ∧
          IsLeast (s.saturations c roots) ({t | t ∈ s'.linked}, {t | t ∈ s'.documented}) ∧
          s'.documented = s.documented ++
            newcomers s.documented (roots ++ s'.linked.filter c.isDiscoverable) ∧
          s'.documented.Nodup ∧ s.documented.length + count = s'.documented.length ∧
          (∃ first s₁ later, (roots.mapM (generateRoot c)).run s = .ok (first, s₁) ∧
            Drains c 0 s₁ later s' ∧ count = first.sum + later) ∧
          ∀ others : List TypeId, (∀ t, t ∈ others ↔ t ∈ roots) →
            ∃ s'', (generateReachable c others).run s = .ok (count, s'') ∧
              (∀ t, t ∈ s''.linked ↔ t ∈ s'.linked) ∧
              ∀ t, t ∈ s''.documented ↔ t ∈ s'.documented := by
  obtain ⟨⟨⟨⟩, s⟩, hs, hcont⟩ := performAll_yields hc ops hops (isSound_empty settings)
  have hsound : s.IsSound c := hcont.sound
  refine ⟨s, hs, fun roots hroots => ?_⟩
  obtain ⟨⟨count, s'⟩, hrun, hext, hcount⟩ := generateReachable_extends hc hroots hsound
  have hleast := (generateReachable_isLeast hc hroots hsound).of_eq_ok hrun
  have hdrains := (generateReachable_drains hc hroots hsound).of_eq_ok hrun
  have hlength : s.documented.length + count = s'.documented.length :=
    (congrArg (s.documented.length + ·) hcount).trans hext.length_documented.symm
  refine ⟨count, s', hrun, hleast, hext.documented, hext.sound.nodup, hlength, hdrains, ?_⟩
  intro others hothers
  have hothers' : ∀ t ∈ others, t ∈ c.ids := fun t ht => hroots t ((hothers t).mp ht)
  obtain ⟨⟨count', s''⟩, hrun', hext', hcount'⟩ := generateReachable_extends hc hothers' hsound
  have hleast' := (generateReachable_isLeast hc hothers' hsound).of_eq_ok hrun'
  rw [saturations_congr c s hothers] at hleast'
  have hpair := Prod.ext_iff.mp (hleast'.unique hleast)
  have hlinked : ∀ t, t ∈ s''.linked ↔ t ∈ s'.linked := Set.ext_iff.mp hpair.1
  have hdocumented : ∀ t, t ∈ s''.documented ↔ t ∈ s'.documented := Set.ext_iff.mp hpair.2
  have hperm := (List.perm_ext_iff_of_nodup hext'.sound.nodup hext.sound.nodup).mpr hdocumented
  have hlength' : s.documented.length + count' = s''.documented.length :=
    (congrArg (s.documented.length + ·) hcount').trans hext'.length_documented.symm
  have hsame : count' = count := by
    rw [hperm.length_eq, ← hlength] at hlength'
    exact Nat.add_left_cancel hlength'
  exact ⟨s'', hsame ▸ hrun', hlinked, hdocumented⟩

/-- From the array on, once the base of the class has a document. -/
theorem node_reachable_isLeast :
    ∃ s, (performAll nodes [.scriptName ⟨2⟩, .generate ⟨0⟩]).run {} = .ok ((), s) ∧
      ∃ count s', (generateReachable nodes [⟨2⟩]).run s = .ok (count, s') ∧
        IsLeast (s.saturations nodes [⟨2⟩]) ({t | t ∈ s'.linked}, {t | t ∈ s'.documented}) ∧
        s.documented.length + count = s'.documented.length := by
  obtain ⟨s, hs, hall⟩ := reachable_isLeast nodes_isRegular {}
    [.scriptName ⟨2⟩, .generate ⟨0⟩] (by decide +kernel)
  obtain ⟨count, s', hrun, hleast, -, -, hlength, -⟩ := hall [⟨2⟩] (by decide +kernel)
  exact ⟨s, hs, count, s', hrun, hleast, hlength⟩

end Session

end TypeDocs
