import TypeDocs.Proofs.Requesting
import TypeDocs.Proofs.Telling

namespace TypeDocs

open Relation

namespace Catalog

/-- The full name of the type that a constructed type is made from. -/
def definitionName (c : Catalog) (info : TypeInfo) : Except Defect (Option String) :=
  match info.definition with
  | none => .ok none
  | some definition => do
    let d ← c.lookup definition
    return some d.fullName

/-- Annotation names; `room` are the types that the name may still go through. -/
def annotationNameWithin (c : Catalog) (room : List TypeId) (id : TypeId) :
    Except Defect String := do
  let info ← c.lookup id
  if _h : id ∈ room then
    match ← c.payload? id with
    | some payload => annotationNameWithin c (room.erase id) payload
    | none =>
      match info.element with
      | some element => return (← annotationNameWithin c (room.erase id) element) ++ "[]"
      | none =>
        let name ← c.definitionName info
        match name.any (· ∈ sequenceDefinitions), name.any (· ∈ mappingDefinitions),
          info.arguments with
        | true, _, a :: _ => return (← annotationNameWithin c (room.erase id) a) ++ "[]"
        | _, true, k :: v :: _ =>
          let key ← annotationNameWithin c (room.erase id) k
          let value ← annotationNameWithin c (room.erase id) v
          return "table<" ++ key ++ ", " ++ value ++ ">"
        | _, _, _ => c.qualifiedName id
  else .error (.endless id)
termination_by room.length
decreasing_by
  all_goals exact length_erase_lt _h

def annotationName (c : Catalog) (id : TypeId) : Except Defect String :=
  c.annotationNameWithin c.ids id

variable {c : Catalog} {id : TypeId}

theorem IsClosed.definitionName_yields {info : TypeInfo} (hc : c.IsClosed)
    (hi : c.get? id = some info) : Yields (c.definitionName info) fun _ => True := by
  unfold definitionName
  cases hd : info.definition with
  | none => exact .pure trivial
  | some definition =>
    have hmem : definition ∈ c.ids := hc id info hi definition (by simp [TypeInfo.references, hd])
    exact (lookup_yields hmem).bind fun _ _ => .pure trivial

/-- Containers are told by what they are made from and by how many arguments there are. -/
theorem container?_eq (info : TypeInfo) : c.container? info = (do
    let name ← c.definitionName info
    match name.any (· ∈ sequenceDefinitions), name.any (· ∈ mappingDefinitions),
      info.arguments with
    | true, _, a :: _ => return some (.sequence (← c.unwrap a))
    | _, true, k :: v :: _ => return some (.mapping (← c.unwrap k) (← c.unwrap v))
    | _, _, _ => return none) := by
  unfold container? definitionName
  cases info.definition with
  | none => rfl
  | some definition =>
    cases hl : c.lookup definition with
    | error d =>
      simp only [hl]
      rfl
    | ok d =>
      simp only [hl, ok_bind, pure_eq_ok, Option.any_some]
      by_cases hs : d.fullName ∈ sequenceDefinitions
      · rcases info.arguments with _ | ⟨a, _ | ⟨b, l⟩⟩ <;> simp [hs]
      · by_cases hm : d.fullName ∈ mappingDefinitions
        · rcases info.arguments with _ | ⟨a, _ | ⟨b, l⟩⟩ <;> simp [hs, hm]
        · simp [hs, hm]

theorem shape_of_payload {payload : TypeId} (hp : c.payload? id = .ok (some payload)) :
    c.shape id = .ok (.nullable payload) := by
  obtain ⟨info, hi, -⟩ := bind_eq_ok.mp hp
  simp [shape, hi, hp]

/-- Where there is neither payload nor element, it is the container that decides. -/
theorem shape_of_container {info : TypeInfo} {s : Shape} (hi : c.get? id = some info)
    (hp : c.payload? id = .ok none) (he : info.element = none)
    (hs : c.container? info = .ok (some s)) : c.shape id = .ok s := by
  simp [shape, lookup_eq_ok.mpr hi, hp, he, hs]

theorem IsClosed.shape_of_no_container {info : TypeInfo} (hc : c.IsClosed)
    (hi : c.get? id = some info) (hp : c.payload? id = .ok none) (he : info.element = none)
    (hs : c.container? info = .ok none) :
    ∃ s : Shape, c.shape id = .ok s ∧ s.isDocumentable = true := by
  obtain ⟨m, hm, -⟩ := hc.delegateMethod_yields hi
  cases m with
  | none => exact ⟨.plain, by simp [shape, lookup_eq_ok.mpr hi, hp, he, hs, hm], rfl⟩
  | some invoke =>
    exact ⟨.delegate (.ofMethod invoke), by simp [shape, lookup_eq_ok.mpr hi, hp, he, hs, hm], rfl⟩

/-- Taking a wrapper off does not show in a name. -/
theorem scriptName_unwrap {t u : TypeId} {n : String} (hu : c.unwrap t = .ok u)
    (hn : c.ScriptName t n) : c.ScriptName u n := by
  obtain ⟨p, hp, hget⟩ := bind_eq_ok.mp hu
  obtain rfl := Except.ok.inj hget
  cases p with
  | none => exact hn
  | some payload =>
    have hs := shape_of_payload hp
    cases hn with
    | nullable hs' hn =>
      obtain rfl := Shape.nullable.inj (Except.ok.inj (hs.symm.trans hs'))
      exact hn
    | whole hs' hd hn =>
      obtain rfl := Except.ok.inj (hs.symm.trans hs')
      cases hd
    | array hs' hn => cases hs.symm.trans hs'
    | sequence hs' hn => cases hs.symm.trans hs'
    | mapping hs' hk hv => cases hs.symm.trans hs'

/-- A part is named like the part without its wrapper, which the shape holds. -/
def NamesPart (c : Catalog) (part : Except Defect String) (t : TypeId) : Prop :=
  ∃ n u, part = .ok n ∧ c.ScriptName t n ∧ c.unwrap t = .ok u ∧ c.ScriptName u n

theorem containerName_yields {info : TypeInfo} {part : TypeId → Except Defect String}
    (hc : c.IsRegular) (hi : c.get? id = some info) (hp : c.payload? id = .ok none)
    (he : info.element = none) (hpart : ∀ a ∈ info.arguments, c.NamesPart (part a) a) : Yields (do
      let name ← c.definitionName info
      match name.any (· ∈ sequenceDefinitions), name.any (· ∈ mappingDefinitions),
        info.arguments with
      | true, _, a :: _ => return (← part a) ++ "[]"
      | _, true, k :: v :: _ =>
        let key ← part k
        let value ← part v
        return "table<" ++ key ++ ", " ++ value ++ ">"
      | _, _, _ => c.qualifiedName id) (c.ScriptName id) := by
  obtain ⟨name, hname, -⟩ := hc.closed.definitionName_yields hi
  have hcontainer := container?_eq (c := c) info
  have hwhole (ho : c.container? info = .ok none) :
      Yields (c.qualifiedName id) (c.ScriptName id) := by
    obtain ⟨s, hs, hdoc⟩ := hc.closed.shape_of_no_container hi hp he ho
    obtain ⟨n, hn, -⟩ := hc.nameIn_yields {} (mem_ids_of_get hi)
    exact ⟨n, hn, .whole hs hdoc hn⟩
  rw [hname, ok_bind] at hcontainer ⊢
  generalize name.any (· ∈ sequenceDefinitions) = isSequence at hcontainer ⊢
  generalize name.any (· ∈ mappingDefinitions) = isMapping at hcontainer ⊢
  generalize info.arguments = arguments at hcontainer hpart ⊢
  rcases arguments with _ | ⟨a, rest⟩
  · cases isSequence <;> cases isMapping <;> exact hwhole hcontainer
  · obtain ⟨n, t, hn, -, ht, hitem⟩ := hpart a List.mem_cons_self
    cases isSequence with
    | true =>
      have hs : c.container? info = .ok (some (.sequence t)) := by simp [hcontainer, ht]
      exact ⟨n ++ "[]", by simp [hn], .sequence (shape_of_container hi hp he hs) hitem⟩
    | false =>
      rcases rest with _ | ⟨v, rest⟩
      · cases isMapping <;> exact hwhole hcontainer
      · cases isMapping with
        | false => exact hwhole hcontainer
        | true =>
          obtain ⟨m, u, hm, -, hu, hvalue⟩ := hpart v (by simp)
          have hs : c.container? info = .ok (some (.mapping t u)) := by
            simp [hcontainer, ht, hu]
          exact ⟨"table<" ++ n ++ ", " ++ m ++ ">", by simp [hn, hm],
            .mapping (shape_of_container hi hp he hs) hitem hvalue⟩

/-- The recursion comes to its end with the script name of the type. -/
theorem annotationNameWithin_yields (hc : c.IsRegular) (room : List TypeId)
    (hr : ∀ t ∈ room, t ∈ c.ids) (hset : Settles c.NamePart room id) :
    Yields (c.annotationNameWithin room id) (c.ScriptName id) := by
  fun_induction annotationNameWithin c room id with
  | case1 room id ih =>
    have hid : id ∈ c.ids := hr id hset.mem
    obtain ⟨info, hi⟩ := mem_ids_iff.mp hid
    have hpart (t : TypeId) (ht : c.NamePart id t) :
        c.NamesPart (c.annotationNameWithin (room.erase id) t) t := by
      obtain ⟨n, hn, hname⟩ := ih hset.mem t (fun u hu => hr u (List.mem_of_mem_erase hu))
        (hset.erase (.single ht))
      obtain ⟨u, hu, -⟩ := hc.closed.unwrap_yields (hc.closed.mem_namePart ht)
      exact ⟨n, u, hn, hname, hu, scriptName_unwrap hu hname⟩
    obtain ⟨p, hp, hpayload⟩ := hc.closed.payload_yields hid
    rw [lookup_eq_ok.mpr hi, ok_bind, dif_pos hset.mem, hp, ok_bind]
    cases p with
    | some payload =>
      obtain ⟨n, -, hn, hname, -⟩ := hpart payload (hpayload payload rfl)
      exact ⟨n, hn, .nullable (shape_of_payload hp) hname⟩
    | none =>
      cases he : info.element with
      | some element =>
        obtain ⟨n, u, hn, -, hu, hname⟩ := hpart element ⟨info, hi, Or.inr (Or.inl he)⟩
        have hs : c.shape id = .ok (.array u) := by
          simp [shape, lookup_eq_ok.mpr hi, hp, he, hu]
        exact ⟨n ++ "[]", by simp [hn], .array hs hname⟩
      | none =>
        exact containerName_yields hc hi hp he fun a ha => hpart a ⟨info, hi, Or.inl ha⟩

end Catalog

namespace Registry

variable {c : Catalog} {r r' : Registry} {tables : TypeId → List String → Prop}

/-- Whatever tables are asked for, if these fit too, a request leaves a registry that fits. -/
theorem Request.perform_fits (htables : ∀ t p, tables t p) {q : Request DescriptorId}
    (hr : r.Fits c tables) (hq : q.IsAllowed c r) :
    Ensures ((q.perform c pure).run r) fun out => out.2.Fits c tables := by
  have htells {α : Type} {x : Recording α} {P : α → Prop} (hx : x.TellsFrom c tables r P) :
      Ensures ((discard x : Recording Unit).run r) fun out => out.2.Fits c tables := by
    rw [discard, LawfulFunctor.map_const, Function.comp, map_eq_pure_bind]
    exact Ensures.bind hx fun out hout => .pure hout.1.fits
  cases q with
  | obtain id => exact htells (Recording.obtain_tells r hr)
  | position id => exact .pure hr
  | qualifiedName h =>
    obtain ⟨d, hd⟩ := issued_iff.mp hq
    exact htells (Recording.qualifiedNameOf_tells hr hd)
  | localName h =>
    obtain ⟨d, hd⟩ := issued_iff.mp hq
    exact htells (Recording.localNameOf_tells hr hd)
  | scriptName h =>
    obtain ⟨d, hd⟩ := issued_iff.mp hq
    exact htells (Recording.scriptNameOf_tells hr hd)
  | table root h =>
    obtain ⟨d, hd⟩ := issued_iff.mp hq
    exact htells (Recording.tableOf_tells hr hd fun t p _ => htables t p)
  | record derived base => exact .ok (hr.link hq.1 hq.2).fits
  | collect h =>
    exact Ensures.mono (Recording.collectFrom_tells hr h) fun _ hout => hout.1.fits

theorem steps_fit (h : ReflTransGen (Step c) {} r) : r.Fits c fun _ _ => True := by
  induction h with
  | refl => exact fits_empty
  | tail _ hstep ih =>
    obtain ⟨q, hq, hrun⟩ := hstep
    exact q.perform_fits (fun _ _ => trivial) ih hq _ hrun

end Registry

namespace Recording

open Registry

variable {c : Catalog} {r r' : Registry} {id : TypeId} {h : DescriptorId}

/-- The handle of a type that is described is at hand. -/
theorem run_handle (hh : r.position? id = some h) : (handle c id).run r = .ok (h, r) :=
  describe_of_position c.ids hh

/-- A handle is had by a request for its type. -/
theorem handle_step (hc : c.IsClosed) (hid : id ∈ c.ids) (hr : r.IsCoherent c) :
    ∃ h d r', (handle c id).run r = .ok (h, r') ∧ Step c r r' ∧ r'.IsCoherent c ∧
      r'.get? h = some d ∧ d.type = id := by
  obtain ⟨⟨h, r'⟩, hrun, hnoted, hh⟩ := handle_yields hc hid hr
  dsimp only at hnoted hh
  obtain ⟨d, hd, ht⟩ := hnoted.coherent.indexed.position_eq_some_iff.mp hh
  have hobtain : (obtain c id).run r = .ok (d, r') := by
    rw [obtain, StateT.run_bind, hrun, ok_bind, run_descriptor hd]
  exact ⟨h, d, r', hrun, ⟨.obtain id, hid, run_discard hobtain⟩, hnoted.coherent, hd, ht⟩

theorem scriptNameOf_step (hc : c.IsRegular) {d : Descriptor} (h' : ReflTransGen (Step c) {} r)
    (hd : r.get? h = some d) : ∃ n r', (scriptNameOf c h).run r = .ok (n, r') ∧
      c.ScriptName d.type n ∧ Step c r r' := by
  obtain ⟨hr, -⟩ := steps_keep hc isCoherent_empty h'
  have hissued : r.Issued h := issued_of_get hd
  obtain ⟨⟨n, r'⟩, hrun, -⟩ := scriptNameOf_notes hc hr hissued
  obtain ⟨-, hname⟩ := scriptNameOf_tells (steps_fit h') hd _ hrun
  exact ⟨n, r', hrun, hname, .scriptName h, hissued, run_discard hrun⟩

/-- After any requests the script name is told, and to tell it is to make more requests. -/
theorem scriptName_steps (hc : c.IsRegular) (hid : id ∈ c.ids)
    (h : ReflTransGen (Step c) {} r) : ∃ n r', (scriptName c id).run r = .ok (n, r') ∧
      c.ScriptName id n ∧ ReflTransGen (Step c) r r' := by
  obtain ⟨hr, -⟩ := steps_keep hc isCoherent_empty h
  obtain ⟨k, d, r₁, hhandle, hfirst, -, hd, rfl⟩ := handle_step hc.closed hid hr
  obtain ⟨n, r', hrun, hname, hthen⟩ := scriptNameOf_step hc (h.tail hfirst) hd
  refine ⟨n, r', ?_, hname, .tail (.single hfirst) hthen⟩
  rw [scriptName, StateT.run_bind, hhandle, ok_bind, hrun]

end Recording

namespace Session

open Recording Documenting Operation

variable {c : Catalog} {s : Session} {id : TypeId}

theorem scriptName_yields (hc : c.IsRegular) (hid : id ∈ c.ids) (hs : s.IsSound c) :
    Yields ((recording (scriptName c id)).run s) fun out => c.ScriptName id out.1 :=
  (recording_extends hs (scriptName_meets hc hid)).mono fun _ h => h.1

theorem performAll_concat {ops : List Operation} {op : Operation} {s₁ s₂ : Session}
    (h : (performAll c ops).run s = .ok ((), s₁)) (hop : (op.perform c).run s₁ = .ok ((), s₂)) :
    (performAll c (ops ++ [op])).run s = .ok ((), s₂) := by
  induction ops generalizing s with
  | nil =>
    obtain ⟨-, rfl⟩ := Prod.mk.inj (Except.ok.inj h)
    rw [List.nil_append, performAll, StateT.run_bind, hop]
    rfl
  | cons o ops ih =>
    rw [List.cons_append, performAll, StateT.run_bind]
    rw [performAll, StateT.run_bind] at h
    obtain ⟨⟨⟨⟩, s'⟩, ho, hrest⟩ := bind_eq_ok.mp h
    rw [ho, ok_bind]
    exact ih hrest

end Session

namespace Catalog

open Recording Documenting Operation

variable {c : Catalog} {id : TypeId}

/--
The script name of a type is its annotation name, whatever has been asked of a registry or a session
before and however often the name is asked for.
-/
theorem scriptName_eq_annotationName (hc : c.IsRegular) (hid : id ∈ c.ids) :
    ∃ n, c.annotationName id = .ok n ∧
      (∀ r, ReflTransGen (Registry.Step c) {} r →
        ∃ r', (scriptName c id).run r = .ok (n, r') ∧ ReflTransGen (Registry.Step c) r r') ∧
      ∀ settings ops, (∀ op ∈ ops, ∀ t ∈ op.types, t ∈ c.ids) →
        ∃ s s', (performAll c ops).run { settings } = .ok ((), s) ∧
          (recording (scriptName c id)).run s = .ok (n, s') ∧
          (performAll c (ops ++ [.scriptName id])).run { settings } = .ok ((), s') := by
  obtain ⟨n, hn, hname⟩ := annotationNameWithin_yields hc c.ids (fun _ ht => ht) (hc.settles hid)
  refine ⟨n, hn, fun r hr => ?_, fun settings ops hops => ?_⟩
  · obtain ⟨m, r', hrun, hm, hsteps⟩ := scriptName_steps hc hid hr
    obtain rfl := hname.unique hm
    exact ⟨r', hrun, hsteps⟩
  · obtain ⟨⟨⟨⟩, s⟩, hs, hcont⟩ := performAll_yields hc ops hops (Session.isSound_empty settings)
    obtain ⟨⟨m, s'⟩, hrun, hm⟩ := Session.scriptName_yields hc hid hcont.sound
    obtain rfl := hname.unique hm
    exact ⟨s, s', hs, hrun, Session.performAll_concat hs (run_discard hrun)⟩

/-- Numbers that may be missing, lists of them, and arrays of such lists under such numbers. -/
def wrapped : Catalog where
  entries := #[⟨"Nullable", { name := "Nullable`1", namespaceName := some "System" }⟩,
    ⟨"Int", { name := "Int" }⟩,
    ⟨"Int?", { name := "Nullable`1", definition := some ⟨0⟩, arguments := [⟨1⟩] }⟩,
    ⟨"List", { name := "List`1", namespaceName := some "System.Collections.Generic" }⟩,
    ⟨"List<Int?>", { name := "List`1", definition := some ⟨3⟩, arguments := [⟨2⟩] }⟩,
    ⟨"List<Int?>[]", { name := "List`1[]", element := some ⟨4⟩ }⟩,
    ⟨"Dictionary", { name := "Dictionary`2", namespaceName := some "System.Collections.Generic" }⟩,
    ⟨"Dictionary<Int?, List<Int?>[]>",
      { name := "Dictionary`2", definition := some ⟨6⟩, arguments := [⟨2⟩, ⟨5⟩] }⟩]

theorem wrapped_isRegular : wrapped.IsRegular := by
  have hclosed : ∀ t ∈ wrapped.ids, ∀ info ∈ wrapped.get? t,
      ∀ u ∈ info.references, u ∈ wrapped.ids := by decide +kernel
  exact isRegular_of_validate (fun t info hi => hclosed t (mem_ids_of_get hi) info hi)
    (by decide +kernel)

/-- The map has the name that it had in the beginning after its values have been asked about. -/
theorem wrapped_scriptName : wrapped.annotationName ⟨7⟩ = .ok "table<Int, Int[][]>" ∧
    ∃ s s', (performAll wrapped [.scriptName ⟨5⟩, .scriptName ⟨7⟩]).run {} = .ok ((), s) ∧
      (recording (scriptName wrapped ⟨7⟩)).run s = .ok ("table<Int, Int[][]>", s') := by
  have hname : wrapped.annotationName ⟨7⟩ = .ok "table<Int, Int[][]>" := by decide +kernel
  obtain ⟨n, hn, -, hsession⟩ := scriptName_eq_annotationName wrapped_isRegular
    (by decide +kernel : (⟨7⟩ : TypeId) ∈ wrapped.ids)
  obtain rfl := Except.ok.inj (hname.symm.trans hn)
  obtain ⟨s, s', hs, hrun, -⟩ := hsession {} [.scriptName ⟨5⟩, .scriptName ⟨7⟩] (by decide +kernel)
  exact ⟨hname, s, s', hs, hrun⟩

end Catalog

end TypeDocs
