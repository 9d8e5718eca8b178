import Mathlib.Data.Set.Card
import TypeDocs.Proofs.Operating

namespace TypeDocs.Registry

open Relation Recording

/-- What can be asked of a registry. Descriptors that are asked about are given by a `δ`. -/
inductive Request (δ : Type) where
  | obtain (id : TypeId)
  | position (id : TypeId)
  | qualifiedName (d : δ)
  | localName (d : δ)
  | scriptName (d : δ)
  | table (root : String) (d : δ)
  | record (derived : DescriptorId) (base : Option DescriptorId)
  | collect (d : δ)
deriving DecidableEq, Repr

namespace Request

/--
The effect of a request on the registry; what it answers is left out. `find` takes what is given for
a descriptor to its handle.
-/
def perform {δ : Type} (c : Catalog) (find : δ → Recording DescriptorId) :
    Request δ → Recording Unit
  | obtain id => discard (Recording.obtain c id)
  | position _ => return
  | qualifiedName d => discard (find d >>= qualifiedNameOf c)
  | localName d => discard (find d >>= localNameOf c)
  | scriptName d => discard (find d >>= scriptNameOf c)
  | table root d => discard (find d >>= tableOf c root)
  | record derived base => modify fun r => (r.link derived base).2
  | collect d => find d >>= collectFrom c

/-- Descriptors are asked for by any type of the catalog, all else is asked of those issued. -/
def IsAllowed (c : Catalog) (r : Registry) : Request DescriptorId → Prop
  | obtain id | position id => id ∈ c.ids
  | qualifiedName h | localName h | scriptName h | table _ h | collect h => r.Issued h
  | record derived base => r.Issued derived ∧ ∀ b, base = some b → r.Issued b

end Request

/-- One request is carried out. -/
def Step (c : Catalog) (r r' : Registry) : Prop :=
  ∃ q : Request DescriptorId, q.IsAllowed c r ∧ (q.perform c pure).run r = .ok ((), r')

variable {c : Catalog} {r r' : Registry}

/-- Every request succeeds, keeps the registry coherent and only adds to it. -/
theorem perform_yields (hc : c.IsRegular) (hr : r.IsCoherent c) {q : Request DescriptorId}
    (hq : q.IsAllowed c r) : Yields ((q.perform c pure).run r) fun out =>
      out.2.IsCoherent c ∧ r.Keeps out.2 := by
  have hnotes {α : Type} {x : Recording α} (hx : x.NotesFrom c r) :
      Yields ((discard x : Recording Unit).run r) fun out =>
        out.2.IsCoherent c ∧ r.Keeps out.2 := by
    obtain ⟨⟨a, r'⟩, hrun, hr'⟩ := hx
    exact ⟨((), r'), run_discard hrun, hr'.coherent, hr'.keeps⟩
  cases q with
  | obtain id => exact hnotes (obtain_notes hc.closed hq r hr)
  | position id => exact ⟨((), r), rfl, hr, .refl r⟩
  | qualifiedName h => exact hnotes (qualifiedNameOf_notes hc hr hq)
  | localName h => exact hnotes (localNameOf_notes hc hr hq)
  | scriptName h => exact hnotes (scriptNameOf_notes hc hr hq)
  | table root h => exact hnotes (tableOf_notes hc root hr hq)
  | record derived base => exact ⟨((), _), rfl, hr.link hq.1 hq.2⟩
  | collect h =>
    obtain ⟨d, hd⟩ := issued_iff.mp hq
    exact (collectFrom_linked hc.closed hr hd).mono fun _ hl => hr.linkedFrom hl

/-- So does every run of requests. -/
theorem steps_keep (hc : c.IsRegular) (hr : r.IsCoherent c) (h : ReflTransGen (Step c) r r') :
    r'.IsCoherent c ∧ r.Keeps r' := by
  induction h with
  | refl => exact ⟨hr, .refl r⟩
  | tail _ hstep ih =>
    obtain ⟨q, hq, hrun⟩ := hstep
    obtain ⟨hr', hk⟩ := (perform_yields hc ih.1 hq).of_eq_ok hrun
    exact ⟨hr', ih.2.trans hk⟩

theorem ncard_types (h : r.types.Nodup) : {t | t ∈ r.types}.ncard = r.descriptors.size := by
  rw [← List.coe_toFinset, Set.ncard_coe_finset, List.toFinset_card_of_nodup h]
  simp [types]

theorem isSome_baseOf_iff {h : DescriptorId} :
    (r.baseOf? h).isSome ↔ h ∈ r.basePairs.toList.map BasePair.derived := by
  simp [baseOf?]

/--
After any requests the index finds a type under a handle just when the descriptor there is of that
type, so there are as many descriptors as types described. Shapes are those of the catalog and
mention described types only. Pairs join handles that were issued, no handle has two, and those that
are noted as based are those that have one. Any request can be made next, and whatever is requested
from then on, handles go on to stand for the same descriptors, with their shapes and names, types
are found under the same handles, and pairs stay in their places with the bases they answer.
-/
theorem requests_coherent (hc : c.IsRegular) (h : ReflTransGen (Step c) {} r) :
    (∀ id h, r.position? id = some h ↔ ∃ d, r.get? h = some d ∧ d.type = id) ∧
      {id | (r.position? id).isSome}.ncard = r.descriptors.size ∧
      (∀ d ∈ r.descriptors.toList, c.shape d.type = .ok d.shape) ∧
      (∀ d ∈ r.descriptors.toList, ∀ t ∈ d.shape.mentioned, (r.position? t).isSome) ∧
      (r.basePairs.toList.map BasePair.derived).Nodup ∧
      (∀ p ∈ r.basePairs.toList, (r.get? p.derived).isSome ∧
        ∀ b, p.base = some b → (r.get? b).isSome) ∧
      (∀ h, r.isBased h = true ↔ (r.baseOf? h).isSome) ∧
      (∀ q : Request DescriptorId, q.IsAllowed c r →
        ∃ r', (q.perform c pure).run r = .ok ((), r')) ∧
      ∀ r', ReflTransGen (Step c) r r' → r.Keeps r' ∧
        (∀ id h, r.position? id = some h → r'.position? id = some h) ∧
        ∀ h b, r.baseOf? h = some b → r'.baseOf? h = some b := by
  obtain ⟨hr, -⟩ := steps_keep hc isCoherent_empty h
  have hindexed : r.IsIndexed := hr.indexed
  have hissued (h : DescriptorId) : (r.get? h).isSome ↔ r.Issued h := by
    rw [issued_iff, Option.isSome_iff_exists]
  simp only [hindexed.isSome_position_iff, hissued, isSome_baseOf_iff]
  refine ⟨fun id h => hindexed.position_eq_some_iff, ncard_types hindexed.types_nodup, hr.shape,
    hr.mentioned, hindexed.nodup, hindexed.issued, fun h => hindexed.isBased_iff, ?_, ?_⟩
  · intro q hq
    obtain ⟨⟨⟨⟩, r'⟩, hrun, -⟩ := perform_yields hc hr hq
    exact ⟨r', hrun⟩
  · intro r' h'
    obtain ⟨hr', hk⟩ := steps_keep hc hr h'
    exact ⟨hk, fun id h hh => hk.position hindexed hr'.indexed hh, fun h b hb => hk.baseOf hb⟩

/-- The array described and linked to its own items, which the catalog does not give as its base. -/
theorem node_requests_coherent : ∃ r, ReflTransGen (Step Session.nodes) {} r ∧
    {id | (r.position? id).isSome}.ncard = 2 ∧ r.baseOf? ⟨0⟩ = some (some ⟨1⟩) ∧
    (∃ r', ((Request.scriptName ⟨0⟩).perform Session.nodes pure).run r = .ok ((), r')) ∧
    ∀ r', ReflTransGen (Step Session.nodes) r r' →
      r'.position? ⟨1⟩ = some ⟨1⟩ ∧ r'.baseOf? ⟨0⟩ = some (some ⟨1⟩) := by
  let r₁ : Registry := (({} : Registry).insert { type := ⟨2⟩, shape := .array ⟨1⟩ }).insert
    { type := ⟨1⟩, shape := .plain }
  let r₂ : Registry := (r₁.link ⟨0⟩ (some ⟨1⟩)).2
  have harray : (⟨2⟩ : TypeId) ∈ Session.nodes.ids := by decide +kernel
  have hobtain : Step Session.nodes {} r₁ := ⟨.obtain ⟨2⟩, harray, by decide +kernel⟩
  have hissued : r₁.Issued ⟨0⟩ ∧ ∀ b, some (⟨1⟩ : DescriptorId) = some b → r₁.Issued b := by
    refine ⟨by decide, ?_⟩
    rintro _ ⟨⟩
    decide
  have hrecord : Step Session.nodes r₁ r₂ := ⟨.record ⟨0⟩ (some ⟨1⟩), hissued, rfl⟩
  have hsteps : ReflTransGen (Step Session.nodes) {} r₂ := .tail (.single hobtain) hrecord
  obtain ⟨-, hcard, -, -, -, -, -, hnext, hkeep⟩ :=
    requests_coherent Session.nodes_isRegular hsteps
  have hallowed : (Request.scriptName ⟨0⟩).IsAllowed Session.nodes r₂ := by
    show r₂.Issued ⟨0⟩
    decide
  have hbase : r₂.baseOf? ⟨0⟩ = some (some ⟨1⟩) := by decide +kernel
  refine ⟨r₂, hsteps, hcard, hbase, hnext _ hallowed, fun r' h' => ?_⟩
  obtain ⟨-, hposition, hbases⟩ := hkeep r' h'
  exact ⟨hposition ⟨1⟩ ⟨1⟩ (by decide +kernel), hbases _ _ hbase⟩

end TypeDocs.Registry
