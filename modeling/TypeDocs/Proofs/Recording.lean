import TypeDocs.Proofs.Sound

namespace TypeDocs

open Relation

/-- `x` succeeds with a result as `P` says, and links what the types `touched` lead to. -/
def Recording.Meets {α : Type} (c : Catalog) (root : String) (touched : Set TypeId)
    (x : Recording α) (P : α → Prop) : Prop :=
  ∀ r : Registry, r.IsSound c root →
    Yields (x.run r) fun out => P out.1 ∧ r.Advances c root touched out.2

/-- The result of `x` is fixed by the catalog and the root namespace. -/
def Recording.Determined {α : Type} (c : Catalog) (root : String) (touched : Set TypeId)
    (x : Recording α) : Prop :=
  ∃ a, x.Meets c root touched (· = a)

namespace Recording

variable {c : Catalog} {root : String} {touched more : Set TypeId} {α β : Type}

section Rules

variable {x : Recording α} {f : α → Recording β} {P : α → Prop} {Q : β → Prop}

theorem Meets.pure {a : α} (h : P a) : Meets c root ∅ (pure a) P :=
  fun _ hr => .pure ⟨h, .refl hr⟩

theorem Meets.bind (hx : x.Meets c root touched P)
    (hf : ∀ a, P a → (f a).Meets c root more Q) : (x >>= f).Meets c root (touched ∪ more) Q := by
  intro r hr
  rw [StateT.run_bind]
  refine (hx r hr).bind fun out ⟨hP, h₁⟩ => ?_
  exact (hf out.1 hP out.2 h₁.sound).mono fun _ ⟨hQ, h₂⟩ => ⟨hQ, h₁.trans h₂⟩

theorem Meets.bindEq {a : α} (hx : x.Meets c root touched (· = a))
    (hf : (f a).Meets c root more Q) : (x >>= f).Meets c root (touched ∪ more) Q :=
  hx.bind fun _ h => h ▸ hf

theorem Meets.mono {P' : α → Prop} (hx : x.Meets c root touched P) (h : ∀ a, P a → P' a) :
    x.Meets c root touched P' :=
  fun r hr => (hx r hr).mono fun _ ⟨hP, ha⟩ => ⟨h _ hP, ha⟩

theorem Meets.lift {e : Except Defect α} (h : Yields e P) :
    Meets c root ∅ (liftM e : Recording α) P := by
  intro r hr
  obtain ⟨a, rfl, hP⟩ := h
  exact ⟨(a, r), rfl, hP, .refl hr⟩

theorem Meets.congr (hx : x.Meets c root touched P) (h : touched = more) :
    x.Meets c root more P :=
  h ▸ hx

/-- Going on without touching any more types. -/
theorem Meets.andThen (hx : x.Meets c root touched P)
    (hf : ∀ a, P a → (f a).Meets c root ∅ Q) : (x >>= f).Meets c root touched Q :=
  (hx.bind hf).congr (Set.union_empty touched)

/-- A description with one solution at most determines the recording. -/
theorem Meets.determined (hx : x.Meets c root touched P) (h : ∀ a b, P a → P b → a = b) :
    x.Determined c root touched := by
  obtain ⟨out, -, hP, -⟩ := hx {} Registry.isSound_empty
  exact ⟨out.1, hx.mono fun a ha => h a out.1 ha hP⟩

end Rules

section Names

variable {id : TypeId}

/-- What succeeds without linking anything meets all that it says when it comes to its end. -/
theorem Meets.of_notes {x : Recording α} {P : α → Prop} (hn : x.Notes c)
    (hf : x.Finds c root P) : x.Meets c root ∅ P := by
  intro r hr
  obtain ⟨out, hrun, hr'⟩ := hn r hr.coherent
  obtain ⟨hext, hP⟩ := hf r hr.agrees out hrun
  exact ⟨out, hrun, hP, .of_keeps hr hr'.coherent hext.fits hr'.keeps hr'.basePairs⟩

/-- A type has one descriptor, which says what the catalog does. -/
theorem obtain_meets (hc : c.IsClosed) (hid : id ∈ c.ids) :
    Meets c root ∅ (obtain c id) fun d => d.type = id ∧ d.Agrees c root :=
  .of_notes (obtain_notes hc hid) obtain_tells

/-- The qualified name is that of the resolved type. -/
theorem qualifiedName_meets (hc : c.IsRegular) {s : Shape} (hs : c.shape id = .ok s) {n : String}
    (hn : c.qualifiedName (s.resolve id) = .ok n) :
    (qualifiedName c id).Meets c root ∅ (· = n) := by
  refine .of_notes (qualifiedName_notes hc (Catalog.mem_ids_of_shape hs))
    (qualifiedName_tells.mono ?_)
  rintro m ⟨s', hs', hm⟩
  obtain rfl : s = s' := Except.ok.inj (hs.symm.trans hs')
  exact Except.ok.inj (hm.symm.trans hn)

theorem localName_meets (hc : c.IsRegular) {s : Shape} (hs : c.shape id = .ok s) {n : String}
    (hn : c.localName (s.resolve id) = .ok n) : (localName c id).Meets c root ∅ (· = n) := by
  refine .of_notes (localName_notes hc (Catalog.mem_ids_of_shape hs)) (localName_tells.mono ?_)
  rintro m ⟨s', hs', hm⟩
  obtain rfl : s = s' := Except.ok.inj (hs.symm.trans hs')
  exact Except.ok.inj (hm.symm.trans hn)

/-- The table is the default one under the root namespace that the registry is sound for. -/
theorem table_meets (hc : c.IsRegular) {s : Shape} (hs : c.shape id = .ok s) {p : List String}
    (hp : c.defaultTable root (s.resolve id) = .ok p) :
    (table c root id).Meets c root ∅ (· = p) := by
  refine .of_notes (table_notes hc root (Catalog.mem_ids_of_shape hs))
    ((table_tells fun _ _ h => h).mono ?_)
  rintro q ⟨s', hs', hq⟩
  obtain rfl : s = s' := Except.ok.inj (hs.symm.trans hs')
  exact Except.ok.inj (hq.symm.trans hp)

/-- The script name is the one of the catalog. -/
theorem scriptName_meets (hc : c.IsRegular) (hid : id ∈ c.ids) :
    (scriptName c id).Meets c root ∅ (c.ScriptName id) :=
  .of_notes (scriptName_notes hc hid) scriptName_tells

/-- Linking a type touches it and nothing else. -/
theorem collect_meets (hc : c.IsClosed) (hid : id ∈ c.ids) :
    (collect c id).Meets c root {id} fun _ => True := by
  intro r hr
  obtain ⟨out, hrun, hl⟩ := collect_linked hc hid hr.coherent
  obtain ⟨hext, -⟩ := collect_tells r hr.agrees out hrun
  refine ⟨out, hrun, trivial, ?_⟩
  simpa using Registry.Advances.of_linkedFrom hr hl hext.fits

theorem qualifiedName_determined (hc : c.IsRegular) (hid : id ∈ c.ids) :
    (qualifiedName c id).Determined c root ∅ := by
  obtain ⟨s, hs, -⟩ := hc.closed.shape_yields hid
  obtain ⟨n, hn, -⟩ := hc.nameIn_yields {} (hc.closed.mem_resolve hs)
  exact ⟨n, qualifiedName_meets hc hs hn⟩

theorem table_determined (hc : c.IsRegular) (hid : id ∈ c.ids) :
    (table c root id).Determined c root ∅ := by
  obtain ⟨s, hs, -⟩ := hc.closed.shape_yields hid
  obtain ⟨p, hp, -⟩ := hc.defaultTable_yields root (hc.closed.mem_resolve hs)
  exact ⟨p, table_meets hc hs hp⟩

theorem scriptName_determined (hc : c.IsRegular) (hid : id ∈ c.ids) :
    (scriptName c id).Determined c root ∅ :=
  (scriptName_meets hc hid).determined fun _ _ ha hb => ha.unique hb

theorem collect_determined (hc : c.IsClosed) (hid : id ∈ c.ids) :
    (collect c id).Determined c root {id} :=
  (collect_meets hc hid).determined fun _ _ _ _ => rfl

end Names

end Recording

end TypeDocs
