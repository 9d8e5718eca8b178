import TypeDocs.Proofs.Telling

namespace TypeDocs

open Relation

namespace Descriptor.Keeps

variable {d d' d'' : Descriptor}

theorem refl (d : Descriptor) : d.Keeps d := by
  constructor <;> simp

theorem trans (h : d.Keeps d') (h' : d'.Keeps d'') : d.Keeps d'' where
  type := h'.type.trans h.type
  shape := h'.shape.trans h.shape
  qualifiedName n hn := h'.qualifiedName n (h.qualifiedName n hn)
  localName n hn := h'.localName n (h.localName n hn)
  scriptName n hn := h'.scriptName n (h.scriptName n hn)
  table p hp := h'.table p (h.table p hp)

end Descriptor.Keeps

namespace Registry

variable {c : Catalog} {r r' r'' : Registry} {id : TypeId} {h : DescriptorId}

/-- Indexes are right, shapes are those of the catalog, and what they mention is described. -/
structure IsCoherent (c : Catalog) (r : Registry) : Prop where
  indexed : r.IsIndexed
  shape : r.IsShaped c
  mentioned : ∀ d ∈ r.descriptors.toList, ∀ t ∈ d.shape.mentioned, t ∈ r.types

/-- The same registry later on: descriptors and pairs have kept their places. -/
structure Keeps (r r' : Registry) : Prop where
  descriptors : ∀ (h : DescriptorId) (d : Descriptor), r.get? h = some d →
    ∃ d', r'.get? h = some d' ∧ d.Keeps d'
  basePairs : r.basePairs.toList <+: r'.basePairs.toList

namespace Keeps

theorem refl (r : Registry) : r.Keeps r :=
  ⟨fun _ d hd => ⟨d, hd, .refl d⟩, List.prefix_refl _⟩

theorem trans (hk : r.Keeps r') (hk' : r'.Keeps r'') : r.Keeps r'' := by
  refine ⟨fun h d hd => ?_, hk.basePairs.trans hk'.basePairs⟩
  obtain ⟨d', hd', hkeep⟩ := hk.descriptors h d hd
  obtain ⟨d'', hd'', hkeep'⟩ := hk'.descriptors h d' hd'
  exact ⟨d'', hd'', hkeep.trans hkeep'⟩

theorem of_grows {sources : List TypeId} (hg : Grows c sources r r')
    (hb : r.basePairs.toList <+: r'.basePairs.toList) : r.Keeps r' :=
  ⟨fun _ d hd => ⟨d, hg.get hd, .refl d⟩, hb⟩

theorem prefix_types (hk : r.Keeps r') : r.types <+: r'.types := by
  rw [List.prefix_iff_getElem?]
  intro i hi
  have hget : r.types[(⟨i⟩ : DescriptorId).index]? = some r.types[i] := List.getElem?_eq_getElem hi
  rw [getElem_types] at hget
  obtain ⟨d, hd, ht⟩ := Option.map_eq_some_iff.mp hget
  obtain ⟨d', hd', hkeep⟩ := hk.descriptors ⟨i⟩ d hd
  show r'.types[(⟨i⟩ : DescriptorId).index]? = some r.types[i]
  rw [getElem_types, hd', Option.map_some, hkeep.type, ht]

theorem mem_types (hk : r.Keeps r') (hid : id ∈ r.types) : id ∈ r'.types :=
  hk.prefix_types.subset hid

theorem position (hk : r.Keeps r') (hr : r.IsIndexed) (hr' : r'.IsIndexed)
    (hh : r.position? id = some h) : r'.position? id = some h :=
  hr.position_of_isPrefix hr' hk.prefix_types hh

/-- A pair that is there is the first of its descriptor ever after. -/
theorem baseOf (hk : r.Keeps r') {b : Option DescriptorId} (hb : r.baseOf? h = some b) :
    r'.baseOf? h = some b := by
  obtain ⟨p, hp, rfl⟩ := Option.map_eq_some_iff.mp hb
  obtain ⟨new, hnew⟩ := hk.basePairs
  rw [← Array.find?_toList] at hp
  rw [baseOf?, ← Array.find?_toList, ← hnew, List.find?_append, hp]
  rfl

theorem mem_linked (hk : r.Keeps r') (hr : r.IsIndexed) (hid : id ∈ r.linked) :
    id ∈ r'.linked := by
  rw [linked_eq] at hid ⊢
  obtain ⟨p, hp, rfl⟩ := List.mem_map.mp hid
  exact List.mem_map.mpr
    ⟨p, hk.basePairs.subset hp, typeAt_of_isPrefix hk.prefix_types (hr.issued p hp).1⟩

end Keeps

theorem isCoherent_empty : IsCoherent c {} :=
  ⟨isIndexed_empty, by simp [IsShaped], by simp⟩

namespace IsCoherent

theorem mem_ids (hr : r.IsCoherent c) (hid : id ∈ r.types) : id ∈ c.ids :=
  hr.shape.mem_ids hid

theorem grows {sources : List TypeId} (hr : r.IsCoherent c) (hg : Grows c sources r r')
    (hr' : r'.IsIndexed) : r'.IsCoherent c := by
  refine ⟨hr', hr.shape.grows hg, ?_⟩
  have hkept (t : TypeId) (ht : t ∈ r.types) : t ∈ r'.types := hg.mem_types ht
  obtain ⟨new, hnew, hfresh⟩ := hg
  rw [hnew, List.forall_mem_append]
  exact ⟨fun d hd t ht => hkept t (hr.mentioned d hd t ht), fun d hd => (hfresh d hd).2.2⟩

theorem described {ids : List TypeId} (hr : r.IsCoherent c) (hd : Described c ids r r') :
    r'.IsCoherent c ∧ r.Keeps r' :=
  ⟨hr.grows hd.grows hd.indexed, .of_grows hd.grows (hd.basePairs ▸ List.prefix_refl _)⟩

theorem linkedFrom {sources : List TypeId} (hr : r.IsCoherent c)
    (hl : LinkedFrom c sources r r') : r'.IsCoherent c ∧ r.Keeps r' :=
  ⟨hr.grows hl.grows hl.indexed, .of_grows hl.grows hl.basePairs⟩

/-- A pair of descriptors may be recorded, whatever base it gives. -/
theorem link {base : Option DescriptorId} (hr : r.IsCoherent c) (hh : r.Issued h)
    (hb : ∀ b, base = some b → r.Issued b) :
    (r.link h base).2.IsCoherent c ∧ r.Keeps (r.link h base).2 := by
  have hdesc := descriptors_link r h base
  refine ⟨⟨hr.indexed.link hh hb, hr.shape.congr hdesc, ?_⟩, ?_, ?_⟩
  · rw [hdesc, types_link]
    exact hr.mentioned
  · intro h' d hd
    exact ⟨d, by rw [get?, hdesc]; exact hd, .refl d⟩
  · unfold Registry.link
    split
    · exact List.prefix_refl _
    · rw [Array.toList_push]
      exact List.prefix_append _ _

theorem update {f : Descriptor → Descriptor} (hr : r.IsCoherent c)
    (ht : ∀ d, (f d).type = d.type) (hs : ∀ d, (f d).shape = d.shape) :
    (r.update h f).IsCoherent c := by
  have hdesc : ∀ d ∈ (r.update h f).descriptors.toList, ∃ e ∈ r.descriptors.toList,
      d.type = e.type ∧ d.shape = e.shape := by
    intro d hd
    obtain ⟨i, hi⟩ := List.mem_iff_getElem?.mp hd
    rw [Registry.update, Array.getElem?_toList, Array.getElem?_modify] at hi
    split at hi
    · obtain ⟨e, he, rfl⟩ := Option.map_eq_some_iff.mp hi
      exact ⟨e, List.mem_of_getElem? (by simpa using he), ht e, hs e⟩
    · exact ⟨d, List.mem_of_getElem? (by simpa using hi), rfl, rfl⟩
  refine ⟨hr.indexed.update ht, fun d hd => ?_, fun d hd t htm => ?_⟩
  · obtain ⟨e, he, hte, hse⟩ := hdesc d hd
    rw [hte, hse]
    exact hr.shape e he
  · obtain ⟨e, he, -, hse⟩ := hdesc d hd
    rw [types_update r h ht]
    exact hr.mentioned e he t (hse ▸ htm)

end IsCoherent

/-- Noting a name for a descriptor that knew none loses nothing. -/
theorem Keeps.update {f : Descriptor → Descriptor} {d : Descriptor} (hk : r.Keeps r')
    (hd : r.get? h = some d) (hf : ∀ d', d.Keeps d' → d.Keeps (f d')) :
    r.Keeps (r'.update h f) := by
  refine ⟨fun h' e he => ?_, hk.basePairs⟩
  obtain ⟨e', he', hkeep⟩ := hk.descriptors h' e he
  rw [get?, Registry.update, Array.getElem?_modify]
  split
  · rename_i heq
    obtain rfl : h = h' := congrArg DescriptorId.mk heq
    obtain rfl : d = e := Option.some.inj (hd.symm.trans he)
    exact ⟨f e', by rw [← get?, he']; rfl, hf e' hkeep⟩
  · exact ⟨e', he', hkeep⟩

end Registry

/-- A registry that is coherent later on, with no more pairs than it had. -/
structure Registry.Noted (c : Catalog) (r r' : Registry) : Prop where
  coherent : r'.IsCoherent c
  keeps : r.Keeps r'
  basePairs : r'.basePairs = r.basePairs

/-- From `r`, `x` succeeds and makes no links. -/
def Recording.NotesFrom {α : Type} (c : Catalog) (r : Registry) (x : Recording α) : Prop :=
  Yields (x.run r) fun out => r.Noted c out.2

/-- It does so from every coherent registry. -/
def Recording.Notes {α : Type} (c : Catalog) (x : Recording α) : Prop :=
  ∀ r : Registry, r.IsCoherent c → x.NotesFrom c r

namespace Registry.Noted

variable {c : Catalog} {r r' r'' : Registry} {h : DescriptorId} {d : Descriptor}

theorem refl (hr : r.IsCoherent c) : r.Noted c r :=
  ⟨hr, .refl r, rfl⟩

theorem trans (hn : r.Noted c r') (hn' : r'.Noted c r'') : r.Noted c r'' :=
  ⟨hn'.coherent, hn.keeps.trans hn'.keeps, hn'.basePairs.trans hn.basePairs⟩

theorem get (hn : r.Noted c r') (hd : r.get? h = some d) :
    ∃ d', r'.get? h = some d' ∧ d'.type = d.type := by
  obtain ⟨d', hd', hkeep⟩ := hn.keeps.descriptors h d hd
  exact ⟨d', hd', hkeep.type⟩

theorem issued (hn : r.Noted c r') (hh : r.Issued h) : r'.Issued h := by
  obtain ⟨d, hd⟩ := issued_iff.mp hh
  obtain ⟨d', hd', -⟩ := hn.get hd
  exact issued_of_get hd'

end Registry.Noted

namespace Recording

open Registry

variable {c : Catalog} {id : TypeId} {α β : Type}

section Rules

variable {r : Registry} {x : Recording α} {f : α → Recording β}

theorem NotesFrom.pure (hr : r.IsCoherent c) (a : α) : NotesFrom c r (pure a) :=
  Yields.pure (.refl hr)

theorem NotesFrom.bind (hx : x.NotesFrom c r)
    (hf : ∀ a r', r.Noted c r' → (f a).NotesFrom c r') : (x >>= f).NotesFrom c r := by
  rw [NotesFrom, StateT.run_bind]
  refine Yields.bind hx fun out h₁ => ?_
  exact Yields.mono (hf out.1 out.2 h₁) fun _ h₂ => h₁.trans h₂

theorem NotesFrom.andPure (hx : x.NotesFrom c r) (g : α → β) :
    NotesFrom c r (do return g (← x)) :=
  hx.bind fun a _ hr' => .pure hr'.coherent (g a)

theorem Notes.pure (a : α) : Notes c (pure a) :=
  fun _ hr => .pure hr a

theorem Notes.lift {e : Except Defect α} {P : α → Prop} (h : Yields e P) :
    Notes c (liftM e : Recording α) := by
  intro r hr
  obtain ⟨a, rfl, -⟩ := h
  exact ⟨(a, r), rfl, .refl hr⟩

theorem Notes.bind (hx : x.Notes c) (hf : ∀ a, (f a).Notes c) : (x >>= f).Notes c :=
  fun r hr => (hx r hr).bind fun a r' hr' => hf a r' hr'.coherent

theorem Notes.andPure (hx : x.Notes c) (g : α → β) : Notes c (do return g (← x)) :=
  hx.bind fun a => .pure (g a)

end Rules

/-- A handle is given out, and it leads to a descriptor of the type. -/
theorem handle_yields (hc : c.IsClosed) (hid : id ∈ c.ids) {r : Registry} (hr : r.IsCoherent c) :
    Yields ((handle c id).run r) fun out =>
      r.Noted c out.2 ∧ out.2.position? id = some out.1 := by
  refine (handle_described hc hid hr.indexed).mono fun _ ⟨hd, hh⟩ => ?_
  exact ⟨⟨(hr.described hd).1, (hr.described hd).2, hd.basePairs⟩, hh⟩

/-- What succeeds for every descriptor of a type succeeds for the type. -/
theorem NotesFrom.ofHandle {f : DescriptorId → Recording α} (hc : c.IsClosed) (hid : id ∈ c.ids)
    {r : Registry} (hr : r.IsCoherent c)
    (hf : ∀ (h : DescriptorId) (d : Descriptor) (r' : Registry), r.Noted c r' →
      r'.get? h = some d → d.type = id → (f h).NotesFrom c r') :
    (handle c id >>= f).NotesFrom c r := by
  rw [NotesFrom, StateT.run_bind]
  refine (handle_yields hc hid hr).bind fun first hfirst => ?_
  obtain ⟨h₁, hh⟩ := hfirst
  obtain ⟨d, hd, ht⟩ := h₁.coherent.indexed.position_eq_some_iff.mp hh
  exact Yields.mono (hf _ d _ h₁ hd ht) fun _ h₂ => h₁.trans h₂

theorem Notes.ofHandle {f : DescriptorId → Recording α} (hc : c.IsClosed) (hid : id ∈ c.ids)
    (hf : ∀ (h : DescriptorId) (r : Registry), r.IsCoherent c → r.Issued h →
      (f h).NotesFrom c r) : (handle c id >>= f).Notes c :=
  fun _ hr => .ofHandle hc hid hr fun h _ r' hr' hd _ => hf h r' hr'.coherent (issued_of_get hd)

theorem obtain_notes (hc : c.IsClosed) (hid : id ∈ c.ids) : (obtain c id).Notes c := by
  refine .ofHandle hc hid fun h r hr hh => ?_
  obtain ⟨d, hd⟩ := issued_iff.mp hh
  exact ⟨(d, r), run_descriptor hd, .refl hr⟩

section Descriptors

variable {r : Registry} {h : DescriptorId} {d : Descriptor}

theorem remember_notes {known : Descriptor → Option α} {note : α → Descriptor → Descriptor}
    {work : Descriptor → Recording α} (hn : Descriptor.IsNote known note)
    (hr : r.IsCoherent c) (hd : r.get? h = some d) (hwork : (work d).NotesFrom c r) :
    (remember h known note work).NotesFrom c r := by
  rw [NotesFrom, remember, StateT.run_bind, run_descriptor hd, ok_bind]
  dsimp only
  cases hk : known d with
  | some a => exact .pure (.refl hr)
  | none =>
    dsimp only
    rw [StateT.run_bind]
    refine Yields.bind hwork fun done h₁ => ?_
    obtain ⟨a, r'⟩ := done
    refine ⟨(a, r'.update h (note a)), rfl, h₁.coherent.update (hn.type a) (hn.shape a), ?_,
      h₁.basePairs⟩
    exact h₁.keeps.update hd fun d' hd' => hn.keeps a d d' hk hd'

/-- A name of the type behind a wrapper can be worked out. -/
theorem nameOf_notes (hc : c.IsRegular) (hr : r.IsCoherent c) (hd : r.get? h = some d)
    (style : NameStyle) : NotesFrom c r (liftM (c.nameIn style d.resolved) : Recording String) := by
  have hshape : c.shape d.type = .ok d.shape := hr.shape d (mem_of_get hd)
  exact Notes.lift (hc.nameIn_yields style (hc.closed.mem_resolve hshape)) r hr

theorem qualifiedNameOf_notes (hc : c.IsRegular) (hr : r.IsCoherent c) (hh : r.Issued h) :
    (qualifiedNameOf c h).NotesFrom c r := by
  obtain ⟨d, hd⟩ := issued_iff.mp hh
  exact remember_notes Descriptor.qualifiedName_isNote hr hd (nameOf_notes hc hr hd {})

theorem localNameOf_notes (hc : c.IsRegular) (hr : r.IsCoherent c) (hh : r.Issued h) :
    (localNameOf c h).NotesFrom c r := by
  obtain ⟨d, hd⟩ := issued_iff.mp hh
  exact remember_notes Descriptor.localName_isNote hr hd (nameOf_notes hc hr hd .withoutNamespace)

theorem tableOf_notes (hc : c.IsRegular) (root : String) (hr : r.IsCoherent c)
    (hh : r.Issued h) : (tableOf c root h).NotesFrom c r := by
  obtain ⟨d, hd⟩ := issued_iff.mp hh
  apply remember_notes Descriptor.table_isNote hr hd
  have hshape : c.shape d.type = .ok d.shape := hr.shape d (mem_of_get hd)
  have hinfo := Catalog.lookup_yields (hc.closed.mem_resolve hshape)
  exact (Notes.lift hinfo r hr).bind fun info r' hr' =>
    (localNameOf_notes hc hr'.coherent (hr'.issued hh)).andPure _

theorem scriptNameWithin_notes (hc : c.IsRegular) (room : List TypeId)
    (hroom : ∀ t ∈ room, t ∈ c.ids) (hr : r.IsCoherent c) (hd : r.get? h = some d)
    (hset : Settles c.NamePart room d.type) : (scriptNameWithin c room h).NotesFrom c r := by
  fun_induction scriptNameWithin c room h generalizing r d with
  | case1 room h ih =>
    apply remember_notes Descriptor.scriptName_isNote hr hd
    rw [dif_pos hset.mem]
    have hshape : c.shape d.type = .ok d.shape := hr.shape d (mem_of_get hd)
    have hrest : ∀ t ∈ room.erase d.type, t ∈ c.ids :=
      fun t ht => hroom t (List.mem_of_mem_erase ht)
    have hmem (t : TypeId) (ht : t ∈ d.shape.parts) : t ∈ c.ids := hc.closed.mem_part hshape ht
    -- a part takes the type out of the room, which its own name never comes back to
    have hpart {p : DescriptorId} {e : Descriptor} {r' : Registry} (hr' : r'.IsCoherent c)
        (he : r'.get? p = some e) (ht : e.type ∈ d.shape.parts) :
        (scriptNameWithin c (room.erase d.type) p).NotesFrom c r' :=
      ih d hset.mem p hrest hr' he (hset.erase (hc.closed.namePart_of_part hshape ht))
    cases hs : d.shape with
    | plain => exact qualifiedNameOf_notes hc hr (issued_of_get hd)
    | delegate signature => exact qualifiedNameOf_notes hc hr (issued_of_get hd)
    | nullable payload =>
      have hin : payload ∈ d.shape.parts := by simp [hs, Shape.parts]
      refine .ofHandle hc.closed (hmem payload hin) hr fun p e r' hr' he ht => ?_
      exact hpart hr'.coherent he (ht ▸ hin)
    | array element =>
      have hin : element ∈ d.shape.parts := by simp [hs, Shape.parts]
      refine .ofHandle hc.closed (hmem element hin) hr fun p e r' hr' he ht => ?_
      exact (hpart hr'.coherent he (ht ▸ hin)).andPure _
    | sequence element =>
      have hin : element ∈ d.shape.parts := by simp [hs, Shape.parts]
      refine .ofHandle hc.closed (hmem element hin) hr fun p e r' hr' he ht => ?_
      exact (hpart hr'.coherent he (ht ▸ hin)).andPure _
    | mapping key value =>
      have hkey : key ∈ d.shape.parts := by simp [hs, Shape.parts]
      have hvalue : value ∈ d.shape.parts := by simp [hs, Shape.parts]
      refine .ofHandle hc.closed (hmem key hkey) hr fun k e r₁ h₁ he hek => ?_
      refine .ofHandle hc.closed (hmem value hvalue) h₁.coherent fun v f r₂ h₂ hf hfv => ?_
      obtain ⟨e', he', hsame⟩ := h₂.get he
      refine (hpart h₂.coherent he' (by rwa [hsame, hek])).bind fun m r₃ h₃ => ?_
      obtain ⟨f', hf', hsame'⟩ := h₃.get hf
      exact (hpart h₃.coherent hf' (by rwa [hsame', hfv])).andPure _

theorem scriptNameOf_notes (hc : c.IsRegular) (hr : r.IsCoherent c) (hh : r.Issued h) :
    (scriptNameOf c h).NotesFrom c r := by
  obtain ⟨d, hd⟩ := issued_iff.mp hh
  exact scriptNameWithin_notes hc c.ids (fun _ ht => ht) hr hd
    (hc.settles (hr.mem_ids (mem_types (mem_of_get hd))))

/-- Linking a descriptor links everything that its type leads to. -/
theorem collectFrom_linked (hc : c.IsClosed) (hr : r.IsCoherent c) (hd : r.get? h = some d) :
    Yields ((collectFrom c h).run r) fun out => LinkedFrom c [d.type] r out.2 := by
  rw [run_collectFrom]
  obtain ⟨r', hr', hl⟩ := Registry.linkAll_linked hc c.ids r [h] hr.indexed hr.shape
    (fun t ht _ => ht) (.cons (hr.indexed.position_of_get hd) .nil)
  exact ⟨((), r'), by rw [hr', ok_bind]; rfl, hl⟩

end Descriptors

theorem qualifiedName_notes (hc : c.IsRegular) (hid : id ∈ c.ids) :
    (qualifiedName c id).Notes c :=
  .ofHandle hc.closed hid fun _ _ => qualifiedNameOf_notes hc

theorem localName_notes (hc : c.IsRegular) (hid : id ∈ c.ids) : (localName c id).Notes c :=
  .ofHandle hc.closed hid fun _ _ => localNameOf_notes hc

theorem table_notes (hc : c.IsRegular) (root : String) (hid : id ∈ c.ids) :
    (table c root id).Notes c :=
  .ofHandle hc.closed hid fun _ _ => tableOf_notes hc root

theorem scriptName_notes (hc : c.IsRegular) (hid : id ∈ c.ids) : (scriptName c id).Notes c :=
  .ofHandle hc.closed hid fun _ _ => scriptNameOf_notes hc

/-- Collecting a type links everything that it leads to. -/
theorem collect_linked (hc : c.IsClosed) (hid : id ∈ c.ids) {r : Registry} (hr : r.IsCoherent c) :
    Yields ((collect c id).run r) fun out => LinkedFrom c [id] r out.2 := by
  rw [collect, StateT.run_bind]
  refine (handle_described hc hid hr.indexed).bind fun first hfirst => ?_
  obtain ⟨h₁, hh⟩ := hfirst
  obtain ⟨d, hd, rfl⟩ := h₁.indexed.position_eq_some_iff.mp hh
  refine (collectFrom_linked hc (hr.described h₁).1 hd).mono fun out hl => ?_
  refine ⟨?_, hl.mem, hl.indexed, h₁.basePairs ▸ hl.basePairs, ?_⟩
  · exact (h₁.grows.trans hl.grows).mono (by simpa using hid)
  · rw [← h₁.links hr.indexed]
    exact hl.added

end Recording

end TypeDocs
