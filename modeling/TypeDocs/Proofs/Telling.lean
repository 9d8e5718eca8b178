import TypeDocs.Proofs.Linking

namespace TypeDocs

/-- What a descriptor remembers of names is as the catalog says, and its table as `tables` says. -/
structure Descriptor.Fits (c : Catalog) (tables : TypeId → List String → Prop) (d : Descriptor) :
    Prop where
  shape : c.shape d.type = .ok d.shape
  qualifiedName : ∀ n, d.qualifiedName = some n → c.qualifiedName d.resolved = .ok n
  localName : ∀ n, d.localName = some n → c.localName d.resolved = .ok n
  scriptName : ∀ n, d.scriptName = some n → c.ScriptName d.type n
  table : ∀ p, d.table = some p → tables d.resolved p

structure Registry.Fits (c : Catalog) (tables : TypeId → List String → Prop) (r : Registry) :
    Prop where
  indexed : r.IsIndexed
  descriptors : ∀ d ∈ r.descriptors.toList, d.Fits c tables

/-- The registry still fits, and handles go on to stand for the same types. -/
structure Registry.Extends (c : Catalog) (tables : TypeId → List String → Prop)
    (r r' : Registry) : Prop where
  fits : r'.Fits c tables
  types : r.types <+: r'.types

/-- If `x` comes to its end from `r`, then as `P` says, and it only extends the registry. -/
def Recording.TellsFrom {α : Type} (c : Catalog) (tables : TypeId → List String → Prop)
    (r : Registry) (x : Recording α) (P : α → Prop) : Prop :=
  Ensures (x.run r) fun out => r.Extends c tables out.2 ∧ P out.1

/-- It does so from every registry that fits the catalog. -/
def Recording.Tells {α : Type} (c : Catalog) (tables : TypeId → List String → Prop)
    (x : Recording α) (P : α → Prop) : Prop :=
  ∀ r : Registry, r.Fits c tables → x.TellsFrom c tables r P

/-- Default tables under a root namespace. -/
def Catalog.defaultTables (c : Catalog) (root : String) (id : TypeId) (path : List String) : Prop :=
  c.defaultTable root id = .ok path

/-- To agree with the catalog is to fit it with the tables that it has under the root namespace. -/
abbrev Descriptor.Agrees (c : Catalog) (root : String) (d : Descriptor) : Prop :=
  d.Fits c (c.defaultTables root)

abbrev Registry.Agrees (c : Catalog) (root : String) (r : Registry) : Prop :=
  r.Fits c (c.defaultTables root)

/-- If `x` comes to its end in a registry that agrees with the catalog, then as `P` says. -/
abbrev Recording.Finds {α : Type} (c : Catalog) (root : String) (x : Recording α)
    (P : α → Prop) : Prop :=
  x.Tells c (c.defaultTables root) P

/-- The same descriptor later on: its type and its shape stay, and so does every name once known. -/
structure Descriptor.Keeps (d d' : Descriptor) : Prop where
  type : d'.type = d.type
  shape : d'.shape = d.shape
  qualifiedName : ∀ n, d.qualifiedName = some n → d'.qualifiedName = some n
  localName : ∀ n, d.localName = some n → d'.localName = some n
  scriptName : ∀ n, d.scriptName = some n → d'.scriptName = some n
  table : ∀ p, d.table = some p → d'.table = some p

/-- To note what was not known loses nothing, and then it is known. -/
structure Descriptor.IsNote {α : Type} (known : Descriptor → Option α)
    (note : α → Descriptor → Descriptor) : Prop where
  type : ∀ a d, (note a d).type = d.type
  shape : ∀ a d, (note a d).shape = d.shape
  keeps : ∀ a d d', known d = none → d.Keeps d' → d.Keeps (note a d')
  known : ∀ a d, known (note a d) = some a

variable {c : Catalog} {tables : TypeId → List String → Prop} {id : TypeId} {s : Shape}

/-- Types with documents of their own stand for themselves. -/
theorem Shape.resolve_of_isDocumentable (h : s.isDocumentable) (id : TypeId) :
    s.resolve id = id := by
  cases s <;> simp_all [isDocumentable, resolve]

namespace Descriptor

theorem qualifiedName_isNote :
    IsNote Descriptor.qualifiedName fun name d => { d with qualifiedName := some name } :=
  ⟨fun _ _ => rfl, fun _ _ => rfl, fun _ _ _ hk h => { h with qualifiedName := by simp [hk] },
    fun _ _ => rfl⟩

theorem localName_isNote :
    IsNote Descriptor.localName fun name d => { d with localName := some name } :=
  ⟨fun _ _ => rfl, fun _ _ => rfl, fun _ _ _ hk h => { h with localName := by simp [hk] },
    fun _ _ => rfl⟩

theorem scriptName_isNote :
    IsNote Descriptor.scriptName fun name d => { d with scriptName := some name } :=
  ⟨fun _ _ => rfl, fun _ _ => rfl, fun _ _ _ hk h => { h with scriptName := by simp [hk] },
    fun _ _ => rfl⟩

theorem table_isNote : IsNote Descriptor.table fun path d => { d with table := some path } :=
  ⟨fun _ _ => rfl, fun _ _ => rfl, fun _ _ _ hk h => { h with table := by simp [hk] },
    fun _ _ => rfl⟩

variable {d : Descriptor}

theorem IsFresh.fits (h : d.IsFresh c) : d.Fits c tables := by
  have hb := h.blank
  refine ⟨h.shape, ?_, ?_, ?_, ?_⟩
  all_goals
    intro n hn
    rw [hb] at hn
    simp at hn

theorem Fits.resolved_eq (h : d.Fits c tables) (hs : c.shape id = .ok s) (hd : d.type = id) :
    d.resolved = s.resolve id := by
  have hshape : d.shape = s := Except.ok.inj (h.shape.symm.trans (hd ▸ hs))
  rw [Descriptor.resolved, hshape, hd]

end Descriptor

namespace Registry

variable {r r' : Registry} {h : DescriptorId}

theorem fits_empty : Fits c tables {} :=
  ⟨isIndexed_empty, by simp⟩

theorem Fits.get {d : Descriptor} (hr : r.Fits c tables) (hd : r.get? h = some d) :
    d.Fits c tables :=
  hr.descriptors d (mem_of_get hd)

theorem Extends.refl (hr : r.Fits c tables) : r.Extends c tables r :=
  ⟨hr, List.prefix_refl _⟩

theorem Extends.trans {r'' : Registry} (h : r.Extends c tables r')
    (h' : r'.Extends c tables r'') : r.Extends c tables r'' :=
  ⟨h'.fits, h.types.trans h'.types⟩

/-- A handle goes on to lead to a descriptor of the type that it led to. -/
theorem Extends.get {d : Descriptor} (he : r.Extends c tables r') (hd : r.get? h = some d) :
    ∃ d', r'.get? h = some d' ∧ d'.type = d.type := by
  have hissued : r'.Issued h := by
    have hlength := he.types.length_le
    simp only [Registry.types, List.length_map, Array.length_toList] at hlength
    exact Nat.lt_of_lt_of_le (issued_of_get hd) hlength
  obtain ⟨d', hd'⟩ := issued_iff.mp hissued
  refine ⟨d', hd', ?_⟩
  rw [← typeAt_of_get hd', typeAt_of_isPrefix he.types (issued_of_get hd), typeAt_of_get hd]

theorem Fits.describe (room : List TypeId) (hr : r.Fits c tables) (id : TypeId) :
    Ensures (r.describe c room id) fun out =>
      r.Extends c tables out.2 ∧ out.2.position? id = some out.1 := by
  fun_induction Registry.describe c room r id with
  | case1 room r id h hh => exact .ok ⟨.refl hr, hh⟩
  | case2 room r id hnone hroom ih =>
    refine (Ensures.self _).bind fun s hs => ?_
    have hnot : id ∉ r.types := by
      rw [← hr.indexed.isSome_position_iff, hnone]
      exact Bool.false_ne_true
    have hfresh : Descriptor.IsFresh c { type := id, shape := s } := ⟨hs, rfl⟩
    have hfits : (r.insert { type := id, shape := s }).Fits c tables := by
      refine ⟨hr.indexed.insert hnot, ?_⟩
      rw [insert, Array.toList_push, List.forall_mem_append]
      exact ⟨hr.descriptors, by simpa using hfresh.fits⟩
    have hfold : Ensures (s.mentioned.foldlM _ (r.insert { type := id, shape := s })) fun r' =>
        (r.insert { type := id, shape := s }).Extends c tables r' :=
      .foldlM (fun t _ r' hr' => (ih r' t hr'.fits).bind fun out hout =>
        .pure (hr'.trans hout.1)) (.refl hfits)
    refine hfold.bind fun r' hr' => .pure ⟨⟨hr'.fits, ?_⟩, ?_⟩
    · refine List.IsPrefix.trans ?_ hr'.types
      rw [types_insert]
      exact List.prefix_append _ _
    · exact hfits.indexed.position_of_isPrefix hr'.fits.indexed hr'.types (position_insert r _)
  | case3 => exact .error _

theorem Fits.describeAll (hr : r.Fits c tables) (ids : List TypeId) :
    Ensures (r.describeAll c ids) fun out =>
      r.Extends c tables out.2 ∧ out.2.Handles ids out.1.val := by
  induction ids generalizing r with
  | nil => exact .ok ⟨.refl hr, .nil⟩
  | cons id ids ih =>
    rw [Registry.describeAll]
    refine (hr.describe c.ids id).bind fun first hfirst => ?_
    obtain ⟨h₁, hh⟩ := hfirst
    refine (ih h₁.fits).bind fun rest hrest => ?_
    obtain ⟨h₂, hhs⟩ := hrest
    refine .pure ⟨h₁.trans h₂, ?_⟩
    exact .cons (h₁.fits.indexed.position_of_isPrefix h₂.fits.indexed h₂.types hh) hhs

theorem Fits.link {base : Option DescriptorId} (hr : r.Fits c tables) (hh : r.Issued h)
    (hb : ∀ b, base = some b → r.Issued b) : r.Extends c tables (r.link h base).2 := by
  refine ⟨⟨hr.indexed.link hh hb, ?_⟩, types_link (r := r) h base ▸ List.prefix_refl _⟩
  rw [descriptors_link]
  exact hr.descriptors

theorem Fits.linkAll (room : List TypeId) (hr : r.Fits c tables) (pending : List DescriptorId) :
    Ensures (r.linkAll c room pending) fun r' => r.Extends c tables r' := by
  fun_induction Registry.linkAll c room r pending with
  | case1 => exact .ok (.refl hr)
  | case2 room r h rest hl ih => exact ih hr
  | case3 => exact .error _
  | case4 room r h rest hl d hd hroom ih =>
    refine .after fun info => ?_
    refine (hr.describeAll info.base.toList).bind fun first hfirst => ?_
    obtain ⟨⟨base, hlength⟩, r₁⟩ := first
    obtain ⟨h₁, hbase⟩ := hfirst
    obtain ⟨d', hd', -⟩ := h₁.get hd
    have h₂ := h₁.fits.link (issued_of_get hd') (hbase.head h₁.fits.indexed).2
    refine (h₂.fits.describeAll d.shape.parts).bind fun rest hrest => ?_
    obtain ⟨⟨parts, hlength'⟩, r₃⟩ := rest
    obtain ⟨h₃, -⟩ := hrest
    have hbefore := (h₁.trans h₂).trans h₃
    exact (ih info base hlength parts hlength' r₃ hbefore.fits).mono fun r' h₄ => hbefore.trans h₄
  | case5 => exact .error _

theorem Fits.update {f : Descriptor → Descriptor} (hr : r.Fits c tables)
    (ht : ∀ d, (f d).type = d.type)
    (hf : ∀ d, r.get? h = some d → d.Fits c tables → (f d).Fits c tables) :
    r.Extends c tables (r.update h f) := by
  refine ⟨⟨hr.indexed.update ht, fun d hd => ?_⟩, types_update r h ht ▸ List.prefix_refl _⟩
  obtain ⟨i, hi⟩ := List.mem_iff_getElem?.mp hd
  rw [Registry.update, Array.getElem?_toList, Array.getElem?_modify] at hi
  split at hi
  · rename_i heq
    obtain ⟨e, he, rfl⟩ := Option.map_eq_some_iff.mp hi
    rw [← heq] at he
    exact hf e he (hr.get he)
  · exact hr.descriptors d (List.mem_of_getElem? (by simpa using hi))

end Registry

namespace Recording

open Registry

section Rules

variable {α β : Type} {r : Registry} {x : Recording α} {f : α → Recording β} {P : α → Prop}
  {Q : β → Prop}

theorem TellsFrom.pure {a : α} (hr : r.Fits c tables) (h : P a) :
    TellsFrom c tables r (pure a) P :=
  Ensures.pure ⟨.refl hr, h⟩

theorem TellsFrom.bind (hx : x.TellsFrom c tables r P)
    (hf : ∀ a r', r.Extends c tables r' → P a → (f a).TellsFrom c tables r' Q) :
    (x >>= f).TellsFrom c tables r Q := by
  rw [TellsFrom, StateT.run_bind]
  refine Ensures.bind hx fun out ⟨h₁, hP⟩ => ?_
  exact (hf out.1 out.2 h₁ hP).mono fun _ ⟨h₂, hQ⟩ => ⟨h₁.trans h₂, hQ⟩

theorem TellsFrom.mono {P' : α → Prop} (hx : x.TellsFrom c tables r P) (h : ∀ a, P a → P' a) :
    x.TellsFrom c tables r P' :=
  Ensures.mono hx fun _ ⟨hr, hP⟩ => ⟨hr, h _ hP⟩

/-- What is looked up in the catalog leaves the registry alone. -/
theorem TellsFrom.liftBind {e : Except Defect α}
    (hf : ∀ a, e = .ok a → (f a).TellsFrom c tables r Q) :
    (liftM e >>= f).TellsFrom c tables r Q := by
  cases e with
  | error d => exact .error d
  | ok a => exact hf a rfl

theorem Tells.pure {a : α} (h : P a) : Tells c tables (pure a) P :=
  fun _ hr => .pure hr h

theorem Tells.bind (hx : x.Tells c tables P) (hf : ∀ a, P a → (f a).Tells c tables Q) :
    (x >>= f).Tells c tables Q :=
  fun r hr => (hx r hr).bind fun a r' hr' hP => hf a hP r' hr'.fits

theorem Tells.mono {P' : α → Prop} (hx : x.Tells c tables P) (h : ∀ a, P a → P' a) :
    x.Tells c tables P' :=
  fun r hr => (hx r hr).mono h

theorem Tells.lift {e : Except Defect α} (h : Ensures e P) :
    Tells c tables (liftM e : Recording α) P := by
  intro r hr
  cases e with
  | error d => exact .error d
  | ok a => exact .ok ⟨.refl hr, h a rfl⟩

end Rules

/-- What is told of every descriptor of a type is told of the type. -/
theorem TellsFrom.ofHandle {α : Type} {f : DescriptorId → Recording α} {P : α → Prop}
    {r : Registry} (hr : r.Fits c tables)
    (hf : ∀ (h : DescriptorId) (d : Descriptor) (r' : Registry), r.Extends c tables r' →
      r'.get? h = some d → d.type = id → (f h).TellsFrom c tables r' P) :
    (handle c id >>= f).TellsFrom c tables r P := by
  rw [TellsFrom, StateT.run_bind]
  refine (hr.describe c.ids id).bind fun first hfirst => ?_
  obtain ⟨h₁, hh⟩ := hfirst
  obtain ⟨d, hd, ht⟩ := h₁.fits.indexed.position_eq_some_iff.mp hh
  exact Ensures.mono (hf _ d _ h₁ hd ht) fun _ ⟨h₂, hP⟩ => ⟨h₁.trans h₂, hP⟩

theorem Tells.ofHandle {α : Type} {f : DescriptorId → Recording α} {P : α → Prop}
    (hf : ∀ (h : DescriptorId) (d : Descriptor) (r : Registry), r.Fits c tables →
      r.get? h = some d → d.type = id → (f h).TellsFrom c tables r P) :
    (handle c id >>= f).Tells c tables P :=
  fun _ hr => .ofHandle hr fun h d r' hr' => hf h d r' hr'.fits

theorem obtain_tells : (obtain c id).Tells c tables fun d => d.type = id ∧ d.Fits c tables := by
  refine .ofHandle fun h d r hr hd ht => ?_
  rw [TellsFrom, run_descriptor hd]
  exact .ok ⟨.refl hr, ht, hr.get hd⟩

theorem run_collectFrom (r : Registry) (h : DescriptorId) : (collectFrom c h).run r = (do
    let r' ← r.linkAll c c.ids [h]
    return ((), r')) := by
  cases hl : r.linkAll c c.ids [h] <;> simp [collectFrom, hl]

theorem collectFrom_tells {r : Registry} (hr : r.Fits c tables) (h : DescriptorId) :
    (collectFrom c h).TellsFrom c tables r fun _ => True := by
  rw [TellsFrom, run_collectFrom]
  exact (hr.linkAll c.ids [h]).bind fun r' hr' => .pure ⟨hr', trivial⟩

/-- Only types of the catalog have descriptors. -/
theorem collect_tells : (collect c id).Tells c tables fun _ => id ∈ c.ids := by
  refine .ofHandle fun h d r hr hd ht => (collectFrom_tells hr h).mono fun _ _ => ?_
  exact ht ▸ Catalog.mem_ids_of_shape (hr.get hd).shape

section Descriptors

variable {r : Registry} {h : DescriptorId} {d : Descriptor}

theorem remember_tells {α : Type} {known : Descriptor → Option α}
    {note : α → Descriptor → Descriptor} {work : Descriptor → Recording α} {P : α → Prop}
    (hn : Descriptor.IsNote known note) (hr : r.Fits c tables) (hd : r.get? h = some d)
    (hknown : ∀ a, known d = some a → P a) (hwork : (work d).TellsFrom c tables r P)
    (hnote : ∀ a, P a → ∀ d', d'.type = d.type → d'.Fits c tables → (note a d').Fits c tables) :
    (remember h known note work).TellsFrom c tables r P := by
  rw [TellsFrom, remember, StateT.run_bind, run_descriptor hd, ok_bind]
  dsimp only
  cases hk : known d with
  | some a => exact .ok ⟨.refl hr, hknown a hk⟩
  | none =>
    dsimp only
    rw [StateT.run_bind]
    refine Ensures.bind hwork fun ⟨a, r'⟩ ⟨h₁, hP⟩ => ?_
    have h₂ : r'.Extends c tables (r'.update h (note a)) := by
      obtain ⟨e, he, ht⟩ := h₁.get hd
      refine h₁.fits.update (hn.type a) fun d' hd' => hnote a hP d' ?_
      rw [Option.some.inj (hd'.symm.trans he), ht]
    exact .ok ⟨h₁.trans h₂, hP⟩

/-- What is noted under a type is to be said of the type behind it. -/
theorem remember_resolved_tells {α : Type} {known : Descriptor → Option α}
    {note : α → Descriptor → Descriptor} {work : Descriptor → Recording α}
    {v : TypeId → α → Prop} (hn : Descriptor.IsNote known note) (hr : r.Fits c tables)
    (hd : r.get? h = some d)
    (hknown : ∀ a, known d = some a → v d.resolved a)
    (hwork : (work d).TellsFrom c tables r (v d.resolved))
    (hnote : ∀ a, ∀ d' : Descriptor, d'.Fits c tables → v d'.resolved a →
      (note a d').Fits c tables) :
    (remember h known note work).TellsFrom c tables r (v d.resolved) := by
  refine remember_tells hn hr hd hknown hwork fun a hv d' ht ha => hnote a d' ha ?_
  rwa [ha.resolved_eq (hr.get hd).shape ht]

theorem qualifiedNameOf_tells (hr : r.Fits c tables) (hd : r.get? h = some d) :
    (qualifiedNameOf c h).TellsFrom c tables r fun n => c.qualifiedName d.resolved = .ok n := by
  apply remember_resolved_tells (v := fun t n => c.qualifiedName t = .ok n)
    Descriptor.qualifiedName_isNote hr hd
  · exact (hr.get hd).qualifiedName
  · exact Tells.lift (.self _) r hr
  · intro n d' ha hn
    refine { ha with qualifiedName := ?_ }
    rintro _ ⟨⟩
    exact hn

theorem localNameOf_tells (hr : r.Fits c tables) (hd : r.get? h = some d) :
    (localNameOf c h).TellsFrom c tables r fun n => c.localName d.resolved = .ok n := by
  apply remember_resolved_tells (v := fun t n => c.localName t = .ok n)
    Descriptor.localName_isNote hr hd
  · exact (hr.get hd).localName
  · exact Tells.lift (.self _) r hr
  · intro n d' ha hn
    refine { ha with localName := ?_ }
    rintro _ ⟨⟩
    exact hn

theorem tableOf_tells {root : String} (hr : r.Fits c tables) (hd : r.get? h = some d)
    (hroot : ∀ t p, c.defaultTable root t = .ok p → tables t p) :
    (tableOf c root h).TellsFrom c tables r (tables d.resolved) := by
  apply remember_resolved_tells Descriptor.table_isNote hr hd
  · exact (hr.get hd).table
  · refine .liftBind fun info hi => (localNameOf_tells hr hd).bind fun n r' hr' hn => ?_
    refine .pure hr'.fits (hroot _ _ ?_)
    rw [Catalog.defaultTable, hi, ok_bind, hn]
    rfl
  · intro p d' ha hp
    refine { ha with table := ?_ }
    rintro _ ⟨⟩
    exact hp

theorem scriptNameWithin_tells (room : List TypeId) (hr : r.Fits c tables)
    (hd : r.get? h = some d) :
    (scriptNameWithin c room h).TellsFrom c tables r (c.ScriptName d.type) := by
  fun_induction scriptNameWithin c room h generalizing r d with
  | case1 room h ih =>
    have hs : c.shape d.type = .ok d.shape := (hr.get hd).shape
    have hwhole (hdoc : d.shape.isDocumentable) :
        (qualifiedNameOf c h).TellsFrom c tables r (c.ScriptName d.type) := by
      refine (qualifiedNameOf_tells hr hd).mono fun n hn => ?_
      rw [Descriptor.resolved, Shape.resolve_of_isDocumentable hdoc] at hn
      exact .whole hs hdoc hn
    apply remember_tells Descriptor.scriptName_isNote hr hd
    · exact (hr.get hd).scriptName
    · by_cases hroom : d.type ∈ room
      · rw [dif_pos hroom]
        cases hshape : d.shape with
        | plain => exact hwhole (hshape ▸ rfl)
        | delegate signature => exact hwhole (hshape ▸ rfl)
        | nullable payload =>
          refine .ofHandle hr fun p e r' hr' he ht => (ih d hroom p hr'.fits he).mono fun _ hn => ?_
          exact .nullable (hshape ▸ hs) (ht ▸ hn)
        | array element =>
          refine .ofHandle hr fun p e r₁ h₁ he ht => ?_
          refine (ih d hroom p h₁.fits he).bind fun n r₂ h₂ hn => .pure h₂.fits ?_
          exact .array (hshape ▸ hs) (ht ▸ hn)
        | sequence element =>
          refine .ofHandle hr fun p e r₁ h₁ he ht => ?_
          refine (ih d hroom p h₁.fits he).bind fun n r₂ h₂ hn => .pure h₂.fits ?_
          exact .sequence (hshape ▸ hs) (ht ▸ hn)
        | mapping key value =>
          refine .ofHandle hr fun k e r₁ h₁ he hkey => ?_
          refine .ofHandle h₁.fits fun v f r₂ h₂ hf hvalue => ?_
          obtain ⟨e', he', hsame⟩ := h₂.get he
          refine (ih d hroom k h₂.fits he').bind fun m r₃ h₃ hm => ?_
          obtain ⟨f', hf', hsame'⟩ := h₃.get hf
          refine (ih d hroom v h₃.fits hf').bind fun n r₄ h₄ hn => .pure h₄.fits ?_
          rw [hsame, hkey] at hm
          rw [hsame', hvalue] at hn
          exact .mapping (hshape ▸ hs) hm hn
      · rw [dif_neg hroom]
        exact .error _
    · rintro name hname d' ht ha
      refine { ha with scriptName := ?_ }
      rintro _ ⟨⟩
      exact ht ▸ hname

theorem scriptNameOf_tells (hr : r.Fits c tables) (hd : r.get? h = some d) :
    (scriptNameOf c h).TellsFrom c tables r (c.ScriptName d.type) :=
  scriptNameWithin_tells c.ids hr hd

end Descriptors

theorem qualifiedName_tells : (qualifiedName c id).Tells c tables fun n =>
    ∃ s, c.shape id = .ok s ∧ c.qualifiedName (s.resolve id) = .ok n := by
  refine .ofHandle fun h d r hr hd ht => (qualifiedNameOf_tells hr hd).mono fun n hn => ?_
  obtain rfl := ht
  exact ⟨d.shape, (hr.get hd).shape, hn⟩

theorem localName_tells : (localName c id).Tells c tables fun n =>
    ∃ s, c.shape id = .ok s ∧ c.localName (s.resolve id) = .ok n := by
  refine .ofHandle fun h d r hr hd ht => (localNameOf_tells hr hd).mono fun n hn => ?_
  obtain rfl := ht
  exact ⟨d.shape, (hr.get hd).shape, hn⟩

theorem table_tells {root : String}
    (hroot : ∀ t p, c.defaultTable root t = .ok p → tables t p) :
    (table c root id).Tells c tables fun p =>
      ∃ s, c.shape id = .ok s ∧ tables (s.resolve id) p := by
  refine .ofHandle fun h d r hr hd ht => (tableOf_tells hr hd hroot).mono fun p hp => ?_
  obtain rfl := ht
  exact ⟨d.shape, (hr.get hd).shape, hp⟩

theorem scriptName_tells : (scriptName c id).Tells c tables (c.ScriptName id) :=
  .ofHandle fun _ _ _ hr hd ht => ht ▸ scriptNameOf_tells hr hd

end Recording

end TypeDocs
