import TypeDocs.Proofs.Annotating

namespace TypeDocs

open Relation Registry

/-- The annotation name of a type can be told without recording anything. -/
structure Registry.Knows (r : Registry) (id : TypeId) (name : String) : Prop where
  linked : id ∈ r.linked
  named : ∃ h d, r.position? id = some h ∧ r.get? h = some d ∧ d.scriptName = some name

theorem Registry.Knows.keeps {r r' : Registry} {id : TypeId} {name : String} (h : r.Knows id name)
    (hk : r.Keeps r') (hr : r.IsIndexed) (hr' : r'.IsIndexed) : r'.Knows id name := by
  obtain ⟨h', d, hh, hd, hname⟩ := h.named
  obtain ⟨d', hd', hkeep⟩ := hk.descriptors h' d hd
  exact ⟨hk.mem_linked hr h.linked, h', d', hk.position hr hr' hh, hd', hkeep.scriptName name hname⟩

namespace Recording

variable {c : Catalog} {α : Type} {id : TypeId} {h : DescriptorId} {name : String}
  {r r' : Registry}

/-- What has been asked for is remembered by the descriptor. -/
theorem known_of_remember {known : Descriptor → Option α} {note : α → Descriptor → Descriptor}
    {work : Descriptor → Recording α} {a : α} {d : Descriptor} (hn : Descriptor.IsNote known note)
    (hd : r.get? h = some d) (hrun : (remember h known note work).run r = .ok (a, r'))
    (hissued : r'.Issued h) : ∃ d, r'.get? h = some d ∧ known d = some a := by
  rw [remember, StateT.run_bind, run_descriptor hd, ok_bind] at hrun
  dsimp only at hrun
  cases hk : known d with
  | some b =>
    rw [hk] at hrun
    obtain ⟨rfl, rfl⟩ := Prod.mk.inj (Except.ok.inj hrun)
    exact ⟨d, hd, hk⟩
  | none =>
    rw [hk] at hrun
    dsimp only at hrun
    rw [StateT.run_bind] at hrun
    obtain ⟨⟨b, r₂⟩, -, hrun⟩ := bind_eq_ok.mp hrun
    obtain ⟨rfl, rfl⟩ := Prod.mk.inj (Except.ok.inj hrun)
    obtain ⟨e, he⟩ := issued_iff.mp hissued
    have hupdate : (r₂.update h (note b)).get? h = (r₂.get? h).map (note b) := by
      rw [Registry.get?, Registry.update, Array.getElem?_modify, if_pos rfl, Registry.get?]
    obtain ⟨e', -, rfl⟩ := Option.map_eq_some_iff.mp (hupdate.symm.trans he)
    exact ⟨_, he, hn.known b e'⟩

/-- To tell the type of a member is to make more requests, after which it is known. -/
theorem memberType_steps (hc : c.IsRegular) (hid : id ∈ c.ids) (h : ReflTransGen (Step c) {} r) :
    ∃ n r', (Document.memberType c id).run r = .ok (n, r') ∧ c.ScriptName id n ∧
      ReflTransGen (Step c) r r' ∧ r'.Knows id n := by
  obtain ⟨hr, -⟩ := steps_keep hc isCoherent_empty h
  obtain ⟨k, d, r₁, hhandle, hfirst, hr₁, hd, rfl⟩ := handle_step hc.closed hid hr
  obtain ⟨⟨⟨⟩, r₂⟩, hcollect, hl⟩ := collectFrom_linked hc.closed hr₁ hd
  have hsecond : Step c r₁ r₂ := ⟨.collect k, issued_of_get hd, hcollect⟩
  have h₂ : ReflTransGen (Step c) r r₂ := .tail (.single hfirst) hsecond
  obtain ⟨hr₂, hk₂⟩ := steps_keep hc hr₁ (.single hsecond)
  obtain ⟨d₂, hd₂, hkeep⟩ := hk₂.descriptors k d hd
  obtain ⟨n, r₃, hscript, hname, hthird⟩ := scriptNameOf_step hc (h.trans h₂) hd₂
  obtain ⟨hr₃, hk₃⟩ := steps_keep hc hr₂ (.single hthird)
  obtain ⟨d₃, hd₃, hkeep₃⟩ := hk₃.descriptors k d₂ hd₂
  have hposition : r₂.position? d.type = some k :=
    hk₂.position hr₁.indexed hr₂.indexed (hr₁.indexed.position_of_get hd)
  obtain ⟨e, he, hknown⟩ : ∃ e, r₃.get? k = some e ∧ e.scriptName = some n := by
    rw [scriptNameOf, scriptNameWithin] at hscript
    exact known_of_remember Descriptor.scriptName_isNote hd₂ hscript (issued_of_get hd₃)
  have hlinked : d.type ∈ r₃.linked :=
    hk₃.mem_linked hr₂.indexed (hl.mem d.type List.mem_cons_self)
  refine ⟨n, r₃, ?_, hkeep.type ▸ hname, h₂.tail hthird, hlinked, k, e,
    hk₃.position hr₂.indexed hr₃.indexed hposition, he, hknown⟩
  rw [Document.memberType, StateT.run_bind, collect, StateT.run_bind, hhandle, ok_bind, hcollect,
    ok_bind, scriptName, StateT.run_bind, run_handle hposition, ok_bind, hscript]

/-- A name that is known is told, and the registry is as before. -/
theorem memberType_of_knows (hr : r.IsIndexed) (h : r.Knows id name) :
    (Document.memberType c id).run r = .ok (name, r) := by
  obtain ⟨h', d, hh, hd, hname⟩ := h.named
  have hcollect : (collectFrom c h').run r = .ok ((), r) := by
    rw [run_collectFrom, linkAll, if_pos ((hr.isBased_iff_linked hh).mpr h.linked), linkAll]
    rfl
  have hscript : (scriptNameOf c h').run r = .ok (name, r) := by
    rw [scriptNameOf, scriptNameWithin, remember, StateT.run_bind, run_descriptor hd, ok_bind]
    dsimp only
    rw [hname]
    rfl
  rw [Document.memberType, StateT.run_bind, collect, StateT.run_bind, run_handle hh, ok_bind,
    hcollect, ok_bind, scriptName, StateT.run_bind, run_handle hh, ok_bind, hscript]

variable {type : TypeId → String} {x : Recording α} {asked : Set TypeId}
  {value : (TypeId → String) → α}

/--
After any requests what asks for types of the catalog is told their names, all that it does is to
make more requests, and the names are known in the end.
-/
theorem Asks.steps (hc : c.IsRegular) (htype : c.NamesTypes type) (hx : x.Asks c asked value)
    (hasked : ∀ t ∈ asked, t ∈ c.ids) (h : ReflTransGen (Step c) {} r) :
    ∃ r', x.run r = .ok (value type, r') ∧ ReflTransGen (Step c) r r' ∧
      ∀ t ∈ asked, r'.Knows t (type t) := by
  induction hx generalizing r with
  | pure a => exact ⟨r, rfl, .refl, by simp⟩
  | memberType id =>
    obtain ⟨n, r', hrun, hname, hsteps, hknows⟩ := memberType_steps hc (hasked id rfl) h
    obtain rfl := htype id n hname
    exact ⟨r', hrun, hsteps, by simpa using hknows⟩
  | bind hx hf ihx ihf =>
    obtain ⟨r₁, hrun, h₁, hknows₁⟩ := ihx (fun t ht => hasked t (.inl ht)) h
    obtain ⟨r₂, hrun', h₂, hknows₂⟩ := ihf _ (fun t ht => hasked t (.inr ht)) (h.trans h₁)
    obtain ⟨hr₁, -⟩ := steps_keep hc isCoherent_empty (h.trans h₁)
    obtain ⟨hr₂, hk⟩ := steps_keep hc hr₁ h₂
    refine ⟨r₂, by rw [StateT.run_bind, hrun, ok_bind, hrun'], h₁.trans h₂, ?_⟩
    rintro t (ht | ht)
    · exact (hknows₁ t ht).keeps hk hr₁.indexed hr₂.indexed
    · exact hknows₂ t ht

/-- Once the names are known, to ask for them records nothing. -/
theorem Asks.again (hx : x.Asks c asked value) (hr : r.IsIndexed)
    (hknows : ∀ t ∈ asked, r.Knows t (type t)) : x.run r = .ok (value type, r) := by
  induction hx with
  | pure a => rfl
  | memberType id => exact memberType_of_knows hr (hknows id rfl)
  | bind hx hf ihx ihf =>
    rw [StateT.run_bind, ihx fun t ht => hknows t (.inl ht), ok_bind]
    exact ihf _ fun t ht => hknows t (.inr ht)

end Recording

namespace Catalog

variable {c : Catalog} {type : TypeId → String}

/-- The names that types are told to have are those of annotations. -/
theorem NamesTypes.annotationName (htype : c.NamesTypes type) (hc : c.IsRegular) {id : TypeId}
    (hid : id ∈ c.ids) : c.annotationName id = .ok (type id) := by
  obtain ⟨n, hn, hname⟩ :=
    annotationNameWithin_yields hc c.ids (fun _ ht => ht) (hc.settles hid)
  exact htype id n hname ▸ hn

end Catalog

namespace Document

variable {c : Catalog}

/--
The lines for methods are a block for each name and modifiers of bound methods, by first appearance
of the name and then of the modifiers under it, whatever a registry has been asked before. In a
block come a tag, a note for each of its methods but the last and the binding of the last; types go
by their annotation names. So each bound method is written once, in the block of its key, and what
is written and recorded does not change with the methods that are not bound.
-/
theorem methods_blockwise (hc : c.IsRegular) (settings : Settings) (s : OverloadSet)
    (ms : List Method) (hms : ∀ m ∈ ms, m.isBound = true → ∀ t ∈ m.types, t ∈ c.ids) :
    let bound := ms.filter Method.isBound
    ∃ type : TypeId → String, (∀ t ∈ c.ids, c.annotationName t = .ok (type t)) ∧
      (∀ r, ReflTransGen (Step c) {} r → ∃ r', (methods c settings s ms).run r =
          .ok ((blockKeys bound).flatMap (block settings s type bound), r') ∧
        ReflTransGen (Step c) r r') ∧
      (∀ key ∈ blockKeys bound, ∃ init last, bound.filter (blockKey · = key) = init ++ [last] ∧
        block settings s type bound key = .note (key.2.tags "Method") ::
          (init.map (fun m => (s.member key.1).overloadNote settings type (.method m)) ++
            (s.member key.1).bindingSection settings type (.method last))) ∧
      (blockKeys bound).Nodup ∧ (∀ key, key ∈ blockKeys bound ↔ ∃ m ∈ bound, blockKey m = key) ∧
      ((blockKeys bound).flatMap fun key => bound.filter (blockKey · = key)).Perm bound ∧
      ∀ others : List Method, others.filter Method.isBound = bound →
        methods c settings s others = methods c settings s ms := by
  intro bound
  obtain ⟨type, htype⟩ := c.exists_namesTypes
  refine ⟨type, fun t => htype.annotationName hc, fun r hr => ?_, fun key hkey => exists_block hkey,
    nodup_blockKeys bound, fun key => mem_blockKeys, ?_, fun others hothers => ?_⟩
  · obtain ⟨r', hrun, hsteps, -⟩ := (methods_asks ms).steps hc htype (by
      rintro t ⟨m, hm, ht⟩
      obtain ⟨hmem, hb⟩ := List.mem_filter.mp hm
      exact hms m hmem hb t ht) hr
    exact ⟨r', hrun, hsteps⟩
  · exact flatMap_filter_perm blockKey (nodup_blockKeys bound)
      fun m hm => mem_blockKeys.mpr ⟨m, hm, rfl⟩
  · simp only [methods, hothers, bound]

/-- Ways of a node, their names and modifiers mixed, with one that is public and one accessor. -/
def ways : List Method :=
  [{ name := "walk", visibility := .family },
   { name := "walk", visibility := .family, isStatic := true },
   { name := "find", result := some ⟨0⟩ },
   { name := "rest", visibility := .family, result := some ⟨1⟩ },
   { name := "get_next", visibility := .family, isSpecial := true },
   { name := "walk", visibility := .family, parameters := [{ name := "end", type := ⟨2⟩ }] }]

/-- What is written for them. -/
def wayLines : List Line :=
  [.note "\x60Method NonPublic Instance\x60", .note "@overload fun()",
   .note "@param luaKey__end Node[]", .function "_G['Node'].walk" ["luaKey__end"], .blank,
   .note "\x60Method NonPublic Static\x60", .function "_G['Node'].walk" [], .blank,
   .note "\x60Method NonPublic Instance\x60", .note "@return Node",
   .function "_G['Node'].rest" [], .blank]

/-- Two ways to walk share a block, and nothing is written for those that are not bound. -/
theorem ways_blockwise :
    let s : OverloadSet := ⟨"Node", "_G['Node']"⟩
    let bound := ways.filter Method.isBound
    let r : Registry := (({} : Registry).insert { type := ⟨2⟩, shape := .array ⟨1⟩ }).insert
      { type := ⟨1⟩, shape := .plain }
    ReflTransGen (Step Session.nodes) {} r ∧
    ∃ (type : TypeId → String) (r' : Registry),
      Session.nodes.annotationName ⟨2⟩ = .ok (type ⟨2⟩) ∧
      (methods Session.nodes {} s ways).run r = .ok (wayLines, r') ∧
      r'.linked = [⟨2⟩, ⟨1⟩, ⟨0⟩] ∧
      wayLines = (blockKeys bound).flatMap (block {} s type bound) ∧
      ((blockKeys bound).flatMap fun key => bound.filter (blockKey · = key)).Perm bound ∧
      methods Session.nodes {} s bound = methods Session.nodes {} s ways := by
  intro s bound r
  have hstep : Step Session.nodes {} r :=
    ⟨.obtain ⟨2⟩, show (⟨2⟩ : TypeId) ∈ Session.nodes.ids by decide +kernel, by decide +kernel⟩
  obtain ⟨type, htype, hruns, -, -, -, hperm, hothers⟩ :=
    methods_blockwise Session.nodes_isRegular {} s ways (by decide +kernel)
  obtain ⟨r', hrun, -⟩ := hruns r (.single hstep)
  have hlines : (blockKeys bound).flatMap (block {} s type bound) = wayLines :=
    eq_of_map_eq_ok hrun (f := Prod.fst) (by decide +kernel)
  have hlinked : r'.linked = [⟨2⟩, ⟨1⟩, ⟨0⟩] :=
    eq_of_map_eq_ok hrun (f := fun out => out.2.linked) (by decide +kernel)
  exact ⟨.single hstep, type, r', htype ⟨2⟩ (by decide +kernel), hlines ▸ hrun, hlinked,
    hlines.symm, hperm, hothers bound (by decide)⟩

end Document

end TypeDocs
