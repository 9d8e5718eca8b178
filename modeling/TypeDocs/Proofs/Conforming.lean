import TypeDocs.Proofs.Scripting

namespace TypeDocs

open Session Operation

/-- Names of bound methods that the language reserves. -/
def TypeInfo.clashes (t : TypeInfo) : List String :=
  ((t.methods.filter Method.isBound).map Method.name).filter isKeyword

variable {c : Catalog} {settings : Settings} {T : String} {t : TypeInfo} {l : Line}

section Lines

theorem IsTable.isOneLine (hT : IsTable T) : IsOneLine T := by
  obtain ⟨path, -, hpath, rfl⟩ := hT
  rw [IsOneLine, toList_tableExpression]
  intro hmem
  obtain ⟨s, hs, hend⟩ : ∃ s ∈ path, '\n' ∈ '[' :: '\x27' :: (s.toList ++ ['\x27', ']']) := by
    simpa [brackets] using hmem
  have hquotable := List.all_eq_true.mp (hpath s hs) '\n' (by simpa using hend)
  simp at hquotable

theorem isOneLine_assignment {target : String} {parameters : List String}
    (ht : IsOneLine target) (hp : ∀ p ∈ parameters, isVariable p = true) :
    IsOneLine (assignment target parameters) := by
  have hlist : IsOneLine (", ".intercalate parameters) :=
    isOneLine_intercalate (by decide) fun p hmem =>
      (isNameText_of_isIdentifier (isIdentifier_of_isVariable (hp p hmem))).isOneLine
  simp only [assignment, isOneLine_append]
  exact ⟨⟨⟨ht, by decide⟩, hlist⟩, by decide⟩

theorem Callable.isVariable_of_mem_boundNames (hmark : settings.reservedMark = "luaKey__")
    {x : Callable} (hx : ∀ p ∈ x.parameters, isIdentifier p.name = true) :
    ∀ v ∈ x.boundNames settings, isVariable v = true := by
  rw [boundNames, List.forall_mem_map, hmark]
  exact fun p hp => isVariable_safeName (hx p hp)

namespace Line

theorem IsConstructor.isScriptLine (hmark : settings.reservedMark = "luaKey__") (hT : IsTable T)
    {k : Constructor} (hk : ∀ p ∈ k.parameters, isIdentifier p.name = true)
    (h : l.IsConstructor settings T k) : IsScriptLine l.body ∧ IsOneLine l.body := by
  obtain ⟨target, htarget, rfl⟩ := h
  have hvariables := Callable.isVariable_of_mem_boundNames (x := .constructor k) hmark hk
  rcases htarget with rfl | rfl
  · exact ⟨.function hT hvariables, isOneLine_assignment hT.isOneLine hvariables⟩
  · have htarget : IsOneLine (T ++ "." ++ Document.constructionMember) := by
      simp only [isOneLine_append]
      exact ⟨⟨hT.isOneLine, by decide⟩, by decide⟩
    exact ⟨.member hT (by decide) hvariables, isOneLine_assignment htarget hvariables⟩

theorem IsMethod.isScriptLine_iff (hmark : settings.reservedMark = "luaKey__") (hT : IsTable T)
    {m : Method} (hm : isIdentifier m.name = true)
    (hp : ∀ p ∈ m.parameters, isIdentifier p.name = true) (h : l.IsMethod settings T m) :
    (IsScriptLine l.body ↔ isKeyword m.name = false) ∧ IsOneLine l.body := by
  obtain rfl := h
  have hvariables := Callable.isVariable_of_mem_boundNames (x := .method m) hmark hp
  refine ⟨isScriptLine_member_iff hT hm hvariables, isOneLine_assignment ?_ hvariables⟩
  simp only [isOneLine_append]
  exact ⟨⟨hT.isOneLine, by decide⟩, (isNameText_of_isIdentifier hm).isOneLine⟩

/-- Where members are named by identifiers, lines are of the language but for clashes. -/
theorem IsWritten.isScriptLine_or (hmark : settings.reservedMark = "luaKey__") (hT : IsTable T)
    (hnames : ∀ n ∈ t.writtenNames, isIdentifier n = true) (h : l.IsWritten settings T t) :
    IsOneLine l.body ∧ (IsScriptLine l.body ∨ ∃ name ∈ t.clashes, ∃ parameters,
      (∀ p ∈ parameters, isVariable p = true) ∧
        l.body = assignment (T ++ "." ++ name) parameters) := by
  obtain ⟨⟨⟨-, hmethods⟩, hms⟩, hks⟩ := TypeInfo.forall_writtenNames.mp hnames
  cases h with
  | told h =>
    cases l with
    | note text => exact ⟨isOneLine_append.mpr ⟨by decide, h⟩, .inl (.comment text)⟩
    | blank => exact ⟨by decide, .inl .blank⟩
    | table T' => exact absurd h id
    | function T' parameters => exact absurd h id
  | table => exact ⟨isOneLine_append.mpr ⟨hT.isOneLine, by decide⟩, .inl (.table hT)⟩
  | constructor hk h =>
    obtain ⟨hline, hone⟩ := h.isScriptLine hmark hT (hks _ hk)
    exact ⟨hone, .inl hline⟩
  | @method m l hm h =>
    have hmem := List.mem_of_mem_filter hm
    obtain ⟨hline, hone⟩ := h.isScriptLine_iff hmark hT (hmethods m hmem) (hms m hmem)
    refine ⟨hone, ?_⟩
    cases hkeyword : isKeyword m.name with
    | false => exact .inl (hline.mpr hkeyword)
    | true =>
      right
      refine ⟨m.name, List.mem_filter.mpr ⟨List.mem_map_of_mem hm, hkeyword⟩, _,
        Callable.isVariable_of_mem_boundNames (x := .method m) hmark (hms m hmem), ?_⟩
      rw [h]
      rfl

end Line

end Lines

namespace Document

variable {d : Document}

/-- Every line is of the language or binds a method under a reserved name, as clashes require. -/
def Conforms (d : Document) (t : TypeInfo) : Prop :=
  (∀ line ∈ linesOf d.text, IsScriptLine line ∨ ∃ T, IsTable T ∧ ∃ name ∈ t.clashes, ∃ parameters,
    (∀ p ∈ parameters, isVariable p = true) ∧ line = assignment (T ++ "." ++ name) parameters) ∧
  ((∀ line ∈ linesOf d.text, IsScriptLine line) ↔ t.clashes = [])

theorem IsScripted.conforms (hc : c.IsScriptable) (hmark : settings.reservedMark = "luaKey__")
    (h : d.IsScripted c settings) : ∃ t, c.get? d.type = some t ∧ d.Conforms t := by
  obtain ⟨t, T, lines, ht, hT, htext, hlines, hbound⟩ := h
  have hnames := hc.members d.type t ht
  have hall (l : Line) (hl : l ∈ lines) := (hlines l hl).isScriptLine_or hmark hT hnames
  have hsplit : linesOf d.text = lines.map Line.body ++ [""] := by
    rw [htext]
    exact linesOf_renderLines fun l hl => (hall l hl).1
  have heach : ∀ line ∈ linesOf d.text, IsScriptLine line ∨ ∃ T, IsTable T ∧ ∃ name ∈ t.clashes,
      ∃ parameters, (∀ p ∈ parameters, isVariable p = true) ∧
        line = assignment (T ++ "." ++ name) parameters := by
    rw [hsplit, List.forall_mem_append, List.forall_mem_map, List.forall_mem_singleton]
    exact ⟨fun l hl => (hall l hl).2.imp_right fun h => ⟨T, hT, h⟩, .inl .blank⟩
  refine ⟨t, ht, heach, fun hscript => ?_, fun hnone line hline => ?_⟩
  · refine List.eq_nil_iff_forall_not_mem.mpr fun name hname => ?_
    obtain ⟨hmethod, hkeyword⟩ := List.mem_filter.mp hname
    obtain ⟨m, hm, rfl⟩ := List.mem_map.mp hmethod
    obtain ⟨m', hm', hsame, l, hl, hline⟩ := hbound m hm
    have hmem := List.mem_of_mem_filter hm'
    obtain ⟨⟨⟨-, hmethods⟩, hms⟩, -⟩ := TypeInfo.forall_writtenNames.mp hnames
    have hfree : isKeyword m'.name = false :=
      (hline.isScriptLine_iff hmark hT (hmethods m' hmem) (hms m' hmem)).1.mp
        (hscript l.body (by simpa [hsplit] using .inl ⟨l, hl, rfl⟩))
    rw [hsame, hkeyword] at hfree
    cases hfree
  · rcases heach line hline with h | ⟨_, _, name, hname, _⟩
    · exact h
    · simp [hnone] at hname

end Document

namespace Catalog

open Documenting

/--
Documents that an operation writes into default tables, after any operations, are scripts but for
methods of reserved names, which are bound as they are named.
-/
theorem documents_conform (hc : c.IsRegular) (hs : c.IsScriptable) (root : String)
    (ops : List Operation) (hops : ∀ o ∈ ops, ∀ t ∈ o.types, t ∈ c.ids) (op : Operation)
    (hop : ∀ t ∈ op.types, t ∈ c.ids) (htable : ∀ id path, op ≠ .generateWithTable id path) :
    ∃ s s', (performAll c ops).run { settings := { rootNamespace := root } } = .ok ((), s) ∧
      (op.perform c).run s = .ok ((), s') ∧
      ∀ d ∈ s'.documents.toList, d ∈ s.documents.toList ∨
        ∃ t, c.get? d.type = some t ∧ d.Conforms t := by
  let settings : Settings := { rootNamespace := root }
  obtain ⟨⟨⟨⟩, s⟩, hrun, hcont⟩ := performAll_yields hc ops hops (isSound_empty settings)
  obtain ⟨⟨⟨⟩, s'⟩, hrun', -⟩ := perform_yields hc op hop hcont.sound
  refine ⟨s, s', hrun, hrun', ?_⟩
  let D : Document → Prop := fun d => d ∈ s.documents.toList ∨ d.IsScripted c settings
  have hany (table : Option (List String)) (id : TypeId) :
      Document.Composes c settings (fun _ => True) table id :=
    Document.composes fun _ _ _ => trivial
  have hdefault (id : TypeId) : Document.Composes c settings D none id :=
    Document.composes fun _ _ hd => .inr (hd.isScripted hs rfl)
  obtain ⟨hheld, -⟩ := performAll_upholds ops hany { settings } holds_empty ((), s) hrun
  have hstart : s.Holds c settings D :=
    ⟨hheld.configured, hheld.registry, hheld.idle, hheld.placed, fun _ hd => .inl hd⟩
  obtain ⟨hend, -⟩ := perform_upholds op hdefault (fun id path h => absurd h (htable id path))
    s hstart ((), s') hrun'
  exact fun d hd => (hend.documents d hd).imp_right fun h => h.conforms hs rfl

/-- A door that opens up to some end, and a gate that can be ended. -/
def passages : Catalog where
  entries :=
    let opening : Method :=
      { name := "open", visibility := .family, parameters := [{ name := "end", type := ⟨0⟩ }] }
    let ending : Method := { name := "end", visibility := .family }
    #[⟨"Door", { name := "Door", methods := [opening] }⟩,
      ⟨"Gate", { name := "Gate", methods := [ending] }⟩]

theorem passages_isRegular : passages.IsRegular := by
  have hclosed : ∀ t ∈ passages.ids, ∀ info ∈ passages.get? t,
      ∀ u ∈ info.references, u ∈ passages.ids := by decide +kernel
  exact isRegular_of_validate (fun t info hi => hclosed t (mem_ids_of_get hi) info hi)
    (by decide +kernel)

theorem passages_isScriptable : passages.IsScriptable := by
  have hspace : ∀ t ∈ passages.ids, ∀ info ∈ passages.get? t,
      ∀ n ∈ info.namespaceNames, isIdentifier n = true := by decide +kernel
  have hname : ∀ t ∈ passages.ids, ∀ info ∈ passages.get? t,
      isIdentifier (simpleName info.name) = true := by decide +kernel
  have hmembers : ∀ t ∈ passages.ids, ∀ info ∈ passages.get? t,
      ∀ n ∈ info.writtenNames, isIdentifier n = true := by decide +kernel
  exact ⟨fun t info hi => hspace t (mem_ids_of_get hi) info hi,
    fun t info hi => hname t (mem_ids_of_get hi) info hi,
    fun t info hi => hmembers t (mem_ids_of_get hi) info hi⟩

/-- The door has a script, though a parameter of its method is reserved, and the gate has none. -/
theorem passages_conform : ∃ s', ((generateReachable [⟨0⟩, ⟨1⟩]).perform passages).run {} =
      .ok ((), s') ∧ s'.documents.toList.map Document.type = [⟨0⟩, ⟨1⟩] ∧
    ∀ d ∈ s'.documents.toList, (∀ line ∈ linesOf d.text, IsScriptLine line) ↔ d.type = ⟨0⟩ := by
  have htypes : (((generateReachable [⟨0⟩, ⟨1⟩]).perform passages).run {}).map
      (fun out => out.2.documents.toList.map Document.type) = .ok [⟨0⟩, ⟨1⟩] := by decide +kernel
  have hclashes : ∀ t ∈ [(⟨0⟩ : TypeId), ⟨1⟩], ∀ info ∈ passages.get? t,
      info.clashes = [] ↔ t = ⟨0⟩ := by decide +kernel
  obtain ⟨s, s', hs, hrun, hdocs⟩ := documents_conform passages_isRegular passages_isScriptable
    "Barotrauma" [] (by simp) (.generateReachable [⟨0⟩, ⟨1⟩]) (by decide +kernel) (by simp)
  obtain ⟨-, rfl⟩ := Prod.mk.inj (Except.ok.inj hs)
  have hrun' : ((generateReachable [⟨0⟩, ⟨1⟩]).perform passages).run {} = .ok ((), s') := hrun
  rw [hrun'] at htypes
  have hlist : s'.documents.toList.map Document.type = [⟨0⟩, ⟨1⟩] := Except.ok.inj htypes
  refine ⟨s', hrun', hlist, fun d hd => ?_⟩
  rcases hdocs d hd with hold | ⟨t, ht, -, hiff⟩
  · simp at hold
  · exact hiff.trans (hclashes d.type (hlist ▸ List.mem_map_of_mem hd) t ht)

/-- Being named by identifiers is not enough: the end of the gate is no name of the language. -/
theorem exists_reserved_member : ¬ ∀ (c : Catalog) (root : String) (id : TypeId) (s : Session),
    c.IsRegular → c.IsScriptable →
    (Documenting.generate c id).run { settings := { rootNamespace := root } } = .ok (true, s) →
    ∀ d ∈ s.documents.toList, ∀ line ∈ linesOf d.text, IsScriptLine line := by
  intro h
  have htexts : ((Documenting.generate passages ⟨1⟩).run {}).map
      (fun out => (out.1, out.2.documents.toList.map Document.text)) = .ok (true,
        ["---@meta\n---@class Gate\n_G['Gate'] = \x7b\x7d\n\n---`Method NonPublic Instance`\n" ++
          "_G['Gate'].end = function() end\n\n"]) := by
    decide +kernel
  cases hrun : (Documenting.generate passages ⟨1⟩).run {} with
  | error d => simp [hrun, Except.map] at htexts
  | ok out =>
    obtain ⟨answer, s⟩ := out
    rw [hrun] at htexts
    obtain ⟨rfl, hdocs⟩ := Prod.mk.inj (Except.ok.inj htexts)
    obtain ⟨d, hd, htext⟩ := List.mem_map.mp (hdocs ▸ List.mem_singleton_self _)
    have hline := h passages "Barotrauma" ⟨1⟩ s passages_isRegular passages_isScriptable hrun d hd
      "_G['Gate'].end = function() end" (by rw [htext]; decide +kernel)
    have hT : IsTable (tableExpression ["Gate"]) := ⟨["Gate"], by decide, by decide, rfl⟩
    have hfree : isKeyword "end" = false :=
      (isScriptLine_member_iff hT (by decide) (List.forall_mem_nil _)).mp hline
    exact absurd hfree (by decide)

end Catalog

end TypeDocs
