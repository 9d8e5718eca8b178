import TypeDocs.Proofs.Binding

namespace TypeDocs.Document

open Relation Registry Recording

variable {c : Catalog} {settings : Settings} {s : OverloadSet} {type : TypeId → String}
  {ks : List Constructor} {r r' : Registry}

/-- The second way is written without recording anything, since all names are known by then. -/
theorem spellTwice_yields (hc : c.IsRegular) (htype : c.NamesTypes type)
    (hks : ∀ k ∈ ks, ∀ t ∈ k.types, t ∈ c.ids) (h : ReflTransGen (Step c) {} r)
    (settings : Settings) (s : OverloadSet) (key : Modifiers) : ∃ r',
      (s.lines c settings (sameConstructors ks key)).run r =
        .ok (s.written settings type (sameConstructors ks key), r') ∧
      ((s.member constructionMember).lines c settings (sameConstructors ks key)).run r' =
        .ok ((s.member constructionMember).written settings type (sameConstructors ks key), r') ∧
      (spellTwice c settings s ks key).run r = .ok (spelledTwice settings s type ks key, r') ∧
      ReflTransGen (Step c) r r' := by
  have hasked : ∀ t ∈ {t | ∃ x ∈ sameConstructors ks key, t ∈ x.types}, t ∈ c.ids := by
    rintro t ⟨x, hx, ht⟩
    obtain ⟨k, hk, rfl⟩ := List.mem_map.mp hx
    exact hks k (List.mem_of_mem_filter hk) t (by simpa using ht)
  have hlines (s : OverloadSet) : (s.lines c settings (sameConstructors ks key)).Asks c
      {t | ∃ x ∈ sameConstructors ks key, t ∈ x.types}
      fun type => s.written settings type (sameConstructors ks key) :=
    OverloadSet.lines_asks _
  obtain ⟨r', hdirect, hsteps, hknows⟩ := (hlines s).steps hc htype hasked h
  obtain ⟨hr', -⟩ := steps_keep hc isCoherent_empty (h.trans hsteps)
  have hindirect := (hlines (s.member constructionMember)).again hr'.indexed hknows
  refine ⟨r', hdirect, hindirect, ?_, hsteps⟩
  rw [spellTwice, constructorGroup, StateT.run_bind]
  simp only [sameConstructors] at hdirect hindirect
  rw [hdirect, ok_bind, StateT.run_bind, hindirect, ok_bind]
  rfl

theorem spellTwice_mapM (hc : c.IsRegular) (htype : c.NamesTypes type)
    (hks : ∀ k ∈ ks, ∀ t ∈ k.types, t ∈ c.ids) (h : ReflTransGen (Step c) {} r)
    (settings : Settings) (s : OverloadSet) (keys : List Modifiers) :
    ∃ r', (keys.mapM (spellTwice c settings s ks)).run r =
      .ok (keys.map (spelledTwice settings s type ks), r') ∧ ReflTransGen (Step c) r r' := by
  have hasks : (keys.mapM (spellTwice c settings s ks)).Asks c
      {t | ∃ key ∈ keys, t ∈ {t | ∃ x ∈ sameConstructors ks key, t ∈ x.types}}
      fun type => keys.map (spelledTwice settings s type ks) :=
    Asks.mapM fun key _ => spellTwice_asks ks key
  obtain ⟨r', hrun, hsteps, -⟩ := hasks.steps hc htype (by
    rintro t ⟨key, -, x, hx, ht⟩
    obtain ⟨k, hk, rfl⟩ := List.mem_map.mp hx
    exact hks k (List.mem_of_mem_filter hk) t (by simpa using ht)) h
  exact ⟨r', hrun, hsteps⟩

/-- What is recorded for several keys, seen where one of them is written. -/
theorem spellTwice_cut (hc : c.IsRegular) (htype : c.NamesTypes type)
    (hks : ∀ k ∈ ks, ∀ t ∈ k.types, t ∈ c.ids) (h : ReflTransGen (Step c) {} r)
    {before after : List Modifiers} {key : Modifiers} {blocks : List (List Line)}
    (hrun : ((before ++ key :: after).mapM (spellTwice c settings s ks)).run r = .ok (blocks, r')) :
    ∃ r₁ r₂, (before.mapM (spellTwice c settings s ks)).run r =
        .ok (before.map (spelledTwice settings s type ks), r₁) ∧
      (s.lines c settings (sameConstructors ks key)).run r₁ =
        .ok (s.written settings type (sameConstructors ks key), r₂) ∧
      ((s.member constructionMember).lines c settings (sameConstructors ks key)).run r₂ =
        .ok ((s.member constructionMember).written settings type (sameConstructors ks key), r₂) ∧
      (after.mapM (spellTwice c settings s ks)).run r₂ =
        .ok (after.map (spelledTwice settings s type ks), r') := by
  obtain ⟨r₁, hearlier, h₁⟩ := spellTwice_mapM hc htype hks h settings s before
  obtain ⟨r₂, hdirect, hindirect, hboth, h₂⟩ :=
    spellTwice_yields hc htype hks (h.trans h₁) settings s key
  obtain ⟨r₃, hlater, -⟩ :=
    spellTwice_mapM hc htype hks ((h.trans h₁).trans h₂) settings s after
  refine ⟨r₁, r₂, hearlier, hdirect, hindirect, ?_⟩
  have hend : r₃ = r' := by
    rw [List.mapM_append, List.mapM_cons, StateT.run_bind, hearlier, ok_bind] at hrun
    simp only [StateT.run_bind, hboth, hlater, ok_bind, bind_assoc] at hrun
    exact (Prod.mk.inj (Except.ok.inj hrun)).2
  exact hend ▸ hlater

/-- Both ways make the same notes and name the same parameters. -/
theorem exists_spelling {key : Modifiers} (hkey : key ∈ ks.map Constructor.modifiers)
    (settings : Settings) (s : OverloadSet) (type : TypeId → String) (name : String) :
    ∃ (notes names : List String),
      spelling settings s type ks key = notes.map .note ++ [.function s.binding names, .blank] ∧
      spelling settings (s.member name) type ks key =
        notes.map .note ++ [.function (s.binding ++ "." ++ name) names, .blank] := by
  obtain ⟨init, last, hlast⟩ := exists_sameConstructors hkey
  let notes := Line.note (key.tags "Constructor") ::
    (init.map (s.overloadNote settings type) ++
      (last.parameters.map (OverloadSet.parameterNote settings type) ++
        ((s.resultName type last).map fun name => Line.note ("@return " ++ name)).toList))
  have hnotes : notes ∈ Set.range (List.map Line.note) := by
    rw [Set.range_list_map]
    simp only [notes, Set.mem_ofPred_eq, List.forall_mem_cons, List.forall_mem_append,
      List.forall_mem_map, Option.mem_toList, Option.map_eq_some_iff]
    refine ⟨⟨_, rfl⟩, fun _ _ => ⟨_, rfl⟩, fun _ _ => ⟨_, rfl⟩, ?_⟩
    rintro _ ⟨_, -, rfl⟩
    exact ⟨_, rfl⟩
  obtain ⟨texts, htexts⟩ := hnotes
  refine ⟨texts, last.parameters.map fun p => safeName settings.reservedMark p.name, ?_, ?_⟩
  · rw [htexts, spelling, hlast, OverloadSet.written_concat]
    simp [notes, tagged, OverloadSet.bindingSection]
  · have hnote : (s.member name).overloadNote settings type = s.overloadNote settings type := rfl
    have hresult : (s.member name).resultName type last = s.resultName type last := rfl
    have hbinding : (s.member name).binding = s.binding ++ "." ++ name := rfl
    rw [htexts, spelling, hlast, OverloadSet.written_concat, hnote]
    simp [notes, tagged, OverloadSet.bindingSection, hresult, hbinding]

theorem renderLines_binding (notes : List Line) (binding : String) (names : List String) :
    renderLines (notes ++ [.function binding names, .blank]) = renderLines notes ++ binding ++
      (" = function(" ++ ", ".intercalate names ++ ") end\n\n") := by
  apply String.ext
  simp [renderLines, Line.render, String.toList_join]

/--
The lines for constructors are, by first appearance of the modifiers, two blocks for the
constructors of the same modifiers, whatever a registry has been asked before. Between the first
block and the second the registry does not change, and the second is the first but for what the
last line that binds something binds: the member for construction in place of the class.
-/
theorem constructors_spelled_twice (hc : c.IsRegular) (settings : Settings) (s : OverloadSet)
    (ks : List Constructor) (hks : ∀ k ∈ ks, ∀ t ∈ k.types, t ∈ c.ids) :
    let keys := (ks.map Constructor.modifiers).eraseDups
    let indirect := s.member constructionMember
    ∃ type : TypeId → String, (∀ t ∈ c.ids, c.annotationName t = .ok (type t)) ∧
      (∀ r, ReflTransGen (Step c) {} r → ∃ r', (constructors c settings s ks).run r =
          .ok (keys.flatMap fun key => spelling settings s type ks key ++
            spelling settings indirect type ks key, r') ∧
        ReflTransGen (Step c) r r' ∧
        ∀ before key after, keys = before ++ key :: after → ∃ r₁ r₂,
          (before.mapM (spellTwice c settings s ks)).run r =
            .ok (before.map (spelledTwice settings s type ks), r₁) ∧
          (s.lines c settings (sameConstructors ks key)).run r₁ =
            .ok (s.written settings type (sameConstructors ks key), r₂) ∧
          (indirect.lines c settings (sameConstructors ks key)).run r₂ =
            .ok (indirect.written settings type (sameConstructors ks key), r₂) ∧
          (after.mapM (spellTwice c settings s ks)).run r₂ =
            .ok (after.map (spelledTwice settings s type ks), r')) ∧
      ∀ key ∈ keys, ∃ notes names : List String,
        let head := renderLines (notes.map .note)
        let tail := " = function(" ++ ", ".intercalate names ++ ") end\n\n"
        renderLines (spelling settings s type ks key) = head ++ s.binding ++ tail ∧
          renderLines (spelling settings indirect type ks key) =
            head ++ (s.binding ++ ".__new") ++ tail := by
  intro keys indirect
  obtain ⟨type, htype⟩ := c.exists_namesTypes
  refine ⟨type, fun t => htype.annotationName hc, fun r hr => ?_, fun key hkey => ?_⟩
  · obtain ⟨r', hrun, hsteps⟩ := spellTwice_mapM hc htype hks hr settings s keys
    refine ⟨r', ?_, hsteps, fun before key after hkeys => ?_⟩
    · rw [constructors_eq, StateT.run_bind, hrun, ok_bind, List.flatMap_def]
      rfl
    · rw [hkeys] at hrun
      exact spellTwice_cut hc htype hks hr hrun
  · obtain ⟨notes, names, hdirect, hindirect⟩ :=
      exists_spelling (List.mem_eraseDups.mp hkey) settings s type constructionMember
    refine ⟨notes, names, ?_, ?_⟩
    · rw [hdirect, renderLines_binding]
    · have hmember : s.binding ++ "." ++ constructionMember = s.binding ++ ".__new" := by
        rw [String.append_assoc]
        rfl
      rw [hindirect, renderLines_binding, hmember]

/-- Ways to make a node, with and without one to go on to. -/
def makers : List Constructor :=
  [{}, { visibility := .isPrivate }, { parameters := [{ name := "next", type := ⟨2⟩ }] }]

/-- What is written for them. -/
def makerLines : List Line :=
  [.note "\x60Constructor Public Instance\x60", .note "@overload fun():Node",
   .note "@param next Node[]", .note "@return Node", .function "_G['Node']" ["next"], .blank,
   .note "\x60Constructor Public Instance\x60", .note "@overload fun():Node",
   .note "@param next Node[]", .note "@return Node", .function "_G['Node'].__new" ["next"], .blank,
   .note "\x60Constructor Private Instance\x60", .note "@return Node",
   .function "_G['Node']" [], .blank,
   .note "\x60Constructor Private Instance\x60", .note "@return Node",
   .function "_G['Node'].__new" [], .blank]

/-- The first block links the types that it shows, and the second finds them linked. -/
theorem makers_spelled_twice :
    let s : OverloadSet := ⟨"Node", "_G['Node']"⟩
    let instances : Modifiers := ⟨true, false, false, false, false⟩
    ∃ (type : TypeId → String) (r r₂ : Registry) (second : List Line),
      Session.nodes.annotationName ⟨2⟩ = .ok (type ⟨2⟩) ∧
      (constructors Session.nodes {} s makers).run {} = .ok (makerLines, r) ∧
      (s.lines Session.nodes {} (sameConstructors makers instances)).run {} =
        .ok (s.written {} type (sameConstructors makers instances), r₂) ∧
      ((s.member constructionMember).lines Session.nodes {}
        (sameConstructors makers instances)).run r₂ = .ok (second, r₂) ∧
      r₂.linked = [⟨2⟩, ⟨1⟩, ⟨0⟩] := by
  intro s instances
  have hkeys : (makers.map Constructor.modifiers).eraseDups =
      [] ++ instances :: [⟨false, true, false, false, false⟩] := by decide
  obtain ⟨type, htype, hruns, -⟩ :=
    constructors_spelled_twice Session.nodes_isRegular {} s makers (by decide +kernel)
  obtain ⟨r, hrun, -, hcut⟩ := hruns {} .refl
  obtain ⟨r₁, r₂, hearlier, hfirst, hsecond, -⟩ := hcut [] instances _ hkeys
  obtain ⟨-, rfl⟩ := Prod.mk.inj (Except.ok.inj hearlier)
  have hlines := eq_of_map_eq_ok hrun (f := Prod.fst) (b := makerLines) (by decide +kernel)
  have hlinked : r₂.linked = [⟨2⟩, ⟨1⟩, ⟨0⟩] :=
    eq_of_map_eq_ok hfirst (f := fun out => out.2.linked) (by decide +kernel)
  exact ⟨type, r, r₂, _, htype ⟨2⟩ (by decide +kernel), hlines ▸ hrun, hfirst, hsecond, hlinked⟩

end TypeDocs.Document
