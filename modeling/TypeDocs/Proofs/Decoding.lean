import TypeDocs.Proofs.Spelled
import TypeDocs.Proofs.Walk

/-!
What a name tells of its type. Where names are legible and only types without arguments stand around
others, the name of a type gives away the path to it, the number of its arguments and, of each of
these, the same again. So types of one name differ in nothing but what no name tells.
-/

namespace TypeDocs

open Spelling

namespace Spelling

variable {depth : Nat} {path path' : List String} {l l' : List Spelling}

theorem hasName_arguments (l : List Spelling) : (arguments l).hasName = false := by
  induction l with
  | nil => rfl
  | cons a l ih => exact ih

theorem isLegible_arguments (hl : ∀ s ∈ l, s.isLegible (depth + 1) = true) :
    (arguments l).isLegible depth = true := by
  induction l with
  | nil => rfl
  | cons a l ih =>
    rw [List.forall_mem_cons] at hl
    have hcons : arguments (a :: l) = .argument a (arguments l) := rfl
    simp only [hcons, isReadable, hl.1, ih hl.2, hasName_arguments, Bool.not_false, Bool.or_true,
      Bool.and_self]

theorem isLegible_names_append {s : Spelling} (hpath : ∀ n ∈ path, isLegibleName n = true)
    (hs : s.isLegible depth = true) : ((names path).append s).isLegible depth = true := by
  induction path with
  | nil => exact hs
  | cons n path ih =>
    rw [List.forall_mem_cons] at hpath
    have hcons : (names (n :: path)).append s = .name n ((names path).append s) := rfl
    simp only [hcons, isReadable, hpath.1, ih hpath.2, Bool.and_self]

theorem arguments_inj (h : arguments l = arguments l') : l = l' := by
  induction l generalizing l' with
  | nil =>
    cases l' with
    | nil => rfl
    | cons a l' => cases h
  | cons a l ih =>
    cases l' with
    | nil => cases h
    | cons a' l' =>
      obtain ⟨rfl, hrest⟩ := Spelling.argument.inj h
      rw [ih hrest]

theorem names_append (path path' : List String) (s : Spelling) :
    (names (path ++ path')).append s = (names path).append ((names path').append s) := by
  induction path with
  | nil => rfl
  | cons n path ih => exact congrArg (name n) ih

/-- A path is spelled as a namespace, the types around a type and the type itself are. -/
theorem names_path_append (path path' : List String) (n : String) (s : Spelling) :
    (names (path ++ path' ++ [n])).append s = (names path).append
      ((path'.map fun m => name m nil).foldr append (name n s)) := by
  rw [names_append, names_append]
  congr 1
  induction path' with
  | nil => rfl
  | cons m path' ih => exact congrArg (name m) ih

/-- Names end where arguments begin. -/
theorem names_arguments_inj
    (h : (names path).append (arguments l) = (names path').append (arguments l')) :
    path = path' ∧ l = l' := by
  induction path generalizing path' with
  | nil =>
    cases path' with
    | nil => exact ⟨rfl, arguments_inj h⟩
    | cons n path' => cases l <;> cases h
  | cons n path ih =>
    cases path' with
    | nil => cases l' <;> cases h
    | cons n' path' =>
      obtain ⟨rfl, hrest⟩ := Spelling.name.inj h
      obtain ⟨rfl, rfl⟩ := ih hrest
      exact ⟨rfl, rfl⟩

end Spelling

namespace Catalog

/--
The simple names of the types around a type, outermost first, beginning from the one right around
it.
-/
inductive EnclosedBy (c : Catalog) : Option TypeId → List String → Prop where
  | nothing : EnclosedBy c none []
  | type {id : TypeId} {info : TypeInfo} {names : List String} (hi : c.get? id = some info)
      (h : EnclosedBy c info.enclosing names) :
      EnclosedBy c (some id) (names ++ [simpleName info.name])

/-- The path to a type: through its namespace and the types around it to its own simple name. -/
def HasPath (c : Catalog) (info : TypeInfo) (path : List String) : Prop :=
  ∃ names, c.EnclosedBy info.enclosing names ∧
    path = info.namespaceNames ++ names ++ [simpleName info.name]

/-- The same path, as many arguments, and arguments alike in turn. -/
inductive Alike (c : Catalog) : TypeId → TypeId → Prop where
  | intro {t u : TypeId} {i j : TypeInfo} {path : List String} (ht : c.get? t = some i)
      (hu : c.get? u = some j) (hpath : c.HasPath i path) (hpath' : c.HasPath j path)
      (hlength : i.arguments.length = j.arguments.length)
      (harguments : ∀ (k : Nat) (a b : TypeId), i.arguments[k]? = some a →
        j.arguments[k]? = some b → Alike c a b) : Alike c t u

/--
Names of namespaces and types can be told from marks, and the types around others have no arguments.
-/
structure IsLegible (c : Catalog) : Prop where
  space : ∀ id info, c.get? id = some info → ∀ n ∈ info.namespaceNames, isLegibleName n = true
  name : ∀ id info, c.get? id = some info → isLegibleName (simpleName info.name) = true
  bare : ∀ id info e outer, c.get? id = some info → info.enclosing = some e →
    c.get? e = some outer → outer.arguments = []

/-- The spelling of a type is made of its path and of the spellings of its arguments. -/
inductive Spells (c : Catalog) : TypeId → Spelling → Prop where
  | intro {t : TypeId} {info : TypeInfo} {path : List String} {l : List Spelling}
      (hi : c.get? t = some info) (hpath : c.HasPath info path)
      (hlength : info.arguments.length = l.length)
      (harguments : ∀ (k : Nat) (a : TypeId) (s : Spelling), info.arguments[k]? = some a →
        l[k]? = some s → Spells c a s) : Spells c t ((names path).append (arguments l))

variable {c : Catalog} {t u : TypeId} {info : TypeInfo} {s s' : Spelling}

theorem EnclosedBy.unique {start : Option TypeId} {a b : List String}
    (ha : c.EnclosedBy start a) (hb : c.EnclosedBy start b) : a = b := by
  induction ha generalizing b with
  | nothing =>
    cases hb
    rfl
  | type hi h ih =>
    cases hb with
    | type hi' h' =>
      obtain rfl := Option.some.inj (hi.symm.trans hi')
      rw [ih h']

theorem HasPath.unique {a b : List String} (ha : c.HasPath info a) (hb : c.HasPath info b) :
    a = b := by
  obtain ⟨names, hnames, rfl⟩ := ha
  obtain ⟨names', hnames', rfl⟩ := hb
  rw [hnames.unique hnames']

/-- The spelling of a type without arguments and without what is around it. -/
def bareSpelling (c : Catalog) (id : TypeId) : Option Spelling := do
  let info ← c.get? id
  if info.arguments = [] then some (.name (simpleName info.name) .nil) else none

theorem spellingWithin_bare {p : Spelling} (room : List TypeId) (hp : c.bareSpelling t = some p) :
    Ensures (c.spellingWithin room false t) fun s => c.bareSpelling t = some s := by
  unfold spellingWithin
  refine (Ensures.self _).bind fun info hi => ?_
  rw [lookup_eq_ok] at hi
  have harguments : info.arguments = [] := by
    by_contra hne
    simp [bareSpelling, hi, hne] at hp
  split
  · simp only [Bool.false_eq_true, if_false, pure_eq_ok, ok_bind, List.mapM_nil, harguments]
    exact .ok (by simp [bareSpelling, hi, harguments, names, arguments, append])
  · exact .error _

/-- The chain around a type goes by the names around it, and none of its types has arguments. -/
theorem IsLegible.enclosingChain_names (hc : c.IsLegible) (room : List TypeId)
    (start : Option TypeId)
    (hstart : ∀ e outer, start = some e → c.get? e = some outer → outer.arguments = []) :
    Ensures (c.enclosingChain room start) fun chain => ∃ path, c.EnclosedBy start path ∧
      chain.map c.bareSpelling = path.map fun n => some (.name n .nil) := by
  fun_induction enclosingChain c room start with
  | case1 => exact .ok ⟨[], .nothing, rfl⟩
  | case2 room id ih =>
    refine (Ensures.self _).bind fun info hi => ?_
    rw [lookup_eq_ok] at hi
    split
    · rename_i hid
      refine (ih info hid fun e outer he ho => hc.bare id info e outer hi he ho).bind ?_
      rintro chain ⟨path, hpath, hchain⟩
      refine .pure ⟨path ++ [simpleName info.name], .type hi hpath, ?_⟩
      rw [List.map_append, List.map_append, hchain]
      simp [bareSpelling, hi, hstart id info rfl hi]
    · exact .error _

theorem spellingWithin_outer {chain : List TypeId} {path : List String} (room : List TypeId)
    (hchain : chain.map c.bareSpelling = path.map fun n => some (.name n .nil)) :
    Ensures (chain.mapM fun e => c.spellingWithin room false e) fun outer =>
      outer = path.map fun n => .name n .nil := by
  have hbare : ∀ e ∈ chain, Ensures (c.spellingWithin room false e)
      fun s => c.bareSpelling e = some s := by
    intro e he
    obtain ⟨n, -, hn⟩ := List.mem_map.mp (hchain ▸ List.mem_map_of_mem he)
    exact spellingWithin_bare room hn.symm
  refine (Ensures.mapM_map hbare).mono fun outer houter => ?_
  have hsome : outer.map some = (path.map fun n => Spelling.name n .nil).map some := by
    rw [← houter, hchain, List.map_map]
    rfl
  exact List.map_injective_iff.mpr (fun _ _ => Option.some.inj) hsome

/-- A type is spelled by its path and by the spellings of its arguments. -/
theorem IsLegible.spells (hc : c.IsLegible) (room : List TypeId) (t : TypeId) :
    Ensures (c.spellingWithin room true t) (c.Spells t) := by
  generalize hwhole : true = whole
  fun_induction spellingWithin c room whole t with
  | case1 room whole t _ iha =>
    subst hwhole
    refine (Ensures.self _).bind fun info hi => ?_
    rw [lookup_eq_ok] at hi
    split
    · rename_i ht
      refine (hc.enclosingChain_names (room.erase t) info.enclosing
        fun e outer he ho => hc.bare t info e outer hi he ho).bind ?_
      rintro chain ⟨path, hpath, hchain⟩
      refine (spellingWithin_outer (room.erase t) hchain).bind ?_
      rintro _ rfl
      refine Ensures.mapM_getElem.bind ?_
      rintro l ⟨hlength, hl⟩
      refine .pure ?_
      have hspelling := Spells.intro hi ⟨path, hpath, rfl⟩ hlength
        fun k a s ha hs => iha ht a rfl s (hl k a s ha hs)
      rw [names_path_append] at hspelling
      exact hspelling
    · exact .error _

theorem IsLegible.isLegible_path (hc : c.IsLegible) {path : List String}
    (hi : c.get? t = some info) (hpath : c.HasPath info path) :
    ∀ n ∈ path, isLegibleName n = true := by
  have haround {start : Option TypeId} {names : List String} (h : c.EnclosedBy start names) :
      ∀ n ∈ names, isLegibleName n = true := by
    induction h with
    | nothing => simp
    | type hi h ih =>
      rw [List.forall_mem_append, List.forall_mem_singleton]
      exact ⟨ih, hc.name _ _ hi⟩
  obtain ⟨names, hnames, rfl⟩ := hpath
  rw [List.forall_mem_append, List.forall_mem_append, List.forall_mem_singleton]
  exact ⟨⟨hc.space t info hi, haround hnames⟩, hc.name t info hi⟩

/-- Where names are legible, so are spellings, at any depth. -/
theorem IsLegible.isLegible_spelling (hc : c.IsLegible) (h : c.Spells t s) (depth : Nat) :
    s.isLegible depth = true := by
  induction h generalizing depth with
  | @intro t info path l hi hpath hlength _ ih =>
    refine isLegible_names_append (hc.isLegible_path hi hpath) (isLegible_arguments fun s hs => ?_)
    obtain ⟨k, hk, rfl⟩ := List.getElem_of_mem hs
    exact ih k info.arguments[k] l[k] (List.getElem?_eq_getElem _) (List.getElem?_eq_getElem hk) _

/-- Types that are spelled alike are alike. -/
theorem Spells.alike (ht : c.Spells t s) (hu : c.Spells u s) : c.Alike t u := by
  induction ht generalizing u with
  | @intro t i path l hi hpath hlength _ ih =>
    generalize hs : (names path).append (Spelling.arguments l) = s at hu
    cases hu with
    | @intro _ j path' l' hj hpath' hlength' harguments' =>
      obtain ⟨rfl, rfl⟩ := names_arguments_inj hs
      refine .intro hi hj hpath hpath' (hlength.trans hlength'.symm) fun k a b ha hb => ?_
      obtain ⟨hk, -⟩ := List.getElem?_eq_some_iff.mp ha
      have hl : l[k]? = some l[k] := List.getElem?_eq_getElem (hlength ▸ hk)
      exact ih k a l[k] ha hl (harguments' k b l[k] hb hl)

/-- Types that are alike are spelled alike. -/
theorem Alike.spelling_eq (h : c.Alike t u) (ht : c.Spells t s) (hu : c.Spells u s') : s = s' := by
  induction h generalizing s s' with
  | @intro t u i j path hi hj hpath hpath' hlength _ ih =>
    cases ht with
    | @intro _ i' path₁ l hi' hpath₁ hlength₁ ht =>
      cases hu with
      | @intro _ j' path₂ l' hj' hpath₂ hlength₂ hu =>
        obtain rfl := Option.some.inj (hi.symm.trans hi')
        obtain rfl := Option.some.inj (hj.symm.trans hj')
        obtain rfl := hpath.unique hpath₁
        obtain rfl := hpath'.unique hpath₂
        have hlengths : l.length = l'.length := by rw [← hlength₁, hlength, hlength₂]
        have hl : l = l' := by
          refine List.ext_getElem hlengths fun k hk hk' => ?_
          have ha := List.getElem?_eq_getElem (hlength₁ ▸ hk)
          have hb := List.getElem?_eq_getElem (hlength₂ ▸ hk')
          exact ih k _ _ ha hb (ht k _ _ ha (List.getElem?_eq_getElem hk))
            (hu k _ _ hb (List.getElem?_eq_getElem hk'))
        rw [hl]

/--
Where names are legible and only types without arguments stand around others, types go by the same
name exactly if they are alike: on the same path, with as many arguments, and these alike in turn.
-/
theorem qualifiedName_eq_iff_alike {n m : String} (hc : c.IsLegible)
    (ht : c.qualifiedName t = .ok n) (hu : c.qualifiedName u = .ok m) :
    n = m ↔ c.Alike t u := by
  have hspells {t : TypeId} {n : String} (ht : c.qualifiedName t = .ok n) :
      ∃ s, c.Spells t s ∧ n = String.ofList (s.write 1 true) := by
    rw [qualifiedName_eq] at ht
    cases hs : c.spelling t with
    | error e => simp [hs, Except.map] at ht
    | ok s =>
      rw [hs] at ht
      exact ⟨s, hc.spells c.ids t s hs, (Except.ok.inj ht).symm⟩
  obtain ⟨s, hs, rfl⟩ := hspells ht
  obtain ⟨s', hs', rfl⟩ := hspells hu
  constructor
  · intro htext
    have hsame := write_inj_of_isLegible (hc.isLegible_spelling hs 1)
      (hc.isLegible_spelling hs' 1) (String.ofList_inj.mp htext)
    exact hs.alike (hsame ▸ hs')
  · intro halike
    rw [halike.spelling_eq hs hs']

/-- Maps from words to lists and from lists to words, and a list by reference. -/
def maps : Catalog where
  entries := #[⟨"String", { name := "String", namespaceName := some "System" }⟩,
    ⟨"Int", { name := "Int", namespaceName := some "System" }⟩,
    ⟨"List<Int>", { name := "List`1", arguments := [⟨1⟩] }⟩,
    ⟨"List<String>", { name := "List`1", arguments := [⟨0⟩] }⟩,
    ⟨"Map<String, List<Int>>", { name := "Map`2", arguments := [⟨0⟩, ⟨2⟩] }⟩,
    ⟨"Map<List<String>, Int>", { name := "Map`2", arguments := [⟨3⟩, ⟨1⟩] }⟩,
    ⟨"List<Int>&", { name := "List`1&", arguments := [⟨1⟩] }⟩]

theorem maps_alike : maps.qualifiedName ⟨4⟩ = .ok "Map*1System*String*1List*2System*Int" ∧
    maps.qualifiedName ⟨5⟩ = .ok "Map*1List*2System*String*1System*Int" ∧
    ¬ maps.Alike ⟨4⟩ ⟨5⟩ ∧ maps.Alike ⟨2⟩ ⟨6⟩ := by
  have hc : maps.IsLegible := by
    have hspace : ∀ t ∈ maps.ids, ∀ info ∈ maps.get? t,
        ∀ n ∈ info.namespaceNames, isLegibleName n = true := by decide +kernel
    have hname : ∀ t ∈ maps.ids, ∀ info ∈ maps.get? t,
        isLegibleName (simpleName info.name) = true := by decide +kernel
    have houter : ∀ t ∈ maps.ids, ∀ info ∈ maps.get? t, info.enclosing = none := by
      decide +kernel
    refine ⟨fun t info hi => hspace t (mem_ids_of_get hi) info hi,
      fun t info hi => hname t (mem_ids_of_get hi) info hi, fun t info e outer hi he => ?_⟩
    simp [houter t (mem_ids_of_get hi) info hi] at he
  have hwords : maps.qualifiedName ⟨4⟩ = .ok "Map*1System*String*1List*2System*Int" := by
    decide +kernel
  have hlists : maps.qualifiedName ⟨5⟩ = .ok "Map*1List*2System*String*1System*Int" := by
    decide +kernel
  have hlist : maps.qualifiedName ⟨2⟩ = .ok "List*1System*Int" := by decide +kernel
  have hreference : maps.qualifiedName ⟨6⟩ = .ok "List*1System*Int" := by decide +kernel
  refine ⟨hwords, hlists, fun halike => ?_, (qualifiedName_eq_iff_alike hc hlist hreference).mp rfl⟩
  exact absurd ((qualifiedName_eq_iff_alike hc hwords hlists).mpr halike) (by decide)

end Catalog

end TypeDocs
