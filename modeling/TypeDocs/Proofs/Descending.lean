import TypeDocs.Catalog.Reading
import TypeDocs.Proofs.Elements
import TypeDocs.Proofs.Outcome

/-!
Reading by elements. The passes over the events of a document come to what a walk over its elements
comes to; an element that closes itself is read as one with nothing inside.
-/

namespace TypeDocs

open Markup

namespace Reader

/-- Keys of all type elements in document order, wherever they stand below `parent`. -/
def declaredKeys (parent : Option String) : Forest → Except ReadError (List String)
  | .nil => .ok []
  | .node tag inside after => do
    let own ← declaredKey parent tag
    let inner ← declaredKeys (some tag.name) inside
    let later ← declaredKeys parent after
    return own ++ inner ++ later

def accessors (p : Property) : Forest → Except ReadError Property
  | .nil => .ok p
  | .node tag _ after => do
    let p ← addAccessor p tag
    accessors p after

def parameters (keys : KeyTable) (owner : String) : Forest → Except ReadError (List Parameter)
  | .nil => .ok []
  | .node tag _ after => do
    let own ←
      if tag.name = "param" then do
        let p ← parameter keys owner tag
        pure [p]
      else pure []
    let later ← parameters keys owner after
    return own ++ later

def member (keys : KeyTable) (key : String) (t : TypeInfo) (tag : Tag) (inside : Forest) :
    Except ReadError TypeInfo :=
  match tag.name with
  | "field" => do
    let f ← field keys key tag
    return { t with fields := t.fields ++ [f] }
  | "property" => do
    let p ← propertyHeader keys key tag
    let p ← accessors p inside
    return { t with properties := t.properties ++ [p] }
  | "method" => do
    let m ← methodHeader keys key tag
    let ps ← parameters keys (key ++ "." ++ m.name) inside
    return { t with methods := t.methods ++ [{ m with parameters := ps }] }
  | "constructor" => do
    let c ← constructorHeader tag
    let ps ← parameters keys (key ++ ".ctor") inside
    return { t with constructors := t.constructors ++ [{ c with parameters := ps }] }
  | "type" => .error (.layout (.typeInside "type"))
  | _ => .ok t

/-- Adds the members among the children of the type `key`. -/
def members (keys : KeyTable) (key : String) (t : TypeInfo) : Forest → Except ReadError TypeInfo
  | .nil => .ok t
  | .node tag inside after => do
    let t ← member keys key t tag inside
    members keys key t after

def typeEntry (keys : KeyTable) (tag : Tag) (inside : Forest) : Except ReadError Entry := do
  let e ← typeHeader keys tag
  let info ← members keys e.key e.info inside
  return ⟨e.key, info⟩

/-- Reads all types below an element. -/
def catalogFrom (keys : KeyTable) (catalog : Option Catalog) :
    Forest → Except ReadError (Option Catalog)
  | .nil => .ok catalog
  | .node tag inside after =>
    if tag.name = "typeCatalog" then do
      let c ← emptyCatalog tag
      let catalog ← catalogFrom keys (some c) inside
      catalogFrom keys catalog after
    else if tag.name = "type" then do
      let c ← openCatalog catalog
      let e ← typeEntry keys tag inside
      catalogFrom keys (some (c.insert e.key e.info)) after
    else do
      let catalog ← catalogFrom keys catalog inside
      catalogFrom keys catalog after

/-- The first group of elements and those after it. -/
def pop : List Forest → Forest × List Forest
  | [] => (.nil, [])
  | f :: outer => (f, outer)

/-- All groups of elements, innermost first. -/
def groups (tokens : List Token) : List Forest :=
  (levels tokens).1 :: (levels tokens).2

theorem levels_opening (tag : Tag) (tokens : List Token) : levels (.opening tag :: tokens) =
    (.node tag (levels tokens).1 (pop (levels tokens).2).1, (pop (levels tokens).2).2) := by
  rw [levels]
  split
  · rename_i h
    rw [h]
    rfl
  · rename_i h
    rw [h]
    rfl

/--
A loop over the children of an element comes to `y`, and goes on behind the end of that element with
the elements that stand there.
-/
inductive Reads {α : Type} (tokens : List Token) :
    Except ReadError (α × Rest tokens) → Except ReadError α → Prop
  | ok (a : α) (rest : Rest tokens) (h : levels rest.1 = pop (levels tokens).2) :
    Reads tokens (.ok (a, rest)) (.ok a)
  | error (e : ReadError) : Reads tokens (.error e) (.error e)

section Reads

variable {α β : Type} {tokens tokens' : List Token}

theorem Reads.bind {x : Except ReadError α} {f : α → Except ReadError (β × Rest tokens)}
    {g : α → Except ReadError β} (h : ∀ a, Reads tokens (f a) (g a)) :
    Reads tokens (x >>= f) (x >>= g) := by
  cases x with
  | ok a => exact h a
  | error e => exact .error e

theorem Reads.andThen {x : Except ReadError (α × Rest tokens)} {y : Except ReadError α}
    {f : α × Rest tokens → Except ReadError (β × Rest tokens')} {g : α → Except ReadError β}
    (h : Reads tokens x y)
    (hf : ∀ a rest, levels rest.1 = pop (levels tokens).2 → Reads tokens' (f (a, rest)) (g a)) :
    Reads tokens' (x >>= f) (y >>= g) := by
  cases h with
  | ok a rest h => exact hf a rest h
  | error e => exact .error e

/-- Behind an element that closes itself the children go on. -/
theorem Reads.later {x : Except ReadError (α × Rest tokens)} {y : Except ReadError α}
    (h : Reads tokens x y) (tag : Tag) :
    Reads (.selfClosed tag :: tokens) (do let (a, rest) ← x; return (a, rest.later)) y := by
  rw [← bind_pure y]
  exact h.andThen fun a rest hrest => .ok a rest.later hrest

/-- So they do behind the end of any other. -/
theorem Reads.within {inner : Rest tokens} (hinner : levels inner.1 = pop (levels tokens).2)
    {x : Except ReadError (α × Rest inner.1)} {y : Except ReadError α} (h : Reads inner.1 x y)
    (tag : Tag) :
    Reads (.opening tag :: tokens)
      (do let (a, rest) ← x; return (a, (inner.within rest).later)) y := by
  rw [← bind_pure y]
  refine h.andThen fun a rest hrest => .ok a (inner.within rest).later ?_
  rw [levels_opening, ← hinner]
  exact hrest

end Reads

/-- What is skipped are the rest of an element and of those around it. -/
theorem skipToEnd_levels (depth : Nat) (tokens : List Token) : ∃ rest : Rest tokens,
    skipToEnd none depth tokens = .ok rest ∧
      levels rest.1 = pop ((levels tokens).2.drop depth) := by
  induction tokens generalizing depth with
  | nil => exact ⟨.none, rfl, by simp [levels, pop, Rest.none]⟩
  | cons token tokens ih =>
    cases token with
    | opening tag =>
      obtain ⟨rest, hskip, hrest⟩ := ih (depth + 1)
      refine ⟨rest.later, by rw [skipToEnd, hskip]; rfl, hrest.trans ?_⟩
      rw [levels_opening]
      cases (levels tokens).2 <;> simp [pop]
    | selfClosed tag =>
      obtain ⟨rest, hskip, hrest⟩ := ih depth
      exact ⟨rest.later, by rw [skipToEnd, hskip]; rfl, hrest⟩
    | closing name =>
      cases depth with
      | zero => exact ⟨.afterFirst, rfl, rfl⟩
      | succ depth =>
        obtain ⟨rest, hskip, hrest⟩ := ih depth
        exact ⟨rest.later, by rw [skipToEnd, hskip]; rfl, hrest⟩

/-- The children of an element are visited in order, whatever is inside them. -/
theorem forEachChild_reads {α : Type} (visit : α → Tag → Except ReadError α) (a : α)
    (tokens : List Token) : Reads tokens (forEachChild none visit a tokens)
      ((levels tokens).1.tags.foldlM visit a) := by
  fun_induction forEachChild none visit a tokens with
  | case1 a => exact .ok a .none rfl
  | case2 a tag tokens ih =>
    obtain ⟨inner, hskip, hinner⟩ := skipToEnd_levels 0 tokens
    rw [levels_opening, Forest.tags, List.foldlM_cons]
    refine .bind fun a => ?_
    rw [List.drop_zero] at hinner
    rw [hskip, ok_bind, ← hinner]
    exact (ih a inner).within hinner tag
  | case3 a tag tokens ih =>
    rw [levels, Forest.tags, List.foldlM_cons]
    exact .bind fun a => (ih a).later tag
  | case4 a name tokens => exact .ok a .afterFirst rfl

theorem foldlM_addAccessor (p : Property) (f : Forest) :
    f.tags.foldlM addAccessor p = accessors p f := by
  induction f generalizing p with
  | nil => rfl
  | node tag inside after _ iha =>
    simp only [Forest.tags, List.foldlM_cons, accessors, iha]

theorem foldlM_addParameter (keys : KeyTable) (owner : String) (ps : List Parameter) (f : Forest) :
    f.tags.foldlM (addParameter keys owner) ps =
      do return ps ++ (← parameters keys owner f) := by
  induction f generalizing ps with
  | nil => simp [Forest.tags, parameters]
  | node tag inside after _ iha =>
    simp only [Forest.tags, List.foldlM_cons, iha, addParameter, parameters]
    split
    · simp only [bind_assoc, pure_bind, List.append_assoc]
    · simp

variable (keys : KeyTable)

theorem readAccessors_reads (p : Property) (tokens : List Token) :
    Reads tokens (readAccessors none p tokens) (accessors p (levels tokens).1) := by
  rw [← foldlM_addAccessor]
  exact forEachChild_reads addAccessor p tokens

theorem readParameters_reads (owner : String) (tokens : List Token) :
    Reads tokens (readParameters none keys owner tokens)
      (parameters keys owner (levels tokens).1) := by
  have h := forEachChild_reads (addParameter keys owner) [] tokens
  rw [foldlM_addParameter] at h
  simp only [List.nil_append, bind_pure] at h
  exact h

/-- The names of the elements that stand for something inside a type. -/
def memberNames : List String :=
  ["field", "property", "method", "constructor", "type"]

theorem member_of_notMem {keys : KeyTable} {key : String} {t : TypeInfo} {tag : Tag}
    {inside : Forest} (h : tag.name ∉ memberNames) : member keys key t tag inside = .ok t := by
  unfold member
  split
  all_goals first | rfl | exact absurd (by simp_all [memberNames]) h

/-- Nothing is inside an element that closes itself. -/
theorem emptyMember_eq (key : String) (t : TypeInfo) (tag : Tag) :
    emptyMember keys key t tag = member keys key t tag .nil := by
  have hmethod : Ensures (methodHeader keys key tag) fun m => m.parameters = [] := by
    refine .after fun d => .after fun name => ?_
    dsimp only
    split
    · exact .pure rfl
    · exact .after fun _ => .pure rfl
  have hconstructor : Ensures (constructorHeader tag) fun c => c.parameters = [] :=
    .after fun _ => .pure rfl
  unfold emptyMember
  split
  · rename_i htag
    simp only [member, htag]
  · rename_i htag
    simp only [member, htag, accessors, ok_bind]
  · rename_i htag
    simp only [member, htag]
    refine hmethod.bind_congr fun m hm => ?_
    rw [parameters, ok_bind, ← hm]
  · rename_i htag
    simp only [member, htag]
    refine hconstructor.bind_congr fun c hc => ?_
    rw [parameters, ok_bind, ← hc]
  · rename_i htag
    simp only [member, htag]
  · rw [member_of_notMem (by simp_all [memberNames])]

theorem startMember_reads (key : String) (t : TypeInfo) (tag : Tag) (tokens : List Token) :
    Reads tokens (startMember none keys key t tag tokens)
      (member keys key t tag (levels tokens).1) := by
  obtain ⟨rest, hskip, hrest⟩ := skipToEnd_levels 0 tokens
  unfold startMember
  split
  · rename_i htag
    simp only [member, htag, hskip]
    exact .bind fun f => .ok _ rest hrest
  · rename_i htag
    simp only [member, htag]
    refine .bind fun p => (readAccessors_reads p tokens).andThen fun _ rest hrest => ?_
    exact .ok _ rest hrest
  · rename_i htag
    simp only [member, htag]
    refine .bind fun m => (readParameters_reads keys _ tokens).andThen fun _ rest hrest => ?_
    exact .ok _ rest hrest
  · rename_i htag
    simp only [member, htag]
    refine .bind fun c => (readParameters_reads keys _ tokens).andThen fun _ rest hrest => ?_
    exact .ok _ rest hrest
  · rename_i htag
    simp only [member, htag]
    exact .error _
  · rw [member_of_notMem (by simp_all [memberNames]), hskip]
    exact .ok t rest hrest

theorem readMembers_reads (key : String) (t : TypeInfo) (tokens : List Token) :
    Reads tokens (readMembers none keys key t tokens) (members keys key t (levels tokens).1) := by
  fun_induction readMembers none keys key t tokens with
  | case1 t => exact .ok t .none rfl
  | case2 t tag tokens ih =>
    rw [levels_opening, members]
    refine (startMember_reads keys key t tag tokens).andThen fun t inner hinner => ?_
    rw [← hinner]
    exact (ih t inner).within hinner tag
  | case3 t tag tokens ih =>
    rw [levels, members, ← emptyMember_eq]
    exact .bind fun t => (ih t).later tag
  | case4 t name tokens => exact .ok t .afterFirst rfl

theorem readType_reads (tag : Tag) (tokens : List Token) :
    Reads tokens (readType none keys tag tokens) (typeEntry keys tag (levels tokens).1) :=
  .bind fun e => (readMembers_reads keys e.key e.info tokens).andThen
    fun _ rest hrest => .ok _ rest hrest

theorem groups_opening (tag : Tag) (tokens : List Token) : groups (.opening tag :: tokens) =
    .node tag (levels tokens).1 (pop (levels tokens).2).1 :: (pop (levels tokens).2).2 := by
  rw [groups, levels_opening]

/-- The elements after one are walked as its siblings are, and there may be none. -/
theorem foldlM_groups (catalog : Option Catalog) (tokens : List Token) :
    (groups tokens).foldlM (catalogFrom keys) catalog =
      (do
        let catalog ← catalogFrom keys catalog (levels tokens).1
        catalogFrom keys catalog (pop (levels tokens).2).1) >>=
      (pop (levels tokens).2).2.foldlM (catalogFrom keys) := by
  rw [groups, List.foldlM_cons, bind_assoc]
  cases (levels tokens).2 <;> rfl

/-- The second pass is a walk over all groups of elements, one after the other. -/
theorem readCatalog_eq (catalog : Option Catalog) (tokens : List Token) :
    readCatalog none keys catalog tokens =
      (groups tokens).foldlM (catalogFrom keys) catalog := by
  fun_induction readCatalog none keys catalog tokens with
  | case1 catalog => rfl
  | case2 catalog tag tokens htag ih =>
    rw [groups_opening, List.foldlM_cons, catalogFrom, if_pos htag]
    simp only [ih, foldlM_groups, bind_assoc]
  | case3 catalog tag tokens htag ih =>
    rw [groups_opening, List.foldlM_cons, catalogFrom, if_neg (by simp [htag]), if_pos htag,
      bind_assoc]
    refine bind_congr fun c => ?_
    have hread := readType_reads keys tag tokens
    generalize readType none keys tag tokens = x, typeEntry keys tag (levels tokens).1 = y at hread
    cases hread with
    | ok e rest hrest =>
      simp only [ok_bind]
      rw [ih, groups, hrest]
      rfl
    | error e => rfl
  | case4 catalog tag tokens hcatalog htype ih =>
    rw [groups_opening, List.foldlM_cons, catalogFrom, if_neg hcatalog, if_neg htype, ih,
      foldlM_groups]
  | case5 catalog tag tokens htag ih =>
    rw [groups, levels, List.foldlM_cons, catalogFrom, if_pos htag]
    simp only [ih, catalogFrom, groups, List.foldlM_cons, bind_assoc, ok_bind]
  | case6 catalog tag tokens htag ih =>
    rw [groups, levels, List.foldlM_cons, catalogFrom, if_neg (by simp [htag]), if_pos htag]
    simp only [ih, groups, typeEntry, members, List.foldlM_cons, bind_assoc, ok_bind, pure_bind]
  | case7 catalog tag tokens hcatalog htype ih =>
    rw [groups, levels, List.foldlM_cons, catalogFrom, if_neg hcatalog, if_neg htype, ih, groups,
      List.foldlM_cons]
    rfl
  | case8 catalog name tokens ih =>
    rw [ih]
    rfl

/-- Keys of groups of elements that stand inside the elements `opened`, the first innermost. -/
def declaredIn (opened : List String) : List Forest → Except ReadError (List String)
  | [] => .ok []
  | f :: outer => do
    let own ← declaredKeys opened.head? f
    let later ← declaredIn opened.tail outer
    return own ++ later

theorem declaredIn_pop (opened : List String) (outer : List Forest) :
    declaredIn opened ((pop outer).1 :: (pop outer).2) = declaredIn opened outer := by
  cases outer <;> rfl

theorem atEnd_bind_pure {α β : Type} (fault : Option Fault) (a : α) (f : α → β) :
    (atEnd fault a >>= fun a => pure (f a)) = atEnd fault (f a) := by
  cases fault <;> rfl

/-- The first pass reads the keys of all groups before it comes to a fault. -/
theorem collectKeys_eq (fault : Option Fault) (opened : List String) (tokens : List Token) :
    collectKeys fault opened tokens = declaredIn opened (groups tokens) >>= atEnd fault := by
  induction tokens generalizing opened with
  | nil => rfl
  | cons token tokens ih =>
    cases token with
    | opening tag =>
      rw [collectKeys, ih, groups_opening, groups, declaredIn, List.head?_cons, List.tail_cons,
        ← declaredIn_pop opened, declaredIn, declaredIn, declaredKeys]
      simp only [bind_assoc, pure_bind, atEnd_bind_pure, List.append_assoc]
    | selfClosed tag =>
      rw [collectKeys, ih, groups, groups, levels, declaredIn, declaredIn, declaredKeys,
        declaredKeys]
      simp only [bind_assoc, pure_bind, ok_bind, atEnd_bind_pure, List.nil_append,
        List.append_assoc]
    | closing name =>
      have hgroups : groups (.closing name :: tokens) = .nil :: groups tokens := rfl
      rw [collectKeys, ih, hgroups, declaredIn, declaredKeys]
      simp only [ok_bind, bind_pure, List.nil_append]

end Reader

namespace Catalog

def ofReading (r : Reading) : Except ReadError Catalog := do
  let keys ← Reader.declaredKeys none r.content
  if let some fault := r.fault then throw (.markup fault)
  let table ← KeyTable.assign keys
  match ← Reader.catalogFrom table none r.content with
  | none => throw (.layout .noCatalog)
  | some catalog =>
    if catalog.size = keys.length then return catalog
    else throw (.layout (.lostTypes keys.length catalog.size))

/-- A document is parsed as its elements are read. -/
theorem parse_eq (text : String) : parse text = ofReading (read text) := by
  -- closings fit, so there is one group of elements
  have houter : (levels (events text).tokens).2 = [] :=
    List.eq_nil_of_length_eq_zero (Nat.le_zero.mp (length_levels_nest [] _))
  have hgroups : Reader.groups (events text).tokens = [(read text).content] := by
    rw [Reader.groups, houter]
    rfl
  have hfault : (read text).fault = (events text).fault := rfl
  have hkeys : Reader.collectKeys (events text).fault [] (events text).tokens =
      Reader.declaredKeys none (read text).content >>= Reader.atEnd (read text).fault := by
    rw [Reader.collectKeys_eq, hgroups, hfault]
    simp [Reader.declaredIn]
  rw [parse, ofReading, hkeys, bind_assoc, ← hfault]
  refine bind_congr fun keys => ?_
  cases (read text).fault with
  | some fault => rfl
  | none =>
    simp only [Reader.readCatalog_eq, hgroups, List.foldlM_cons, List.foldlM_nil, bind_pure]
    rfl

end Catalog

end TypeDocs
