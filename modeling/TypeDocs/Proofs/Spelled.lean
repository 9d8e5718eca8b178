import TypeDocs.Name.Table
import TypeDocs.Proofs.Outcome
import TypeDocs.Proofs.Spelling

namespace TypeDocs

open Spelling

/-- Arguments one after the other. -/
def Spelling.arguments (l : List Spelling) : Spelling :=
  l.foldr .argument .nil

/-- Names one inside the other. -/
def Spelling.names (l : List String) : Spelling :=
  l.foldr .name .nil

/-- The segments of the namespace, if there is one. -/
def TypeInfo.namespaceNames (t : TypeInfo) : List String :=
  t.properNamespace.elim [] segments

namespace Catalog

/--
The spelling of a type, whole or without what is around it; `room` are the types that it may still
go through.
-/
def spellingWithin (c : Catalog) (room : List TypeId) (whole : Bool) (id : TypeId) :
    Except Defect Spelling := do
  let info ← c.lookup id
  if _h : id ∈ room then
    let chain ← if whole then c.enclosingChain (room.erase id) info.enclosing else pure []
    let outer ← chain.mapM fun e => spellingWithin c (room.erase id) false e
    let arguments ← info.arguments.mapM fun a => spellingWithin c (room.erase id) true a
    return (Spelling.names (if whole then info.namespaceNames else [])).append
      (outer.foldr append (.name (simpleName info.name) (.arguments arguments)))
  else .error (.endless id)
termination_by room.length
decreasing_by
  all_goals exact length_erase_lt _h

def spelling (c : Catalog) (id : TypeId) : Except Defect Spelling :=
  c.spellingWithin c.ids true id

end Catalog

namespace Spelling

variable {depth : Nat}

section Pieces

/-- A name with its arguments and nothing else. -/
def IsPiece (s : Spelling) : Prop :=
  ∃ text l, s = .name text (.arguments l)

/-- The text of an argument, with its mark. -/
def argumentText (mark : Nat) (s : Spelling) : List Char :=
  '*' :: (digits mark ++ s.write (mark + 1) true)

theorem write_arguments_append (l : List Spelling) (s : Spelling) :
    ((arguments l).append s).write depth false =
      l.flatMap (argumentText (if s.hasName then 1 else depth)) ++ s.write depth false := by
  have hname (l : List Spelling) : ((arguments l).append s).hasName = s.hasName := by
    induction l with
    | nil => rfl
    | cons a l ih => exact ih
  induction l with
  | nil => rfl
  | cons a l ih =>
    have hcons : (arguments (a :: l)).append s = .argument a ((arguments l).append s) := rfl
    simp only [hcons, write, hname, ih, List.flatMap_cons, argumentText]
    simp

theorem append_nil (s : Spelling) : s.append .nil = s := by
  induction s with
  | nil => rfl
  | name text rest ih => rw [append, ih]
  | argument inner rest _ ih => rw [append, ih]

theorem write_arguments (l : List Spelling) :
    (arguments l).write depth false = l.flatMap (argumentText depth) := by
  have h : ((arguments l).append .nil).write depth false = _ := write_arguments_append l .nil
  simpa [append_nil, hasName, write] using h

/-- Before a further name, a piece is written as it is outermost. -/
theorem IsPiece.write_append {p s : Spelling} (hp : p.IsPiece) (hs : s.hasName = true) :
    (p.append s).write depth false =
      separator depth :: (p.write 1 true ++ s.write depth false) := by
  obtain ⟨text, l, rfl⟩ := hp
  have happend : (name text (arguments l)).append s = .name text ((arguments l).append s) := rfl
  simp [happend, write, write_arguments_append, write_arguments, hs]

theorem hasName_append {s t : Spelling} (h : t.hasName = true) : (s.append t).hasName = true := by
  induction s with
  | nil => exact h
  | name text rest ih => rfl
  | argument inner rest _ ih => exact ih

theorem hasName_foldr {s : Spelling} (h : s.hasName = true) (ps : List Spelling) :
    (ps.foldr append s).hasName = true := by
  induction ps with
  | nil => exact h
  | cons p ps ih => exact hasName_append ih

theorem write_pieces {ps : List Spelling} (hps : ∀ p ∈ ps, p.IsPiece) {s : Spelling}
    (hs : s.hasName = true) : (ps.foldr append s).write depth false =
      ps.flatMap (fun p => separator depth :: p.write 1 true) ++ s.write depth false := by
  induction ps with
  | nil => rfl
  | cons p ps ih =>
    rw [List.forall_mem_cons] at hps
    rw [List.foldr_cons, hps.1.write_append (hasName_foldr hs ps), ih hps.2]
    simp

theorem write_names_append (l : List String) (s : Spelling) :
    ((names l).append s).write depth false =
      l.flatMap (fun text => separator depth :: text.toList) ++ s.write depth false := by
  induction l with
  | nil => rfl
  | cons text l ih =>
    have hcons : (names (text :: l)).append s = .name text ((names l).append s) := rfl
    simp [hcons, write, ih]

end Pieces

section Separators

/-- Points of a namespace give way to the separator. -/
theorem flatMap_segments (separator : Char) (ns : String) :
    (segments ns).flatMap (fun text => separator :: text.toList) =
      separator :: (separated separator ns).toList := by
  rw [segments, List.flatMap_map, separated, String.toList_ofList, List.splitOn_eq_splitOnP]
  simp only [String.toList_ofList]
  induction ns.toList with
  | nil => simp
  | cons c l ih =>
    rw [List.splitOnP_cons_eq_if_modifyHead]
    by_cases hc : c = '.'
    · simp [hc, ih]
    · obtain ⟨first, rest, hsplit⟩ :=
        List.exists_cons_of_ne_nil (List.splitOnP_ne_nil (· == '.') l)
      rw [hsplit, List.flatMap_cons, List.cons_append] at ih
      simp [hc, hsplit, (List.cons.inj ih).2]

/-- Separators before items are separators after items, but for the ends. -/
theorem flatMap_separator {α : Type} (separator : Char) (text : α → List Char) (l : List α) :
    l.flatMap (fun a => separator :: text a) ++ [separator] =
      separator :: l.flatMap fun a => text a ++ [separator] := by
  induction l with
  | nil => rfl
  | cons a l ih => simp [ih]

/-- A spelling that begins with a name is written with or without a mark before it. -/
theorem write_false {s : Spelling} (h : ∃ text rest, s = .name text rest) :
    s.write depth false = separator depth :: s.write depth true := by
  obtain ⟨text, rest, rfl⟩ := h
  simp [write]

/-- The text of a type in its surroundings, each part followed by the separator. -/
theorem write_whole {space : List Char} {ns : List String} {ps : List Spelling}
    (hspace : separator depth :: space =
      ns.flatMap (fun text => separator depth :: text.toList) ++ [separator depth])
    (hps : ∀ p ∈ ps, p.IsPiece) (text : String) (l : List Spelling) :
    ((names ns).append (ps.foldr append (.name text (arguments l)))).write depth true =
      space ++ (ps.flatMap fun p => p.write 1 true ++ [separator depth]) ++ text.toList ++
        l.flatMap (argumentText depth) := by
  have hbegins : ∃ text' rest, (names ns).append (ps.foldr append (.name text (arguments l))) =
      .name text' rest := by
    cases ns with
    | cons n ns => exact ⟨n, _, rfl⟩
    | nil =>
      cases ps with
      | nil => exact ⟨text, _, rfl⟩
      | cons p ps =>
        obtain ⟨text', l', rfl⟩ := hps p List.mem_cons_self
        exact ⟨text', _, rfl⟩
  have hown : (name text (arguments l)).write depth false =
      separator depth :: (text.toList ++ l.flatMap (argumentText depth)) := by
    simp [write, write_arguments]
  have hmarked := @write_false depth _ hbegins
  rw [write_names_append, write_pieces hps rfl, hown] at hmarked
  rw [← List.cons_inj_right (separator depth), ← hmarked]
  calc ns.flatMap (fun text => separator depth :: text.toList) ++
        (ps.flatMap (fun p => separator depth :: p.write 1 true) ++
          separator depth :: (text.toList ++ l.flatMap (argumentText depth)))
      = ns.flatMap (fun text => separator depth :: text.toList) ++
        (ps.flatMap (fun p => separator depth :: p.write 1 true) ++ [separator depth]) ++
          (text.toList ++ l.flatMap (argumentText depth)) := by simp
    _ = (separator depth :: space) ++ (ps.flatMap fun p => p.write 1 true ++ [separator depth]) ++
          (text.toList ++ l.flatMap (argumentText depth)) := by
        rw [flatMap_separator, hspace]
        simp
    _ = separator depth :: (space ++ (ps.flatMap fun p => p.write 1 true ++ [separator depth]) ++
          text.toList ++ l.flatMap (argumentText depth)) := by simp

end Separators

end Spelling

namespace NameStyle

/-- The style at a depth, of a whole name or of a type without what is around it. -/
def ofDepth (depth : Nat) (whole : Bool) : NameStyle :=
  { asArgument := depth ≠ 1, withNamespace := whole, withEnclosing := whole, depth }

theorem separator_ofDepth (depth : Nat) (whole : Bool) :
    (ofDepth depth whole).separator = Spelling.separator depth := by
  by_cases h : depth = 1 <;> simp [separator, Spelling.separator, ofDepth, h]

theorem argument_ofDepth {depth : Nat} (hd : 1 ≤ depth) (whole : Bool) :
    (ofDepth depth whole).argument = ofDepth (depth + 1) true := by
  have hne : depth ≠ 0 := by omega
  simp [argument, ofDepth, hne]

end NameStyle

namespace Catalog

variable {c : Catalog} {id : TypeId}

/-- Without what is around it, a type spells out its own name and its arguments. -/
theorem spellingWithin_piece (room : List TypeId) (id : TypeId) :
    Ensures (c.spellingWithin room false id) IsPiece := by
  unfold spellingWithin
  refine .after fun info => ?_
  split
  · simp only [Bool.false_eq_true, if_false, pure_eq_ok, ok_bind, List.mapM_nil]
    exact .after fun arguments => .pure ⟨simpleName info.name, arguments, rfl⟩
  · exact .error _

/-- If the names of the parts are their spellings written out, so is what is made of them. -/
theorem assemble_eq {around inside : TypeId → Except Defect String}
    {around' inside' : TypeId → Except Defect Spelling} {depth : Nat}
    (haround : ∀ e, around e = (around' e).map fun s => String.ofList (s.write 1 true))
    (hinside : ∀ a, inside a = (inside' a).map fun s => String.ofList (s.write (depth + 1) true))
    (hpiece : ∀ e, Ensures (around' e) IsPiece) {space : String} {ns : List String}
    (hspace : separator depth :: space.toList =
      ns.flatMap (fun text => separator depth :: text.toList) ++ [separator depth])
    (chain ids : List TypeId) (text : String) : (do
      let outer ← chain.mapM around
      let arguments ← ids.mapM inside
      return space ++ String.join (outer.map (· ++ (separator depth).toString)) ++ text ++
        String.join (arguments.map (("*" ++ toString depth) ++ ·))) =
    Except.map (fun s : Spelling => String.ofList (s.write depth true)) (do
      let outer ← chain.mapM around'
      let arguments ← ids.mapM inside'
      return (Spelling.names ns).append
        (outer.foldr append (.name text (.arguments arguments)))) := by
  rw [mapM_eq_map fun e _ => haround e, mapM_eq_map fun a _ => hinside a]
  cases houter : chain.mapM around' with
  | error d => rfl
  | ok outer =>
    have hpieces : ∀ p ∈ outer, p.IsPiece := Ensures.mapM (fun e _ => hpiece e) outer houter
    cases ids.mapM inside' with
    | error d => rfl
    | ok arguments =>
      refine congrArg Except.ok (String.toList_inj.mp ?_)
      rw [String.toList_ofList, write_whole hspace hpieces]
      have hargument : argumentText depth = fun s =>
          '*' :: (Nat.toDigits 10 depth ++ s.write (depth + 1) true) := by
        funext s
        rw [argumentText, digits_eq]
      simp [String.toList_join, List.flatMap_map, hargument]

/-- At any depth, the name of a type is its spelling written out. -/
theorem nameWithin_eq (room : List TypeId) (whole : Bool) (id : TypeId) {depth : Nat}
    (hd : 1 ≤ depth) : c.nameWithin room (.ofDepth depth whole) id =
      (c.spellingWithin room whole id).map fun s => String.ofList (s.write depth true) := by
  fun_induction spellingWithin c room whole id generalizing depth with
  | case1 room whole id ihe iha =>
    rw [nameWithin]
    cases hl : c.lookup id with
    | error d => rfl
    | ok info =>
      rw [ok_bind, ok_bind]
      by_cases hid : id ∈ room
      · rw [dif_pos hid, dif_pos hid]
        dsimp only
        rw [NameStyle.separator_ofDepth, NameStyle.argument_ofDepth hd]
        have hparts (space : String) (ns : List String) (hspace : separator depth :: space.toList =
            ns.flatMap (fun text => separator depth :: text.toList) ++ [separator depth])
            (chain : List TypeId) := assemble_eq (fun e => ihe hid e (Nat.le_refl 1))
          (fun a => iha hid a (by omega)) (spellingWithin_piece (room.erase id)) hspace chain
          info.arguments (simpleName info.name)
        cases whole with
        | false => cases info.properNamespace <;> exact hparts "" [] rfl []
        | true =>
          cases c.enclosingChain (room.erase id) info.enclosing with
          | error d => rfl
          | ok chain =>
            cases hns : info.properNamespace with
            | none =>
              have hnames : info.namespaceNames = [] := by rw [TypeInfo.namespaceNames, hns]; rfl
              have hwhole := hparts "" [] rfl chain
              rw [← hnames] at hwhole
              exact hwhole
            | some ns =>
              have hnames : info.namespaceNames = segments ns := by
                rw [TypeInfo.namespaceNames, hns]
                rfl
              have hwhole := hparts (separated (separator depth) ns ++ (separator depth).toString)
                (segments ns) (by rw [flatMap_segments]; simp) chain
              rw [← hnames] at hwhole
              exact hwhole
      · rw [dif_neg hid, dif_neg hid]
        rfl

/-- The qualified name of a type is its spelling, written out. -/
theorem qualifiedName_eq (c : Catalog) (id : TypeId) : c.qualifiedName id =
    (c.spelling id).map fun s => String.ofList (s.write 1 true) :=
  @nameWithin_eq c c.ids true id 1 (Nat.le_refl 1)

end Catalog

end TypeDocs
