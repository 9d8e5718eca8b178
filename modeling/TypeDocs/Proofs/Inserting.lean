import TypeDocs.Proofs.Unclosed

namespace TypeDocs

namespace Markup

namespace Forest

/-- Elements with further ones after them. -/
def append : Forest → Forest → Forest
  | .nil, g => g
  | .node tag inside after, g => .node tag inside (after.append g)

theorem append_nil (f : Forest) : f.append .nil = f := by
  induction f with
  | nil => rfl
  | node tag inside after _ iha => rw [append, iha]

end Forest

/--
Elements inside `parent` and the same ones with `filler` somewhere among them, or among those inside
one of them: at a place whose innermost element is named `place`.
-/
inductive Inserted (place : Option String) (filler : Forest) :
    Option String → Forest → Forest → Prop
  | here (f : Forest) : Inserted place filler place f (filler.append f)
  | after {parent : Option String} {tag : Tag} {inside f g : Forest} :
    Inserted place filler parent f g →
      Inserted place filler parent (.node tag inside f) (.node tag inside g)
  | inside {parent : Option String} {tag : Tag} {f g after : Forest} :
    Inserted place filler (some tag.name) f g →
      Inserted place filler parent (.node tag f after) (.node tag g after)

/-- The same for all groups of elements inside `opened`, the innermost of which is the first. -/
inductive InsertedLevels (place : Option String) (filler : Forest) :
    List String → Forest × List Forest → Forest × List Forest → Prop
  | first {opened : List String} {f g : Forest} {groups : List Forest} :
    Inserted place filler opened.head? f g →
      InsertedLevels place filler opened (f, groups) (g, groups)
  | later {name : String} {opened : List String} {f after after' : Forest}
      {groups groups' : List Forest} :
    InsertedLevels place filler opened (after, groups) (after', groups') →
      InsertedLevels place filler (name :: opened) (f, after :: groups) (f, after' :: groups')

/-- Groups and further ones, the first of which goes on where the last of the others ends. -/
def joinLevels (f : Forest) : List Forest → Forest × List Forest → Forest × List Forest
  | [], (g, outer) => (f.append g, outer)
  | after :: groups, rest =>
    let (next, outer) := joinLevels after groups rest
    (f, next :: outer)

section Nesting

variable {place : Option String} {opened : List String} {filler f g : Forest}
  {groups groups' : List Forest} {l m : List Token}

theorem joinLevels_node (tag : Tag) (inside after : Forest) (groups : List Forest)
    (rest : Forest × List Forest) : joinLevels (.node tag inside after) groups rest =
      (.node tag inside (joinLevels after groups rest).1, (joinLevels after groups rest).2) := by
  cases groups <;> rfl

/-- Tokens that close `opened` and nothing else have a group for each of its elements. -/
theorem levels_append_of_closed (h : (nest opened l).fault = none)
    (hclosed : (nest opened l).unclosed = []) (m : List Token) :
    (levels l).2.length = opened.length ∧
      levels (l ++ m) = joinLevels (levels l).1 (levels l).2 (levels m) := by
  induction l generalizing opened with
  | nil =>
    obtain rfl : opened = [] := hclosed
    exact ⟨rfl, rfl⟩
  | cons token l ih =>
    cases token with
    | opening tag =>
      obtain ⟨hlength, hlevels⟩ := @ih (tag.name :: opened) h hclosed
      cases hl : levels l with
      | mk inside groups =>
        rw [hl] at hlength hlevels
        cases groups with
        | nil => simp at hlength
        | cons after groups =>
          simp only [List.cons_append, levels, hl, hlevels, joinLevels, joinLevels_node, and_true]
          exact Nat.succ.inj hlength
    | selfClosed tag =>
      obtain ⟨hlength, hlevels⟩ := @ih opened h hclosed
      simp only [List.cons_append, levels, hlevels, joinLevels_node, and_true]
      exact hlength
    | closing name =>
      cases opened with
      | nil => simp [nest] at h
      | cons expected outer =>
        by_cases hname : name = expected
        · simp only [nest, if_pos hname] at h hclosed
          obtain ⟨hlength, hlevels⟩ := ih h hclosed
          simp only [List.cons_append, levels, hlevels, joinLevels, List.length_cons, hlength,
            and_true]
        · simp [nest, hname] at h

/-- What is open further out makes no difference to tokens that fit without it. -/
theorem nest_append_opened (h : (nest opened l).fault = none) (outer : List String) :
    nest (opened ++ outer) l = { nest opened l with
      unclosed := (nest opened l).unclosed ++ outer } := by
  induction l generalizing opened with
  | nil => rfl
  | cons token l ih =>
    cases token with
    | opening tag => simp only [nest, ← List.cons_append, @ih (tag.name :: opened) h]
    | selfClosed tag => simp only [nest, @ih opened h]
    | closing name =>
      cases opened with
      | nil => simp [nest] at h
      | cons expected inner =>
        by_cases hname : name = expected
        · simp only [nest, if_pos hname] at h
          simp only [List.cons_append, nest, if_pos hname, ih h]
        · simp [nest, hname] at h

/-- Tokens that close all they open are followed wherever they stand. -/
theorem nest_append_of_closed (h : (nest [] l).fault = none) (hclosed : (nest [] l).unclosed = [])
    (opened : List String) (m : List Token) :
    nest opened (l ++ m) = { nest opened m with tokens := l ++ (nest opened m).tokens } := by
  have hl : nest opened l = { nest [] l with unclosed := opened } := by
    simpa [hclosed] using nest_append_opened h opened
  have hfault : (nest opened l).fault = none := by rw [hl, h]
  rw [nest_append hfault, hl]

theorem InsertedLevels.node (h : InsertedLevels place filler opened (f, groups) (g, groups'))
    (tag : Tag) (inside : Forest) : InsertedLevels place filler opened
      (.node tag inside f, groups) (.node tag inside g, groups') := by
  cases h with
  | first h => exact .first (.after h)
  | later h => exact .later h

/-- Elements that are all closed are put in where the tokens before them lead. -/
theorem levels_insert {n : List Token} (hl : (nest opened l).fault = none)
    (hn : (nest [] n).fault = none) (hclosed : (nest [] n).unclosed = []) (m : List Token) :
    InsertedLevels (nest opened l).unclosed.head? (levels n).1 opened
      (levels (l ++ m)) (levels (l ++ (n ++ m))) := by
  -- the tokens before the place are gone through, and at the place the innermost element is first
  induction l generalizing opened with
  | nil =>
    obtain ⟨hlength, hlevels⟩ := levels_append_of_closed hn hclosed m
    rw [List.length_nil, List.length_eq_zero_iff] at hlength
    rw [List.nil_append, List.nil_append, hlevels, hlength]
    exact .first (.here _)
  | cons token l ih =>
    cases token with
    | opening tag =>
      have hinside := @ih (tag.name :: opened) hl
      simp only [List.cons_append, levels, nest]
      generalize levels (l ++ m) = a, levels (l ++ (n ++ m)) = b at hinside
      cases hinside with
      | @first _ f g groups h =>
        cases groups with
        | nil => exact .first (.inside h)
        | cons after outer => exact .first (.inside h)
      | later h => exact h.node tag _
    | selfClosed tag => exact (@ih opened hl).node tag .nil
    | closing name =>
      cases opened with
      | nil => simp [nest] at hl
      | cons expected outer =>
        by_cases hname : name = expected
        · simp only [nest, if_pos hname] at hl ⊢
          simp only [List.cons_append, levels]
          exact .later (ih hl)
        · simp [nest, hname] at hl

/-- Outside all elements there is only one group. -/
theorem InsertedLevels.inserted {a b : Forest × List Forest}
    (h : InsertedLevels place filler [] a b) : Inserted place filler none a.1 b.1 := by
  cases h with
  | first h => exact h

end Nesting

/-- A document with elements put in has them there, and is open and at fault where it was. -/
theorem read_insert {before filler : String} (hbefore : (read before).fault = none)
    (hfiller : (read filler).fault = none) (hclosed : (read filler).unclosed = [])
    (after : String) :
    Inserted (read before).unclosed.head? (read filler).content none
        (read (before ++ after)).content (read (before ++ filler ++ after)).content ∧
      (read (before ++ filler ++ after)).unclosed = (read (before ++ after)).unclosed ∧
      (read (before ++ filler ++ after)).fault = (read (before ++ after)).fault := by
  rw [read_eq] at hbefore hfiller hclosed
  obtain ⟨hl, hscan⟩ := Option.or_eq_none_iff.mp hbefore
  obtain ⟨hn, hscanFiller⟩ := Option.or_eq_none_iff.mp hfiller
  simp only [read_eq, String.toList_append, List.append_assoc, scan_append hscan,
    scan_append hscanFiller]
  generalize (scan before.toList).1 = l at hl
  generalize (scan filler.toList).1 = n at hn hclosed
  generalize (scan after.toList).1 = m
  have hplain := nest_append hl m
  have hfilled : nest [] (l ++ (n ++ m)) = { nest (nest [] l).unclosed m with
      tokens := l ++ (n ++ (nest (nest [] l).unclosed m).tokens) } := by
    rw [nest_append hl, nest_append_of_closed hn hclosed]
  rw [hplain, hfilled, tokens_nest hn]
  exact ⟨(levels_insert hl hn hclosed _).inserted, rfl, rfl⟩

end Markup

namespace Reader

open Markup

section Filler

/-- The names of the elements that count inside an element of each kind. -/
def childNames : Option String → List String
  | some "type" => ["field", "property", "method", "constructor"]
  | some "property" => ["getter", "setter"]
  | some "method" | some "constructor" => ["param"]
  | _ => []

/-- Elements that are nothing to the reader: no types, and inside `place` no elements that count. -/
structure IsFiller (place : Option String) (filler : Forest) : Prop where
  untyped : ∀ e ∈ filler.elements, e.1.name ≠ "type" ∧ e.1.name ≠ "typeCatalog"
  aside : ∀ tag ∈ filler.tags, tag.name ∉ childNames place

variable {keys : KeyTable} {place parent : Option String} {filler f g : Forest}

theorem IsFiller.node {tag : Tag} {inside after : Forest}
    (h : IsFiller place (.node tag inside after)) :
    (tag.name ≠ "type" ∧ tag.name ≠ "typeCatalog") ∧ tag.name ∉ childNames place ∧
      IsFiller none inside ∧ IsFiller place after := by
  obtain ⟨huntyped, haside⟩ := h
  simp only [Forest.elements, List.forall_mem_cons, List.forall_mem_append] at huntyped
  simp only [Forest.tags, List.forall_mem_cons] at haside
  have hinside : IsFiller none inside := ⟨huntyped.2.1, fun _ _ => List.not_mem_nil⟩
  exact ⟨huntyped.1, haside.1, hinside, huntyped.2.2, haside.2⟩

theorem declaredKeys_filler (h : IsFiller place filler) (parent : Option String) (f : Forest) :
    declaredKeys parent (filler.append f) = declaredKeys parent f := by
  induction filler generalizing place parent f with
  | nil => rfl
  | node tag inside after ihi iha =>
    obtain ⟨⟨htype, -⟩, -, hinside, hafter⟩ := h.node
    have hnone : declaredKeys (some tag.name) inside = .ok [] := by
      rw [← inside.append_nil, ihi hinside]
      rfl
    simp only [Forest.append, declaredKeys, declaredKey, if_neg htype, hnone, iha hafter]
    cases declaredKeys parent f <;> rfl

theorem accessors_filler (h : IsFiller (some "property") filler) (p : Property) (f : Forest) :
    accessors p (filler.append f) = accessors p f := by
  induction filler with
  | nil => rfl
  | node tag inside after _ iha =>
    obtain ⟨-, hname, -, hafter⟩ := h.node
    simp only [childNames, List.mem_cons, List.not_mem_nil, or_false, not_or] at hname
    rw [Forest.append, accessors, addAccessor]
    split
    · exact absurd ‹_› hname.1
    · exact absurd ‹_› hname.2
    · exact iha hafter

/-- Methods and constructors have the same children. -/
theorem parameters_filler (hplace : "param" ∈ childNames place) (h : IsFiller place filler)
    (owner : String) (f : Forest) :
    parameters keys owner (filler.append f) = parameters keys owner f := by
  induction filler with
  | nil => rfl
  | node tag inside after _ iha =>
    obtain ⟨-, hname, -, hafter⟩ := h.node
    have hparam : tag.name ≠ "param" := by
      rintro heq
      exact hname (heq ▸ hplace)
    simp only [Forest.append, parameters, if_neg hparam, pure_bind, iha hafter]
    cases parameters keys owner f <;> rfl

theorem members_filler (h : IsFiller (some "type") filler) (key : String) (t : TypeInfo)
    (f : Forest) : members keys key t (filler.append f) = members keys key t f := by
  induction filler with
  | nil => rfl
  | node tag inside after _ iha =>
    obtain ⟨⟨htype, -⟩, hname, -, hafter⟩ := h.node
    simp only [childNames, List.mem_cons, List.not_mem_nil, or_false, not_or] at hname
    obtain ⟨hfield, hproperty, hmethod, hconstructor⟩ := hname
    have hmember : member keys key t tag inside = .ok t := by
      unfold member
      split
      all_goals first | contradiction | rfl
    rw [Forest.append, members, hmember, ok_bind, iha hafter]

theorem catalogFrom_filler (h : IsFiller place filler) (catalog : Option Catalog) (f : Forest) :
    catalogFrom keys catalog (filler.append f) = catalogFrom keys catalog f := by
  induction filler generalizing place f with
  | nil => rfl
  | node tag inside after ihi iha =>
    obtain ⟨⟨htype, hcatalog⟩, -, hinside, hafter⟩ := h.node
    have hnone : catalogFrom keys catalog inside = .ok catalog := by
      rw [← inside.append_nil, ihi hinside]
      rfl
    simp only [Forest.append, catalogFrom, if_neg hcatalog, if_neg htype, hnone, ok_bind,
      iha hafter]

end Filler

section Inserted

variable {keys : KeyTable} {place parent : Option String} {filler f g : Forest}

theorem declaredKeys_inserted (hf : IsFiller place filler) (h : Inserted place filler parent f g)
    (p : Option String) : declaredKeys p g = declaredKeys p f := by
  induction h generalizing p with
  | here f => exact declaredKeys_filler hf p f
  | after _ ih => simp only [declaredKeys, ih]
  | inside _ ih => simp only [declaredKeys, ih]

theorem accessors_inserted (hf : IsFiller place filler)
    (h : Inserted place filler (some "property") f g) (p : Property) :
    accessors p g = accessors p f := by
  generalize hparent : some "property" = parent at h
  induction h generalizing p with
  | here f => exact accessors_filler (hparent ▸ hf) p f
  | after _ ih => simp only [accessors, fun p => ih p hparent]
  | inside _ _ => simp only [accessors]

theorem parameters_inserted (hf : IsFiller place filler) (hparent : "param" ∈ childNames parent)
    (h : Inserted place filler parent f g) (owner : String) :
    parameters keys owner g = parameters keys owner f := by
  induction h with
  | here f => exact parameters_filler hparent hf owner f
  | after _ ih => simp only [parameters, ih hparent]
  | inside _ _ => simp only [parameters]

/-- What is inside a member is read for properties, methods and constructors only. -/
theorem member_inserted {tag : Tag} (hf : IsFiller place filler)
    (h : Inserted place filler (some tag.name) f g) (key : String) (t : TypeInfo) :
    member keys key t tag g = member keys key t tag f := by
  unfold member
  split
  · rfl
  · rename_i hname
    simp only [accessors_inserted hf (hname ▸ h)]
  · rename_i hname
    simp only [parameters_inserted hf (by simp [hname, childNames]) h]
  · rename_i hname
    simp only [parameters_inserted hf (by simp [hname, childNames]) h]
  · rfl
  · rfl

theorem members_inserted (hf : IsFiller place filler)
    (h : Inserted place filler (some "type") f g) (key : String) (t : TypeInfo) :
    members keys key t g = members keys key t f := by
  generalize hparent : some "type" = parent at h
  induction h generalizing t with
  | here f => exact members_filler (hparent ▸ hf) key t f
  | after _ ih => simp only [members, fun t => ih t hparent]
  | @inside parent tag f g after h _ =>
    rw [members, members, member_inserted hf h]

theorem catalogFrom_inserted (hf : IsFiller place filler) (h : Inserted place filler parent f g)
    (catalog : Option Catalog) : catalogFrom keys catalog g = catalogFrom keys catalog f := by
  induction h generalizing catalog with
  | here f => exact catalogFrom_filler hf catalog f
  | after _ ih => simp only [catalogFrom, ih]
  | @inside parent tag f g after h ih =>
    have htype (hname : tag.name = "type") : typeEntry keys tag g = typeEntry keys tag f := by
      simp only [typeEntry, members_inserted hf (hname ▸ h)]
    by_cases hname : tag.name = "type"
    · simp only [catalogFrom, ih, htype hname]
    · simp only [catalogFrom, ih, if_neg hname]

theorem ofReading_inserted {r r' : Reading} (hf : IsFiller place filler)
    (h : Inserted place filler none r.content r'.content) (hfault : r'.fault = r.fault) :
    Catalog.ofReading r' = Catalog.ofReading r := by
  simp only [Catalog.ofReading, hfault, declaredKeys_inserted hf h, catalogFrom_inserted hf h]

end Inserted

end Reader

namespace Catalog

open Markup Reader

/--
Elements that are closed and are nothing to the reader where they are put are read with the others,
and make no difference to the catalog of a document, whatever comes after them. They may stand
inside any element that is open at the place, or inside none; any other names may occur within them.
-/
theorem parse_insert {before filler : String} (hbefore : (read before).fault = none)
    (hfiller : (read filler).fault = none) (hclosed : (read filler).unclosed = [])
    (hskip : IsFiller (read before).unclosed.head? (read filler).content) (after : String) :
    Inserted (read before).unclosed.head? (read filler).content none
        (read (before ++ after)).content (read (before ++ filler ++ after)).content ∧
      parse (before ++ filler ++ after) = parse (before ++ after) := by
  obtain ⟨hinserted, -, hfault⟩ := read_insert hbefore hfiller hclosed after
  refine ⟨hinserted, ?_⟩
  calc parse (before ++ filler ++ after)
      = ofReading (read (before ++ filler ++ after)) := parse_eq _
    _ = ofReading (read (before ++ after)) := ofReading_inserted hskip hinserted hfault
    _ = parse (before ++ after) := (parse_eq _).symm

/-- A type with a field, up to there. -/
def barnBefore : String :=
  "<typeCatalog><type name=\x22Barn\x22><field name=\x22gate\x22 type=\x22Barn\x22/>"

/-- Elements that are known further in only, and one that is known inside methods only. -/
def barnFiller : String :=
  "<note><field name=\x22hay\x22/>hay &amp; straw<method><getter></getter></method></note>" ++
    "<!-- </type> --><param/>"

def barnAfter : String :=
  "<method name=\x22open\x22/></type></typeCatalog>"

def barn : Catalog where
  entries := #[⟨"Barn", {
    name := "Barn", fields := [{ name := "gate", type := ⟨0⟩ }],
    methods := [{ name := "open" }] }⟩]

theorem parse_insert_barn : (read barnBefore).unclosed = ["type", "typeCatalog"] ∧
    (read (barnBefore ++ barnAfter)).unclosed = [] ∧
    parse (barnBefore ++ barnAfter) = .ok barn ∧
    parse (barnBefore ++ barnFiller ++ barnAfter) = .ok barn := by
  have hparse : parse (barnBefore ++ barnAfter) = .ok barn := by decide +kernel
  have hunclosed : (read barnBefore).unclosed = ["type", "typeCatalog"] := by decide +kernel
  have hbefore : (read barnBefore).fault = none := by decide +kernel
  have hfiller : (read barnFiller).fault = none := by decide +kernel
  have hclosed : (read barnFiller).unclosed = [] := by decide +kernel
  have hskip : IsFiller (read barnBefore).unclosed.head? (read barnFiller).content := by
    rw [hunclosed]
    exact ⟨by decide +kernel, by decide +kernel⟩
  obtain ⟨-, hinsert⟩ := parse_insert hbefore hfiller hclosed hskip barnAfter
  exact ⟨hunclosed, by decide +kernel, hparse, hinsert.trans hparse⟩

end Catalog

end TypeDocs
