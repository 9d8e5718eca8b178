import TypeDocs.Proofs.Extending
import TypeDocs.Proofs.Reading

namespace TypeDocs

namespace Markup

/--
An attribute as it stands in a tag: the blanks before it, its name, the blanks on both sides of its
equals sign, and the quotes around its value.
-/
structure AttributeSpelling where
  indent : List Char
  name : String
  left : List Char
  right : List Char
  quote : Char
  value : List Char
deriving DecidableEq, Repr

namespace AttributeSpelling

def write (a : AttributeSpelling) : List Char :=
  a.indent ++ (a.name.toList ++
    (a.left ++ (['='] ++ (a.right ++ a.quote :: (a.value ++ [a.quote])))))

/-- What the grammar asks of an attribute. -/
def IsWellFormed (a : AttributeSpelling) : Prop :=
  a.indent ≠ [] ∧ (a.indent ++ a.left ++ a.right).all isBlank = true ∧ IsName a.name ∧
    isQuote a.quote = true ∧ a.quote ∉ a.value

instance (a : AttributeSpelling) : Decidable a.IsWellFormed :=
  inferInstanceAs (Decidable (_ ∧ _))

end AttributeSpelling

/-- An element without content. -/
structure EmptyElement where
  name : String
  attributes : List AttributeSpelling
  /-- The blanks before the end of the tag. -/
  trail : List Char
deriving DecidableEq, Repr

namespace EmptyElement

def tag (e : EmptyElement) : Tag :=
  ⟨e.name, e.attributes.flatMap AttributeSpelling.write ++ e.trail⟩

/-- As one tag. -/
def short (e : EmptyElement) : List Char :=
  '<' :: (e.tag.text ++ "/>".toList)

/-- As a pair of tags. -/
def long (e : EmptyElement) : List Char :=
  '<' :: (e.tag.text ++ '>' :: '<' :: '/' :: (e.name.toList ++ ['>']))

def IsWellFormed (e : EmptyElement) : Prop :=
  IsName e.name ∧ (∀ a ∈ e.attributes, a.IsWellFormed) ∧ e.trail.all isBlank = true

instance (e : EmptyElement) : Decidable e.IsWellFormed :=
  inferInstanceAs (Decidable (_ ∧ _))

end EmptyElement

/-- A piece of a document: an empty element, or any text between two of these. -/
inductive Piece where
  | between (text : List Char)
  | element (element : EmptyElement)
deriving DecidableEq, Repr

namespace Piece

def short : Piece → List Char
  | between text => text
  | element e => e.short

def long : Piece → List Char
  | between text => text
  | element e => e.long

/-- The elements are well-formed, and the texts between them end where a construct may begin. -/
def IsSound : Piece → Prop
  | between text => (scan text).2 = none
  | element e => e.IsWellFormed

instance : DecidablePred IsSound
  | between text => inferInstanceAs (Decidable ((scan text).2 = none))
  | element e => inferInstanceAs (Decidable e.IsWellFormed)

end Piece

section Tags

theorem crosses_of_all_isBlank {s : List Char} (h : s.all isBlank = true) : Crosses s := by
  apply crosses_of_forall
  intro c hc
  have hblank := List.all_eq_true.mp h c hc
  simp only [isBlank, Bool.or_eq_true, beq_iff_eq] at hblank
  rcases hblank with ((rfl | rfl) | rfl) | rfl <;> decide

namespace AttributeSpelling

variable {a : AttributeSpelling}

theorem IsWellFormed.crosses (h : a.IsWellFormed) : Crosses a.write := by
  obtain ⟨-, hblanks, hname, hquote, hvalue⟩ := h
  simp only [List.all_append, Bool.and_eq_true] at hblanks
  obtain ⟨⟨hindent, hleft⟩, hright⟩ := hblanks
  have hsign : Crosses ['='] := crosses_singleton (by decide) (by decide)
  have hright := (crosses_of_all_isBlank hright).append (crosses_quoted hquote hvalue)
  have hleft := (crosses_of_all_isBlank hleft).append (hsign.append hright)
  exact (crosses_of_all_isBlank hindent).append (hname.crosses.append hleft)

theorem IsWellFormed.head (h : a.IsWellFormed) : ∃ c s, a.write = c :: s ∧ isBlank c = true := by
  obtain ⟨hne, hblanks, -⟩ := h
  obtain ⟨c, s, hindent⟩ := List.exists_cons_of_ne_nil hne
  have hblank : isBlank c = true := List.all_eq_true.mp hblanks c (by simp [hindent])
  exact ⟨c, _, by rw [write, hindent, List.cons_append], hblank⟩

theorem getLast?_write (a : AttributeSpelling) : a.write.getLast? = some a.quote := by
  simp [write, List.getLast?_cons]

end AttributeSpelling

namespace EmptyElement

variable {e : EmptyElement}

/-- Attributes are told apart from the name before them and from the slash after them. -/
theorem IsWellFormed.isDelimited (h : e.IsWellFormed) : e.tag.IsDelimited := by
  obtain ⟨hname, hattributes, htrail⟩ := h
  have hbody : e.tag.body = e.attributes.flatMap AttributeSpelling.write ++ e.trail := rfl
  refine ⟨hname, ?_, ?_, ?_⟩
  · have hcross : ∀ a ∈ e.attributes, Crosses a.write := fun a ha => (hattributes a ha).crosses
    exact (crosses_flatMap hcross).append (crosses_of_all_isBlank htrail)
  · rw [hbody]
    intro c hc
    cases has : e.attributes with
    | nil =>
      rw [has, List.flatMap_nil, List.nil_append] at hc
      exact List.all_eq_true.mp htrail c (List.mem_of_head? hc)
    | cons a as =>
      obtain ⟨d, s, hd, hblank⟩ := (hattributes a (by simp [has])).head
      rw [has, List.flatMap_cons, hd] at hc
      obtain rfl : d = c := by simpa using hc
      exact hblank
  · rw [hbody]
    rintro c hc rfl
    rw [Option.mem_def, List.getLast?_append, Option.or_eq_some_iff] at hc
    rcases hc with hc | ⟨-, hc⟩
    · have hblank := List.all_eq_true.mp htrail '/' (List.mem_of_getLast? hc)
      exact absurd hblank (by decide)
    · obtain hnil | ⟨as, a, has⟩ := List.eq_nil_or_concat e.attributes
      · simp [hnil] at hc
      · rw [has, List.concat_eq_append, List.flatMap_append, List.flatMap_singleton,
          List.getLast?_append, AttributeSpelling.getLast?_write, Option.some_or,
          Option.some.injEq] at hc
        obtain ⟨-, -, -, hquote, -⟩ := hattributes a (by simp [has])
        exact absurd hquote (by rw [hc]; decide)

theorem scan_short (h : e.IsWellFormed) (rest : List Char) :
    scan (e.short ++ rest) = (.selfClosed e.tag :: (scan rest).1, (scan rest).2) := by
  have hslash : Crosses ['/'] := crosses_singleton (by decide) (by decide)
  have hmarkup := scan_markup (h.isDelimited.readMarkup hslash rest)
  rw [h.isDelimited.selfClosedToken] at hmarkup
  have htext : e.short ++ rest = '<' :: (e.tag.text ++ ['/'] ++ '>' :: rest) := by
    simp [short]
  rw [htext, hmarkup]
  rfl

theorem scan_long (h : e.IsWellFormed) (rest : List Char) : scan (e.long ++ rest) =
    (.opening e.tag :: .closing e.name :: (scan rest).1, (scan rest).2) := by
  have hclosing := scan_markup (h.isDelimited.name.readMarkup_closing rest)
  have hopening := scan_markup
    (h.isDelimited.readMarkup crosses_nil ('<' :: '/' :: (e.name.toList ++ '>' :: rest)))
  rw [List.append_nil, h.isDelimited.openingToken] at hopening
  have htext : e.long ++ rest =
      '<' :: (e.tag.text ++ '>' :: '<' :: '/' :: (e.name.toList ++ '>' :: rest)) := by
    simp [long]
  rw [htext, hopening]
  have hname : e.name = e.tag.name := rfl
  rw [hname, hclosing]
  rfl

end EmptyElement

end Tags

/-- Tokens some of which close themselves, and the same ones with pairs in the place of these. -/
inductive Paired : List Token → List Token → Prop
  | nil : Paired [] []
  | same {l m : List Token} (token : Token) : Paired l m → Paired (token :: l) (token :: m)
  | pair {l m : List Token} (tag : Tag) : Paired l m →
    Paired (.selfClosed tag :: l) (.opening tag :: .closing tag.name :: m)

namespace Paired

variable {l m : List Token}

theorem refl (l : List Token) : Paired l l := by
  induction l with
  | nil => exact .nil
  | cons token l ih => exact .same token ih

theorem append_left (h : Paired l m) (before : List Token) :
    Paired (before ++ l) (before ++ m) := by
  induction before with
  | nil => exact h
  | cons token before ih => exact .same token ih

/-- The elements are the same: nothing is inside a pair, and what follows it is as before. -/
theorem levels_eq (h : Paired l m) : levels l = levels m := by
  induction h with
  | nil => rfl
  | same token _ ih => cases token <;> simp only [levels, ih]
  | pair tag _ ih => simp only [levels, ih]

/-- Closings fit the same elements, so both are followed equally far. -/
theorem nest_paired (h : Paired l m) (opened : List String) :
    Paired (nest opened l).tokens (nest opened m).tokens ∧
      (nest opened l).unclosed = (nest opened m).unclosed ∧
      (nest opened l).fault = (nest opened m).fault := by
  induction h generalizing opened with
  | nil => exact ⟨.nil, rfl, rfl⟩
  | same token _ ih =>
    cases token with
    | opening tag =>
      obtain ⟨htokens, hrest⟩ := ih (tag.name :: opened)
      exact ⟨.same _ htokens, hrest⟩
    | selfClosed tag =>
      obtain ⟨htokens, hrest⟩ := ih opened
      exact ⟨.same _ htokens, hrest⟩
    | closing name =>
      cases opened with
      | nil => exact ⟨.nil, rfl, rfl⟩
      | cons expected outer =>
        by_cases hname : name = expected
        · obtain ⟨htokens, hrest⟩ := ih outer
          simp only [nest, if_pos hname]
          exact ⟨.same _ htokens, hrest⟩
        · simp only [nest, if_neg hname, and_true]
          exact .nil
  | pair tag _ ih =>
    obtain ⟨htokens, hrest⟩ := ih opened
    simp only [nest, if_pos]
    exact ⟨.pair tag htokens, hrest⟩

end Paired

/-- Pieces in either spelling have the same tokens but for pairs, and then the same fault if any. -/
theorem scan_pieces {pieces : List Piece} (h : ∀ p ∈ pieces, p.IsSound) (rest : List Char) :
    Paired (scan (pieces.flatMap Piece.short ++ rest)).1
        (scan (pieces.flatMap Piece.long ++ rest)).1 ∧
      (scan (pieces.flatMap Piece.short ++ rest)).2 =
        (scan (pieces.flatMap Piece.long ++ rest)).2 := by
  induction pieces with
  | nil => exact ⟨.refl _, rfl⟩
  | cons piece pieces ih =>
    rw [List.forall_mem_cons] at h
    obtain ⟨hpaired, hfault⟩ := ih h.2
    rw [List.flatMap_cons, List.flatMap_cons, List.append_assoc, List.append_assoc]
    cases piece with
    | between text =>
      rw [Piece.short, Piece.long, scan_append h.1, scan_append h.1]
      exact ⟨hpaired.append_left _, hfault⟩
    | element e =>
      rw [Piece.short, Piece.long, EmptyElement.scan_short h.1, EmptyElement.scan_long h.1]
      exact ⟨.pair e.tag hpaired, hfault⟩

/-- The document with each element of the pieces as one tag. -/
def shortText (pieces : List Piece) (rest : List Char) : String :=
  String.ofList (pieces.flatMap Piece.short ++ rest)

/-- The document with each element of the pieces as a pair of tags. -/
def longText (pieces : List Piece) (rest : List Char) : String :=
  String.ofList (pieces.flatMap Piece.long ++ rest)

/-- In either document each element of the pieces is a tag of its own, with its attributes. -/
theorem mem_tokens {pieces : List Piece} (h : ∀ p ∈ pieces, p.IsSound) {e : EmptyElement}
    (he : .element e ∈ pieces) (rest : List Char) :
    .selfClosed e.tag ∈ tokens (shortText pieces rest) ∧
      .opening e.tag ∈ tokens (longText pieces rest) := by
  simp only [tokens, scan_withoutMark, shortText, longText, String.toList_ofList]
  induction pieces with
  | nil => simp at he
  | cons piece pieces ih =>
    rw [List.forall_mem_cons] at h
    rw [List.flatMap_cons, List.flatMap_cons, List.append_assoc, List.append_assoc]
    cases piece with
    | between text =>
      have hlater : .element e ∈ pieces := by simpa using he
      obtain ⟨hshort, hlong⟩ := ih h.2 hlater
      rw [Piece.short, Piece.long, scan_append h.1, scan_append h.1]
      exact ⟨List.mem_append_right _ hshort, List.mem_append_right _ hlong⟩
    | element first =>
      rw [Piece.short, Piece.long, EmptyElement.scan_short h.1, EmptyElement.scan_long h.1]
      rcases List.mem_cons.mp he with hfirst | hlater
      · obtain rfl : e = first := Piece.element.inj hfirst
        exact ⟨List.mem_cons_self, List.mem_cons_self⟩
      · obtain ⟨hshort, hlong⟩ := ih h.2 hlater
        exact ⟨List.mem_cons_of_mem _ hshort,
          List.mem_cons_of_mem _ (List.mem_cons_of_mem _ hlong)⟩

/-- Both are read the same, faults and elements left open included. -/
theorem read_respelled {pieces : List Piece} (h : ∀ p ∈ pieces, p.IsSound) (rest : List Char) :
    read (shortText pieces rest) = read (longText pieces rest) := by
  obtain ⟨hpaired, hscan⟩ := scan_pieces h rest
  obtain ⟨htokens, hunclosed, hfault⟩ := hpaired.nest_paired []
  have hcontent := congrArg Prod.fst htokens.levels_eq
  simp only [read_eq, shortText, longText, String.toList_ofList, Forest.ofTokens, hcontent,
    hunclosed, hfault, hscan]

end Markup

namespace Catalog

open Markup

/--
A document is accepted or not, and with the same catalog or error, whether its empty elements close
themselves or are written as pairs: any of them, whatever their names, wherever they stand and
whatever follows.
-/
theorem parse_respelled {pieces : List Piece} (h : ∀ p ∈ pieces, p.IsSound) (rest : List Char) :
    (∀ e, .element e ∈ pieces → .selfClosed e.tag ∈ tokens (shortText pieces rest) ∧
        .opening e.tag ∈ tokens (longText pieces rest)) ∧
      parse (shortText pieces rest) = parse (longText pieces rest) := by
  refine ⟨fun _ he => mem_tokens h he rest, ?_⟩
  calc parse (shortText pieces rest)
      = ofReading (read (shortText pieces rest)) := parse_eq _
    _ = ofReading (read (longText pieces rest)) := by rw [read_respelled h rest]
    _ = parse (longText pieces rest) := (parse_eq _).symm

/-- Elements of every place and one of no meaning, with attributes in either quotes. -/
def yardPieces : List Piece :=
  [.between "<typeCatalog><type name=\x22Hen\x22/>".toList,
    .element ⟨"type", [⟨[' '], "name", [], [], '\x22', "Egg".toList⟩], []⟩,
    .between "<type name=\x22Yard\x22>".toList,
    .element ⟨"field", [⟨[' '], "name", [], [], '\x22', "hen".toList⟩,
      ⟨['\n', ' '], "type", [' '], [' '], '\x27', "Hen".toList⟩], [' ']⟩,
    .element ⟨"note", [], []⟩,
    .between "<method name=\x22feed\x22>".toList,
    .element ⟨"param", [⟨[' '], "name", [], [], '\x22', "hen".toList⟩,
      ⟨[' '], "type", [], [], '\x22', "Hen".toList⟩], []⟩]

def yardRest : List Char :=
  "</method></type></typeCatalog>".toList

def yard : Catalog where
  entries := #[⟨"Hen", { name := "Hen" }⟩, ⟨"Egg", { name := "Egg" }⟩,
    ⟨"Yard", {
      name := "Yard", fields := [{ name := "hen", type := ⟨0⟩ }],
      methods := [{ name := "feed", parameters := [{ name := "hen", type := ⟨0⟩ }] }] }⟩]

theorem parse_respelled_yard : parse (shortText yardPieces yardRest) = .ok yard ∧
    parse (longText yardPieces yardRest) = .ok yard := by
  have hsound : ∀ p ∈ yardPieces, p.IsSound := by decide +kernel
  have hshort : parse (shortText yardPieces yardRest) = .ok yard := by decide +kernel
  obtain ⟨-, hlong⟩ := parse_respelled hsound yardRest
  exact ⟨hshort, hlong ▸ hshort⟩

end Catalog

end TypeDocs
