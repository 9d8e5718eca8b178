import TypeDocs.Proofs.Elements
import TypeDocs.Proofs.Escaping

/-!
Elements as text, each on a line of its own. A tag ends at the first `>` outside quotes, closings
fit the elements that they close, and so the elements that are read are those that were written.
-/

namespace TypeDocs.Markup

/-- A tag whose name and attributes are named by words. -/
def Tag.IsPlain (t : Tag) : Prop :=
  ∃ name l, IsWord name ∧ AreNames (l.map Prod.fst) ∧ t = element name l

/-- What stands between the brackets of a tag. -/
def Tag.text (t : Tag) : List Char :=
  t.name.toList ++ t.body

namespace Forest

def IsPlain (f : Forest) : Prop :=
  ∀ e ∈ f.elements, e.1.IsPlain

def indentation (depth : Nat) : List Char :=
  List.replicate (2 * depth) ' '

/-- Elements without content are closed at once. -/
def write (depth : Nat) : Forest → List Char
  | .nil => []
  | .node tag inside after =>
    indentation depth ++ '<' :: tag.text ++
      (if inside = .nil then "/>\n".toList
      else ">\n".toList ++ inside.write (depth + 1) ++ indentation depth ++ "</".toList ++
        tag.name.toList ++ ">\n".toList) ++
      after.write depth

def tokens : Forest → List Token
  | .nil => []
  | .node tag inside after =>
    (if inside = .nil then [.selfClosed tag]
      else .opening tag :: (inside.tokens ++ [.closing tag.name])) ++ after.tokens

theorem isPlain_node {tag : Tag} {inside after : Forest} :
    (node tag inside after).IsPlain ↔ tag.IsPlain ∧ inside.IsPlain ∧ after.IsPlain := by
  simp only [IsPlain, elements, List.forall_mem_cons, List.forall_mem_append]

end Forest

section Tags

/-- In such a text every `>` is between quotes that end inside it. -/
def Crosses (s : List Char) : Prop :=
  ∀ rest, cutTag none (s ++ rest) =
    (cutTag none rest).map fun (before, after) => (s ++ before, after)

theorem crosses_nil : Crosses [] := by
  intro rest
  rw [List.nil_append]
  cases cutTag none rest <;> rfl

theorem Crosses.append {s t : List Char} (hs : Crosses s) (ht : Crosses t) :
    Crosses (s ++ t) := by
  intro rest
  rw [List.append_assoc, hs, ht]
  cases cutTag none rest with
  | error quote => rfl
  | ok r => simp [Except.map]

theorem crosses_singleton {c : Char} (hquote : isQuote c = false) (hend : c ≠ '>') :
    Crosses [c] := by
  intro rest
  rw [List.singleton_append, cutTag, if_neg (by simp [hend])]
  simp [quoteAfter, hquote]

theorem crosses_of_forall {s : List Char} (h : ∀ c ∈ s, isQuote c = false ∧ c ≠ '>') :
    Crosses s := by
  induction s with
  | nil => exact crosses_nil
  | cons c s ih =>
    rw [List.forall_mem_cons] at h
    have hc : Crosses [c] := crosses_singleton h.1.1 h.1.2
    exact hc.append (ih h.2)

theorem crosses_flatMap {α : Type} {f : α → List Char} {l : List α} (h : ∀ a ∈ l, Crosses (f a)) :
    Crosses (l.flatMap f) := by
  induction l with
  | nil => exact crosses_nil
  | cons a l ih =>
    rw [List.forall_mem_cons] at h
    rw [List.flatMap_cons]
    exact h.1.append (ih h.2)

theorem crosses_of_isAlpha {s : List Char} (h : ∀ c ∈ s, c.isAlpha = true) : Crosses s := by
  apply crosses_of_forall
  intro c hc
  exact ⟨by simp [isQuote, ne_of_isAlpha (h c hc)], ne_of_isAlpha (h c hc) (by decide)⟩

theorem crosses_quoted {quote : Char} (hquote : isQuote quote = true) {s : List Char}
    (h : quote ∉ s) : Crosses (quote :: (s ++ [quote])) := by
  have hinside (rest : List Char) : cutTag (some quote) (s ++ quote :: rest) =
      (cutTag none rest).map fun (before, after) => (s ++ quote :: before, after) := by
    induction s with
    | nil => simp [cutTag, quoteAfter]
    | cons c s ih =>
      obtain ⟨hc, hs⟩ := not_or.mp (fun hmem => h (List.mem_cons.mpr hmem))
      rw [List.cons_append, cutTag, if_neg (by simp)]
      simp only [quoteAfter, if_neg (Ne.symm hc), ih hs]
      cases cutTag none rest <;> rfl
  have hend : quote ≠ '>' := by
    rintro rfl
    exact absurd hquote (by decide)
  intro rest
  rw [List.cons_append, List.append_assoc, List.singleton_append, cutTag, if_neg (by simp [hend])]
  simp only [quoteAfter, hquote, if_pos, hinside]
  cases cutTag none rest with
  | error quote => rfl
  | ok r => simp [Except.map]

theorem crosses_write {a : Attribute} (h : IsWord a.name) : Crosses a.write := by
  have hwrite : a.write =
      [' '] ++ (a.name.toList ++ (['='] ++ '\x22' :: (a.escaped.value ++ ['\x22']))) := by
    simp [Attribute.write]
  rw [hwrite]
  have hquoted := crosses_quoted (by decide) (quote_notMem_escape a.value.toList)
  have hequals : Crosses ['='] := crosses_singleton (by decide) (by decide)
  have hblank : Crosses [' '] := crosses_singleton (by decide) (by decide)
  exact hblank.append ((crosses_of_isAlpha h.isAlpha).append (hequals.append hquoted))

variable {t : Tag}

theorem Tag.IsPlain.word (h : t.IsPlain) : IsWord t.name := by
  obtain ⟨name, l, hname, -, rfl⟩ := h
  exact hname

/-- The text of the attributes is crossed too, begins with a blank and ends with a quote. -/
theorem Tag.IsPlain.body (h : t.IsPlain) :
    Crosses t.body ∧ (t.body = [] ∨ ∃ s, t.body = ' ' :: (s ++ ['\x22'])) := by
  obtain ⟨name, l, -, ⟨-, hwords⟩, rfl⟩ := h
  have hnames : ∀ a ∈ present l, IsWord a.name := fun a ha =>
    hwords a.name ((names_present l).subset (List.mem_map_of_mem ha))
  have hbody : (element name l).body = (present l).flatMap Attribute.write := rfl
  rw [hbody]
  generalize present l = as at hnames
  induction as with
  | nil => exact ⟨crosses_nil, .inl rfl⟩
  | cons a as ih =>
    rw [List.forall_mem_cons] at hnames
    obtain ⟨hcross, hends⟩ := ih hnames.2
    rw [List.flatMap_cons]
    refine ⟨(crosses_write hnames.1).append hcross, .inr ?_⟩
    rcases hends with hnil | ⟨s, hs⟩
    · exact ⟨a.name.toList ++ '=' :: '\x22' :: a.escaped.value, by simp [hnil, Attribute.write]⟩
    · exact ⟨a.name.toList ++ '=' :: '\x22' :: (a.escaped.value ++ '\x22' :: ' ' :: s),
        by simp [hs, Attribute.write]⟩

/-- What ends a name, or makes another construct of its tag, is not in the name. -/
def IsName (name : String) : Prop :=
  name ≠ "" ∧ ∀ c ∈ name.toList, isBlank c = false ∧ isQuote c = false ∧ c ∉ ['>', '/', '!', '?']

instance (name : String) : Decidable (IsName name) :=
  @instDecidableAnd _ _ _ (List.decidableBAll _ name.toList)

theorem IsWord.isName {name : String} (h : IsWord name) : IsName name := by
  refine ⟨h.1, fun c hc => ?_⟩
  have halpha := h.isAlpha c hc
  exact ⟨isBlank_of_isAlpha halpha, by simp [isQuote, ne_of_isAlpha halpha],
    by simp [ne_of_isAlpha halpha]⟩

theorem IsName.crosses {name : String} (h : IsName name) : Crosses name.toList := by
  apply crosses_of_forall
  intro c hc
  obtain ⟨-, hquote, hother⟩ := h.2 c hc
  exact ⟨hquote, fun hend => hother (by simp [hend])⟩

/-- A tag whose name, attributes and end are told apart when it is written. -/
structure Tag.IsDelimited (t : Tag) : Prop where
  name : IsName t.name
  body : Crosses t.body
  blank : ∀ c ∈ t.body.head?, isBlank c = true
  last : ∀ c ∈ t.body.getLast?, c ≠ '/'

theorem Tag.IsPlain.isDelimited (h : t.IsPlain) : t.IsDelimited where
  name := h.word.isName
  body := h.body.1
  blank := by rcases h.body.2 with hb | ⟨s, hb⟩ <;> simp [hb, isBlank]
  last := by
    rcases h.body.2 with hb | ⟨s, hb⟩
    · simp [hb]
    · simp [hb, List.getLast?_cons]

theorem Tag.IsDelimited.crosses (h : t.IsDelimited) : Crosses t.text :=
  h.name.crosses.append h.body

/-- The name reaches to the first blank. -/
theorem Tag.IsDelimited.ofText (h : t.IsDelimited) : Tag.ofText t.text = t := by
  have hname : ∀ c ∈ t.name.toList, (!isBlank c) = true := fun c hc => by
    rw [(h.name.2 c hc).1, Bool.not_false]
  have hbody : t.body.takeWhile (!isBlank ·) = [] ∧ t.body.dropWhile (!isBlank ·) = t.body := by
    cases hb : t.body with
    | nil => exact ⟨rfl, rfl⟩
    | cons c s => simp [h.blank c (by simp [hb])]
  rw [Tag.ofText, Tag.text, List.takeWhile_append_of_pos hname, List.dropWhile_append_of_pos hname,
    hbody.1, hbody.2, List.append_nil, String.ofList_toList]

/-- Such a tag does not look as if it were closed at once. -/
theorem Tag.IsDelimited.openingToken (h : t.IsDelimited) : openingToken t.text = .opening t := by
  have hlast : t.text.getLast? ≠ some '/' := by
    rw [Tag.text, List.getLast?_append]
    cases hb : t.body.getLast? with
    | some c => simpa using h.last c hb
    | none =>
      rw [Option.none_or]
      intro hslash
      exact (h.name.2 '/' (List.mem_of_getLast? hslash)).2.2 (by decide)
  rw [Markup.openingToken, if_neg hlast, h.ofText]

theorem Tag.IsDelimited.selfClosedToken (h : t.IsDelimited) :
    Markup.openingToken (t.text ++ ['/']) = .selfClosed t := by
  rw [Markup.openingToken, if_pos (by simp), List.dropLast_concat, h.ofText]

/-- Up to the end of a text that is crossed. -/
theorem cutTag_append {s : List Char} (h : Crosses s) (rest : List Char) :
    cutTag none (s ++ '>' :: rest) = .ok (s, rest) := by
  rw [h, cutTag, if_pos ⟨rfl, rfl⟩]
  simp [Except.map]

/-- What begins with another character than these is a tag that opens an element. -/
theorem readMarkup_of_notMem {c : Char} (hc : c ∉ ['!', '?', '/']) {s text rest : List Char}
    (hcut : cutTag none (c :: s) = .ok (text, rest)) :
    readMarkup (c :: s) = .ok (some (openingToken text), rest) := by
  rw [readMarkup, hcut]
  · simp
  all_goals
    rintro r hr
    obtain ⟨rfl, -⟩ := List.cons.inj hr
    exact hc (by decide)

/-- So such a tag is, whatever stands between it and its end. -/
theorem Tag.IsDelimited.readMarkup (h : t.IsDelimited) {s : List Char} (hs : Crosses s)
    (rest : List Char) : readMarkup (t.text ++ s ++ '>' :: rest) =
      .ok (some (Markup.openingToken (t.text ++ s)), rest) := by
  have hcut := cutTag_append (h.crosses.append hs) rest
  obtain ⟨c, name, hname⟩ : ∃ c name, t.name.toList = c :: name :=
    List.exists_cons_of_ne_nil fun hnil => h.name.1 (String.toList_eq_nil_iff.mp hnil)
  have hc : c ∉ ['!', '?', '/'] := by
    obtain ⟨-, -, hother⟩ := h.name.2 c (by simp [hname])
    simp only [List.mem_cons, List.not_mem_nil, or_false, not_or] at hother ⊢
    exact ⟨hother.2.2.1, hother.2.2.2, hother.2.1⟩
  have hbegin : t.text ++ s ++ '>' :: rest = c :: (name ++ t.body ++ s ++ '>' :: rest) := by
    simp [Tag.text, hname]
  rw [hbegin] at hcut ⊢
  exact readMarkup_of_notMem hc hcut

/-- A name without blanks that is crossed closes as itself. -/
theorem readMarkup_closing {name : String} (hcross : Crosses name.toList)
    (hblanks : ∀ c ∈ name.toList, isBlank c = false) (rest : List Char) :
    readMarkup ('/' :: (name.toList ++ '>' :: rest)) = .ok (some (.closing name), rest) := by
  have hblank : name.toList.reverse.dropWhile isBlank = name.toList.reverse := by
    obtain hnil | ⟨s, c, hs⟩ := List.eq_nil_or_concat name.toList
    · simp [hnil]
    · simp [hs, hblanks c (by simp [hs])]
  have hclosing : closingName name.toList = name := by
    simp [closingName, hblank]
  rw [readMarkup, cutTag_append hcross]
  simp only [hclosing]

theorem IsName.readMarkup_closing {name : String} (h : IsName name) (rest : List Char) :
    readMarkup ('/' :: (name.toList ++ '>' :: rest)) = .ok (some (.closing name), rest) :=
  Markup.readMarkup_closing h.crosses (fun c hc => (h.2 c hc).1) rest

end Tags

section Scanning

theorem scan_markup {s rest : List Char} {token : Option Token}
    (h : readMarkup s = .ok (token, rest)) :
    scan ('<' :: s) = (token.toList ++ (scan rest).1, (scan rest).2) := by
  rw [scan]
  split
  · simp_all
  · rename_i h'
    obtain ⟨rfl, rfl⟩ := Prod.mk.inj (Except.ok.inj (h.symm.trans h'))
    rfl

theorem scan_blank {c : Char} (h : isBlank c = true) (s : List Char) : scan (c :: s) = scan s := by
  rw [scan]
  all_goals
    rintro rfl
    exact absurd h (by decide)

theorem scan_indentation (depth : Nat) (s : List Char) :
    scan (Forest.indentation depth ++ s) = scan s := by
  rw [Forest.indentation]
  induction 2 * depth with
  | zero => rfl
  | succ n ih => rw [List.replicate_succ, List.cons_append, scan_blank (by decide), ih]

/-- The tokens of written elements. -/
theorem scan_write {f : Forest} (h : f.IsPlain) (depth : Nat) (rest : List Char) :
    scan (f.write depth ++ rest) = (f.tokens ++ (scan rest).1, (scan rest).2) := by
  induction f generalizing depth rest with
  | nil => rfl
  | node tag inside after ihi iha =>
    obtain ⟨htag, hinside, hafter⟩ := Forest.isPlain_node.mp h
    have hdelimited := htag.isDelimited
    have hnewline (s : List Char) : scan ('\n' :: s) = scan s := scan_blank (by decide) s
    by_cases hnil : inside = .nil
    · have hslash : Crosses ['/'] := crosses_singleton (by decide) (by decide)
      have hmarkup := scan_markup
        (hdelimited.readMarkup hslash ('\n' :: (after.write depth ++ rest)))
      rw [hdelimited.selfClosedToken, hnewline, iha hafter] at hmarkup
      have htext : (Forest.node tag inside after).write depth ++ rest =
          Forest.indentation depth ++
            '<' :: (tag.text ++ ['/'] ++ '>' :: '\n' :: (after.write depth ++ rest)) := by
        simp [Forest.write, hnil]
      rw [htext, scan_indentation, hmarkup]
      simp [Forest.tokens, hnil]
    · let outer := '\n' :: (after.write depth ++ rest)
      let inner := inside.write (depth + 1) ++
        (Forest.indentation depth ++ '<' :: '/' :: (tag.name.toList ++ '>' :: outer))
      have hopening := scan_markup (hdelimited.readMarkup crosses_nil ('\n' :: inner))
      have hclosing := scan_markup (hdelimited.name.readMarkup_closing outer)
      rw [hnewline, iha hafter] at hclosing
      rw [List.append_nil, hdelimited.openingToken, hnewline, ihi hinside, scan_indentation,
        hclosing] at hopening
      have htext : (Forest.node tag inside after).write depth ++ rest =
          Forest.indentation depth ++ '<' :: (tag.text ++ '>' :: '\n' :: inner) := by
        simp [Forest.write, hnil, inner, outer]
      rw [htext, scan_indentation, hopening]
      simp [Forest.tokens, hnil]

end Scanning

/-- Elements are put together again from their tokens. -/
theorem levels_tokens (f : Forest) {rest : List Token} (h : (levels rest).1 = .nil) :
    levels (f.tokens ++ rest) = (f, (levels rest).2) := by
  induction f generalizing rest with
  | nil => exact Prod.ext h rfl
  | node tag inside after ihi iha =>
    rw [Forest.tokens, List.append_assoc]
    split
    · rename_i hnil
      rw [hnil, List.singleton_append, levels, iha h]
    · have hinside : levels (inside.tokens ++ .closing tag.name :: (after.tokens ++ rest)) =
          (inside, after :: (levels rest).2) := by
        rw [ihi (by rw [levels]), levels, iha h]
      rw [List.cons_append, List.append_assoc, List.singleton_append, levels, hinside]

/-- Each closing fits the element that is open. -/
theorem nest_tokens (f : Forest) (opened : List String) (rest : List Token) :
    nest opened (f.tokens ++ rest) =
      { nest opened rest with tokens := f.tokens ++ (nest opened rest).tokens } := by
  induction f generalizing opened rest with
  | nil => rfl
  | node tag inside after ihi iha =>
    rw [Forest.tokens, List.append_assoc]
    split
    · rw [List.singleton_append, nest, iha]
      rfl
    · rw [List.cons_append, List.append_assoc, List.singleton_append, nest, ihi, nest, if_pos rfl,
        iha]
      simp

/-- Written elements are read as they were, without a fault. -/
theorem read_write {f : Forest} (h : f.IsPlain) :
    read (String.ofList (f.write 0)) = ⟨f, [], none⟩ := by
  have hscan : scan (f.write 0) = (f.tokens, none) := by
    have hrest := scan_write h 0 []
    rwa [List.append_nil, scan, List.append_nil] at hrest
  have hmark : withoutMark (f.write 0) = f.write 0 := by
    cases f with
    | nil => rfl
    | node tag inside after => simp [Forest.write, Forest.indentation, withoutMark]
  have hnest : nest [] f.tokens = ⟨f.tokens, [], none⟩ := by
    have hrest := nest_tokens f [] []
    rwa [List.append_nil, nest, List.append_nil] at hrest
  have hlevels : Forest.ofTokens f.tokens = f := by
    have hrest : levels (f.tokens ++ []) = (f, (levels []).2) := levels_tokens f rfl
    rw [List.append_nil] at hrest
    rw [Forest.ofTokens, hrest]
  rw [read, String.toList_ofList, hmark, hscan]
  simp only [hnest, hlevels]
  rfl

end TypeDocs.Markup
