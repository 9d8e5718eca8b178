import TypeDocs.Proofs.Extending
import TypeDocs.Proofs.Reading

namespace TypeDocs

namespace Markup

section Closings

/-- A name that ends at the end of its closing tag. -/
def IsClosable (name : String) : Prop :=
  ∀ c ∈ name.toList, isBlank c = false ∧ isQuote c = false ∧ c ≠ '>'

instance (name : String) : Decidable (IsClosable name) :=
  List.decidableBAll _ name.toList

/-- Closing tags of elements, innermost first. -/
def closings (names : List String) : List Char :=
  names.flatMap fun name => "</".toList ++ name.toList ++ ['>']

/-- A text and the closing tags that it lacks. -/
def closed (text : String) : String :=
  text ++ String.ofList (closings (read text).unclosed)

theorem scan_closings {names : List String} (h : ∀ name ∈ names, IsClosable name) :
    scan (closings names) = (names.map .closing, none) := by
  induction names with
  | nil => rw [closings, List.flatMap_nil, scan, List.map_nil]
  | cons name names ih =>
    rw [List.forall_mem_cons] at h
    have hcross : Crosses name.toList := crosses_of_forall fun c hc => (h.1 c hc).2
    have hmarkup := scan_markup
      (readMarkup_closing hcross (fun c hc => (h.1 c hc).1) (closings names))
    rw [ih h.2] at hmarkup
    have htext : closings (name :: names) =
        '<' :: '/' :: (name.toList ++ '>' :: closings names) := by
      simp [closings]
    rw [htext, hmarkup]
    rfl

/-- A mark before the text stays where it is. -/
theorem withoutMark_closings (s : List Char) (names : List String) :
    withoutMark (s ++ closings names) = withoutMark s ++ closings names := by
  cases s with
  | nil =>
    cases names with
    | nil => rfl
    | cons name names => simp [closings, withoutMark]
  | cons c s =>
    by_cases hc : c = '\uFEFF'
    · subst hc
      rfl
    · rw [List.cons_append, withoutMark, withoutMark, List.cons_append]
      all_goals simp [hc]

end Closings

section Nesting

variable {opened : List String} {l : List Token}

/-- Where no closing is at fault, what follows stands inside the elements still open. -/
theorem nest_append (h : (nest opened l).fault = none) (m : List Token) :
    nest opened (l ++ m) = { nest (nest opened l).unclosed m with
      tokens := l ++ (nest (nest opened l).unclosed m).tokens } := by
  induction l generalizing opened with
  | nil => rfl
  | cons token l ih =>
    cases token with
    | opening tag => simp only [List.cons_append, nest, ih h]
    | selfClosed tag => simp only [List.cons_append, nest, ih h]
    | closing name =>
      cases opened with
      | nil => simp [nest] at h
      | cons expected outer =>
        by_cases hname : name = expected
        · simp only [nest, if_pos hname] at h
          simp only [List.cons_append, nest, if_pos hname, ih h]
        · simp [nest, hname] at h

theorem nest_closings (names : List String) :
    nest names (names.map .closing) = ⟨names.map .closing, [], none⟩ := by
  induction names with
  | nil => rfl
  | cons name names ih => rw [List.map_cons, nest, if_pos rfl, ih]

theorem levels_closings (names : List String) :
    levels (names.map .closing) = (.nil, List.replicate names.length .nil) := by
  induction names with
  | nil => rfl
  | cons name names ih => rw [List.map_cons, levels, ih]; rfl

/--
Closing what is open leaves the elements as they are. Each of `opened` that the tokens do not close
gets a group without elements.
-/
theorem levels_unclosed (h : (nest opened l).fault = none) :
    levels (l ++ (nest opened l).unclosed.map .closing) =
      ((levels l).1,
        (levels l).2 ++ List.replicate (opened.length - (levels l).2.length) .nil) := by
  induction l generalizing opened with
  | nil => simp [nest, levels_closings, levels]
  | cons token l ih =>
    cases token with
    | opening tag =>
      have hinside := @ih (tag.name :: opened) h
      simp only [List.cons_append, nest, levels, hinside, List.length_cons]
      cases hl : levels l with
      | mk inside groups =>
        cases groups with
        | nil => simp [List.replicate_succ]
        | cons after outer => simp
    | selfClosed tag =>
      simp only [List.cons_append, nest, levels, @ih opened h]
    | closing name =>
      cases opened with
      | nil => simp [nest] at h
      | cons expected outer =>
        by_cases hname : name = expected
        · simp only [nest, if_pos hname] at h
          simp only [List.cons_append, nest, if_pos hname, levels, ih h, List.length_cons,
            Nat.add_sub_add_right]
        · simp [nest, hname] at h

end Nesting

/-- A text without a fault is read as before once its elements are closed. -/
theorem read_closed {text : String} (h : (read text).fault = none)
    (hnames : ∀ name ∈ (read text).unclosed, IsClosable name) :
    read (closed text) = { read text with unclosed := [] } := by
  have hnest : (nest [] (tokens text)).fault = none := (Option.or_eq_none_iff.mp h).1
  have hscan : (scan (withoutMark text.toList)).2 = none := (Option.or_eq_none_iff.mp h).2
  have htokens : (nest [] (tokens text)).tokens = tokens text := tokens_nest hnest
  have hunclosed : (read text).unclosed = (nest [] (tokens text)).unclosed := rfl
  have hcontent : (read text).content = (levels (tokens text)).1 :=
    congrArg Forest.ofTokens htokens
  have hclosed : scan (withoutMark (closed text).toList) =
      (tokens text ++ (read text).unclosed.map .closing, none) := by
    rw [closed, String.toList_append, String.toList_ofList, withoutMark_closings,
      scan_append hscan, scan_closings hnames]
    rfl
  have hnested : nest [] (tokens text ++ (read text).unclosed.map .closing) =
      ⟨tokens text ++ (read text).unclosed.map .closing, [], none⟩ := by
    rw [nest_append hnest, hunclosed, nest_closings]
  have hlevels := levels_unclosed hnest
  calc read (closed text)
      = ⟨.ofTokens (tokens text ++ (read text).unclosed.map .closing), [], none⟩ := by
        rw [read, hclosed]
        simp only [hnested]
        rfl
    _ = ⟨(levels (tokens text)).1, [], none⟩ := by
        rw [Forest.ofTokens, hunclosed, hlevels]
    _ = { read text with unclosed := [] } := by
        simp only [hcontent, h]

end Markup

namespace Catalog

open Markup

/--
A catalog that is accepted has no construct that is cut off and no closing tag that does not fit,
but it may lack closing tags: with these it is the same catalog.
-/
theorem parse_closed {text : String} {c : Catalog} (h : parse text = .ok c)
    (hnames : ∀ name ∈ (read text).unclosed, IsClosable name) :
    (read text).fault = none ∧ (read (closed text)).unclosed = [] ∧
      parse (closed text) = .ok c := by
  obtain ⟨keys, -, hfault, -, -, -⟩ := parse_eq_ok_iff.mp h
  have hread := read_closed hfault hnames
  refine ⟨hfault, by rw [hread], ?_⟩
  calc parse (closed text)
      = ofReading { read text with unclosed := [] } := by rw [parse_eq, hread]
    _ = parse text := (parse_eq text).symm
    _ = .ok c := h

/-- A catalog of one type with a field, cut off before the type ends. -/
def cutOff : String :=
  "<typeCatalog><type key=\x22A\x22 name=\x22A\x22><field name=\x22x\x22 type=\x22A\x22/>"

/-- What is read of it. -/
def ofCutOff : Catalog :=
  { entries := #[⟨"A", { name := "A", fields := [{ name := "x", type := ⟨0⟩ }] }⟩] }

theorem parse_closed_cutOff : parse cutOff = .ok ofCutOff ∧
    (read cutOff).unclosed = ["type", "typeCatalog"] ∧
    (read (closed cutOff)).unclosed = [] ∧ parse (closed cutOff) = .ok ofCutOff := by
  have hparse : parse cutOff = .ok ofCutOff := by decide +kernel
  have hunclosed : (read cutOff).unclosed = ["type", "typeCatalog"] := by decide +kernel
  have hnames : ∀ name ∈ (read cutOff).unclosed, IsClosable name := by
    rw [hunclosed]
    decide
  have hclosed := parse_closed hparse hnames
  exact ⟨hparse, hunclosed, hclosed.2⟩

/-- So a catalog that is accepted need not be complete. -/
theorem exists_parse_unclosed :
    ¬ ∀ text c, parse text = .ok c → (read text).unclosed = [] := by
  intro h
  have hparse : parse cutOff = .ok ofCutOff := by decide +kernel
  have hunclosed : (read cutOff).unclosed ≠ [] := by decide +kernel
  exact hunclosed (h cutOff ofCutOff hparse)

end Catalog

end TypeDocs
