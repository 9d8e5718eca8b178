import TypeDocs.Markup.Event

namespace TypeDocs.Markup

/-- Elements side by side: the first, those inside it, and those after it. -/
inductive Forest where
  | nil
  | node (tag : Tag) (inside after : Forest)
deriving DecidableEq, Repr

/-- What a document holds up to its first fault, and the elements that are open there. -/
structure Reading where
  content : Forest
  unclosed : List String
  fault : Option Fault
deriving DecidableEq, Repr

/--
The elements up to the first closing tag that closes none of them, and the groups between the
closing tags after it.
-/
def levels : List Token → Forest × List Forest
  | [] => (.nil, [])
  | .selfClosed tag :: tokens =>
    let (after, outer) := levels tokens
    (.node tag .nil after, outer)
  | .closing _ :: tokens =>
    let (after, outer) := levels tokens
    (.nil, after :: outer)
  | .opening tag :: tokens =>
    match levels tokens with
    | (inside, after :: outer) => (.node tag inside after, outer)
    | (inside, []) => (.node tag inside .nil, [])

def Forest.ofTokens (tokens : List Token) : Forest :=
  (levels tokens).1

def read (text : String) : Reading :=
  let (tokens, fault) := scan (withoutMark text.toList)
  let n := nest [] tokens
  ⟨.ofTokens n.tokens, n.unclosed, n.fault.or fault⟩

/-- The tags of a text and the closings between them, as they are written. -/
def tokens (text : String) : List Token :=
  (scan (withoutMark text.toList)).1

/-- The tag with which an element begins. -/
def Token.tag? : Token → Option Tag
  | .opening tag | .selfClosed tag => some tag
  | .closing _ => none

namespace Forest

/-- All elements, each with what is inside it: first one, then those inside it, then the rest. -/
def elements : Forest → List (Tag × Forest)
  | .nil => []
  | .node tag inside after => (tag, inside) :: (inside.elements ++ after.elements)

/-- The tags of the elements that are inside no other. -/
def tags : Forest → List Tag
  | .nil => []
  | .node tag _ after => tag :: after.tags

/-- The elements of one kind that are inside no other. -/
def named (name : String) : Forest → List (Tag × Forest)
  | .nil => []
  | .node tag inside after =>
    if tag.name = name then (tag, inside) :: after.named name else after.named name

end Forest

/-- No tag is lost, whichever closings there are. -/
theorem elements_levels (tokens : List Token) :
    ((levels tokens).1.elements ++ (levels tokens).2.flatMap Forest.elements).map Prod.fst =
      tokens.filterMap Token.tag? := by
  fun_induction levels tokens with
  | case1 => rfl
  | case2 tag tokens after outer h ih => simpa [h, Forest.elements, Token.tag?] using ih
  | case3 name tokens after outer h ih =>
    simpa [h, Forest.elements, Token.tag?, List.filterMap_cons] using ih
  | case4 tag tokens inside after outer h ih => simpa [h, Forest.elements, Token.tag?] using ih
  | case5 tag tokens inside h ih => simpa [h, Forest.elements, Token.tag?] using ih

/-- Where closings fit each closes an element, so no more are left than elements are open. -/
theorem length_levels_nest (opened : List String) (tokens : List Token) :
    (levels (nest opened tokens).tokens).2.length ≤ opened.length := by
  induction tokens generalizing opened with
  | nil => simp [nest, levels]
  | cons token tokens ih =>
    cases token with
    | opening tag =>
      have := ih (tag.name :: opened)
      simp only [nest, levels]
      split
      · rename_i after outer h
        simpa [h] using this
      · simp
    | selfClosed tag => exact ih opened
    | closing name =>
      cases opened with
      | nil => simp [nest, levels]
      | cons expected outer =>
        simp only [nest]
        split
        · exact Nat.succ_le_succ (ih outer)
        · simp [levels]

/-- Without a fault the tokens are followed to the end. -/
theorem tokens_nest {opened : List String} {tokens : List Token}
    (h : (nest opened tokens).fault = none) : (nest opened tokens).tokens = tokens := by
  induction tokens generalizing opened with
  | nil => rfl
  | cons token tokens ih =>
    cases token with
    | opening tag => exact congrArg _ (ih h)
    | selfClosed tag => exact congrArg _ (ih h)
    | closing name =>
      cases opened with
      | nil => simp [nest] at h
      | cons expected outer =>
        simp only [nest] at h ⊢
        split at h
        · rw [if_pos ‹_›]
          exact congrArg _ (ih h)
        · simp at h

/-- The elements of a document stand in the order of their tags. -/
theorem elements_read {text : String} (h : (read text).fault = none) :
    (read text).content.elements.map Prod.fst = (tokens text).filterMap Token.tag? := by
  have hfault : (nest [] (tokens text)).fault = none := (Option.or_eq_none_iff.mp h).1
  have houter : (levels (tokens text)).2 = [] := by
    have := length_levels_nest [] (tokens text)
    rw [tokens_nest hfault] at this
    exact List.eq_nil_of_length_eq_zero (Nat.le_zero.mp this)
  have hcontent : (read text).content = (levels (tokens text)).1 :=
    congrArg Forest.ofTokens (tokens_nest hfault)
  rw [hcontent, ← elements_levels, houter, List.flatMap_nil, List.append_nil]

end TypeDocs.Markup
