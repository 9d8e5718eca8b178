import TypeDocs.Markup.Attribute
import TypeDocs.Markup.Fault

/-!
Tags of a document in the order in which they are written. Text, comments, character data,
instructions and the document type are passed over; only their ends matter.
-/

namespace TypeDocs.Markup

/-- A tag that opens an element: its name and the text of its attributes. -/
structure Tag where
  name : String
  body : List Char
deriving DecidableEq, Repr

inductive Token where
  | opening (tag : Tag)
  | selfClosed (tag : Tag)
  | closing (name : String)
deriving DecidableEq, Repr

def Tag.reports (t : Tag) : List AttributeReport :=
  attributeReports [] t.body

/-- The attributes of a tag in the order written. Malformed ones are left out. -/
def Tag.attributes (t : Tag) : Except ReferenceFault (List Attribute) :=
  (t.reports.filterMap Except.toOption).mapM RawAttribute.decode

/-- A tag's name ends at the first blank. -/
def Tag.ofText (s : List Char) : Tag :=
  ⟨String.ofList (s.takeWhile (!isBlank ·)), s.dropWhile (!isBlank ·)⟩

/-- The tag between `<` and `>`; a slash at its end closes the element at once. -/
def openingToken (s : List Char) : Token :=
  if s.getLast? = some '/' then .selfClosed (.ofText s.dropLast) else .opening (.ofText s)

/-- Blanks after the name are no part of it, unless there is nothing else. -/
def closingName (s : List Char) : String :=
  let name := (s.reverse.dropWhile isBlank).reverse
  String.ofList (if name.isEmpty then s else name)

/-- The rest after a declaration inside a document type, given the text after its `<`. -/
def afterDeclaration (s : List Char) : Option (List Char) :=
  if "!--".toList.isPrefixOf s then (cut "-->".toList (s.drop 3)).map (·.2)
  else if "?".toList.isPrefixOf s then (cut "?>".toList (s.drop 1)).map (·.2)
  else if ["!ENTITY", "!ATTLIST", "!NOTATION"].any (·.toList.isPrefixOf s) then
    (cutTag none s).toOption.map (·.2)
  else (cut ['>'] s).map (·.2)

theorem length_of_afterDeclaration {s rest : List Char} (h : afterDeclaration s = some rest) :
    rest.length ≤ s.length := by
  have hcut : ∀ {mark t : List Char}, (cut mark t).map (·.2) = some rest →
      rest.length ≤ t.length := by
    intro mark t ht
    obtain ⟨⟨b, a⟩, hc, rfl⟩ := Option.map_eq_some_iff.mp ht
    exact length_of_cut hc
  unfold afterDeclaration at h
  split at h
  · have := hcut h
    rw [List.length_drop] at this
    omega
  · split at h
    · have := hcut h
      rw [List.length_drop] at this
      omega
    · split at h
      · cases hc : cutTag none s with
        | error q => simp [hc, Except.toOption] at h
        | ok r =>
          obtain ⟨b, a⟩ := r
          simp only [hc, Except.toOption, Option.map_some, Option.some.injEq] at h
          exact h ▸ length_of_cutTag hc
      · exact hcut h

/-- The rest after a document type, from inside its internal subset. -/
def afterSubset (s : List Char) : Option (List Char) :=
  match s with
  | [] => none
  | ']' :: r => (cut ['>'] r).map (·.2)
  | '<' :: r =>
    match _h : afterDeclaration r with
    | none => none
    | some rest => afterSubset rest
  | _ :: r => afterSubset r
termination_by s.length
decreasing_by
  · have := length_of_afterDeclaration _h
    simp only [List.length_cons]
    omega
  · simp

/-- The rest after a document type, from the end of its keyword. -/
def afterDoctype (quote : Option Char) : List Char → Option (List Char)
  | [] => none
  | c :: s =>
    if quote = none ∧ c = '>' then some s
    else if quote = none ∧ c = '[' then afterSubset s
    else afterDoctype (quoteAfter quote c) s

def doctypeKeyword : List Char := "DOCTYPE".toList

/-- The rest after a construct that begins with `<!`, given the text that follows those two. -/
def afterExclamation (s : List Char) : Except Fault (List Char) :=
  match s with
  | '-' :: _ =>
    if "--".toList.isPrefixOf s then
      match cut "-->".toList (s.drop 2) with
      | some (_, rest) => .ok rest
      | none => .error .openComment
    else .error .openComment
  | '[' :: _ =>
    if "[CDATA[".toList.isPrefixOf s then
      match cut "]]>".toList (s.drop 7) with
      | some (_, rest) => .ok rest
      | none => .error .openCharacterData
    else .error .openCharacterData
  | c :: _ =>
    if c = 'D' ∨ c = 'd' then
      if (s.take 7).map Char.toUpper = doctypeKeyword then
        match afterDoctype none (s.drop 7) with
        | none => .error .openDoctype
        | some rest =>
          if ((s.drop 7).dropWhile isBlank).head? = some '>' then .error .namelessDoctype
          else .ok rest
      else .error .openDoctype
    else .error .unknownMarkup
  | [] => .error .unknownMarkup

/-- Whether an instruction, given without its `<?`, claims to be the declaration of the document. -/
def isDeclaration (s : List Char) : Bool :=
  "xml".toList.isPrefixOf s && (s.drop 3).head?.all fun c => isBlank c || c == '?'

/--
The rest after an instruction, given the text that follows its `<?`. It must not end with the
question mark that it begins with.
-/
def afterQuestion (s : List Char) : Except Fault (List Char) :=
  let fault : Fault := if isDeclaration s then .openDeclaration else .openInstruction
  if s.head? = some '>' then .error fault
  else
    match cut "?>".toList s with
    | some (_, rest) => .ok rest
    | none => .error fault

def openTagFault : Option Char → Fault
  | none => .openTag
  | some quote => .openValue quote

/-- Reads one construct from the text after its `<`: its token, if it has one, and the rest. -/
def readMarkup (s : List Char) : Except Fault (Option Token × List Char) :=
  match s with
  | [] => .error .openTag
  | '!' :: r => (afterExclamation r).map fun rest => (none, rest)
  | '?' :: r => (afterQuestion r).map fun rest => (none, rest)
  | '/' :: r =>
    match cutTag none r with
    | .error quote => .error (openTagFault quote)
    | .ok (text, rest) => .ok (some (.closing (closingName text)), rest)
  | _ =>
    match cutTag none s with
    | .error quote => .error (openTagFault quote)
    | .ok (text, rest) => .ok (some (openingToken text), rest)

theorem length_of_afterSubset {s rest : List Char} (h : afterSubset s = some rest) :
    rest.length ≤ s.length := by
  fun_induction afterSubset s with
  | case1 => simp at h
  | case2 r =>
    obtain ⟨⟨b, a⟩, hc, rfl⟩ := Option.map_eq_some_iff.mp h
    have := length_of_cut hc
    simp only [List.length_cons]
    omega
  | case3 r hd => simp at h
  | case4 r rest' hd ih =>
    have h₁ := ih h
    have h₂ := length_of_afterDeclaration hd
    simp only [List.length_cons]
    omega
  | case5 c r _ _ ih =>
    have := ih h
    simp only [List.length_cons]
    omega

theorem length_of_afterDoctype {quote : Option Char} {s rest : List Char}
    (h : afterDoctype quote s = some rest) : rest.length ≤ s.length := by
  induction s generalizing quote with
  | nil => simp [afterDoctype] at h
  | cons c s ih =>
    rw [afterDoctype] at h
    simp only [List.length_cons]
    split at h
    · obtain rfl := Option.some.inj h
      omega
    · split at h
      · have := length_of_afterSubset h
        omega
      · have := ih h
        omega

theorem length_of_afterExclamation {s rest : List Char} (h : afterExclamation s = .ok rest) :
    rest.length ≤ s.length := by
  have hcut : ∀ {mark before : List Char} {n : Nat},
      cut mark (s.drop n) = some (before, rest) → rest.length ≤ s.length := by
    intro mark before n hc
    have := length_of_cut hc
    rw [List.length_drop] at this
    omega
  unfold afterExclamation at h
  split at h
  · split at h
    · split at h
      · rename_i hc
        obtain rfl := Except.ok.inj h
        exact hcut hc
      · simp at h
    · simp at h
  · split at h
    · split at h
      · rename_i hc
        obtain rfl := Except.ok.inj h
        exact hcut hc
      · simp at h
    · simp at h
  · split at h
    · split at h
      · split at h
        · simp at h
        · rename_i hd
          split at h
          · simp at h
          · obtain rfl := Except.ok.inj h
            have := length_of_afterDoctype hd
            rw [List.length_drop] at this
            omega
      · simp at h
    · simp at h
  · simp at h

theorem length_of_afterQuestion {s rest : List Char} (h : afterQuestion s = .ok rest) :
    rest.length ≤ s.length := by
  unfold afterQuestion at h
  simp only at h
  split at h
  · simp at h
  · split at h
    · rename_i hc
      obtain rfl := Except.ok.inj h
      exact length_of_cut hc
    · simp at h

theorem length_of_readMarkup {s rest : List Char} {token : Option Token}
    (h : readMarkup s = .ok (token, rest)) : rest.length ≤ s.length := by
  unfold readMarkup at h
  split at h
  · simp at h
  · rename_i r
    cases hr : afterExclamation r with
    | error f => simp [hr, Except.map] at h
    | ok a =>
      simp only [hr, Except.map, Except.ok.injEq, Prod.mk.injEq] at h
      obtain ⟨-, rfl⟩ := h
      have := length_of_afterExclamation hr
      simp only [List.length_cons]
      omega
  · rename_i r
    cases hr : afterQuestion r with
    | error f => simp [hr, Except.map] at h
    | ok a =>
      simp only [hr, Except.map, Except.ok.injEq, Prod.mk.injEq] at h
      obtain ⟨-, rfl⟩ := h
      have := length_of_afterQuestion hr
      simp only [List.length_cons]
      omega
  · split at h
    · simp at h
    · rename_i hc
      simp only [Except.ok.injEq, Prod.mk.injEq] at h
      obtain ⟨-, rfl⟩ := h
      have := length_of_cutTag hc
      simp only [List.length_cons]
      omega
  · split at h
    · simp at h
    · rename_i hc
      simp only [Except.ok.injEq, Prod.mk.injEq] at h
      obtain ⟨-, rfl⟩ := h
      exact length_of_cutTag hc

/-- In text, an ampersand needs a semicolon before the next ampersand, tag or end. -/
def closesReference (s : List Char) : Bool :=
  s.find? (fun c => c == ';' || c == '&' || c == '<') == some ';'

/-- The tokens of a text up to its end, or up to the first fault. -/
def scan (s : List Char) : List Token × Option Fault :=
  match s with
  | [] => ([], none)
  | '<' :: r =>
    match _h : readMarkup r with
    | .error fault => ([], some fault)
    | .ok (token, rest) =>
      let (tokens, fault) := scan rest
      (token.toList ++ tokens, fault)
  | '&' :: r => if closesReference r then scan r else ([], some .openReference)
  | _ :: r => scan r
termination_by s.length
decreasing_by
  · have := length_of_readMarkup _h
    simp only [List.length_cons]
    omega
  · simp
  · simp

end TypeDocs.Markup
