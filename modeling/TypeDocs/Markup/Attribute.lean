import TypeDocs.Markup.Reference

/-!
Attributes of a tag. A malformed attribute is reported and the reading goes on at the next place
where an attribute can begin, so the reports of a tag are a list in which good and bad ones mix.
-/

namespace TypeDocs.Markup

/-- An attribute as written: its value still holds references. -/
structure RawAttribute where
  name : String
  value : List Char
deriving DecidableEq, Repr

inductive AttributeFault where
  | missingEquals (name : String)
  | missingValue (name : String)
  | missingQuote (name : String)
  | unquoted (name : String)
  | repeated (name : String)
deriving DecidableEq, Repr

abbrev AttributeReport := Except AttributeFault RawAttribute

/-- The name that counts as used after a report, so that a later one of that name is repeated. -/
def claimedName : AttributeReport → Option String
  | .ok a => some a.name
  | .error (.missingValue name) => some name
  | .error (.missingQuote name) => some name
  | .error (.unquoted name) => some name
  | .error (.missingEquals _) => none
  | .error (.repeated _) => none

def isNameChar (c : Char) : Bool :=
  !isBlank c && c != '='

/-- Reads the value of the attribute `name` from the text after its equals sign. -/
def readValue (used : List String) (name : String) (s : List Char) :
    AttributeReport × List Char :=
  if name ∈ used then (.error (.repeated name), s.dropWhile (!isBlank ·))
  else
    match s.dropWhile isBlank with
    | [] => (.error (.missingValue name), [])
    | c :: r =>
      if isQuote c then
        match cut [c] r with
        | none => (.error (.missingQuote name), [])
        | some (value, rest) => (.ok ⟨name, value⟩, rest)
      else (.error (.unquoted name), (c :: r).dropWhile (!isBlank ·))

/--
The first report of a text and the rest to go on with; nothing when only blanks are left. A name has
a first character, whichever it is, and goes on to an equals sign or blank.
-/
def readAttribute (used : List String) (s : List Char) : Option (AttributeReport × List Char) :=
  match s.dropWhile isBlank with
  | [] => none
  | c :: r =>
    let name := String.ofList (c :: r.takeWhile isNameChar)
    match (r.dropWhile isNameChar).dropWhile isBlank with
    | '=' :: v => some (readValue used name v)
    | rest => some (.error (.missingEquals name), rest)

theorem length_readValue_le (used : List String) (name : String) (s : List Char) :
    (readValue used name s).2.length ≤ s.length := by
  have hb := length_dropWhile_le isBlank s
  unfold readValue
  split
  · exact length_dropWhile_le _ s
  · split
    · simp
    · rename_i c r hr
      rw [hr] at hb
      simp only [List.length_cons] at hb
      split
      · split
        · simp
        · rename_i value rest hc
          have := length_of_cut hc
          simp only
          omega
      · have := length_dropWhile_le (!isBlank ·) (c :: r)
        simp only [List.length_cons] at this
        simp only
        omega

theorem length_of_readAttribute {used : List String} {s rest : List Char} {a : AttributeReport}
    (h : readAttribute used s = some (a, rest)) : rest.length < s.length := by
  have hb := length_dropWhile_le isBlank s
  unfold readAttribute at h
  split at h
  · simp at h
  · rename_i c r hr
    rw [hr] at hb
    have h₁ := length_dropWhile_le isNameChar r
    have h₂ := length_dropWhile_le isBlank (r.dropWhile isNameChar)
    simp only [List.length_cons] at hb
    split at h
    · rename_i v hv
      have := length_readValue_le used (String.ofList (c :: r.takeWhile isNameChar)) v
      rw [Option.some.inj h] at this
      rw [hv] at h₂
      simp only [List.length_cons] at h₂
      simp only at this
      omega
    · obtain ⟨-, rfl⟩ := Prod.mk.inj (Option.some.inj h)
      omega

/-- All reports of a text; `used` are the names that count as taken. -/
def attributeReports (used : List String) (s : List Char) : List AttributeReport :=
  match _h : readAttribute used s with
  | none => []
  | some (a, rest) => a :: attributeReports ((claimedName a).toList ++ used) rest
termination_by s.length
decreasing_by exact length_of_readAttribute _h

/-- An attribute as meant. -/
structure Attribute where
  name : String
  value : String
deriving DecidableEq, Repr

def RawAttribute.decode (a : RawAttribute) : Except ReferenceFault Attribute := do
  let value ← Markup.decode a.value
  return ⟨a.name, String.ofList value⟩

end TypeDocs.Markup
