import TypeDocs.Markup.Text

/-!
References in attribute values: the five named characters, and characters given by number. All
other text of a value stands for itself.
-/

namespace TypeDocs.Markup

inductive NumberFault where
  | sign
  | empty
  | digit
  | overflow
  | zero
  | notCharacter (code : Nat)
deriving DecidableEq, Repr

/-- Offsets and sizes count bytes of the raw value. -/
inductive ReferenceFault where
  | unclosed (start size : Nat)
  | number (fault : NumberFault)
  | unknown (start stop : Nat) (name : String)
deriving DecidableEq, Repr

def NumberFault.message : NumberFault → String
  | sign => "unexpected number sign"
  | empty => "cannot parse integer from empty string"
  | digit => "invalid digit found in string"
  | overflow => "number too large to fit in target type"
  | zero => "0x0 character is not permitted in XML"
  | notCharacter code => "`" ++ toString code ++ "` is not a valid codepoint"

def ReferenceFault.message : ReferenceFault → String
  | unclosed start size =>
    "Error while escaping character at range " ++ toString start ++ ".." ++ toString size ++
      ": Cannot find ';' after '&'"
  | number fault => "invalid character reference: " ++ fault.message
  | unknown start stop name =>
    "at " ++ toString start ++ ".." ++ toString stop ++ ": unrecognized entity `" ++ name ++ "`"

/-- Value of a digit in base ten or sixteen; letters count in either case. -/
def digit? (base : Nat) (c : Char) : Option Nat :=
  let value :=
    if '0' ≤ c ∧ c ≤ '9' then some (c.toNat - '0'.toNat)
    else if 'a' ≤ c ∧ c ≤ 'f' then some (c.toNat - 'a'.toNat + 10)
    else if 'A' ≤ c ∧ c ≤ 'F' then some (c.toNat - 'A'.toNat + 10)
    else none
  value.filter (· < base)

/-- Numbers of 32 bits, most significant digit first. -/
def readDigits (base : Nat) (value : Nat) : List Char → Except NumberFault Nat
  | [] => .ok value
  | c :: s =>
    match digit? base c with
    | none => .error .digit
    | some d =>
      if value * base + d < UInt32.size then readDigits base (value * base + d) s
      else .error .overflow

def readNumber (base : Nat) : List Char → Except NumberFault Nat
  | [] => .error .empty
  | c :: s => if c = '+' ∨ c = '-' then .error .sign else readDigits base 0 (c :: s)

/-- The character of a reference such as `#38` or `#x26`, given without its `#`. -/
def numbered (digits : List Char) : Except NumberFault Char := do
  let code ← match digits with
    | 'x' :: hex => readNumber 16 hex
    | decimal => readNumber 10 decimal
  if code = 0 then .error .zero
  else if code.isValidChar then .ok (Char.ofNat code)
  else .error (.notCharacter code)

def named : List Char → Option Char
  | ['l', 't'] => some '<'
  | ['g', 't'] => some '>'
  | ['a', 'm', 'p'] => some '&'
  | ['a', 'p', 'o', 's'] => some '\x27'
  | ['q', 'u', 'o', 't'] => some '\x22'
  | _ => none

/-- The character that `&name;` stands for; `start` is the offset of `name`. -/
def referent (start : Nat) (name : List Char) : Except ReferenceFault Char :=
  match name with
  | '#' :: digits => (numbered digits).mapError .number
  | _ =>
    match named name with
    | some c => .ok c
    | none => .error (.unknown start (start + byteSize name) (String.ofList name))

/-- A reference reaches to the first `;`, unless another `&` comes before it. -/
def endsReference (c : Char) : Bool :=
  c == ';' || c == '&'

/-- `decodeFrom size offset s` decodes the rest `s`, at `offset`, of a value of `size` bytes. -/
def decodeFrom (size offset : Nat) (s : List Char) : Except ReferenceFault (List Char) :=
  match s with
  | [] => .ok []
  | '&' :: s =>
    let name := s.takeWhile (!endsReference ·)
    match h : s.dropWhile (!endsReference ·) with
    | ';' :: rest => do
      let c ← referent (offset + 1) name
      let more ← decodeFrom size (offset + byteSize name + 2) rest
      return c :: more
    | _ => .error (.unclosed offset size)
  | c :: s => do
    let more ← decodeFrom size (offset + c.utf8Size) s
    return c :: more
termination_by s.length
decreasing_by
  · have := length_dropWhile_le (!endsReference ·) s
    simp only [h, List.length_cons] at this ⊢
    omega
  · simp

/-- The value that a raw attribute value stands for. -/
def decode (raw : List Char) : Except ReferenceFault (List Char) :=
  decodeFrom (byteSize raw) 0 raw

end TypeDocs.Markup
