/-!
Characters of the markup and the cuts its readers make. A cut never leaves more text than it was
given.
-/

namespace TypeDocs.Markup

/-- Space, tab, line feed and carriage return are the only blanks. -/
def isBlank (c : Char) : Bool :=
  c == ' ' || c == '\t' || c == '\n' || c == '\r'

/-- Both quotes may delimit a value. -/
def isQuote (c : Char) : Bool :=
  c == '\x22' || c == '\x27'

/-- Size of a text in UTF-8, the unit in which ranges are reported. -/
def byteSize (s : List Char) : Nat :=
  s.foldr (fun c size => c.utf8Size + size) 0

/-- The text before the first `mark` and the text after it. -/
def cut (mark : List Char) : List Char → Option (List Char × List Char)
  | [] => none
  | c :: s =>
    if mark.isPrefixOf (c :: s) then some ([], (c :: s).drop mark.length)
    else (cut mark s).map fun (before, after) => (c :: before, after)

/-- The quote that is open after reading `c`. -/
def quoteAfter (quote : Option Char) (c : Char) : Option Char :=
  match quote with
  | none => if isQuote c then some c else none
  | some q => if c = q then none else some q

/--
The text before the first `>` outside quotes and the text after it. When there is none, the quote
that is still open at the end.
-/
def cutTag (quote : Option Char) : List Char → Except (Option Char) (List Char × List Char)
  | [] => .error quote
  | c :: s =>
    if quote = none ∧ c = '>' then .ok ([], s)
    else (cutTag (quoteAfter quote c) s).map fun (before, after) => (c :: before, after)

theorem length_of_cut {mark s before after : List Char}
    (h : cut mark s = some (before, after)) : after.length ≤ s.length := by
  induction s generalizing before after with
  | nil => simp [cut] at h
  | cons c s ih =>
    rw [cut] at h
    split at h
    · obtain ⟨-, rfl⟩ := Prod.mk.inj (Option.some.inj h)
      simp only [List.length_drop]
      omega
    · obtain ⟨⟨b, a⟩, hc, hp⟩ := Option.map_eq_some_iff.mp h
      obtain ⟨-, rfl⟩ := Prod.mk.inj hp
      have := ih hc
      simp only [List.length_cons]
      omega

theorem length_of_cutTag {quote : Option Char} {s before after : List Char}
    (h : cutTag quote s = .ok (before, after)) : after.length ≤ s.length := by
  induction s generalizing quote before after with
  | nil => simp [cutTag] at h
  | cons c s ih =>
    rw [cutTag] at h
    split at h
    · obtain ⟨-, rfl⟩ := Prod.mk.inj (Except.ok.inj h)
      simp
    · cases hc : cutTag (quoteAfter quote c) s with
      | error q => simp [hc, Except.map] at h
      | ok r =>
        obtain ⟨b, a⟩ := r
        simp only [hc, Except.map, Except.ok.injEq, Prod.mk.injEq] at h
        obtain ⟨-, rfl⟩ := h
        have := ih hc
        simp only [List.length_cons]
        omega

theorem length_dropWhile_le (p : Char → Bool) (s : List Char) :
    (s.dropWhile p).length ≤ s.length :=
  (List.dropWhile_sublist p).length_le

end TypeDocs.Markup
