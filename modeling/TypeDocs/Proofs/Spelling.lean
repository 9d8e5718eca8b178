import TypeDocs.Name.Qualified

namespace TypeDocs

/-- Names one inside the other, each with the arguments that follow it. -/
inductive Spelling where
  | nil
  | name (text : String) (rest : Spelling)
  | argument (inner rest : Spelling)
deriving DecidableEq, Repr

/-- Names that hold no `barred` character and do not begin with a digit. -/
def isClearOf (barred : List Char) (text : String) : Bool :=
  text.toList.head?.any (!·.isDigit) && text.toList.all fun c => c ∉ barred

/-- Names that neither hold a mark nor begin like the rest of one. -/
abbrev isLegibleName (text : String) : Bool :=
  isClearOf ['.', '*'] text

/-- Names that hold no blank either. -/
abbrev isPlainName (text : String) : Bool :=
  isClearOf ['.', '*', ' ', '\n'] text

namespace Spelling

def append : Spelling → Spelling → Spelling
  | nil, s => s
  | name text rest, s => name text (rest.append s)
  | argument inner rest, s => argument inner (rest.append s)

/-- Whether there is a name outside of arguments. -/
def hasName : Spelling → Bool
  | nil => false
  | name _ _ => true
  | argument _ rest => rest.hasName

def separator (depth : Nat) : Char :=
  if depth = 1 then '.' else '*'

def digits (depth : Nat) : List Char :=
  (toString depth).toList

/--
The text of a spelling; no mark stands before its first name. Arguments of an enclosing type are
marked as if they were outermost.
-/
def write (depth : Nat) (first : Bool) : Spelling → List Char
  | nil => []
  | name text rest =>
    (if first then [] else [separator depth]) ++ text.toList ++ rest.write depth false
  | argument inner rest =>
    let mark := if rest.hasName then 1 else depth
    '*' :: (digits mark ++ inner.write (mark + 1) true ++ rest.write depth false)

/-- Names that pass the test, and inside of arguments no name after an argument. -/
def isReadable (test : String → Bool) (depth : Nat) : Spelling → Bool
  | nil => true
  | name text rest => test text && rest.isReadable test depth
  | argument inner rest =>
    inner.isReadable test (depth + 1) && (depth = 1 || !rest.hasName) && rest.isReadable test depth

abbrev isLegible (depth : Nat) (s : Spelling) : Bool :=
  s.isReadable isLegibleName depth

abbrev isPlain (depth : Nat) (s : Spelling) : Bool :=
  s.isReadable isPlainName depth

theorem isReadable_mono {test test' : String → Bool} {depth : Nat} {s : Spelling}
    (ht : ∀ n, test n = true → test' n = true) (h : s.isReadable test depth = true) :
    s.isReadable test' depth = true := by
  induction s generalizing depth with
  | nil => rfl
  | name text rest ih =>
    simp only [isReadable, Bool.and_eq_true] at h ⊢
    exact ⟨ht text h.1, ih h.2⟩
  | argument inner rest ihi ihr =>
    simp only [isReadable, Bool.and_eq_true] at h ⊢
    exact ⟨⟨ihi h.1.1, h.1.2⟩, ihr h.2⟩

theorem isLegible_of_isPlain {depth : Nat} {s : Spelling} (h : s.isPlain depth = true) :
    s.isLegible depth = true := by
  refine isReadable_mono (fun n hn => ?_) h
  simp only [isClearOf, Bool.and_eq_true, List.all_eq_true] at hn ⊢
  exact ⟨hn.1, fun c hc => by simp_all⟩

section Marks

/-- Nothing of the text belongs to what `p` holds of. -/
def Stops (p : Char → Bool) (t : List Char) : Prop :=
  ∀ c ∈ t.head?, p c = false

/-- A run of characters ends where the text stops. -/
theorem takeWhile_of_stops {p : Char → Bool} {a t : List Char} (ha : ∀ c ∈ a, p c = true)
    (ht : Stops p t) : (a ++ t).takeWhile p = a := by
  rw [List.takeWhile_append_of_pos ha]
  cases t with
  | nil => simp
  | cons c t => simp [ht c rfl]

theorem append_inj_of_stops {p : Char → Bool} {a a' t t' : List Char} (ha : ∀ c ∈ a, p c = true)
    (ha' : ∀ c ∈ a', p c = true) (ht : Stops p t) (ht' : Stops p t') (h : a ++ t = a' ++ t') :
    a = a' ∧ t = t' := by
  have hrun : a = a' := by
    rw [← takeWhile_of_stops ha ht, h, takeWhile_of_stops ha' ht']
  subst hrun
  exact ⟨rfl, List.append_cancel_left h⟩

def isMark (c : Char) : Bool :=
  c == '.' || c == '*'

theorem digits_eq (depth : Nat) : digits depth = Nat.toDigits 10 depth :=
  Nat.toList_repr

theorem isDigit_of_mem_digits {depth : Nat} : ∀ c ∈ digits depth, c.isDigit = true := by
  intro c hc
  rw [digits_eq] at hc
  exact Nat.isDigit_of_mem_toDigits (by decide) (by decide) hc

theorem digits_inj {m n : Nat} (h : digits m = digits n) : m = n := by
  rw [digits_eq, digits_eq] at h
  rw [← Nat.ofDigitChars_toDigits (n := m) (by decide : 1 < 10) (by decide), h,
    Nat.ofDigitChars_toDigits (by decide) (by decide)]

theorem digits_ne_nil (depth : Nat) : digits depth ≠ [] := by
  rw [digits_eq]
  exact Nat.toDigits_ne_nil

theorem exists_cons_of_isLegibleName {text : String} (h : isLegibleName text = true) :
    ∃ c s, text.toList = c :: s ∧ c.isDigit = false ∧ isMark c = false := by
  cases hs : text.toList with
  | nil => simp [isClearOf, hs] at h
  | cons c s =>
    refine ⟨c, s, rfl, ?_⟩
    simp only [isClearOf, hs] at h
    simp_all [isMark]

theorem isMark_of_isLegibleName {text : String} (h : isLegibleName text = true) :
    ∀ c ∈ text.toList, isMark c = false := by
  intro c hc
  have hall := List.all_eq_true.mp (Bool.and_eq_true_iff.mp h).2 c hc
  simp_all [isMark]

end Marks

section Reading

variable {depth : Nat} {first : Bool} {text : String} {t t' : List Char}
  {s s' inner rest : Spelling}

theorem write_name_true (rest : Spelling) (t : List Char) :
    (name text rest).write depth true ++ t = text.toList ++ (rest.write depth false ++ t) := by
  simp [write]

theorem write_name_false (rest : Spelling) (t : List Char) :
    (name text rest).write depth false ++ t =
      separator depth :: (text.toList ++ (rest.write depth false ++ t)) := by
  simp [write]

/-- In a legible spelling each argument is marked with the depth at which it stands. -/
theorem write_argument (h : (argument inner rest).isLegible depth = true) (first : Bool)
    (t : List Char) : (argument inner rest).write depth first ++ t =
      '*' :: (digits depth ++ (inner.write (depth + 1) true ++ (rest.write depth false ++ t))) := by
  have hmark : (if rest.hasName then 1 else depth) = depth := by
    split
    · simp_all [isReadable]
    · rfl
  simp [write, hmark]

/-- What may follow a spelling: nothing, a further name outside of it or an outer argument. -/
inductive Follows (depth : Nat) : List Char → Prop where
  | nil : Follows depth []
  | point (t : List Char) (h : depth ≠ 1) : Follows depth ('.' :: t)
  | argument (outer : Nat) (t : List Char) (h : outer < depth) (ht : Stops Char.isDigit t) :
    Follows depth ('*' :: (digits outer ++ t))

theorem Follows.stops (h : Follows depth t) : Stops (!isMark ·) t := by
  cases h <;> simp [Stops, isMark]

/-- Unless it is the first, whatever comes next begins with a mark. -/
theorem stops_write (h : Follows depth t) (s : Spelling) :
    Stops (!isMark ·) (s.write depth false ++ t) := by
  cases s with
  | nil => exact h.stops
  | name text rest =>
    rw [write_name_false]
    unfold separator
    split <;> simp [Stops, isMark]
  | argument inner rest => simp [write, Stops, isMark]

theorem Stops.isDigit (h : Stops (!isMark ·) t) : Stops Char.isDigit t := by
  intro c hc
  have hmark := h c hc
  simp only [isMark, Bool.not_eq_false', Bool.or_eq_true, beq_iff_eq] at hmark
  rcases hmark with rfl | rfl <;> decide

/-- The digits of a mark end where the argument begins. -/
theorem stops_write_first (h : Follows depth t) (hs : s.isLegible depth = true) :
    Stops Char.isDigit (s.write depth true ++ t) := by
  cases s with
  | nil => exact h.stops.isDigit
  | name text rest =>
    obtain ⟨hname, -⟩ := Bool.and_eq_true_iff.mp hs
    obtain ⟨c, r, hc, hdigit, -⟩ := exists_cons_of_isLegibleName hname
    rw [write_name_true, hc]
    simpa [Stops] using hdigit
  | argument inner rest =>
    rw [write_argument hs]
    simp [Stops]

/-- After an argument the names and arguments that are not inside it go on. -/
theorem follows_write (hd : 1 ≤ depth) (h : Follows depth t) (hs : s.isLegible depth = true)
    (hn : depth = 1 ∨ s.hasName = false) : Follows (depth + 1) (s.write depth false ++ t) := by
  induction s with
  | nil =>
    cases h with
    | nil => exact .nil
    | point t h => exact .point t (by omega)
    | argument outer t h ht => exact .argument outer t (by omega) ht
  | name text rest =>
    obtain rfl : depth = 1 := by simpa [hasName] using hn
    rw [write_name_false]
    exact .point _ (by decide)
  | argument inner rest ihi ihr =>
    rw [write_argument hs]
    simp only [isReadable, Bool.and_eq_true] at hs
    have hrest := ihr hs.2 hn
    exact .argument depth _ (by omega) (stops_write_first hrest hs.1.1)

/-- What comes next in a text: the end, a name or an argument. -/
inductive Next where
  | done
  | name
  | argument
deriving DecidableEq

def kind : Spelling → Next
  | nil => .done
  | name _ _ => .name
  | argument _ _ => .argument

/-- The kind, read off the text: after a mark come the digits of an argument, or none. -/
def next (depth : Nat) (first : Bool) : List Char → Next
  | [] => .done
  | c :: t =>
    if first = true ∧ isMark c = false then .name
    else if c = '*' ∧ t.takeWhile Char.isDigit = digits depth then .argument
    else if first = false ∧ c = separator depth ∧ t.takeWhile Char.isDigit = [] then .name
    else .done

theorem Follows.next (h : Follows depth t) : next depth first t = .done := by
  cases h with
  | nil => rfl
  | point t h => simp [Spelling.next, isMark, separator, h]
  | argument outer t h ht =>
    have hrun : (digits outer ++ t).takeWhile Char.isDigit = digits outer :=
      takeWhile_of_stops isDigit_of_mem_digits ht
    have hne : digits outer ≠ digits depth := fun he => absurd (digits_inj he) (by omega)
    simp [Spelling.next, isMark, hrun, hne, digits_ne_nil]

theorem next_write (hd : 1 ≤ depth) (h : Follows depth t) (hs : s.isLegible depth = true) :
    next depth first (s.write depth first ++ t) = s.kind := by
  cases s with
  | nil => exact h.next
  | name text rest =>
    obtain ⟨hname, -⟩ := Bool.and_eq_true_iff.mp hs
    obtain ⟨c, r, hc, hdigit, hmark⟩ := exists_cons_of_isLegibleName hname
    cases first with
    | true =>
      rw [write_name_true, hc]
      simp [next, hmark, kind]
    | false =>
      rw [write_name_false, hc]
      simp [next, hdigit, kind, (digits_ne_nil depth).symm]
  | argument inner rest =>
    rw [write_argument hs]
    simp only [isReadable, Bool.and_eq_true, Bool.or_eq_true, decide_eq_true_eq,
      Bool.not_eq_true'] at hs
    have hrest : Follows (depth + 1) (rest.write depth false ++ t) :=
      follows_write hd h hs.2 hs.1.2
    have hrun := takeWhile_of_stops (a := digits depth) isDigit_of_mem_digits
      (stops_write_first hrest hs.1.1)
    simp [next, isMark, kind, hrun]

/-- Spellings with the same text go on alike. -/
theorem kind_eq (hd : 1 ≤ depth) (hs : s.isLegible depth = true) (hs' : s'.isLegible depth = true)
    (ht : Follows depth t) (ht' : Follows depth t')
    (h : s.write depth first ++ t = s'.write depth first ++ t') : s.kind = s'.kind := by
  rw [← next_write hd ht hs, h, next_write hd ht' hs']

/-- A legible spelling is read off its text, whatever follows it. -/
theorem write_append_inj (hd : 1 ≤ depth) (hs : s.isLegible depth = true)
    (hs' : s'.isLegible depth = true) (ht : Follows depth t) (ht' : Follows depth t')
    (h : s.write depth first ++ t = s'.write depth first ++ t') : s = s' ∧ t = t' := by
  induction s generalizing s' depth first t t' with
  | nil =>
    have hkind := kind_eq hd hs hs' ht ht' h
    cases s' with
    | nil => exact ⟨rfl, h⟩
    | name text' rest' => simp [kind] at hkind
    | argument inner' rest' => simp [kind] at hkind
  | name text rest ih =>
    have hkind := kind_eq hd hs hs' ht ht' h
    cases s' with
    | nil => simp [kind] at hkind
    | argument inner' rest' => simp [kind] at hkind
    | name text' rest' =>
      simp only [isReadable, Bool.and_eq_true] at hs hs'
      have hbody : text.toList ++ (rest.write depth false ++ t) =
          text'.toList ++ (rest'.write depth false ++ t') := by
        cases first with
        | true => rwa [write_name_true, write_name_true] at h
        | false =>
          rw [write_name_false, write_name_false] at h
          exact (List.cons.inj h).2
      have hname (text : String) (hp : isLegibleName text = true) :
          ∀ c ∈ text.toList, (!isMark c) = true := fun c hc => by
        rw [isMark_of_isLegibleName hp c hc, Bool.not_false]
      obtain ⟨htext, hrest⟩ := append_inj_of_stops (hname text hs.1) (hname text' hs'.1)
        (stops_write ht rest) (stops_write ht' rest') hbody
      obtain ⟨rfl, rfl⟩ := ih hd hs.2 hs'.2 ht ht' hrest
      exact ⟨congrArg (name · rest) (String.toList_inj.mp htext), rfl⟩
  | argument inner rest ihi ihr =>
    have hkind := kind_eq hd hs hs' ht ht' h
    cases s' with
    | nil => simp [kind] at hkind
    | name text' rest' => simp [kind] at hkind
    | argument inner' rest' =>
      rw [write_argument hs, write_argument hs'] at h
      have hbody := List.append_cancel_left (List.cons.inj h).2
      simp only [isReadable, Bool.and_eq_true, Bool.or_eq_true, decide_eq_true_eq,
        Bool.not_eq_true'] at hs hs'
      -- inside the argument it goes on one deeper, up to what follows the argument
      obtain ⟨rfl, hrest⟩ := ihi (by omega) hs.1.1 hs'.1.1 (follows_write hd ht hs.2 hs.1.2)
        (follows_write hd ht' hs'.2 hs'.1.2) hbody
      obtain ⟨rfl, rfl⟩ := ihr hd hs.2 hs'.2 ht ht' hrest
      exact ⟨rfl, rfl⟩

/-- So legible spellings with the same text are the same. -/
theorem write_inj_of_isLegible (hs : s.isLegible 1 = true) (hs' : s'.isLegible 1 = true)
    (h : s.write 1 true = s'.write 1 true) : s = s' := by
  have htext : s.write 1 true ++ [] = s'.write 1 true ++ [] := by rw [h]
  exact (write_append_inj (Nat.le_refl 1) hs hs' .nil .nil htext).1

theorem write_inj (hs : s.isPlain 1 = true) (hs' : s'.isPlain 1 = true)
    (h : s.write 1 true = s'.write 1 true) : s = s' :=
  write_inj_of_isLegible (isLegible_of_isPlain hs) (isLegible_of_isPlain hs') h

end Reading

end Spelling

end TypeDocs
