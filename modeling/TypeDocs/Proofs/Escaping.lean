import TypeDocs.Catalog.Reading
import TypeDocs.Proofs.Outcome

namespace TypeDocs.Markup

/-- A character of a value as it is written. -/
def escapeChar (c : Char) : List Char :=
  match c with
  | '&' => "&amp;".toList
  | '<' => "&lt;".toList
  | '>' => "&gt;".toList
  | '\x22' => "&quot;".toList
  | '\x27' => "&apos;".toList
  | c => [c]

def escape (s : List Char) : List Char :=
  s.flatMap escapeChar

/-- A character is written as a reference by name or as itself. -/
theorem escapeChar_cases (c : Char) :
    (∃ name, named name = some c ∧ escapeChar c = '&' :: (name ++ [';'])) ∨
      (c ≠ '&' ∧ c ≠ '\x22' ∧ escapeChar c = [c]) := by
  unfold escapeChar
  split
  · exact .inl ⟨"amp".toList, rfl, rfl⟩
  · exact .inl ⟨"lt".toList, rfl, rfl⟩
  · exact .inl ⟨"gt".toList, rfl, rfl⟩
  · exact .inl ⟨"quot".toList, rfl, rfl⟩
  · exact .inl ⟨"apos".toList, rfl, rfl⟩
  · rename_i hamp _ _ hquote _
    exact .inr ⟨hamp, hquote, rfl⟩

theorem ne_of_isAlpha {c d : Char} (hc : c.isAlpha = true) (hd : d.isAlpha = false) : c ≠ d := by
  rintro rfl
  exact absurd hc (by rw [hd]; decide)

/-- Characters go by names of letters, so a reference reaches to its own semicolon. -/
theorem isAlpha_of_named {name : List Char} {c : Char} (h : named name = some c) :
    ∀ x ∈ name, x.isAlpha = true := by
  rw [← List.all_eq_true]
  unfold named at h
  split at h
  all_goals first | decide | simp at h

theorem referent_of_named {name : List Char} {c : Char} (h : named name = some c) (start : Nat) :
    referent start name = .ok c := by
  unfold referent
  split
  · simp [named] at h
  · rw [h]

/-- No quote is left to end the value. -/
theorem quote_notMem_escape (s : List Char) : '\x22' ∉ escape s := by
  rw [escape, List.mem_flatMap]
  rintro ⟨c, -, hmem⟩
  obtain ⟨name, hname, he⟩ | ⟨-, hc, he⟩ := escapeChar_cases c
  · rw [he] at hmem
    simp only [List.mem_cons, List.mem_append, List.not_mem_nil, or_false] at hmem
    rcases hmem with h | h | h
    · simp at h
    · exact ne_of_isAlpha (isAlpha_of_named hname _ h) (by decide) rfl
    · simp at h
  · rw [he, List.mem_singleton] at hmem
    exact hc hmem.symm

theorem decodeFrom_reference {name : List Char} {c : Char} (h : named name = some c)
    (size offset : Nat) (s : List Char) :
    decodeFrom size offset ('&' :: (name ++ ';' :: s)) =
      (decodeFrom size (offset + byteSize name + 2) s).map (c :: ·) := by
  have hplain : ∀ x ∈ name, (!endsReference x) = true := by
    intro x hx
    have hx' := isAlpha_of_named h x hx
    simp [endsReference, ne_of_isAlpha hx']
  have htake : (name ++ ';' :: s).takeWhile (!endsReference ·) = name := by
    rw [List.takeWhile_append_of_pos hplain]
    simp [endsReference]
  have hdrop : (name ++ ';' :: s).dropWhile (!endsReference ·) = ';' :: s := by
    rw [List.dropWhile_append_of_pos hplain]
    simp [endsReference]
  rw [decodeFrom]
  split
  · rename_i rest hrest
    obtain rfl : s = rest := by simpa [hdrop] using hrest
    rw [htake, referent_of_named h]
    cases decodeFrom size (offset + byteSize name + 2) s <;> rfl
  · rename_i hne
    exact absurd hdrop (hne s)

/-- A value is read as it was meant. -/
theorem decode_escape (s : List Char) : decode (escape s) = .ok s := by
  have hfrom (size offset : Nat) : decodeFrom size offset (escape s) = .ok s := by
    induction s generalizing offset with
    | nil => simp [escape, decodeFrom]
    | cons c s ih =>
      rw [escape, List.flatMap_cons, ← escape]
      obtain ⟨name, hname, he⟩ | ⟨hc, -, he⟩ := escapeChar_cases c
      · rw [he, List.cons_append, List.append_assoc]
        simp [decodeFrom_reference hname, ih, Except.map]
      · rw [he, List.singleton_append, decodeFrom, ih]
        · rfl
        · exact hc
  exact hfrom _ 0

/-- The text up to a mark that is not in it. -/
theorem cut_append {mark : Char} {s : List Char} (h : mark ∉ s) (rest : List Char) :
    cut [mark] (s ++ mark :: rest) = some (s, rest) := by
  induction s with
  | nil => simp [cut]
  | cons c s ih =>
    obtain ⟨hc, hs⟩ := not_or.mp (fun hmem => h (List.mem_cons.mpr hmem))
    simp [cut, ih hs, hc]

/-- Letters are all that names of elements and attributes need. -/
def IsWord (name : String) : Prop :=
  name ≠ "" ∧ name.toList.all Char.isAlpha = true

instance (name : String) : Decidable (IsWord name) :=
  inferInstanceAs (Decidable (_ ∧ _))

theorem IsWord.isAlpha {name : String} (h : IsWord name) : ∀ c ∈ name.toList, c.isAlpha = true :=
  List.all_eq_true.mp h.2

theorem isBlank_of_isAlpha {c : Char} (h : c.isAlpha = true) : isBlank c = false := by
  simp [isBlank, ne_of_isAlpha h]

theorem isNameChar_of_isAlpha {c : Char} (h : c.isAlpha = true) : isNameChar c = true := by
  simp [isNameChar, isBlank_of_isAlpha h, ne_of_isAlpha h]

/-- A word begins with a letter and goes on with letters. -/
theorem IsWord.exists_cons {name : String} (h : IsWord name) :
    ∃ c s, name.toList = c :: s ∧ c.isAlpha = true ∧ ∀ x ∈ s, x.isAlpha = true := by
  have hall := h.isAlpha
  cases hs : name.toList with
  | nil => exact absurd (String.toList_eq_nil_iff.mp hs) h.1
  | cons c s =>
    rw [hs] at hall
    exact ⟨c, s, rfl, List.forall_mem_cons.mp hall⟩

namespace RawAttribute

/-- A quote that the value can stand between. -/
def quote (a : RawAttribute) : Char :=
  if '\x22' ∈ a.value then '\x27' else '\x22'

/-- An attribute as text, with a blank before it. -/
def write (a : RawAttribute) : List Char :=
  ' ' :: (a.name.toList ++ '=' :: a.quote :: (a.value ++ [a.quote]))

/-- An attribute that can be read: its name reaches to an equals sign and its value to a quote. -/
structure IsWritable (a : RawAttribute) : Prop where
  name : ∃ c s, a.name.toList = c :: s ∧ isBlank c = false ∧ ∀ x ∈ s, isNameChar x = true
  value : a.quote ∉ a.value

theorem quote_isQuote (a : RawAttribute) : isQuote a.quote = true ∧ isBlank a.quote = false := by
  unfold quote
  split <;> decide

end RawAttribute

theorem readAttribute_write {a : RawAttribute} (h : a.IsWritable) {used : List String}
    (hused : a.name ∉ used) (rest : List Char) :
    readAttribute used (a.write ++ rest) = some (.ok a, rest) := by
  obtain ⟨⟨c, s, hs, hc, hchars⟩, hvalue⟩ := h
  obtain ⟨hquote, hblank⟩ := a.quote_isQuote
  have hdrop : (a.write ++ rest).dropWhile isBlank =
      c :: (s ++ '=' :: a.quote :: (a.value ++ a.quote :: rest)) := by
    simp [RawAttribute.write, hs, hc, show isBlank ' ' = true from rfl]
  have htake (v : List Char) : (s ++ '=' :: v).takeWhile isNameChar = s := by
    rw [List.takeWhile_append_of_pos hchars]
    simp [isNameChar]
  have hequals (v : List Char) : ((s ++ '=' :: v).dropWhile isNameChar).dropWhile isBlank =
      '=' :: v := by
    rw [List.dropWhile_append_of_pos hchars]
    simp [isNameChar, isBlank]
  have hread : readValue used a.name (a.quote :: (a.value ++ a.quote :: rest)) = (.ok a, rest) := by
    rw [readValue, if_neg hused, List.dropWhile_cons_of_neg (by simp [hblank])]
    simp only [hquote, if_pos, cut_append hvalue rest]
  rw [readAttribute, hdrop]
  simp only [htake, hequals]
  rw [← hs, String.ofList_toList, hread]

theorem attributeReports_cons {used : List String} {s rest : List Char} {a : AttributeReport}
    (h : readAttribute used s = some (a, rest)) :
    attributeReports used s = a :: attributeReports ((claimedName a).toList ++ used) rest := by
  rw [attributeReports]
  split
  · simp_all
  · rename_i h'
    obtain ⟨rfl, rfl⟩ := Prod.mk.inj (Option.some.inj (h.symm.trans h'))
    rfl

/-- Attributes of different names are found one by one. -/
theorem attributeReports_write {as : List RawAttribute} (h : ∀ a ∈ as, a.IsWritable)
    (hnodup : (as.map RawAttribute.name).Nodup) (used : List String)
    (hused : ∀ a ∈ as, a.name ∉ used) :
    attributeReports used (as.flatMap RawAttribute.write) = as.map .ok := by
  induction as generalizing used with
  | nil => simp [attributeReports, readAttribute]
  | cons a as ih =>
    rw [List.forall_mem_cons] at h hused
    rw [List.map_cons, List.nodup_cons] at hnodup
    rw [List.flatMap_cons, attributeReports_cons (readAttribute_write h.1 hused.1 _),
      List.map_cons]
    have hused' : ∀ b ∈ as, b.name ∉ a.name :: used := by
      intro b hb hmem
      rcases List.mem_cons.mp hmem with heq | hmem
      · exact hnodup.1 (heq ▸ List.mem_map_of_mem hb)
      · exact hused.2 b hb hmem
    exact congrArg _ (ih h.2 hnodup.2 _ hused')

namespace Attribute

/-- An attribute with its value as it is written. -/
def escaped (a : Attribute) : RawAttribute :=
  ⟨a.name, escape a.value.toList⟩

/-- An attribute as text, with a blank before it. -/
def write (a : Attribute) : List Char :=
  ' ' :: (a.name.toList ++ '=' :: '\x22' :: (a.escaped.value ++ ['\x22']))

theorem decode_escaped (a : Attribute) : a.escaped.decode = .ok a := by
  simp [RawAttribute.decode, escaped, decode_escape]

/-- A value without quotes of its own stands between double ones. -/
theorem write_eq (a : Attribute) : a.write = a.escaped.write := by
  have hquote : a.escaped.quote = '\x22' := if_neg (quote_notMem_escape _)
  rw [write, RawAttribute.write, hquote]
  rfl

theorem escaped_isWritable {a : Attribute} (h : IsWord a.name) : a.escaped.IsWritable := by
  obtain ⟨c, s, hs, hc, hletters⟩ := h.exists_cons
  refine ⟨⟨c, s, hs, isBlank_of_isAlpha hc, fun x hx => isNameChar_of_isAlpha (hletters x hx)⟩, ?_⟩
  rw [RawAttribute.quote, escaped, if_neg (quote_notMem_escape _)]
  exact quote_notMem_escape _

end Attribute

/-- Names that the attributes of one element can have. -/
def AreNames (names : List String) : Prop :=
  names.Nodup ∧ ∀ n ∈ names, IsWord n

instance (names : List String) : Decidable (AreNames names) :=
  inferInstanceAs (Decidable (_ ∧ _))

/-- Those attributes that there is a value for. -/
def present (l : List (String × Option String)) : List Attribute :=
  l.filterMap fun (name, value) => value.map (Attribute.mk name)

/-- The tag of an element with these attributes. -/
def element (name : String) (l : List (String × Option String)) : Tag :=
  ⟨name, (present l).flatMap Attribute.write⟩

theorem present_cons (name : String) (value : Option String) (l : List (String × Option String)) :
    present ((name, value) :: l) = (value.map (Attribute.mk name)).toList ++ present l := by
  cases value <;> rfl

theorem names_present (l : List (String × Option String)) :
    ((present l).map Attribute.name).Sublist (l.map Prod.fst) := by
  induction l with
  | nil => exact .slnil
  | cons p l ih =>
    obtain ⟨name, _ | value⟩ := p
    · exact ih.cons name
    · exact ih.cons_cons name

theorem reports_element (name : String) {l : List (String × Option String)}
    (h : AreNames (l.map Prod.fst)) :
    (element name l).reports = (present l).map fun a => .ok a.escaped := by
  have hnames := names_present l
  have hbody : (element name l).body =
      ((present l).map Attribute.escaped).flatMap RawAttribute.write := by
    rw [element, List.flatMap_map, show Attribute.write = _ from funext Attribute.write_eq]
  rw [Tag.reports, hbody, attributeReports_write, List.map_map]
  · rfl
  · rw [List.forall_mem_map]
    intro a ha
    exact Attribute.escaped_isWritable (h.2 a.name (hnames.subset (List.mem_map_of_mem ha)))
  · rw [List.map_map]
    exact hnames.nodup h.1
  · simp

/-- The attributes of an element are read as they were meant. -/
theorem attributes_element (name : String) {l : List (String × Option String)}
    (h : AreNames (l.map Prod.fst)) :
    Reader.attributes (element name l) = .ok (present l) := by
  have hdecode (as : List Attribute) :
      ((as.map fun a => (.ok a.escaped : AttributeReport)).filterMap Except.toOption).mapM
        RawAttribute.decode = .ok as := by
    induction as with
    | nil => rfl
    | cons a as ih =>
      have hfirst : Except.toOption (.ok a.escaped : AttributeReport) = some a.escaped := rfl
      rw [List.map_cons, List.filterMap_cons_some hfirst, List.mapM_cons, ih,
        Attribute.decode_escaped]
      rfl
  rw [Reader.attributes, Tag.attributes, reports_element name h, hdecode]
  rfl

end TypeDocs.Markup
