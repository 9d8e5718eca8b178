import TypeDocs.Proofs.Layout

namespace TypeDocs.Markup

variable {s rest more : List Char}

/-- A mark that stands before a longer text stands before the text, if it fits into it. -/
theorem isPrefixOf_append {mark : List Char} (h : mark.length ≤ s.length) (more : List Char) :
    mark.isPrefixOf (s ++ more) = mark.isPrefixOf s := by
  rw [Bool.eq_iff_iff, List.isPrefixOf_iff_prefix, List.isPrefixOf_iff_prefix]
  constructor
  · intro hmark
    exact List.prefix_of_prefix_length_le hmark (List.prefix_append s more) h
  · intro hmark
    exact hmark.trans (List.prefix_append s more)

/-- A cut takes place within the text, mark and all. -/
theorem isInfix_of_cut {mark before after : List Char} (h : cut mark s = some (before, after)) :
    mark <:+: s := by
  induction s generalizing before after with
  | nil => simp [cut] at h
  | cons c s ih =>
    rw [cut] at h
    split at h
    · rename_i hmark
      exact (List.isPrefixOf_iff_prefix.mp hmark).isInfix
    · obtain ⟨⟨b, a⟩, hc, -⟩ := Option.map_eq_some_iff.mp h
      exact (ih hc).trans (List.infix_cons List.infix_rfl)

theorem cut_append_right {mark before after : List Char}
    (h : cut mark s = some (before, after)) (more : List Char) :
    cut mark (s ++ more) = some (before, after ++ more) := by
  induction s generalizing before after with
  | nil => simp [cut] at h
  | cons c s ih =>
    have hlength : mark.length ≤ (c :: s).length := (isInfix_of_cut h).length_le
    rw [List.cons_append, cut, ← List.cons_append, isPrefixOf_append hlength]
    rw [cut] at h
    split at h
    · rename_i hmark
      obtain ⟨rfl, rfl⟩ := Prod.mk.inj (Option.some.inj h)
      rw [if_pos hmark, List.drop_append_of_le_length hlength]
    · rename_i hmark
      obtain ⟨⟨b, a⟩, hc, hp⟩ := Option.map_eq_some_iff.mp h
      obtain ⟨rfl, rfl⟩ := Prod.mk.inj hp
      rw [if_neg hmark, ih hc]
      rfl

theorem cutTag_append_right {quote : Option Char} {before after : List Char}
    (h : cutTag quote s = .ok (before, after)) (more : List Char) :
    cutTag quote (s ++ more) = .ok (before, after ++ more) := by
  induction s generalizing quote before after with
  | nil => simp [cutTag] at h
  | cons c s ih =>
    rw [List.cons_append, cutTag]
    rw [cutTag] at h
    split at h
    · rename_i hend
      obtain ⟨rfl, rfl⟩ := Prod.mk.inj (Except.ok.inj h)
      rw [if_pos hend]
    · rename_i hend
      cases hc : cutTag (quoteAfter quote c) s with
      | error q => simp [hc, Except.map] at h
      | ok r =>
        simp only [hc, Except.map, Except.ok.injEq, Prod.mk.injEq] at h
        obtain ⟨rfl, rfl⟩ := h
        rw [if_neg hend, ih hc]
        rfl

/-- A tag has its end within the text. -/
theorem mem_of_cutTag {quote : Option Char} {before after : List Char}
    (h : cutTag quote s = .ok (before, after)) : '>' ∈ s := by
  induction s generalizing quote before after with
  | nil => simp [cutTag] at h
  | cons c s ih =>
    rw [cutTag] at h
    split at h
    · rename_i hend
      simp [hend.2]
    · cases hc : cutTag (quoteAfter quote c) s with
      | error q => simp [hc, Except.map] at h
      | ok r => exact List.mem_cons_of_mem c (ih hc)

section Declarations

/-- A mark without `>` is not split between a text that holds `>` and what follows. -/
theorem isPrefixOf_append_of_mem {mark : List Char} (hs : '>' ∈ s) (hmark : '>' ∉ mark)
    (more : List Char) : mark.isPrefixOf (s ++ more) = mark.isPrefixOf s := by
  by_cases hlength : mark.length ≤ s.length
  · exact isPrefixOf_append hlength more
  · -- the text would have to be part of the mark, and its `>` with it
    have hnot (t : List Char) (hst : s <+: t) : mark.isPrefixOf t = false := by
      rw [Bool.eq_false_iff]
      intro h
      have hshort := List.prefix_of_prefix_length_le hst (List.isPrefixOf_iff_prefix.mp h)
        (Nat.le_of_not_le hlength)
      exact hmark (hshort.subset hs)
    rw [hnot _ (List.prefix_append s more), hnot _ List.prefix_rfl]

/-- The ends of declarations inside a document type. -/
theorem cutAfter_append {mark : List Char} {n : Nat} (hmark : '>' ∈ mark)
    (h : (cut mark (s.drop n)).map (·.2) = some rest) (more : List Char) :
    '>' ∈ s ∧ (cut mark ((s ++ more).drop n)).map (·.2) = some (rest ++ more) := by
  obtain ⟨⟨before, after⟩, hc, rfl⟩ := Option.map_eq_some_iff.mp h
  have hmem : '>' ∈ s.drop n := (isInfix_of_cut hc).subset hmark
  have hn : n ≤ s.length := by
    refine Nat.le_of_not_lt fun hlt => ?_
    rw [List.drop_eq_nil_of_le (by omega)] at hmem
    simp at hmem
  refine ⟨List.mem_of_mem_drop hmem, ?_⟩
  rw [List.drop_append_of_le_length hn, cut_append_right hc]
  rfl

theorem afterDeclaration_append (h : afterDeclaration s = some rest) (more : List Char) :
    afterDeclaration (s ++ more) = some (rest ++ more) := by
  have hkeep (hs : '>' ∈ s) (mark : List Char) (hmark : '>' ∉ mark) :=
    isPrefixOf_append_of_mem hs hmark more
  have hkeywords (hs : '>' ∈ s) : ["!ENTITY", "!ATTLIST", "!NOTATION"].any
        (·.toList.isPrefixOf (s ++ more)) =
      ["!ENTITY", "!ATTLIST", "!NOTATION"].any (·.toList.isPrefixOf s) := by
    simp only [List.any_cons, List.any_nil]
    rw [hkeep hs _ (by decide), hkeep hs _ (by decide), hkeep hs _ (by decide)]
  unfold afterDeclaration at h ⊢
  split at h
  · rename_i hcomment
    obtain ⟨hs, hcut⟩ := cutAfter_append (by decide) h more
    rw [hkeep hs _ (by decide), if_pos hcomment, hcut]
  · rename_i hcomment
    split at h
    · rename_i hinstruction
      obtain ⟨hs, hcut⟩ := cutAfter_append (by decide) h more
      rw [hkeep hs _ (by decide), if_neg hcomment, hkeep hs _ (by decide), if_pos hinstruction,
        hcut]
    · rename_i hinstruction
      split at h
      · rename_i hkeyword
        cases hc : cutTag none s with
        | error q => simp [hc, Except.toOption] at h
        | ok r =>
          simp only [hc, Except.toOption, Option.map_some, Option.some.injEq] at h
          have hs := mem_of_cutTag hc
          rw [hkeep hs _ (by decide), if_neg hcomment, hkeep hs _ (by decide),
            if_neg hinstruction, hkeywords hs, if_pos hkeyword, cutTag_append_right hc, ← h]
          rfl
      · rename_i hkeyword
        obtain ⟨hs, hcut⟩ := cutAfter_append (n := 0) (by decide) h more
        rw [hkeep hs _ (by decide), if_neg hcomment, hkeep hs _ (by decide), if_neg hinstruction,
          hkeywords hs, if_neg hkeyword]
        exact hcut

theorem afterSubset_append (h : afterSubset s = some rest) (more : List Char) :
    afterSubset (s ++ more) = some (rest ++ more) := by
  fun_induction afterSubset s with
  | case1 => simp at h
  | case2 r =>
    rw [List.cons_append, afterSubset]
    exact (cutAfter_append (n := 0) (by decide) h more).2
  | case3 r hd => simp at h
  | case4 r after hd ih =>
    rw [List.cons_append, afterSubset]
    split
    · rename_i hnone
      simp [afterDeclaration_append hd] at hnone
    · rename_i after' hsome
      obtain rfl : after ++ more = after' :=
        Option.some.inj ((afterDeclaration_append hd more).symm.trans hsome)
      exact ih h
  | case5 c r hbracket htag ih =>
    rw [List.cons_append, afterSubset]
    · exact ih h
    · exact hbracket
    · exact htag

theorem afterDoctype_append {quote : Option Char} (h : afterDoctype quote s = some rest)
    (more : List Char) : afterDoctype quote (s ++ more) = some (rest ++ more) := by
  induction s generalizing quote with
  | nil => simp [afterDoctype] at h
  | cons c s ih =>
    rw [List.cons_append, afterDoctype]
    rw [afterDoctype] at h
    split at h
    · rename_i hend
      obtain rfl := Option.some.inj h
      rw [if_pos hend]
    · rename_i hend
      split at h
      · rename_i hsubset
        rw [if_neg hend, if_pos hsubset]
        exact afterSubset_append h more
      · rename_i hsubset
        rw [if_neg hend, if_neg hsubset]
        exact ih h

/-- A document type has more than blanks before its end. -/
theorem dropWhile_ne_nil_of_afterDoctype (h : afterDoctype none s = some rest) :
    s.dropWhile isBlank ≠ [] := by
  induction s with
  | nil => simp [afterDoctype] at h
  | cons c s ih =>
    by_cases hc : isBlank c = true
    · have hother (d : Char) (hd : isBlank d = false) : c ≠ d := by
        rintro rfl
        simp [hc] at hd
      have hquote : quoteAfter none c = none := by
        simp [quoteAfter, isQuote, hother '\x22' (by decide), hother '\x27' (by decide)]
      rw [afterDoctype, if_neg (by simp [hother '>' (by decide)]),
        if_neg (by simp [hother '[' (by decide)]), hquote] at h
      rw [List.dropWhile_cons_of_pos hc]
      exact ih h
    · rw [List.dropWhile_cons_of_neg hc]
      exact List.cons_ne_nil c s

/-- Comments and character data: a construct that begins with a mark and ends at the next ending. -/
theorem cut_marked_append {mark ending before : List Char} {n : Nat} (hn : n ≤ mark.length)
    (hmark : mark.isPrefixOf s = true) (hc : cut ending (s.drop n) = some (before, rest))
    (more : List Char) : mark.isPrefixOf (s ++ more) = true ∧
      cut ending ((s ++ more).drop n) = some (before, rest ++ more) := by
  have hlength := (List.isPrefixOf_iff_prefix.mp hmark).length_le
  rw [isPrefixOf_append hlength, List.drop_append_of_le_length (Nat.le_trans hn hlength)]
  exact ⟨hmark, cut_append_right hc more⟩

/-- Document types: keyword, name and end all stand within the text. -/
theorem doctype_append (hkeyword : (s.take 7).map Char.toUpper = doctypeKeyword)
    (hd : afterDoctype none (s.drop 7) = some rest) (more : List Char) :
    (s ++ more).take 7 = s.take 7 ∧
      afterDoctype none ((s ++ more).drop 7) = some (rest ++ more) ∧
      (((s ++ more).drop 7).dropWhile isBlank).head? =
        ((s.drop 7).dropWhile isBlank).head? := by
  have hlength : 7 ≤ s.length := by
    have hmin : min 7 s.length = 7 := by
      rw [← List.length_take, ← List.length_map, hkeyword]
      decide
    omega
  have hne := dropWhile_ne_nil_of_afterDoctype hd
  rw [List.take_append_of_le_length hlength, List.drop_append_of_le_length hlength,
    afterDoctype_append hd]
  refine ⟨rfl, rfl, ?_⟩
  rw [List.dropWhile_append, if_neg (by simpa using hne), List.head?_append,
    List.head?_eq_some_head hne, Option.some_or]

theorem afterExclamation_append (h : afterExclamation s = .ok rest) (more : List Char) :
    afterExclamation (s ++ more) = .ok (rest ++ more) := by
  unfold afterExclamation at h
  split at h
  · split at h
    · rename_i hmark
      split at h
      · rename_i hc
        obtain rfl := Except.ok.inj h
        obtain ⟨hmark', hc'⟩ := cut_marked_append (by decide) hmark hc more
        rw [List.cons_append] at hmark' hc' ⊢
        simp only [afterExclamation, if_pos hmark', hc']
      · simp at h
    · simp at h
  · split at h
    · rename_i hmark
      split at h
      · rename_i hc
        obtain rfl := Except.ok.inj h
        obtain ⟨hmark', hc'⟩ := cut_marked_append (by decide) hmark hc more
        rw [List.cons_append] at hmark' hc' ⊢
        simp only [afterExclamation, if_pos hmark', hc']
      · simp at h
    · simp at h
  · rename_i c r hcomment hdata
    split at h
    · rename_i hc
      split at h
      · rename_i hkeyword
        split at h
        · simp at h
        · rename_i after hd
          split at h
          · simp at h
          · rename_i hname
            obtain rfl := Except.ok.inj h
            obtain ⟨htake, hdoctype, hhead⟩ := doctype_append hkeyword hd more
            rw [List.cons_append] at htake hdoctype hhead ⊢
            rw [afterExclamation, if_pos hc, htake, if_pos hkeyword, hdoctype]
            · simp only [hhead, if_neg hname]
            · exact hcomment
            · exact hdata
      · simp at h
    · simp at h
  · simp at h

theorem afterQuestion_append (h : afterQuestion s = .ok rest) (more : List Char) :
    afterQuestion (s ++ more) = .ok (rest ++ more) := by
  unfold afterQuestion at h ⊢
  simp only at h ⊢
  split at h
  · simp at h
  · rename_i hhead
    split at h
    · rename_i hc
      obtain rfl := Except.ok.inj h
      have hne : s ≠ [] := by
        rintro rfl
        simp [cut] at hc
      rw [List.head?_append, List.head?_eq_some_head hne, Option.some_or,
        ← List.head?_eq_some_head hne, if_neg hhead, cut_append_right hc]
    · simp at h

end Declarations

section Tokens

theorem readMarkup_append {token : Option Token} (h : readMarkup s = .ok (token, rest))
    (more : List Char) : readMarkup (s ++ more) = .ok (token, rest ++ more) := by
  unfold readMarkup at h
  split at h
  · simp at h
  · rename_i r
    cases hr : afterExclamation r with
    | error fault => simp [hr, Except.map] at h
    | ok after =>
      simp only [hr, Except.map, Except.ok.injEq, Prod.mk.injEq] at h
      obtain ⟨rfl, rfl⟩ := h
      rw [List.cons_append, readMarkup, afterExclamation_append hr]
      rfl
  · rename_i r
    cases hr : afterQuestion r with
    | error fault => simp [hr, Except.map] at h
    | ok after =>
      simp only [hr, Except.map, Except.ok.injEq, Prod.mk.injEq] at h
      obtain ⟨rfl, rfl⟩ := h
      rw [List.cons_append, readMarkup, afterQuestion_append hr]
      rfl
  · split at h
    · simp at h
    · rename_i hc
      simp only [Except.ok.injEq, Prod.mk.injEq] at h
      obtain ⟨rfl, rfl⟩ := h
      rw [List.cons_append, readMarkup, cutTag_append_right hc]
  · rename_i hne hexclamation hquestion hslash
    split at h
    · simp at h
    · rename_i hc
      simp only [Except.ok.injEq, Prod.mk.injEq] at h
      obtain ⟨rfl, rfl⟩ := h
      obtain ⟨c, r, rfl⟩ := List.exists_cons_of_ne_nil hne
      have hc' := cutTag_append_right hc more
      rw [List.cons_append] at hc' ⊢
      rw [readMarkup, hc']
      · simp
      all_goals
        rintro t ht
        obtain ⟨rfl, -⟩ := List.cons.inj ht
      · exact hexclamation r rfl
      · exact hquestion r rfl
      · exact hslash r rfl

theorem closesReference_append (h : closesReference s = true) (more : List Char) :
    closesReference (s ++ more) = true := by
  rw [closesReference, beq_iff_eq] at h ⊢
  rw [List.find?_append, h, Option.some_or]

/-- A text without a fault is scanned as before, and then the text after it. -/
theorem scan_append (h : (scan s).2 = none) (more : List Char) :
    scan (s ++ more) = ((scan s).1 ++ (scan more).1, (scan more).2) := by
  fun_induction scan s with
  | case1 => rfl
  | case2 r fault hr => simp at h
  | case3 r token after hr tokens fault hscan ih =>
    rw [hscan] at ih
    rw [List.cons_append, scan_markup (readMarkup_append hr more), ih h, List.append_assoc]
  | case4 r hclosed ih =>
    rw [List.cons_append, scan, if_pos (closesReference_append hclosed more), ih h]
  | case5 r hopen => simp at h
  | case6 c r htag hreference ih =>
    rw [List.cons_append, scan, ih h]
    · exact htag
    · exact hreference

/-- A byte order mark is text like any other, so it makes no difference to what is scanned. -/
theorem scan_withoutMark (s : List Char) : scan (withoutMark s) = scan s := by
  unfold withoutMark
  split
  · rw [scan]
    all_goals decide
  · rfl

/-- What is read of a text is what its tokens nest into, whether or not it begins with a mark. -/
theorem read_eq (text : String) : read text =
    ⟨.ofTokens (nest [] (scan text.toList).1).tokens, (nest [] (scan text.toList).1).unclosed,
      (nest [] (scan text.toList).1).fault.or (scan text.toList).2⟩ := by
  rw [read, scan_withoutMark]

end Tokens

end TypeDocs.Markup
