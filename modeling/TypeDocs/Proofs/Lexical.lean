import TypeDocs.Proofs.Naming
import TypeDocs.Proofs.Script
import TypeDocs.Proofs.Spelled

namespace TypeDocs

open Spelling

/-- The names of members and of their parameters. -/
def TypeInfo.writtenNames (t : TypeInfo) : List String :=
  t.fields.map Field.name ++ t.properties.map Property.name ++ t.methods.map Method.name ++
    (t.methods.flatMap Method.parameters).map Parameter.name ++
    (t.constructors.flatMap Constructor.parameters).map Parameter.name

theorem TypeInfo.forall_writtenNames {t : TypeInfo} {P : String → Prop} :
    (∀ n ∈ t.writtenNames, P n) ↔
      ((((∀ f ∈ t.fields, P f.name) ∧ ∀ p ∈ t.properties, P p.name) ∧ ∀ m ∈ t.methods, P m.name) ∧
        ∀ m ∈ t.methods, ∀ p ∈ m.parameters, P p.name) ∧
      ∀ k ∈ t.constructors, ∀ p ∈ k.parameters, P p.name := by
  simp only [writtenNames, List.forall_mem_append, List.forall_mem_map, List.forall_mem_flatMap]

/-- Everything is named by identifiers, but for arity, the marks of references and arrays. -/
structure Catalog.IsScriptable (c : Catalog) : Prop where
  space : ∀ id info, c.get? id = some info → ∀ n ∈ info.namespaceNames, isIdentifier n = true
  name : ∀ id info, c.get? id = some info → isIdentifier (simpleName info.name) = true
  members : ∀ id info, c.get? id = some info → ∀ n ∈ info.writtenNames, isIdentifier n = true

def IsOneLine (text : String) : Prop :=
  '\n' ∉ text.toList

instance (text : String) : Decidable (IsOneLine text) :=
  inferInstanceAs (Decidable ('\n' ∉ text.toList))

theorem isOneLine_append {a b : String} : IsOneLine (a ++ b) ↔ IsOneLine a ∧ IsOneLine b := by
  rw [IsOneLine, String.toList_append, List.mem_append, not_or]
  rfl

section Characters

def isNameChar (c : Char) : Bool :=
  isIdentifierChar c || c = '.' || c = '*'

def IsNameText (text : String) : Prop :=
  ∀ c ∈ text.toList, isNameChar c = true

variable {a b text : String}

theorem IsNameText.append (ha : IsNameText a) (hb : IsNameText b) : IsNameText (a ++ b) := by
  rw [IsNameText, String.toList_append, List.forall_mem_append]
  exact ⟨ha, hb⟩

theorem IsNameText.join {l : List String} (hl : ∀ s ∈ l, IsNameText s) :
    IsNameText (String.join l) := by
  rw [IsNameText, String.toList_join, List.forall_mem_flatMap]
  exact hl

theorem isNameText_of_isIdentifier (h : isIdentifier text = true) : IsNameText text := by
  intro c hc
  simp [isNameChar, isIdentifierChar_of_mem h c hc]

theorem isNameText_digits (n : Nat) : IsNameText (toString n) := by
  intro c hc
  have hdigit := isDigit_of_mem_digits c hc
  simp [isNameChar, isIdentifierChar, Char.isAlphanum, hdigit]

theorem IsNameText.ne (h : IsNameText text) {d : Char} (hd : isNameChar d = false) :
    d ∉ text.toList := by
  intro hmem
  simp [h d hmem] at hd

theorem IsNameText.isOneLine (h : IsNameText text) : IsOneLine text :=
  h.ne (by decide)

theorem IsNameText.isQuotable (h : IsNameText text) : isQuotable text = true := by
  refine List.all_eq_true.mpr fun c hc => ?_
  have hother {d : Char} (hd : isNameChar d = false) : c ≠ d := by
    rintro rfl
    exact h.ne hd hc
  simp [hother (d := '\x27') (by decide), hother (d := '\x5c') (by decide),
    hother (d := '\n') (by decide)]

/-- Characters of a dotted name are those of its segments and the separators in between. -/
theorem mem_separated {separator ch : Char} {ns : String} :
    ch ∈ separator :: (separated separator ns).toList ↔
      ∃ s ∈ segments ns, ch ∈ separator :: s.toList := by
  rw [← flatMap_segments, List.mem_flatMap]

theorem separated_point (ns : String) : separated '.' ns = ns := by
  have hsame : (fun c : Char => if c = '.' then '.' else c) = id := by
    funext c
    split <;> simp_all
  rw [separated, hsame, List.map_id, String.ofList_toList]

theorem IsNameText.segment (h : IsNameText text) {s : String} (hs : s ∈ segments text) :
    IsNameText s := by
  intro c hc
  have hmem : c ∈ '.' :: (separated '.' text).toList :=
    mem_separated.mpr ⟨s, hs, List.mem_cons_of_mem _ hc⟩
  rw [separated_point, List.mem_cons] at hmem
  rcases hmem with rfl | hmem
  · decide
  · exact h c hmem

theorem isNameText_separated {separator : Char} {ns : String}
    (hseparator : isNameChar separator = true) (h : ∀ s ∈ segments ns, isIdentifier s = true) :
    IsNameText (separated separator ns) := by
  intro c hc
  obtain ⟨s, hs, hmem⟩ := mem_separated.mp (List.mem_cons_of_mem separator hc)
  rcases List.mem_cons.mp hmem with rfl | hmem
  · exact hseparator
  · exact isNameText_of_isIdentifier (h s hs) c hmem

end Characters

namespace Catalog

variable {c : Catalog} {id : TypeId}

/-- The namespace in front of a name, if there is one and it is asked for. -/
theorem IsScriptable.isNameText_space (hc : c.IsScriptable) {info : TypeInfo}
    (hi : c.get? id = some info) (style : NameStyle) : IsNameText (match info.properNamespace with
      | some ns =>
        if style.withNamespace then separated style.separator ns ++ style.separator.toString else ""
      | none => "") := by
  have hseparator : isNameChar style.separator = true := by
    unfold NameStyle.separator
    split <;> decide
  have hspace := hc.space id info hi
  unfold TypeInfo.namespaceNames at hspace
  cases hns : info.properNamespace with
  | none => simp [IsNameText]
  | some ns =>
    rw [hns] at hspace
    dsimp only
    split
    · exact (isNameText_separated hseparator hspace).append (by simpa [IsNameText] using hseparator)
    · simp [IsNameText]

theorem IsScriptable.nameWithin (hc : c.IsScriptable) (room : List TypeId) (style : NameStyle)
    (id : TypeId) : Ensures (c.nameWithin room style id) IsNameText := by
  fun_induction Catalog.nameWithin c room style id with
  | case1 room style id ihe iha =>
    refine (Ensures.self _).bind fun info hi => ?_
    rw [lookup_eq_ok] at hi
    split
    · rename_i hid
      have hseparator : IsNameText style.separator.toString := by
        unfold NameStyle.separator
        split <;> simp [IsNameText, isNameChar]
      have hname := isNameText_of_isIdentifier (hc.name id info hi)
      have hmark : IsNameText ("*" ++ toString style.depth) :=
        IsNameText.append (by simp [IsNameText, isNameChar]) (isNameText_digits _)
      have hspace := hc.isNameText_space hi style
      dsimp only
      split
      all_goals
        refine .after fun chain => ?_
        refine (Ensures.mapM fun e _ => ihe hid e).bind fun outer houter => ?_
        refine (Ensures.mapM fun a _ => iha hid a).bind fun arguments harguments => .pure ?_
        refine ((hspace.append (.join ?_)).append hname).append (.join ?_)
        · exact List.forall_mem_map.mpr fun s hs => (houter s hs).append hseparator
        · exact List.forall_mem_map.mpr fun s hs => hmark.append (harguments s hs)
    · exact .error _

theorem IsScriptable.scriptName (hc : c.IsScriptable) {n : String} (h : c.ScriptName id n) :
    IsOneLine n := by
  induction h with
  | whole hs hd hn => exact (hc.nameWithin _ _ _ _ hn).isOneLine
  | nullable hs hn ih => exact ih
  | array hs hn ih => exact isOneLine_append.mpr ⟨ih, by decide⟩
  | sequence hs hn ih => exact isOneLine_append.mpr ⟨ih, by decide⟩
  | mapping hs hk hv ihk ihv =>
    simp only [isOneLine_append]
    exact ⟨⟨⟨⟨by decide, ihk⟩, by decide⟩, ihv⟩, by decide⟩

theorem IsScriptable.defaultTable (hc : c.IsScriptable) (root : String) :
    Ensures (c.defaultTable root id) fun path => IsTable (tableExpression path) := by
  refine (Ensures.self _).bind fun info hi => ?_
  rw [lookup_eq_ok] at hi
  refine (hc.nameWithin _ _ _).bind fun name hname => .pure ⟨_, ?_, ?_, rfl⟩
  · simp [tablePath, segments, List.splitOn_ne_nil]
  · have hspace := hc.space id info hi
    rw [tablePath, List.forall_mem_append]
    refine ⟨?_, fun s hs => (hname.segment hs).isQuotable⟩
    unfold TypeInfo.namespaceNames TypeInfo.properNamespace at hspace
    cases hns : info.namespaceName.filter (· ≠ "") with
    | none => simp
    | some ns =>
      rw [hns] at hspace
      dsimp only
      split
      · simp
      · exact fun s hs => (isNameText_of_isIdentifier (hspace s hs)).isQuotable

end Catalog

end TypeDocs
