import TypeDocs.Document.Line
import TypeDocs.Name.Identifier
import TypeDocs.Name.Table
import TypeDocs.Proofs.Spelling

namespace TypeDocs

open Spelling

section Names

def isIdentifierChar (c : Char) : Bool :=
  c.isAlphanum || c = '_'

/-- A letter or an underscore and then letters, digits and underscores. -/
def isIdentifier (text : String) : Bool :=
  match text.toList with
  | [] => false
  | first :: rest => (first.isAlpha || first = '_') && rest.all isIdentifierChar

/-- Identifiers that the language does not reserve. -/
def isVariable (text : String) : Bool :=
  isIdentifier text && !isKeyword text

/-- Texts that can stand between quotes as they are. -/
def isQuotable (text : String) : Bool :=
  text.toList.all fun c => c ∉ ['\x27', '\x5c', '\n']

theorem isIdentifierChar_of_mem {text : String} (h : isIdentifier text = true) :
    ∀ c ∈ text.toList, isIdentifierChar c = true := by
  unfold isIdentifier at h
  split at h
  · simp at h
  · rename_i first rest hs
    rw [hs, List.forall_mem_cons]
    simp only [Bool.and_eq_true, Bool.or_eq_true, List.all_eq_true] at h
    refine ⟨?_, h.2⟩
    rcases h.1 with hfirst | hfirst <;> simp [isIdentifierChar, Char.isAlphanum, hfirst]

theorem isIdentifier_of_isVariable {text : String} (h : isVariable text = true) :
    isIdentifier text = true :=
  (Bool.and_eq_true_iff.mp h).1

theorem isKeyword_mark : ∀ k ∈ keywords, isVariable ("luaKey__" ++ k) = true := by
  decide

/-- Keywords are not taken for names. -/
theorem isVariable_safeName {name : String} (h : isIdentifier name = true) :
    isVariable (safeName "luaKey__" name) = true := by
  unfold safeName
  split
  · rename_i hk
    exact isKeyword_mark name (by simpa [isKeyword] using hk)
  · rename_i hk
    simp [isVariable, h, hk]

end Names

/-- A path of tables, each found under its quoted name. -/
def IsTable (text : String) : Prop :=
  ∃ path, path ≠ [] ∧ (∀ s ∈ path, isQuotable s = true) ∧ text = tableExpression path

def assignment (target : String) (parameters : List String) : String :=
  target ++ " = function(" ++ ", ".intercalate parameters ++ ") end"

inductive IsScriptLine : String → Prop where
  | blank : IsScriptLine ""
  | comment (text : String) : IsScriptLine ("---" ++ text)
  | table {T : String} (hT : IsTable T) : IsScriptLine (T ++ " = \x7b\x7d")
  | function {T : String} {parameters : List String} (hT : IsTable T)
      (hp : ∀ p ∈ parameters, isVariable p = true) : IsScriptLine (assignment T parameters)
  | member {T name : String} {parameters : List String} (hT : IsTable T)
      (hn : isVariable name = true) (hp : ∀ p ∈ parameters, isVariable p = true) :
      IsScriptLine (assignment (T ++ "." ++ name) parameters)

section Lines

def linesOf (text : String) : List String :=
  (text.toList.splitOn '\n').map String.ofList

/-- A line without its end. -/
def Line.body : Line → String
  | note text => "---" ++ text
  | table binding => binding ++ " = \x7b\x7d"
  | function binding parameters => assignment binding parameters
  | blank => ""

theorem Line.render_eq (l : Line) : l.render = l.body ++ "\n" := by
  cases l <;> simp [Line.render, Line.body, assignment, String.append_assoc]

theorem linesOf_renderLines {lines : List Line} (h : ∀ l ∈ lines, '\n' ∉ l.body.toList) :
    linesOf (renderLines lines) = lines.map Line.body ++ [""] := by
  induction lines with
  | nil => rfl
  | cons l lines ih =>
    rw [List.forall_mem_cons] at h
    have htext : (renderLines (l :: lines)).toList =
        l.body.toList ++ '\n' :: (renderLines lines).toList := by
      simp [renderLines, Line.render_eq]
    have hbody : ∀ c ∈ l.body.toList, (c == '\n') = false := by
      rintro c hc
      exact beq_false_of_ne fun hend => h.1 (hend ▸ hc)
    rw [linesOf, htext, List.splitOn_eq_splitOnP,
      List.splitOnP_append_cons_of_forall_mem hbody '\n' (by decide), List.map_cons,
      String.ofList_toList, ← List.splitOn_eq_splitOnP]
    exact congrArg (l.body :: ·) (ih h.2)

end Lines

section Tables

def brackets (path : List String) : List Char :=
  path.flatMap fun s => '[' :: '\x27' :: (s.toList ++ ['\x27', ']'])

theorem toList_tableExpression (path : List String) :
    (tableExpression path).toList = '_' :: 'G' :: brackets path := by
  simp [tableExpression, brackets, String.toList_join, List.flatMap_map]

/-- Brackets end where something else begins. -/
theorem brackets_append_inj {path path' : List String} {t t' : List Char}
    (hpath : ∀ s ∈ path, isQuotable s = true) (hpath' : ∀ s ∈ path', isQuotable s = true)
    (ht : ∀ c ∈ t.head?, c ≠ '[') (ht' : ∀ c ∈ t'.head?, c ≠ '[')
    (h : brackets path ++ t = brackets path' ++ t') : path = path' ∧ t = t' := by
  induction path generalizing path' with
  | nil =>
    cases path' with
    | nil => exact ⟨rfl, h⟩
    | cons s' path' =>
      obtain rfl : t = _ := h
      exact absurd rfl (ht _ rfl)
  | cons s path ih =>
    cases path' with
    | nil =>
      obtain rfl : _ = t' := h
      exact absurd rfl (ht' _ rfl)
    | cons s' path' =>
      rw [List.forall_mem_cons] at hpath hpath'
      have hquote (s : String) (hs : isQuotable s = true) :
          ∀ c ∈ s.toList, (c != '\x27') = true := by
        intro c hc
        have hall := List.all_eq_true.mp hs c hc
        simp_all
      have hinner : s.toList ++ '\x27' :: (']' :: (brackets path ++ t)) =
          s'.toList ++ '\x27' :: (']' :: (brackets path' ++ t')) := by
        simpa [brackets] using h
      obtain ⟨hs, hrest⟩ := append_inj_of_stops (hquote s hpath.1) (hquote s' hpath'.1)
        (by simp [Stops]) (by simp [Stops]) hinner
      obtain ⟨rfl, rfl⟩ := ih hpath.2 hpath'.2 (by simpa using hrest)
      exact ⟨congrArg (· :: path) (String.toList_inj.mp hs), rfl⟩

/-- Tables followed by something else can be told apart from it. -/
theorem IsTable.append_inj {T T' : String} {t t' : List Char} (hT : IsTable T) (hT' : IsTable T')
    (ht : ∀ c ∈ t.head?, c ≠ '[') (ht' : ∀ c ∈ t'.head?, c ≠ '[')
    (h : T.toList ++ t = T'.toList ++ t') : T = T' ∧ t = t' := by
  obtain ⟨path, -, hpath, rfl⟩ := hT
  obtain ⟨path', -, hpath', rfl⟩ := hT'
  rw [toList_tableExpression, toList_tableExpression] at h
  obtain ⟨rfl, rfl⟩ := brackets_append_inj hpath hpath' ht ht' (by simpa using h)
  exact ⟨rfl, rfl⟩

end Tables

section Assignments

variable {T name : String} {parameters : List String}

/-- What is written after the target of an assignment and a blank. -/
def assigned (parameters : List String) : List Char :=
  ("= function(" ++ ", ".intercalate parameters ++ ") end").toList

theorem toList_assignment (target : String) (parameters : List String) :
    (assignment target parameters).toList = target.toList ++ ' ' :: assigned parameters := by
  have hblank : " = function(" = " " ++ "= function(" := by decide
  rw [assignment, assigned, hblank]
  simp only [String.toList_append, List.append_assoc]
  rfl

theorem toList_member (T name : String) (parameters : List String) :
    (assignment (T ++ "." ++ name) parameters).toList =
      T.toList ++ '.' :: (name.toList ++ ' ' :: assigned parameters) := by
  rw [toList_assignment]
  simp only [String.toList_append, List.append_assoc]
  rfl

/-- What is assigned to members of tables tells their names. -/
theorem member_inj {T' name' : String} {parameters' : List String} (hT : IsTable T)
    (hT' : IsTable T') (hn : isIdentifier name = true) (hn' : isIdentifier name' = true)
    (h : assignment (T ++ "." ++ name) parameters = assignment (T' ++ "." ++ name') parameters') :
    name = name' := by
  have htext := congrArg String.toList h
  rw [toList_member, toList_member] at htext
  obtain ⟨-, hrest⟩ := hT.append_inj hT' (by simp) (by simp) htext
  obtain ⟨hname, -⟩ := append_inj_of_stops (isIdentifierChar_of_mem hn)
    (isIdentifierChar_of_mem hn') (by simp [Stops]; decide)
    (by simp [Stops]; decide) (List.cons.inj hrest).2
  exact String.toList_inj.mp hname

/-- Assigning to a member is a line of the language unless the language reserves its name. -/
theorem isScriptLine_member_iff (hT : IsTable T) (hn : isIdentifier name = true)
    (hp : ∀ p ∈ parameters, isVariable p = true) :
    IsScriptLine (assignment (T ++ "." ++ name) parameters) ↔ isKeyword name = false := by
  constructor
  · intro h
    have htext := toList_member T name parameters
    have hfirst : ∃ s, T.toList = '_' :: s := by
      obtain ⟨path, -, -, rfl⟩ := hT
      exact ⟨_, toList_tableExpression path⟩
    obtain ⟨s, hs⟩ := hfirst
    generalize hline : assignment (T ++ "." ++ name) parameters = line at h htext
    cases h with
    | blank => simp at htext
    | comment text => simp [hs] at htext
    | table hT' =>
      rw [String.toList_append] at htext
      obtain ⟨-, htail⟩ := hT'.append_inj hT (by simp) (by simp) htext
      simp at htail
    | function hT' hp' =>
      rw [toList_assignment] at htext
      obtain ⟨-, htail⟩ := hT'.append_inj hT (by simp) (by simp) htext
      simp at htail
    | @member T' name' parameters' hT' hn' hp' =>
      simp only [isVariable, Bool.and_eq_true, Bool.not_eq_true'] at hn'
      rw [member_inj hT hT' hn hn'.1 hline]
      exact hn'.2
  · intro hkeyword
    exact .member hT (by simp [isVariable, hn, hkeyword]) hp

end Assignments

end TypeDocs
