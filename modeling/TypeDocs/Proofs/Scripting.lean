import TypeDocs.Proofs.Emitting
import TypeDocs.Proofs.Lexical

namespace TypeDocs

variable {c : Catalog} {root : String} {settings : Settings} {id : TypeId}

/-- Comments of one line, and blank lines. -/
def Line.IsTold : Line → Prop
  | note text => IsOneLine text
  | blank => True
  | table _ | function _ _ => False

/-- The parameters under the names that a binding gives them. -/
def Callable.boundNames (settings : Settings) (x : Callable) : List String :=
  x.parameters.map fun p => safeName settings.reservedMark p.name

namespace Line

/-- A bound method, under its own name. -/
def IsMethod (settings : Settings) (T : String) (m : Method) (l : Line) : Prop :=
  l = .function (T ++ "." ++ m.name) ((Callable.method m).boundNames settings)

/-- A constructor, called through the table or through a member of it. -/
def IsConstructor (settings : Settings) (T : String) (k : Constructor) (l : Line) : Prop :=
  ∃ target, (target = T ∨ target = T ++ "." ++ Document.constructionMember) ∧
    l = .function target ((Callable.constructor k).boundNames settings)

/-- The lines of the document of a type whose bindings live in `T`. -/
inductive IsWritten (settings : Settings) (T : String) (t : TypeInfo) : Line → Prop where
  | told {l : Line} (h : l.IsTold) : IsWritten settings T t l
  | table : IsWritten settings T t (.table T)
  | constructor {k : Constructor} {l : Line} (hk : k ∈ t.constructors)
      (h : l.IsConstructor settings T k) : IsWritten settings T t l
  | method {m : Method} {l : Line} (hm : m ∈ t.methods.filter Method.isBound)
      (h : l.IsMethod settings T m) : IsWritten settings T t l

end Line

section Notes

theorem Modifiers.isOneLine_tags (m : Modifiers) {kind : String} (hk : IsOneLine kind) :
    IsOneLine (m.tags kind) := by
  have hvisibility : IsOneLine m.visibilityTag := by
    unfold visibilityTag
    repeat' split
    all_goals decide
  have hstorage : IsOneLine m.storageTag := by
    unfold storageTag
    split <;> decide
  simp only [tags, isOneLine_append]
  refine ⟨⟨⟨⟨⟨⟨⟨⟨by decide, hk⟩, by decide⟩, hvisibility⟩, by decide⟩, hstorage⟩, ?_⟩, ?_⟩,
    by decide⟩
  · split <;> decide
  · split <;> decide

theorem isOneLine_intercalate {separator : String} {l : List String} (hs : IsOneLine separator)
    (hl : ∀ s ∈ l, IsOneLine s) : IsOneLine (separator.intercalate l) := by
  induction l with
  | nil => simp [IsOneLine]
  | cons a l ih =>
    rw [List.forall_mem_cons] at hl
    cases l with
    | nil => simpa using hl.1
    | cons b l =>
      rw [String.intercalate_cons_cons, isOneLine_append, isOneLine_append]
      exact ⟨⟨hl.1, hs⟩, ih hl.2⟩

end Notes

namespace Document

variable {type : TypeId → String}

theorem told_fieldNotes {f : Field} (hname : isIdentifier f.name = true)
    (htype : IsOneLine (type f.type)) : ∀ l ∈ fieldNotes type f, l.IsTold := by
  have htags := f.modifiers.isOneLine_tags (by decide : IsOneLine "Field")
  have hfield := (isNameText_of_isIdentifier hname).isOneLine
  simp only [fieldNotes, List.forall_mem_cons, Line.IsTold, isOneLine_append]
  exact ⟨htags, ⟨⟨⟨by decide, hfield⟩, by decide⟩, htype⟩, by simp⟩

theorem told_propertyNotes {p : Property} (hname : isIdentifier p.name = true)
    (htype : IsOneLine (type p.type)) : ∀ l ∈ propertyNotes type p, l.IsTold := by
  have hfield := (isNameText_of_isIdentifier hname).isOneLine
  have haccessor (a : Accessor) {kind : String} (hkind : IsOneLine kind) :
      IsOneLine (a.modifiers.tags kind) := a.modifiers.isOneLine_tags hkind
  rw [propertyNotes, List.forall_mem_append, List.forall_mem_append, List.forall_mem_singleton]
  refine ⟨⟨?_, ?_⟩, ?_⟩
  · cases p.getter with
    | none => simp
    | some a => simpa [Line.IsTold] using haccessor a (by decide)
  · cases p.setter with
    | none => simp
    | some a =>
      simpa [Line.IsTold, isOneLine_append] using ⟨(by decide : IsOneLine "<br/>"),
        haccessor a (by decide : IsOneLine "Setter")⟩
  · simp only [Line.IsTold, isOneLine_append]
    exact ⟨⟨⟨by decide, hfield⟩, by decide⟩, htype⟩

end Document

/-- The class, the parameters and the types of a callable can be told on one line. -/
structure OverloadSet.CanTell (s : OverloadSet) (type : TypeId → String) (x : Callable) : Prop where
  className : IsOneLine s.className
  parameters : ∀ p ∈ x.parameters, isIdentifier p.name = true
  types : ∀ t ∈ x.types, IsOneLine (type t)

namespace OverloadSet

variable {s : OverloadSet} {type : TypeId → String} {x : Callable}

theorem isOneLine_notedName (hmark : settings.reservedMark = "luaKey__") {p : Parameter}
    (hp : isIdentifier p.name = true) : IsOneLine (notedName settings p) := by
  have hvariable := isVariable_safeName hp
  rw [notedName, hmark, isOneLine_append]
  refine ⟨(isNameText_of_isIdentifier (isIdentifier_of_isVariable hvariable)).isOneLine, ?_⟩
  split <;> decide

theorem isOneLine_itemType {type : String} (h : IsOneLine type) : IsOneLine (itemType type) := by
  unfold itemType
  split
  · rw [IsOneLine, String.toList_ofList]
    exact fun hmem => h (List.dropLast_subset _ (List.dropLast_subset _ hmem))
  · exact h

theorem CanTell.parameter (h : s.CanTell type x) {p : Parameter} (hp : p ∈ x.parameters) :
    isIdentifier p.name = true ∧ IsOneLine (type p.type) :=
  ⟨h.parameters p hp,
    h.types p.type (List.mem_append_left _ (List.mem_map_of_mem hp))⟩

theorem CanTell.resultName (h : s.CanTell type x) :
    ∀ name ∈ s.resultName type x, IsOneLine name := by
  cases x with
  | constructor k => simpa [OverloadSet.resultName] using h.className
  | method m =>
    simp only [OverloadSet.resultName, Option.mem_def, Option.map_eq_some_iff]
    rintro _ ⟨t, ht, rfl⟩
    exact h.types t (by simp [Callable.types, Callable.results, ht])

theorem told_overloadNote (hmark : settings.reservedMark = "luaKey__") (h : s.CanTell type x) :
    (s.overloadNote settings type x).IsTold := by
  have hparameter : ∀ p ∈ x.parameters, IsOneLine (parameterText settings type p) := by
    intro p hp
    obtain ⟨hname, htype⟩ := h.parameter hp
    unfold parameterText
    split
    · exact isOneLine_append.mpr ⟨by decide, isOneLine_itemType htype⟩
    · simp only [isOneLine_append]
      exact ⟨⟨isOneLine_notedName hmark hname, by decide⟩, htype⟩
  have hlist : IsOneLine (", ".intercalate (x.parameters.map (parameterText settings type))) :=
    isOneLine_intercalate (by decide) (List.forall_mem_map.mpr hparameter)
  have hresult := h.resultName
  simp only [overloadNote, Line.IsTold, isOneLine_append]
  refine ⟨⟨⟨by decide, hlist⟩, by decide⟩, ?_⟩
  cases hr : s.resultName type x with
  | none => decide
  | some name => exact isOneLine_append.mpr ⟨by decide, hresult name hr⟩

/-- The binding stands among notes. -/
theorem told_bindingSection (hmark : settings.reservedMark = "luaKey__") (h : s.CanTell type x) :
    ∀ l ∈ s.bindingSection settings type x,
      l.IsTold ∨ l = .function s.binding (x.boundNames settings) := by
  have hresult := h.resultName
  simp only [bindingSection, List.forall_mem_append, List.forall_mem_map, List.forall_mem_cons]
  refine ⟨⟨fun p hp => ?_, ?_⟩, .inr rfl, .inl trivial, by simp⟩
  · obtain ⟨hname, htype⟩ := h.parameter hp
    refine .inl ?_
    simp only [parameterNote, Line.IsTold, isOneLine_append]
    refine ⟨⟨⟨by decide, ?_⟩, by decide⟩, htype⟩
    split
    · decide
    · exact isOneLine_notedName hmark hname
  · cases hr : s.resultName type x with
    | none => simp
    | some name =>
      have htold : IsOneLine ("@return " ++ name) :=
        isOneLine_append.mpr ⟨by decide, hresult name hr⟩
      simpa [Line.IsTold] using htold

theorem mem_bindingSection :
    .function s.binding (x.boundNames settings) ∈ s.bindingSection settings type x := by
  simp [bindingSection, Callable.boundNames]

end OverloadSet

namespace Document

variable {s : OverloadSet} {type : TypeId → String}

/-- A block tells of its methods and binds one of them. -/
theorem told_block (hmark : settings.reservedMark = "luaKey__") {ms : List Method}
    (hms : ∀ m ∈ ms, s.CanTell type (.method m)) {key : String × Modifiers}
    (hkey : key ∈ blockKeys ms) :
    (∀ l ∈ block settings s type ms key,
      l.IsTold ∨ ∃ m ∈ ms, l.IsMethod settings s.binding m) ∧
    ∃ m ∈ ms, blockKey m = key ∧ ∃ l ∈ block settings s type ms key,
      l.IsMethod settings s.binding m := by
  obtain ⟨init, last, hsplit, hblock⟩ :=
    @exists_block settings s type ms key hkey
  have hmem : ∀ m ∈ init ++ [last], m ∈ ms ∧ blockKey m = key := by
    rw [← hsplit]
    exact fun m hm => by simpa using List.mem_filter.mp hm
  obtain ⟨hlast, rfl⟩ := hmem last (by simp)
  have htell (m : Method) (hm : m ∈ ms) : (s.member last.name).CanTell type (.method m) :=
    ⟨(hms m hm).className, (hms m hm).parameters, (hms m hm).types⟩
  have hline : (Line.function (s.member last.name).binding
      ((Callable.method last).boundNames settings)).IsMethod settings s.binding last := rfl
  rw [hblock]
  constructor
  · rw [List.forall_mem_cons, List.forall_mem_append, List.forall_mem_map]
    refine ⟨.inl (last.modifiers.isOneLine_tags (by decide)), fun m hm => .inl ?_, fun l hl => ?_⟩
    · exact OverloadSet.told_overloadNote hmark (htell m (hmem m (List.mem_append_left _ hm)).1)
    · refine (OverloadSet.told_bindingSection hmark (htell last hlast) l hl).imp_right fun h => ?_
      exact ⟨last, hlast, h⟩
  · refine ⟨last, hlast, rfl, _, ?_, hline⟩
    exact List.mem_cons_of_mem _ (List.mem_append_right _ OverloadSet.mem_bindingSection)

theorem told_spelling (hmark : settings.reservedMark = "luaKey__") {ks : List Constructor}
    (hks : ∀ k ∈ ks, s.CanTell type (.constructor k)) {key : Modifiers}
    (hkey : key ∈ ks.map Constructor.modifiers) : ∀ l ∈ spelling settings s type ks key,
      l.IsTold ∨
        ∃ k ∈ ks, l = .function s.binding ((Callable.constructor k).boundNames settings) := by
  obtain ⟨init, last, hsplit⟩ := exists_sameConstructors hkey
  have hmem : ∀ x ∈ init ++ [last], ∃ k ∈ ks, x = .constructor k := by
    rw [← hsplit, sameConstructors, List.forall_mem_map]
    exact fun k hk => ⟨k, List.mem_of_mem_filter hk, rfl⟩
  have htell : ∀ x ∈ init ++ [last], s.CanTell type x := by
    intro x hx
    obtain ⟨k, hk, rfl⟩ := hmem x hx
    exact hks k hk
  rw [spelling, hsplit, OverloadSet.written_concat, tagged, List.forall_mem_cons,
    List.forall_mem_append, List.forall_mem_map]
  refine ⟨.inl (key.isOneLine_tags (by decide)), fun x hx => .inl ?_, fun l hl => ?_⟩
  · exact OverloadSet.told_overloadNote hmark (htell x (List.mem_append_left _ hx))
  · refine (OverloadSet.told_bindingSection hmark (htell last (by simp)) l hl).imp_right fun h => ?_
    obtain ⟨k, hk, rfl⟩ := hmem last (by simp)
    exact ⟨k, hk, h⟩

theorem told_spelledTwice (hmark : settings.reservedMark = "luaKey__") {ks : List Constructor}
    (hks : ∀ k ∈ ks, s.CanTell type (.constructor k)) {key : Modifiers}
    (hkey : key ∈ ks.map Constructor.modifiers) : ∀ l ∈ spelledTwice settings s type ks key,
      l.IsTold ∨ ∃ k ∈ ks, l.IsConstructor settings s.binding k := by
  have hmember : ∀ k ∈ ks, (s.member constructionMember).CanTell type (.constructor k) :=
    fun k hk => ⟨(hks k hk).className, (hks k hk).parameters, (hks k hk).types⟩
  rw [spelledTwice, List.forall_mem_append]
  constructor
  · intro l hl
    refine (told_spelling hmark hks hkey l hl).imp_right ?_
    rintro ⟨k, hk, rfl⟩
    exact ⟨k, hk, s.binding, .inl rfl, rfl⟩
  · intro l hl
    refine (told_spelling hmark hmember hkey l hl).imp_right ?_
    rintro ⟨k, hk, rfl⟩
    exact ⟨k, hk, s.binding ++ "." ++ constructionMember, .inr rfl, rfl⟩

/-- Every line of the members is written for them, and every name of a bound method has one. -/
theorem written_memberLines (hmark : settings.reservedMark = "luaKey__") {info : TypeInfo}
    (hclass : IsOneLine s.className) (hnames : ∀ n ∈ info.writtenNames, isIdentifier n = true)
    (htypes : ∀ t ∈ info.shownTypes settings, IsOneLine (type t)) :
    (∀ l ∈ memberLines settings s type info, l.IsWritten settings s.binding info) ∧
      ∀ m ∈ info.methods.filter Method.isBound, ∃ m' ∈ info.methods.filter Method.isBound,
        m'.name = m.name ∧ ∃ l ∈ memberLines settings s type info,
          l.IsMethod settings s.binding m' := by
  obtain ⟨⟨⟨⟨hfs, hps⟩, -⟩, hms⟩, hks⟩ := TypeInfo.forall_writtenNames.mp hnames
  simp only [TypeInfo.shownTypes, List.forall_mem_append, List.forall_mem_map,
    List.forall_mem_flatMap] at htypes
  obtain ⟨⟨⟨hft, hpt⟩, hmt⟩, hkt⟩ := htypes
  let bound := info.methods.filter Method.isBound
  have hmethods : ∀ m ∈ bound, s.CanTell type (.method m) := fun m hm =>
    ⟨hclass, hms m (List.mem_of_mem_filter hm), hmt m hm⟩
  have hconstructors : ∀ k ∈ info.constructors, s.CanTell type (.constructor k) := fun k hk =>
    ⟨hclass, hks k hk, by simpa using hkt k hk⟩
  constructor
  · simp only [memberLines, List.forall_mem_append, List.forall_mem_flatMap, List.mem_eraseDups,
      List.forall_mem_cons]
    refine ⟨⟨⟨⟨fun f hf l hl => ?_, fun p hp l hl => ?_⟩, .table, .told trivial, by simp⟩,
      fun key hkey l hl => ?_⟩, fun key hkey l hl => ?_⟩
    · exact .told (told_fieldNotes (hfs f (List.mem_of_mem_filter hf)) (hft f hf) l hl)
    · exact .told (told_propertyNotes (hps p hp) (hpt p hp) l hl)
    · rcases (told_block hmark hmethods hkey).1 l hl with htold | ⟨m, hm, hline⟩
      · exact .told htold
      · exact .method hm hline
    · rcases told_spelledTwice hmark hconstructors hkey l hl with htold | ⟨k, hk, hline⟩
      · exact .told htold
      · exact .constructor hk hline
  · intro m hm
    have hkey : blockKey m ∈ blockKeys bound := mem_blockKeys.mpr ⟨m, hm, rfl⟩
    obtain ⟨m', hm', hsame, l, hl, hline⟩ := (told_block hmark hmethods hkey).2
    refine ⟨m', hm', (Prod.mk.inj hsame).1, l, ?_, hline⟩
    exact List.mem_append_left _
      (List.mem_append_right _ (List.mem_flatMap.mpr ⟨blockKey m, hkey, hl⟩))

/-- The text of a document is made of lines as they are written for its type. -/
def IsScripted (c : Catalog) (settings : Settings) (d : Document) : Prop :=
  ∃ info T lines, c.get? d.type = some info ∧ IsTable T ∧ d.text = renderLines lines ∧
    (∀ l ∈ lines, l.IsWritten settings T info) ∧
    ∀ m ∈ info.methods.filter Method.isBound, ∃ m' ∈ info.methods.filter Method.isBound,
      m'.name = m.name ∧ ∃ l ∈ lines, l.IsMethod settings T m'

theorem told_classNote (hc : c.IsScriptable) {className : String} (hclass : IsOneLine className)
    {base : Option TypeId} {baseName : Option String} (hbase : Option.Rel c.IsNamed base baseName) :
    (classNote className baseName).IsTold := by
  cases hbase with
  | none => exact isOneLine_append.mpr ⟨by decide, hclass⟩
  | some hname =>
    obtain ⟨_, -, hname⟩ := hname
    simp only [classNote, Line.IsTold, isOneLine_append]
    exact ⟨⟨⟨by decide, hclass⟩, by decide⟩, (hc.nameWithin _ _ _ _ hname).isOneLine⟩

theorem IsComposed.isScripted (hc : c.IsScriptable) (hmark : settings.reservedMark = "luaKey__")
    {d : Document} (hd : d.IsComposed c settings none) : d.IsScripted c settings := by
  obtain ⟨_, -, hname⟩ := hd.className
  have hclass : IsOneLine d.className := (hc.nameWithin _ _ _ _ hname).isOneLine
  obtain ⟨info, baseName, path, type, hi, hbase, hpath, hshown, htext⟩ := hd.text
  obtain ⟨_, -, hpath⟩ := (hpath.resolve_left nofun).2
  obtain ⟨hwritten, hbound⟩ := written_memberLines hmark
    (s := ⟨d.className, tableExpression path⟩) hclass (hc.members d.type info hi)
    fun t ht => hc.scriptName (hshown t ht)
  refine ⟨info, tableExpression path, _, hi, hc.defaultTable _ _ hpath, htext, ?_, fun m hm => ?_⟩
  · rw [List.forall_mem_cons, List.forall_mem_cons]
    exact ⟨.told (by decide : IsOneLine "@meta"), .told (told_classNote hc hclass hbase), hwritten⟩
  · obtain ⟨m', hm', hsame, l, hl, hline⟩ := hbound m hm
    exact ⟨m', hm', hsame, l, List.mem_cons_of_mem _ (List.mem_cons_of_mem _ hl), hline⟩

end Document

end TypeDocs
