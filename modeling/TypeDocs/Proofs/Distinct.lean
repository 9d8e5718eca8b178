import TypeDocs.Proofs.Emitting
import TypeDocs.Proofs.Spelled

namespace TypeDocs

open Session Documenting Spelling

variable {c : Catalog} {settings : Settings} {depth : Nat} {first : Bool}

section Declarations

/-- Characters that a word goes on with. -/
def isWordChar (c : Char) : Bool :=
  c ≠ ' ' && c ≠ '\n'

/-- The class that a text declares: the word after the tag of its second line. -/
def declaredClass (text : String) : String :=
  String.ofList ((text.toList.drop "---@meta\n---@class ".length).takeWhile isWordChar)

theorem isWordChar_separator (depth : Nat) : isWordChar (separator depth) = true := by
  unfold separator
  split <;> decide

theorem isWordChar_of_isDigit {c : Char} (h : c.isDigit = true) : isWordChar c = true := by
  have hother (d : Char) (hd : d.isDigit = false) : c ≠ d := by
    rintro rfl
    simp [h] at hd
  simp [isWordChar, hother ' ' (by decide), hother '\n' (by decide)]

/-- A plain spelling is written as one word. -/
theorem isWordChar_of_mem_write {s : Spelling} (hs : s.isPlain depth = true) :
    ∀ c ∈ s.write depth first, isWordChar c = true := by
  induction s generalizing depth first with
  | nil => simp [write]
  | name text rest ih =>
    simp only [isReadable, Bool.and_eq_true] at hs
    have htext : ∀ c ∈ text.toList, isWordChar c = true := by
      intro c hc
      have hall := List.all_eq_true.mp (Bool.and_eq_true_iff.mp hs.1).2 c hc
      simp_all [isWordChar]
    have hrest := @ih depth false hs.2
    cases first with
    | true => simpa [write, or_imp, forall_and] using ⟨htext, hrest⟩
    | false =>
      simpa [write, or_imp, forall_and] using ⟨isWordChar_separator depth, htext, hrest⟩
  | argument inner rest ihi ihr =>
    have htext := write_argument (isLegible_of_isPlain hs) first []
    rw [List.append_nil, List.append_nil] at htext
    simp only [isReadable, Bool.and_eq_true] at hs
    have hdigits : ∀ c ∈ digits depth, isWordChar c = true :=
      fun c hc => isWordChar_of_isDigit (isDigit_of_mem_digits c hc)
    rw [htext, List.forall_mem_cons, List.forall_mem_append, List.forall_mem_append]
    exact ⟨by decide, hdigits, ihi hs.1.1, ihr hs.2⟩

theorem declaredClass_render {className : String} {baseName : Option String} {lines : List Line}
    (hname : ∀ c ∈ className.toList, isWordChar c = true) :
    declaredClass (renderLines (.note "@meta" :: Document.classNote className baseName :: lines)) =
      className := by
  obtain ⟨rest, htext, hstops⟩ : ∃ rest,
      (renderLines (.note "@meta" :: Document.classNote className baseName :: lines)).toList =
        "---@meta\n---@class ".toList ++ (className.toList ++ rest) ∧ Stops isWordChar rest := by
    cases baseName with
    | none =>
      refine ⟨'\n' :: (renderLines lines).toList, ?_, by simp [Stops, isWordChar]⟩
      simp [Document.classNote, renderLines, Line.render, String.toList_join]
    | some name =>
      refine ⟨' ' :: ':' :: ' ' :: (name.toList ++ '\n' :: (renderLines lines).toList), ?_,
        by simp [Stops, isWordChar]⟩
      simp [Document.classNote, renderLines, Line.render, String.toList_join]
  have hlength : "---@meta\n---@class ".length = "---@meta\n---@class ".toList.length := by decide
  rw [declaredClass, htext, hlength, List.drop_left, takeWhile_of_stops hname hstops,
    String.ofList_toList]

end Declarations

/-- What tells types apart: namespace, enclosing type, raw name and what the type is made of. -/
def TypeInfo.bare (t : TypeInfo) : TypeInfo :=
  { t with base := none, fields := [], properties := [], methods := [], constructors := [] }

namespace Catalog

theorem mem_ids_of_isDiscoverable {id : TypeId} (h : c.isDiscoverable id = true) : id ∈ c.ids := by
  unfold isDiscoverable at h
  split at h
  · rename_i hs _
    exact mem_ids_of_shape hs
  · simp at h

/-- A documented type that discovery documents too goes by its own name. -/
theorem exists_spelling_of_named {id : TypeId} {name : String} (hname : c.IsNamed id name)
    (hdisc : c.isDiscoverable id = true) :
    ∃ s, c.spelling id = .ok s ∧ name = String.ofList (s.write 1 true) := by
  obtain ⟨shape, hs, hn⟩ := hname
  have hdoc : shape.isDocumentable = true := by
    unfold isDiscoverable at hdisc
    rw [hs] at hdisc
    split at hdisc
    · rename_i hs' _
      obtain rfl := Except.ok.inj hs'
      exact (Bool.and_eq_true_iff.mp hdisc).1
    · simp at hdisc
  rw [Shape.resolve_of_isDocumentable hdoc, qualifiedName_eq] at hn
  cases hsp : c.spelling id with
  | error e => simp [hsp, Except.map] at hn
  | ok s =>
    rw [hsp] at hn
    exact ⟨s, rfl, (Except.ok.inj hn).symm⟩

/--
Reachable documentation comes to its end where all references lead to types. If the types that it
documents are spelled plainly, then each document declares its class, classes have the same name
exactly where types are spelled alike, and all names are different exactly if all spellings are.
-/
theorem reachable_distinct (h : c.validate = .ok ()) (settings : Settings) {roots : List TypeId}
    (hroots : ∀ t ∈ roots, c.isDiscoverable t = true) :
    (c.IsClosed → ∃ out, (generateReachable c roots).run { settings } = .ok out) ∧
      ∀ count s, (generateReachable c roots).run { settings } = .ok (count, s) →
        (∀ d ∈ s.documents.toList, ∀ sp, c.spelling d.type = .ok sp → sp.isPlain 1 = true) →
        (∀ d ∈ s.documents.toList, declaredClass d.text = d.className) ∧
        (∀ d ∈ s.documents.toList, ∀ e ∈ s.documents.toList,
          d.className = e.className ↔ c.spelling d.type = c.spelling e.type) ∧
        ((s.documents.toList.map Document.className).Nodup ↔
          (s.documents.toList.map fun d => c.spelling d.type).Nodup) := by
  constructor
  · intro hclosed
    have hc : c.IsRegular := isRegular_of_validate hclosed h
    have hids : ∀ t ∈ roots, t ∈ c.ids := fun t ht => mem_ids_of_isDiscoverable (hroots t ht)
    obtain ⟨out, hout, -⟩ := generateReachable_extends hc hids (isSound_empty settings)
    exact ⟨out, hout⟩
  · intro count s hrun hplain
    let D : Document → Prop := fun d =>
      c.isDiscoverable d.type = true ∧ d.IsComposed c settings none
    have hcomposes (t : TypeId) (ht : c.isDiscoverable t = true) :
        Document.Composes c settings D none t :=
      Document.composes fun d hd hcomposed => ⟨hd ▸ ht, hcomposed⟩
    obtain ⟨hheld, -⟩ := generateReachable_upholds hcomposes
      (fun t ht => hcomposes t (hroots t ht)) { settings } holds_empty (count, s) hrun
    have hspelled (d : Document) (hd : d ∈ s.documents.toList) :
        ∃ sp, c.spelling d.type = .ok sp ∧ sp.isPlain 1 = true ∧
          d.className = String.ofList (sp.write 1 true) := by
      obtain ⟨hdisc, hcomposed⟩ := hheld.documents d hd
      obtain ⟨sp, hsp, hname⟩ := exists_spelling_of_named hcomposed.className hdisc
      exact ⟨sp, hsp, hplain d hd sp hsp, hname⟩
    have hnames : ∀ d ∈ s.documents.toList, ∀ e ∈ s.documents.toList,
        d.className = e.className ↔ c.spelling d.type = c.spelling e.type := by
      intro d hd e he
      obtain ⟨sd, hsd, hpd, hnd⟩ := hspelled d hd
      obtain ⟨se, hse, hpe, hne⟩ := hspelled e he
      rw [hnd, hne, hsd, hse]
      constructor
      · intro htext
        exact congrArg Except.ok (write_inj hpd hpe (String.ofList_inj.mp htext))
      · intro hsame
        rw [Except.ok.inj hsame]
    refine ⟨fun d hd => ?_, hnames, ?_⟩
    · obtain ⟨sd, -, hp, hname⟩ := hspelled d hd
      obtain ⟨_, _, _, _, -, -, -, -, htext⟩ := (hheld.documents d hd).2.text
      rw [htext]
      apply declaredClass_render
      rw [hname, String.toList_ofList]
      exact isWordChar_of_mem_write hp
    · have hnodup : s.documents.toList.Nodup := hheld.placed.nodup.of_map
      rw [List.nodup_map_iff_inj_on hnodup, List.nodup_map_iff_inj_on hnodup]
      constructor
      · exact fun hinj d hd e he hsame => hinj d hd e he ((hnames d hd e he).mpr hsame)
      · exact fun hinj d hd e he hsame => hinj d hd e he ((hnames d hd e he).mp hsame)

/-- Cells of an object and of cells, and an entry inside a map. -/
def cells : Catalog where
  entries := #[⟨"Object", { name := "Object", namespaceName := some "System" }⟩,
    ⟨"Cell", { name := "Cell`1", namespaceName := some "Data", base := some ⟨0⟩ }⟩,
    ⟨"Cell<Object>",
      { name := "Cell`1", namespaceName := some "Data", definition := some ⟨1⟩,
        arguments := [⟨0⟩], base := some ⟨0⟩ }⟩,
    ⟨"Cell<Cell>",
      { name := "Cell`1", namespaceName := some "Data", definition := some ⟨1⟩,
        arguments := [⟨2⟩], base := some ⟨0⟩ }⟩,
    ⟨"Map",
      { name := "Map", namespaceName := some "Data", base := some ⟨3⟩,
        fields := [{ name := "entries", type := ⟨6⟩ }] }⟩,
    ⟨"Entry", { name := "Entry", namespaceName := some "Data", enclosing := some ⟨4⟩ }⟩,
    ⟨"Entry[]", { name := "Entry[]", element := some ⟨5⟩ }⟩]

theorem cells_distinct : ∃ count s, (generateReachable cells [⟨4⟩, ⟨1⟩]).run {} = .ok (count, s) ∧
    s.documents.toList.map Document.className = ["Data.Map", "Data.Cell",
      "Data.Cell*1Data*Cell*2System*Object", "System.Object", "Data.Map.Entry"] ∧
    (∀ d ∈ s.documents.toList, declaredClass d.text = d.className) ∧
    (s.documents.toList.map Document.className).Nodup := by
  have hrun : ((generateReachable cells [⟨4⟩, ⟨1⟩]).run {}).map
      (fun out => (out.2.documents.toList.map Document.className,
        out.2.documents.toList.map Document.type)) =
      .ok (["Data.Map", "Data.Cell", "Data.Cell*1Data*Cell*2System*Object", "System.Object",
        "Data.Map.Entry"], [⟨4⟩, ⟨1⟩, ⟨3⟩, ⟨0⟩, ⟨5⟩]) := by
    decide +kernel
  have hplain : ∀ t ∈ cells.ids, (cells.spelling t).map (isPlain 1) = .ok true := by
    decide +kernel
  have hspellings : ([⟨4⟩, ⟨1⟩, ⟨3⟩, ⟨0⟩, ⟨5⟩].map cells.spelling).Nodup := by decide +kernel
  have hvalid : cells.validate = .ok () := by decide +kernel
  have hroots : ∀ t ∈ [(⟨4⟩ : TypeId), ⟨1⟩], cells.isDiscoverable t = true := by decide +kernel
  obtain ⟨-, hall⟩ := reachable_distinct hvalid {} hroots
  cases h : (generateReachable cells [⟨4⟩, ⟨1⟩]).run {} with
  | error d => simp [h, Except.map] at hrun
  | ok out =>
    obtain ⟨count, s⟩ := out
    rw [h] at hrun
    obtain ⟨hnames, htypes⟩ := Prod.mk.inj (Except.ok.inj hrun)
    have hmem : ∀ t ∈ s.documents.toList.map Document.type, t ∈ cells.ids := by
      rw [htypes]
      decide
    obtain ⟨hdeclared, -, hnodup⟩ := hall count s h fun d hd sp hsp => by
      have hp := hplain d.type (hmem d.type (List.mem_map_of_mem hd))
      rw [hsp] at hp
      exact Except.ok.inj hp
    have hspelled : (s.documents.toList.map fun d => cells.spelling d.type) =
        (s.documents.toList.map Document.type).map cells.spelling := by
      rw [List.map_map]
      rfl
    refine ⟨count, s, rfl, hnames, hdeclared, hnodup.mpr ?_⟩
    rw [hspelled, htypes]
    exact hspellings

/-- A class and a generic class of one name. -/
def twins : Catalog where
  entries := #[⟨"Box", { name := "Box", namespaceName := some "N" }⟩,
    ⟨"Box1", { name := "Box`1", namespaceName := some "N" }⟩]

/-- Types may differ and have documents of one name, since arity is no part of a spelling. -/
theorem exists_same_class : ¬ ∀ (c : Catalog) (settings : Settings) (roots : List TypeId),
    c.validate = .ok () →
    (∀ t ∈ c.ids, ∀ u ∈ c.ids,
      (c.get? t).map TypeInfo.bare = (c.get? u).map TypeInfo.bare → t = u) →
    (∀ t ∈ roots, c.isDiscoverable t = true) →
    ∀ count s, (generateReachable c roots).run { settings } = .ok (count, s) →
      (s.documents.toList.map Document.className).Nodup := by
  intro h
  have hnames : ((generateReachable twins [⟨0⟩, ⟨1⟩]).run {}).map
      (fun out => out.2.documents.toList.map Document.className) = .ok ["N.Box", "N.Box"] := by
    decide +kernel
  cases hrun : (generateReachable twins [⟨0⟩, ⟨1⟩]).run {} with
  | error d => simp [hrun, Except.map] at hnames
  | ok out =>
    obtain ⟨count, s⟩ := out
    rw [hrun] at hnames
    have hnodup := h twins {} [⟨0⟩, ⟨1⟩] (by decide +kernel) (by decide +kernel)
      (by decide +kernel) count s hrun
    have hsame : s.documents.toList.map Document.className = ["N.Box", "N.Box"] :=
      Except.ok.inj hnames
    rw [hsame] at hnodup
    exact absurd hnodup (by decide)

end Catalog

end TypeDocs
