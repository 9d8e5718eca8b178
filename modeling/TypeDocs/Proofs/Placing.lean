import TypeDocs.Proofs.Lexical
import TypeDocs.Proofs.Operating

namespace TypeDocs

namespace TypeInfo

/-- The text of a name, given the names around it and those of the arguments. -/
def nameText (t : TypeInfo) (style : NameStyle) (outer arguments : List String) : String :=
  (match t.properNamespace with
    | some ns =>
      if style.withNamespace then separated style.separator ns ++ style.separator.toString else ""
    | none => "") ++
    String.join (outer.map (· ++ style.separator.toString)) ++ simpleName t.name ++
    String.join (arguments.map (("*" ++ toString style.depth) ++ ·))

/-- A name behind the namespace of a type. -/
def inNamespace (t : TypeInfo) (name : String) : String :=
  match t.properNamespace with
  | some ns => ns ++ "." ++ name
  | none => name

end TypeInfo

namespace Catalog

variable {c : Catalog} {id : TypeId} {room : List TypeId} {style : NameStyle} {name : String}

/-- The types around a type, as far as the style shows them. -/
def around (c : Catalog) (room : List TypeId) (style : NameStyle) (t : TypeInfo) :
    Except Defect (List TypeId) :=
  if style.withEnclosing then c.enclosingChain room t.enclosing else .ok []

/-- What a name is made of. -/
theorem nameWithin_eq_ok_iff : c.nameWithin room style id = .ok name ↔
    ∃ info chain outer arguments, c.get? id = some info ∧ id ∈ room ∧
      c.around (room.erase id) style info = .ok chain ∧
      chain.mapM (fun e => c.nameWithin (room.erase id) .enclosing e) = .ok outer ∧
      info.arguments.mapM (fun a => c.nameWithin (room.erase id) style.argument a) =
        .ok arguments ∧
      info.nameText style outer arguments = name := by
  rw [nameWithin]
  simp only [← lookup_eq_ok]
  cases c.lookup id with
  | error d => simp [bind, Except.bind]
  | ok info =>
    by_cases hid : id ∈ room
    · cases hns : info.properNamespace <;> cases hstyle : style.withEnclosing <;>
        simp [hid, hns, hstyle, around, bind_eq_ok, TypeInfo.nameText]
    · simp [hid]

section Rooms

variable {room' : List TypeId}

/-- What is left of a room fits into what is left of a larger one. -/
theorem erase_subset_erase (hn : room.Nodup) (hsub : room ⊆ room') :
    room.erase id ⊆ room'.erase id := by
  intro t ht
  obtain ⟨hne, hmem⟩ := hn.mem_erase_iff.mp ht
  exact (List.mem_erase_of_ne hne).mpr (hsub hmem)

/-- A chain that comes to its end in a room is the same in a larger one. -/
theorem enclosingChain_mono (hn : room.Nodup) (hsub : room ⊆ room') {start : Option TypeId}
    {chain : List TypeId} (h : c.enclosingChain room start = .ok chain) :
    c.enclosingChain room' start = .ok chain := by
  induction room, start using enclosingChain.induct generalizing room' chain with
  | case1 room =>
    rw [enclosingChain] at h ⊢
    exact h
  | case2 room id ih =>
    rw [enclosingChain] at h ⊢
    obtain ⟨info, hi, h⟩ := bind_eq_ok.mp h
    rw [hi, ok_bind]
    split at h
    · rename_i hid
      obtain ⟨outer, ho, h⟩ := bind_eq_ok.mp h
      rw [if_pos (hsub hid), ih info hid (hn.erase id) (erase_subset_erase hn hsub) ho, ok_bind, h]
    · simp at h

theorem around_mono (hn : room.Nodup) (hsub : room ⊆ room') {t : TypeInfo} {chain : List TypeId}
    (h : c.around room style t = .ok chain) : c.around room' style t = .ok chain := by
  unfold around at h ⊢
  split at h
  · rename_i hstyle
    rw [if_pos hstyle]
    exact enclosingChain_mono hn hsub h
  · rename_i hstyle
    rw [if_neg hstyle]
    exact h

/-- So is a name. -/
theorem nameWithin_mono (hn : room.Nodup) (hsub : room ⊆ room')
    (h : c.nameWithin room style id = .ok name) : c.nameWithin room' style id = .ok name := by
  induction room, style, id using nameWithin.induct generalizing room' name with
  | case1 room style id ihe iha =>
    obtain ⟨info, chain, outer, arguments, hi, hid, hchain, ho, ha, hname⟩ :=
      nameWithin_eq_ok_iff.mp h
    have hn' := hn.erase id
    have hsub' : room.erase id ⊆ room'.erase id := erase_subset_erase hn hsub
    refine nameWithin_eq_ok_iff.mpr ⟨info, chain, outer, arguments, hi, hsub hid,
      around_mono hn' hsub' hchain, mapM_eq_ok_mono ?_ ho, mapM_eq_ok_mono ?_ ha, hname⟩
    · exact fun e _ n he => ihe hid e hn' hsub' he
    · exact fun a _ n ha => iha hid a hn' hsub' ha

end Rooms

section Local

variable {info : TypeInfo}

/-- A qualified name is the local name behind the namespace. -/
theorem qualifiedName_of_localName (hi : c.get? id = some info) (h : c.localName id = .ok name) :
    c.qualifiedName id = .ok (info.inNamespace name) := by
  obtain ⟨info', chain, outer, arguments, hi', hid, hchain, ho, ha, rfl⟩ :=
    nameWithin_eq_ok_iff.mp h
  obtain rfl := Option.some.inj (hi'.symm.trans hi)
  refine nameWithin_eq_ok_iff.mpr ⟨info', chain, outer, arguments, hi, hid, hchain, ho, ha, ?_⟩
  simp only [TypeInfo.nameText, TypeInfo.inNamespace, NameStyle.separator,
    NameStyle.withoutNamespace]
  cases info'.properNamespace with
  | none => simp
  | some ns => simp [separated_point, String.append_assoc]

/-- The name of a type alone, and the names of the types around it that stand before it. -/
theorem exists_own (hc : c.IsRegular) (hi : c.get? id = some info) :
    ∃ chain outer own, c.enclosingChain c.ids info.enclosing = .ok chain ∧
      chain.mapM (c.nameIn .enclosing) = .ok outer ∧ c.nameIn .enclosing id = .ok own ∧
      c.localName id = .ok (String.join (outer.map (· ++ ".")) ++ own) := by
  obtain ⟨name, h, -⟩ := hc.nameIn_yields .withoutNamespace (mem_ids_of_get hi)
  obtain ⟨info', chain, outer, arguments, hi', hid, hchain, ho, ha, rfl⟩ :=
    nameWithin_eq_ok_iff.mp h
  obtain rfl := Option.some.inj (hi'.symm.trans hi)
  have hn := c.nodup_ids.erase id
  have hsub : c.ids.erase id ⊆ c.ids := List.erase_subset
  have hown : c.nameIn .enclosing id = .ok (info'.nameText .enclosing [] arguments) :=
    nameWithin_eq_ok_iff.mpr ⟨info', [], [], arguments, hi, hid, rfl, rfl, ha, rfl⟩
  refine ⟨chain, outer, _, enclosingChain_mono hn hsub hchain,
    mapM_eq_ok_mono (fun e _ n he => nameWithin_mono hn hsub he) ho, hown, ?_⟩
  rw [localName, h]
  simp only [TypeInfo.nameText, NameStyle.withoutNamespace, NameStyle.enclosing,
    NameStyle.separator]
  cases info'.properNamespace <;> simp [String.append_assoc]

/-- What stands inside a type is named after it. -/
theorem localName_enclosed (hc : c.IsRegular) {d : TypeId} (hi : c.get? id = some info)
    (hd : info.enclosing = some d) (h : c.localName id = .ok name) :
    ∃ outer own, c.localName d = .ok outer ∧ name = outer ++ "." ++ own := by
  obtain ⟨chain, names, own, hchain, hnames, -, hname⟩ := exists_own hc hi
  obtain rfl := Except.ok.inj (h.symm.trans hname)
  rw [hd, enclosingChain] at hchain
  obtain ⟨outer, hlookup, hchain⟩ := bind_eq_ok.mp hchain
  split at hchain
  · obtain ⟨above, habove, hchain⟩ := bind_eq_ok.mp hchain
    obtain rfl := Except.ok.inj hchain
    have hget := lookup_eq_ok.mp hlookup
    obtain ⟨chain', names', own', hchain', hnames', hown', hname'⟩ := exists_own hc hget
    have hsame := enclosingChain_mono (c.nodup_ids.erase d) List.erase_subset habove
    obtain rfl := Except.ok.inj (hchain'.symm.trans hsame)
    rw [List.mapM_append, hnames', ok_bind] at hnames
    simp only [List.mapM_cons, hown', List.mapM_nil, ok_bind, pure_eq_ok, Except.ok.injEq]
      at hnames
    subst hnames
    exact ⟨_, own, hname', by simp [String.append_assoc]⟩
  · simp at hchain

end Local

end Catalog

section Segments

/-- A dotted name is its segments with points in between. -/
theorem intercalate_segments (dotted : String) : ".".intercalate (segments dotted) = dotted := by
  refine String.toList_inj.mp ?_
  rw [String.toList_intercalate, segments, List.map_map]
  simp only [Function.comp_def, String.toList_ofList, List.map_id']
  exact List.intercalate_splitOn '.'

theorem segments_append (outer own : String) :
    segments (outer ++ "." ++ own) = segments outer ++ segments own := by
  simp only [segments, String.toList_append, List.splitOn_eq_splitOnP, List.append_assoc]
  rw [← List.map_append]
  exact congrArg _ (List.splitOnP_append_cons outer.toList own.toList (by decide))

theorem segments_ne_nil (dotted : String) : segments dotted ≠ [] := by
  rw [segments, List.splitOn_eq_splitOnP, ne_eq, List.map_eq_nil_iff]
  exact List.splitOnP_ne_nil _ _

end Segments

namespace TypeInfo

variable {t : TypeInfo} {root : String}

/-- Whether the namespace of a type begins with the root namespace. -/
def isRooted (t : TypeInfo) (root : String) : Bool :=
  t.namespaceName.any fun ns => (segments ns).head? = some root

/-- The dotted name whose segments are the table of a type. -/
def tableName (t : TypeInfo) (root name : String) : String :=
  if t.isRooted root then name else t.inNamespace name

theorem tablePath_eq (t : TypeInfo) (root name : String) :
    tablePath t.namespaceName name root = segments (t.tableName root name) := by
  unfold tablePath tableName isRooted inNamespace properNamespace
  cases t.namespaceName with
  | none => rfl
  | some ns =>
    by_cases hempty : ns = ""
    · rw [Option.filter_some, if_neg (by simp [hempty])]
      simp
    · rw [Option.filter_some, if_pos (by simp [hempty])]
      by_cases hroot : (segments ns).head? = some root
      · simp [hroot]
      · simp [hroot, segments_append]

/-- What stands inside a type of the same namespace lies below the table of that type. -/
theorem tablePath_enclosed {u : TypeInfo} (h : u.properNamespace = t.properNamespace)
    (root outer own : String) : tablePath t.namespaceName (outer ++ "." ++ own) root =
      tablePath u.namespaceName outer root ++ segments own := by
  have hu : ∀ name, tablePath u.namespaceName name root = tablePath t.namespaceName name root := by
    intro name
    have hproper : u.namespaceName.filter (· ≠ "") = t.namespaceName.filter (· ≠ "") := h
    rw [tablePath, tablePath, hproper]
  rw [hu, tablePath, tablePath, segments_append, List.append_assoc]

end TypeInfo

namespace Session

open Operation

variable {c : Catalog} {s : Session} {id : TypeId}

/-- What a session says of the name and the place of a type. -/
structure Places (c : Catalog) (s : Session) (id : TypeId) (name short : String)
    (path : List String) : Prop where
  qualifiedName : s.Answers (Recording.qualifiedName c id) name
  localName : s.Answers (Recording.localName c id) short
  table : s.Answers (Recording.table c s.settings.rootNamespace id) path

theorem IsSound.places (hs : s.IsSound c) (hc : c.IsRegular) {shape : Shape} {info : TypeInfo}
    {short : String} (hshape : c.shape id = .ok shape) (hi : c.get? (shape.resolve id) = some info)
    (hname : c.localName (shape.resolve id) = .ok short) :
    s.Places c id (info.inNamespace short) short
      (tablePath info.namespaceName short s.settings.rootNamespace) where
  qualifiedName := hs.answers
    (Recording.qualifiedName_meets hc hshape (Catalog.qualifiedName_of_localName hi hname))
  localName := hs.answers (Recording.localName_meets hc hshape hname)
  table := by
    refine hs.answers (Recording.table_meets hc hshape ?_)
    rw [Catalog.defaultTable, Catalog.lookup_eq_ok.mpr hi, ok_bind, hname, ok_bind, pure_eq_ok]

/--
After any operations, the qualified name of a type is its local name behind the namespace, and its
table, read as a dotted name, is the local name where the namespace begins with the root namespace
and the qualified name elsewhere. A type that stands inside another one of the same namespace has
the local name of this one before its own, and its table lies below the table of this one.
-/
theorem names_cohere (hc : c.IsRegular) (settings : Settings) (ops : List Operation)
    (hops : ∀ op ∈ ops, ∀ t ∈ op.types, t ∈ c.ids) :
    ∃ s, (performAll c ops).run { settings } = .ok ((), s) ∧ s.settings = settings ∧
      ∀ id ∈ c.ids, ∃ shape info name short path, c.shape id = .ok shape ∧
        c.get? (shape.resolve id) = some info ∧ s.Places c id name short path ∧
        name = info.inNamespace short ∧
        ".".intercalate path = (if info.isRooted settings.rootNamespace then short else name) ∧
        ∀ d outer, info.enclosing = some d → c.get? d = some outer →
          outer.properNamespace = info.properNamespace →
          (∀ payload, c.shape d ≠ .ok (.nullable payload)) →
            ∃ outerName outerShort outerPath own below,
              s.Places c d outerName outerShort outerPath ∧ short = outerShort ++ "." ++ own ∧
              path = outerPath ++ below ∧ below ≠ [] := by
  obtain ⟨⟨⟨⟩, s⟩, hs, hcont⟩ := performAll_yields hc ops hops (isSound_empty settings)
  have hset : s.settings = settings := hcont.settings
  have hplaces {id : TypeId} {shape : Shape} {info : TypeInfo} {short : String} :=
    @IsSound.places c s id hcont.sound hc shape info short
  rw [hset] at hplaces
  refine ⟨s, hs, hset, fun id hid => ?_⟩
  obtain ⟨shape, hshape, -⟩ := hc.closed.shape_yields hid
  obtain ⟨info, hi⟩ := Catalog.mem_ids_iff.mp (hc.closed.mem_resolve hshape)
  obtain ⟨short, hshort, -⟩ := hc.nameIn_yields .withoutNamespace (Catalog.mem_ids_of_get hi)
  refine ⟨shape, info, info.inNamespace short, short, _, hshape, hi, hplaces hshape hi hshort, rfl,
    ?_, fun d outer hd houter hspace hwrapper => ?_⟩
  · rw [TypeInfo.tablePath_eq, intercalate_segments, TypeInfo.tableName]
  · obtain ⟨outerShort, own, hname, rfl⟩ := Catalog.localName_enclosed hc hi hd hshort
    obtain ⟨s', hs', -⟩ := hc.closed.shape_yields (Catalog.mem_ids_of_get houter)
    have hself : s'.resolve d = d := by
      cases s' with
      | nullable payload => exact absurd hs' (hwrapper payload)
      | _ => rfl
    refine ⟨_, outerShort, _, own, segments own,
      hplaces hs' (hself.symm ▸ houter) (hself.symm ▸ hname), rfl, ?_, segments_ne_nil own⟩
    exact TypeInfo.tablePath_enclosed hspace _ _ _

/-- Hives with combs inside, cells of wax in these, and such cells that may be missing. -/
def hives : Catalog where
  entries := #[⟨"Nullable", { name := "Nullable`1", namespaceName := some "System" }⟩,
    ⟨"Wax", { name := "Wax" }⟩,
    ⟨"Hive", { name := "Hive", namespaceName := some "Farm.Bees" }⟩,
    ⟨"Comb", { name := "Comb", namespaceName := some "Farm.Bees", enclosing := some ⟨2⟩ }⟩,
    ⟨"Cell", { name := "Cell`1", namespaceName := some "Farm.Bees", enclosing := some ⟨3⟩ }⟩,
    ⟨"Cell<Wax>",
      { name := "Cell`1", namespaceName := some "Farm.Bees", enclosing := some ⟨3⟩,
        definition := some ⟨4⟩, arguments := [⟨1⟩] }⟩,
    ⟨"Cell<Wax>?",
      { name := "Nullable`1", namespaceName := some "System", definition := some ⟨0⟩,
        arguments := [⟨5⟩] }⟩]

theorem hives_isRegular : hives.IsRegular :=
  Catalog.isRegular_of_earlier (by decide +kernel)

/-- A cell that may be missing lies below its comb. -/
theorem hives_cohere : ∃ s name short path outerName outerShort outerPath own below,
    (performAll hives [.scriptName ⟨6⟩, .generate ⟨3⟩]).run
      { settings := { rootNamespace := "Farm" } } = .ok ((), s) ∧
    s.Places hives ⟨6⟩ name short path ∧ name = "Farm.Bees." ++ short ∧
    ".".intercalate path = short ∧ s.Places hives ⟨3⟩ outerName outerShort outerPath ∧
    short = outerShort ++ "." ++ own ∧ path = outerPath ++ below ∧ below ≠ [] := by
  obtain ⟨s, hs, -, hall⟩ := names_cohere hives_isRegular { rootNamespace := "Farm" }
    [.scriptName ⟨6⟩, .generate ⟨3⟩] (by decide +kernel)
  obtain ⟨shape, info, name, short, path, hshape, hi, hplaces, hname, hpath, hnested⟩ :=
    hall ⟨6⟩ (by decide +kernel)
  have hcell : hives.shape ⟨6⟩ = .ok (.nullable ⟨5⟩) := by decide +kernel
  obtain rfl := Except.ok.inj (hshape.symm.trans hcell)
  obtain rfl := Option.some.inj hi
  obtain ⟨outerName, outerShort, outerPath, own, below, houter, hshort, hbelow⟩ :=
    hnested ⟨3⟩ _ rfl rfl (by decide +kernel) (by
      intro payload h
      have hcomb : hives.shape ⟨3⟩ = .ok .plain := by decide +kernel
      simp [hcomb] at h)
  exact ⟨s, name, short, path, outerName, outerShort, outerPath, own, below, hs, hplaces, hname,
    hpath, houter, hshort, hbelow⟩

end Session

end TypeDocs
