import TypeDocs.Proofs.Descending
import TypeDocs.Proofs.Regular

namespace TypeDocs

/-- Every reference of a type is a position below the limit. -/
structure TypeInfo.IsWithin (limit : Nat) (t : TypeInfo) : Prop where
  enclosing : ∀ u ∈ t.enclosing, u.index < limit
  definition : ∀ u ∈ t.definition, u.index < limit
  arguments : ∀ u ∈ t.arguments, u.index < limit
  element : ∀ u ∈ t.element, u.index < limit
  base : ∀ u ∈ t.base, u.index < limit
  fields : ∀ f ∈ t.fields, f.type.index < limit
  properties : ∀ p ∈ t.properties, p.type.index < limit
  methods : ∀ m ∈ t.methods, ∀ u ∈ m.types, u.index < limit
  constructors : ∀ k ∈ t.constructors, ∀ u ∈ k.types, u.index < limit

theorem TypeInfo.IsWithin.references {limit : Nat} {t : TypeInfo} (h : t.IsWithin limit) :
    ∀ u ∈ t.references, u.index < limit := by
  simp only [TypeInfo.references, List.forall_mem_append, List.forall_mem_map,
    List.forall_mem_flatMap, Option.mem_toList]
  exact ⟨⟨⟨⟨⟨⟨⟨⟨h.enclosing, h.definition⟩, h.arguments⟩, h.element⟩, h.base⟩, h.fields⟩,
    h.properties⟩, h.methods⟩, h.constructors⟩

namespace KeyTable

theorem contains_ofKeys {keys : List String} {key : String} :
    (Index.ofKeys TypeId.mk keys).contains key = true ↔ key ∈ keys := by
  induction keys using List.reverseRec with
  | nil => simp [Index.ofKeys, Index.contains]
  | append_singleton keys last ih =>
    rw [Index.contains] at ih ⊢
    rw [Index.ofKeys_concat, Index.get?_insert, List.mem_append, List.mem_singleton, ← ih]
    split <;> simp [*]

/-- Keys are given positions as long as they are different. -/
theorem assign_eq_ok_iff {keys : List String} {table : KeyTable} :
    assign keys = .ok table ↔ keys.Nodup ∧ table = .ofKeys TypeId.mk keys := by
  induction keys using List.reverseRec generalizing table with
  | nil =>
    simp only [List.nodup_nil, true_and]
    exact ⟨fun h => (Except.ok.inj h).symm, fun h => congrArg _ h.symm⟩
  | append_singleton keys key ih =>
    have hstep : assign (keys ++ [key]) = assign keys >>= fun table =>
        if table.contains key then .error (.duplicate "type" key)
        else .ok (table.insert key ⟨keys.length⟩) := by
      rw [assign, List.zipIdx_append, List.foldlM_append]
      simp only [List.zipIdx_singleton, List.foldlM_cons, List.foldlM_nil, bind_pure, Nat.zero_add]
      rfl
    rw [hstep, bind_eq_ok, Index.ofKeys_concat, ← List.concat_eq_append, List.nodup_concat]
    constructor
    · rintro ⟨before, hbefore, h⟩
      obtain ⟨hnodup, rfl⟩ := ih.mp hbefore
      split at h
      · simp at h
      · rename_i hnew
        exact ⟨⟨fun hmem => hnew (contains_ofKeys.mpr hmem), hnodup⟩, (Except.ok.inj h).symm⟩
    · rintro ⟨⟨hnew, hnodup⟩, rfl⟩
      exact ⟨_, ih.mpr ⟨hnodup, rfl⟩, if_neg fun h => hnew (contains_ofKeys.mp h)⟩

/-- Every key stands for a type below the limit. -/
def IsWithin (limit : Nat) (keys : KeyTable) : Prop :=
  ∀ key, ∀ t ∈ keys.get? key, t.index < limit

theorem isWithin_ofKeys (keys : List String) :
    IsWithin keys.length (.ofKeys TypeId.mk keys) := by
  intro key t ht
  exact (List.getElem?_eq_some_iff.mp (Catalog.get?_ofKeys.mp ht).1).1

end KeyTable

namespace Reader

open Markup

/-- Accessors leave the name and the type of the property as they are. -/
theorem accessors_keep (p : Property) (inside : Forest) :
    Ensures (accessors p inside) fun q => q.name = p.name ∧ q.type = p.type := by
  induction inside generalizing p with
  | nil => exact .ok ⟨rfl, rfl⟩
  | node tag inner after _ ih =>
    have hadd : Ensures (addAccessor p tag) fun q => q.name = p.name ∧ q.type = p.type := by
      unfold addAccessor
      split
      · exact .after fun _ => .pure ⟨rfl, rfl⟩
      · exact .after fun _ => .pure ⟨rfl, rfl⟩
      · exact .ok ⟨rfl, rfl⟩
    exact hadd.bind fun q hq => hq.1 ▸ hq.2 ▸ ih q

section Within

variable {keys : KeyTable} {limit : Nat} (hkeys : keys.IsWithin limit)
include hkeys

theorem resolve_lt (key referrer : String) :
    Ensures (keys.resolve key referrer) fun t => t.index < limit := by
  unfold KeyTable.resolve
  cases ht : keys.get? key with
  | none => exact .error _
  | some t => exact .ok (hkeys key t ht)

theorem field_lt (owner : String) (tag : Tag) :
    Ensures (field keys owner tag) fun f => f.type.index < limit :=
  .after fun _ => .after fun _ => .after fun _ => (resolve_lt hkeys _ _).bind fun _ ht => .pure ht

theorem propertyHeader_lt (owner : String) (tag : Tag) :
    Ensures (propertyHeader keys owner tag) fun p => p.type.index < limit :=
  .after fun _ => .after fun _ => .after fun _ => (resolve_lt hkeys _ _).bind fun _ ht => .pure ht

theorem parameter_lt (owner : String) (tag : Tag) :
    Ensures (parameter keys owner tag) fun p => p.type.index < limit :=
  .after fun _ => .after fun _ => .after fun _ => (resolve_lt hkeys _ _).bind fun _ ht => .pure ht

theorem parameters_lt (owner : String) (inside : Forest) :
    Ensures (parameters keys owner inside) fun ps => ∀ p ∈ ps, p.type.index < limit := by
  induction inside with
  | nil => exact .ok (by simp)
  | node tag inner after _ ih =>
    unfold parameters
    split
    · refine (parameter_lt hkeys owner tag).bind fun p hp => ?_
      refine ih.bind fun later hl => .pure ?_
      simpa using ⟨hp, hl⟩
    · refine ih.bind fun later hl => .pure ?_
      simpa using hl

theorem methodHeader_lt (owner : String) (tag : Tag) :
    Ensures (methodHeader keys owner tag) fun m => ∀ t ∈ m.result, t.index < limit := by
  refine .after fun d => .after fun name => ?_
  dsimp only
  split
  · exact .pure (by simp)
  · refine (resolve_lt hkeys _ _).bind fun t ht => .pure ?_
    rintro _ ⟨⟩
    exact ht

/-- An attribute that refers to types refers to types with keys. -/
theorem addTypeAttribute_within (key : String) (t : TypeInfo) (a : Attribute)
    (ht : t.IsWithin limit) :
    Ensures (addTypeAttribute keys key t a) fun t => t.IsWithin limit := by
  have hsome {u v : TypeId} (hu : u.index < limit) (hv : v ∈ some u) : v.index < limit := by
    rwa [← Option.mem_some_iff.mp hv]
  have hresolve := resolve_lt hkeys a.value key
  unfold addTypeAttribute
  split
  · exact .ok { ht with }
  · exact .ok { ht with }
  · exact hresolve.bind fun u hu => .pure { ht with enclosing := fun v => hsome hu }
  · exact hresolve.bind fun u hu => .pure { ht with definition := fun v => hsome hu }
  · exact (Ensures.mapM fun _ _ => resolve_lt hkeys _ _).bind
      fun us hus => .pure { ht with arguments := hus }
  · exact hresolve.bind fun u hu => .pure { ht with element := fun v => hsome hu }
  · exact hresolve.bind fun u hu => .pure { ht with base := fun v => hsome hu }
  · exact .ok ht

theorem typeHeader_within (tag : Tag) :
    Ensures (typeHeader keys tag) fun e => e.info.IsWithin limit := by
  refine .after fun as => .after fun key => ?_
  refine (Ensures.foldlM (fun a _ t ht => addTypeAttribute_within hkeys key t a ht) ?_).bind
    fun info hinfo => .after fun _ => .pure hinfo
  constructor <;> simp

/-- So does a member. -/
theorem member_within (key : String) (t : TypeInfo) (tag : Tag) (inside : Forest)
    (ht : t.IsWithin limit) :
    Ensures (member keys key t tag inside) fun t => t.IsWithin limit := by
  unfold member
  split
  · refine (field_lt hkeys key tag).bind fun f hf => .pure { ht with fields := ?_ }
    exact List.forall_mem_append.mpr ⟨ht.fields, by simpa using hf⟩
  · refine (propertyHeader_lt hkeys key tag).bind fun p hp => ?_
    refine (accessors_keep p inside).bind fun q hq => .pure { ht with properties := ?_ }
    exact List.forall_mem_append.mpr ⟨ht.properties, by simpa [hq.2] using hp⟩
  · refine (methodHeader_lt hkeys key tag).bind fun m hm => ?_
    refine (parameters_lt hkeys _ inside).bind fun ps hps => .pure { ht with methods := ?_ }
    refine List.forall_mem_append.mpr ⟨ht.methods, ?_⟩
    rw [List.forall_mem_singleton, Method.types, List.forall_mem_append, List.forall_mem_map]
    exact ⟨hps, fun u hu => hm u (Option.mem_toList.mp hu)⟩
  · refine .after fun k => ?_
    refine (parameters_lt hkeys _ inside).bind fun ps hps => .pure { ht with constructors := ?_ }
    refine List.forall_mem_append.mpr ⟨ht.constructors, ?_⟩
    rw [List.forall_mem_singleton, Constructor.types, List.forall_mem_map]
    exact hps
  · exact .error _
  · exact .ok ht

theorem members_within (key : String) (t : TypeInfo) (inside : Forest) (ht : t.IsWithin limit) :
    Ensures (members keys key t inside) fun t => t.IsWithin limit := by
  induction inside generalizing t with
  | nil => exact .ok ht
  | node tag inner after _ ih => exact (member_within hkeys key t tag inner ht).bind ih

theorem typeEntry_within (tag : Tag) (inside : Forest) :
    Ensures (typeEntry keys tag inside) fun e => e.info.IsWithin limit :=
  (typeHeader_within hkeys tag).bind fun e he =>
    (members_within hkeys e.key e.info inside he).bind fun _ hinfo => .pure hinfo

end Within

/-- All entries read so far refer to types with keys. -/
def EntriesWithin (limit : Nat) (c : Catalog) : Prop :=
  ∀ e ∈ c.entries.toList, e.info.IsWithin limit

theorem emptyCatalog_within (limit : Nat) (tag : Tag) :
    Ensures (emptyCatalog tag) (EntriesWithin limit) :=
  .after fun _ => .pure (by simp [EntriesWithin])

theorem openCatalog_eq (catalog : Option Catalog) :
    Ensures (openCatalog catalog) fun c => catalog = some c := by
  cases catalog with
  | none => exact .error _
  | some c => exact .ok rfl

theorem catalogFrom_within {keys : KeyTable} {limit : Nat} (hkeys : keys.IsWithin limit)
    (catalog : Option Catalog) (forest : Forest) (hc : ∀ c ∈ catalog, EntriesWithin limit c) :
    Ensures (catalogFrom keys catalog forest) fun found => ∀ c ∈ found, EntriesWithin limit c := by
  induction forest generalizing catalog with
  | nil => exact .ok hc
  | node tag inside after ihi iha =>
    rw [catalogFrom]
    split
    · refine (emptyCatalog_within limit tag).bind fun c hc => ?_
      exact (ihi (some c) (by simpa using hc)).bind fun found hf => iha found hf
    · split
      · refine (openCatalog_eq catalog).bind fun c hopen => ?_
        refine (typeEntry_within hkeys tag inside).bind fun e he => iha _ ?_
        rintro _ ⟨⟩
        rw [EntriesWithin, Catalog.insert, Array.toList_push, List.forall_mem_append]
        exact ⟨hc c hopen, by simpa using he⟩
      · exact (ihi catalog hc).bind fun found hf => iha found hf

end Reader

namespace Catalog

/-- What it takes for the parts of a document to make up a catalog. -/
theorem ofReading_eq_ok_iff {r : Markup.Reading} {c : Catalog} : ofReading r = .ok c ↔
    ∃ keys, Reader.declaredKeys none r.content = .ok keys ∧ r.fault = none ∧ keys.Nodup ∧
      Reader.catalogFrom (.ofKeys TypeId.mk keys) none r.content = .ok (some c) ∧
      c.size = keys.length := by
  unfold ofReading
  rw [bind_eq_ok]
  refine exists_congr fun keys => and_congr_right fun _ => ?_
  cases r.fault with
  | some fault => simp [throw, throwThe, MonadExceptOf.throw, bind, Except.bind]
  | none =>
    simp only [true_and, bind_eq_ok, KeyTable.assign_eq_ok_iff]
    constructor
    · rintro ⟨table, ⟨hnodup, rfl⟩, found, hfound, h⟩
      refine ⟨hnodup, ?_⟩
      cases found with
      | none => simp [throw, throwThe, MonadExceptOf.throw] at h
      | some c' =>
        dsimp only at h
        split at h
        · rename_i hsize
          obtain rfl := Except.ok.inj h
          exact ⟨hfound, hsize⟩
        · simp [throw, throwThe, MonadExceptOf.throw] at h
    · rintro ⟨hnodup, hfound, hsize⟩
      exact ⟨_, ⟨hnodup, rfl⟩, some c, hfound, by simp [hsize]⟩

theorem parse_eq_ok_iff {text : String} {c : Catalog} : parse text = .ok c ↔
    ∃ keys, Reader.declaredKeys none (Markup.read text).content = .ok keys ∧
      (Markup.read text).fault = none ∧ keys.Nodup ∧
      Reader.catalogFrom (.ofKeys TypeId.mk keys) none (Markup.read text).content =
        .ok (some c) ∧
      c.size = keys.length := by
  rw [parse_eq, ofReading_eq_ok_iff]

/-- A catalog that is read refers to types of its own only. -/
theorem parse_isClosed (text : String) : Ensures (parse text) IsClosed := by
  intro c h
  obtain ⟨keys, -, -, -, hfound, hsize⟩ := parse_eq_ok_iff.mp h
  have hwithin := Reader.catalogFrom_within (KeyTable.isWithin_ofKeys keys) none _ (by simp) _
    hfound c rfl
  -- as many types as keys: positions of keys are positions of types
  intro id info hi t ht
  obtain ⟨e, he, rfl⟩ := Option.map_eq_some_iff.mp hi
  have hmem : e ∈ c.entries.toList := by simpa using Array.mem_of_getElem? he
  rw [mem_ids, hsize]
  exact (hwithin e hmem).references t ht

end Catalog

end TypeDocs
