import TypeDocs.Proofs.Ascending
import TypeDocs.Proofs.Validity
import TypeDocs.Shape

namespace TypeDocs

open Relation

/-- The types of a member that can be called. -/
def Method.types (m : Method) : List TypeId :=
  m.parameters.map Parameter.type ++ m.result.toList

def Constructor.types (k : Constructor) : List TypeId :=
  k.parameters.map Parameter.type

/-- All types that a type refers to, in its header or through its members. -/
def TypeInfo.references (t : TypeInfo) : List TypeId :=
  t.enclosing.toList ++ t.definition.toList ++ t.arguments ++ t.element.toList ++ t.base.toList ++
    t.fields.map Field.type ++ t.properties.map Property.type ++
    t.methods.flatMap Method.types ++ t.constructors.flatMap Constructor.types

namespace Catalog

/-- Every reference leads to a type of the catalog. -/
def IsClosed (c : Catalog) : Prop :=
  ∀ id info, c.get? id = some info → ∀ t ∈ info.references, t ∈ c.ids

/-- No name contains itself. -/
def IsAcyclic (c : Catalog) : Prop :=
  ∀ id, ¬ TransGen c.NamePart id id

structure IsRegular (c : Catalog) : Prop where
  closed : c.IsClosed
  acyclic : c.IsAcyclic

variable {c : Catalog} {id : TypeId} {info : TypeInfo}

theorem IsClosed.hasBases (h : c.IsClosed) : c.HasBases := by
  intro id _ info hi b hb
  apply h id info hi
  simp [TypeInfo.references, Option.mem_def.mp hb]

theorem IsClosed.mem_namePart (h : c.IsClosed) {a b : TypeId} (hab : c.NamePart a b) :
    b ∈ c.ids := by
  obtain ⟨info, hi, hb⟩ := hab
  apply h a info hi
  rcases hb with hb | hb | hb <;> simp [TypeInfo.references, hb]

theorem IsClosed.mem_reach (h : c.IsClosed) {a b : TypeId} (ha : a ∈ c.ids)
    (hab : ReflTransGen c.NamePart a b) : b ∈ c.ids := by
  rcases ReflTransGen.cases_tail hab with rfl | ⟨m, -, hm⟩
  · exact ha
  · exact h.mem_namePart hm

/-- Validation looks at all names, and where there is no type there is no name. -/
theorem isRegular_of_validate (hclosed : c.IsClosed) (hv : c.validate = .ok ()) : c.IsRegular := by
  refine ⟨hclosed, fun id hcycle => ?_⟩
  obtain ⟨b, ⟨info, hi, -⟩, -⟩ := TransGen.head'_iff.mp hcycle
  exact (isSound_of_validate hv hi).name.irrefl hcycle

/-- So is a catalog in which names go through earlier types only, whatever bases and members do. -/
theorem isRegular_of_earlier (h : ∀ t ∈ c.ids, ∀ info ∈ c.get? t,
    (∀ u ∈ info.references, u ∈ c.ids) ∧ ∀ u ∈ info.nameParts, u.index < t.index) :
    c.IsRegular := by
  have hearlier : ∀ a b, TransGen c.NamePart a b → b.index < a.index := by
    intro a b hab
    induction hab with
    | single hb =>
      obtain ⟨info, hi, hb⟩ := namePart_iff.mp hb
      exact (h a (mem_ids_of_get hi) info hi).2 _ hb
    | @tail m b _ hb ih =>
      obtain ⟨info, hi, hb⟩ := namePart_iff.mp hb
      exact Nat.lt_trans ((h m (mem_ids_of_get hi) info hi).2 b hb) ih
  exact ⟨fun t info hi => (h t (mem_ids_of_get hi) info hi).1,
    fun t ht => Nat.lt_irrefl _ (hearlier t t ht)⟩

/-- In a regular catalog the name of every type comes to an end. -/
theorem IsRegular.settles (h : c.IsRegular) (hid : id ∈ c.ids) : Settles c.NamePart c.ids id :=
  fun u hu => ⟨h.closed.mem_reach hid hu, h.acyclic u⟩

theorem IsClosed.payload_yields (h : c.IsClosed) (hid : id ∈ c.ids) :
    Yields (c.payload? id) fun p => ∀ t, p = some t → c.NamePart id t := by
  refine (lookup_yields hid).bind fun info hi => ?_
  cases hd : info.definition with
  | none => exact .pure (by simp)
  | some d =>
    have hmem : d ∈ c.ids := h id info hi d (by simp [TypeInfo.references, hd])
    refine (lookup_yields hmem).bind fun generic _ => .pure ?_
    intro t ht
    split at ht
    · exact ⟨info, hi, Or.inl (List.mem_of_mem_head? ht)⟩
    · simp at ht

/-- Unwrapping takes at most one step along the name. -/
theorem IsClosed.unwrap_yields (h : c.IsClosed) (hid : id ∈ c.ids) :
    Yields (c.unwrap id) fun t => ReflTransGen c.NamePart id t := by
  refine (h.payload_yields hid).bind fun p hp => .pure ?_
  cases p with
  | none => exact .refl
  | some t => exact .single (hp t rfl)

/-- A part of a type is reached by naming a part of it and taking one wrapper off. -/
theorem IsClosed.part_yields (h : c.IsClosed) {a : TypeId} (ha : c.NamePart id a) :
    Yields (c.unwrap a) fun t => TransGen c.NamePart id t :=
  (h.unwrap_yields (h.mem_namePart ha)).mono fun _ ht => TransGen.head' ha ht

/-- A shape whose parts the name of `id` goes through and that mentions nothing else. -/
def BuiltFrom (c : Catalog) (id : TypeId) (s : Shape) : Prop :=
  s.mentioned = s.parts ∧ ∀ t ∈ s.parts, TransGen c.NamePart id t

theorem IsClosed.container_yields (h : c.IsClosed) (hi : c.get? id = some info) :
    Yields (c.container? info) fun s => ∀ t, s = some t → c.BuiltFrom id t := by
  have harg : ∀ a ∈ info.arguments, Yields (c.unwrap a) fun t => TransGen c.NamePart id t :=
    fun a ha => h.part_yields ⟨info, hi, Or.inl ha⟩
  unfold container?
  cases hd : info.definition with
  | none => exact .pure (by simp)
  | some d =>
    have hmem : d ∈ c.ids := h id info hi d (by simp [TypeInfo.references, hd])
    refine (lookup_yields hmem).bind fun generic _ => ?_
    split
    · split
      · rename_i a as has
        refine (harg a (by simp [has])).bind fun t ht => .pure ?_
        rintro _ ⟨⟩
        exact ⟨rfl, by simpa [Shape.parts] using ht⟩
      · exact .pure (by simp)
    · split
      · split
        · rename_i k v as has
          refine (harg k (by simp [has])).bind fun t ht => ?_
          refine (harg v (by simp [has])).bind fun u hu => .pure ?_
          rintro _ ⟨⟩
          exact ⟨rfl, by simpa [Shape.parts] using ⟨ht, hu⟩⟩
        · exact .pure (by simp)
      · exact .pure (by simp)

theorem IsClosed.delegateMethod_yields (h : c.IsClosed) (hi : c.get? id = some info) :
    Yields (c.delegateMethod id) fun m => ∀ k, m = some k → k ∈ info.methods := by
  have hmem := mem_ids_of_get hi
  refine (derivesFrom_yields h.hasBases hmem delegateName).bind fun derives _ => ?_
  split
  · refine (lookup_yields hmem).bind fun i hi' => .pure ?_
    obtain rfl : info = i := Option.some.inj (hi.symm.trans hi')
    intro k hk
    exact List.mem_of_find?_eq_some hk
  · exact .pure (by simp)

/-- Every type of a regular catalog has a shape. -/
theorem IsClosed.shape_yields (h : c.IsClosed) (hid : id ∈ c.ids) :
    Yields (c.shape id) fun s =>
      (∀ t ∈ s.parts, TransGen c.NamePart id t) ∧ ∀ t ∈ s.mentioned, t ∈ c.ids := by
  have hbuilt (s : Shape) (hs : c.BuiltFrom id s) :
      (∀ t ∈ s.parts, TransGen c.NamePart id t) ∧ ∀ t ∈ s.mentioned, t ∈ c.ids := by
    refine ⟨hs.2, ?_⟩
    intro t ht
    exact h.mem_reach hid (hs.2 t (hs.1 ▸ ht)).to_reflTransGen
  unfold shape
  refine (lookup_yields hid).bind fun info hi => ?_
  refine (h.payload_yields hid).bind fun p hp => ?_
  cases p with
  | some t =>
    refine .pure (hbuilt _ ⟨rfl, ?_⟩)
    simpa [Shape.parts] using TransGen.single (hp t rfl)
  | none =>
    cases he : info.element with
    | some e =>
      refine (h.part_yields (a := e) ⟨info, hi, Or.inr (Or.inl he)⟩).bind fun t ht => ?_
      exact .pure (hbuilt _ ⟨rfl, by simpa [Shape.parts] using ht⟩)
    | none =>
      refine (h.container_yields hi).bind fun s hs => ?_
      cases s with
      | some s => exact .pure (hbuilt s (hs s rfl))
      | none =>
        refine (h.delegateMethod_yields hi).bind fun m hm => ?_
        cases m with
        | none => exact .pure (hbuilt _ ⟨rfl, by simp [Shape.parts]⟩)
        | some m =>
          refine .pure ⟨by simp [Shape.parts], ?_⟩
          intro t ht
          apply h id info hi t
          have hmt : t ∈ m.types := ht
          have : t ∈ info.methods.flatMap Method.types := List.mem_flatMap.mpr ⟨m, hm m rfl, hmt⟩
          simp [TypeInfo.references, this]

/-- A reference of the shape: what describing a type goes on to. -/
def Mentions (c : Catalog) (a b : TypeId) : Prop :=
  ∃ s, c.shape a = .ok s ∧ b ∈ s.mentioned

/-- A reference of the inheritance graph: to the base behind a wrapper, or to a part of a shape. -/
def LeadsTo (c : Catalog) (a b : TypeId) : Prop :=
  c.resolvedBase a = .ok (some b) ∨ ∃ s, c.shape a = .ok s ∧ b ∈ s.parts

theorem mem_ids_of_shape {s : Shape} (h : c.shape id = .ok s) : id ∈ c.ids := by
  obtain ⟨info, hi, -⟩ := bind_eq_ok.mp h
  exact mem_ids_of_lookup hi

theorem IsClosed.mem_mentioned (h : c.IsClosed) {s : Shape} {t : TypeId} (hs : c.shape id = .ok s)
    (ht : t ∈ s.mentioned) : t ∈ c.ids :=
  ((h.shape_yields (mem_ids_of_shape hs)).of_eq_ok hs).2 t ht

theorem IsClosed.namePart_of_part (h : c.IsClosed) {s : Shape} {t : TypeId}
    (hs : c.shape id = .ok s) (ht : t ∈ s.parts) : TransGen c.NamePart id t :=
  ((h.shape_yields (mem_ids_of_shape hs)).of_eq_ok hs).1 t ht

theorem IsClosed.mem_part (h : c.IsClosed) {s : Shape} {t : TypeId} (hs : c.shape id = .ok s)
    (ht : t ∈ s.parts) : t ∈ c.ids :=
  h.mem_reach (mem_ids_of_shape hs) (h.namePart_of_part hs ht).to_reflTransGen

theorem IsClosed.mem_resolve (h : c.IsClosed) {s : Shape} (hs : c.shape id = .ok s) :
    s.resolve id ∈ c.ids := by
  cases s with
  | nullable t => exact h.mem_part hs (by simp [Shape.resolve, Shape.parts])
  | _ => exact mem_ids_of_shape hs

theorem IsClosed.resolvedBase_yields (h : c.IsClosed) (hid : id ∈ c.ids) :
    Yields (c.resolvedBase id) fun b => ∀ t, b = some t → t ∈ c.ids := by
  obtain ⟨s, hs, -⟩ := h.shape_yields hid
  obtain ⟨info, hi⟩ := mem_ids_iff.mp (h.mem_resolve hs)
  refine ⟨info.base, by simp [resolvedBase, hs, lookup_eq_ok.mpr hi], ?_⟩
  intro t ht
  exact h _ info hi t (by simp [TypeInfo.references, ht])

end Catalog

end TypeDocs
