import Mathlib.Data.List.Nodup
import TypeDocs.Registry

/-!
Indexes beside what they index. A registry finds types by an index and tells by a set of handles
which of them have pairs; both say what the arrays beside them do as long as every type comes in
once, under the next handle, and every pair joins handles that were issued.
-/

namespace TypeDocs

/-- Keys are bound just to what goes with the positions where they stand. -/
def Index.Locates {κ ν : Type} [DecidableEq κ] (i : Index κ ν) (place : Nat → ν) (keys : List κ) :
    Prop :=
  ∀ key value, i.get? key = some value ↔ ∃ n, keys[n]? = some key ∧ place n = value

namespace Index

variable {κ ν : Type} [DecidableEq κ] {i : Index κ ν} {place : Nat → ν} {keys : List κ} {key : κ}

theorem locates_empty : ({} : Index κ ν).Locates place [] := by
  simp [Locates]

/-- A new key is bound to what goes with the next position. -/
theorem Locates.concat (h : i.Locates place keys) (hkey : key ∉ keys) :
    (i.insert key (place keys.length)).Locates place (keys ++ [key]) := by
  intro key' value
  rw [get?_insert]
  split
  · rename_i heq
    subst heq
    constructor
    · rintro ⟨⟩
      exact ⟨keys.length, by simp, rfl⟩
    · rintro ⟨n, hn, rfl⟩
      rw [List.getElem?_append] at hn
      split at hn
      · exact absurd (List.mem_of_getElem? hn) hkey
      · have hlt := (List.getElem?_eq_some_iff.mp hn).1
        rw [List.length_singleton] at hlt
        congr 2
        omega
  · rename_i hne
    rw [h key' value]
    refine exists_congr fun n => and_congr_left fun _ => ?_
    rw [List.getElem?_append]
    split
    · rfl
    · rename_i hge
      rw [List.getElem?_eq_none (Nat.le_of_not_lt hge), List.getElem?_singleton]
      split <;> simp [Ne.symm hne]

theorem Locates.isSome_iff (h : i.Locates place keys) : (i.get? key).isSome ↔ key ∈ keys := by
  rw [Option.isSome_iff_exists, List.mem_iff_getElem?]
  simp only [h key]
  constructor
  · rintro ⟨_, n, hn, -⟩
    exact ⟨n, hn⟩
  · rintro ⟨n, hn⟩
    exact ⟨_, n, hn, rfl⟩

/-- What can be bound once only does not repeat. -/
theorem Locates.nodup (h : i.Locates place keys) (hplace : Function.Injective place) :
    keys.Nodup := by
  rw [List.nodup_iff_getElem?_ne_getElem?]
  intro m n hmn hn heq
  rw [List.getElem?_eq_getElem hn] at heq
  have hm := (h keys[n] (place m)).mpr ⟨m, heq, rfl⟩
  have hn' := (h keys[n] (place n)).mpr ⟨n, List.getElem?_eq_getElem hn, rfl⟩
  exact Nat.ne_of_lt hmn (hplace (Option.some.inj (hm.symm.trans hn')))

end Index

/-- A type and its base, as a pair of handles gives them. -/
structure BaseLink where
  derived : TypeId
  base : Option TypeId
deriving DecidableEq, Repr

namespace Registry

/-- The types described, in order. -/
def types (r : Registry) : List TypeId :=
  r.descriptors.toList.map Descriptor.type

/-- The handle has been given out. -/
def Issued (r : Registry) (h : DescriptorId) : Prop :=
  h.index < r.descriptors.size

instance (r : Registry) : DecidablePred r.Issued :=
  fun h => inferInstanceAs (Decidable (h.index < r.descriptors.size))

/-- The type behind a handle that was issued. -/
def typeAt (r : Registry) (h : DescriptorId) : TypeId :=
  r.types.getD h.index ⟨0⟩

def linkOf (r : Registry) (p : BasePair) : BaseLink :=
  ⟨r.typeAt p.derived, p.base.map r.typeAt⟩

/-- The pairs, as types. -/
def links (r : Registry) : Array BaseLink :=
  r.basePairs.map r.linkOf

/-- The types linked, in order. -/
def linked (r : Registry) : List TypeId :=
  r.links.toList.map BaseLink.derived

/-- The base recorded for a type, if a pair is recorded for its descriptor at all. -/
def base? (r : Registry) (id : TypeId) : Option (Option TypeId) :=
  ((r.position? id).bind r.baseOf?).map (Option.map r.typeAt)

/-- Index and set say what the arrays say, and pairs join descriptors. -/
structure IsIndexed (r : Registry) : Prop where
  byType : r.byType.Locates DescriptorId.mk r.types
  based : ∀ h, h ∈ r.based ↔ h ∈ r.basePairs.toList.map BasePair.derived
  issued : ∀ p ∈ r.basePairs.toList, r.Issued p.derived ∧ ∀ b, p.base = some b → r.Issued b
  nodup : (r.basePairs.toList.map BasePair.derived).Nodup

variable {r r' : Registry} {id t : TypeId} {h : DescriptorId} {d : Descriptor}

theorem mem_types (hd : d ∈ r.descriptors.toList) : d.type ∈ r.types :=
  List.mem_map.mpr ⟨d, hd, rfl⟩

theorem mem_of_get (hd : r.get? h = some d) : d ∈ r.descriptors.toList :=
  List.mem_of_getElem? (by simpa [get?] using hd)

theorem issued_iff : r.Issued h ↔ ∃ d, r.get? h = some d := by
  rw [Issued, get?]
  constructor
  · exact fun hh => ⟨_, Array.getElem?_eq_getElem hh⟩
  · rintro ⟨d, hd⟩
    exact (Array.getElem?_eq_some_iff.mp hd).1

theorem issued_of_get (hd : r.get? h = some d) : r.Issued h :=
  issued_iff.mpr ⟨d, hd⟩

theorem getElem_types : r.types[h.index]? = (r.get? h).map Descriptor.type := by
  simp [types, get?]

theorem typeAt_of_get (hd : r.get? h = some d) : r.typeAt h = d.type := by
  rw [typeAt, List.getD_eq_getElem?_getD, getElem_types, hd]
  rfl

@[simp]
theorem types_insert (d : Descriptor) : (r.insert d).types = r.types ++ [d.type] := by
  simp [insert, types]

theorem position_insert (r : Registry) (d : Descriptor) :
    (r.insert d).position? d.type = some r.nextId := by
  rw [position?, insert, Index.get?_insert, if_pos rfl]

@[simp]
theorem types_link (h : DescriptorId) (b : Option DescriptorId) :
    (r.link h b).2.types = r.types := by
  unfold link
  split <;> rfl

/-- Nothing but names changes when a name is noted. -/
theorem types_update (r : Registry) (h : DescriptorId) {f : Descriptor → Descriptor}
    (hf : ∀ d, (f d).type = d.type) : (r.update h f).types = r.types := by
  apply List.ext_getElem?
  intro i
  by_cases hi : h.index = i <;> simp [update, types, hi, hf, Function.comp_def]

theorem linked_eq (r : Registry) :
    r.linked = r.basePairs.toList.map fun p => r.typeAt p.derived := by
  simp [linked, links, linkOf]

theorem isIndexed_empty : IsIndexed {} where
  byType := Index.locates_empty
  based := by simp
  issued := by simp
  nodup := by simp

namespace IsIndexed

theorem types_nodup (hr : r.IsIndexed) : r.types.Nodup :=
  hr.byType.nodup fun _ _ h => congrArg DescriptorId.index h

/-- A type is found just under the handle of its descriptor. -/
theorem position_eq_some_iff (hr : r.IsIndexed) :
    r.position? id = some h ↔ ∃ d, r.get? h = some d ∧ d.type = id := by
  rw [position?, hr.byType]
  constructor
  · rintro ⟨n, hn, rfl⟩
    exact Option.map_eq_some_iff.mp ((getElem_types (h := ⟨n⟩)).symm.trans hn)
  · rintro ⟨d, hd, rfl⟩
    exact ⟨h.index, by rw [getElem_types, hd]; rfl, rfl⟩

theorem isSome_position_iff (hr : r.IsIndexed) : (r.position? id).isSome ↔ id ∈ r.types :=
  hr.byType.isSome_iff

theorem exists_position (hr : r.IsIndexed) (hid : id ∈ r.types) :
    ∃ h d, r.position? id = some h ∧ r.get? h = some d ∧ d.type = id := by
  obtain ⟨h, hh⟩ := Option.isSome_iff_exists.mp (hr.isSome_position_iff.mpr hid)
  obtain ⟨d, hd⟩ := hr.position_eq_some_iff.mp hh
  exact ⟨h, d, hh, hd⟩

theorem typeAt_of_position (hr : r.IsIndexed) (hh : r.position? id = some h) :
    r.typeAt h = id := by
  obtain ⟨d, hd, rfl⟩ := hr.position_eq_some_iff.mp hh
  exact typeAt_of_get hd

theorem position_of_get (hr : r.IsIndexed) (hd : r.get? h = some d) :
    r.position? d.type = some h :=
  hr.position_eq_some_iff.mpr ⟨d, hd, rfl⟩

/-- A type that is new comes in under the next handle. -/
theorem insert (hr : r.IsIndexed) (hd : d.type ∉ r.types) : (r.insert d).IsIndexed where
  byType := by
    have hnext : r.nextId = ⟨r.types.length⟩ := by simp [nextId, types]
    rw [types_insert, Registry.insert, hnext]
    exact hr.byType.concat hd
  based := hr.based
  issued p hp := by
    have hsize {h : DescriptorId} (hh : r.Issued h) : (r.insert d).Issued h := by
      simp only [Issued, Registry.insert, Array.size_push]
      exact Nat.lt_succ_of_lt hh
    obtain ⟨hderived, hbase⟩ := hr.issued p hp
    exact ⟨hsize hderived, fun b hb => hsize (hbase b hb)⟩
  nodup := hr.nodup

theorem isBased_iff (hr : r.IsIndexed) :
    r.isBased h = true ↔ h ∈ r.basePairs.toList.map BasePair.derived := by
  rw [isBased, List.contains_iff_mem, hr.based]

theorem link {base : Option DescriptorId} (hr : r.IsIndexed) (hh : r.Issued h)
    (hb : ∀ b, base = some b → r.Issued b) : (r.link h base).2.IsIndexed := by
  unfold Registry.link
  split
  · exact hr
  · rename_i hnew
    rw [hr.isBased_iff] at hnew
    refine ⟨hr.byType, fun h' => ?_, ?_, ?_⟩
    · simp [hr.based, or_comm]
    · rw [Array.toList_push, List.forall_mem_append, List.forall_mem_singleton]
      exact ⟨hr.issued, hh, hb⟩
    · rw [Array.toList_push, List.map_append, List.map_singleton, ← List.concat_eq_append]
      exact hr.nodup.concat hnew

theorem update {f : Descriptor → Descriptor} (hr : r.IsIndexed)
    (hf : ∀ d, (f d).type = d.type) : (r.update h f).IsIndexed where
  byType := by
    rw [types_update r h hf]
    exact hr.byType
  based := hr.based
  issued p hp := by simpa [Issued, Registry.update] using hr.issued p hp
  nodup := hr.nodup

/-- A pair is recorded for a descriptor just when its type is linked. -/
theorem isBased_iff_linked (hr : r.IsIndexed) (hh : r.position? id = some h) :
    r.isBased h = true ↔ id ∈ r.linked := by
  rw [hr.isBased_iff, linked_eq, List.mem_map, List.mem_map]
  constructor
  · rintro ⟨p, hp, rfl⟩
    exact ⟨p, hp, hr.typeAt_of_position hh⟩
  · rintro ⟨p, hp, hid⟩
    obtain ⟨d, hd⟩ := issued_iff.mp (hr.issued p hp).1
    have hpos := hr.position_of_get hd
    rw [← typeAt_of_get hd, hid, hh] at hpos
    exact ⟨p, hp, (Option.some.inj hpos).symm⟩

theorem linked_nodup (hr : r.IsIndexed) : r.linked.Nodup := by
  have hmap : r.linked = (r.basePairs.toList.map BasePair.derived).map r.typeAt := by
    rw [linked_eq, List.map_map]
    rfl
  rw [hmap]
  refine hr.nodup.map_on fun h hh h' hh' heq => ?_
  have hissued {h : DescriptorId} (hh : h ∈ r.basePairs.toList.map BasePair.derived) :
      r.position? (r.typeAt h) = some h := by
    obtain ⟨p, hp, rfl⟩ := List.mem_map.mp hh
    obtain ⟨d, hd⟩ := issued_iff.mp (hr.issued p hp).1
    rw [typeAt_of_get hd]
    exact hr.position_of_get hd
  have hsame := hissued hh
  rw [heq, hissued hh'] at hsame
  exact (Option.some.inj hsame).symm

/-- What is answered for a type is the base of its link. -/
theorem base_eq_some_iff (hr : r.IsIndexed) {b : Option TypeId} :
    r.base? id = some b ↔ ⟨id, b⟩ ∈ r.links.toList := by
  simp only [base?, baseOf?, Option.map_eq_some_iff, Option.bind_eq_some_iff, links,
    Array.toList_map, List.mem_map, ← Array.find?_toList]
  constructor
  · rintro ⟨b', ⟨h, hh, p, hp, rfl⟩, rfl⟩
    have hderived : p.derived = h := by simpa using List.find?_some hp
    refine ⟨p, List.mem_of_find?_eq_some hp, ?_⟩
    rw [linkOf, hderived, hr.typeAt_of_position hh]
  · rintro ⟨p, hp, hlink⟩
    obtain ⟨rfl, rfl⟩ := BaseLink.mk.inj hlink
    obtain ⟨d, hd⟩ := issued_iff.mp (hr.issued p hp).1
    refine ⟨p.base, ⟨p.derived, ?_, p, ?_, rfl⟩, rfl⟩
    · rw [typeAt_of_get hd]
      exact hr.position_of_get hd
    · obtain ⟨q, hq⟩ : ∃ q, r.basePairs.toList.find? (·.derived = p.derived) = some q := by
        rw [← Option.isSome_iff_exists, List.find?_isSome]
        exact ⟨p, hp, by simp⟩
      have hderived : q.derived = p.derived := by simpa using List.find?_some hq
      rw [hq, List.inj_on_of_nodup_map hr.nodup (List.mem_of_find?_eq_some hq) hp hderived]

end IsIndexed

/-- Handles go on to stand for the types that they stood for. -/
theorem typeAt_of_isPrefix (hp : r.types <+: r'.types) (hh : r.Issued h) :
    r'.typeAt h = r.typeAt h := by
  obtain ⟨new, hnew⟩ := hp
  have hlt : h.index < r.types.length := by simpa [types, Issued] using hh
  rw [typeAt, typeAt, ← hnew, List.getD_eq_getElem?_getD, List.getElem?_append_left hlt,
    List.getD_eq_getElem?_getD]

theorem IsIndexed.position_of_isPrefix (hr : r.IsIndexed) (hr' : r'.IsIndexed)
    (hp : r.types <+: r'.types) (hh : r.position? id = some h) : r'.position? id = some h := by
  obtain ⟨new, hnew⟩ := hp
  obtain ⟨n, hn, rfl⟩ := (hr.byType id h).mp hh
  refine (hr'.byType id ⟨n⟩).mpr ⟨n, ?_, rfl⟩
  rw [← hnew, List.getElem?_append_left (List.getElem?_eq_some_iff.mp hn).1, hn]

theorem linkOf_of_isPrefix {p : BasePair} (hp : r.types <+: r'.types)
    (hderived : r.Issued p.derived)
    (hbase : ∀ b, p.base = some b → r.Issued b) : r'.linkOf p = r.linkOf p := by
  rw [linkOf, linkOf, typeAt_of_isPrefix hp hderived]
  cases hb : p.base with
  | none => rfl
  | some b => rw [Option.map_some, Option.map_some, typeAt_of_isPrefix hp (hbase b hb)]

/-- Pairs stay and so do the links that they are. -/
theorem IsIndexed.links_isPrefix (hr : r.IsIndexed) (hp : r.types <+: r'.types)
    (hb : r.basePairs.toList <+: r'.basePairs.toList) : r.links.toList <+: r'.links.toList := by
  have hmap : r.links.toList = r.basePairs.toList.map r'.linkOf := by
    rw [links, Array.toList_map]
    refine List.map_congr_left fun p hmem => ?_
    obtain ⟨hderived, hbase⟩ := hr.issued p hmem
    exact (linkOf_of_isPrefix hp hderived hbase).symm
  rw [hmap, links, Array.toList_map]
  exact hb.map _

theorem IsIndexed.links_of_isPrefix (hr : r.IsIndexed) (hp : r.types <+: r'.types)
    (hb : r'.basePairs = r.basePairs) : r'.links = r.links := by
  have hstart : r.links.toList <+: r'.links.toList :=
    hr.links_isPrefix hp (hb ▸ List.prefix_refl _)
  refine (Array.toList_inj.mp (hstart.eq_of_length ?_)).symm
  simp [links, hb]

/-- A pair for a descriptor that had none is a link at the end. -/
theorem links_link {base : Option DescriptorId} (hnew : r.isBased h = false) :
    (r.link h base).2.links = r.links.push ⟨r.typeAt h, base.map r.typeAt⟩ := by
  have htypeAt : (r.link h base).2.typeAt = r.typeAt := by
    funext h'
    rw [typeAt, types_link, typeAt]
  have hlinkOf : (r.link h base).2.linkOf = r.linkOf := by
    funext p
    rw [linkOf, htypeAt, linkOf]
  rw [links, hlinkOf, link, hnew, links]
  simp [linkOf]

end Registry

end TypeDocs
