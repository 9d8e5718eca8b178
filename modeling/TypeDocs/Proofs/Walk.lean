import Mathlib.Data.List.Induction
import Mathlib.Data.List.Nodup
import Mathlib.Logic.Relation
import TypeDocs.Catalog.Basic
import TypeDocs.Proofs.Outcome

namespace TypeDocs

open Relation

namespace Catalog

/-- A reference of which a type has at most one, such as the one to its base. -/
def Follows (c : Catalog) (next : TypeInfo → Option TypeId) (a b : TypeId) : Prop :=
  ∃ info, c.get? a = some info ∧ next info = some b

/-- A reference that the name of a type goes through. -/
def NamePart (c : Catalog) (a b : TypeId) : Prop :=
  ∃ info, c.get? a = some info ∧
    (b ∈ info.arguments ∨ info.element = some b ∨ info.enclosing = some b)

theorem mem_ids_iff {c : Catalog} {id : TypeId} : id ∈ c.ids ↔ ∃ info, c.get? id = some info := by
  rw [mem_ids, size]
  constructor
  · intro h
    exact ⟨c.entries[id.index].info, by simp [get?, h]⟩
  · rintro ⟨info, h⟩
    obtain ⟨e, he, -⟩ := Option.map_eq_some_iff.mp h
    exact (Array.getElem?_eq_some_iff.mp he).1

theorem mem_ids_of_get {c : Catalog} {id : TypeId} {info : TypeInfo} (h : c.get? id = some info) :
    id ∈ c.ids :=
  mem_ids_iff.mpr ⟨info, h⟩

theorem nodup_ids (c : Catalog) : c.ids.Nodup := by
  apply List.Nodup.map _ List.nodup_range
  intro a b h
  exact congrArg TypeId.index h

theorem length_ids (c : Catalog) : c.ids.length = c.size := by
  simp [ids]

/-- Only so many types are in the catalog. -/
theorem length_le_size {c : Catalog} {l : List TypeId} (hn : l.Nodup) (hl : ∀ t ∈ l, t ∈ c.ids) :
    l.length ≤ c.size := by
  rw [← length_ids]
  exact hn.length_le_of_subset hl

/-- Keys are bound to the last of their positions. -/
theorem get?_ofKeys {keys : List String} {key : String} {id : TypeId} :
    (Index.ofKeys TypeId.mk keys).get? key = some id ↔
      keys[id.index]? = some key ∧ ∀ i, keys[i]? = some key → i ≤ id.index := by
  induction keys using List.reverseRec with
  | nil => simp [Index.ofKeys]
  | append_singleton keys last ih =>
    have hlast : (keys ++ [last])[keys.length]? = some last := by simp
    rw [Index.ofKeys_concat, Index.get?_insert]
    split
    · rename_i heq
      subst heq
      constructor
      · rintro ⟨⟩
        refine ⟨hlast, fun i hi => ?_⟩
        have hlt := (List.getElem?_eq_some_iff.mp hi).1
        simp only [List.length_append, List.length_singleton] at hlt
        exact Nat.le_of_lt_succ hlt
      · rintro ⟨hid, hmax⟩
        have hlt := (List.getElem?_eq_some_iff.mp hid).1
        simp only [List.length_append, List.length_singleton] at hlt
        have hindex : keys.length = id.index :=
          Nat.le_antisymm (hmax _ hlast) (Nat.le_of_lt_succ hlt)
        rw [hindex]
    · rename_i hne
      have hbefore (i : Nat) : (keys ++ [last])[i]? = some key ↔ keys[i]? = some key := by
        rw [List.getElem?_append]
        split
        · rfl
        · rename_i hge
          rw [List.getElem?_eq_none (Nat.le_of_not_lt hge), List.getElem?_singleton]
          split <;> simp [Ne.symm hne]
      simp only [ih, hbefore]

/-- Of the types entered under a key the last one is found. -/
theorem find?_eq_some_iff_last {c : Catalog} {id : TypeId} {key : String} :
    c.find? key = some id ↔
      c.key? id = some key ∧ ∀ t, c.key? t = some key → t.index ≤ id.index := by
  have hkey (t : TypeId) : c.key? t = (c.entries.toList.map Entry.key)[t.index]? := by
    simp [key?]
  rw [find?, c.bindings_eq, get?_ofKeys]
  simp only [hkey]
  exact and_congr_right fun _ => ⟨fun h t => h t.index, fun h i => h ⟨i⟩⟩

theorem mem_ids_of_key {c : Catalog} {id : TypeId} {key : String} (h : c.key? id = some key) :
    id ∈ c.ids := by
  obtain ⟨e, he, -⟩ := Option.map_eq_some_iff.mp h
  exact mem_ids.mpr (Array.getElem?_eq_some_iff.mp he).1

theorem mem_ids_of_find {c : Catalog} {id : TypeId} {key : String} (h : c.find? key = some id) :
    id ∈ c.ids :=
  mem_ids_of_key (find?_eq_some_iff_last.mp h).1

theorem lookup_eq_ok {c : Catalog} {id : TypeId} {info : TypeInfo} :
    c.lookup id = .ok info ↔ c.get? id = some info := by
  unfold lookup
  cases c.get? id <;> simp

theorem lookup_yields {c : Catalog} {id : TypeId} (hid : id ∈ c.ids) :
    Yields (c.lookup id) fun info => c.get? id = some info := by
  obtain ⟨info, hi⟩ := mem_ids_iff.mp hid
  exact ⟨info, lookup_eq_ok.mpr hi, hi⟩

end Catalog

/-- Walks from `id` stay in `room` and meet no type a second time. -/
def Settles (r : TypeId → TypeId → Prop) (room : List TypeId) (id : TypeId) : Prop :=
  ∀ u, ReflTransGen r id u → u ∈ room ∧ ¬ TransGen r u u

namespace Settles

variable {r s : TypeId → TypeId → Prop} {room : List TypeId} {a b id : TypeId}

theorem mem (h : Settles r room id) : id ∈ room :=
  (h id .refl).1

theorem irrefl (h : Settles r room id) : ¬ TransGen r id id :=
  (h id .refl).2

theorem step (h : Settles r room a) (hab : r a b) : Settles r room b :=
  fun u hu => h u (.head hab hu)

theorem mono (hrs : ∀ a b, r a b → s a b) (h : Settles s room id) : Settles r room id := by
  intro u hu
  obtain ⟨hm, hc⟩ := h u (ReflTransGen.mono hrs _ _ hu)
  exact ⟨hm, fun hr => hc (TransGen.mono hrs _ _ hr)⟩

/-- A type settles when all its next types do: a circle through it would be met again from them. -/
theorem of_next (hid : id ∈ room) (h : ∀ b, r id b → Settles r room b) : Settles r room id := by
  intro u hu
  rcases ReflTransGen.cases_head hu with rfl | ⟨b, hb, hu⟩
  · refine ⟨hid, ?_⟩
    intro hc
    obtain ⟨b, hb, hback⟩ := TransGen.head'_iff.mp hc
    exact (h b hb id hback).2 hc
  · exact h b hb u hu

/-- Past `a` a walk never comes back to `a`, so a search may take `a` out of its room. -/
theorem erase (h : Settles r room a) (hab : TransGen r a b) : Settles r (room.erase a) b := by
  intro u hu
  obtain ⟨hm, hc⟩ := h u (hab.to_reflTransGen.trans hu)
  have hua : u ≠ a := by
    rintro rfl
    exact hc (hab.trans_left hu)
  exact ⟨(List.mem_erase_of_ne hua).mpr hm, hc⟩

/-- A search that takes `a` out of its room finds no walk back to `a` from the next types. -/
theorem of_erase (ha : a ∈ room)
    (h : ∀ b, r a b → Settles r (room.erase a) b) : Settles r room a := by
  apply of_next ha
  intro b hb u hu
  obtain ⟨hm, hc⟩ := h b hb u hu
  exact ⟨List.mem_of_mem_erase hm, hc⟩

end Settles

end TypeDocs
