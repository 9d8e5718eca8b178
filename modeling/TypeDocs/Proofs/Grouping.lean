import Mathlib.Data.List.Induction
import Mathlib.Data.List.Nodup
import TypeDocs.Document.Grouping

/-!
Groups as sublists. A new item goes to the end of the group of its key, or begins a group behind all
others, so the keys of groups are those of the items in the order of first appearance, and a group
holds all items of its key in their order.
-/

namespace TypeDocs

variable {α β : Type}

section Repetitions

variable [DecidableEq β]

/-- What is left when repetitions are dropped has none. -/
theorem nodup_eraseDups (l : List β) : l.eraseDups.Nodup := by
  cases l with
  | nil => simp
  | cons b l =>
    rw [List.eraseDups_cons, List.nodup_cons, List.mem_eraseDups]
    exact ⟨by simp, nodup_eraseDups _⟩
termination_by l.length
decreasing_by
  exact Nat.lt_succ_of_le (List.length_filter_le _ l)

theorem eraseDups_concat (l : List β) (b : β) :
    (l ++ [b]).eraseDups = if b ∈ l then l.eraseDups else l.eraseDups ++ [b] := by
  rw [List.eraseDups_append]
  by_cases hb : b ∈ l
  · simp [hb, List.removeAll]
  · simp [hb, List.removeAll, List.eraseDups_cons]

/-- What is left stands in the order of first appearance. -/
theorem pairwise_idxOf_eraseDups (l : List β) :
    l.eraseDups.Pairwise fun a b => l.idxOf a < l.idxOf b := by
  induction l using List.reverseRecOn with
  | nil => exact .nil
  | append_singleton l b ih =>
    have hplace : ∀ a ∈ l.eraseDups, (l ++ [b]).idxOf a = l.idxOf a :=
      fun a ha => List.idxOf_append_of_mem (List.mem_eraseDups.mp ha)
    have hold : l.eraseDups.Pairwise fun a a' => (l ++ [b]).idxOf a < (l ++ [b]).idxOf a' := by
      refine ih.imp_of_mem fun {a a'} ha ha' hlt => ?_
      rwa [hplace a ha, hplace a' ha']
    rw [eraseDups_concat]
    split
    · exact hold
    · rename_i hnew
      refine List.pairwise_append.mpr ⟨hold, List.pairwise_singleton _ _, fun a ha b' hb' => ?_⟩
      obtain rfl := List.mem_singleton.mp hb'
      calc (l ++ [b']).idxOf a = l.idxOf a := hplace a ha
        _ < l.length := List.idxOf_lt_length_of_mem (List.mem_eraseDups.mp ha)
        _ ≤ (l ++ [b']).idxOf b' := by
          rw [List.idxOf_append_of_notMem hnew]
          omega

end Repetitions

variable [DecidableEq β]

/-- A group per key, given the keys and the items under each. -/
theorem addToGroup_map (k : β) (item : α) {ks : List β} (hks : ks.Nodup) (items : β → List α) :
    addToGroup k item (ks.map fun k' => (k', items k')) =
      if k ∈ ks then ks.map fun k' => (k', if k' = k then items k' ++ [item] else items k')
      else ks.map (fun k' => (k', items k')) ++ [(k, [item])] := by
  induction ks with
  | nil => rfl
  | cons k' ks ih =>
    rw [List.nodup_cons] at hks
    rw [List.map_cons, addToGroup]
    by_cases hk : k' = k
    · subst hk
      have hrest : ks.map (fun k => (k, items k)) =
          ks.map fun k => (k, if k = k' then items k ++ [item] else items k) :=
        List.map_congr_left fun k hmem => by rw [if_neg (ne_of_mem_of_not_mem hmem hks.1)]
      rw [if_pos rfl, if_pos List.mem_cons_self, List.map_cons, if_pos rfl, hrest]
    · have hiff : k ∈ k' :: ks ↔ k ∈ ks := by simp [Ne.symm hk]
      rw [if_neg hk, ih hks.2]
      simp only [hiff]
      split
      · rw [List.map_cons, if_neg hk]
      · rfl

/-- Grouping, said without the order in which groups are built up. -/
theorem groupBy_eq (key : α → β) (items : List α) : groupBy key items =
    (items.map key).eraseDups.map fun k => (k, items.filter (key · = k)) := by
  -- groups are built from the front, so the last item is the one that is added to them
  induction items using List.reverseRecOn with
  | nil => rfl
  | append_singleton items item ih =>
    have hstep : groupBy key (items ++ [item]) =
        addToGroup (key item) item (groupBy key items) := by
      simp [groupBy]
    have hmem : key item ∈ (items.map key).eraseDups ↔ key item ∈ items.map key :=
      List.mem_eraseDups
    rw [hstep, ih, addToGroup_map _ _ (nodup_eraseDups _), List.map_append, List.map_singleton,
      eraseDups_concat]
    simp only [hmem, List.filter_append]
    split
    · refine List.map_congr_left fun k _ => ?_
      by_cases hk : key item = k
      · simp [hk]
      · simp [hk, Ne.symm hk]
    · rename_i hnew
      have hnone : items.filter (key · = key item) = [] :=
        List.filter_eq_nil_iff.mpr fun a ha h =>
          hnew (List.mem_map.mpr ⟨a, ha, of_decide_eq_true h⟩)
      rw [List.map_append, List.map_singleton, hnone]
      congr 1
      · refine List.map_congr_left fun k hk => ?_
        have hne : key item ≠ k := by
          rintro rfl
          exact hnew (List.mem_eraseDups.mp hk)
        simp [hne]
      · simp

/-- Grouping neither loses nor adds items. -/
theorem mem_groupBy (key : α → β) {items : List α} {x : α} :
    (∃ g ∈ groupBy key items, x ∈ g.2) ↔ x ∈ items := by
  rw [groupBy_eq]
  constructor
  · rintro ⟨g, hg, hx⟩
    obtain ⟨k, -, rfl⟩ := List.mem_map.mp hg
    exact List.mem_of_mem_filter hx
  · intro hx
    have hkey : key x ∈ (items.map key).eraseDups := List.mem_eraseDups.mpr (List.mem_map_of_mem hx)
    exact ⟨_, List.mem_map_of_mem hkey, List.mem_filter.mpr ⟨hx, by simp⟩⟩

/-- Groups have members, all under the key of the group. -/
theorem key_of_mem_groupBy (key : α → β) {items : List α} :
    ∀ g ∈ groupBy key items, g.2 ≠ [] ∧ ∀ x ∈ g.2, key x = g.1 := by
  rw [groupBy_eq]
  rintro _ hg
  obtain ⟨k, hk, rfl⟩ := List.mem_map.mp hg
  obtain ⟨x, hx, rfl⟩ := List.mem_map.mp (List.mem_eraseDups.mp hk)
  refine ⟨List.ne_nil_of_mem (List.mem_filter.mpr ⟨hx, by simp⟩), fun y hy => ?_⟩
  exact of_decide_eq_true (List.mem_filter.mp hy).2

/-- Items taken key by key are the items, if no key is left out and none comes twice. -/
theorem flatMap_filter_perm (key : α → β) {ks : List β} (hks : ks.Nodup) {items : List α}
    (hall : ∀ a ∈ items, key a ∈ ks) :
    (ks.flatMap fun k => items.filter (key · = k)).Perm items := by
  induction ks generalizing items with
  | nil =>
    obtain rfl := List.eq_nil_iff_forall_not_mem.mpr fun a ha => List.not_mem_nil (hall a ha)
    exact .refl _
  | cons k ks ih =>
    rw [List.nodup_cons] at hks
    have hrest : ks.flatMap (fun k' => items.filter (key · = k')) =
        ks.flatMap fun k' => (items.filter fun a => !decide (key a = k)).filter (key · = k') := by
      refine List.flatMap_congr fun k' hk' => ?_
      rw [List.filter_filter]
      refine List.filter_congr fun a _ => ?_
      have hne : k' ≠ k := ne_of_mem_of_not_mem hk' hks.1
      by_cases ha : key a = k'
      · simp [ha, hne]
      · simp [ha]
    have hothers : ∀ a ∈ items.filter fun a => !decide (key a = k), key a ∈ ks := by
      intro a ha
      obtain ⟨hmem, hne⟩ := List.mem_filter.mp ha
      exact (List.mem_cons.mp (hall a hmem)).resolve_left (by simpa using hne)
    calc (k :: ks).flatMap (fun k' => items.filter (key · = k'))
        = items.filter (key · = k) ++ ks.flatMap fun k' =>
            (items.filter fun a => !decide (key a = k)).filter (key · = k') := by
          rw [List.flatMap_cons, hrest]
      List.Perm _ (items.filter (key · = k) ++ items.filter fun a => !decide (key a = k)) :=
          (ih hks.2 hothers).append_left _
      List.Perm _ items := List.filter_append_perm _ items

/--
Grouping is a stable partition: a group for each key in the order of first appearance, holding all
items of this key in their order. So groups differ in their keys, each has an item, and together
they have every item once.
-/
theorem groupBy_partitions (key : α → β) (items : List α) :
    groupBy key items = (items.map key).eraseDups.map (fun k => (k, items.filter (key · = k))) ∧
    ((groupBy key items).map Prod.fst).Pairwise
      (fun k k' => (items.map key).idxOf k < (items.map key).idxOf k') ∧
    ((groupBy key items).map Prod.fst).Nodup ∧
    (∀ g ∈ groupBy key items, g.2 ≠ []) ∧
    ((groupBy key items).flatMap Prod.snd).Perm items := by
  have hkeys : (groupBy key items).map Prod.fst = (items.map key).eraseDups := by
    rw [groupBy_eq, List.map_map]
    exact List.map_id _
  have hmembers : (groupBy key items).flatMap Prod.snd =
      (items.map key).eraseDups.flatMap fun k => items.filter (key · = k) := by
    rw [groupBy_eq, List.flatMap_map]
  have hall : ∀ a ∈ items, key a ∈ (items.map key).eraseDups :=
    fun a ha => List.mem_eraseDups.mpr (List.mem_map_of_mem ha)
  rw [hkeys, hmembers]
  exact ⟨groupBy_eq key items, pairwise_idxOf_eraseDups _, nodup_eraseDups _,
    fun g hg => (key_of_mem_groupBy key g hg).1, flatMap_filter_perm key (nodup_eraseDups _) hall⟩

example : groupBy (· / 10) [21, 11, 22, 31, 12] = [(2, [21, 22]), (1, [11, 12]), (3, [31])] := by
  decide

end TypeDocs
