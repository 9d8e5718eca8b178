import Mathlib.Data.Nat.Find
import Mathlib.Logic.Function.Iterate
import TypeDocs.Catalog.Ancestry
import TypeDocs.Proofs.Walk

/-!
Ancestors of a type, counted from the type up. A search for a name gives up after a number of
ancestors, and when the chain of bases comes back to where it began. Neither loses an ancestor
within that number: when an ancestor is met for the first time, the chain has not come back before,
and has met no type twice.
-/

namespace TypeDocs.Catalog

open Relation

/-- One step up a chain of bases; above its end there is nothing. -/
def above (c : Catalog) (position : Option TypeId) : Option TypeId :=
  position.bind fun id => (c.get? id).bind TypeInfo.base

/-- The type `k` steps above another. -/
def ancestor? (c : Catalog) (id : TypeId) (k : Nat) : Option TypeId :=
  c.above^[k] (some id)

def HasFullName (c : Catalog) (id : TypeId) (name : String) : Prop :=
  (c.get? id).map TypeInfo.fullName = some name

/-- Bases lead to types of the catalog, if perhaps in circles. -/
def HasBases (c : Catalog) : Prop :=
  ∀ id ∈ c.ids, ∀ info ∈ c.get? id, ∀ b ∈ info.base, b ∈ c.ids

instance (c : Catalog) (id : TypeId) (name : String) : Decidable (c.HasFullName id name) :=
  inferInstanceAs (Decidable (_ = _))

instance (c : Catalog) : Decidable c.HasBases :=
  inferInstanceAs (Decidable (∀ id ∈ c.ids, ∀ info ∈ c.get? id, ∀ b ∈ info.base, b ∈ c.ids))

variable {c : Catalog} {id a b : TypeId} {i j k m n : Nat} {name : String}

theorem above_eq_some_iff {position : Option TypeId} :
    c.above position = some b ↔ ∃ a, position = some a ∧ c.Follows TypeInfo.base a b := by
  simp only [above, Option.bind_eq_some_iff, Follows]

theorem iterate_above_none (c : Catalog) (k : Nat) : c.above^[k] none = none :=
  Function.iterate_fixed rfl k

theorem ancestor?_succ : c.ancestor? id (k + 1) = c.above (c.ancestor? id k) :=
  Function.iterate_succ_apply' c.above k (some id)

theorem ancestor?_add : c.ancestor? id (m + k) = c.above^[m] (c.ancestor? id k) :=
  Function.iterate_add_apply c.above m k (some id)

theorem HasBases.mem_ids (hc : c.HasBases) (h : c.Follows TypeInfo.base a b) : b ∈ c.ids := by
  obtain ⟨info, hi, hb⟩ := h
  exact hc a (mem_ids_of_get hi) info hi b hb

theorem HasBases.mem_ids_ancestor (hc : c.HasBases) (hk : 0 < k)
    (h : c.ancestor? id k = some a) : a ∈ c.ids := by
  obtain ⟨k, rfl⟩ := Nat.exists_eq_add_one.mpr hk
  rw [ancestor?_succ] at h
  obtain ⟨b, -, hb⟩ := above_eq_some_iff.mp h
  exact hc.mem_ids hb

/-- The ancestors are what bases lead to, whether or not the chain goes round in a circle. -/
theorem transGen_base_iff :
    TransGen (c.Follows TypeInfo.base) id a ↔ ∃ k, 0 < k ∧ c.ancestor? id k = some a := by
  constructor
  · intro h
    induction h with
    | single hb => exact ⟨1, Nat.one_pos, above_eq_some_iff.mpr ⟨id, rfl, hb⟩⟩
    | tail _ hb ih =>
      obtain ⟨k, -, hk⟩ := ih
      refine ⟨k + 1, k.succ_pos, ?_⟩
      rw [ancestor?_succ]
      exact above_eq_some_iff.mpr ⟨_, hk, hb⟩
  · rintro ⟨k, hk, h⟩
    induction k generalizing a with
    | zero => omega
    | succ k ih =>
      rw [ancestor?_succ] at h
      obtain ⟨b, hb, hstep⟩ := above_eq_some_iff.mp h
      rcases Nat.eq_zero_or_pos k with rfl | hk
      · obtain rfl := Option.some.inj hb
        exact .single hstep
      · exact (ih hk hb).tail hstep

section FirstMeeting

/-- What the chain does between two meetings of a type may be left out. -/
theorem ancestor?_shortcut (h : c.ancestor? id i = c.ancestor? id j) (hj : j ≤ k) :
    c.ancestor? id (k - j + i) = c.ancestor? id k := by
  calc c.ancestor? id (k - j + i)
      = c.above^[k - j] (c.ancestor? id i) := ancestor?_add
    _ = c.above^[k - j] (c.ancestor? id j) := by rw [h]
    _ = c.ancestor? id (k - j + j) := ancestor?_add.symm
    _ = c.ancestor? id k := by rw [Nat.sub_add_cancel hj]

/-- The chain above `id` meets `a` after `k` steps, and not earlier. -/
structure FirstMeets (c : Catalog) (id : TypeId) (k : Nat) (a : TypeId) : Prop where
  pos : 0 < k
  ancestor : c.ancestor? id k = some a
  least : ∀ i, 0 < i → i < k → c.ancestor? id i ≠ some a

theorem exists_firstMeets (hk : 0 < k) (h : c.ancestor? id k = some a) :
    ∃ m ≤ k, c.FirstMeets id m a := by
  have hmeets : ∃ m, 0 < m ∧ c.ancestor? id m = some a := ⟨k, hk, h⟩
  obtain ⟨hpos, hm⟩ := Nat.find_spec hmeets
  refine ⟨Nat.find hmeets, Nat.find_min' hmeets ⟨hk, h⟩, hpos, hm, ?_⟩
  intro i hi hlt heq
  exact Nat.find_min hmeets hlt ⟨hi, heq⟩

namespace FirstMeets

/-- Up to a first meeting no type comes twice, but for the start, which may be the one met. -/
theorem ancestor?_ne (h : c.FirstMeets id k a) (hij : i < j) (hj : j ≤ k)
    (hends : 0 < i ∨ j < k) : c.ancestor? id i ≠ c.ancestor? id j := by
  intro heq
  apply h.least (k - j + i) (by omega) (by omega)
  rw [ancestor?_shortcut heq hj, h.ancestor]

/-- The chain has not come back to its start. -/
theorem ancestor?_ne_start (h : c.FirstMeets id k a) (hi : 0 < i) (hik : i < k) :
    c.ancestor? id i ≠ some id :=
  (h.ancestor?_ne hi (Nat.le_of_lt hik) (Or.inr hik)).symm

theorem exists_ancestor (h : c.FirstMeets id k a) (hi : i ≤ k) :
    ∃ t, c.ancestor? id i = some t := by
  apply Option.ne_none_iff_exists'.mp
  intro hnone
  have hend : c.ancestor? id (k - i + i) = none := by
    rw [ancestor?_add, hnone, iterate_above_none]
  rw [Nat.sub_add_cancel hi, h.ancestor] at hend
  cases hend

/-- So there are no more steps up to the meeting than there are types to meet. -/
theorem le_size (h : c.FirstMeets id k a) (hc : c.HasBases) : k ≤ c.size := by
  let met := (List.range k).map fun i => c.ancestor? id (i + 1)
  have hnodup : met.Nodup := by
    refine List.nodup_range.map_on fun i hi j hj heq => ?_
    rw [List.mem_range] at hi hj
    rcases Nat.lt_trichotomy i j with hij | hij | hij
    · exact absurd heq (h.ancestor?_ne (by omega) (by omega) (Or.inl i.succ_pos))
    · exact hij
    · exact absurd heq.symm (h.ancestor?_ne (by omega) (by omega) (Or.inl j.succ_pos))
  have hinside : met ⊆ c.ids.map some := by
    intro t ht
    obtain ⟨i, hi, rfl⟩ := List.mem_map.mp ht
    obtain ⟨t, ht⟩ := h.exists_ancestor (List.mem_range.mp hi)
    rw [ht]
    exact List.mem_map_of_mem (hc.mem_ids_ancestor i.succ_pos ht)
  calc k = met.length := by simp [met]
    _ ≤ (c.ids.map some).length := hnodup.length_le_of_subset hinside
    _ = c.size := by rw [List.length_map, length_ids]

/-- A chain that comes back to its start has met all its types by then. -/
theorem le_return (h : c.FirstMeets id k a) (hm : 0 < m) (hreturn : c.ancestor? id m = some id) :
    k ≤ m := by
  by_contra hlt
  exact h.ancestor?_ne_start hm (Nat.lt_of_not_le hlt) hreturn

end FirstMeets

end FirstMeeting

section Search

variable {start : TypeId} {position : Option TypeId}

/-- The name is found `k` steps further up, the chain not having come to `start` before. -/
def FindsName (c : Catalog) (start : TypeId) (name : String) (position : Option TypeId) (k : Nat) :
    Prop :=
  (∃ a, c.above^[k] position = some a ∧ c.HasFullName a name) ∧
    ∀ i < k, c.above^[i] position ≠ some start

theorem not_findsName_none : ¬ c.FindsName start name none k := by
  rintro ⟨⟨a, ha, -⟩, -⟩
  rw [iterate_above_none] at ha
  cases ha

theorem findsName_zero : c.FindsName start name (some a) 0 ↔ c.HasFullName a name := by
  simp [FindsName]

theorem findsName_succ :
    c.FindsName start name position (k + 1) ↔
      position ≠ some start ∧ c.FindsName start name (c.above position) k := by
  simp only [FindsName, Function.iterate_succ_apply, Nat.forall_lt_succ_left,
    Function.iterate_zero_apply]
  tauto

/-- The search tells whether the name is found within its limit. -/
theorem derivesWithin_yields (hc : c.HasBases) (start : TypeId) (name : String) (limit : Nat)
    (position : Option TypeId) (hp : ∀ a, position = some a → a ∈ c.ids) :
    Yields (c.derivesWithin start name limit position) fun answer =>
      answer = true ↔ ∃ k < limit, c.FindsName start name position k := by
  -- the limit goes down as the search goes up, so wherever it stands it has that many steps left
  induction limit generalizing position with
  | zero => exact .pure (by simp)
  | succ limit ih =>
    cases position with
    | none => exact .pure (by simp [not_findsName_none])
    | some a =>
      refine (lookup_yields (hp a rfl)).bind fun info hi => ?_
      have hnamed : c.HasFullName a name ↔ info.fullName = name := by simp [HasFullName, hi]
      have habove : c.above (some a) = info.base := by simp [above, hi]
      have hfinds : (∃ k < limit + 1, c.FindsName start name (some a) k) ↔
          info.fullName = name ∨ a ≠ start ∧ ∃ k < limit, c.FindsName start name info.base k := by
        rw [Nat.exists_lt_succ_left, findsName_zero, hnamed]
        simp only [findsName_succ, habove, ne_eq, Option.some.injEq]
        tauto
      simp only [hfinds]
      split
      · rename_i hname
        exact .pure (by simp [hname])
      · rename_i hname
        split
        · rename_i hstart
          exact .pure (by simp [hname, hstart])
        · rename_i hstart
          have hnext : ∀ b, info.base = some b → b ∈ c.ids := hc a (hp a rfl) info hi
          refine (ih info.base hnext).mono fun answer hanswer => ?_
          simp [hanswer, hname, hstart]

/-- Having come back to the start is no loss: the name has been met before, if it is met at all. -/
theorem derivesFrom_yields (hc : c.HasBases) (hid : id ∈ c.ids) (name : String) :
    Yields (c.derivesFrom id name) fun answer => answer = true ↔
      ∃ k, 0 < k ∧ k ≤ ancestryLimit ∧ ∃ a, c.ancestor? id k = some a ∧ c.HasFullName a name := by
  refine (lookup_yields hid).bind fun info hi => ?_
  have habove (k : Nat) : c.above^[k] info.base = c.ancestor? id (k + 1) := by
    have hbase : c.above (some id) = info.base := by simp [above, hi]
    rw [ancestor?, Function.iterate_succ_apply, hbase]
  refine (derivesWithin_yields hc id name ancestryLimit info.base (hc id hid info hi)).mono ?_
  intro answer hanswer
  rw [hanswer]
  constructor
  · rintro ⟨k, hk, ⟨a, ha, hname⟩, -⟩
    exact ⟨k + 1, k.succ_pos, hk, a, habove k ▸ ha, hname⟩
  · rintro ⟨k, hpos, hk, a, ha, hname⟩
    obtain ⟨m, hmk, hm⟩ := exists_firstMeets hpos ha
    obtain ⟨m, rfl⟩ := Nat.exists_eq_add_one.mpr hm.pos
    refine ⟨m, by omega, ⟨a, (habove m).trans hm.ancestor, hname⟩, fun i hi => ?_⟩
    rw [habove]
    exact hm.ancestor?_ne_start i.succ_pos (Nat.succ_lt_succ hi)

end Search

/--
A search for a name above a type comes to an answer, and to the answer that one of the first 4097
ancestors has the name. Among no more types that is any ancestor; the type itself is one of them if
it is on a circle of bases, and a chain that comes back to it has met all of them on the way.
-/
theorem derivesFrom_exact (hc : c.HasBases) (hid : id ∈ c.ids) :
    (∀ name, ∃ answer, c.derivesFrom id name = .ok answer ∧
      (answer = true ↔
        ∃ k, 1 ≤ k ∧ k ≤ 4097 ∧ ∃ a, c.ancestor? id k = some a ∧ c.HasFullName a name) ∧
      (c.size ≤ 4097 → (answer = true ↔
        ∃ a, TransGen (c.Follows TypeInfo.base) id a ∧ c.HasFullName a name))) ∧
    ∀ m, 1 ≤ m → c.ancestor? id m = some id → ∀ a, TransGen (c.Follows TypeInfo.base) id a →
      ∃ k, 1 ≤ k ∧ k ≤ m ∧ c.ancestor? id k = some a := by
  refine ⟨fun name => ?_, fun m hm hreturn a ha => ?_⟩
  · obtain ⟨answer, hderives, hanswer⟩ := derivesFrom_yields hc hid name
    refine ⟨answer, hderives, hanswer, fun hsize => hanswer.trans ⟨?_, ?_⟩⟩
    · rintro ⟨k, hk, -, a, ha, hname⟩
      exact ⟨a, transGen_base_iff.mpr ⟨k, hk, ha⟩, hname⟩
    · rintro ⟨a, habove, hname⟩
      obtain ⟨k, hk, ha⟩ := transGen_base_iff.mp habove
      obtain ⟨m, -, hm⟩ := exists_firstMeets hk ha
      have hlimit : m ≤ 4097 := Nat.le_trans (hm.le_size hc) hsize
      exact ⟨m, hm.pos, hlimit, a, hm.ancestor, hname⟩
  · obtain ⟨k, hk, hka⟩ := transGen_base_iff.mp ha
    obtain ⟨n, -, hn⟩ := exists_firstMeets hk hka
    exact ⟨n, hn.pos, hn.le_return hm hreturn, hn.ancestor⟩

/-- The first type leads into a circle that it is not on itself, the last two into a loop. -/
def eddies : Catalog where
  entries := #[⟨"Brook", { name := "Brook", base := some ⟨1⟩ }⟩,
    ⟨"Weir", { name := "Weir", base := some ⟨2⟩ }⟩, ⟨"Pool", { name := "Pool", base := some ⟨1⟩ }⟩,
    ⟨"Rill", { name := "Rill", base := some ⟨4⟩ }⟩, ⟨"Well", { name := "Well", base := some ⟨4⟩ }⟩]

theorem eddies_derivesFrom :
    eddies.HasBases ∧ ⟨0⟩ ∈ eddies.ids ∧ ⟨4⟩ ∈ eddies.ids ∧ eddies.size ≤ 4097 ∧
    eddies.derivesFrom ⟨0⟩ "Pool" = .ok true ∧ eddies.derivesFrom ⟨0⟩ "Brook" = .ok false ∧
    eddies.ancestor? ⟨4⟩ 1 = some ⟨4⟩ ∧ eddies.derivesFrom ⟨4⟩ "Well" = .ok true ∧
    ∀ a, TransGen (eddies.Follows TypeInfo.base) ⟨4⟩ a → a = ⟨4⟩ := by
  have hbases : eddies.HasBases := by decide
  have hbrook : (⟨0⟩ : TypeId) ∈ eddies.ids := by decide
  have hwell : (⟨4⟩ : TypeId) ∈ eddies.ids := by decide
  have hloop : eddies.ancestor? ⟨4⟩ 1 = some ⟨4⟩ := by decide
  obtain ⟨hnames, -⟩ := derivesFrom_exact hbases hbrook
  obtain ⟨hwellNames, hreturn⟩ := derivesFrom_exact hbases hwell
  refine ⟨hbases, hbrook, hwell, by decide, ?_, ?_, hloop, ?_, ?_⟩
  · obtain ⟨answer, hderives, hanswer, -⟩ := hnames "Pool"
    rw [hderives, hanswer.mpr ⟨2, by decide, by decide, ⟨2⟩, by decide, by decide +kernel⟩]
  · obtain ⟨answer, hderives, -, hanswer⟩ := hnames "Brook"
    have hnone : answer ≠ true := by
      intro htrue
      obtain ⟨a, habove, hname⟩ := (hanswer (by decide)).mp htrue
      obtain ⟨b, -, info, hi, hb⟩ := TransGen.tail'_iff.mp habove
      have hbase : ∀ t ∈ eddies.ids, ∀ i ∈ eddies.get? t, ∀ u ∈ i.base,
          ¬ eddies.HasFullName u "Brook" := by decide +kernel
      exact hbase b (mem_ids_of_get hi) info hi a hb hname
    rw [hderives, Bool.eq_false_iff.mpr hnone]
  · obtain ⟨answer, hderives, -, hanswer⟩ := hwellNames "Well"
    have hself : TransGen (eddies.Follows TypeInfo.base) ⟨4⟩ ⟨4⟩ :=
      transGen_base_iff.mpr ⟨1, by decide, hloop⟩
    rw [hderives, (hanswer (by decide)).mpr ⟨⟨4⟩, hself, by decide +kernel⟩]
  · intro a ha
    obtain ⟨k, hpos, hk, hka⟩ := hreturn 1 (by decide) hloop a ha
    obtain rfl : k = 1 := by omega
    exact Option.some.inj (hka.symm.trans hloop)

section Circle

/-- Names of that many letters, so that they are all different. -/
def wheelName (i : Nat) : String :=
  String.ofList (List.replicate i 'o')

/-- Types in a circle, the base of each being the one that follows. -/
def wheel (n : Nat) : Catalog where
  entries := Array.ofFn fun i : Fin n =>
    ⟨wheelName i, { name := wheelName i, base := some ⟨(i + 1) % n⟩ }⟩

theorem size_wheel : (wheel n).size = n := by
  simp [size, wheel]

theorem get?_wheel (hi : i < n) : (wheel n).get? ⟨i⟩ =
    some { name := wheelName i, base := some ⟨(i + 1) % n⟩ } := by
  simp [get?, wheel, hi]

theorem hasBases_wheel (n : Nat) : (wheel n).HasBases := by
  rintro ⟨i⟩ hid info hi b hb
  rw [mem_ids, size_wheel] at hid ⊢
  rw [get?_wheel hid] at hi
  obtain rfl := Option.some.inj hi
  obtain rfl := Option.some.inj hb
  exact Nat.mod_lt _ (by omega)

theorem ancestor?_wheel (hi : i < n) (k : Nat) :
    (wheel n).ancestor? ⟨i⟩ k = some ⟨(i + k) % n⟩ := by
  induction k with
  | zero => rw [Nat.add_zero, Nat.mod_eq_of_lt hi]; rfl
  | succ k ih =>
    have hmod : (i + k) % n < n := Nat.mod_lt _ (by omega)
    rw [ancestor?_succ, ih, above, Option.bind_some, get?_wheel hmod, Option.bind_some,
      Nat.mod_add_mod, Nat.add_assoc]

theorem hasFullName_wheel (hi : i < n) : (wheel n).HasFullName ⟨i⟩ (wheelName j) ↔ i = j := by
  have hname : wheelName i = wheelName j ↔ i = j := by
    simp [wheelName, String.ofList_inj]
  rw [HasFullName, get?_wheel hi, ← hname]
  simp [TypeInfo.fullName, TypeInfo.properNamespace]

/-- The bound on the size is sharp: on a circle of one type more, no type is found below itself. -/
theorem derivesFrom_wheel (hi : i < n) :
    (wheel n).derivesFrom ⟨i⟩ (wheelName i) = .ok (decide (n ≤ 4097)) := by
  have hid : ⟨i⟩ ∈ (wheel n).ids := by rwa [mem_ids, size_wheel]
  obtain ⟨answer, hderives, hanswer⟩ := derivesFrom_yields (hasBases_wheel n) hid (wheelName i)
  have hfar : answer = true ↔ n ≤ 4097 := by
    rw [hanswer]
    constructor
    · rintro ⟨k, hpos, hk, a, ha, hname⟩
      rw [ancestor?_wheel hi, Option.some.injEq] at ha
      subst ha
      have hmod : (i + k) % n = i := (hasFullName_wheel (Nat.mod_lt _ (by omega))).mp hname
      have hround : (i + k - i) % n = 0 :=
        Nat.sub_mod_eq_zero_of_mod_eq (hmod.trans (Nat.mod_eq_of_lt hi).symm)
      rw [Nat.add_sub_cancel_left] at hround
      exact Nat.le_trans (Nat.le_of_dvd hpos (Nat.dvd_of_mod_eq_zero hround)) hk
    · intro hn
      refine ⟨n, by omega, hn, ⟨i⟩, ?_, (hasFullName_wheel hi).mpr rfl⟩
      rw [ancestor?_wheel hi, Nat.add_mod_right, Nat.mod_eq_of_lt hi]
  rw [hderives, Bool.eq_iff_iff.mpr (hfar.trans decide_eq_true_iff.symm)]

end Circle

end TypeDocs.Catalog
