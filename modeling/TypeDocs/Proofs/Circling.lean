import Mathlib.Data.List.Chain
import TypeDocs.Proofs.Dangling

/-!
What the errors of validation tell. A search carries the types that it has come through, and these
are at all times a walk from the type under check that meets no type twice; so the circle that an
error names is there, and a type said to be missing is one that the walk would have gone on to.
-/

namespace TypeDocs

open Relation

/-- A reference in the header of a type. -/
def Catalog.Refers (c : Catalog) (a b : TypeId) : Prop :=
  ∃ info, c.get? a = some info ∧ b ∈ info.headerTypes

/-- The references that circles of each kind are made of. -/
def CycleKind.Leads (c : Catalog) : CycleKind → TypeId → TypeId → Prop
  | baseType => c.Follows TypeInfo.base
  | declaringType => c.Follows TypeInfo.enclosing
  | elementType => c.Follows TypeInfo.element
  | typeStructure => c.NamePart

theorem CycleKind.Leads.refers {c : Catalog} {kind : CycleKind} {a b : TypeId}
    (h : kind.Leads c a b) : c.Refers a b := by
  have hheader (info : TypeInfo) (h : info.base = some b ∨ b ∈ info.arguments ∨
      info.element = some b ∨ info.enclosing = some b) : b ∈ info.headerTypes := by
    simp only [TypeInfo.headerTypes, List.mem_append, Option.mem_toList]
    tauto
  cases kind <;> obtain ⟨info, hi, hb⟩ := h <;> exact ⟨info, hi, hheader info (by tauto)⟩

namespace Catalog

variable {c : Catalog} {kind : CycleKind} {next : TypeInfo → Option TypeId}
  {r : TypeId → TypeId → Prop} {start id b : TypeId} {trail room : List TypeId}

/-- From `id` a walk goes through types that are all different, and on to one of them again. -/
def Circles (c : Catalog) (kind : CycleKind) (id : TypeId) (path : List String) : Prop :=
  ∃ walk last, (walk ++ [last]).IsChain (kind.Leads c) ∧ walk.head? = some id ∧ walk.Nodup ∧
    last ∈ walk ∧ (walk ++ [last]).map c.key? = path.map some

/-- Some type that references lead to from `id` refers to one that is not there. -/
def Misses (c : Catalog) (id : TypeId) (name : String) : Prop :=
  ∃ u missing, ReflTransGen c.Refers id u ∧ c.Refers u missing ∧ missing ∉ c.ids ∧
    name = missing.label

/-- Validation passes the types before `id`, and `e` is what it meets when `id` is under check. -/
def FailsAt (c : Catalog) (id : TypeId) (e : ValidationError) : Prop :=
  ∃ before after known, c.ids = before ++ id :: after ∧
    before.foldlM c.checkType [] = .ok known ∧ c.checkType known id = .error e

/-- What an error says of a circle or of a missing type is so. -/
def IsReal (c : Catalog) (id : TypeId) : ValidationError → Prop
  | .circular kind path => c.Circles kind id path
  | .typeNotFound name => c.Misses id name
  | _ => True

/-- A walk from `start` to `id` through the types `trail`, which are no longer in the room. -/
structure IsTrail (c : Catalog) (r : TypeId → TypeId → Prop) (start : TypeId)
    (trail room : List TypeId) (id : TypeId) : Prop where
  walk : (trail ++ [id]).IsChain r
  head : (trail ++ [id]).head? = some start
  reach : ReflTransGen r start id
  nodup : trail.Nodup
  inside : ∀ t ∈ trail, t ∈ c.ids
  nodup_room : room.Nodup
  mem_room : ∀ t, t ∈ room ↔ t ∈ c.ids ∧ t ∉ trail

theorem isTrail_nil (c : Catalog) (r : TypeId → TypeId → Prop) (start : TypeId) :
    IsTrail c r start [] c.ids start where
  walk := by simp
  head := rfl
  reach := .refl
  nodup := List.nodup_nil
  inside := by simp
  nodup_room := c.nodup_ids
  mem_room := by simp

namespace IsTrail

/-- A search that goes on from a type of its room has that type behind it. -/
theorem step (h : IsTrail c r start trail room id) (hid : id ∈ room) (hb : r id b) :
    IsTrail c r start (trail ++ [id]) (room.erase id) b where
  walk := h.walk.append (by simp) (by simpa using hb)
  head := by rw [List.head?_append, h.head, Option.some_or]
  reach := h.reach.tail hb
  nodup := h.nodup.append (by simp) (by simpa using ((h.mem_room id).mp hid).2)
  inside := by
    rw [List.forall_mem_append, List.forall_mem_singleton]
    exact ⟨h.inside, ((h.mem_room id).mp hid).1⟩
  nodup_room := h.nodup_room.erase id
  mem_room t := by
    rw [h.nodup_room.mem_erase_iff, h.mem_room]
    simp only [List.mem_append, List.mem_singleton]
    tauto

theorem map_displayName {l : List TypeId} (h : ∀ t ∈ l, t ∈ c.ids) :
    l.map c.key? = (l.map c.displayName).map some := by
  rw [List.map_map]
  apply List.map_congr_left
  intro t ht
  have hsize : t.index < c.entries.size := mem_ids.mp (h t ht)
  simp [displayName, key?, hsize]

/-- A type of the catalog that is not in the room any more closes a circle. -/
theorem circles (h : IsTrail c (kind.Leads c) start trail room id) (hin : id ∈ c.ids)
    (hroom : id ∉ room) : c.Circles kind start ((trail ++ [id]).map c.displayName) := by
  have hlast : id ∈ trail := by
    by_contra hmem
    exact hroom ((h.mem_room id).mpr ⟨hin, hmem⟩)
  have hhead : trail.head? = some start := by
    obtain ⟨first, rest, rfl⟩ := List.exists_cons_of_ne_nil (List.ne_nil_of_mem hlast)
    exact h.head
  refine ⟨trail, id, h.walk, hhead, h.nodup, hlast, map_displayName ?_⟩
  exact List.forall_mem_append.mpr ⟨h.inside, by simpa using hin⟩

/-- A type that is not in the catalog has been come to from another. -/
theorem misses (h : IsTrail c (kind.Leads c) start trail room id) (hstart : start ∈ c.ids)
    (hid : c.get? id = none) : c.Misses start id.label := by
  have hnot : id ∉ c.ids := by simp [mem_ids_iff, hid]
  rcases ReflTransGen.cases_tail h.reach with rfl | ⟨u, hu, hlast⟩
  · exact absurd hstart hnot
  · have hrefers : ReflTransGen c.Refers start u :=
      ReflTransGen.mono (fun _ _ => CycleKind.Leads.refers) _ _ hu
    exact ⟨u, id, hrefers, hlast.refers, hnot, rfl⟩

end IsTrail

/-- The errors of a search along a chain are real, wherever on the chain the search stands. -/
theorem checkChain_real {path : List String} {position : Option TypeId} {e : ValidationError}
    (hkind : c.Follows next = kind.Leads c) (hstart : start ∈ c.ids)
    (htrail : ∀ id, position = some id → IsTrail c (kind.Leads c) start trail room id)
    (hpath : path = trail.map c.displayName)
    (h : c.checkChain kind next path room position = .error e) : c.IsReal start e := by
  fun_induction checkChain c kind next path room position generalizing trail with
  | case1 => simp at h
  | case2 path room id hg =>
    obtain rfl := Except.error.inj h
    exact (htrail id rfl).misses hstart hg
  | case3 path room id info hg hid ih =>
    -- the search goes on with `id` on the trail and out of the room
    have hnext (b : TypeId) (hb : next info = some b) :
        IsTrail c (kind.Leads c) start (trail ++ [id]) (room.erase id) b := by
      apply (htrail id rfl).step hid
      rw [← hkind]
      exact ⟨info, hg, hb⟩
    apply ih hnext _ h
    rw [hpath, List.map_append, List.map_singleton]
  | case4 path room id info hg hid =>
    obtain rfl := Except.error.inj h
    rw [hpath]
    have hcircles := (htrail id rfl).circles (mem_ids_of_get hg) hid
    rwa [List.map_append] at hcircles

/-- So are the errors of the search through a name; types known already shorten no walk. -/
theorem checkStructure_real {known : List TypeId} {e : ValidationError} (hstart : start ∈ c.ids)
    (htrail : IsTrail c (CycleKind.typeStructure.Leads c) start trail room id)
    (h : c.checkStructure trail room known id = .error e) : c.IsReal start e := by
  fun_induction checkStructure c trail room known id with
  | case1 => simp at h
  | case2 trail room known id hid hg =>
    obtain rfl := Except.error.inj h
    exact htrail.misses hstart hg
  | case3 trail room known id hid info hg hroom ih =>
    rcases bind_eq_error.mp h with h | ⟨_, -, h⟩
    · obtain ⟨before, part, after, known', hparts, -, hpart⟩ := foldlM_eq_error h
      have hmem : part ∈ info.nameParts := by simp [hparts]
      exact ih known' part (htrail.step hroom (namePart_iff.mpr ⟨info, hg, hmem⟩)) hpart
    · cases h
  | case4 trail room known id hid info hg hroom =>
    obtain rfl := Except.error.inj h
    exact htrail.circles (mem_ids_of_get hg) hroom

theorem checkArity_real {info : TypeInfo} {e : ValidationError} (hi : c.get? id = some info)
    (h : c.checkArity info = .error e) : c.IsReal id e := by
  unfold checkArity at h
  split at h
  · cases h
  · rename_i d hd
    split at h
    · rename_i hg
      obtain rfl := Except.error.inj h
      have hmem : d ∈ info.headerTypes := by simp [TypeInfo.headerTypes, hd]
      exact ⟨id, d, .refl, ⟨info, hi, hmem⟩, by simp [mem_ids_iff, hg], rfl⟩
    · split at h
      · cases h
      · split at h
        · cases h
        · obtain rfl := Except.error.inj h
          trivial

theorem checkNames_real {owner : String} {seen names : List String} {e : ValidationError}
    (h : checkNames owner seen names = .error e) : c.IsReal id e := by
  fun_induction checkNames owner seen names with
  | case1 => cases h
  | case2 =>
    obtain rfl := Except.error.inj h
    trivial
  | case3 seen name names hname ih => exact ih h

/-- The errors met when a type is under check are real for this type. -/
theorem checkType_real {known : List TypeId} {e : ValidationError} (hid : id ∈ c.ids)
    (h : c.checkType known id = .error e) : c.IsReal id e := by
  have hchain (kind : CycleKind) (next : TypeInfo → Option TypeId)
      (hkind : c.Follows next = kind.Leads c)
      (h : c.checkChain kind next [] c.ids (some id) = .error e) : c.IsReal id e := by
    have htrail : IsTrail c (kind.Leads c) id [] c.ids id := isTrail_nil c _ id
    refine checkChain_real hkind hid ?_ List.map_nil.symm h
    rintro _ ⟨⟩
    exact htrail
  unfold checkType at h
  rcases bind_eq_error.mp h with h | ⟨_, -, h⟩
  · exact hchain .baseType TypeInfo.base rfl h
  rcases bind_eq_error.mp h with h | ⟨_, -, h⟩
  · exact hchain .declaringType TypeInfo.enclosing rfl h
  rcases bind_eq_error.mp h with h | ⟨_, -, h⟩
  · exact hchain .elementType TypeInfo.element rfl h
  rcases bind_eq_error.mp h with h | ⟨_, -, h⟩
  · exact checkStructure_real hid (isTrail_nil c _ id) h
  obtain ⟨info, hi⟩ := mem_ids_iff.mp hid
  simp only [hi] at h
  rcases bind_eq_error.mp h with h | ⟨_, -, h⟩
  · exact checkArity_real hi h
  rcases bind_eq_error.mp h with h | ⟨_, -, h⟩
  · exact checkNames_real h
  · cases h

/-- Validation fails at one of the types, and with an error that is real for this type. -/
theorem validate_fails {e : ValidationError} (h : c.validate = .error e) :
    ∃ id, c.FailsAt id e ∧ c.IsReal id e := by
  rcases bind_eq_error.mp h with h | ⟨_, -, h⟩
  · obtain ⟨before, id, after, known, hids, hbefore, hid⟩ := foldlM_eq_error h
    exact ⟨id, ⟨before, after, known, hids, hbefore, hid⟩, checkType_real (by simp [hids]) hid⟩
  · cases h

/--
A circle that validation reports is walked from the type under check along references of the named
kind, its path being the keys of the types in order; and a type reported missing is not there, but
is referred to by one that references lead to from the type under check.
-/
theorem validate_error_real (c : Catalog) :
    (∀ kind path, c.validate = .error (.circular kind path) →
      ∃ id, c.FailsAt id (.circular kind path) ∧ c.Circles kind id path ∧
        (ValidationError.circular kind path).message =
          "circular " ++ kind.label ++ " reference detected: " ++ " -> ".intercalate path) ∧
    ∀ name, c.validate = .error (.typeNotFound name) →
      ∃ id, c.FailsAt id (.typeNotFound name) ∧ c.Misses id name := by
  refine ⟨fun kind path h => ?_, fun name h => validate_fails h⟩
  obtain ⟨id, hfails, hcircles⟩ := validate_fails h
  exact ⟨id, hfails, hcircles, rfl⟩

/-- The first type leads into a circle that it is not on itself. -/
def whirl : Catalog where
  entries := #[⟨"Hut", { name := "Hut", base := some ⟨1⟩ }⟩,
    ⟨"Barn", { name := "Barn", base := some ⟨2⟩ }⟩, ⟨"Shed", { name := "Shed", base := some ⟨1⟩ }⟩]

/-- The first type is made of one whose argument is not there. -/
def breach : Catalog where
  entries := #[⟨"Huts", { name := "Hut[]", element := some ⟨1⟩ }⟩,
    ⟨"Hut", { name := "Hut`1", arguments := [⟨2⟩] }⟩]

theorem whirl_breach_real :
    whirl.validate = .error (.circular .baseType ["Hut", "Barn", "Shed", "Barn"]) ∧
    breach.validate = .error (.typeNotFound (TypeId.mk 2).label) ∧
    (∃ id, whirl.FailsAt id (.circular .baseType ["Hut", "Barn", "Shed", "Barn"]) ∧
      whirl.Circles .baseType id ["Hut", "Barn", "Shed", "Barn"]) ∧
    ∃ id, breach.FailsAt id (.typeNotFound (TypeId.mk 2).label) ∧
      breach.Misses id (TypeId.mk 2).label := by
  have hwhirl : whirl.validate = .error (.circular .baseType ["Hut", "Barn", "Shed", "Barn"]) := by
    decide +kernel
  have hbreach : breach.validate = .error (.typeNotFound (TypeId.mk 2).label) := by
    decide +kernel
  obtain ⟨id, hfails, hcircles, -⟩ := (validate_error_real whirl).1 _ _ hwhirl
  exact ⟨hwhirl, hbreach, ⟨id, hfails, hcircles⟩, (validate_error_real breach).2 _ hbreach⟩

end Catalog

end TypeDocs
