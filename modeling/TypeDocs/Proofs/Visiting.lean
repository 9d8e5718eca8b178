import TypeDocs.Proofs.Annotating

namespace TypeDocs.Registry

open Relation Recording

/--
Links a descriptor unless it has a pair, and then visits its base and the parts of its shape in
order. `room` are the types of the catalog that are not being visited further up.
-/
def visit (c : Catalog) (room : List TypeId) (r : Registry) (h : DescriptorId) :
    Except Defect Registry :=
  if r.isBased h then .ok r
  else match r.get? h with
    | none => .error (.unissued h.index)
    | some d =>
      if _h : d.type ∈ room then do
        let info ← c.lookup d.resolved
        let (base, r) ← r.describeAll c info.base.toList
        let (parts, r) ← (r.link h base.val.head?).2.describeAll c d.shape.parts
        (base.val ++ parts.val).foldlM (fun r next => visit c (room.erase d.type) r next) r
      else .error (.dangling d.type)
termination_by room.length
decreasing_by exact Catalog.length_erase_lt _h

/-- Visits of descriptors in order, with those that got their pairs on the way, in order. -/
inductive Visits (c : Catalog) :
    Registry → List DescriptorId → List DescriptorId → Registry → Prop where
  | done {r : Registry} : Visits c r [] [] r
  | passed {r r' : Registry} {h : DescriptorId} {rest visited : List DescriptorId}
      (hl : r.isBased h = true) (hrest : Visits c r rest visited r') :
      Visits c r (h :: rest) visited r'
  | linked {r r₁ r₂ r₃ r' : Registry} {h : DescriptorId} {rest inner later : List DescriptorId}
      {d : Descriptor} {info : TypeInfo} {base : HandlesOf info.base.toList}
      {parts : HandlesOf d.shape.parts} (hl : r.isBased h = false) (hd : r.get? h = some d)
      (hi : c.lookup d.resolved = .ok info)
      (hbase : r.describeAll c info.base.toList = .ok (base, r₁))
      (hparts : (r₁.link h base.val.head?).2.describeAll c d.shape.parts = .ok (parts, r₂))
      (hinner : Visits c r₂ (base.val ++ parts.val) inner r₃) (hrest : Visits c r₃ rest later r') :
      Visits c r (h :: rest) (h :: (inner ++ later)) r'

variable {c : Catalog} {r r' : Registry} {id : TypeId} {h : DescriptorId}
  {hs visited : List DescriptorId}

/-- The first of several descriptors are visited to the end before the others. -/
theorem Visits.split {first rest : List DescriptorId} (hv : Visits c r (first ++ rest) visited r') :
    ∃ inner m later, Visits c r first inner m ∧ Visits c m rest later r' ∧
      visited = inner ++ later := by
  generalize hall : first ++ rest = all at hv
  induction hv generalizing first with
  | done =>
    obtain ⟨rfl, rfl⟩ := List.append_eq_nil_iff.mp hall
    exact ⟨[], _, [], .done, .done, rfl⟩
  | @passed r r' h tail visited hl hrest ih =>
    cases first with
    | nil =>
      rw [List.nil_append] at hall
      exact ⟨[], r, visited, .done, by rw [hall]; exact .passed hl hrest, rfl⟩
    | cons t first =>
      obtain ⟨rfl, htail⟩ := List.cons.inj hall
      obtain ⟨inner, m, later, hfirst, hlater, hv⟩ := ih htail
      exact ⟨inner, m, later, .passed hl hfirst, hlater, hv⟩
  | @linked r r₁ r₂ r₃ r' h tail inner later d info base parts hl hd hi hbase hparts hinner hrest
      _ ih =>
    cases first with
    | nil =>
      rw [List.nil_append] at hall
      refine ⟨[], r, _, .done, ?_, rfl⟩
      rw [hall]
      exact .linked hl hd hi hbase hparts hinner hrest
    | cons t first =>
      obtain ⟨rfl, htail⟩ := List.cons.inj hall
      obtain ⟨others, m, last, hfirst, hlast, rfl⟩ := ih htail
      refine ⟨t :: (inner ++ others), m, last, .linked hl hd hi hbase hparts hinner hfirst, hlast,
        ?_⟩
      rw [List.cons_append, List.append_assoc]

/-- Working off the pending descriptors is to visit them in order. -/
theorem linkAll_visits (c : Catalog) (room : List TypeId) (r : Registry)
    (pending : List DescriptorId) :
    Ensures (linkAll c room r pending) fun r' => ∃ visited, Visits c r pending visited r' := by
  fun_induction linkAll c room r pending with
  | case1 => exact .ok ⟨[], .done⟩
  | case2 room r h rest hl ih =>
    refine ih.mono ?_
    rintro r' ⟨visited, hv⟩
    exact ⟨visited, .passed hl hv⟩
  | case3 => exact .error _
  | case4 room r h rest hl d hd hmem ih =>
    refine (Ensures.self _).bind fun info hi => ?_
    refine (Ensures.self _).bind fun first hbase => ?_
    obtain ⟨⟨base, hlength⟩, r₁⟩ := first
    refine (Ensures.self _).bind fun rest hparts => ?_
    obtain ⟨⟨parts, hlength'⟩, r₂⟩ := rest
    refine (ih info base hlength parts hlength' r₂).mono ?_
    rintro r' ⟨visited, hv⟩
    obtain ⟨inner, m, later, hinner, hlater, -⟩ := hv.split
    exact ⟨_, .linked (Bool.eq_false_iff.mpr hl) hd hi hbase hparts hinner hlater⟩
  | case5 => exact .error _

/-- The descriptors that have pairs, in order. -/
def derived (r : Registry) : List DescriptorId :=
  r.basePairs.toList.map BasePair.derived

theorem linked_eq_map_derived (r : Registry) : r.linked = r.derived.map r.typeAt := by
  rw [linked_eq, derived, List.map_map]
  rfl

/-- What describing a base and the parts of a shape amounts to, once it has been done. -/
theorem paired {r₁ r₂ : Registry} {d : Descriptor} {info : TypeInfo}
    {base : HandlesOf info.base.toList} {parts : HandlesOf d.shape.parts} (hc : c.IsClosed)
    (hr : r.IsIndexed) (hs : r.IsShaped c) (hl : r.isBased h = false) (hd : r.get? h = some d)
    (hi : c.lookup d.resolved = .ok info)
    (hbase : r.describeAll c info.base.toList = .ok (base, r₁))
    (hparts : (r₁.link h base.val.head?).2.describeAll c d.shape.parts = .ok (parts, r₂)) :
    Paired c h d info.base (base.val ++ parts.val) r r₂ := by
  obtain ⟨info', hi', base', r₁', parts', r₂', hbase', hparts', -, -, hpair⟩ :=
    pair_yields hc hr hs hd hl
  obtain rfl : info = info' := Except.ok.inj (hi.symm.trans hi')
  obtain ⟨rfl, rfl⟩ := Prod.mk.inj (Except.ok.inj (hbase.symm.trans hbase'))
  obtain ⟨rfl, rfl⟩ := Prod.mk.inj (Except.ok.inj (hparts.symm.trans hparts'))
  exact hpair

/-- Descriptors that are visited get their pairs after those there were, in order. -/
structure Visited (c : Catalog) (visited : List DescriptorId) (r r' : Registry) : Prop where
  indexed : r'.IsIndexed
  shaped : r'.IsShaped c
  types : r.types <+: r'.types
  derived : r'.derived = r.derived ++ visited

theorem Visited.linked_eq (hv : Visited c visited r r') (hr : r.IsIndexed) :
    r'.linked = r.linked ++ visited.map r'.typeAt := by
  rw [linked_eq_map_derived, hv.derived, List.map_append, linked_eq_map_derived]
  congr 1
  refine List.map_congr_left fun h hh => ?_
  obtain ⟨p, hp, rfl⟩ := List.mem_map.mp hh
  exact typeAt_of_isPrefix hv.types (hr.issued p hp).1

theorem Visits.isVisited (hc : c.IsClosed) (hv : Visits c r hs visited r') (hr : r.IsIndexed)
    (hshape : r.IsShaped c) : Visited c visited r r' := by
  induction hv with
  | done => exact ⟨hr, hshape, List.prefix_refl _, (List.append_nil _).symm⟩
  | passed _ _ ih => exact ih hr hshape
  | linked hl hd hi hbase hparts _ _ ih₁ ih₂ =>
    have hpair := paired hc hr hshape hl hd hi hbase hparts
    have h₁ := ih₁ hpair.indexed (hshape.grows hpair.grows)
    have h₂ := ih₂ h₁.indexed h₁.shaped
    obtain ⟨b, hb⟩ := hpair.basePairs
    refine ⟨h₂.indexed, h₂.shaped, (hpair.grows.prefix_types.trans h₁.types).trans h₂.types, ?_⟩
    rw [h₂.derived, h₁.derived, Registry.derived, hb]
    simp [Registry.derived]

/-- The recursive visit gets there too, with room for all types that have no link. -/
theorem Visits.foldlM_eq (hc : c.IsClosed) (hv : Visits c r hs visited r') (hr : r.IsIndexed)
    (hshape : r.IsShaped c) (room : List TypeId) (hroom : ∀ t ∈ c.ids, t ∉ r.linked → t ∈ room) :
    hs.foldlM (visit c room) r = .ok r' := by
  induction hv generalizing room with
  | done => rfl
  | passed hl _ ih =>
    rw [List.foldlM_cons, visit, if_pos hl, ok_bind]
    exact ih hr hshape room hroom
  | @linked r r₁ r₂ r₃ r' h rest inner later d info base parts hl hd hi hbase hparts hinner _ ih₁
      ih₂ =>
    have hpair := paired hc hr hshape hl hd hi hbase hparts
    have hshape₂ := hshape.grows hpair.grows
    have hin := hinner.isVisited hc hpair.indexed hshape₂
    have hid : d.type ∈ c.ids := Catalog.mem_ids_of_shape (hshape d (mem_of_get hd))
    have hmem : d.type ∈ room := by
      apply hroom d.type hid
      rw [← hr.isBased_iff_linked (hr.position_of_get hd), hl]
      exact Bool.false_ne_true
    have hlinked : r₂.linked = r.linked ++ [d.type] := by simp [Registry.linked, hpair.links]
    have hinside : ∀ t ∈ c.ids, t ∉ r₂.linked → t ∈ room.erase d.type := by
      intro t ht hn
      rw [hlinked, List.mem_append, List.mem_singleton, not_or] at hn
      exact (List.mem_erase_of_ne hn.2).mpr (hroom t ht hn.1)
    have hafter : ∀ t ∈ c.ids, t ∉ r₃.linked → t ∈ room := by
      intro t ht hn
      refine hroom t ht fun hmem => hn ?_
      rw [hin.linked_eq hpair.indexed, hlinked]
      simp [hmem]
    rw [List.foldlM_cons, visit, if_neg (by simp [hl]), hd]
    dsimp only
    rw [dif_pos hmem, hi, ok_bind, hbase, ok_bind]
    dsimp only
    rw [hparts, ok_bind]
    dsimp only
    rw [ih₁ hpair.indexed hshape₂ _ hinside, ok_bind]
    exact ih₂ hin.indexed hin.shaped room hafter

/--
Linking a type by the list of pending descriptors comes to an end, in the registry that the
recursive visit leaves behind. Descriptors are visited once at most: those that get a pair, in the
order of their pairs.
-/
theorem collect_eq_visit (hc : c.IsRegular) (hsteps : ReflTransGen (Step c) {} r)
    (hid : id ∈ r.types) :
    ∃ h visited r', r.position? id = some h ∧ (collect c id).run r = .ok ((), r') ∧
      visit c c.ids r h = .ok r' ∧ Visits c r [h] visited r' ∧
      r'.basePairs.toList.map BasePair.derived =
        r.basePairs.toList.map BasePair.derived ++ visited ∧
      (r'.basePairs.toList.map BasePair.derived).Nodup ∧
      r'.linked = r.linked ++ visited.map r'.typeAt ∧ r'.linked.Nodup := by
  obtain ⟨hr, -⟩ := steps_keep hc isCoherent_empty hsteps
  obtain ⟨h, -, hh, -⟩ := hr.indexed.exists_position hid
  have hall : ∀ t ∈ c.ids, t ∉ r.linked → t ∈ c.ids := fun t ht _ => ht
  obtain ⟨r', hrun, -⟩ :=
    linkAll_linked hc.closed c.ids r [h] hr.indexed hr.shape hall (.cons hh .nil)
  obtain ⟨visited, hvisits⟩ := linkAll_visits c c.ids r [h] r' hrun
  have hvisited := hvisits.isVisited hc.closed hr.indexed hr.shape
  have hvisit : visit c c.ids r h = .ok r' := by
    have hfold := hvisits.foldlM_eq hc.closed hr.indexed hr.shape c.ids hall
    rw [List.foldlM_cons] at hfold
    obtain ⟨r₁, hr₁, hnil⟩ := bind_eq_ok.mp hfold
    exact Except.ok.inj hnil ▸ hr₁
  have hcollect : (collect c id).run r = .ok ((), r') := by
    rw [collect, StateT.run_bind, run_handle hh, ok_bind, run_collectFrom, hrun]
    rfl
  exact ⟨h, visited, r', hh, hcollect, hvisit, hvisits, hvisited.derived, hvisited.indexed.nodup,
    hvisited.linked_eq hr.indexed, hvisited.indexed.linked_nodup⟩

/-- What a handler is called with: other handlers. -/
def handling : Method where
  name := "Invoke"
  parameters := [{ name := "others", type := ⟨6⟩ }]
  result := some ⟨2⟩

/--
Two classes each of which is the base of the other, an array of one of them, and a delegate that
takes a list of its own kind.
-/
def circles : Catalog where
  entries := #[⟨"Delegate", { name := "Delegate", namespaceName := some "System" }⟩,
    ⟨"List", { name := "List`1", namespaceName := some "System.Collections.Generic" }⟩,
    ⟨"Hen", { name := "Hen", base := some ⟨3⟩ }⟩,
    ⟨"Egg", { name := "Egg", base := some ⟨2⟩ }⟩,
    ⟨"Egg[]", { name := "Egg[]", element := some ⟨3⟩ }⟩,
    ⟨"Handler", { name := "Handler", base := some ⟨0⟩, methods := [handling] }⟩,
    ⟨"List<Handler>", { name := "List`1", definition := some ⟨1⟩, arguments := [⟨5⟩] }⟩]

theorem circles_isRegular : circles.IsRegular :=
  Catalog.isRegular_of_earlier (by decide +kernel)

/-- The array, once a pair says that the list extends it: each of both classes is visited once. -/
theorem circles_collect_eq_visit : ∃ r, ReflTransGen (Step circles) {} r ∧ r.linked = [⟨6⟩] ∧
    ∃ r', (collect circles ⟨4⟩).run r = .ok ((), r') ∧ visit circles circles.ids r ⟨0⟩ = .ok r' ∧
      Visits circles r [⟨0⟩] [⟨0⟩, ⟨1⟩, ⟨4⟩] r' ∧ r'.linked = [⟨6⟩, ⟨4⟩, ⟨3⟩, ⟨2⟩] := by
  let r₁ : Registry := (({} : Registry).insert { type := ⟨4⟩, shape := .array ⟨3⟩ }).insert
    { type := ⟨3⟩, shape := .plain }
  let r₂ : Registry := ((r₁.insert { type := ⟨6⟩, shape := .sequence ⟨5⟩ }).insert
    { type := ⟨5⟩, shape := .delegate ⟨[⟨6⟩], some ⟨2⟩⟩ }).insert { type := ⟨2⟩, shape := .plain }
  let r₃ : Registry := (r₂.link ⟨2⟩ (some ⟨0⟩)).2
  have harray : Step circles {} r₁ :=
    ⟨.obtain ⟨4⟩, show (⟨4⟩ : TypeId) ∈ circles.ids by decide +kernel, by decide +kernel⟩
  have hlist : Step circles r₁ r₂ :=
    ⟨.obtain ⟨6⟩, show (⟨6⟩ : TypeId) ∈ circles.ids by decide +kernel, by decide +kernel⟩
  have hissued : r₂.Issued ⟨2⟩ ∧ ∀ b, some (⟨0⟩ : DescriptorId) = some b → r₂.Issued b := by
    refine ⟨by decide, ?_⟩
    rintro _ ⟨⟩
    decide
  have hrecord : Step circles r₂ r₃ := ⟨.record ⟨2⟩ (some ⟨0⟩), hissued, rfl⟩
  have hsteps : ReflTransGen (Step circles) {} r₃ := .tail (.tail (.single harray) hlist) hrecord
  obtain ⟨h, visited, r', hh, hrun, hvisit, hvisits, hderived, -⟩ :=
    collect_eq_visit circles_isRegular hsteps (by decide : (⟨4⟩ : TypeId) ∈ r₃.types)
  have hfirst : r₃.position? ⟨4⟩ = some ⟨0⟩ := by decide +kernel
  obtain rfl : h = ⟨0⟩ := Option.some.inj (hh.symm.trans hfirst)
  have hpairs : r'.basePairs.toList.map BasePair.derived = [⟨2⟩, ⟨0⟩, ⟨1⟩, ⟨4⟩] :=
    eq_of_map_eq_ok hrun (f := fun out => out.2.basePairs.toList.map BasePair.derived)
      (by decide +kernel)
  have hlinks : r'.linked = [⟨6⟩, ⟨4⟩, ⟨3⟩, ⟨2⟩] :=
    eq_of_map_eq_ok hrun (f := fun out => out.2.linked) (by decide +kernel)
  have happend : [(⟨2⟩ : DescriptorId)] ++ visited = [⟨2⟩, ⟨0⟩, ⟨1⟩, ⟨4⟩] :=
    hderived.symm.trans hpairs
  obtain rfl : visited = [⟨0⟩, ⟨1⟩, ⟨4⟩] := List.append_cancel_left happend
  exact ⟨r₃, hsteps, by decide +kernel, r', hrun, hvisit, hvisits, hlinks⟩

end TypeDocs.Registry
