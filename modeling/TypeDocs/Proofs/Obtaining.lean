import TypeDocs.Proofs.Visiting

namespace TypeDocs

open Relation Registry

namespace Registry

variable {c : Catalog} {r r' : Registry} {id : TypeId} {ids : List TypeId}

/-- Where everything mentioned is described, so is everything that mentions lead to. -/
theorem IsCoherent.reach {a b : TypeId} (h : r.IsCoherent c) (ha : a ∈ r.types)
    (hab : ReflTransGen c.Mentions a b) : b ∈ r.types := by
  induction hab with
  | refl => exact ha
  | tail _ hbc ih =>
    obtain ⟨s, hs, ht⟩ := hbc
    obtain ⟨d, hd, rfl⟩ := List.mem_map.mp ih
    obtain rfl : d.shape = s := Except.ok.inj ((h.shape d hd).symm.trans hs)
    exact h.mentioned d hd _ ht

/--
Nothing is left out: a type that is being described further up counts as described although what it
mentions is still missing, but in the end the registry is closed again.
-/
theorem IsCoherent.mem_types_iff (h : r.IsCoherent c) (hd : Described c ids r r') (t : TypeId) :
    t ∈ r'.types ↔ t ∈ r.types ∨ ∃ s ∈ ids, ReflTransGen c.Mentions s t := by
  constructor
  · intro ht
    obtain ⟨new, hnew, hreached⟩ := hd.grows
    have htypes : r'.types = r.types ++ new.map Descriptor.type := by simp [types, hnew]
    rw [htypes, List.mem_append] at ht
    refine ht.imp_right fun ht => ?_
    obtain ⟨d, hdn, rfl⟩ := List.mem_map.mp ht
    exact (hreached d hdn).2.1
  · rintro (ht | ⟨s, hs, hst⟩)
    · exact hd.grows.mem_types ht
    · exact (h.described hd).1.reach (hd.mem s hs) hst

end Registry

namespace Recording

variable {c : Catalog} {r r' : Registry} {id : TypeId} {ids : List TypeId}

/-- Obtaining types one after the other describes what any of them leads to. -/
theorem obtain_mapM (hc : c.IsClosed) (hr : r.IsCoherent c) (hids : ∀ t ∈ ids, t ∈ c.ids) :
    Yields ((ids.mapM (obtain c)).run r) fun out => out.2.IsCoherent c ∧
      ∀ t, t ∈ out.2.types ↔ t ∈ r.types ∨ ∃ s ∈ ids, ReflTransGen c.Mentions s t := by
  induction ids generalizing r with
  | nil => exact .pure ⟨hr, by simp⟩
  | cons id ids ih =>
    rw [List.forall_mem_cons] at hids
    rw [List.mapM_cons, StateT.run_bind]
    refine (obtain_described hc hids.1 hr.indexed).bind fun out ⟨hd, _⟩ => ?_
    rw [StateT.run_bind]
    refine (ih (hr.described hd).1 hids.2).bind fun out' ⟨hr', htypes⟩ => .pure ⟨hr', fun t => ?_⟩
    simp only [htypes, hr.mem_types_iff hd, List.exists_mem_cons_iff, List.not_mem_nil, false_and,
      exists_false, or_false, or_assoc]

theorem obtain_again {d : Descriptor} {h : DescriptorId} (hh : r.position? id = some h)
    (hd : r.get? h = some d) : (obtain c id).run r = .ok (d, r) := by
  rw [obtain, StateT.run_bind, run_handle hh, ok_bind, run_descriptor hd]

/-- New descriptors come after those there are, each of them as it is made. -/
theorem appends_of_described (hr : r.IsCoherent c) (hd : Described c [id] r r') :
    ∃ new, r'.descriptors = r.descriptors ++ new ∧ (∀ e ∈ new.toList, e.IsFresh c) ∧
      (new.toList.map Descriptor.type).Nodup ∧
      ∀ t, t ∈ new.toList.map Descriptor.type ↔ t ∉ r.types ∧ ReflTransGen c.Mentions id t := by
  obtain ⟨new, hnew, hadded⟩ := hd.grows
  have htypes : r'.types = r.types ++ new.map Descriptor.type := by simp [types, hnew]
  have hnodup : (r.types ++ new.map Descriptor.type).Nodup := htypes ▸ hd.indexed.types_nodup
  obtain ⟨-, hnewdup, hdisjoint⟩ := List.nodup_append.mp hnodup
  refine ⟨new.toArray, ?_, fun e he => (hadded e he).1, hnewdup, fun t => ?_⟩
  · apply Array.toList_inj.mp
    simpa using hnew
  constructor
  · intro ht
    obtain ⟨e, he, rfl⟩ := List.mem_map.mp ht
    obtain ⟨s, hs, hreach⟩ := (hadded e he).2.1
    exact ⟨fun hold => hdisjoint _ hold _ ht rfl, List.mem_singleton.mp hs ▸ hreach⟩
  · rintro ⟨hold, hreach⟩
    have hmem : t ∈ r'.types :=
      (hr.mem_types_iff hd t).mpr (.inr ⟨id, List.mem_cons_self, hreach⟩)
    rw [htypes, List.mem_append] at hmem
    exact hmem.resolve_left hold

/--
Obtaining a type succeeds and appends one descriptor for each type that shapes lead to from it and
that had none; no pair is recorded, and what is found by the index is what was found and what is
new, under the handles that it had. A second time the same descriptor is found and nothing changes.
Which types are described after several have been obtained depends on the types, not on their order
or on how often each of them comes.
-/
theorem obtain_creates_reachable (hc : c.IsRegular) (h : ReflTransGen (Step c) {} r)
    (hid : id ∈ c.ids) :
    ∃ d r' new i, (obtain c id).run r = .ok (d, r') ∧
      r'.descriptors = r.descriptors ++ new ∧ r'.basePairs = r.basePairs ∧ r'.based = r.based ∧
      (∀ e ∈ new.toList, e.IsFresh c) ∧ (new.toList.map Descriptor.type).Nodup ∧
      (∀ t, t ∈ new.toList.map Descriptor.type ↔
        r.position? t = none ∧ ReflTransGen c.Mentions id t) ∧
      (∀ t, (r'.position? t).isSome ↔
        (r.position? t).isSome ∨ t ∈ new.toList.map Descriptor.type) ∧
      (∀ t j, r.position? t = some j → r'.position? t = some j) ∧
      r'.position? id = some i ∧ r'.get? i = some d ∧ (obtain c id).run r' = .ok (d, r') ∧
      ∀ ids others : List TypeId, (∀ t ∈ ids, t ∈ c.ids) → (∀ t, t ∈ others ↔ t ∈ ids) →
        ∃ ds r₁ es r₂, (ids.mapM (obtain c)).run r = .ok (ds, r₁) ∧
          (others.mapM (obtain c)).run r = .ok (es, r₂) ∧
          ∀ t, (r₁.position? t).isSome ↔ (r₂.position? t).isSome := by
  obtain ⟨hr, -⟩ := steps_keep hc isCoherent_empty h
  obtain ⟨⟨d, r'⟩, hrun, hd, -, i, hi, hget⟩ := obtain_described hc.closed hid hr.indexed
  dsimp only at hd hi hget
  obtain ⟨new, hdesc, hfresh, hnewdup, hnew⟩ := appends_of_described hr hd
  have htypes : r'.types = r.types ++ new.toList.map Descriptor.type := by simp [types, hdesc]
  refine ⟨d, r', new, i, hrun, hdesc, hd.basePairs, hd.based, hfresh, hnewdup, fun t => ?_,
    fun t => ?_, fun t j => hr.indexed.position_of_isPrefix hd.indexed hd.grows.prefix_types, hi,
    hget, obtain_again hi hget, ?_⟩
  · rw [hnew, ← hr.indexed.isSome_position_iff, Bool.not_eq_true, Option.isSome_eq_false_iff,
      Option.isNone_iff_eq_none]
  · rw [hd.indexed.isSome_position_iff, hr.indexed.isSome_position_iff, htypes, List.mem_append]
  · intro ids others hids hothers
    have hothers' : ∀ t ∈ others, t ∈ c.ids := fun t ht => hids t ((hothers t).mp ht)
    obtain ⟨⟨ds, r₁⟩, hds, hr₁, htypes₁⟩ := obtain_mapM hc.closed hr hids
    obtain ⟨⟨es, r₂⟩, hes, hr₂, htypes₂⟩ := obtain_mapM hc.closed hr hothers'
    refine ⟨ds, r₁, es, r₂, hds, hes, fun t => ?_⟩
    simp only [hr₁.indexed.isSome_position_iff, hr₂.indexed.isSome_position_iff, htypes₁, htypes₂,
      hothers]

/--
The list of handlers, once the array is described: the handler mentions the list again, and its
result is described last.
-/
theorem circles_obtain_creates_reachable : ∃ r, ReflTransGen (Step circles) {} r ∧
    r.types = [⟨4⟩, ⟨3⟩] ∧ ∃ d r', (obtain circles ⟨6⟩).run r = .ok (d, r') ∧
      r'.types = [⟨4⟩, ⟨3⟩, ⟨6⟩, ⟨5⟩, ⟨2⟩] ∧
      (∀ t, t ∈ [(⟨6⟩ : TypeId), ⟨5⟩, ⟨2⟩] ↔
        r.position? t = none ∧ ReflTransGen circles.Mentions ⟨6⟩ t) ∧
      r'.position? ⟨3⟩ = some ⟨1⟩ ∧ r'.position? ⟨6⟩ = some ⟨2⟩ ∧
      (obtain circles ⟨6⟩).run r' = .ok (d, r') := by
  let r : Registry := (({} : Registry).insert { type := ⟨4⟩, shape := .array ⟨3⟩ }).insert
    { type := ⟨3⟩, shape := .plain }
  have hstep : Step circles {} r :=
    ⟨.obtain ⟨4⟩, show (⟨4⟩ : TypeId) ∈ circles.ids by decide +kernel, by decide +kernel⟩
  obtain ⟨d, r', new, i, hrun, hdesc, -, -, -, -, hnew, -, hkeeps, -, -, hagain, -⟩ :=
    obtain_creates_reachable circles_isRegular (.single hstep)
      (by decide +kernel : (⟨6⟩ : TypeId) ∈ circles.ids)
  have hr'types : r'.types = [⟨4⟩, ⟨3⟩, ⟨6⟩, ⟨5⟩, ⟨2⟩] :=
    eq_of_map_eq_ok hrun (f := fun out => out.2.types) (by decide +kernel)
  have hposition : r'.position? ⟨6⟩ = some ⟨2⟩ :=
    eq_of_map_eq_ok hrun (f := fun out => out.2.position? ⟨6⟩) (by decide +kernel)
  have happend : [(⟨4⟩ : TypeId), ⟨3⟩] ++ new.toList.map Descriptor.type =
      [⟨4⟩, ⟨3⟩, ⟨6⟩, ⟨5⟩, ⟨2⟩] := by
    rw [← hr'types, types, hdesc]
    simp [r, Registry.insert]
  have hnewtypes : new.toList.map Descriptor.type = [⟨6⟩, ⟨5⟩, ⟨2⟩] :=
    List.append_cancel_left happend
  rw [hnewtypes] at hnew
  exact ⟨r, .single hstep, by decide, d, r', hrun, hr'types, hnew,
    hkeeps ⟨3⟩ ⟨1⟩ (by decide +kernel), hposition, hagain⟩

end Recording

end TypeDocs
