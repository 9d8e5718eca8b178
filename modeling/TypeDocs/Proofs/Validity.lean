import TypeDocs.Catalog.Validity
import TypeDocs.Proofs.Outcome
import TypeDocs.Proofs.Walk

namespace TypeDocs.Catalog

open Relation

variable {c : Catalog}

/-- What validation asks of a type. -/
structure IsSound (c : Catalog) (id : TypeId) (info : TypeInfo) : Prop where
  base : Settles (c.Follows TypeInfo.base) c.ids id
  name : Settles c.NamePart c.ids id
  definition : ∀ d, info.definition = some d → ∃ generic, c.get? d = some generic ∧
    ∀ n, generic.arity = some n → info.arguments.length = n
  members : (info.fields.map Field.name ++ info.properties.map Property.name).Nodup

theorem checkChain_eq_ok_iff (kind : CycleKind) (next : TypeInfo → Option TypeId)
    (path : List String) (room : List TypeId) (hr : ∀ t ∈ room, t ∈ c.ids) (hn : room.Nodup)
    (start : Option TypeId) :
    c.checkChain kind next path room start = .ok () ↔
      ∀ id, start = some id → Settles (c.Follows next) room id := by
  fun_induction checkChain c kind next path room start with
  | case1 => simp
  | case2 path room id hg =>
    simp only [reduceCtorEq, Option.some.injEq, forall_eq', false_iff]
    intro hs
    obtain ⟨info, hi⟩ := mem_ids_iff.mp (hr id hs.mem)
    simp [hg] at hi
  | case3 path room id info hg hid ih =>
    rw [ih (fun t ht => hr t (List.mem_of_mem_erase ht)) (hn.erase id)]
    simp only [Option.some.injEq, forall_eq']
    constructor
    · intro h
      apply Settles.of_erase hid
      rintro b ⟨i, hi, hb⟩
      rw [hg, Option.some.injEq] at hi
      exact h b (hi ▸ hb)
    · intro h b hb
      exact h.erase (.single ⟨info, hg, hb⟩)
  | case4 path room id info hg hid =>
    simp only [reduceCtorEq, Option.some.injEq, forall_eq', false_iff]
    exact fun hs => hid hs.mem

theorem namePart_iff {a b : TypeId} :
    c.NamePart a b ↔ ∃ info, c.get? a = some info ∧ b ∈ info.nameParts := by
  simp [NamePart, TypeInfo.nameParts]

/-- The types found acyclic do settle, and so does the type looked at. -/
theorem checkStructure_sound (stack room known known' : List TypeId) (id : TypeId)
    (hk : ∀ t ∈ known, Settles c.NamePart c.ids t)
    (h : c.checkStructure stack room known id = .ok known') :
    (∀ t ∈ known', Settles c.NamePart c.ids t) ∧ Settles c.NamePart c.ids id := by
  fun_induction checkStructure c stack room known id generalizing known' with
  | case1 stack room known id hid =>
    obtain rfl := Except.ok.inj h
    exact ⟨hk, hk id hid⟩
  | case2 => simp at h
  | case3 stack room known id hid info hg hroom ih =>
    obtain ⟨inner, hf, hp⟩ := bind_eq_ok.mp h
    obtain rfl := Except.ok.inj hp
    obtain ⟨hinner, hparts⟩ := foldlM_inv (Q := Settles c.NamePart c.ids)
      (fun part _ known known' hk hs => ih known part known' hk hs) hk hf
    have hsettles : Settles c.NamePart c.ids id := by
      apply Settles.of_next (mem_ids_of_get hg)
      intro b hb
      obtain ⟨i, hi, hb⟩ := namePart_iff.mp hb
      rw [hg, Option.some.injEq] at hi
      exact hparts b (hi ▸ hb)
    refine ⟨?_, hsettles⟩
    intro t ht
    rcases List.mem_cons.mp ht with rfl | ht
    · exact hsettles
    · exact hinner t ht
  | case4 => simp at h

/-- Whatever is known already, the search succeeds on a type that settles in its room. -/
theorem checkStructure_complete (stack room known : List TypeId) (id : TypeId)
    (hr : ∀ t ∈ room, t ∈ c.ids) (h : Settles c.NamePart room id) :
    ∃ known', c.checkStructure stack room known id = .ok known' := by
  fun_induction checkStructure c stack room known id with
  | case1 stack room known id hid => exact ⟨known, rfl⟩
  | case2 stack room known id hid hg =>
    obtain ⟨info, hi⟩ := mem_ids_iff.mp (hr id h.mem)
    simp [hg] at hi
  | case3 stack room known id hid info hg hroom ih =>
    obtain ⟨inner, hf⟩ := foldlM_ok (l := info.nameParts) (b := known) (f := fun known part =>
        c.checkStructure (stack ++ [id]) (room.erase id) known part) (by
      intro part hpart known
      apply ih known part (fun t ht => hr t (List.mem_of_mem_erase ht))
      exact h.erase (.single (namePart_iff.mpr ⟨info, hg, hpart⟩)))
    exact ⟨id :: inner, bind_eq_ok.mpr ⟨inner, hf, rfl⟩⟩
  | case4 stack room known id hid info hg hroom => exact absurd h.mem hroom

theorem checkArity_eq_ok_iff (info : TypeInfo) :
    c.checkArity info = .ok () ↔ ∀ d, info.definition = some d →
      ∃ generic, c.get? d = some generic ∧
        ∀ n, generic.arity = some n → info.arguments.length = n := by
  unfold checkArity
  cases hd : info.definition with
  | none => simp
  | some d =>
    cases hg : c.get? d with
    | none => simp [hg]
    | some generic =>
      cases ha : generic.arity with
      | none => simp [hg, ha]
      | some n => simp [hg, ha, eq_comm]

theorem checkNames_eq_ok_iff (owner : String) (seen names : List String) :
    checkNames owner seen names = .ok () ↔ names.Nodup ∧ ∀ n ∈ names, n ∉ seen := by
  induction names generalizing seen with
  | nil => simp [checkNames]
  | cons name names ih =>
    rw [checkNames]
    split
    · rename_i h
      simp [h]
    · rename_i h
      rw [ih, List.nodup_cons]
      grind

theorem checkType_eq_ok_iff (known known' : List TypeId) (id : TypeId) :
    c.checkType known id = .ok known' ↔
      Settles (c.Follows TypeInfo.base) c.ids id ∧
      Settles (c.Follows TypeInfo.enclosing) c.ids id ∧
      Settles (c.Follows TypeInfo.element) c.ids id ∧
      c.checkStructure [] c.ids known id = .ok known' ∧
      ∃ info, c.get? id = some info ∧ c.checkArity info = .ok () ∧
        checkNames info.fullName [] info.memberNames = .ok () := by
  have hchain (kind : CycleKind) (next : TypeInfo → Option TypeId) :
      c.checkChain kind next [] c.ids (some id) = .ok () ↔ Settles (c.Follows next) c.ids id := by
    rw [checkChain_eq_ok_iff kind next [] c.ids (fun _ ht => ht) c.nodup_ids]
    simp
  unfold checkType
  simp only [bind_eq_ok, hchain]
  cases hg : c.get? id with
  | none => simp
  | some info => simp [bind_unit_eq_ok, pure, Except.pure, and_comm, and_left_comm]

theorem isSound_of_validate (h : c.validate = .ok ()) {id : TypeId} {info : TypeInfo}
    (hg : c.get? id = some info) : c.IsSound id info := by
  obtain ⟨known, hf, -⟩ := bind_eq_ok.mp h
  have hstep : ∀ t ∈ c.ids, ∀ known known', (∀ a ∈ known, Settles c.NamePart c.ids a) →
      c.checkType known t = .ok known' →
      (∀ a ∈ known', Settles c.NamePart c.ids a) ∧ ∀ i, c.get? t = some i → c.IsSound t i := by
    intro t _ known known' hk ht
    obtain ⟨hb, -, -, hs, i, hi, ha, hm⟩ := (checkType_eq_ok_iff known known' t).mp ht
    obtain ⟨hk', hn⟩ := checkStructure_sound [] c.ids known known' t hk hs
    refine ⟨hk', ?_⟩
    intro j hj
    obtain rfl : i = j := Option.some.inj (hi.symm.trans hj)
    exact ⟨hb, hn, (checkArity_eq_ok_iff i).mp ha, ((checkNames_eq_ok_iff _ _ _).mp hm).1⟩
  exact (foldlM_inv hstep (by simp) hf).2 id (mem_ids_of_get hg) info hg

theorem validate_of_isSound (h : ∀ id info, c.get? id = some info → c.IsSound id info) :
    c.validate = .ok () := by
  have hstep : ∀ t ∈ c.ids, ∀ known, ∃ known', c.checkType known t = .ok known' := by
    intro t ht known
    obtain ⟨info, hg⟩ := mem_ids_iff.mp ht
    have hs := h t info hg
    obtain ⟨known', hk⟩ := checkStructure_complete [] c.ids known t (fun _ ht => ht) hs.name
    have hchain (next : TypeInfo → Option TypeId)
        (hnext : ∀ i b, next i = some b → b ∈ i.nameParts) :
        Settles (c.Follows next) c.ids t := by
      apply hs.name.mono
      rintro a b ⟨i, hi, hb⟩
      exact namePart_iff.mpr ⟨i, hi, hnext i b hb⟩
    refine ⟨known', (checkType_eq_ok_iff known known' t).mpr
      ⟨hs.base, hchain _ ?_, hchain _ ?_, hk, info, hg,
        (checkArity_eq_ok_iff info).mpr hs.definition,
        (checkNames_eq_ok_iff _ _ _).mpr ⟨hs.members, by simp⟩⟩⟩
    · intro i b hb
      simp [TypeInfo.nameParts, hb]
    · intro i b hb
      simp [TypeInfo.nameParts, hb]
  obtain ⟨known, hf⟩ := foldlM_ok hstep []
  exact bind_eq_ok.mpr ⟨known, hf, rfl⟩

/-- A catalog is valid when and only when each of its types is sound. -/
theorem validate_eq_ok_iff (c : Catalog) :
    c.validate = .ok () ↔ ∀ id info, c.get? id = some info → c.IsSound id info :=
  ⟨fun h _ _ hg => isSound_of_validate h hg, validate_of_isSound⟩

end TypeDocs.Catalog
