/-!
Outcomes that may be failures. A run of steps succeeds when each step does, and what each step keeps
the whole run keeps.
-/

namespace TypeDocs

section Bind

variable {ε α β : Type}

@[simp]
theorem pure_eq_ok (a : α) : (pure a : Except ε α) = .ok a :=
  rfl

@[simp]
theorem ok_bind (a : α) (f : α → Except ε β) : (Except.ok a >>= f) = f a :=
  rfl

theorem bind_eq_ok {x : Except ε α} {f : α → Except ε β} {b : β} :
    (x >>= f) = .ok b ↔ ∃ a, x = .ok a ∧ f a = .ok b := by
  cases x <;> simp [bind, Except.bind]

theorem bind_eq_error {x : Except ε α} {f : α → Except ε β} {e : ε} :
    (x >>= f) = .error e ↔ x = .error e ∨ ∃ a, x = .ok a ∧ f a = .error e := by
  cases x <;> simp [bind, Except.bind]

theorem bind_unit_eq_ok {x : Except ε Unit} {f : Unit → Except ε β} {b : β} :
    (x >>= f) = .ok b ↔ x = .ok () ∧ f () = .ok b :=
  bind_eq_ok.trans ⟨fun ⟨(), h⟩ => h, fun h => ⟨(), h⟩⟩

theorem mapError_eq_ok {ε' : Type} {x : Except ε α} {g : ε → ε'} {a : α} :
    x.mapError g = .ok a ↔ x = .ok a := by
  cases x with
  | error e => exact ⟨nofun, nofun⟩
  | ok b => exact ⟨fun h => congrArg _ (Except.ok.inj h), fun h => congrArg _ (Except.ok.inj h)⟩

/-- Something about a result may be worked out although the result itself is not written down. -/
theorem eq_of_map_eq_ok {x : Except ε α} {a : α} (hx : x = .ok a) {f : α → β} {b : β}
    (h : x.map f = .ok b) : f a = b := by
  rw [hx] at h
  exact Except.ok.inj h

/-- The outcome is a result, and one that `P` holds of. -/
def Yields (x : Except ε α) (P : α → Prop) : Prop :=
  ∃ a, x = .ok a ∧ P a

theorem Yields.pure {P : α → Prop} {a : α} (h : P a) : Yields (pure a : Except ε α) P :=
  ⟨a, rfl, h⟩

theorem Yields.bind {x : Except ε α} {f : α → Except ε β} {P : α → Prop} {Q : β → Prop}
    (hx : Yields x P) (hf : ∀ a, P a → Yields (f a) Q) : Yields (x >>= f) Q := by
  obtain ⟨a, rfl, ha⟩ := hx
  exact hf a ha

theorem Yields.mono {x : Except ε α} {P Q : α → Prop} (hx : Yields x P) (h : ∀ a, P a → Q a) :
    Yields x Q := by
  obtain ⟨a, ha, hp⟩ := hx
  exact ⟨a, ha, h a hp⟩

/-- What is known of the outcome of a computation that yields something is known of any result. -/
theorem Yields.of_eq_ok {x : Except ε α} {P : α → Prop} {a : α} (hx : Yields x P)
    (h : x = .ok a) : P a := by
  obtain ⟨b, hb, hp⟩ := hx
  obtain rfl := Except.ok.inj (hb.symm.trans h)
  exact hp

/-- If there is a result, `P` holds of it. -/
def Ensures (x : Except ε α) (P : α → Prop) : Prop :=
  ∀ a, x = .ok a → P a

theorem Ensures.any (x : Except ε α) : Ensures x fun _ => True :=
  fun _ _ => True.intro

theorem Ensures.self (x : Except ε α) : Ensures x fun a => x = .ok a :=
  fun _ h => h

theorem Ensures.ok {P : α → Prop} {a : α} (h : P a) : Ensures (.ok a : Except ε α) P := by
  rintro _ ⟨⟩
  exact h

theorem Ensures.pure {P : α → Prop} {a : α} (h : P a) : Ensures (pure a : Except ε α) P :=
  .ok h

theorem Ensures.error {P : α → Prop} (e : ε) : Ensures (.error e) P := by
  rintro _ ⟨⟩

theorem Ensures.bind {x : Except ε α} {f : α → Except ε β} {P : α → Prop} {Q : β → Prop}
    (hx : Ensures x P) (hf : ∀ a, P a → Ensures (f a) Q) : Ensures (x >>= f) Q := by
  intro b hb
  obtain ⟨a, ha, hfa⟩ := bind_eq_ok.mp hb
  exact hf a (hx a ha) b hfa

theorem Ensures.mono {x : Except ε α} {P Q : α → Prop} (hx : Ensures x P) (h : ∀ a, P a → Q a) :
    Ensures x Q :=
  fun a ha => h a (hx a ha)

/-- What the first step shows is known whatever follows. -/
theorem Ensures.first {x : Except ε α} {f : α → Except ε β} {p : Prop}
    (hx : Ensures x fun _ => p) : Ensures (x >>= f) fun _ => p :=
  hx.bind fun _ hp => (Ensures.any _).mono fun _ _ => hp

/-- Steps whose result does not matter for what follows. -/
theorem Ensures.after {x : Except ε α} {f : α → Except ε β} {Q : β → Prop}
    (hf : ∀ a, Ensures (f a) Q) : Ensures (x >>= f) Q :=
  (Ensures.any x).bind fun a _ => hf a

/-- After a step only what it can come to matters. -/
theorem Ensures.bind_congr {x : Except ε α} {f g : α → Except ε β} {P : α → Prop}
    (hx : Ensures x P) (h : ∀ a, P a → f a = g a) : (x >>= f) = (x >>= g) := by
  cases x with
  | ok a => exact h a (hx a rfl)
  | error e => rfl

end Bind

section Fold

variable {ε α β : Type} {f : β → α → Except ε β} {l : List α}

/-- What each step of a fold keeps and shows, the fold keeps and shows of all its items. -/
theorem foldlM_inv {I : β → Prop} {Q : α → Prop}
    (hf : ∀ a ∈ l, ∀ b b', I b → f b a = .ok b' → I b' ∧ Q a) {b b' : β} (hb : I b)
    (h : l.foldlM f b = .ok b') : I b' ∧ ∀ a ∈ l, Q a := by
  induction l generalizing b with
  | nil =>
    obtain rfl := Except.ok.inj h
    exact ⟨hb, by simp⟩
  | cons a l ih =>
    rw [List.foldlM_cons] at h
    obtain ⟨b₁, h₁, h₂⟩ := bind_eq_ok.mp h
    obtain ⟨hi, ha⟩ := hf a List.mem_cons_self b b₁ hb h₁
    obtain ⟨hi', hl⟩ := ih (fun x hx => hf x (List.mem_cons_of_mem a hx)) hi h₂
    exact ⟨hi', List.forall_mem_cons.mpr ⟨ha, hl⟩⟩

theorem Ensures.foldlM {I : β → Prop} (hf : ∀ a ∈ l, ∀ b, I b → Ensures (f b a) I) {b : β}
    (hb : I b) : Ensures (l.foldlM f b) I := by
  intro b' h
  exact (foldlM_inv (Q := fun _ => True)
    (fun a ha b b' hb h => ⟨hf a ha b hb b' h, trivial⟩) hb h).1

/-- A fold may keep something that depends on the items it has been through. -/
theorem Ensures.foldlM_prefix {I : List α → β → Prop}
    (hf : ∀ before a b, I before b → Ensures (f b a) (I (before ++ [a]))) {b : β} (hb : I [] b) :
    Ensures (l.foldlM f b) (I l) := by
  have hrun (before : List α) (b : β) (hb : I before b) :
      Ensures (l.foldlM f b) (I (before ++ l)) := by
    induction l generalizing before b with
    | nil => exact .pure (by simpa using hb)
    | cons a l ih =>
      rw [List.foldlM_cons, List.append_cons]
      exact (hf before a b hb).bind fun b' hb' => ih (before ++ [a]) b' hb'
  exact hrun [] b hb

/-- A fold that fails has come as far as the item at which it fails. -/
theorem foldlM_eq_error {b : β} {e : ε} (h : l.foldlM f b = .error e) :
    ∃ before a after b', l = before ++ a :: after ∧ before.foldlM f b = .ok b' ∧
      f b' a = .error e := by
  induction l generalizing b with
  | nil => cases h
  | cons a l ih =>
    rw [List.foldlM_cons] at h
    cases ha : f b a with
    | error e' =>
      rw [ha] at h
      exact ⟨[], a, l, b, rfl, rfl, ha.trans h⟩
    | ok b₁ =>
      rw [ha, ok_bind] at h
      obtain ⟨before, a', after, b', rfl, hbefore, ha'⟩ := ih h
      exact ⟨a :: before, a', after, b', rfl, by rw [List.foldlM_cons, ha, ok_bind, hbefore], ha'⟩

theorem foldlM_ok (hf : ∀ a ∈ l, ∀ b, ∃ b', f b a = .ok b') (b : β) :
    ∃ b', l.foldlM f b = .ok b' := by
  induction l generalizing b with
  | nil => exact ⟨b, rfl⟩
  | cons a l ih =>
    obtain ⟨b₁, h₁⟩ := hf a List.mem_cons_self b
    obtain ⟨b₂, h₂⟩ := ih (fun x hx => hf x (List.mem_cons_of_mem a hx)) b₁
    exact ⟨b₂, by rw [List.foldlM_cons]; exact bind_eq_ok.mpr ⟨b₁, h₁, h₂⟩⟩

end Fold

section MapM

variable {ε α β : Type} {f : α → Except ε β} {l : List α}

theorem mapM_ok (hf : ∀ a ∈ l, ∃ b, f a = .ok b) : ∃ bs, l.mapM f = .ok bs := by
  induction l with
  | nil => exact ⟨[], rfl⟩
  | cons a l ih =>
    obtain ⟨b, hb⟩ := hf a List.mem_cons_self
    obtain ⟨bs, hbs⟩ := ih fun x hx => hf x (List.mem_cons_of_mem a hx)
    exact ⟨b :: bs, by simp [List.mapM_cons, hb, hbs]⟩

/-- Results that stay as they are, one by one, stay as they are together. -/
theorem mapM_eq_ok_mono {g : α → Except ε β} {bs : List β}
    (hfg : ∀ a ∈ l, ∀ b, f a = .ok b → g a = .ok b) (h : l.mapM f = .ok bs) :
    l.mapM g = .ok bs := by
  induction l generalizing bs with
  | nil => exact h
  | cons a l ih =>
    rw [List.forall_mem_cons] at hfg
    rw [List.mapM_cons] at h ⊢
    obtain ⟨b, hb, h⟩ := bind_eq_ok.mp h
    obtain ⟨bs', hbs, h⟩ := bind_eq_ok.mp h
    rw [hfg.1 b hb, ok_bind, ih hfg.2 hbs, ok_bind, h]

theorem Ensures.mapM {P : β → Prop} (hf : ∀ a ∈ l, Ensures (f a) P) :
    Ensures (l.mapM f) fun bs => ∀ b ∈ bs, P b := by
  induction l with
  | nil => exact .pure (by simp)
  | cons a l ih =>
    rw [List.mapM_cons]
    refine (hf a List.mem_cons_self).bind fun b hb => ?_
    refine (ih fun x hx => hf x (List.mem_cons_of_mem a hx)).bind fun bs hbs => .pure ?_
    exact List.forall_mem_cons.mpr ⟨hb, hbs⟩

/-- What items and their results have in common, a list and its results have in common. -/
theorem Ensures.mapM_map {γ : Type} {g : α → γ} {k : β → γ}
    (hf : ∀ a ∈ l, Ensures (f a) fun b => g a = k b) :
    Ensures (l.mapM f) fun bs => l.map g = bs.map k := by
  induction l with
  | nil => exact .pure rfl
  | cons a l ih =>
    rw [List.mapM_cons]
    refine (hf a List.mem_cons_self).bind fun b hb => ?_
    refine (ih fun x hx => hf x (List.mem_cons_of_mem a hx)).bind fun bs hbs => .pure ?_
    rw [List.map_cons, List.map_cons, hb, hbs]

/-- The result for each item of a list stands where the item does. -/
theorem Ensures.mapM_getElem : Ensures (l.mapM f) fun bs => l.length = bs.length ∧
    ∀ (k : Nat) (a : α) (b : β), l[k]? = some a → bs[k]? = some b → f a = .ok b := by
  induction l with
  | nil => exact .pure (by simp)
  | cons a l ih =>
    rw [List.mapM_cons]
    refine (Ensures.self _).bind fun b hb => ih.bind fun bs ⟨hlength, hbs⟩ => .pure ⟨?_, ?_⟩
    · rw [List.length_cons, List.length_cons, hlength]
    · rintro (_ | k) x y hx hy
      · obtain rfl := Option.some.inj hx
        obtain rfl := Option.some.inj hy
        exact hb
      · exact hbs k x y hx hy

/-- Results that are made of other results, one by one. -/
theorem mapM_eq_map {γ : Type} {g : α → Except ε γ} {h : γ → β}
    (hf : ∀ a ∈ l, f a = (g a).map h) : l.mapM f = (l.mapM g).map (List.map h) := by
  induction l with
  | nil => rfl
  | cons a l ih =>
    rw [List.mapM_cons, List.mapM_cons, hf a List.mem_cons_self,
      ih fun b hb => hf b (List.mem_cons_of_mem a hb)]
    cases g a with
    | error e => rfl
    | ok b => cases l.mapM g <;> rfl

theorem filterM_ok {f : α → Except ε Bool} {p : α → Bool}
    (hf : ∀ a ∈ l, f a = .ok (p a)) : l.filterM f = .ok (l.filter p) := by
  have haux (kept : List α) : l.filterAuxM f kept = .ok ((l.filter p).reverse ++ kept) := by
    induction l generalizing kept with
    | nil => rfl
    | cons a l ih =>
      rw [List.forall_mem_cons] at hf
      rw [List.filterAuxM, hf.1, ok_bind, ih hf.2]
      cases h : p a <;> simp [h]
  rw [List.filterM, haux, ok_bind, List.append_nil, List.reverse_reverse, pure_eq_ok]

end MapM

section State

variable {σ ε α β γ : Type} {I : σ → Prop} {x : StateT σ (Except ε) α}
  {f : α → StateT σ (Except ε) β} {P : α → Prop} {Q : β → Prop}

/-- From states as `I` says, `x` leads to such states only, and to results as `P` says. -/
def Maintains (I : σ → Prop) (x : StateT σ (Except ε) α) (P : α → Prop) : Prop :=
  ∀ s, I s → Ensures (x.run s) fun out => I out.2 ∧ P out.1

theorem Maintains.pure {a : α} (h : P a) : Maintains I (pure a : StateT σ (Except ε) α) P :=
  fun _ hs => .pure ⟨hs, h⟩

theorem Maintains.bind (hx : Maintains I x P) (hf : ∀ a, P a → Maintains I (f a) Q) :
    Maintains I (x >>= f) Q := by
  intro s hs
  rw [StateT.run_bind]
  exact (hx s hs).bind fun out ⟨hs', hP⟩ => hf out.1 hP out.2 hs'

theorem Maintains.mono {P' : α → Prop} (hx : Maintains I x P) (h : ∀ a, P a → P' a) :
    Maintains I x P' :=
  fun s hs => (hx s hs).mono fun _ ⟨hs', hP⟩ => ⟨hs', h _ hP⟩

theorem Maintains.lift {e : Except ε α} (h : Ensures e P) :
    Maintains I (liftM e : StateT σ (Except ε) α) P := by
  intro s hs
  cases e with
  | error d => exact .error d
  | ok a => exact .ok ⟨hs, h a rfl⟩

/-- What does not depend on the result holds whatever is made of the result. -/
theorem Maintains.andPure {p : Prop} (hx : Maintains I x fun _ => p) (g : α → β) :
    Maintains I (do return g (← x)) fun _ => p :=
  hx.bind fun _ hp => .pure hp

theorem Maintains.discard (hx : Maintains I x P) :
    Maintains I (discard x : StateT σ (Except ε) Unit) fun _ => True := by
  rw [Functor.discard, LawfulFunctor.map_const, Function.comp, map_eq_pure_bind]
  exact hx.bind fun _ _ => .pure trivial

theorem run_discard {s s' : σ} {a : α} (h : x.run s = .ok (a, s')) :
    (discard x : StateT σ (Except ε) Unit).run s = .ok ((), s') := by
  rw [Functor.discard, LawfulFunctor.map_const, Function.comp, map_eq_pure_bind, StateT.run_bind, h]
  rfl

/-- Steps for a list show of each item what the step for this item shows. -/
theorem Maintains.mapM {l : List γ} {f : γ → StateT σ (Except ε) α} {p : γ → Prop}
    (hf : ∀ a ∈ l, Maintains I (f a) fun _ => p a) :
    Maintains I (l.mapM f) fun _ => ∀ a ∈ l, p a := by
  induction l with
  | nil => exact .pure (by simp)
  | cons a l ih =>
    rw [List.mapM_cons]
    refine (hf a List.mem_cons_self).bind fun _ ha => ?_
    refine (ih fun x hx => hf x (List.mem_cons_of_mem a hx)).bind fun _ hl => .pure ?_
    exact List.forall_mem_cons.mpr ⟨ha, hl⟩

end State

end TypeDocs
