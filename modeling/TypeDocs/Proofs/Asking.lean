import TypeDocs.Proofs.Recording
import TypeDocs.Proofs.Rendering

namespace TypeDocs

/--
`x` asks for the names of the types `asked`, each as the type of a member, and makes `value` of what
it is told.
-/
inductive Recording.Asks (c : Catalog) :
    {α : Type} → Recording α → Set TypeId → ((TypeId → String) → α) → Prop where
  | pure {α : Type} (a : α) : Asks c (pure a) ∅ fun _ => a
  | memberType (id : TypeId) : Asks c (Document.memberType c id) {id} fun type => type id
  | bind {α β : Type} {x : Recording α} {f : α → Recording β} {asked more : Set TypeId}
      {value : (TypeId → String) → α} {next : α → (TypeId → String) → β}
      (hx : Asks c x asked value) (hf : ∀ a, Asks c (f a) more (next a)) :
      Asks c (x >>= f) (asked ∪ more) fun type => next (value type) type

variable {c : Catalog} {settings : Settings} {id : TypeId} {α β : Type}

namespace Recording.Asks

variable {x : Recording α} {f : α → Recording β} {asked more : Set TypeId}
  {value : (TypeId → String) → α}

theorem congr {value' : (TypeId → String) → α} (hx : x.Asks c asked value) (ha : asked = more)
    (hv : ∀ type, value type = value' type) : x.Asks c more value' := by
  obtain rfl : value = value' := funext hv
  exact ha ▸ hx

theorem andPure (hx : x.Asks c asked value) (g : α → β) :
    Asks c (do return g (← x)) asked fun type => g (value type) :=
  (hx.bind fun a => .pure (g a)).congr (Set.union_empty asked) fun _ => rfl

/-- Lists are gone through in order, and all that their items ask for is asked. -/
theorem mapM {l : List α} {asked : α → Set TypeId} {value : α → (TypeId → String) → β}
    (hf : ∀ a ∈ l, (f a).Asks c (asked a) (value a)) :
    (l.mapM f).Asks c {t | ∃ a ∈ l, t ∈ asked a} fun type => l.map (value · type) := by
  induction l with
  | nil => exact (Asks.pure []).congr (by simp) fun _ => rfl
  | cons a l ih =>
    rw [List.forall_mem_cons] at hf
    rw [List.mapM_cons]
    refine (hf.1.bind fun b => (ih hf.2).andPure (b :: ·)).congr ?_ fun _ => rfl
    ext t
    simp

theorem mapM_groupBy {κ : Type} [DecidableEq κ] {key : α → κ} {l : List α}
    {asked : α → Set TypeId} {f : κ × List α → Recording β}
    {value : κ × List α → (TypeId → String) → β}
    (hf : ∀ g ∈ groupBy key l, (f g).Asks c {t | ∃ a ∈ g.2, t ∈ asked a} (value g)) :
    ((groupBy key l).mapM f).Asks c {t | ∃ a ∈ l, t ∈ asked a}
      fun type => (groupBy key l).map (value · type) := by
  refine (mapM hf).congr ?_ fun _ => rfl
  ext t
  constructor
  · rintro ⟨g, hg, a, ha, ht⟩
    exact ⟨a, (mem_groupBy _).mp ⟨g, hg, ha⟩, ht⟩
  · rintro ⟨a, ha, ht⟩
    obtain ⟨g, hg, hag⟩ := (mem_groupBy key).mpr ha
    exact ⟨g, hg, a, hag, ht⟩

end Recording.Asks

namespace Document

open Recording

theorem fields_asks (fs : List Field) : (fields c settings fs).Asks c
    {t | ∃ f ∈ fs.filter fun f => !settings.isBackingField f.name, t ∈ ({f.type} : Set TypeId)}
    fun type => (fs.filter fun f => !settings.isBackingField f.name).flatMap (fieldNotes type) := by
  have hfield (f : Field) : (fieldLines c f).Asks c {f.type} fun type => fieldNotes type f :=
    (Asks.memberType f.type).andPure _
  exact (Asks.mapM fun f _ => hfield f).andPure List.flatten

theorem properties_asks (ps : List Property) : (properties c ps).Asks c
    {t | ∃ p ∈ ps, t ∈ ({p.type} : Set TypeId)} fun type => ps.flatMap (propertyNotes type) := by
  have hproperty (p : Property) :
      (propertyLines c p).Asks c {p.type} fun type => propertyNotes type p :=
    (Asks.memberType p.type).andPure _
  exact (Asks.mapM fun p _ => hproperty p).andPure List.flatten

end Document

namespace OverloadSet

open Recording

variable {s : OverloadSet}

theorem resultType_asks (x : Callable) : (s.resultType c x).Asks c {t | t ∈ x.results}
    fun type => s.resultName type x := by
  cases x with
  | constructor k => exact (Asks.pure _).congr (by simp [Callable.results]) fun _ => rfl
  | method m =>
    cases hr : m.result with
    | none =>
      simp only [resultType, hr]
      exact (Asks.pure _).congr (by simp [Callable.results, hr]) fun _ => by simp [resultName, hr]
    | some id =>
      simp only [resultType, hr, map_eq_pure_bind]
      refine ((Asks.memberType id).andPure some).congr ?_ fun _ => by simp [resultName, hr]
      ext t
      simp [Callable.results, hr, eq_comm]

/-- Parameters are asked for and then the result, whatever is made of them in the end. -/
theorem parts_ask {γ δ : Type} (x : Callable) {write : Parameter → Recording γ}
    {text : (TypeId → String) → Parameter → γ}
    (hwrite : ∀ p, (write p).Asks c {p.type} fun type => text type p)
    (finish : List γ → Option String → δ) :
    Recording.Asks c (do
      let parameters ← x.parameters.mapM write
      return finish parameters (← s.resultType c x)) {t | t ∈ x.types}
      fun type => finish (x.parameters.map (text type)) (s.resultName type x) := by
  refine ((Asks.mapM fun p _ => hwrite p).bind
    fun parameters => (resultType_asks x).andPure (finish parameters)).congr ?_ fun _ => rfl
  ext t
  simp [Callable.types, eq_comm]

theorem overloadLine_asks (x : Callable) : (s.overloadLine c settings x).Asks c {t | t ∈ x.types}
    fun type => s.overloadNote settings type x := by
  have hparameter (p : Parameter) : (overloadParameter c settings p).Asks c {p.type}
      fun type => parameterText settings type p :=
    (Asks.memberType p.type).andPure _
  exact parts_ask x hparameter _

theorem bindingLines_asks (x : Callable) : (s.bindingLines c settings x).Asks c {t | t ∈ x.types}
    fun type => s.bindingSection settings type x := by
  have hparameter (p : Parameter) : (parameterLine c settings p).Asks c {p.type}
      fun type => parameterNote settings type p :=
    (Asks.memberType p.type).andPure _
  exact parts_ask x hparameter _

/-- The lines of an overload set ask for the types of all its members. -/
theorem lines_asks (xs : List Callable) : (s.lines c settings xs).Asks c
    {t | ∃ x ∈ xs, t ∈ x.types} fun type => s.written settings type xs := by
  unfold lines
  cases hlast : xs.getLast? with
  | none =>
    obtain rfl := List.getLast?_eq_none_iff.mp hlast
    exact (Asks.pure []).congr (by simp) fun _ => rfl
  | some last =>
    obtain ⟨init, rfl⟩ := List.getLast?_eq_some_iff.mp hlast
    simp only [List.dropLast_concat]
    refine ((Asks.mapM fun x _ => overloadLine_asks x).bind fun overloads =>
      (bindingLines_asks last).andPure (overloads ++ ·)).congr ?_ fun type => by simp
    ext t
    simp [or_and_right, exists_or]

end OverloadSet

namespace Document

open Recording

variable {s : OverloadSet}

theorem methods_asks (ms : List Method) : (methods c settings s ms).Asks c
    {t | ∃ m ∈ ms.filter Method.isBound, t ∈ m.types} fun type =>
      (blockKeys (ms.filter Method.isBound)).flatMap
        (block settings s type (ms.filter Method.isBound)) := by
  have hgroup (o : OverloadSet) (g : Modifiers × List Method) :
      (methodGroup c settings o g).Asks c {t | ∃ m ∈ g.2, t ∈ m.types} fun type =>
        tagged "Method" g.1 (o.written settings type (g.2.map .method)) := by
    refine ((OverloadSet.lines_asks _).andPure (tagged "Method" g.1)).congr ?_ fun _ => rfl
    simp
  have hnamed (named : String × List Method) :
      ((groupBy Method.modifiers named.2).mapM (methodGroup c settings (s.member named.1))).Asks c
        {t | ∃ m ∈ named.2, t ∈ m.types} fun type => (groupBy Method.modifiers named.2).map
          fun g => tagged "Method" g.1
            ((s.member named.1).written settings type (g.2.map .method)) :=
    Asks.mapM_groupBy fun g _ => hgroup _ g
  refine ((Asks.mapM_groupBy fun named _ => hnamed named).andPure
    fun blocks => blocks.flatten.flatten).congr rfl fun type => ?_
  exact groups_flatten fun name g =>
    tagged "Method" g.1 ((s.member name).written settings type (g.2.map .method))

/-- Both ways to write the constructors of a key, as they are recorded. -/
def spellTwice (c : Catalog) (settings : Settings) (s : OverloadSet) (ks : List Constructor)
    (key : Modifiers) : Recording (List Line) :=
  constructorGroup c settings s (key, ks.filter (·.modifiers = key))

theorem constructors_eq (c : Catalog) (settings : Settings) (s : OverloadSet)
    (ks : List Constructor) : constructors c settings s ks = (do
      return (← (ks.map Constructor.modifiers).eraseDups.mapM
        (spellTwice c settings s ks)).flatten) := by
  rw [constructors, groupBy_eq, List.mapM_map]
  rfl

/-- The second way asks for the types of the first one again. -/
theorem spellTwice_asks (ks : List Constructor) (key : Modifiers) :
    (spellTwice c settings s ks key).Asks c {t | ∃ x ∈ sameConstructors ks key, t ∈ x.types}
      fun type => spelledTwice settings s type ks key := by
  have hlines (o : OverloadSet) : (o.lines c settings (sameConstructors ks key)).Asks c
      {t | ∃ x ∈ sameConstructors ks key, t ∈ x.types}
      fun type => o.written settings type (sameConstructors ks key) :=
    OverloadSet.lines_asks _
  exact ((hlines s).bind fun direct => (hlines (s.member constructionMember)).andPure _).congr
    (Set.union_self _) fun _ => rfl

theorem constructors_asks (ks : List Constructor) : (constructors c settings s ks).Asks c
    {t | ∃ k ∈ ks, t ∈ k.types} fun type =>
      (ks.map Constructor.modifiers).eraseDups.flatMap (spelledTwice settings s type ks) := by
  rw [constructors_eq]
  refine ((Asks.mapM fun key _ => spellTwice_asks ks key).andPure List.flatten).congr ?_
    fun _ => rfl
  ext t
  simp only [List.mem_eraseDups, List.mem_map, sameConstructors, List.mem_filter,
    decide_eq_true_eq, exists_exists_and_eq_and, Callable.types_constructor, Set.mem_ofPred_eq]
  constructor
  · rintro ⟨_, -, k, ⟨hk, -⟩, ht⟩
    exact ⟨k, hk, ht⟩
  · rintro ⟨k, hk, ht⟩
    exact ⟨k, hk, k, ⟨hk, rfl⟩, ht⟩

end Document

/-- A name for each type that has one in annotations, and the very name that it has there. -/
def Catalog.NamesTypes (c : Catalog) (type : TypeId → String) : Prop :=
  ∀ t n, c.ScriptName t n → type t = n

theorem Catalog.exists_namesTypes (c : Catalog) : ∃ type, c.NamesTypes type := by
  have hname : ∀ t, ∃ name, ∀ n, c.ScriptName t n → name = n := fun t => by
    by_cases ht : ∃ n, c.ScriptName t n
    · exact ⟨ht.choose, fun n hn => ht.choose_spec.unique hn⟩
    · exact ⟨"", fun n hn => absurd ⟨n, hn⟩ ht⟩
  choose type htype using hname
  exact ⟨type, htype⟩

namespace Recording

variable {root : String} {tables : TypeId → List String → Prop} {type : TypeId → String}
  {x : Recording α} {asked : Set TypeId} {value : (TypeId → String) → α}

theorem memberType_tells :
    (Document.memberType c id).Tells c tables fun n => c.ScriptName id n :=
  collect_tells.bind fun _ _ => scriptName_tells

theorem memberType_meets (hc : c.IsRegular) (hid : id ∈ c.ids) :
    (Document.memberType c id).Meets c root {id} (c.ScriptName id) :=
  (collect_meets hc.closed hid).andThen fun _ _ => scriptName_meets hc hid

/-- What comes to its end has been told the names of the catalog. -/
theorem Asks.tells (htype : c.NamesTypes type) (hx : x.Asks c asked value) :
    x.Tells c tables fun a => (∀ t ∈ asked, c.ScriptName t (type t)) ∧ a = value type := by
  induction hx with
  | pure a => exact .pure ⟨by simp, rfl⟩
  | memberType id =>
    refine memberType_tells.mono fun n hn => ?_
    obtain rfl := htype id n hn
    exact ⟨by simpa using hn, rfl⟩
  | bind hx hf ihx ihf =>
    refine ihx.bind ?_
    rintro _ ⟨hasked, rfl⟩
    refine (ihf _).mono fun b hb => ⟨?_, hb.2⟩
    rintro t (ht | ht)
    · exact hasked t ht
    · exact hb.1 t ht

/-- In sound registries all questions are answered, and what is asked for is linked. -/
theorem Asks.meets (hc : c.IsRegular) (htype : c.NamesTypes type) (hx : x.Asks c asked value)
    (hasked : ∀ t ∈ asked, t ∈ c.ids) : x.Meets c root asked (· = value type) := by
  induction hx with
  | pure a => exact .pure rfl
  | memberType id =>
    exact (memberType_meets hc (hasked id rfl)).mono fun n hn => (htype id n hn).symm
  | bind hx hf ihx ihf =>
    exact (ihx fun t ht => hasked t (.inl ht)).bindEq (ihf _ fun t ht => hasked t (.inr ht))

end Recording

end TypeDocs
