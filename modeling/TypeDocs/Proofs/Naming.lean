import TypeDocs.Name.Qualified
import TypeDocs.Name.Table
import TypeDocs.Proofs.Regular

namespace TypeDocs.Catalog

open Relation

variable {c : Catalog} {id : TypeId}

theorem enclosingChain_yields (room : List TypeId) (hr : ∀ t ∈ room, t ∈ c.ids)
    (start : Option TypeId) (h : ∀ t, start = some t → Settles c.NamePart room t) :
    Yields (c.enclosingChain room start) fun chain =>
      ∀ e ∈ chain, ∃ t, start = some t ∧ ReflTransGen c.NamePart t e := by
  fun_induction enclosingChain c room start with
  | case1 => exact .pure (by simp)
  | case2 room id ih =>
    have hs := h id rfl
    refine (lookup_yields (hr id hs.mem)).bind fun info hi => ?_
    rw [if_pos hs.mem]
    have hnext : ∀ t, info.enclosing = some t → c.NamePart id t :=
      fun t ht => ⟨info, hi, Or.inr (Or.inr ht)⟩
    refine (ih info hs.mem (fun t ht => hr t (List.mem_of_mem_erase ht))
      fun t ht => hs.erase (.single (hnext t ht))).bind fun outer ho => .pure ?_
    intro e he
    refine ⟨id, rfl, ?_⟩
    rcases List.mem_append.mp he with he | he
    · obtain ⟨t, ht, hte⟩ := ho e he
      exact .head (hnext t ht) hte
    · rw [List.mem_singleton.mp he]

/-- The name of a type that settles in the room can be written, in whatever style. -/
theorem nameWithin_yields (room : List TypeId) (hr : ∀ t ∈ room, t ∈ c.ids) (style : NameStyle)
    (hs : Settles c.NamePart room id) :
    Yields (c.nameWithin room style id) fun _ => True := by
  fun_induction nameWithin c room style id with
  | case1 room style id ihe iha =>
    refine (lookup_yields (hr id hs.mem)).bind fun info hi => ?_
    have hsub : ∀ t ∈ room.erase id, t ∈ c.ids := fun t ht => hr t (List.mem_of_mem_erase ht)
    have hnext : ∀ t, info.enclosing = some t → c.NamePart id t :=
      fun t ht => ⟨info, hi, Or.inr (Or.inr ht)⟩
    have hrest (text : List String → List String → String) (chain : List TypeId)
        (hc : ∀ e ∈ chain, TransGen c.NamePart id e) :
        Yields (do
          let outer ← chain.mapM fun e => c.nameWithin (room.erase id) .enclosing e
          let arguments ← info.arguments.mapM fun a =>
            c.nameWithin (room.erase id) style.argument a
          return text outer arguments) fun _ => True := by
      obtain ⟨outer, ho⟩ := mapM_ok fun e he =>
        (ihe hs.mem e hsub (hs.erase (hc e he))).imp fun _ hn => hn.1
      obtain ⟨arguments, ha⟩ := mapM_ok fun a ha =>
        (iha hs.mem a hsub (hs.erase (.single ⟨info, hi, Or.inl ha⟩))).imp fun _ hn => hn.1
      exact ⟨text outer arguments, by simp only [ho, ha, ok_bind, pure_eq_ok], trivial⟩
    rw [dif_pos hs.mem]
    dsimp only
    split
    · refine (enclosingChain_yields _ hsub _
        fun t ht => hs.erase (.single (hnext t ht))).bind fun chain hc => hrest _ chain ?_
      intro e he
      obtain ⟨t, ht, hte⟩ := hc e he
      exact .head' (hnext t ht) hte
    · rw [pure_eq_ok, ok_bind]
      exact hrest _ [] (by simp)

theorem IsRegular.nameIn_yields (h : c.IsRegular) (style : NameStyle) (hid : id ∈ c.ids) :
    Yields (c.nameIn style id) fun _ => True :=
  nameWithin_yields c.ids (fun _ ht => ht) style (h.settles hid)

/-- Where the bindings of a type live, given the root namespace. -/
def defaultTable (c : Catalog) (root : String) (id : TypeId) : Except Defect (List String) := do
  let info ← c.lookup id
  return tablePath info.namespaceName (← c.localName id) root

theorem IsRegular.defaultTable_yields (h : c.IsRegular) (root : String) (hid : id ∈ c.ids) :
    Yields (c.defaultTable root id) fun _ => True :=
  (lookup_yields hid).bind fun _ _ => (h.nameIn_yields _ hid).bind fun _ _ => .pure trivial

/--
The name that annotations write for a type, read off its shape: wrappers are passed over and
containers spelled out.
-/
inductive ScriptName (c : Catalog) : TypeId → String → Prop where
  | whole {id : TypeId} {s : Shape} {name : String} (hs : c.shape id = .ok s)
      (hd : s.isDocumentable) (hn : c.qualifiedName id = .ok name) : ScriptName c id name
  | nullable {id payload : TypeId} {name : String} (hs : c.shape id = .ok (.nullable payload))
      (hn : ScriptName c payload name) : ScriptName c id name
  | array {id element : TypeId} {name : String} (hs : c.shape id = .ok (.array element))
      (hn : ScriptName c element name) : ScriptName c id (name ++ "[]")
  | sequence {id element : TypeId} {name : String} (hs : c.shape id = .ok (.sequence element))
      (hn : ScriptName c element name) : ScriptName c id (name ++ "[]")
  | mapping {id key value : TypeId} {k v : String} (hs : c.shape id = .ok (.mapping key value))
      (hk : ScriptName c key k) (hv : ScriptName c value v) :
      ScriptName c id ("table<" ++ k ++ ", " ++ v ++ ">")

theorem ScriptName.mem_ids {c : Catalog} {id : TypeId} {name : String} (h : c.ScriptName id name) :
    id ∈ c.ids := by
  cases h with
  | whole hs => exact mem_ids_of_shape hs
  | nullable hs => exact mem_ids_of_shape hs
  | array hs => exact mem_ids_of_shape hs
  | sequence hs => exact mem_ids_of_shape hs
  | mapping hs => exact mem_ids_of_shape hs

theorem ScriptName.unique {a b : String} (ha : c.ScriptName id a) (hb : c.ScriptName id b) :
    a = b := by
  induction ha generalizing b with
  | whole hs hd hn => cases hb <;> grind [Shape.isDocumentable]
  | nullable hs hn ih => cases hb <;> grind [Shape.isDocumentable]
  | array hs hn ih => cases hb <;> grind [Shape.isDocumentable]
  | sequence hs hn ih => cases hb <;> grind [Shape.isDocumentable]
  | mapping hs hk hv ihk ihv => cases hb <;> grind [Shape.isDocumentable]

end TypeDocs.Catalog
