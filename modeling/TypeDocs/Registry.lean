import TypeDocs.Shape
import TypeDocs.Name.Qualified
import TypeDocs.Name.Table

/-!
Types described so far and the inheritance links found between them. Types are described once and
keep their descriptors, which are handed out by their positions; links join such handles.
-/

namespace TypeDocs

structure Descriptor where
  type : TypeId
  shape : Shape
  qualifiedName : Option String := none
  localName : Option String := none
  scriptName : Option String := none
  table : Option (List String) := none
deriving DecidableEq, Repr

def Descriptor.resolved (d : Descriptor) : TypeId :=
  d.shape.resolve d.type

/-- Handle of a descriptor in a registry. -/
structure DescriptorId where
  index : Nat
deriving DecidableEq, Repr

/-- A descriptor and that of the base, if there is one. -/
structure BasePair where
  derived : DescriptorId
  base : Option DescriptorId
deriving DecidableEq, Repr

structure Registry where
  descriptors : Array Descriptor := #[]
  byType : Index TypeId DescriptorId := {}
  basePairs : Array BasePair := #[]
  /-- Those that have a pair, the latest first. -/
  based : List DescriptorId := []
deriving DecidableEq, Repr

/-- Work that describes and links types as it goes, until it meets a defect. -/
abbrev Recording := StateT Registry (Except Defect)

namespace Registry

def position? (r : Registry) (id : TypeId) : Option DescriptorId :=
  r.byType.get? id

def get? (r : Registry) (h : DescriptorId) : Option Descriptor :=
  r.descriptors[h.index]?

def isBased (r : Registry) (h : DescriptorId) : Bool :=
  r.based.contains h

/-- The base recorded for a descriptor, if a pair is recorded at all. -/
def baseOf? (r : Registry) (h : DescriptorId) : Option (Option DescriptorId) :=
  (r.basePairs.find? (·.derived = h)).map BasePair.base

/-- The handle of the descriptor that comes in next. -/
def nextId (r : Registry) : DescriptorId :=
  ⟨r.descriptors.size⟩

def insert (r : Registry) (d : Descriptor) : Registry :=
  { r with descriptors := r.descriptors.push d, byType := r.byType.insert d.type r.nextId }

def update (r : Registry) (h : DescriptorId) (f : Descriptor → Descriptor) : Registry :=
  { r with descriptors := r.descriptors.modify h.index f }

/-- Records a pair unless there is one; tells whether it did. -/
def link (r : Registry) (derived : DescriptorId) (base : Option DescriptorId) : Bool × Registry :=
  if r.isBased derived then (false, r)
  else (true, { r with
    based := derived :: r.based, basePairs := r.basePairs.push ⟨derived, base⟩ })

/--
The handle of a type. A type that has none is described, and then, in order, those that its shape
mentions. `room` are the types of the catalog that are not being described already further up.
-/
def describe (c : Catalog) (room : List TypeId) (r : Registry) (id : TypeId) :
    Except Defect (DescriptorId × Registry) :=
  match r.position? id with
  | some h => .ok (h, r)
  | none =>
    if _h : id ∈ room then do
      let shape ← c.shape id
      let r' ← shape.mentioned.foldlM
        (fun r mentioned => do return (← describe c (room.erase id) r mentioned).2)
        (r.insert { type := id, shape })
      return (r.nextId, r')
    else .error (.dangling id)
termination_by room.length
decreasing_by exact Catalog.length_erase_lt _h

/-- Handles of types, one for each. -/
abbrev HandlesOf (ids : List TypeId) :=
  { hs : List DescriptorId // hs.length = ids.length }

def describeAll (c : Catalog) (r : Registry) :
    (ids : List TypeId) → Except Defect (HandlesOf ids × Registry)
  | [] => .ok (⟨[], rfl⟩, r)
  | id :: ids => do
    let (h, r) ← describe c c.ids r id
    let (⟨hs, hlength⟩, r) ← describeAll c r ids
    return (⟨h :: hs, by rw [List.length_cons, hlength, List.length_cons]⟩, r)

/--
Links descriptors in order: each before its base, the base and all above it before the parts of the
shape, and these before the next. `room` are the types of the catalog that have not been linked on
the way.
-/
def linkAll (c : Catalog) (room : List TypeId) (r : Registry) (pending : List DescriptorId) :
    Except Defect Registry :=
  match pending with
  | [] => .ok r
  | h :: rest =>
    if r.isBased h then linkAll c room r rest
    else match r.get? h with
      | none => .error (.unissued h.index)
      | some d =>
        if _h : d.type ∈ room then do
          let info ← c.lookup d.resolved
          let (⟨base, _hbase⟩, r) ← r.describeAll c info.base.toList
          let (⟨parts, _hparts⟩, r) ← (r.link h base.head?).2.describeAll c d.shape.parts
          linkAll c (room.erase d.type) r (base ++ parts ++ rest)
        else .error (.dangling d.type)
termination_by 4 * room.length + pending.length
decreasing_by
  · simp
  · have h₁ := Catalog.length_erase_lt _h
    have h₂ := d.shape.length_parts_le
    have h₃ : info.base.toList.length ≤ 1 := by cases info.base <;> simp
    simp only [List.length_append, List.length_cons]
    omega

end Registry

namespace Recording

/-- The handle of a type, which is described first if need be. -/
def handle (c : Catalog) (id : TypeId) : Recording DescriptorId :=
  fun r => r.describe c c.ids id

def descriptor (h : DescriptorId) : Recording Descriptor := do
  match (← get).get? h with
  | some d => return d
  | none => throw (.unissued h.index)

/-- What is known of a descriptor is not worked out again, and what is worked out is noted. -/
def remember {α : Type} (h : DescriptorId) (known : Descriptor → Option α)
    (note : α → Descriptor → Descriptor) (work : Descriptor → Recording α) : Recording α := do
  let d ← descriptor h
  match known d with
  | some a => return a
  | none =>
    let a ← work d
    modify (·.update h (note a))
    return a

def qualifiedNameOf (c : Catalog) (h : DescriptorId) : Recording String :=
  remember h Descriptor.qualifiedName (fun name d => { d with qualifiedName := some name })
    fun d => c.qualifiedName d.resolved

def localNameOf (c : Catalog) (h : DescriptorId) : Recording String :=
  remember h Descriptor.localName (fun name d => { d with localName := some name })
    fun d => c.localName d.resolved

/-- Where a type lives by default. The first root namespace asked about decides for good. -/
def tableOf (c : Catalog) (root : String) (h : DescriptorId) : Recording (List String) :=
  remember h Descriptor.table (fun path d => { d with table := some path }) fun d => do
    let info ← c.lookup d.resolved
    return tablePath info.namespaceName (← localNameOf c h) root

/-- Names as annotations write them; `room` are the types that the name may still go through. -/
def scriptNameWithin (c : Catalog) (room : List TypeId) (h : DescriptorId) : Recording String :=
  remember h Descriptor.scriptName (fun name d => { d with scriptName := some name }) fun d =>
    if _h : d.type ∈ room then
      match d.shape with
      | .plain | .delegate _ => qualifiedNameOf c h
      | .nullable payload => do
        let p ← handle c payload
        scriptNameWithin c (room.erase d.type) p
      | .array element | .sequence element => do
        let e ← handle c element
        return (← scriptNameWithin c (room.erase d.type) e) ++ "[]"
      | .mapping key value => do
        let k ← handle c key
        let v ← handle c value
        let keyName ← scriptNameWithin c (room.erase d.type) k
        let valueName ← scriptNameWithin c (room.erase d.type) v
        return "table<" ++ keyName ++ ", " ++ valueName ++ ">"
    else throw (.endless d.type)
termination_by room.length
decreasing_by
  all_goals exact Catalog.length_erase_lt _h

def scriptNameOf (c : Catalog) (h : DescriptorId) : Recording String :=
  scriptNameWithin c c.ids h

/-- Links a descriptor and everything above it and in it. -/
def collectFrom (c : Catalog) (h : DescriptorId) : Recording Unit := do
  set (← (← get).linkAll c c.ids [h])

def obtain (c : Catalog) (id : TypeId) : Recording Descriptor := do
  descriptor (← handle c id)

def collect (c : Catalog) (id : TypeId) : Recording Unit := do
  collectFrom c (← handle c id)

def qualifiedName (c : Catalog) (id : TypeId) : Recording String := do
  qualifiedNameOf c (← handle c id)

def localName (c : Catalog) (id : TypeId) : Recording String := do
  localNameOf c (← handle c id)

def table (c : Catalog) (root : String) (id : TypeId) : Recording (List String) := do
  tableOf c root (← handle c id)

def scriptName (c : Catalog) (id : TypeId) : Recording String := do
  scriptNameOf c (← handle c id)

end Recording

end TypeDocs
