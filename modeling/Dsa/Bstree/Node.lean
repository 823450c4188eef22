import Dsa.Exec

/-! # Nodes and the memory of the node allocator

`struct node` and the cells the node allocator hands out. A pointer is an address and
`nullptr` is `none`. Addresses come from a counter, so an address that was released is
never handed out again and a stale pointer is caught when it is dereferenced.
-/
namespace Dsa

abbrev Ptr := Nat

/-- The two child links of a node. -/
inductive Dir
  | left
  | right
  deriving DecidableEq, Repr

structure Node (α : Type) where
  value : α
  left : Option Ptr
  right : Option Ptr
  parent : Option Ptr
  deriving DecidableEq, Repr

namespace Node
variable {α : Type}

def child (nd : Node α) : Dir → Option Ptr
  | .left => nd.left
  | .right => nd.right

def setChild (nd : Node α) : Dir → Option Ptr → Node α
  | .left, c => { nd with left := c }
  | .right, c => { nd with right := c }

@[simp] theorem child_left (nd : Node α) : nd.child .left = nd.left := rfl
@[simp] theorem child_right (nd : Node α) : nd.child .right = nd.right := rfl
@[simp] theorem setChild_left (nd : Node α) (c : Option Ptr) :
    nd.setChild .left c = { nd with left := c } := rfl
@[simp] theorem setChild_right (nd : Node α) (c : Option Ptr) :
    nd.setChild .right c = { nd with right := c } := rfl

@[simp] theorem child_setChild (nd : Node α) (d : Dir) (c : Option Ptr) :
    (nd.setChild d c).child d = c := by
  cases d <;> rfl
@[simp] theorem parent_setChild (nd : Node α) (d : Dir) (c : Option Ptr) :
    (nd.setChild d c).parent = nd.parent := by
  cases d <;> rfl
@[simp] theorem value_setChild (nd : Node α) (d : Dir) (c : Option Ptr) :
    (nd.setChild d c).value = nd.value := by
  cases d <;> rfl
@[simp] theorem setChild_child (nd : Node α) (d : Dir) : nd.setChild d (nd.child d) = nd := by
  cases d <;> rfl

end Node

/-- The allocated cells, by address. -/
abbrev Heap (α : Type) := Ptr → Option (Node α)

/-- `*p` for a pointer that may be null or released. -/
def deref {α : Type} (h : Heap α) : Option Ptr → Except Fault (Node α)
  | none => .error .undefined
  | some p =>
    match h p with
    | some nd => .ok nd
    | none => .error .undefined

@[simp] theorem deref_none {α : Type} (h : Heap α) : deref h none = .error .undefined := rfl

theorem deref_some {α : Type} {h : Heap α} {p : Ptr} {nd : Node α} (hp : h p = some nd) :
    deref h (some p) = .ok nd := by
  simp [deref, hp]

theorem deref_eq_ok {α : Type} {h : Heap α} {p : Option Ptr} {nd : Node α} :
    deref h p = .ok nd ↔ ∃ q, p = some q ∧ h q = some nd := by
  cases p with
  | none => simp [deref]
  | some q => cases hq : h q <;> simp [deref, hq]

/-- One cell overwritten (or released, with `none`). -/
def Heap.write {α : Type} (h : Heap α) (p : Ptr) (cell : Option (Node α)) : Heap α :=
  fun q => if q = p then cell else h q

@[simp] theorem Heap.write_self {α : Type} (h : Heap α) (p : Ptr) (cell : Option (Node α)) :
    h.write p cell p = cell := by simp [Heap.write]

@[simp] theorem Heap.write_ne {α : Type} (h : Heap α) {p q : Ptr} (cell : Option (Node α))
    (hq : q ≠ p) : h.write p cell q = h q := by simp [Heap.write, hq]

structure Store (α : Type) where
  heap : Heap α
  next : Ptr

namespace Store
variable {α : Type}

/-- The memory before any node is allocated. -/
def empty : Store α := ⟨fun _ => none, 0⟩

/-- `alloc.allocate (1)` followed by the node's construction in place. -/
def alloc (s : Store α) (nd : Node α) : Ptr × Store α :=
  (s.next, ⟨s.heap.write s.next (some nd), s.next + 1⟩)

/-- Every address from `next` on is still unallocated. -/
def Fresh (s : Store α) : Prop := ∀ p, s.next ≤ p → s.heap p = none

end Store

end Dsa
