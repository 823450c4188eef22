import Dsa.Bstree.Insert

/-! # Copy, move and swap

`copy_from` and `move_from` rebuild a tree by one iterative walk over source and
destination together: copy the missing left child and go down, else the missing right child,
else go up both. The constructors and assignment operators assemble the new object from
that walk (or from the source's pointers) and `set_iterators`. The comparator and the
allocators are not state here: the propagation traits and the allocator comparison are
parameters, and all nodes live in one memory. `set_iterators` assigns a node pointer to
`_begin`, which keeps `_begin`'s state, so a copy of a tree with a node iterates nothing
(`copies_begin_afterEnd`).
-/
namespace Dsa
namespace Bstree
variable {α : Type} (fuel : Nat)

/-- One round of the synchronized walk of `copy_from`; the memory travels with it and the
loop ends once the source walk steps above its root. -/
def copyStep : Store α × Ptr × Option Ptr → Except Fault ((Store α × Ptr × Option Ptr) ⊕ Store α)
  | (st, cw, rw) => do
    let c ← deref st.heap (some cw)
    let r ← deref st.heap rw
    match c.left, r.left, c.right, r.right with
    | some cl, none, _, _ => do
      let v := (← deref st.heap (some cl)).value
      let (p, st') := st.alloc ⟨v, none, none, rw⟩
      let q ← match rw with
        | some q => pure q
        | none => .error .undefined
      pure (.inl (⟨st'.heap.write q (some { r with left := some p }), st'.next⟩, cl, some p))
    | _, _, some cr, none => do
      let v := (← deref st.heap (some cr)).value
      let (p, st') := st.alloc ⟨v, none, none, rw⟩
      let q ← match rw with
        | some q => pure q
        | none => .error .undefined
      pure (.inl (⟨st'.heap.write q (some { r with right := some p }), st'.next⟩, cr, some p))
    | _, _, _, _ =>
      match c.parent with
      | none => pure (.inr st)
      | some cp => pure (.inl (st, cp, r.parent))

/-- `copy_from (nh, alloc)`: the copy's root, or null for an empty source. -/
def copyFrom : Option Ptr → Method α (Option Ptr)
  | none => pure none
  | some root => do
    let v := (← readNode (some root)).value
    let p ← nodeCreate none v
    let st ← liftE (loop copyStep fuel ((← get).store, root, some p))
    modify ({ · with store := st })
    pure (some p)

/-- `move_from (nh, alloc)`: the same walk with the child values moved; what a move leaves
in the source is not modelled, since `operator= (bstree &&)` clears the source next. -/
def moveFrom : Option Ptr → Method α (Option Ptr) := copyFrom fuel

/-- Run a member function on another object sharing the memory; its final state is
returned beside the result. -/
def onOther {β : Type} (other : Bstree) (m : Method α β) : Method α (β × Bstree) := do
  let mine ← getTree
  modifyTree fun _ => other
  let r ← m
  let other' ← getTree
  modifyTree fun _ => mine
  pure (r, other')

/-- `bstree (bstree const & other, Allocator const &)`: the members not in the initializer
list start default-constructed, then the copied root, the size and `set_iterators`. -/
def copyConstruct (other : Bstree) : Method α Unit := do
  modifyTree fun _ => Bstree.empty
  let r ← copyFrom fuel other.treeRoot
  resetRoot fuel r
  modifyTree ({ · with treeSize := other.treeSize })
  setIterators fuel

def insertFive : State Nat := State.empty.after (insert stdLess 20 5)

/-- A copy of it constructed in the same memory. -/
def copyOfFive : State Nat := (State.mk insertFive.store .empty).after (copyConstruct 20 insertFive.tree)

/-- `set_iterators` assigns the leftmost node to `_begin` by pointer, keeping the after-end
state of the default-constructed member: the copy's `begin ()` is after-end, equal to
`end ()`, and iterating it visits nothing although `size () = 1`; the source is intact. -/
theorem copyOfFive_visits_nothing :
    RepOk stdLess insertFive (.node .leaf 0 .leaf) ∧ copyOfFive.tree.treeSize = 1 ∧
      copyOfFive.store.heap 1 = some ⟨5, none, none, none⟩ ∧
      copyOfFive.store.heap 0 = insertFive.store.heap 0 ∧
      copyOfFive.tree.beginIt = ⟨some 1, .afterEnd⟩ ∧
      ∀ ks, BstreeIterator.Visits copyOfFive.store.heap copyOfFive.tree.endIt
        copyOfFive.tree.beginIt ks → ks = [] := by
  have hb : copyOfFive.tree.beginIt = ⟨some 1, .afterEnd⟩ := by decide
  refine ⟨⟨⟨⟨5, by decide⟩, trivial, trivial⟩, by decide, by decide, by decide, by decide, by decide⟩,
    by decide, by decide, by decide, hb, fun ks hv => ?_⟩
  rw [hb] at hv
  exact BstreeIterator.Visits.eq_nil_of_not_valid (by decide) hv

/-- `bstree (bstree && other)`: take every field; the source is left empty. -/
def moveConstruct (other : Bstree) : Method α Bstree := do
  modifyTree fun _ => other
  pure { other with treeRoot := none, treeSize := 0, beginIt := .singular, endIt := .singular }

/-- `swap (other)`. -/
def swap (other : Bstree) : Method α Bstree := do
  let mine ← getTree
  modifyTree fun _ => other
  pure mine

/-- `if (propogate_on_copy_assign::value) { if (this->_node_alloc != other._node_alloc)
this->_tree_root.reset (); ... }`: nodes of an allocator about to be replaced go first. -/
def dropForeign (propagate allocEq : Bool) : Method α Unit :=
  if propagate && !allocEq then resetRoot fuel none else pure ()

/-- `operator= (bstree const & other)`; `propagate` is the copy-assignment propagation trait
and `allocEq` the comparison of the two allocators. -/
def copyAssign (propagate allocEq : Bool) (other : Bstree) : Method α Unit := do
  dropForeign fuel propagate allocEq
  let r ← copyFrom fuel other.treeRoot
  resetRoot fuel r
  modifyTree ({ · with treeSize := other.treeSize })
  setIterators fuel

/-- `operator= (bstree && other)`, returning what becomes of `other`. -/
def moveAssign (propagate allocEq : Bool) (other : Bstree) : Method α Bstree := do
  if propagate || allocEq then
    clear fuel
    swap other
  else
    clear fuel
    let r ← moveFrom fuel other.treeRoot
    resetRoot fuel r
    modifyTree ({ · with treeSize := other.treeSize })
    setIterators fuel
    let ((), other') ← onOther other (clear fuel)
    pure other'

section Frame

theorem copyFrom_keepsTree (root : Option Ptr) : KeepsTree (copyFrom (α := α) fuel root) := by
  cases root with
  | none => exact keepsTree_pure _
  | some root => exact (keepsTree_readNode _).bind fun _ => (keepsTree_nodeCreate _ _).bind fun _ =>
      keepsTree_get.bind fun _ => (keepsTree_liftE _).bind fun _ =>
        (keepsTree_modify fun _ => by rfl).bind fun _ => keepsTree_pure _

/-- The state of `_begin` stays what it is. -/
def BeginStays (b b' : Bstree) : Prop := b'.beginIt.state = b.beginIt.state

instance : IsRefl Bstree BeginStays := ⟨fun _ => rfl⟩
instance : IsTrans Bstree BeginStays := ⟨fun _ _ _ hab hbc => hbc.trans hab⟩

theorem setIterators_beginStays {s : State α} (hs : s.tree.treeSize ≠ 0) :
    BeginStays s.tree (setIterators fuel s).2.tree := by
  rw [setIterators, getTree_bind, if_pos (Nat.pos_of_ne_zero hs)]
  exact ((Guarantees.of_keepsTree keepsTree_getHeap).bind fun _ =>
    (Guarantees.of_keepsTree (keepsTree_ptrOf _)).bind fun _ =>
    (Guarantees.of_keepsTree (keepsTree_liftE _)).bind fun _ =>
    (guarantees_modifyTree fun _ => by rfl).bind fun _ =>
    (Guarantees.of_keepsTree (keepsTree_liftE _)).bind fun _ => guarantees_modifyTree fun _ => by rfl) s

theorem setSize_setIterators_beginStays (other : Bstree) (hsize : other.treeSize ≠ 0) :
    Guarantees BeginStays (do
      modifyTree (α := α) ({ · with treeSize := other.treeSize })
      setIterators fuel) :=
  fun s => setIterators_beginStays fuel (s := { s with tree := { s.tree with treeSize := _ } }) hsize

theorem resetRoot_beginStays (p : Option Ptr) : Guarantees BeginStays (resetRoot (α := α) fuel p) :=
  (Guarantees.of_keepsTree keepsTree_getTree).bind fun _ =>
    (guarantees_modifyTree fun _ => by rfl).bind fun _ => .of_keepsTree (keepsTree_treeDelete _ _)

end Frame

/-- Copy construction from any source with a node leaves `_begin` after-end, whether it
returns or not: the member starts default-constructed (after-end) and `set_iterators` keeps
its state. -/
theorem copyConstruct_begin_afterEnd (other : Bstree) (hsize : other.treeSize ≠ 0) (s : State α) :
    (copyConstruct fuel other s).2.tree.beginIt.state = .afterEnd := by
  rw [copyConstruct, bind_apply, modifyTree_apply]
  exact ((Guarantees.of_keepsTree (copyFrom_keepsTree fuel _)).bind fun _ =>
    (resetRoot_beginStays fuel _).bind fun _ => setSize_setIterators_beginStays fuel other hsize) _

theorem copyAssign_beginStays (propagate allocEq : Bool) (other : Bstree)
    (hsize : other.treeSize ≠ 0) :
    Guarantees BeginStays (copyAssign (α := α) fuel propagate allocEq other) :=
  (guarantees_ite (c := propagate && !allocEq) (resetRoot_beginStays fuel _)
    (.of_keepsTree (keepsTree_pure _))).bind fun _ =>
    (Guarantees.of_keepsTree (copyFrom_keepsTree fuel _)).bind fun _ =>
    (resetRoot_beginStays fuel _).bind fun _ => setSize_setIterators_beginStays fuel other hsize

/-- A copy of a tree with a node iterates nothing. Copy construction leaves `begin ()` after-end,
whether it returns or not, and `++` gives `begin ()` back there, so the loop from `begin ()`
never reaches a key: it stops at once or never reaches `end ()`. Copy assignment keeps the state
`_begin` had, so a copy assigned into an empty or cleared tree is stuck the same way. -/
theorem copies_begin_afterEnd (other : Bstree) (hsize : other.treeSize ≠ 0) (s : State α)
    (propagate allocEq : Bool) :
    (copyConstruct fuel other s).2.tree.beginIt.state = .afterEnd ∧
      BstreeIterator.IncrTo (copyConstruct fuel other s).2.store.heap
        (copyConstruct fuel other s).2.tree.beginIt (copyConstruct fuel other s).2.tree.beginIt ∧
      (copyAssign fuel propagate allocEq other s).2.tree.beginIt.state = s.tree.beginIt.state :=
  have hb := copyConstruct_begin_afterEnd fuel other hsize s
  ⟨hb, BstreeIterator.incrTo_self_of_not_valid (by rw [hb]; decide),
    copyAssign_beginStays fuel propagate allocEq other hsize s⟩

/-- A default-constructed tree in the memory of `fortyTwentyTenThirty`. -/
def emptyBesideFour : State Nat := ⟨fortyTwentyTenThirty.store, .empty⟩

theorem fortyTwentyTenThirty_copies_begin_afterEnd :
    fortyTwentyTenThirty.tree.treeSize ≠ 0 ∧
      (copyConstruct 20 fortyTwentyTenThirty.tree emptyBesideFour).2.tree.beginIt.state = .afterEnd ∧
      BstreeIterator.IncrTo (copyConstruct 20 fortyTwentyTenThirty.tree emptyBesideFour).2.store.heap
        (copyConstruct 20 fortyTwentyTenThirty.tree emptyBesideFour).2.tree.beginIt
        (copyConstruct 20 fortyTwentyTenThirty.tree emptyBesideFour).2.tree.beginIt ∧
      (copyAssign 20 false true fortyTwentyTenThirty.tree emptyBesideFour).2.tree.beginIt.state =
        .afterEnd :=
  ⟨by decide, copies_begin_afterEnd 20 fortyTwentyTenThirty.tree (by decide) emptyBesideFour false true⟩

end Bstree
end Dsa
