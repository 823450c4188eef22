import Dsa.Bstree.Container
import Dsa.Bstree.Traversal

/-! # Insertion and lookup

The descent loop that `insert`, `emplace`, `count`, `find_impl` and `erase (key)` each
spell out, as one loop body; the hinted walks of `insert (hint, value)` and
`emplace_hint`; and `insert_at`, which attaches next to the walk's last position under an
`assert` that the slot is free. The comparator `comp` is `_key_comp`; it may throw.
On a tree that satisfies the invariant the loop from `begin ()` to `end ()` visits every key
in order (`repOk_visits_keys`); a new maximum breaks the invariant, since `insert_right`
leaves `_end` where it was.
-/
namespace Dsa
namespace Bstree
variable {α : Type} (comp : α → α → Except Fault Bool) (fuel : Nat)

/-- `this->_key_comp (a, b)`. -/
def keyComp (a b : α) : Method α Bool := liftE (comp a b)

/-- Where a descent stops: at a node equivalent to the key, or at a node whose child on
the key's side is missing. -/
inductive Slot
  | found (n : Ptr)
  | vacant (d : Dir) (n : Ptr)
  deriving DecidableEq, Repr

/-- One round of the descent: less goes left, greater goes right, neither stops. -/
def descendStep (h : Heap α) (key : α) (n : Ptr) : Except Fault (Ptr ⊕ Slot) := do
  let nd ← deref h (some n)
  if ← comp key nd.value then
    pure (match nd.left with
      | some l => .inl l
      | none => .inr (.vacant .left n))
  else if ← comp nd.value key then
    pure (match nd.right with
      | some r => .inl r
      | none => .inr (.vacant .right n))
  else pure (.inr (.found n))

/-- The descent from `_tree_root.get ()`; a null root is dereferenced. -/
def descend (key : α) : Method α Slot := do
  let root ← ptrOf (← getTree).treeRoot
  liftE (loop (descendStep comp (← getHeap) key) fuel root)

/-- `insert (value)`. -/
def insert (v : α) : Method α (BstreeIterator × Bool) := do
  if (← getTree).treeSize = 0 then
    makeRoot fuel v
    pure (⟨(← getTree).treeRoot, .valid⟩, true)
  else
    match ← descend comp fuel v with
    | .found n => pure (⟨some n, .valid⟩, false)
    | .vacant d n => do
      insertSide d (some n) v
      pure (⟨(← readNode (some n)).child d, .valid⟩, true)

/-- `insert (first, last)`, and `insert (initializer_list)`, which passes its list's range on:
`insert (*it)` for each element in turn. -/
def insertRange (vs : List α) : Method α Unit :=
  vs.forM fun v => do let _ ← insert comp fuel v

/-- `bstree (first, last)`: the members start empty, then `insert (first, last)`. -/
def rangeConstruct (vs : List α) : Method α Unit := do
  modifyTree fun _ => Bstree.empty
  insertRange comp fuel vs

/-- `operator= (initializer_list)`. -/
def assignList (vs : List α) : Method α Unit := do
  clear fuel
  insertRange comp fuel vs

theorem descend_keepsTree (key : α) : KeepsTree (descend comp fuel key) :=
  keepsTree_getTree.bind fun _ => (keepsTree_ptrOf _).bind fun _ => keepsTree_getHeap.bind
    fun _ => keepsTree_liftE _

theorem insert_endStays {s : State α} (hs : s.tree.treeSize ≠ 0) (v : α) :
    EndStays s.tree (insert comp fuel v s).2.tree := by
  rw [insert, getTree_bind, if_neg hs]
  refine ((Guarantees.of_keepsTree (descend_keepsTree comp fuel v)).bind fun slot => ?_) s
  cases slot with
  | found n => exact .of_keepsTree (keepsTree_pure _)
  | vacant d n => exact (insertSide_endStays _ _ _).bind fun _ =>
      (Guarantees.of_keepsTree (keepsTree_readNode _)).bind fun _ => .of_keepsTree (keepsTree_pure _)

/-- `insert` 40, 20, 10, 30 on an empty `bstree <int>`: the root `40` has the left child `20`,
whose children are `10` and `30`. -/
def fortyTwentyTenThirty : State Nat :=
  (((State.empty.after (insert stdLess 20 40)).after (insert stdLess 20 20)).after
    (insert stdLess 20 10)).after (insert stdLess 20 30)

/-- Its shape: in order `10`, `20`, `30`, `40` at addresses 2, 1, 3, 0. -/
def fortyTwentyShape : Shape := .node (.node (.node .leaf 2 .leaf) 1 (.node .leaf 3 .leaf)) 0 .leaf

theorem fortyTwentyTenThirty_repOk : RepOk stdLess fortyTwentyTenThirty fortyTwentyShape :=
  ⟨⟨⟨40, by decide⟩, ⟨⟨20, by decide⟩, ⟨⟨10, by decide⟩, trivial, trivial⟩,
    ⟨⟨30, by decide⟩, trivial, trivial⟩⟩, trivial⟩, by decide, by decide, by decide, by decide,
    by decide⟩

/-- What the invariant is for: on every tree that satisfies it,
`for (it = begin (); it != end (); ++it)` visits every key, in order. -/
theorem repOk_visits_keys {s : State α} {t : Shape} (hr : RepOk comp s t) :
    BstreeIterator.Visits s.store.heap s.tree.endIt s.tree.beginIt (t.keys s.store.heap) := by
  have hc := hr.caches
  rw [show t.keys s.store.heap = valuesAt s.store.heap t.ptrs from rfl]
  cases hp : t.ptrs with
  | nil =>
    rw [hp] at hc
    exact .stop hc
  | cons a rest =>
    rw [hp] at hc
    obtain ⟨m, hm, hb, he⟩ := hc.ends
    rw [hb, he]
    exact BstreeIterator.visits_to_end hr.hangs hr.nodup (hp ▸ hm) rest [] a (by simp [hp])

theorem fortyTwentyTenThirty_visits_keys :
    RepOk stdLess fortyTwentyTenThirty fortyTwentyShape ∧
      BstreeIterator.Visits fortyTwentyTenThirty.store.heap fortyTwentyTenThirty.tree.endIt
        fortyTwentyTenThirty.tree.beginIt [10, 20, 30, 40] :=
  ⟨fortyTwentyTenThirty_repOk, repOk_visits_keys stdLess fortyTwentyTenThirty_repOk⟩

def insertOneTwo : State Nat :=
  (State.empty.after (insert stdLess 20 1)).after (insert stdLess 20 2)

/-- `insert_right` tests `parent == this->_end` with a valid-state iterator against the
after-end `_end`, so a new maximum never moves `_end`: after `insert (1)`, `insert (2)` the
cache stays after-end at the root, whose right child holds `2`. -/
theorem insertOneTwo_end_not_rightmost :
    insertOneTwo.tree.treeSize = 2 ∧ insertOneTwo.tree.endIt = ⟨some 0, .afterEnd⟩ ∧
      (insertOneTwo.store.heap 0).bind Node.right = some 1 := by
  decide

/-- Hence `for (it = begin (); it != end (); ++it)` never stops on that tree: `++` goes from
`1` to `2` and then to after-end at `2`, a fixed point of `++` that is not `end ()`. -/
theorem insertOneTwo_traversal_never_ends :
    ¬ ∃ ks, BstreeIterator.Visits insertOneTwo.store.heap insertOneTwo.tree.endIt
      insertOneTwo.tree.beginIt ks := by
  rintro ⟨ks, hv⟩
  have hb : insertOneTwo.tree.beginIt = ⟨some 0, .valid⟩ := by decide
  have he : insertOneTwo.tree.endIt = ⟨some 0, .afterEnd⟩ := by decide
  have h1 : BstreeIterator.IncrTo insertOneTwo.store.heap ⟨some 0, .valid⟩ ⟨some 1, .valid⟩ :=
    ⟨1, fun fuel hf => by obtain ⟨k, rfl⟩ : ∃ k, fuel = k + 1 := ⟨fuel - 1, by omega⟩; rfl⟩
  have h2 : BstreeIterator.IncrTo insertOneTwo.store.heap ⟨some 1, .valid⟩ ⟨some 1, .afterEnd⟩ :=
    ⟨1, fun fuel hf => by obtain ⟨k, rfl⟩ : ∃ k, fuel = k + 1 := ⟨fuel - 1, by omega⟩; rfl⟩
  rw [hb, he] at hv
  rcases hv with _ | ⟨_, _, hs, hv⟩
  · contradiction
  obtain rfl := h1.unique hs
  rcases hv with _ | ⟨_, _, hs, hv⟩
  · contradiction
  obtain rfl := h2.unique hs
  exact BstreeIterator.Visits.not_of_stuck (BstreeIterator.incrTo_self_of_not_valid (by decide))
    (by decide) _ hv

/-- `insert_at (pos, value)`. -/
def insertAt (pos : BstreeIterator) (v : α) : Method α BstreeIterator := do
  let pn ← readNode pos.iter
  if ← keyComp comp v pn.value then
    assertThat (pn.left.isNone)
    insertLeft pos.iter v
    if pos.equal (← getTree).beginIt then
      let c := (← readNode pos.iter).left
      modifyTree ({ · with beginIt := ⟨c, .valid⟩ })
    pure ⟨(← readNode pos.iter).left, .valid⟩
  else if ← keyComp comp pn.value v then
    assertThat (pn.right.isNone)
    insertRight pos.iter v
    if pos.equal (← getTree).endIt then
      let c := (← readNode pos.iter).right
      modifyTree ({ · with endIt := ⟨c, .valid⟩ })
    pure ⟨(← readNode pos.iter).right, .valid⟩
  else pure pos

/-- `insert_at (pos, node)`. -/
def insertAtNode (pos : BstreeIterator) (n : Ptr) : Method α (BstreeIterator × Bool) := do
  let pn ← readNode pos.iter
  let v := (← readNode (some n)).value
  if ← keyComp comp v pn.value then
    assertThat (pn.left.isNone)
    insertLeftNode pos.iter n
    if pos.equal (← getTree).beginIt then
      let c := (← readNode pos.iter).left
      modifyTree ({ · with beginIt := ⟨c, .valid⟩ })
    pure (⟨(← readNode pos.iter).left, .valid⟩, true)
  else if ← keyComp comp pn.value v then
    assertThat (pn.right.isNone)
    insertRightNode pos.iter n
    if pos.equal (← getTree).endIt then
      let c := (← readNode pos.iter).right
      modifyTree ({ · with endIt := ⟨c, .valid⟩ })
    pure (⟨(← readNode pos.iter).right, .valid⟩, true)
  else pure (pos, false)

/-- One round of the backward hint walk:
`while (pos != this->_begin && this->_key_comp (value, pos->value)) --pos;` -/
def walkBackStep (h : Heap α) (b : Bstree) (v : α) (pos : BstreeIterator) :
    Except Fault (BstreeIterator ⊕ BstreeIterator) := do
  if pos.equal b.beginIt then pure (.inr pos)
  else
    let pn ← deref h pos.iter
    if ← comp v pn.value then pure (.inl (← BstreeIterator.decrement h fuel pos))
    else pure (.inr pos)

/-- One round of the forward hint walk:
`while (pos != this->_end && this->_key_comp (pos->value, value)) ++pos;` -/
def walkFwdStep (h : Heap α) (b : Bstree) (v : α) (pos : BstreeIterator) :
    Except Fault (BstreeIterator ⊕ BstreeIterator) := do
  if pos.equal b.endIt then pure (.inr pos)
  else
    let pn ← deref h pos.iter
    if ← comp pn.value v then pure (.inl (← BstreeIterator.increment h fuel pos))
    else pure (.inr pos)

/-- The hint walk of `insert (hint, value)` and `emplace_hint`, from
`iterator {hint._iter}`. -/
def hintWalk (hint : BstreeIterator) (v : α) : Method α BstreeIterator := do
  let pos : BstreeIterator := ⟨hint.iter, .valid⟩
  let pn ← readNode pos.iter
  let h ← getHeap
  let b ← getTree
  if ← keyComp comp v pn.value then liftE (loop (walkBackStep comp fuel h b v) fuel pos)
  else liftE (loop (walkFwdStep comp fuel h b v) fuel pos)

/-- `insert (hint, value)`. -/
def insertHint (hint : BstreeIterator) (v : α) : Method α BstreeIterator := do
  let pos ← hintWalk comp fuel hint v
  insertAt comp pos v

/-- `emplace (value)`: the node is built first and released again if the key is present
or a comparison throws. -/
def emplace (v : α) : Method α (BstreeIterator × Bool) := do
  if (← getTree).treeSize = 0 then
    makeRoot fuel v
    pure (⟨(← getTree).treeRoot, .valid⟩, true)
  else
    let root := (← getTree).treeRoot
    let n ← nodeCreate none v
    catchThrown (do
      let r ← ptrOf root
      match ← liftE (loop (descendStep comp (← getHeap) v) fuel r) with
      | .found m => do
        deallocate n
        pure (⟨some m, .valid⟩, false)
      | .vacant d m => do
        insertNodeSide d (some m) n
        pure (⟨(← readNode (some m)).child d, .valid⟩, true))
      (deallocate n)

theorem emplace_endStays {s : State α} (hs : s.tree.treeSize ≠ 0) (v : α) :
    EndStays s.tree (emplace comp fuel v s).2.tree := by
  rw [emplace, getTree_bind, if_neg hs]
  refine ((Guarantees.of_keepsTree keepsTree_getTree).bind fun _ =>
    (Guarantees.of_keepsTree (keepsTree_nodeCreate _ _)).bind fun _ =>
      guarantees_catchThrown ?_ (.of_keepsTree (keepsTree_deallocate _))) s
  refine (Guarantees.of_keepsTree (keepsTree_ptrOf _)).bind fun _ =>
    (Guarantees.of_keepsTree keepsTree_getHeap).bind fun _ =>
    (Guarantees.of_keepsTree (keepsTree_liftE _)).bind fun slot => ?_
  cases slot with
  | found m => exact (Guarantees.of_keepsTree (keepsTree_deallocate _)).bind fun _ =>
      .of_keepsTree (keepsTree_pure _)
  | vacant d m => exact (insertNodeSide_endStays _ _ _).bind fun _ =>
      (Guarantees.of_keepsTree (keepsTree_readNode _)).bind fun _ => .of_keepsTree (keepsTree_pure _)

/-- `emplace_hint (hint, value)`: the walk is guarded, `insert_at` is not. -/
def emplaceHint (hint : BstreeIterator) (v : α) : Method α BstreeIterator := do
  let n ← nodeCreate none v
  let pos ← catchThrown (hintWalk comp fuel hint v) (deallocate n)
  let (it, inserted) ← insertAtNode comp pos n
  if !inserted then deallocate n
  pure it

/-- `std::less <int>`, except that comparing `1` with `2` throws. -/
def throwingLess (a b : Nat) : Except Fault Bool :=
  if a = 1 ∧ b = 2 then .error .thrown else .ok (decide (a < b))

/-- `insert (1)` then `insert (3)` under `throwingLess`, which does not throw there. -/
def insertOneThree : State Nat :=
  (State.empty.after (insert throwingLess 20 1)).after (insert throwingLess 20 3)

/-- `emplace_hint (iterator at 3, 2)`: the hint walk steps back to `1`, and `insert_at`,
outside the `try`, throws on comparing `1` with `2`. -/
def emplaceHintTwo : Except Fault BstreeIterator × State Nat :=
  emplaceHint throwingLess 20 ⟨some 1, .valid⟩ 2 insertOneThree

/-- The exception leaves the node built for `2` allocated while no link reaches it: the
object and the two tree cells are as before the call, and cell `2` is live. -/
theorem emplaceHintTwo_leaks_node :
    emplaceHintTwo.1 = .error .thrown ∧ emplaceHintTwo.2.tree = insertOneThree.tree ∧
      emplaceHintTwo.2.store.heap 0 = insertOneThree.store.heap 0 ∧
      emplaceHintTwo.2.store.heap 1 = insertOneThree.store.heap 1 ∧
      insertOneThree.store.heap 2 = none ∧
      emplaceHintTwo.2.store.heap 2 = some ⟨2, none, none, none⟩ := by
  refine ⟨rfl, ?_⟩
  decide

/-- With the hint at the root, `insert (hint, 25)` and `emplace_hint (hint, 25)` walk back to
`30` and then to `20`, the predecessor of `25`, and `insert_at` asserts that `20` has no right
child, which it has: `30`. On the empty tree `end ()` holds no node, and the hint is
dereferenced. -/
theorem insertHint_assert_fails :
    RepOk stdLess fortyTwentyTenThirty fortyTwentyShape ∧
      (insertHint stdLess 20 ⟨some 0, .valid⟩ 25 fortyTwentyTenThirty).1 = .error .assertFailed ∧
      (emplaceHint stdLess 20 ⟨some 0, .valid⟩ 25 fortyTwentyTenThirty).1 = .error .assertFailed ∧
      RepOk stdLess (State.empty : State Nat) .leaf ∧
      (insertHint stdLess 20 (State.empty : State Nat).tree.endIt 25 State.empty).1 =
        .error .undefined :=
  ⟨fortyTwentyTenThirty_repOk, by decide, by decide, State.empty_repOk stdLess, by decide⟩

/-- `count (key)`. -/
def count (key : α) : Method α Nat := do
  if (← getTree).treeSize = 0 then pure 0
  else
    match ← descend comp fuel key with
    | .found _ => pure 1
    | .vacant _ _ => pure 0

/-- `find_impl (key)`, which `find` returns. -/
def find (key : α) : Method α BstreeIterator := do
  if (← getTree).treeSize = 0 then pure (← getTree).endIt
  else
    match ← descend comp fuel key with
    | .found n => pure ⟨some n, .valid⟩
    | .vacant _ _ => pure (← getTree).endIt

end Bstree
end Dsa
