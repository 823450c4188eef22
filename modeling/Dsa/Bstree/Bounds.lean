import Dsa.Bstree.Compare

/-! # `lower_bound`, `upper_bound` and `equal_range`

`lower_bound_impl` and `upper_bound_impl` start at the root and walk with `--` while the key
is less than the position's value (stopping at `_begin`), or with `++` while it is greater
(stopping at `_end`), then settle the last step. `equal_range` takes `lower_bound` and its
successor. All three only read the tree.
-/
namespace Dsa
namespace Bstree
variable {α : Type} (comp : α → α → Except Fault Bool) (h : Heap α) (fuel : Nat)

/-- How a walk of `lower_bound_impl` or `upper_bound_impl` ends: by the `return pos` inside
the loop, or by its condition failing at `pos`. -/
inductive WalkEnd
  | returned (pos : BstreeIterator)
  | exited (pos : BstreeIterator)
  deriving DecidableEq, Repr

/-- One round of `while (this->_key_comp (key, pos->value)) { if (this->_begin == pos) return
pos; else --pos; }`. -/
def walkBack (b : Bstree) (key : α) (pos : BstreeIterator) :
    Except Fault (BstreeIterator ⊕ WalkEnd) := do
  let pn ← deref h pos.iter
  if ← comp key pn.value then
    if b.beginIt.equal pos then pure (.inr (.returned pos))
    else pure (.inl (← BstreeIterator.decrement h fuel pos))
  else pure (.inr (.exited pos))

/-- One round of `while (this->_key_comp (pos->value, key)) { if (this->_end == pos) return
pos; else ++pos; }`. -/
def walkFwd (b : Bstree) (key : α) (pos : BstreeIterator) :
    Except Fault (BstreeIterator ⊕ WalkEnd) := do
  let pn ← deref h pos.iter
  if ← comp pn.value key then
    if b.endIt.equal pos then pure (.inr (.returned pos))
    else pure (.inl (← BstreeIterator.increment h fuel pos))
  else pure (.inr (.exited pos))

/-- The branch of `lower_bound_impl` for a key less than the root's: walk back, then `return
++pos` if the walk went below the key. -/
def lowerBoundBack (b : Bstree) (key : α) (pos : BstreeIterator) : Except Fault BstreeIterator := do
  match ← loop (walkBack comp h fuel b key) fuel pos with
  | .returned pos => pure pos
  | .exited pos =>
    if ← comp (← deref h pos.iter).value key then BstreeIterator.increment h fuel pos
    else pure pos

/-- The branch of `lower_bound_impl` for a key greater than the root's. -/
def lowerBoundFwd (b : Bstree) (key : α) (pos : BstreeIterator) : Except Fault BstreeIterator := do
  match ← loop (walkFwd comp h fuel b key) fuel pos with
  | .returned pos => pure pos
  | .exited pos => pure pos

/-- `lower_bound_impl (key)`. -/
def lowerBound (b : Bstree) (key : α) : Except Fault BstreeIterator :=
  if b.treeSize = 0 then pure b.endIt
  else do
    let pos : BstreeIterator := ⟨b.treeRoot, .valid⟩
    let pn ← deref h pos.iter
    if ← comp key pn.value then lowerBoundBack comp h fuel b key pos
    else if ← comp pn.value key then lowerBoundFwd comp h fuel b key pos
    else pure pos

/-- The branch of `upper_bound_impl` for a key less than the root's: walk back, then `return
++pos`. -/
def upperBoundBack (b : Bstree) (key : α) (pos : BstreeIterator) : Except Fault BstreeIterator := do
  match ← loop (walkBack comp h fuel b key) fuel pos with
  | .returned pos => pure pos
  | .exited pos => BstreeIterator.increment h fuel pos

/-- The branch of `upper_bound_impl` for a key greater than the root's: walk forward, then
step past an equivalent position. -/
def upperBoundFwd (b : Bstree) (key : α) (pos : BstreeIterator) : Except Fault BstreeIterator := do
  match ← loop (walkFwd comp h fuel b key) fuel pos with
  | .returned pos => pure pos
  | .exited pos =>
    if ← comp key (← deref h pos.iter).value then pure pos
    else BstreeIterator.increment h fuel pos

/-- `upper_bound_impl (key)`. -/
def upperBound (b : Bstree) (key : α) : Except Fault BstreeIterator :=
  if b.treeSize = 0 then pure b.endIt
  else do
    let pos : BstreeIterator := ⟨b.treeRoot, .valid⟩
    let pn ← deref h pos.iter
    if ← comp key pn.value then upperBoundBack comp h fuel b key pos
    else if ← comp pn.value key then upperBoundFwd comp h fuel b key pos
    else BstreeIterator.increment h fuel pos

/-- `equal_range (key)`: `lower_bound (key)` and, as the keys are unique, its successor. -/
def equalRange (b : Bstree) (key : α) : Except Fault (BstreeIterator × BstreeIterator) := do
  let lower ← lowerBound comp h fuel b key
  let upper ← BstreeIterator.increment h fuel lower
  pure (lower, upper)

/-- `insert` 40, 10, 30, 20 on an empty `bstree <int>`: `10` is the root's left child, `30` the
right child of `10`, and `20` the left child of `30`. -/
def fortyTenThirtyTwenty : State Nat :=
  (((State.empty.after (insert stdLess 20 40)).after (insert stdLess 20 10)).after
    (insert stdLess 20 30)).after (insert stdLess 20 20)

/-- Its shape: in order `10`, `20`, `30`, `40` at addresses 1, 3, 2, 0. -/
def fortyShape : Shape := .node (.node .leaf 1 (.node (.node .leaf 3 .leaf) 2 .leaf)) 0 .leaf

theorem fortyTenThirtyTwenty_repOk : RepOk stdLess fortyTenThirtyTwenty fortyShape :=
  ⟨⟨⟨40, by decide⟩, ⟨⟨10, by decide⟩, trivial, ⟨⟨30, by decide⟩, ⟨⟨20, by decide⟩, trivial,
    trivial⟩, trivial⟩⟩, trivial⟩, by decide, by decide, by decide, by decide, by decide⟩

/-- The backward walk for the key `15` goes from the root `40` to `30` and to `20`, where `--`
enters the ascent loop that has no exit: the walk does not return for any loop bound. -/
theorem fifteen_walkBack_diverges (fuel : Nat) :
    loop (walkBack stdLess fortyTenThirtyTwenty.store.heap fuel fortyTenThirtyTwenty.tree 15) fuel
      ⟨some 0, .valid⟩ = .error .diverged := by
  have hc3 : fortyTenThirtyTwenty.store.heap 3 = some ⟨20, none, none, some 2⟩ := by decide
  have hd3 := BstreeIterator.decrement_diverges fortyTenThirtyTwenty_repOk.hangs
    (show 3 ∈ fortyShape.ptrs by decide) hc3
    (show fortyTenThirtyTwenty.store.heap 2 = some ⟨30, some 3, none, some 1⟩ by decide) (by decide)
  match fuel with
  | 0 => rfl
  | 1 => decide
  | 2 => decide
  | g + 3 =>
    have h0 : walkBack stdLess fortyTenThirtyTwenty.store.heap (g + 3) fortyTenThirtyTwenty.tree 15
        ⟨some 0, .valid⟩ = .ok (.inl ⟨some 2, .valid⟩) := rfl
    have h2 : walkBack stdLess fortyTenThirtyTwenty.store.heap (g + 3) fortyTenThirtyTwenty.tree 15
        ⟨some 2, .valid⟩ = .ok (.inl ⟨some 3, .valid⟩) := rfl
    have h3 : walkBack stdLess fortyTenThirtyTwenty.store.heap (g + 3) fortyTenThirtyTwenty.tree 15
        ⟨some 3, .valid⟩ = .error .diverged := by
      simp only [walkBack, hd3, deref_some hc3]
      decide
    simp [loop, h0, h2, h3]

/-- On a tree that satisfies the invariant, `lower_bound (15)` and `upper_bound (15)` start
below the key-`40` root and walk back into `--` at `20`, a left child with no left subtree:
neither returns, for any loop bound. -/
theorem bounds_fifteen_diverge :
    RepOk stdLess fortyTenThirtyTwenty fortyShape ∧
      ∀ fuel,
        lowerBound stdLess fortyTenThirtyTwenty.store.heap fuel fortyTenThirtyTwenty.tree 15 =
          .error .diverged ∧
        upperBound stdLess fortyTenThirtyTwenty.store.heap fuel fortyTenThirtyTwenty.tree 15 =
          .error .diverged := by
  have hsize : fortyTenThirtyTwenty.tree.treeSize = 4 := by decide
  have hroot : fortyTenThirtyTwenty.tree.treeRoot = some 0 := by decide
  have hc0 : fortyTenThirtyTwenty.store.heap 0 = some ⟨40, some 1, none, none⟩ := by decide
  refine ⟨fortyTenThirtyTwenty_repOk, fun fuel => ?_⟩
  simp [lowerBound, upperBound, lowerBoundBack, upperBoundBack, hsize, hroot, deref_some hc0,
    stdLess, fifteen_walkBack_diverges]

/-- On the one-node tree `{1}` the key `0` is absent, yet `equal_range (0)` is `[begin (),
end ())`, which holds `1`, and its second iterator is not `upper_bound (0)`, which is
`begin ()`: the successor of `lower_bound` is the upper bound only for a present key. -/
theorem equalRange_absent_key_holds_one :
    RepOk stdLess treeOfOne (.node .leaf 0 .leaf) ∧
      BstreeIterator.Visits treeOfOne.store.heap ⟨some 0, .afterEnd⟩ ⟨some 0, .valid⟩ [1] ∧
      ∀ fuel,
        equalRange stdLess treeOfOne.store.heap (fuel + 1) treeOfOne.tree 0 =
          .ok (⟨some 0, .valid⟩, ⟨some 0, .afterEnd⟩) ∧
        upperBound stdLess treeOfOne.store.heap (fuel + 1) treeOfOne.tree 0 = .ok ⟨some 0, .valid⟩ := by
  have hincr : BstreeIterator.IncrTo treeOfOne.store.heap ⟨some 0, .valid⟩ ⟨some 0, .afterEnd⟩ :=
    ⟨1, fun fuel hf => by obtain ⟨k, rfl⟩ : ∃ k, fuel = k + 1 := ⟨fuel - 1, by omega⟩; rfl⟩
  exact ⟨⟨⟨⟨1, by decide⟩, trivial, trivial⟩, by decide, by decide, by decide, by decide, by decide⟩,
    .next (by decide) (by rfl) hincr (.stop (by decide)), fun _ => ⟨rfl, rfl⟩⟩

end Bstree
end Dsa
