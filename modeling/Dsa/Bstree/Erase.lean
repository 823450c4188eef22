import Dsa.Bstree.Insert

/-! # Erasure

`erase (pos)` by the number of children of the erased node: a leaf is unlinked, a node
with one child is replaced by it, and a node with two children is replaced by its left
child (even size) or right child (odd size) while the other child's subtree is grafted
into the promoted one by a comparator-guided descent. The returned iterator is `++pos`,
computed before any link changes. `erase (first, last)` and `erase (key)` are built on it.

On every tree that satisfies the invariant, `_end` never moves once the tree has a node
(`endIt_stays_of_repOk`: `insert`, `emplace` and `erase` compare it as a valid iterator), an
erase at the maximum returns the after-end iterator at the node it releases
(`erase_max_leaves_released`), and an erase at a node with two children off the root leaves
the promoted child its own parent (`repOk_erase_self_parent`).
-/
namespace Dsa
namespace Bstree
variable {α : Type} (comp : α → α → Except Fault Bool) (fuel : Nat)

/-- One round of the graft loop: `in` goes left of `it` when it compares less, right
otherwise, into the first free slot. -/
def graftStep (h : Heap α) (inn it : Ptr) : Except Fault (Ptr ⊕ (Dir × Ptr)) := do
  let inNode ← deref h (some inn)
  let itNode ← deref h (some it)
  if ← comp inNode.value itNode.value then
    pure (match itNode.left with
      | some l => .inl l
      | none => .inr (.left, it))
  else
    pure (match itNode.right with
      | some r => .inl r
      | none => .inr (.right, it))

/-- `else if (n->parent->left == n) n->parent->left = c; else if (n->parent->right == n)
n->parent->right = c;` -/
def replaceInParent (n : Ptr) (nd : Node α) (c : Option Ptr) : Method α Unit := do
  let pn ← readNode nd.parent
  if pn.left = some n then setChild .left nd.parent c
  else if pn.right = some n then setChild .right nd.parent c

/-- The leaf case unlinks `n` from its parent, or resets the root (which releases `n`). -/
def unlinkLeaf (n : Ptr) (nd : Node α) : Method α Unit := do
  if (← getTree).treeRoot = some n then resetRoot fuel none
  else replaceInParent n nd none

/-- Then `_begin`, or failing that `_end`, takes `n`'s parent if it is at `n`. -/
def leafCaches (n : Ptr) : Method α Unit := do
  if !(← moveCache .left (some n) (·.parent)) then
    let _ ← moveCache .right (some n) (·.parent)

def eraseLeaf (n : Ptr) (nd : Node α) : Method α Unit := do
  unlinkLeaf fuel n nd
  leafCaches n

/-- The one-child cases: the child `c` takes `n`'s slot (`release` then `reset (c)` at the
root) and `n`'s parent; side `d` is the cache that may have to move (`_begin` when the left
child is missing). -/
def unlinkOneChild (n : Ptr) (nd : Node α) (c : Option Ptr) : Method α Unit := do
  if (← getTree).treeRoot = some n then modifyTree ({ · with treeRoot := c })
  else replaceInParent n nd c

def eraseOneChild (d : Dir) (n : Ptr) (nd : Node α) (c : Option Ptr) : Method α Unit := do
  unlinkOneChild n nd c
  setParent c nd.parent
  let _ ← moveCache d (some n) (·.parent)

/-- The promoted child takes `n`'s place: at the root with a null parent, else in the
parent's link `*branch`, and then `n->left->parent = *branch` (or `n->right`) reads that
link back. -/
def promote (n : Ptr) (nd : Node α) (promoted : Option Ptr) : Method α Unit := do
  if (← getTree).treeRoot = some n then
    modifyTree ({ · with treeRoot := promoted })
    setParent promoted none
  else
    let pn ← readNode nd.parent
    let d : Dir := if some n = pn.left then .left else .right
    setChild d nd.parent promoted
    setParent promoted ((← readNode nd.parent).child d)

/-- The graft loop from `it`, the promoted child, and the link of `in` into the slot found. -/
def graft (promoted other : Option Ptr) : Method α Unit := do
  let it ← ptrOf promoted
  let inn ← ptrOf other
  let (d, slot) ← liftE (loop (graftStep comp (← getHeap) inn) fuel it)
  setChild d (some slot) other
  setParent other (some slot)

/-- The two-child case, with the parity of `_tree_size` choosing the promoted child. -/
def eraseTwoChildren (n : Ptr) (nd : Node α) : Method α Unit := do
  let parity := (← getTree).treeSize % 2 == 0
  let promoted := if parity then nd.left else nd.right
  let other := if parity then nd.right else nd.left
  promote n nd promoted
  graft comp fuel promoted other

/-- The relinking by the number of children of `n`. -/
def unlinkNode (n : Ptr) (nd : Node α) : Method α Unit :=
  match nd.left, nd.right with
  | none, none => eraseLeaf fuel n nd
  | none, some r => eraseOneChild .left n nd (some r)
  | some l, none => eraseOneChild .right n nd (some l)
  | some _, some _ => eraseTwoChildren comp fuel n nd

/-- `erase (pos)`. -/
def erase (pos : BstreeIterator) : Method α BstreeIterator := do
  let n ← ptrOf pos.iter
  let retval ← liftE (BstreeIterator.increment (← getHeap) fuel pos)
  let nd ← readNode (some n)
  unlinkNode comp fuel n nd
  modifyTree fun b => { b with treeSize := b.treeSize - 1 }
  deallocate n
  pure retval

section Frame

theorem replaceInParent_keepsTree (n : Ptr) (nd : Node α) (c : Option Ptr) :
    KeepsTree (replaceInParent n nd c) :=
  (keepsTree_readNode _).bind fun _ => guarantees_ite (keepsTree_setChild _ _ _)
    (guarantees_ite (keepsTree_setChild _ _ _) (keepsTree_pure _))

theorem eraseLeaf_endStays (n : Ptr) (nd : Node α) : Guarantees EndStays (eraseLeaf fuel n nd) :=
  ((Guarantees.of_keepsTree keepsTree_getTree).bind fun _ => guarantees_ite
    (resetRoot_endStays _ _) (.of_keepsTree (replaceInParent_keepsTree _ _ _))).bind fun _ =>
  (moveCache_endStays _ _ _).bind fun _ => guarantees_ite
    ((moveCache_endStays _ _ _).bind fun _ => .of_keepsTree (keepsTree_pure _))
    (.of_keepsTree (keepsTree_pure _))

theorem eraseOneChild_endStays (d : Dir) (n : Ptr) (nd : Node α) (c : Option Ptr) :
    Guarantees EndStays (eraseOneChild d n nd c) :=
  ((Guarantees.of_keepsTree keepsTree_getTree).bind fun _ => guarantees_ite
    (guarantees_modifyTree fun _ _ => rfl) (.of_keepsTree (replaceInParent_keepsTree _ _ _))).bind
  fun _ => (Guarantees.of_keepsTree (keepsTree_setParent _ _)).bind fun _ =>
    (moveCache_endStays _ _ _).bind fun _ => .of_keepsTree (keepsTree_pure _)

theorem promote_endStays (n : Ptr) (nd : Node α) (promoted : Option Ptr) :
    Guarantees EndStays (promote n nd promoted) :=
  (Guarantees.of_keepsTree keepsTree_getTree).bind fun _ => guarantees_ite
    ((guarantees_modifyTree fun _ _ => rfl).bind fun _ => .of_keepsTree (keepsTree_setParent _ _))
    (.of_keepsTree <| (keepsTree_readNode _).bind fun _ => (keepsTree_setChild _ _ _).bind
      fun _ => (keepsTree_readNode _).bind fun _ => keepsTree_setParent _ _)

theorem graft_keepsTree (promoted other : Option Ptr) :
    KeepsTree (graft comp fuel promoted other) :=
  (keepsTree_ptrOf _).bind fun _ => (keepsTree_ptrOf _).bind fun _ => keepsTree_getHeap.bind
    fun _ => (keepsTree_liftE _).bind fun ⟨_, _⟩ => (keepsTree_setChild _ _ _).bind fun _ =>
      keepsTree_setParent _ _

theorem eraseTwoChildren_endStays (n : Ptr) (nd : Node α) :
    Guarantees EndStays (eraseTwoChildren comp fuel n nd) :=
  (Guarantees.of_keepsTree keepsTree_getTree).bind fun _ =>
    (promote_endStays _ _ _).bind fun _ => .of_keepsTree (graft_keepsTree _ _ _ _)

theorem erase_endStays (pos : BstreeIterator) : Guarantees EndStays (erase comp fuel pos) := by
  refine (Guarantees.of_keepsTree (keepsTree_ptrOf _)).bind fun n =>
    (Guarantees.of_keepsTree keepsTree_getHeap).bind fun _ =>
    (Guarantees.of_keepsTree (keepsTree_liftE _)).bind fun _ =>
    (Guarantees.of_keepsTree (keepsTree_readNode _)).bind fun nd => Guarantees.bind ?_ fun _ =>
    (guarantees_modifyTree fun _ _ => rfl).bind fun _ =>
    (Guarantees.of_keepsTree (keepsTree_deallocate _)).bind fun _ => .of_keepsTree (keepsTree_pure _)
  unfold unlinkNode
  split
  · exact eraseLeaf_endStays _ _ _
  · exact eraseOneChild_endStays _ _ _ _
  · exact eraseOneChild_endStays _ _ _ _
  · exact eraseTwoChildren_endStays _ _ _ _

end Frame

/-- `_end` never moves once the tree has a node: on every tree that satisfies the invariant,
with `m` its last node, `insert (v)`, `emplace (v)` and `erase (pos)` leave `_end` the
after-end iterator at `m`, whatever they insert or remove. -/
theorem endIt_stays_of_repOk {s : State α} {t : Shape} (hr : RepOk comp s t) {m : Ptr}
    (hm : t.ptrs.getLast? = some m) (v : α) (pos : BstreeIterator) :
    (insert comp fuel v s).2.tree.endIt = ⟨some m, .afterEnd⟩ ∧
      (emplace comp fuel v s).2.tree.endIt = ⟨some m, .afterEnd⟩ ∧
      (erase comp fuel pos s).2.tree.endIt = ⟨some m, .afterEnd⟩ := by
  obtain ⟨hs, he⟩ := hr.endIt_eq hm
  have ha : s.tree.endIt.state = .afterEnd := by rw [he]
  exact ⟨(insert_endStays comp fuel hs v ha).trans he, (emplace_endStays comp fuel hs v ha).trans he,
    (erase_endStays comp fuel pos s ha).trans he⟩

theorem fortyTwentyTenThirty_endIt_stays :
    RepOk stdLess fortyTwentyTenThirty fortyTwentyShape ∧ fortyTwentyShape.ptrs.getLast? = some 0 ∧
      (insert stdLess 20 50 fortyTwentyTenThirty).2.tree.endIt = ⟨some 0, .afterEnd⟩ ∧
      (emplace stdLess 20 50 fortyTwentyTenThirty).2.tree.endIt = ⟨some 0, .afterEnd⟩ ∧
      (erase stdLess 20 ⟨some 2, .valid⟩ fortyTwentyTenThirty).2.tree.endIt = ⟨some 0, .afterEnd⟩ :=
  ⟨fortyTwentyTenThirty_repOk, rfl,
    endIt_stays_of_repOk stdLess 20 fortyTwentyTenThirty_repOk rfl 50 ⟨some 2, .valid⟩⟩

/-- A call of `erase (pos)` that returns gives `++pos` as computed on the memory it started
from, and leaves the node at `pos` released. -/
theorem erase_ok {pos r : BstreeIterator} {s s' : State α}
    (h : erase comp fuel pos s = (.ok r, s')) :
    ∃ n, pos.iter = some n ∧ BstreeIterator.increment s.store.heap fuel pos = .ok r ∧
      s'.store.heap n = none := by
  obtain ⟨n, _, hn, h₁⟩ := bind_eq_ok.mp h
  obtain ⟨hp, rfl⟩ := ptrOf_eq_ok.mp hn
  obtain ⟨_, _, ⟨⟩, h₂⟩ := bind_eq_ok.mp h₁
  obtain ⟨retval, _, hinc, h₃⟩ := bind_eq_ok.mp h₂
  obtain ⟨hinc, rfl⟩ := liftE_eq_ok.mp hinc
  obtain ⟨_, _, -, h₄⟩ := bind_eq_ok.mp h₃
  obtain ⟨_, _, -, h₅⟩ := bind_eq_ok.mp h₄
  obtain ⟨_, _, -, h₆⟩ := bind_eq_ok.mp h₅
  obtain ⟨_, _, hdel, ⟨⟩⟩ := bind_eq_ok.mp h₆
  exact ⟨n, hp, hinc, by rw [deallocate_heap hdel, Heap.write_self]⟩

/-- On every tree that satisfies the invariant, `erase` at the maximum, when it returns,
returns the after-end iterator at the node it has just released, and leaves `_end` there:
`++pos` is taken before the erasure, and `this->_end == n` never holds. -/
theorem erase_max_leaves_released {s s' : State α} {t : Shape} {n : Ptr} {r : BstreeIterator}
    (hr : RepOk comp s t) (hn : t.ptrs.getLast? = some n)
    (he : erase comp fuel ⟨some n, .valid⟩ s = (.ok r, s')) :
    r = ⟨some n, .afterEnd⟩ ∧ s'.tree.endIt = ⟨some n, .afterEnd⟩ ∧ s'.store.heap n = none := by
  obtain ⟨_, ⟨⟩, hinc, hrel⟩ := erase_ok comp fuel he
  have hend := (hr.endIt_eq hn).2
  have hstay := erase_endStays comp fuel ⟨some n, .valid⟩ s (by rw [hend])
  rw [he] at hstay
  exact ⟨(BstreeIterator.incrTo_last hr.hangs hr.nodup hn).eq_of_increment hinc, hstay.trans hend,
    hrel⟩

theorem fortyTwentyTenThirty_erase_max :
    RepOk stdLess fortyTwentyTenThirty fortyTwentyShape ∧ fortyTwentyShape.ptrs.getLast? = some 0 ∧
      ∃ r s', erase stdLess 20 ⟨some 0, .valid⟩ fortyTwentyTenThirty = (.ok r, s') ∧
        r = ⟨some 0, .afterEnd⟩ ∧ s'.tree.endIt = ⟨some 0, .afterEnd⟩ ∧ s'.store.heap 0 = none :=
  have he : erase stdLess 20 ⟨some 0, .valid⟩ fortyTwentyTenThirty =
      (.ok ⟨some 0, .afterEnd⟩, fortyTwentyTenThirty.after (erase stdLess 20 ⟨some 0, .valid⟩)) := rfl
  ⟨fortyTwentyTenThirty_repOk, rfl, _, _, he,
    erase_max_leaves_released stdLess 20 fortyTwentyTenThirty_repOk rfl he⟩

theorem promote_self_parent {n c : Ptr} {nd : Node α} {u : Unit} {s s' : State α}
    (hroot : s.tree.treeRoot ≠ some n) (h : promote n nd (some c) s = (.ok u, s')) :
    (s'.store.heap c).map Node.parent = some (some c) := by
  rw [promote, getTree_bind, if_neg hroot] at h
  obtain ⟨pn, _, hr, h₁⟩ := bind_eq_ok.mp h
  rw [readNode_apply] at hr
  obtain ⟨-, rfl⟩ := Prod.mk.inj_iff.mp hr
  obtain ⟨_, s₂, hset, h₂⟩ := bind_eq_ok.mp h₁
  obtain ⟨p, x, hp, -, he⟩ := writeNode_eq_ok hset
  obtain ⟨pn', _, hr', h₃⟩ := bind_eq_ok.mp h₂
  rw [readNode_apply] at hr'
  obtain ⟨hpn', rfl⟩ := Prod.mk.inj_iff.mp hr'
  rw [hp, he, deref_some (Heap.write_self _ _ _)] at hpn'
  cases hpn'
  obtain ⟨_, _, ⟨⟩, -, he'⟩ := writeNode_eq_ok h₃
  simp [he']

theorem graft_parents {promoted : Option Ptr} {o : Ptr} {u : Unit} {s s' : State α}
    (h : graft comp fuel promoted (some o) s = (.ok u, s')) {x : Ptr} (hx : x ≠ o) :
    (s'.store.heap x).map Node.parent = (s.store.heap x).map Node.parent := by
  obtain ⟨_, _, hit, h₁⟩ := bind_eq_ok.mp h
  obtain ⟨-, rfl⟩ := ptrOf_eq_ok.mp hit
  obtain ⟨_, _, hin, h₂⟩ := bind_eq_ok.mp h₁
  obtain ⟨-, rfl⟩ := ptrOf_eq_ok.mp hin
  obtain ⟨_, _, ⟨⟩, h₃⟩ := bind_eq_ok.mp h₂
  obtain ⟨⟨d, slot⟩, _, hl, h₄⟩ := bind_eq_ok.mp h₃
  obtain ⟨-, rfl⟩ := liftE_eq_ok.mp hl
  obtain ⟨_, _, hc, hp⟩ := bind_eq_ok.mp h₄
  rw [setParent_other hp hx, setChild_parents hc]

theorem erase_at_ok {s s' : State α} {n : Ptr} {nd : Node α} {it : BstreeIterator}
    (hn : s.store.heap n = some nd) (he : erase comp fuel ⟨some n, .valid⟩ s = (.ok it, s')) :
    ∃ u s₁, unlinkNode comp fuel n nd s = (.ok u, s₁) ∧
      s'.store.heap = s₁.store.heap.write n none := by
  rw [erase, ptrOf, pure_bind, getHeap_bind] at he
  obtain ⟨_, s₃, hinc, h₃⟩ := bind_eq_ok.mp he
  obtain ⟨-, hs₃⟩ := liftE_eq_ok.mp hinc
  subst s₃
  rw [readNode_bind_of hn] at h₃
  obtain ⟨u, s₁, hun, h₅⟩ := bind_eq_ok.mp h₃
  obtain ⟨_, s₆, hm, h₆⟩ := bind_eq_ok.mp h₅
  rw [modifyTree_apply] at hm
  obtain ⟨-, hs₆⟩ := Prod.mk.inj_iff.mp hm
  subst s₆
  obtain ⟨_, s₇, hdel, hpure⟩ := bind_eq_ok.mp h₆
  obtain ⟨-, hs₇⟩ := Prod.mk.inj_iff.mp hpure
  subst s₇
  exact ⟨u, s₁, hun, by rw [deallocate_heap hdel]⟩

theorem erase_promoted_self_parent {s s' : State α} {n l r : Ptr} {nd : Node α}
    {it : BstreeIterator} (hn : s.store.heap n = some nd) (hl : nd.left = some l)
    (hr : nd.right = some r) (hlr : l ≠ r) (hnl : n ≠ l) (hnr : n ≠ r)
    (hroot : s.tree.treeRoot ≠ some n)
    (he : erase comp fuel ⟨some n, .valid⟩ s = (.ok it, s')) :
    let c := if s.tree.treeSize % 2 = 0 then l else r
    (s'.store.heap c).map Node.parent = some (some c) := by
  obtain ⟨_, _, hun, hfin⟩ := erase_at_ok comp fuel hn he
  simp only [unlinkNode, hl, hr] at hun
  rw [eraseTwoChildren, getTree_bind] at hun
  obtain ⟨_, _, hpro, hgr⟩ := bind_eq_ok.mp hun
  intro c
  rw [hfin]
  by_cases hpar : s.tree.treeSize % 2 = 0
  · simp only [beq_iff_eq, hpar, c, hl, hr, if_true] at hpro hgr ⊢
    rw [Heap.write_ne _ _ (Ne.symm hnl)]
    exact (graft_parents comp fuel hgr hlr).trans (promote_self_parent hroot hpro)
  · simp only [beq_iff_eq, hpar, c, hl, hr, if_false] at hpro hgr ⊢
    rw [Heap.write_ne _ _ (Ne.symm hnr)]
    exact (graft_parents comp fuel hgr (Ne.symm hlr)).trans (promote_self_parent hroot hpro)

/-- Hence on every tree that satisfies the invariant, erasing a node with two children that is
not the root, when it returns, leaves the promoted child its own parent. -/
theorem repOk_erase_self_parent {s s' : State α} {t : Shape} {n l r : Ptr} {nd : Node α}
    {it : BstreeIterator} (hrep : RepOk comp s t) (hn : n ∈ t.ptrs) (hroot : t.rootPtr ≠ some n)
    (hc : s.store.heap n = some nd) (hl : nd.left = some l) (hr : nd.right = some r)
    (he : erase comp fuel ⟨some n, .valid⟩ s = (.ok it, s')) :
    let c := if s.tree.treeSize % 2 = 0 then l else r
    (s'.store.heap c).map Node.parent = some (some c) :=
  have hd := hrep.hangs.children_ne hrep.nodup hn hc hl hr
  erase_promoted_self_parent comp fuel hc hl hr hd.1 hd.2.1 hd.2.2 (hrep.root ▸ hroot) he

theorem fortyTwentyTenThirty_erase_twenty_self_parent :
    RepOk stdLess fortyTwentyTenThirty fortyTwentyShape ∧ 1 ∈ fortyTwentyShape.ptrs ∧
      fortyTwentyShape.rootPtr ≠ some 1 ∧
      fortyTwentyTenThirty.store.heap 1 = some ⟨20, some 2, some 3, some 0⟩ ∧
      ∃ it s', erase stdLess 20 ⟨some 1, .valid⟩ fortyTwentyTenThirty = (.ok it, s') ∧
        let c := if fortyTwentyTenThirty.tree.treeSize % 2 = 0 then 2 else 3
        (s'.store.heap c).map Node.parent = some (some c) :=
  have hc : fortyTwentyTenThirty.store.heap 1 = some ⟨20, some 2, some 3, some 0⟩ := rfl
  have he : erase stdLess 20 ⟨some 1, .valid⟩ fortyTwentyTenThirty =
      (.ok ⟨some 3, .valid⟩, fortyTwentyTenThirty.after (erase stdLess 20 ⟨some 1, .valid⟩)) := rfl
  ⟨fortyTwentyTenThirty_repOk, by decide, by decide, hc, _, _, he,
    repOk_erase_self_parent stdLess 20 fortyTwentyTenThirty_repOk (by decide) (by decide) hc rfl rfl he⟩

/-- `insert (2)` then `insert (1)`: the root `2` is the maximum and has a left child. -/
def insertTwoOne : State Nat :=
  (State.empty.after (insert stdLess 20 2)).after (insert stdLess 20 1)

/-- One round of `for (auto it = first; it != last; ++it) (void) this->erase (it);` -/
def eraseRangeStep (last it : BstreeIterator) : Method α (BstreeIterator ⊕ Unit) := do
  if it.equal last then pure (.inr ())
  else
    let _ ← erase comp fuel it
    pure (.inl (← liftE (BstreeIterator.increment (← getHeap) fuel it)))

/-- `erase (first, last)`. -/
def eraseRange (first last : BstreeIterator) : Method α BstreeIterator := do
  loopM (eraseRangeStep comp fuel last) fuel first
  pure last

/-- `++it` runs after `erase (it)` has released the node at `it`, and reads it: from a valid
`first` other than `last`, `erase (first, last)` never returns, whatever the tree. -/
theorem eraseRange_nonempty_never_returns {first last : BstreeIterator}
    (hv : first.state = .valid) (hne : first.equal last = false) (s : State α) :
    ∃ e, (eraseRange comp fuel first last s).1 = .error e := by
  rcases hres : eraseRange comp fuel first last s with ⟨e | r, s'⟩
  · exact ⟨e, rfl⟩
  exfalso
  obtain ⟨_, _, hloop, -⟩ := bind_eq_ok.mp hres
  cases fuel with
  | zero => cases hloop
  | succ k =>
    obtain ⟨_, _, hstep, -⟩ := bind_eq_ok.mp hloop
    rw [eraseRangeStep, if_neg (by simp [hne])] at hstep
    obtain ⟨_, s₂, herase, h₂⟩ := bind_eq_ok.mp hstep
    obtain ⟨n, hn, -, hrel⟩ := erase_ok comp _ herase
    rw [getHeap_bind] at h₂
    obtain ⟨_, _, hinc, -⟩ := bind_eq_ok.mp h₂
    rcases first with ⟨_, st⟩
    cases hn
    cases hv
    rw [liftE_apply, BstreeIterator.increment] at hinc
    simp only [deref, hrel] at hinc
    cases hinc

theorem twoOne_eraseRange_faults :
    RepOk stdLess insertTwoOne (.node (.node .leaf 1 .leaf) 0 .leaf) ∧
      insertTwoOne.tree.beginIt = ⟨some 1, .valid⟩ ∧ insertTwoOne.tree.endIt = ⟨some 0, .afterEnd⟩ ∧
      (∃ e, (eraseRange stdLess 20 ⟨some 1, .valid⟩ ⟨some 0, .afterEnd⟩ insertTwoOne).1 = .error e) ∧
      (eraseRange stdLess 20 ⟨some 1, .valid⟩ ⟨some 0, .afterEnd⟩ insertTwoOne).1 = .error .undefined :=
  ⟨⟨⟨⟨2, by decide⟩, ⟨⟨1, by decide⟩, trivial, trivial⟩, trivial⟩, by decide, by decide, by decide,
    by decide, by decide⟩, by decide, by decide,
    eraseRange_nonempty_never_returns stdLess 20 (by rfl) (by rfl) insertTwoOne, by decide⟩

/-- `erase (key)`: the descent starts at the root without checking for an empty tree. -/
def eraseKey (key : α) : Method α Nat := do
  match ← descend comp fuel key with
  | .found n => do
    let _ ← erase comp fuel ⟨some n, .valid⟩
    pure 1
  | .vacant _ _ => pure 0

/-- `erase (key)` starts its descent at the root without the `empty ()` test that `count` and
`find_impl` make: on every empty tree it dereferences the null root. -/
theorem eraseKey_empty_derefs_null {s : State α} (hr : RepOk comp s .leaf) (key : α) :
    (eraseKey comp fuel key s).1 = .error .undefined := by
  simp [eraseKey, descend, getTree_bind, hr.root, ptrOf]

theorem empty_eraseKey_derefs_null :
    RepOk stdLess (State.empty : State Nat) .leaf ∧
      (eraseKey stdLess 20 0 State.empty).1 = .error .undefined :=
  ⟨State.empty_repOk stdLess, eraseKey_empty_derefs_null stdLess 20 (State.empty_repOk stdLess) 0⟩

end Bstree
end Dsa

namespace Dsa
namespace Bstree

/-- `insert` 1, 3, 2, 4 on an empty `bstree <int>`: the node of `3` has two children and the
root as parent. -/
def insertOneThreeTwoFour : State Nat :=
  (((State.empty.after (insert stdLess 20 1)).after (insert stdLess 20 3)).after
    (insert stdLess 20 2)).after (insert stdLess 20 4)

def eraseThree : State Nat := insertOneThreeTwoFour.after (eraseKey stdLess 20 3)

/-- The size is even, so the left child `2` is promoted into the root's right link, and
`n->left->parent = *branch` makes it its own parent. -/
theorem eraseThree_self_parent :
    (eraseKey stdLess 20 3 insertOneThreeTwoFour).1 = .ok 1 ∧
      eraseThree.store.heap 0 = some ⟨1, none, some 2, none⟩ ∧
      eraseThree.store.heap 2 = some ⟨2, none, some 3, some 2⟩ := by
  decide

/-- `erase (2)` next: node `2` takes itself for its parent, finds itself in neither of its own
child links and so unlinks nothing; the root's right link is left on the released cell. -/
def eraseThreeTwo : State Nat := eraseThree.after (eraseKey stdLess 20 2)

theorem eraseThreeTwo_dangling_link :
    (eraseKey stdLess 20 2 eraseThree).1 = .ok 1 ∧ eraseThreeTwo.tree.treeSize = 2 ∧
      eraseThreeTwo.tree.treeRoot = some 0 ∧
      eraseThreeTwo.store.heap 0 = some ⟨1, none, some 2, none⟩ ∧
      eraseThreeTwo.store.heap 2 = none ∧
      ¬ ∃ t : Shape, Links eraseThreeTwo.store.heap t ∧ t.rootPtr = eraseThreeTwo.tree.treeRoot := by
  have hroot : eraseThreeTwo.tree.treeRoot = some 0 := by decide
  have h0 : eraseThreeTwo.store.heap 0 = some ⟨1, none, some 2, none⟩ := by decide
  have h2 : eraseThreeTwo.store.heap 2 = none := by decide
  refine ⟨by decide, by decide, hroot, h0, h2, ?_⟩
  rintro ⟨_ | ⟨l, p, r⟩, hl, hr⟩
  · simp [hroot] at hr
  · obtain rfl : p = 0 := by simpa [hroot] using hr
    obtain ⟨⟨nd, hnd, -, hright⟩, -, hr⟩ := hl
    obtain rfl : nd = ⟨1, none, some 2, none⟩ := by simpa [h0] using hnd.symm
    cases r with
    | leaf => cases hright
    | node rl rp rr =>
      obtain rfl : rp = 2 := by simpa using hright.symm
      obtain ⟨⟨rnd, hrnd, -⟩, -⟩ := hr
      simp [h2] at hrnd

/-- The tree satisfies the representation invariant, and `erase` at its maximum returns
`++pos` computed beforehand, after-end at the node it then releases; `_end == n` compares an
after-end with a valid iterator, so `_end` is left on the released node too. -/
theorem erase_max_returns_released :
    RepOk stdLess insertTwoOne (.node (.node .leaf 1 .leaf) 0 .leaf) ∧
      (erase stdLess 20 ⟨some 0, .valid⟩ insertTwoOne).1 = .ok ⟨some 0, .afterEnd⟩ ∧
      (insertTwoOne.after (erase stdLess 20 ⟨some 0, .valid⟩)).store.heap 0 = none ∧
      (insertTwoOne.after (erase stdLess 20 ⟨some 0, .valid⟩)).tree =
        ⟨some 1, 1, ⟨some 1, .valid⟩, ⟨some 0, .afterEnd⟩⟩ := by
  refine ⟨⟨?_, by decide, by decide, by decide, by decide, by decide⟩, by decide, by decide, by decide⟩
  exact ⟨⟨2, by decide⟩, ⟨⟨1, by decide⟩, trivial, trivial⟩, trivial⟩

end Bstree
end Dsa
