import Dsa.Bstree.InsertCorrect

/-! # What `tree_delete` releases

The loop of `tree_delete` is read off the shape it walks: from a node it goes down the left
child, then the right one, and at a node with no child left it clears the parent's link to it,
releases it and goes on from the parent (`treeDeleteStep_down`, `treeDeleteStep_up`). For a
subtree hanging under a parent, the loop comes back to the parent with the subtree's cells
released and the parent's link cleared (`deletesBelow_of_hangs`); from the root it ends with
exactly the tree's cells released (`treeDelete_correct`), and `clear` leaves that memory with the
members of an empty tree (`clear_run`).
-/
namespace Dsa
namespace Bstree
variable {α : Type}

theorem treeDeleteStep_down {h : Heap α} {n u : Ptr} {nd : Node α} (d : Dir) (hn : h n = some nd)
    (hu : nd.child d = some u) (hleft : d = .right → nd.left = none) :
    treeDeleteStep (h, n) = .ok (.inl (h, u)) := by
  cases d with
  | left =>
    simp only [Node.child_left] at hu
    simp [treeDeleteStep, deref_some hn, hu]
  | right =>
    simp only [Node.child_right] at hu
    simp [treeDeleteStep, deref_some hn, hu, hleft rfl]

theorem treeDeleteStep_up {h : Heap α} {n p : Ptr} {nd pn : Node α} (d : Dir) (hn : h n = some nd)
    (hl : nd.left = none) (hr : nd.right = none) (hp : nd.parent = some p) (hpn : h p = some pn)
    (hpd : pn.child d = some n) (hpl : d = .right → pn.left ≠ some n) :
    treeDeleteStep (h, n) =
      .ok (.inl ((h.write p (some (pn.setChild d none))).write n none, p)) := by
  cases d with
  | left =>
    simp only [Node.child_left] at hpd
    simp [treeDeleteStep, deref_some hn, deref_some hpn, hl, hr, hp, hpd]
  | right =>
    simp only [Node.child_right] at hpd
    simp [treeDeleteStep, deref_some hn, deref_some hpn, hl, hr, hp, hpd, hpl rfl]

theorem treeDeleteStep_root {h : Heap α} {n : Ptr} {nd : Node α} (hn : h n = some nd)
    (hl : nd.left = none) (hr : nd.right = none) (hp : nd.parent = none) :
    treeDeleteStep (h, n) = .ok (.inr (h.write n none)) := by
  simp [treeDeleteStep, deref_some hn, hl, hr, hp]

variable (α) in
/-- The loop from the root `c` of a subtree `t` hanging under `p`, whose link on side `d` is
`c`: it comes back to `p` with `t`'s cells released, `p`'s link cleared and nothing else
changed. -/
def DeletesBelow (t : Shape) (p : Ptr) : Prop :=
  ∀ {h : Heap α} {c : Ptr} {pn : Node α} (d : Dir), Hangs h (some p) t → t.rootPtr = some c →
    t.ptrs.Nodup → p ∉ t.ptrs → h p = some pn → pn.child d = some c →
    (d = .right → pn.left ≠ some c) →
    ∃ h', Relation.ReflTransGen (Continues treeDeleteStep) (h, c) (h', p) ∧
      (∀ x ∈ t.ptrs, h' x = none) ∧ (∀ x, x ∉ t.ptrs → x ≠ p → h' x = h x) ∧
      h' p = some (pn.setChild d none)

theorem delete_child {h : Heap α} {u : Shape} {c : Ptr} {cn : Node α} (d : Dir)
    (hw : DeletesBelow α u c) (hu : Hangs h (some c) u) (hnd : u.ptrs.Nodup) (hcu : c ∉ u.ptrs)
    (hc : h c = some cn) (hcd : cn.child d = u.rootPtr) (hleft : d = .right → cn.left = none) :
    ∃ h', Relation.ReflTransGen (Continues treeDeleteStep) (h, c) (h', c) ∧
      (∀ x ∈ u.ptrs, h' x = none) ∧ (∀ x, x ∉ u.ptrs → x ≠ c → h' x = h x) ∧
      h' c = some (cn.setChild d none) := by
  cases u with
  | leaf =>
    rw [Shape.rootPtr_leaf] at hcd
    exact ⟨h, .refl, by simp, fun _ _ _ => rfl, by rw [hc, ← hcd, Node.setChild_child]⟩
  | node ul uc ur =>
    obtain ⟨h', hch, hfree, hframe, hc'⟩ := hw d hu rfl hnd hcu hc hcd fun e => by simp [hleft e]
    exact ⟨h', .head (treeDeleteStep_down d hc hcd hleft) hch, hfree, hframe, hc'⟩

theorem delete_children {h : Heap α} {l r : Shape} {c : Ptr} {up : Option Ptr}
    (hwl : DeletesBelow α l c) (hwr : DeletesBelow α r c) (ht : Hangs h up (.node l c r))
    (hnd : (Shape.node l c r).ptrs.Nodup) :
    ∃ h' v, Relation.ReflTransGen (Continues treeDeleteStep) (h, c) (h', c) ∧
      h' c = some ⟨v, none, none, up⟩ ∧ (∀ x ∈ l.ptrs ++ r.ptrs, h' x = none) ∧
      ∀ x, x ∉ (Shape.node l c r).ptrs → h' x = h x := by
  obtain ⟨⟨v, hv⟩, hl, hr⟩ := ht
  have hnd' := List.nodup_append.mp hnd
  have hcr := List.nodup_cons.mp hnd'.2.1
  have hcl : c ∉ l.ptrs := fun hc => hnd'.2.2 hc (List.mem_cons_self _ _)
  obtain ⟨h1, hch1, hfree1, hframe1, hc1⟩ := delete_child .left hwl hl hnd'.1 hcl hv rfl (by simp)
  have hr1 : Hangs h1 (some c) r := hr.frame fun x hx =>
    hframe1 x (fun hxl => hnd'.2.2 hxl (List.mem_cons_of_mem _ hx)) fun e => hcr.1 (e ▸ hx)
  obtain ⟨h2, hch2, hfree2, hframe2, hc2⟩ :=
    delete_child .right hwr hr1 hcr.2 hcr.1 hc1 rfl fun _ => rfl
  refine ⟨h2, v, hch1.trans hch2, hc2, fun x hx => ?_, fun x hx => ?_⟩
  · rcases List.mem_append.mp hx with hx | hx
    · rw [hframe2 x (fun hxr => hnd'.2.2 hx (List.mem_cons_of_mem _ hxr))
        fun e => hcl (e ▸ hx), hfree1 x hx]
    · exact hfree2 x hx
  · simp only [Shape.ptrs_node, List.mem_append, List.mem_cons, not_or] at hx
    rw [hframe2 x hx.2.2 hx.2.1, hframe1 x hx.1 hx.2.1]

/-- From the root of any subtree with exact links and no node twice, hanging under `p`, the loop
releases the subtree and comes back to `p`. -/
theorem deletesBelow_of_hangs (t : Shape) : ∀ p, DeletesBelow α t p := by
  induction t with
  | leaf => intro _ _ _ _ _ _ hc; cases hc
  | node l c r ihl ihr =>
    intro p h c' pn d ht hc hnd hp hpn hpd hpl
    cases hc
    obtain ⟨h2, v, hch, hc2, hfree, hframe⟩ := delete_children (ihl c) (ihr c) ht hnd
    have hpc : p ≠ c := fun e => hp (by simp [e])
    have hp2 : h2 p = some pn := (hframe p hp).trans hpn
    refine ⟨_, hch.tail (treeDeleteStep_up d hc2 rfl rfl rfl hp2 hpd hpl), fun x hx => ?_,
      fun x hx hxp => ?_, by rw [Heap.write_ne _ _ hpc, Heap.write_self]⟩
    · by_cases hxc : x = c
      · rw [hxc, Heap.write_self]
      · have hx' : x ∈ l.ptrs ++ r.ptrs := by simpa [hxc] using hx
        rw [Heap.write_ne _ _ hxc, Heap.write_ne _ _ (show x ≠ p from fun e => hp (e ▸ hx)),
          hfree x hx']
    · have hxc : x ≠ c := fun e => hx (by simp [e])
      rw [Heap.write_ne _ _ hxc, Heap.write_ne _ _ hxp, hframe x hx]

theorem loop_treeDeleteStep_root {h : Heap α} {T : Shape} {root : Ptr} (hT : Hangs h none T)
    (hroot : T.rootPtr = some root) (hnd : T.ptrs.Nodup) :
    ∃ N, ∀ fuel, N ≤ fuel → loop treeDeleteStep fuel (h, root) =
      .ok fun x => if x ∈ T.ptrs then none else h x := by
  cases T with
  | leaf => cases hroot
  | node l root r =>
    cases hroot
    obtain ⟨h2, v, hch, hc2, hfree, hframe⟩ :=
      delete_children (deletesBelow_of_hangs l root) (deletesBelow_of_hangs r root) hT hnd
    obtain ⟨N, hN⟩ := (Reaches.of_chain hch (.done (treeDeleteStep_root hc2 rfl rfl rfl))).loop_eq
    refine ⟨N, fun fuel hf => (hN fuel hf).trans (congrArg _ (funext fun x => ?_))⟩
    by_cases hxc : x = root
    · simp [hxc]
    · rw [Heap.write_ne _ _ hxc]
      by_cases hx : x ∈ (Shape.node l root r).ptrs
      · rw [if_pos hx, hfree x (by simpa [hxc] using hx)]
      · rw [if_neg hx, hframe x hx]

/-- `tree_delete (root)` on a tree with exact links, a null root parent and no node twice: from
some loop bound on it returns, with exactly the tree's nodes released and every other cell as
it was. -/
theorem treeDelete_correct {s : State α} {T : Shape} {root : Ptr} (hT : Hangs s.store.heap none T)
    (hroot : T.rootPtr = some root) (hnd : T.ptrs.Nodup) :
    ∃ N, ∀ fuel, N ≤ fuel → treeDelete fuel (some root) s =
      (.ok (), { s with store := { s.store with
        heap := fun x => if x ∈ T.ptrs then none else s.store.heap x } }) := by
  obtain ⟨N, hN⟩ := loop_treeDeleteStep_root hT hroot hnd
  refine ⟨N, fun fuel hf => ?_⟩
  simp only [treeDelete, bind_apply, getHeap_apply, liftE_apply, hN fuel hf]
  rfl

theorem treeDelete_fortyTwenty :
    ∃ N, ∀ fuel, N ≤ fuel → treeDelete fuel (some 0) fortyTwentyTenThirty =
      (.ok (), { fortyTwentyTenThirty with store := { fortyTwentyTenThirty.store with
        heap := fun x => if x ∈ fortyTwentyShape.ptrs then none
          else fortyTwentyTenThirty.store.heap x } }) :=
  treeDelete_correct fortyTwentyTenThirty_repOk.hangs rfl (by decide)

/-- `clear` on a tree with exact links, a null root parent and no node twice: from some loop
bound on it returns, with exactly the tree's nodes released and the members those of an empty
tree. -/
theorem clear_run {s : State α} {T : Shape} (hT : Hangs s.store.heap none T)
    (hroot : s.tree.treeRoot = T.rootPtr) (hnd : T.ptrs.Nodup) :
    ∃ N, ∀ fuel, N ≤ fuel → clear fuel s =
      (.ok (), ⟨{ s.store with heap := fun x => if x ∈ T.ptrs then none else s.store.heap x },
        Bstree.empty⟩) := by
  cases T with
  | leaf =>
    refine ⟨0, fun fuel _ => ?_⟩
    simp only [clear, resetRoot, bind_apply, modifyTree_apply, getTree_apply, hroot, treeDelete,
      pure_apply, Shape.rootPtr_leaf]
    simp [Shape.ptrs]
    rfl
  | node l p r =>
    obtain ⟨N, hN⟩ := loop_treeDeleteStep_root hT rfl hnd
    refine ⟨N, fun fuel hf => ?_⟩
    simp only [clear, resetRoot, bind_apply, modifyTree_apply, getTree_apply, hroot, treeDelete,
      Shape.rootPtr_node, getHeap_apply, liftE_apply, hN fuel hf]
    rfl

end Bstree
end Dsa
