import Dsa.Bstree.EraseCorrect

/-! # `operator--` where it returns

At a valid node `--` has three branches: down the left subtree's right spine, up to the parent
of a right child, and the ascent loop, which has no exit (`ascendLeft_diverges`). On a node graph
that realises a shape with exact parent links the first two return the previous node in order
(`decrement_returns_predecessor`): the last node of the left subtree, or the parent, which comes
just before a right child without a left subtree. The node's position in the shape is read off
a `Shape.Path`.
-/
namespace Dsa
namespace Shape.Path

theorem before_of_side_right {c : Path} (hc : c.side = .right) {q : Ptr} (hq : c.parent = some q) :
    ∃ pre, c.before = pre ++ [q] := by
  cases c with
  | root => cases hq
  | left c p r => cases hc
  | right c l p =>
    cases hq
    exact ⟨c.before ++ l.ptrs, by simp [before]⟩

end Shape.Path

namespace BstreeIterator
variable {α : Type} {h : Heap α}

theorem spine_right_reaches {up : Option Ptr} :
    ∀ {s : Shape}, Hangs h up s → ∀ {q a : Ptr}, s.rootPtr = some q → s.ptrs.getLast? = some a →
      Reaches (spine h .right) q a
  | .leaf, _, _, _, hq, _ => by cases hq
  | .node l p r, ⟨⟨v, hv⟩, _, hr⟩, q, a, hq, ha => by
    cases hq
    cases r with
    | leaf =>
      obtain rfl : p = a := by simpa using ha
      exact .done (by simp [spine, deref_some hv])
    | node rl rp rr =>
      refine .step (by simp [spine, deref_some hv]) (spine_right_reaches hr rfl ?_)
      simpa only [Shape.ptrs_node, ← List.cons_append, ← List.append_assoc, List.getLast?_append_cons]
        using ha

open Shape in
/-- `operator--` where the code is right, on a node graph that realises `t` with exact parent
links: at a node with a left subtree, or at a node that is its parent's right child, it returns
the valid iterator at the previous node in order, from some loop bound on. -/
theorem decrement_returns_predecessor {t : Shape} (ht : Hangs h none t) (hnd : t.ptrs.Nodup)
    {n : Ptr} {nd : Node α} (hn : n ∈ t.ptrs) (hc : h n = some nd)
    (hok : nd.left ≠ none ∨ ∃ p pn, nd.parent = some p ∧ h p = some pn ∧ pn.right = some n) :
    ∃ m, Adjacent t.ptrs m n ∧
      ∃ N, ∀ fuel, N ≤ fuel → decrement h fuel ⟨some n, .valid⟩ = .ok ⟨some m, .valid⟩ := by
  obtain ⟨c, l, r, hT⟩ := Path.exists_plug .root hn
  have hT : t = c.plug (.node l n r) := hT
  subst hT
  obtain ⟨hc', ⟨v, hv⟩, hl, -⟩ := Path.hangs_plug.mp ht
  obtain rfl : nd = _ := Option.some.inj (hc.symm.trans hv)
  cases hlq : l.rootPtr with
  | some lq =>
    -- down the left subtree's right spine, to the last node of the left subtree
    obtain ⟨m, hm⟩ := Option.ne_none_iff_exists'.mp
      (mt List.getLast?_eq_none_iff.mp (List.ne_nil_of_mem (rootPtr_mem hlq)))
    obtain ⟨init, hinit⟩ := List.getLast?_eq_some_iff.mp hm
    obtain ⟨N, hN⟩ := (spine_right_reaches hl hlq hm).loop_eq
    refine ⟨m, ⟨c.before ++ init, r.ptrs ++ c.after, ?_⟩, N, fun fuel hf => ?_⟩
    · simp [Path.ptrs_plug_node, hinit]
    · simp [decrement, deref_some hv, hlq, hN fuel hf]
  | none =>
    -- up to the parent of a right child, which comes right before it
    obtain ⟨p, pn, hpar, hp, hpr⟩ := hok.resolve_left (by simpa using hlq)
    replace hpar : c.parent = some p := hpar
    obtain rfl : l = .leaf := rootPtr_eq_none_iff.mp hlq
    obtain ⟨qn, hqn, hside, -⟩ := hc'.parent_cell hpar
    obtain rfl : qn = pn := Option.some.inj (hqn.symm.trans hp)
    have hright : c.side = .right := by
      cases hs : c.side with
      | right => rfl
      | left =>
        obtain ⟨q, hq, hqc⟩ := Path.parent_some (c := c) fun h0 => by subst h0; cases hpar
        obtain rfl : q = p := Option.some.inj (hq.symm.trans hpar)
        rw [hs, Node.child_left] at hside
        exact absurd rfl (ht.children_ne hnd (Path.mem_plug_of_frame hqc) hp hside hpr).1
    obtain ⟨pre, hpre⟩ := Path.before_of_side_right hright hpar
    refine ⟨p, ⟨pre, r.ptrs ++ c.after, ?_⟩, 0, fun fuel _ => ?_⟩
    · simp [Path.ptrs_plug_node, hpre]
    · simp [decrement, deref_some hv, hpar, deref_some hp, hpr]

theorem threeNodes_decrement_right :
    Hangs threeNodes none threeShape ∧ threeShape.ptrs.Nodup ∧ 2 ∈ threeShape.ptrs ∧
      threeNodes 2 = some ⟨3, none, none, some 0⟩ ∧
      ∃ m, Adjacent threeShape.ptrs m 2 ∧ ∃ N, ∀ fuel, N ≤ fuel →
        decrement threeNodes fuel ⟨some 2, .valid⟩ = .ok ⟨some m, .valid⟩ :=
  have hh : Hangs threeNodes none threeShape :=
    ⟨⟨2, rfl⟩, ⟨⟨1, rfl⟩, trivial, trivial⟩, ⟨⟨3, rfl⟩, trivial, trivial⟩⟩
  ⟨hh, by decide, by decide, rfl, decrement_returns_predecessor hh (by decide) (by decide) rfl
    (.inr ⟨0, _, rfl, rfl, rfl⟩)⟩

end BstreeIterator
end Dsa
