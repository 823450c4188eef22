import Dsa.Bstree.Iterator
import Dsa.Bstree.Shape

/-! # `operator++`, `operator--` and traversal

On a node graph that realises a shape with exact parent links, `++` at a node returns the
next node in order, or falls off the end at the last node, and it does so from some loop
bound on. The proof follows the shape: the successor lies down the right subtree's left
spine, or up the chain of right-child links. `Visits` is the loop
`for (it = first; it != last; ++it)`. The ascent of `--` has no exit, and every node
without a left subtree that is not a right child runs into it.
-/
namespace Dsa
namespace BstreeIterator
variable {α : Type} {h : Heap α}

/-- What `++` at `n` is meant to return: the next node in order, valid, or after-end at
`n` when `n` is the last. -/
def successorIn (xs : List Ptr) (n : Ptr) : BstreeIterator :=
  match nextAfter n xs with
  | some m => ⟨some m, .valid⟩
  | none => ⟨some n, .afterEnd⟩

/-- `++it` returns `it'` from some loop bound on. -/
def IncrTo (h : Heap α) (it it' : BstreeIterator) : Prop :=
  ∃ N, ∀ fuel, N ≤ fuel → increment h fuel it = .ok it'

theorem IncrTo.unique {it a b : BstreeIterator} (ha : IncrTo h it a) (hb : IncrTo h it b) :
    a = b := by
  obtain ⟨N, hN⟩ := ha
  obtain ⟨M, hM⟩ := hb
  simpa [hN (max N M) (le_max_left N M)] using hM (max N M) (le_max_right N M)

theorem incrTo_self_of_not_valid {it : BstreeIterator} (hs : it.state ≠ .valid) : IncrTo h it it :=
  ⟨0, fun fuel _ => increment_of_not_valid h fuel hs⟩

theorem spine_left_reaches {up : Option Ptr} :
    ∀ {s : Shape}, Hangs h up s → ∀ {q a : Ptr}, s.rootPtr = some q → s.ptrs.head? = some a →
      Reaches (spine h .left) q a
  | .leaf, _, _, _, hq, _ => by cases hq
  | .node l p r, ⟨⟨v, hv⟩, hl, _⟩, q, a, hq, ha => by
    cases hq
    cases l with
    | leaf =>
      obtain rfl : p = a := by simpa using ha
      exact .done (by simp [spine, deref_some hv])
    | node ll lp lr =>
      refine .step (by simp [spine, deref_some hv]) (spine_left_reaches hl rfl ?_)
      simpa [List.head?_append] using ha

theorem incrTo_of_right {n r m : Ptr} {nd : Node α} (hn : h n = some nd) (hr : nd.right = some r)
    (hm : Reaches (spine h .left) r m) : IncrTo h ⟨some n, .valid⟩ ⟨some m, .valid⟩ := by
  obtain ⟨N, hN⟩ := hm.loop_eq
  exact ⟨N, fun fuel hf => by simp [increment, deref_some hn, hr, hN fuel hf]⟩

/-- Without a right child, `++` is the ascent loop started at `n` itself: the code unrolls
its first round. -/
theorem increment_eq_ascent {n : Ptr} {nd : Node α} (hn : h n = some nd) (hr : nd.right = none)
    (fuel : Nat) :
    increment h fuel ⟨some n, .valid⟩ = loop (ascendRight h ⟨some n, .valid⟩ n) (fuel + 1) n := by
  simp only [increment, loop, ascendRight, deref_some hn, except_ok_bind, hr]
  cases hp : nd.parent with
  | none => rfl
  | some p =>
    cases hq : h p with
    | none => simp [deref, hq]
    | some pn => by_cases hl : pn.left = some n <;> simp [deref_some hq, hl]

theorem incrTo_of_climb {n : Ptr} {nd : Node α} {x : BstreeIterator} (hn : h n = some nd)
    (hr : nd.right = none) (hx : Reaches (ascendRight h ⟨some n, .valid⟩ n) n x) :
    IncrTo h ⟨some n, .valid⟩ x :=
  let ⟨N, hN⟩ := hx.loop_eq
  ⟨N, fun fuel hf => (increment_eq_ascent hn hr fuel).trans (hN _ (by omega))⟩

/-- The induction over a subtree hanging at `up`: neighbours in order are one `++` apart,
and `++` at the last node of the subtree does what the ascent does from its root. -/
theorem incrTo_shape :
    ∀ {s : Shape} {up : Option Ptr}, Hangs h up s → s.ptrs.Nodup →
      (∀ n m, Adjacent s.ptrs n m → IncrTo h ⟨some n, .valid⟩ ⟨some m, .valid⟩) ∧
      (∀ n q x, s.ptrs.getLast? = some n → s.rootPtr = some q →
        Reaches (ascendRight h ⟨some n, .valid⟩ n) q x → IncrTo h ⟨some n, .valid⟩ x)
  | .leaf, _, _, _ => ⟨fun _ _ ⟨pre, post, e⟩ => by simp at e, fun _ _ _ hn => by simp at hn⟩
  | .node l p r, up, ⟨⟨v, hv⟩, hl, hr⟩, hnd => by
    have hnd' := List.nodup_append.mp hnd
    have hlr := incrTo_shape hl hnd'.1
    have hrr := incrTo_shape hr (List.nodup_cons.mp hnd'.2.1).2
    have hpr : p ∉ r.ptrs := (List.nodup_cons.mp hnd'.2.1).1
    constructor
    · intro n m hnm
      rcases adjacent_append_cons.mp hnm with h1 | ⟨hlast, rfl⟩ | ⟨rfl, hhead⟩ | h1
      · exact hlr.1 n m h1
      · cases l with
        | leaf => simp at hlast
        | node ll lq lr =>
          obtain ⟨⟨w, hw⟩, -, -⟩ := hl
          exact hlr.2 n lq _ hlast rfl
            (.done (by simp [ascendRight, deref_some hw, deref_some hv]))
      · cases hrq : r.rootPtr with
        | none => simp [Shape.rootPtr_eq_none_iff.mp hrq] at hhead
        | some rq => exact incrTo_of_right hv hrq (spine_left_reaches hr hrq hhead)
      · exact hrr.1 n m h1
    · rintro n q x hlast ⟨⟩ hx
      cases r with
      | leaf =>
        obtain rfl : p = n := by simpa using hlast
        exact incrTo_of_climb hv rfl hx
      | node rl rq rr =>
        obtain ⟨⟨w, hw⟩, -, -⟩ := hr
        have hlq : l.rootPtr ≠ some rq := fun e =>
          List.disjoint_of_nodup_append hnd (Shape.rootPtr_mem e) (by simp)
        refine hrr.2 n rq x ?_ rfl (.step ?_ hx)
        · simpa only [Shape.ptrs_node, ← List.cons_append, ← List.append_assoc,
            List.getLast?_append_cons] using hlast
        simp [ascendRight, deref_some hw, deref_some hv, hlq]

theorem incrTo_last {t : Shape} (ht : Hangs h none t) (hnd : t.ptrs.Nodup) {n : Ptr}
    (hlast : t.ptrs.getLast? = some n) : IncrTo h ⟨some n, .valid⟩ ⟨some n, .afterEnd⟩ := by
  cases t with
  | leaf => cases hlast
  | node l q r =>
    obtain ⟨v, hv⟩ := ht.1
    exact (incrTo_shape ht hnd).2 n q _ hlast rfl (.done (by simp [ascendRight, deref_some hv]))

theorem incrTo_successorIn {t : Shape} (ht : Hangs h none t) (hnd : t.ptrs.Nodup) {n : Ptr}
    (hn : n ∈ t.ptrs) : IncrTo h ⟨some n, .valid⟩ (successorIn t.ptrs n) := by
  unfold successorIn
  cases hnext : nextAfter n t.ptrs with
  | some m => exact (incrTo_shape ht hnd).1 n m (adjacent_of_nextAfter hnext)
  | none => exact incrTo_last ht hnd (getLast_of_nextAfter_eq_none hn hnext)

theorem IncrTo.eq_of_increment {it x r : BstreeIterator} (hx : IncrTo h it x) {fuel : Nat}
    (hr : increment h fuel it = .ok r) : r = x := by
  obtain ⟨N, hN⟩ := hx
  have hmax := increment_mono h (le_max_right N fuel) hr
  rw [hN _ (le_max_left N fuel)] at hmax
  exact (Except.ok.inj hmax).symm

/-- `operator++` on a node graph that realises `t` with exact parent links: at any node it
returns the in-order successor, or after-end at that node when it is the last, from some
loop bound on; after-end and invalid iterators are left as they are. -/
theorem increment_returns_successor {t : Shape} (ht : Hangs h none t) (hnd : t.ptrs.Nodup) :
    (∀ n ∈ t.ptrs, ∃ N, ∀ fuel, N ≤ fuel →
        increment h fuel ⟨some n, .valid⟩ = .ok (successorIn t.ptrs n)) ∧
    (∀ fuel (it : BstreeIterator), it.state = .afterEnd ∨ it.state = .invalid →
        increment h fuel it = .ok it) :=
  ⟨fun _ hn => incrTo_successorIn ht hnd hn, fun fuel it hs =>
    increment_of_not_valid h fuel (by rcases hs with hs | hs <;> simp [hs])⟩

/-- Three nodes laid out by hand: `2` at address 0 with children `1` at 1 and `3` at 2. -/
def threeNodes : Heap Nat
  | 0 => some ⟨2, some 1, some 2, none⟩
  | 1 => some ⟨1, none, none, some 0⟩
  | 2 => some ⟨3, none, none, some 0⟩
  | _ => none

def threeShape : Shape := .node (.node .leaf 1 .leaf) 0 (.node .leaf 2 .leaf)

theorem threeNodes_increment_left :
    Hangs threeNodes none threeShape ∧ threeShape.ptrs.Nodup ∧
      ∃ N, ∀ fuel, N ≤ fuel →
        increment threeNodes fuel ⟨some 1, .valid⟩ = .ok (successorIn threeShape.ptrs 1) :=
  have hh : Hangs threeNodes none threeShape :=
    ⟨⟨2, rfl⟩, ⟨⟨1, rfl⟩, trivial, trivial⟩, ⟨⟨3, rfl⟩, trivial, trivial⟩⟩
  have hnd : threeShape.ptrs.Nodup := by decide
  ⟨hh, hnd, (increment_returns_successor hh hnd).1 1 (by decide)⟩

/-- `for (auto it = first; it != last; ++it)` visits the values `ks` and stops; each `++` is
the iterator `increment` returns from some loop bound on. -/
inductive Visits (h : Heap α) (last : BstreeIterator) : BstreeIterator → List α → Prop
  | stop {it} : it.equal last = true → Visits h last it []
  | next {it it' nd ks} : it.equal last = false → deref h it.iter = .ok nd → IncrTo h it it' →
      Visits h last it' ks → Visits h last it (nd.value :: ks)

theorem Visits.not_of_stuck {last it : BstreeIterator} (hfix : IncrTo h it it)
    (hne : it.equal last = false) (ks : List α) : ¬ Visits h last it ks := by
  intro hv
  generalize hi : it = i at hv
  induction hv with
  | stop he => subst hi; simp_all
  | next _ _ hstep _ ih => subst hi; exact ih (hfix.unique hstep)

theorem Visits.eq_nil_of_not_valid {last it : BstreeIterator} {ks : List α}
    (hs : it.state ≠ .valid) (hv : Visits h last it ks) : ks = [] := by
  cases hv with
  | stop _ => rfl
  | next hne _ hstep hrest =>
    obtain rfl := (incrTo_self_of_not_valid hs).unique hstep
    exact absurd hrest (Visits.not_of_stuck (incrTo_self_of_not_valid hs) hne _)

/-- From any node of the shape, iterating up to after-end at the last node visits the value of
that node and of every later one, in order. -/
theorem visits_to_end {t : Shape} (ht : Hangs h none t) (hnd : t.ptrs.Nodup) {m : Ptr}
    (hm : t.ptrs.getLast? = some m) :
    ∀ (rest pre : List Ptr) (a : Ptr), t.ptrs = pre ++ a :: rest →
      Visits h ⟨some m, .afterEnd⟩ ⟨some a, .valid⟩ (valuesAt h (a :: rest))
  | [], pre, a, e => by
    obtain rfl : a = m := by simpa [e] using hm
    obtain ⟨nd, hc, -⟩ := ht.cell (show a ∈ t.ptrs by simp [e])
    rw [valuesAt_cons hc]
    exact .next (by simp) (deref_some hc) (incrTo_last ht hnd hm) (.stop (by simp))
  | b :: rest, pre, a, e => by
    obtain ⟨nd, hc, -⟩ := ht.cell (show a ∈ t.ptrs by simp [e])
    rw [valuesAt_cons hc]
    exact .next (by simp) (deref_some hc) ((incrTo_shape ht hnd).1 a b ⟨pre, rest, e⟩)
      (visits_to_end ht hnd hm rest (pre ++ [a]) b (by simp [e]))

theorem visits_segment {t : Shape} (ht : Hangs h none t) (hnd : t.ptrs.Nodup) {m : Ptr} :
    ∀ (seg pre post : List Ptr) (a : Ptr), t.ptrs = pre ++ a :: (seg ++ m :: post) →
      Visits h ⟨some m, .valid⟩ ⟨some a, .valid⟩ (valuesAt h (a :: seg))
  | seg, pre, post, a, e => by
    obtain ⟨nd, hc, -⟩ := ht.cell (show a ∈ t.ptrs by simp [e])
    have ham : a ≠ m := by
      rintro rfl
      rw [e] at hnd
      exact (List.nodup_cons.mp (List.nodup_append.mp hnd).2.1).1 (by simp)
    rw [valuesAt_cons hc]
    cases seg with
    | nil =>
      exact .next (by simpa using ham) (deref_some hc)
        ((incrTo_shape ht hnd).1 a m ⟨pre, post, e⟩) (.stop (by simp))
    | cons b seg =>
      exact .next (by simpa using ham) (deref_some hc)
        ((incrTo_shape ht hnd).1 a b ⟨pre, seg ++ m :: post, by simpa using e⟩)
        (visits_segment (m := m) ht hnd seg (pre ++ [a]) post b (by simp [e]))

theorem ascendLeft_diverges {t : Shape} (ht : Hangs h none t) :
    ∀ fuel it n self, it ∈ t.ptrs → loop (ascendLeft h) fuel (it, n, self) = .error .diverged := by
  intro fuel it n self hit
  refine loop_diverges (fun i => i.1 ∈ t.ptrs) (fun ⟨it, n, self⟩ hit => ?_) fuel (it, n, self) hit
  obtain ⟨nd, hnd, hup | ⟨q, hq, hpar⟩⟩ := ht.cell hit
  · exact ⟨(it, n, { self with state := .invalid, iter := none }), hit,
      by simp [ascendLeft, deref_some hnd, hup]⟩
  · obtain ⟨qn, hqn, -⟩ := ht.cell hq
    by_cases hr : qn.right = some it
    · exact ⟨(it, q, self), hit, by simp [ascendLeft, deref_some hnd, hpar, deref_some hqn, hr]⟩
    · exact ⟨(q, n, self), hq, by simp [ascendLeft, deref_some hnd, hpar, deref_some hqn, hr]⟩

/-- `operator--` at a node with no left subtree that is not its parent's right child runs
into the ascent loop, which has no exit: it does not return for any loop bound. -/
theorem decrement_diverges {t : Shape} (ht : Hangs h none t) {n p : Ptr} {v : α}
    {r : Option Ptr} {pn : Node α} (hmem : n ∈ t.ptrs) (hn : h n = some ⟨v, none, r, some p⟩)
    (hp : h p = some pn) (hpr : pn.right ≠ some n) (fuel : Nat) :
    decrement h fuel ⟨some n, .valid⟩ = .error .diverged := by
  obtain ⟨nd, hnd, hup | ⟨q, hq, hpar⟩⟩ := ht.cell hmem
  · simp [hn] at hnd; simp [← hnd] at hup
  · obtain rfl : q = p := by simp [hn] at hnd; simp [← hnd] at hpar; exact hpar.symm
    simp [decrement, deref_some hn, deref_some hp, hpr, ascendLeft_diverges ht fuel q n _ hq]

theorem threeNodes_decrement_left :
    Hangs threeNodes none threeShape ∧ 1 ∈ threeShape.ptrs ∧
      threeNodes 1 = some ⟨1, none, none, some 0⟩ ∧ threeNodes 0 = some ⟨2, some 1, some 2, none⟩ ∧
      decrement threeNodes 100 ⟨some 1, .valid⟩ = .error .diverged :=
  have hh : Hangs threeNodes none threeShape :=
    ⟨⟨2, rfl⟩, ⟨⟨1, rfl⟩, trivial, trivial⟩, ⟨⟨3, rfl⟩, trivial, trivial⟩⟩
  ⟨hh, by decide, rfl, rfl,
    @decrement_diverges _ _ _ hh 1 0 1 none _ (by decide) rfl rfl (by decide) 100⟩

end BstreeIterator
end Dsa
