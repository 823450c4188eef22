import Dsa.Sorting.Order
import Dsa.Sorting.Range

/-! # Insertion sort

`dsa::insertionsort`: for each `i` from 1, the element at `i` is swapped down while it is
less than its left neighbour. Read from the right, the swaps insert it into the reversed
prefix before the first element it is not less than, so the whole run is Mathlib's
`insertionSort` of the reversed range, reversed back (`insertionsort_eq`). Under a strict
weak order that is the stable sort.
-/
namespace Dsa
namespace Insertionsort
open Sorting
variable {α : Type} (comp : α → α → Bool)

/-- One round of `for (auto j = i; j > 0 && comp (index [j], index [j - 1]); --j)
std::swap (index [j], index [j - 1]);` over the local `j` and the range. -/
def swapStep : Nat × List α → Except Fault ((Nat × List α) ⊕ List α)
  | (j, a) => do
    if j > 0 then
      let x ← readAt a j
      let y ← readAt a (j - 1)
      if comp x y then
        let a ← writeAt a j y
        let a ← writeAt a (j - 1) x
        pure (.inl (j - 1, a))
      else pure (.inr a)
    else pure (.inr a)

/-- `insertionsort (first, last, comp)`. Each swap lowers `j`, so `i + 1` rounds bound the
inner loop. -/
def insertionsort (a : List α) : Except Fault (List α) :=
  (steps 1 a.length 1).foldlM (fun a i => loop (swapStep comp) (i + 1) (i, a)) a

theorem readAt_append_cons (u v : List α) (y : α) : readAt (u ++ y :: v) u.length = .ok y := by
  rw [readAt, List.getElem?_append_right (Nat.le_refl _), Nat.sub_self]
  simp

theorem writeAt_append_cons (u v : List α) (y z : α) :
    writeAt (u ++ y :: v) u.length z = .ok (u ++ z :: v) := by
  rw [writeAt, if_pos (by simp), List.set_append_right _ _ (Nat.le_refl _), Nat.sub_self]
  rfl

theorem loop_swapStep (x : α) : ∀ (w v : List α) (fuel : Nat), w.length < fuel →
    loop (swapStep comp) fuel (w.length, w.reverse ++ x :: v) =
      .ok ((w.orderedInsert (fun a b => comp a b = false) x).reverse ++ v)
  | [], v, fuel + 1, _ => by simp [loop, swapStep]
  | b :: w, v, fuel + 1, hf => by
    have hx : readAt (w.reverse ++ b :: x :: v) (w.length + 1) = .ok x := by
      simpa using readAt_append_cons (w.reverse ++ [b]) v x
    have hb : readAt (w.reverse ++ b :: x :: v) w.length = .ok b := by
      simpa using readAt_append_cons w.reverse (x :: v) b
    simp only [loop, swapStep, List.length_cons, List.reverse_cons, List.append_assoc,
      List.singleton_append, Nat.add_sub_cancel, hx, hb, except_ok_bind, gt_iff_lt, Nat.succ_pos,
      if_true]
    by_cases hxb : comp x b
    · have hw : writeAt (w.reverse ++ b :: x :: v) (w.length + 1) b = .ok (w.reverse ++ b :: b :: v) := by
        simpa using writeAt_append_cons (w.reverse ++ [b]) v x b
      have hw' : writeAt (w.reverse ++ b :: b :: v) w.length x = .ok (w.reverse ++ x :: b :: v) := by
        simpa using writeAt_append_cons w.reverse (b :: v) b x
      simp only [hxb, if_true, hw, hw', except_ok_bind, except_pure]
      rw [loop_swapStep x w (b :: v) fuel (by simp at hf; omega)]
      simp [hxb]
    · simp [hxb]

/-- A round `f a i` that inserts the element at `i` into the reversed prefix before the first
element it is not less than. -/
def InsertsAt (f : List α → Nat → Except Fault (List α)) : Prop :=
  ∀ (w : List α) (x : α) (v : List α), f (w.reverse ++ x :: v) w.length =
    .ok ((w.orderedInsert (fun a b => comp a b = false) x).reverse ++ v)

theorem insertsAt_swap : InsertsAt comp fun a i => loop (swapStep comp) (i + 1) (i, a) :=
  fun w x v => loop_swapStep comp x w v _ (Nat.lt_succ_self _)

section InsertsAt
variable {comp} {f : List α → Nat → Except Fault (List α)}

theorem foldlM_insertsAt_range' (hf : InsertsAt comp f) (a : List α) : ∀ k i, 1 ≤ i →
    i + k ≤ a.length →
    (List.range' i k).foldlM f
        (((a.take i).reverse.insertionSort fun x y => comp x y = false).reverse ++ a.drop i) =
      .ok (((a.take (i + k)).reverse.insertionSort fun x y => comp x y = false).reverse ++
        a.drop (i + k))
  | 0, i, _, _ => rfl
  | k + 1, i, hi, hk => by
    have hlen : ((a.take i).reverse.insertionSort fun x y => comp x y = false).length = i := by
      simp [List.length_insertionSort]; omega
    have hstep := hf ((a.take i).reverse.insertionSort fun x y => comp x y = false) a[i]
      (a.drop (i + 1))
    simp only [hlen] at hstep
    have hdrop : a.drop i = a[i] :: a.drop (i + 1) := List.drop_eq_getElem_cons (by omega)
    have htake : ((a.take (i + 1)).reverse.insertionSort fun x y => comp x y = false) =
        ((a.take i).reverse.insertionSort fun x y => comp x y = false).orderedInsert
          (fun x y => comp x y = false) a[i] := by
      rw [List.take_succ, List.getElem?_eq_getElem (by omega)]
      simp only [Option.toList_some, List.reverse_append, List.reverse_singleton,
        List.singleton_append]
      rfl
    rw [List.range'_succ, List.foldlM_cons, hdrop, hstep, except_ok_bind, ← htake,
      show i + (k + 1) = i + 1 + k by omega]
    exact foldlM_insertsAt_range' hf a k (i + 1) (by omega) (by omega)

theorem foldlM_insertsAt (hf : InsertsAt comp f) (a : List α) :
    (steps 1 a.length 1).foldlM f a =
      .ok (a.reverse.insertionSort fun x y => comp x y = false).reverse := by
  cases a with
  | nil => simp [steps]
  | cons x t =>
    have h := foldlM_insertsAt_range' hf (x :: t) t.length 1 le_rfl (by simp; omega)
    simp only [List.take_succ_cons, List.take_zero, List.drop_succ_cons, List.drop_zero,
      List.reverse_singleton, List.insertionSort, List.orderedInsert, List.append_nil] at h
    rw [show steps 1 (x :: t).length 1 = List.range' 1 t.length by simp [steps]]
    simpa [Nat.add_comm] using h

end InsertsAt

/-- `insertionsort` computes, for any comparator, the insertion of each element into the
reversed prefix before the first element it is not less than. -/
theorem insertionsort_eq (a : List α) :
    insertionsort comp a = .ok (a.reverse.insertionSort fun x y => comp x y = false).reverse :=
  foldlM_insertsAt (insertsAt_swap comp) a

/-- `insertionsort` returns, without leaving the range, the stable sort of its input. -/
theorem insertionsort_stable (hw : IsStrictWeakOrder α fun a b => comp a b = true) (a : List α) :
    insertionsort comp a = .ok (a.insertionSort fun x y => comp y x = false) ∧
      StableSort comp a (a.insertionSort fun x y => comp y x = false) := by
  have h := stableSort_insertionSort hw a
  exact ⟨by rw [insertionsort_eq, (stableSort_reverse_insertionSort hw a).eq hw h], h⟩

theorem insertionsort_three_one_two :
    IsStrictWeakOrder ℕ (fun a b => decide (a < b) = true) ∧
      insertionsort (fun a b : ℕ => decide (a < b)) [3, 1, 2] = .ok [1, 2, 3] :=
  ⟨isStrictWeakOrder_decide_lt, (insertionsort_stable _ isStrictWeakOrder_decide_lt [3, 1, 2]).1⟩

end Insertionsort
end Dsa
