import Dsa.Sorting.Blocksort
import Dsa.Sorting.Insertionsort

/-! # Shellsort

`dsa::shellsort`: for each gap `g` of the chosen sequence, `inner_loop (g)` inserts every
element at `i ≥ g` into its column `i - g, i - 2g, …` by shifting the larger elements up one
gap and writing `tmp` into the hole. The inner loop is the one of blocksort's anonymous
shellsort, over the whole range (`gapInsert` with `lo = 0`).

Every pass with a positive gap permutes the range (`innerLoop_perm`): the shift loop keeps the
range with its hole filled by `tmp` a permutation of the range it started from, one exchange
per shift. Every sequence ends with the gap 1, and the gap-1 pass is `insertionsort`
(`innerLoop_one`), which sorts whatever the earlier passes left.
-/
namespace Dsa
namespace Shellsort
open Sorting Blocksort Insertionsort
variable {α : Type} (comp : α → α → Bool)

/-- `curia01_seq`. -/
def curia01Seq : List Nat := [701, 301, 132, 57, 23, 10, 4, 1]

/-- `tokuda92_seq`. -/
def tokuda92Seq : List Nat := [1182, 525, 233, 103, 46, 20, 9, 4, 1]

/-- `sedgewick86_seq`. -/
def sedgewick86Seq : List Nat := [1073, 281, 77, 23, 8, 1]

/-- `enum class shellseq`. -/
inductive Shellseq
  | curia01
  | tokuda92
  | sedgewick86
  deriving DecidableEq, Repr

/-- The gaps the `switch (seq)` runs through. -/
def Shellseq.gaps : Shellseq → List Nat
  | .curia01 => curia01Seq
  | .tokuda92 => tokuda92Seq
  | .sedgewick86 => sedgewick86Seq

/-- The lambda `inner_loop (g)`, over the `length` it captures. -/
def innerLoop (length g : Nat) (a : List α) : Except Fault (List α) :=
  (steps g length 1).foldlM (gapInsert comp 0 g) a

/-- `shellsort (first, last, comp, seq)`; the source's default sequence is `curia01`. -/
def shellsort (seq : Shellseq) (a : List α) : Except Fault (List α) :=
  let length := a.length
  seq.gaps.foldlM (fun a g => innerLoop comp length g a) a

theorem Shellseq.gaps_eq (seq : Shellseq) :
    seq.gaps = seq.gaps.dropLast ++ [1] ∧ ∀ g ∈ seq.gaps, 0 < g := by
  cases seq <;> decide

/-! ### Gap passes permute -/

theorem exchange_perm (l : List α) {i j : Nat} (hi : i < l.length) (hj : j < l.length) :
    ((l.set j l[i]).set i l[j]).Perm l := by
  classical
  refine List.perm_iff_count.mpr fun b => ?_
  have hmem : (if l[j] == b then 1 else 0) ≤ l.count b := by
    split
    · rename_i h
      exact List.count_pos_iff.mpr (beq_iff_eq.mp h ▸ List.getElem_mem hj)
    · exact Nat.zero_le _
  rw [List.count_set _ _ _ _ (by simpa using hi), List.count_set _ _ _ _ hj, List.getElem_set,
    ite_self]
  omega

theorem set_getElem_same (l : List α) {i : Nat} (hi : i < l.length) : l.set i l[i] = l :=
  List.ext_getElem (List.length_set ..) fun j _ _ => by
    rw [List.getElem_set]
    split <;> simp_all

theorem set_hole_perm (a : List α) (t : α) {k j : Nat} (hkj : k < j) (hj : j < a.length) :
    ((a.set j a[k]).set k t).Perm (a.set j t) := by
  have h := exchange_perm (a.set j t) (show k < (a.set j t).length by simp; omega)
    (show j < (a.set j t).length by simpa)
  rwa [List.getElem_set_ne (by omega), List.getElem_set_self, List.set_set] at h

/-- The shift loop's invariant from `(i, v)` with `tmp = v[i]`: `j` lies in the range, and the
range with the hole at `j` filled by `tmp` is a permutation of `v`. -/
structure HoleOk (tmp : α) (v : List α) (s : Nat × List α) : Prop where
  lt : s.1 < s.2.length
  perm : (s.2.set s.1 tmp).Perm v

theorem shiftStep_holeOk {g : Nat} (hg : 0 < g) (tmp : α) (v : List α) (s : Nat × List α)
    (hs : HoleOk tmp v s) :
    (∃ s', shiftStep comp 0 g tmp s = .ok (.inl s') ∧ HoleOk tmp v s' ∧ s'.1 < s.1) ∨
      ∃ s', shiftStep comp 0 g tmp s = .ok (.inr s') ∧ HoleOk tmp v s' := by
  obtain ⟨j, a⟩ := s
  have hj : j < a.length := hs.lt
  by_cases hgj : g ≤ j
  · have hjg : j - g < a.length := by omega
    have hr : readAt a (j - g) = .ok a[j - g] := readAt_of_lt hjg
    by_cases hc : comp tmp a[j - g]
    · refine .inl ⟨(j - g, a.set j a[j - g]), ?_,
        ⟨by simp only [List.length_set]; omega, (set_hole_perm a tmp (by omega) hj).trans hs.perm⟩,
        by simp only; omega⟩
      simp [shiftStep, hgj, hr, hc, writeAt, hj]
    · exact .inr ⟨(j, a), by simp [shiftStep, hgj, hr, hc], hs⟩
  · exact .inr ⟨(j, a), by simp [shiftStep, hgj], hs⟩

theorem gapInsert_perm {g : Nat} (hg : 0 < g) {v : List α} {i : Nat} (hi : i < v.length) :
    ∃ v', gapInsert comp 0 g v i = .ok v' ∧ v'.Perm v := by
  obtain ⟨⟨j, a⟩, hl, hj, hp⟩ := loop_of_variant (HoleOk v[i] v) (HoleOk v[i] v) Prod.fst
    (shiftStep_holeOk comp hg v[i] v) (i + 1) (i, v)
    ⟨hi, by simp only [set_getElem_same v hi, List.Perm.refl]⟩ (Nat.lt_succ_self i)
  exact ⟨a.set j v[i], by simp [gapInsert, readAt_of_lt hi, hl, writeAt, hj], hp⟩

theorem innerLoop_perm {g : Nat} (hg : 0 < g) (a : List α) :
    ∃ a', innerLoop comp a.length g a = .ok a' ∧ a'.Perm a := by
  refine foldlM_of_inv (fun b => b.Perm a) (steps g a.length 1) a (.refl a) fun b i hi hb => ?_
  have hib : i < b.length := by
    simp [steps] at hi
    rw [List.Perm.length_eq hb]
    omega
  obtain ⟨b', h, hp⟩ := gapInsert_perm comp hg hib
  exact ⟨b', h, hp.trans hb⟩

/-! ### The gap-1 pass is insertion sort -/

theorem loop_shiftStep_one (x : α) : ∀ (w v : List α) (y : α) (fuel : Nat), w.length < fuel →
    ∃ j a, loop (shiftStep comp 0 1 x) fuel (w.length, w.reverse ++ y :: v) = .ok (j, a) ∧
      writeAt a j x = .ok ((w.orderedInsert (fun a b => comp a b = false) x).reverse ++ v)
  | [], v, y, fuel + 1, _ => ⟨0, y :: v, by simp [loop, shiftStep], by simp [writeAt]⟩
  | b :: w, v, y, fuel + 1, hf => by
    have hb : readAt (w.reverse ++ b :: y :: v) w.length = .ok b := by
      simpa using readAt_append_cons w.reverse (y :: v) b
    simp only [loop, shiftStep, List.length_cons, List.reverse_cons, List.append_assoc,
      List.singleton_append, Nat.zero_add, Nat.add_sub_cancel, hb, except_ok_bind,
      Nat.le_add_left, if_true]
    by_cases hxb : comp x b
    · have hw : writeAt (w.reverse ++ b :: y :: v) (w.length + 1) b = .ok (w.reverse ++ b :: b :: v) := by
        simpa using writeAt_append_cons (w.reverse ++ [b]) v y b
      simp only [hxb, if_true, hw, except_ok_bind, except_pure]
      obtain ⟨j, a, hl, hwr⟩ := loop_shiftStep_one x w (b :: v) b fuel (by simp at hf; omega)
      exact ⟨j, a, hl, by simp [hwr, hxb]⟩
    · refine ⟨w.length + 1, w.reverse ++ b :: y :: v, by simp [hxb], ?_⟩
      simpa [hxb] using writeAt_append_cons (w.reverse ++ [b]) v y x

theorem insertsAt_gapInsert_one : InsertsAt comp (gapInsert comp 0 1) := fun w x v => by
  obtain ⟨j, a, hl, hwr⟩ := loop_shiftStep_one comp x w v x (w.length + 1) (Nat.lt_succ_self _)
  have hx : readAt (w.reverse ++ x :: v) w.length = .ok x := by
    simpa using readAt_append_cons w.reverse v x
  simp [gapInsert, hx, hl, hwr]

theorem innerLoop_one (a : List α) : innerLoop comp a.length 1 a = insertionsort comp a := by
  rw [innerLoop, foldlM_insertsAt (insertsAt_gapInsert_one comp), insertionsort_eq]

/-! ### Shellsort sorts -/

theorem foldlM_innerLoop_perm (a : List α) (gs : List Nat) (hgs : ∀ g ∈ gs, 0 < g) :
    ∃ b, gs.foldlM (fun b g => innerLoop comp a.length g b) a = .ok b ∧ b.Perm a := by
  refine foldlM_of_inv (fun b => b.Perm a) gs a (.refl a) fun b g hg hb => ?_
  obtain ⟨b', h, hp⟩ := innerLoop_perm comp (hgs g hg) b
  exact ⟨b', by rwa [← List.Perm.length_eq hb], hp.trans hb⟩

theorem foldlM_innerLoop_sorted (hw : IsStrictWeakOrder α fun a b => comp a b = true) (a : List α)
    (gs : List Nat) (hlast : gs = gs.dropLast ++ [1]) (hpos : ∀ g ∈ gs, 0 < g) :
    ∃ r, gs.foldlM (fun b g => innerLoop comp a.length g b) a = .ok r ∧ r.Perm a ∧
      r.Sorted fun x y => comp y x = false := by
  obtain ⟨b, hb, hp⟩ := foldlM_innerLoop_perm comp a gs.dropLast
    fun g hg => hpos g (List.dropLast_subset _ hg)
  have hs := stableSort_reverse_insertionSort hw b
  refine ⟨_, ?_, hs.perm.trans hp, hs.sorted⟩
  rw [hlast, List.foldlM_append, hb, except_ok_bind, List.foldlM_cons, ← hp.length_eq, innerLoop_one,
    insertionsort_eq]
  rfl

/-- Whatever the sequence, `shellsort` returns, without leaving the range, a sorted permutation
of its input. -/
theorem shellsort_sorted (hw : IsStrictWeakOrder α fun a b => comp a b = true) (seq : Shellseq)
    (a : List α) :
    ∃ r, shellsort comp seq a = .ok r ∧ r.Perm a ∧ r.Sorted fun x y => comp y x = false :=
  foldlM_innerLoop_sorted comp hw a seq.gaps seq.gaps_eq.1 seq.gaps_eq.2

theorem shellsort_tokuda92_three_one_two :
    IsStrictWeakOrder ℕ (fun a b => decide (a < b) = true) ∧
      ∃ r, shellsort (fun a b : ℕ => decide (a < b)) .tokuda92 [3, 1, 2] = .ok r ∧
        r.Perm [3, 1, 2] ∧ r.Sorted fun x y => decide (y < x) = false :=
  ⟨isStrictWeakOrder_decide_lt, shellsort_sorted _ isStrictWeakOrder_decide_lt .tokuda92 [3, 1, 2]⟩

end Shellsort
end Dsa
