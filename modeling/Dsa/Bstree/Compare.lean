import Dsa.Bstree.Insert

/-! # Comparison of two trees

`operator==` is `size () == size () && std::equal (lhs.begin (), lhs.end (), rhs.begin ())`
and `operator<` is `std::lexicographical_compare` over both ranges, all on the read-only
iterators: `begin () const` and `end () const` are `const_iterator {_iter}`, whose state is
`valid`. `operator!=`, `>`, `<=` and `>=` are read off those two. The two trees share one
memory; `keyEq` and `keyLt` are `Key`'s own `==` and `<`. So the read-only range leaves out
the maximum (`constRange_drops_max`), and the comparisons never read the last keys
(`compare_ignores_last_key`).
-/
namespace Dsa
namespace Bstree
variable {α : Type} (h : Heap α) (fuel : Nat)

/-- `begin () const`. -/
def cbegin (b : Bstree) : BstreeIterator := ⟨b.beginIt.iter, .valid⟩

/-- `end () const`. -/
def cend (b : Bstree) : BstreeIterator := ⟨b.endIt.iter, .valid⟩

/-- One round of `std::equal (first1, last1, first2)`. -/
def equalStep (keyEq : α → α → Bool) (last1 : BstreeIterator) :
    BstreeIterator × BstreeIterator → Except Fault ((BstreeIterator × BstreeIterator) ⊕ Bool)
  | (first1, first2) => do
    if first1.equal last1 then pure (.inr true)
    else
      let a ← deref h first1.iter
      let b ← deref h first2.iter
      if !(keyEq a.value b.value) then pure (.inr false)
      else pure (.inl (← BstreeIterator.increment h fuel first1,
        ← BstreeIterator.increment h fuel first2))

/-- `operator== (lhs, rhs)`. -/
def treeEq (keyEq : α → α → Bool) (lhs rhs : Bstree) : Except Fault Bool :=
  if lhs.treeSize = rhs.treeSize then
    loop (equalStep h fuel keyEq (cend lhs)) fuel (cbegin lhs, cbegin rhs)
  else pure false

/-- One round of `std::lexicographical_compare (first1, last1, first2, last2)`. -/
def lexStep (keyLt : α → α → Bool) (last1 last2 : BstreeIterator) :
    BstreeIterator × BstreeIterator → Except Fault ((BstreeIterator × BstreeIterator) ⊕ Bool)
  | (first1, first2) => do
    if first1.equal last1 || first2.equal last2 then
      pure (.inr (first1.equal last1 && !first2.equal last2))
    else
      let a ← deref h first1.iter
      let b ← deref h first2.iter
      if keyLt a.value b.value then pure (.inr true)
      else if keyLt b.value a.value then pure (.inr false)
      else pure (.inl (← BstreeIterator.increment h fuel first1,
        ← BstreeIterator.increment h fuel first2))

/-- `operator< (lhs, rhs)`. -/
def treeLt (keyLt : α → α → Bool) (lhs rhs : Bstree) : Except Fault Bool :=
  loop (lexStep h fuel keyLt (cend lhs) (cend rhs)) fuel (cbegin lhs, cbegin rhs)

/-- `operator!= (lhs, rhs)`: `!(lhs == rhs)`. -/
def treeNe (keyEq : α → α → Bool) (lhs rhs : Bstree) : Except Fault Bool :=
  (!·) <$> treeEq h fuel keyEq lhs rhs

/-- `operator> (lhs, rhs)`: `rhs < lhs`. -/
def treeGt (keyLt : α → α → Bool) (lhs rhs : Bstree) : Except Fault Bool :=
  treeLt h fuel keyLt rhs lhs

/-- `operator<= (lhs, rhs)`: `!(lhs > rhs)`. -/
def treeLe (keyLt : α → α → Bool) (lhs rhs : Bstree) : Except Fault Bool :=
  (!·) <$> treeGt h fuel keyLt lhs rhs

/-- `operator>= (lhs, rhs)`: `!(lhs < rhs)`. -/
def treeGe (keyLt : α → α → Bool) (lhs rhs : Bstree) : Except Fault Bool :=
  (!·) <$> treeLt h fuel keyLt lhs rhs

/-- `std::equal (first1, last1, first2)` on value sequences. -/
def equalPrefix (keyEq : α → α → Bool) : List α → List α → Bool
  | [], _ => true
  | a :: as, b :: bs => keyEq a b && equalPrefix keyEq as bs
  | _ :: _, [] => false

/-- `std::lexicographical_compare` on value sequences. -/
def lexLess (keyLt : α → α → Bool) : List α → List α → Bool
  | [], [] => false
  | [], _ :: _ => true
  | _ :: _, [] => false
  | a :: as, b :: bs => if keyLt a b then true else if keyLt b a then false else lexLess keyLt as bs

section Walk
variable {h : Heap α} {tl tr : Shape} (hl : Hangs h none tl) (hnl : tl.ptrs.Nodup)
  (hr : Hangs h none tr) (hnr : tr.ptrs.Nodup)
include hl hnl hr hnr

theorem equalWalk (keyEq : α → α → Bool) {m : Ptr} (hm : tl.ptrs.getLast? = some m) :
    ∀ (xrest xpre ypre yrest : List Ptr) (x y : Ptr),
      tl.ptrs = xpre ++ x :: xrest → tr.ptrs = ypre ++ y :: yrest → xrest.length = yrest.length →
      ∃ N, ∀ f f', N ≤ f → xrest.length < f' →
        loop (equalStep h f keyEq ⟨some m, .valid⟩) f' (⟨some x, .valid⟩, ⟨some y, .valid⟩) =
          .ok (equalPrefix keyEq (valuesAt h (x :: xrest)).dropLast (valuesAt h (y :: yrest)))
  | [], xpre, ypre, yrest, x, y, ex, ey, hlen => by
    obtain rfl : x = m := by simpa [ex] using hm
    obtain ⟨nx, hx, -⟩ := hl.cell (show x ∈ tl.ptrs by simp [ex])
    refine ⟨0, fun f f' _ hf' => ?_⟩
    obtain ⟨g, rfl⟩ : ∃ g, f' = g + 1 := ⟨f' - 1, by omega⟩
    simp [loop, equalStep, valuesAt_cons hx, equalPrefix]
  | x' :: xrest, xpre, ypre, yrest, x, y, ex, ey, hlen => by
    obtain ⟨y', yrest, rfl⟩ : ∃ y' ys, yrest = y' :: ys := by
      cases yrest with
      | nil => simp at hlen
      | cons y' ys => exact ⟨y', ys, rfl⟩
    obtain ⟨nx, hx, -⟩ := hl.cell (show x ∈ tl.ptrs by simp [ex])
    obtain ⟨nx', hx', -⟩ := hl.cell (show x' ∈ tl.ptrs by simp [ex])
    obtain ⟨ny, hy, -⟩ := hr.cell (show y ∈ tr.ptrs by simp [ey])
    obtain ⟨ny', hy', -⟩ := hr.cell (show y' ∈ tr.ptrs by simp [ey])
    have hxm : x ≠ m := ne_of_getLast?_eq hnl ex hm
    obtain ⟨N, hN⟩ := equalWalk keyEq hm xrest (xpre ++ [x]) (ypre ++ [y]) yrest x' y'
      (by simp [ex]) (by simp [ey]) (by simpa using hlen)
    obtain ⟨Nx, hNx⟩ := (BstreeIterator.incrTo_shape hl hnl).1 x x' ⟨xpre, xrest, ex⟩
    obtain ⟨Ny, hNy⟩ := (BstreeIterator.incrTo_shape hr hnr).1 y y' ⟨ypre, yrest, ey⟩
    refine ⟨max N (max Nx Ny), fun f f' hf hf' => ?_⟩
    obtain ⟨g, rfl⟩ : ∃ g, f' = g + 1 := ⟨f' - 1, by omega⟩
    rw [valuesAt_cons hx, valuesAt_cons hx', valuesAt_cons hy, List.dropLast_cons₂]
    by_cases hk : keyEq nx.value ny.value
    · have hg : xrest.length < g := by simpa using hf'
      simp [loop, equalStep, deref_some hx, deref_some hy, hk, hxm, hNx f (by omega),
        hNy f (by omega), hN f g (by omega) hg, equalPrefix, valuesAt_cons hx']
    · simp [loop, equalStep, deref_some hx, deref_some hy, hk, hxm, equalPrefix]
theorem lexWalk (keyLt : α → α → Bool) {mx my : Ptr} (hmx : tl.ptrs.getLast? = some mx)
    (hmy : tr.ptrs.getLast? = some my) :
    ∀ (xrest xpre ypre yrest : List Ptr) (x y : Ptr),
      tl.ptrs = xpre ++ x :: xrest → tr.ptrs = ypre ++ y :: yrest →
      ∃ N, ∀ f f', N ≤ f → xrest.length < f' →
        loop (lexStep h f keyLt ⟨some mx, .valid⟩ ⟨some my, .valid⟩) f'
            (⟨some x, .valid⟩, ⟨some y, .valid⟩) =
          .ok (lexLess keyLt (valuesAt h (x :: xrest)).dropLast (valuesAt h (y :: yrest)).dropLast)
  | [], xpre, ypre, yrest, x, y, ex, ey => by
    obtain rfl : x = mx := by simpa [ex] using hmx
    obtain ⟨nx, hx, -⟩ := hl.cell (show x ∈ tl.ptrs by simp [ex])
    obtain ⟨ny, hy, -⟩ := hr.cell (show y ∈ tr.ptrs by simp [ey])
    refine ⟨0, fun f f' _ hf' => ?_⟩
    obtain ⟨g, rfl⟩ : ∃ g, f' = g + 1 := ⟨f' - 1, by omega⟩
    cases yrest with
    | nil =>
      obtain rfl : y = my := by simpa [ey] using hmy
      simp [loop, lexStep, valuesAt_cons hx, valuesAt_cons hy, lexLess]
    | cons y' yrest =>
      obtain ⟨ny', hy', -⟩ := hr.cell (show y' ∈ tr.ptrs by simp [ey])
      simp [loop, lexStep, valuesAt_cons hx, valuesAt_cons hy, valuesAt_cons hy', lexLess,
        ne_of_getLast?_eq hnr ey hmy]
  | x' :: xrest, xpre, ypre, yrest, x, y, ex, ey => by
    obtain ⟨nx, hx, -⟩ := hl.cell (show x ∈ tl.ptrs by simp [ex])
    obtain ⟨nx', hx', -⟩ := hl.cell (show x' ∈ tl.ptrs by simp [ex])
    obtain ⟨ny, hy, -⟩ := hr.cell (show y ∈ tr.ptrs by simp [ey])
    have hxm := ne_of_getLast?_eq hnl ex hmx
    cases yrest with
    | nil =>
      obtain rfl : y = my := by simpa [ey] using hmy
      refine ⟨0, fun f f' _ hf' => ?_⟩
      obtain ⟨g, rfl⟩ : ∃ g, f' = g + 1 := ⟨f' - 1, by omega⟩
      simp [loop, lexStep, valuesAt_cons hx, valuesAt_cons hx', valuesAt_cons hy, lexLess, hxm]
    | cons y' yrest =>
      obtain ⟨ny', hy', -⟩ := hr.cell (show y' ∈ tr.ptrs by simp [ey])
      have hym := ne_of_getLast?_eq hnr ey hmy
      obtain ⟨N, hN⟩ := lexWalk keyLt hmx hmy xrest (xpre ++ [x]) (ypre ++ [y]) yrest x' y'
        (by simp [ex]) (by simp [ey])
      obtain ⟨Nx, hNx⟩ := (BstreeIterator.incrTo_shape hl hnl).1 x x' ⟨xpre, xrest, ex⟩
      obtain ⟨Ny, hNy⟩ := (BstreeIterator.incrTo_shape hr hnr).1 y y' ⟨ypre, yrest, ey⟩
      refine ⟨max N (max Nx Ny), fun f f' hf hf' => ?_⟩
      obtain ⟨g, rfl⟩ : ∃ g, f' = g + 1 := ⟨f' - 1, by omega⟩
      have hg : xrest.length < g := by simpa using hf'
      rw [valuesAt_cons hx, valuesAt_cons hx', valuesAt_cons hy, valuesAt_cons hy',
        List.dropLast_cons₂, List.dropLast_cons₂]
      simp only [lexLess]
      by_cases hlt : keyLt nx.value ny.value
      · simp [loop, lexStep, deref_some hx, deref_some hy, hxm, hym, hlt]
      · by_cases hgt : keyLt ny.value nx.value
        · simp [loop, lexStep, deref_some hx, deref_some hy, hxm, hym, hlt, hgt]
        · simp [loop, lexStep, deref_some hx, deref_some hy, hxm, hym, hlt, hgt, hNx f (by omega),
            hNy f (by omega), hN f g (by omega) hg, valuesAt_cons hx', valuesAt_cons hy']

end Walk

theorem cbegin_equal_cend {b : Bstree} (hc : b.CachesOk []) : (cbegin b).equal (cend b) = true := by
  simp [cbegin, cend, BstreeIterator.iter_eq_of_equal hc]

/-- What `operator==` computes on two trees that satisfy the invariant: equal sizes, and the
left key sequence without its last key a prefix of the right one. -/
theorem treeEq_spec {comp : α → α → Except Fault Bool} {st : Store α} {l r : Bstree}
    {tl tr : Shape} (hl : RepOk comp ⟨st, l⟩ tl) (hr : RepOk comp ⟨st, r⟩ tr)
    (keyEq : α → α → Bool) :
    ∃ N, ∀ fuel, N ≤ fuel → treeEq st.heap fuel keyEq l r =
      .ok (decide (l.treeSize = r.treeSize) &&
        equalPrefix keyEq (tl.keys st.heap).dropLast (tr.keys st.heap)) := by
  by_cases hs : l.treeSize = r.treeSize
  swap
  · exact ⟨0, fun fuel _ => by simp [treeEq, hs]⟩
  have hlen : tl.ptrs.length = tr.ptrs.length := by rw [← hl.size, ← hr.size]; exact hs
  have hcl : l.CachesOk tl.ptrs := hl.caches
  have hcr : r.CachesOk tr.ptrs := hr.caches
  unfold Shape.keys
  cases hx : tl.ptrs with
  | nil =>
    rw [hx] at hcl
    refine ⟨1, fun fuel hf => ?_⟩
    obtain ⟨g, rfl⟩ : ∃ g, fuel = g + 1 := ⟨fuel - 1, by omega⟩
    simp [treeEq, hs, loop, equalStep, cbegin_equal_cend hcl, equalPrefix]
  | cons a xrest =>
    cases hy : tr.ptrs with
    | nil => simp [hx, hy] at hlen
    | cons b yrest =>
      rw [hx] at hcl
      rw [hy] at hcr
      obtain ⟨m, hm, hb, he⟩ := hcl.ends
      obtain ⟨N, hN⟩ := equalWalk hl.hangs hl.nodup hr.hangs hr.nodup keyEq (hx ▸ hm) xrest [] [] yrest a b
        (by simp [hx]) (by simp [hy]) (by simpa [hx, hy] using hlen)
      refine ⟨max N (xrest.length + 1), fun fuel hf => ?_⟩
      simp only [treeEq, hs, if_true, cend, cbegin, hb, he, hcr.1]
      exact (hN fuel fuel (by omega) (by omega)).trans (by simp [valuesAt])

theorem lexLess_nil_right (keyLt : α → α → Bool) (xs : List α) : lexLess keyLt xs [] = false := by
  cases xs <;> rfl

/-- What `operator<` computes on two trees that satisfy the invariant: the lexicographic order
of the two key sequences, each without its last key. -/
theorem treeLt_spec {comp : α → α → Except Fault Bool} {st : Store α} {l r : Bstree}
    {tl tr : Shape} (hl : RepOk comp ⟨st, l⟩ tl) (hr : RepOk comp ⟨st, r⟩ tr)
    (keyLt : α → α → Bool) :
    ∃ N, ∀ fuel, N ≤ fuel → treeLt st.heap fuel keyLt l r =
      .ok (lexLess keyLt (tl.keys st.heap).dropLast (tr.keys st.heap).dropLast) := by
  have hcl : l.CachesOk tl.ptrs := hl.caches
  have hcr : r.CachesOk tr.ptrs := hr.caches
  unfold Shape.keys
  cases hx : tl.ptrs with
  | nil =>
    rw [hx] at hcl
    cases hy : tr.ptrs with
    | nil =>
      rw [hy] at hcr
      refine ⟨1, fun fuel hf => ?_⟩
      obtain ⟨g, rfl⟩ : ∃ g, fuel = g + 1 := ⟨fuel - 1, by omega⟩
      simp [treeLt, loop, lexStep, cbegin_equal_cend hcl, cbegin_equal_cend hcr, lexLess]
    | cons b yrest =>
      rw [hy] at hcr
      obtain ⟨my, hmy, hb, he⟩ := hcr.ends
      obtain ⟨nb, hnb, -⟩ := hr.hangs.cell (show b ∈ tr.ptrs by simp [hy])
      have hle : l.beginIt.iter = l.endIt.iter := BstreeIterator.iter_eq_of_equal hcl
      refine ⟨1, fun fuel hf => ?_⟩
      obtain ⟨g, rfl⟩ : ∃ g, fuel = g + 1 := ⟨fuel - 1, by omega⟩
      cases yrest with
      | nil =>
        obtain rfl : b = my := by simpa using hmy
        simp [treeLt, loop, lexStep, cbegin, cend, hle, hb, he, lexLess, show st.heap b = _ from hnb]
      | cons y' yrest =>
        obtain ⟨ny', hny', -⟩ := hr.hangs.cell (show y' ∈ tr.ptrs by simp [hy])
        have hbm := ne_of_getLast?_eq hr.nodup (show tr.ptrs = [] ++ b :: y' :: yrest from hy)
          (hy ▸ hmy)
        simp [treeLt, loop, lexStep, cbegin, cend, hle, hb, he, hbm, lexLess,
          show st.heap b = _ from hnb, show st.heap y' = _ from hny']
  | cons a xrest =>
    rw [hx] at hcl
    obtain ⟨mx, hmx, ha, he⟩ := hcl.ends
    cases hy : tr.ptrs with
    | nil =>
      rw [hy] at hcr
      refine ⟨1, fun fuel hf => ?_⟩
      obtain ⟨g, rfl⟩ : ∃ g, fuel = g + 1 := ⟨fuel - 1, by omega⟩
      simp [treeLt, loop, lexStep, cbegin_equal_cend hcr, lexLess_nil_right]
    | cons b yrest =>
      rw [hy] at hcr
      obtain ⟨my, hmy, hb, he'⟩ := hcr.ends
      obtain ⟨N, hN⟩ := lexWalk hl.hangs hl.nodup hr.hangs hr.nodup keyLt (hx ▸ hmx) (hy ▸ hmy)
        xrest [] [] yrest a b (by simp [hx]) (by simp [hy])
      refine ⟨max N (xrest.length + 1), fun fuel hf => ?_⟩
      simp only [treeLt, cend, cbegin, ha, he, hb, he']
      exact (hN fuel fuel (by omega) (by omega)).trans (by simp [valuesAt])

/-- So `operator!=`, `>`, `<=` and `>=` on two trees that satisfy the invariant compute the
negation of `==`, and `<` with its operands swapped, negated or both, over the key sequences
each without its last key. -/
theorem derivedCompare_spec {comp : α → α → Except Fault Bool} {st : Store α} {l r : Bstree}
    {tl tr : Shape} (hl : RepOk comp ⟨st, l⟩ tl) (hr : RepOk comp ⟨st, r⟩ tr)
    (keyEq keyLt : α → α → Bool) :
    ∃ N, ∀ fuel, N ≤ fuel →
      treeNe st.heap fuel keyEq l r = .ok (!(decide (l.treeSize = r.treeSize) &&
        equalPrefix keyEq (tl.keys st.heap).dropLast (tr.keys st.heap))) ∧
      treeGt st.heap fuel keyLt l r =
        .ok (lexLess keyLt (tr.keys st.heap).dropLast (tl.keys st.heap).dropLast) ∧
      treeLe st.heap fuel keyLt l r =
        .ok (!lexLess keyLt (tr.keys st.heap).dropLast (tl.keys st.heap).dropLast) ∧
      treeGe st.heap fuel keyLt l r =
        .ok (!lexLess keyLt (tl.keys st.heap).dropLast (tr.keys st.heap).dropLast) := by
  obtain ⟨N₁, heq⟩ := treeEq_spec hl hr keyEq
  obtain ⟨N₂, hgt⟩ := treeLt_spec hr hl keyLt
  obtain ⟨N₃, hlt⟩ := treeLt_spec hl hr keyLt
  refine ⟨max N₁ (max N₂ N₃), fun fuel hf => ?_⟩
  simp only [treeNe, treeGt, treeLe, treeGe, heq fuel (by omega), hgt fuel (by omega),
    hlt fuel (by omega), except_map_ok, and_self]

theorem fortyTwenty_derivedCompare :
    RepOk stdLess fortyTwentyTenThirty fortyTwentyShape ∧
      ∃ N, ∀ fuel, N ≤ fuel →
        treeNe fortyTwentyTenThirty.store.heap fuel (· == ·) fortyTwentyTenThirty.tree
            fortyTwentyTenThirty.tree =
          .ok (!(decide (fortyTwentyTenThirty.tree.treeSize = fortyTwentyTenThirty.tree.treeSize) &&
            equalPrefix (· == ·) (fortyTwentyShape.keys fortyTwentyTenThirty.store.heap).dropLast
              (fortyTwentyShape.keys fortyTwentyTenThirty.store.heap))) ∧
        treeGt fortyTwentyTenThirty.store.heap fuel (fun a b => decide (a < b))
            fortyTwentyTenThirty.tree fortyTwentyTenThirty.tree =
          .ok (lexLess (fun a b => decide (a < b))
            (fortyTwentyShape.keys fortyTwentyTenThirty.store.heap).dropLast
            (fortyTwentyShape.keys fortyTwentyTenThirty.store.heap).dropLast) ∧
        treeLe fortyTwentyTenThirty.store.heap fuel (fun a b => decide (a < b))
            fortyTwentyTenThirty.tree fortyTwentyTenThirty.tree =
          .ok (!lexLess (fun a b => decide (a < b))
            (fortyTwentyShape.keys fortyTwentyTenThirty.store.heap).dropLast
            (fortyTwentyShape.keys fortyTwentyTenThirty.store.heap).dropLast) ∧
        treeGe fortyTwentyTenThirty.store.heap fuel (fun a b => decide (a < b))
            fortyTwentyTenThirty.tree fortyTwentyTenThirty.tree =
          .ok (!lexLess (fun a b => decide (a < b))
            (fortyTwentyShape.keys fortyTwentyTenThirty.store.heap).dropLast
            (fortyTwentyShape.keys fortyTwentyTenThirty.store.heap).dropLast) :=
  ⟨fortyTwentyTenThirty_repOk, derivedCompare_spec fortyTwentyTenThirty_repOk
    fortyTwentyTenThirty_repOk (· == ·) fun a b => decide (a < b)⟩

theorem equalPrefix_self_append {keyEq : α → α → Bool} :
    ∀ {ks : List α} (ys : List α), (∀ x ∈ ks, keyEq x x = true) → equalPrefix keyEq ks (ks ++ ys) = true
  | [], _, _ => rfl
  | k :: ks, ys, h => by
    simp [equalPrefix, h k (.head _), equalPrefix_self_append ys fun x hx => h x (.tail _ hx)]

theorem lexLess_self {keyLt : α → α → Bool} :
    ∀ {ks : List α}, (∀ x ∈ ks, keyLt x x = false) → lexLess keyLt ks ks = false
  | [], _ => rfl
  | k :: ks, h => by simp [lexLess, h k (.head _), lexLess_self fun x hx => h x (.tail _ hx)]

theorem Hangs.keys_length {h : Heap α} {up : Option Ptr} {t : Shape} (ht : Hangs h up t) :
    (t.keys h).length = t.ptrs.length :=
  List.filterMap_length_eq_length.mpr fun p hp => by
    obtain ⟨nd, hnd, -⟩ := ht.cell hp
    simp [hnd]

/-- Hence `==` and `<` never read the last keys: two trees that satisfy the invariant, in one
memory, whose keys in order agree up to the last one compare equal, and neither is less than
the other, whatever their last keys. -/
theorem compare_ignores_last_key {comp : α → α → Except Fault Bool} {st : Store α} {l r : Bstree}
    {tl tr : Shape} (hl : RepOk comp ⟨st, l⟩ tl) (hr : RepOk comp ⟨st, r⟩ tr) {ks : List α} {a b : α}
    (hkl : tl.keys st.heap = ks ++ [a]) (hkr : tr.keys st.heap = ks ++ [b]) (keyEq keyLt : α → α → Bool)
    (hEq : ∀ x ∈ ks, keyEq x x = true) (hLt : ∀ x ∈ ks, keyLt x x = false) :
    ∃ N, ∀ fuel, N ≤ fuel →
      treeEq st.heap fuel keyEq l r = .ok true ∧ treeLt st.heap fuel keyLt l r = .ok false := by
  obtain ⟨N₁, h₁⟩ := treeEq_spec hl hr keyEq
  obtain ⟨N₂, h₂⟩ := treeLt_spec hl hr keyLt
  have hsize : l.treeSize = r.treeSize := by
    rw [hl.size, hr.size, ← Hangs.keys_length hl.hangs, ← Hangs.keys_length hr.hangs, hkl, hkr]
    simp
  refine ⟨max N₁ N₂, fun fuel hf => ⟨(h₁ fuel (by omega)).trans ?_, (h₂ fuel (by omega)).trans ?_⟩⟩
  · rw [hkl, hkr, List.dropLast_concat, equalPrefix_self_append _ hEq]
    simp [hsize]
  · rw [hkl, hkr, List.dropLast_concat, List.dropLast_concat, lexLess_self hLt]

def twentyTen : State Nat := (State.empty.after (insert stdLess 20 20)).after (insert stdLess 20 10)
def thirtyTen : State Nat :=
  ((State.mk twentyTen.store .empty).after (insert stdLess 20 30)).after (insert stdLess 20 10)

theorem twentyTen_thirtyTen_compare_equal :
    RepOk stdLess ⟨thirtyTen.store, twentyTen.tree⟩ (.node (.node .leaf 1 .leaf) 0 .leaf) ∧
      RepOk stdLess thirtyTen (.node (.node .leaf 3 .leaf) 2 .leaf) ∧
      Shape.keys thirtyTen.store.heap (.node (.node .leaf 1 .leaf) 0 .leaf) = [10] ++ [20] ∧
      Shape.keys thirtyTen.store.heap (.node (.node .leaf 3 .leaf) 2 .leaf) = [10] ++ [30] ∧
      ∃ N, ∀ fuel, N ≤ fuel →
        treeEq thirtyTen.store.heap fuel (· == ·) twentyTen.tree thirtyTen.tree = .ok true ∧
        treeLt thirtyTen.store.heap fuel (fun a b => decide (a < b)) twentyTen.tree thirtyTen.tree =
          .ok false :=
  have hl : RepOk stdLess ⟨thirtyTen.store, twentyTen.tree⟩ (.node (.node .leaf 1 .leaf) 0 .leaf) :=
    ⟨⟨⟨20, by decide⟩, ⟨⟨10, by decide⟩, trivial, trivial⟩, trivial⟩, by decide, by decide, by decide,
      by decide, by decide⟩
  have hr : RepOk stdLess thirtyTen (.node (.node .leaf 3 .leaf) 2 .leaf) :=
    ⟨⟨⟨30, by decide⟩, ⟨⟨10, by decide⟩, trivial, trivial⟩, trivial⟩, by decide, by decide, by decide,
      by decide, by decide⟩
  have hkl : Shape.keys thirtyTen.store.heap (.node (.node .leaf 1 .leaf) 0 .leaf) = [10] ++ [20] := by
    decide
  have hkr : Shape.keys thirtyTen.store.heap (.node (.node .leaf 3 .leaf) 2 .leaf) = [10] ++ [30] := by
    decide
  ⟨hl, hr, hkl, hkr, compare_ignores_last_key hl hr hkl hkr (· == ·) (fun a b => decide (a < b))
    (by decide) (by decide)⟩

/-- On every tree that satisfies the invariant, the read-only range
`[begin () const, end () const)` leaves out the maximum: `end () const` is the valid iterator
at the last node, where iteration stops. -/
theorem constRange_drops_max {comp : α → α → Except Fault Bool} {s : State α} {t : Shape}
    (hr : RepOk comp s t) :
    BstreeIterator.Visits s.store.heap (cend s.tree) (cbegin s.tree)
      (t.keys s.store.heap).dropLast := by
  have hc := hr.caches
  rw [show t.keys s.store.heap = valuesAt s.store.heap t.ptrs from rfl]
  unfold cbegin cend
  rcases List.eq_nil_or_concat t.ptrs with hnil | ⟨init, m, hsplit⟩
  · rw [hnil] at hc ⊢
    exact .stop (by simp [BstreeIterator.iter_eq_of_equal hc])
  · rw [List.concat_eq_append] at hsplit
    obtain ⟨nd, hm, -⟩ := hr.hangs.cell (show m ∈ t.ptrs by simp [hsplit])
    have hvals : (valuesAt s.store.heap t.ptrs).dropLast = valuesAt s.store.heap init := by
      simp [hsplit, valuesAt, List.filterMap_append, hm]
    rw [hvals]
    rw [hsplit] at hc
    cases init with
    | nil => exact .stop (by simp [hc.1, hc.2])
    | cons a seg =>
      rw [hc.1, hc.2]
      simpa using BstreeIterator.visits_segment hr.hangs hr.nodup seg [] [] a (by simp [hsplit])

theorem fortyTwentyTenThirty_constRange :
    RepOk stdLess fortyTwentyTenThirty fortyTwentyShape ∧
      BstreeIterator.Visits fortyTwentyTenThirty.store.heap (cend fortyTwentyTenThirty.tree)
        (cbegin fortyTwentyTenThirty.tree) [10, 20, 30] :=
  ⟨fortyTwentyTenThirty_repOk, constRange_drops_max fortyTwentyTenThirty_repOk⟩

def treeOfOne : State Nat := State.empty.after (insert stdLess 20 1)
def treeOfTwo : State Nat := (State.mk treeOfOne.store .empty).after (insert stdLess 20 2)

/-- The read-only range `[begin () const, end () const)` stops at the maximum, which
`end () const` marks valid: two one-element trees `{1}` and `{2}` compare equal and neither
is less, although their key sequences `[1]` and `[2]` differ. -/
theorem oneTwo_compare_equal :
    RepOk stdLess ⟨treeOfTwo.store, treeOfOne.tree⟩ (.node .leaf 0 .leaf) ∧
      RepOk stdLess treeOfTwo (.node .leaf 1 .leaf) ∧
      Shape.keys treeOfTwo.store.heap (.node .leaf 0 .leaf) = [1] ∧
      Shape.keys treeOfTwo.store.heap (.node .leaf 1 .leaf) = [2] ∧
      treeEq treeOfTwo.store.heap 20 (· == ·) treeOfOne.tree treeOfTwo.tree = .ok true ∧
      treeLt treeOfTwo.store.heap 20 (fun a b => decide (a < b)) treeOfOne.tree treeOfTwo.tree =
        .ok false := by
  refine ⟨⟨⟨⟨1, by decide⟩, trivial, trivial⟩, by decide, by decide, by decide, by decide, by decide⟩,
    ⟨⟨⟨2, by decide⟩, trivial, trivial⟩, by decide, by decide, by decide, by decide, by decide⟩, ?_⟩
  decide

end Bstree
end Dsa
