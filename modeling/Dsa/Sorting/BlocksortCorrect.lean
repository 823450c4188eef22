import Dsa.Sorting.Shellsort
import Dsa.Sorting.BlocksortMerge

/-! # Blocksort sorts

The anonymous shellsort of a block `[lo, hi)` reads and writes inside the block only: each of
its reads and writes at `lo + k` is the one of the block at `k` (`readAt_frame`,
`writeAt_frame`), round by round through the shift loop, a gap pass and the gap sequence, so
it is the whole-range shellsort of the block's `slice` with the rest of the range around it
(`shellsort_frame`). Its gaps end with 1, so it sorts the block (`shellsort_block`); the block
loop leaves sorted blocks of 16 (`sortBlocks_runsSorted`), and the merge phase then sorts the
range. The code's bounds are computed in `double`; the loops read them below `3 · rl_pow2` only
(`sortBlocksWith_congr`, `mergeStepWith_congr`), where up to `2 ^ 25` elements they are the exact
ones, so there `blocksort` returns a sorted permutation (`blocksort_sorted`). The gap passes reorder equivalent elements
(`blocksort_reorders_equivalent`), so the result is a sorted permutation, not the stable sort.
-/
namespace Dsa
namespace Blocksort
open Sorting
variable {α : Type} (comp : α → α → Bool)

/-! ### The shift loop, a gap pass and the gap sequence on a block -/

theorem shiftStep_cases {lo g j : Nat} {tmp : α} {a : List α}
    {r : (Nat × List α) ⊕ (Nat × List α)} (h : shiftStep comp lo g tmp (j, a) = .ok r) :
    (∃ j' a', r = .inl (j', a') ∧ j' ≤ j ∧ a'.length = a.length) ∨ r = .inr (j, a) := by
  by_cases hgj : g ≤ j
  · rcases hr : readAt a (lo + (j - g)) with e | y
    · simp [shiftStep, hgj, hr] at h
    by_cases hc : comp tmp y
    · rcases hw : writeAt a (lo + j) y with e | b
      · simp [shiftStep, hgj, hr, hc, hw] at h
      · simp only [shiftStep, ge_iff_le, hgj, if_true, hr, except_ok_bind, hc, hw] at h
        cases h
        exact .inl ⟨_, _, rfl, Nat.sub_le _ _, length_of_writeAt hw⟩
    · simp only [shiftStep, ge_iff_le, hgj, if_true, hr, except_ok_bind, hc] at h
      cases h
      exact .inr rfl
  · simp only [shiftStep, ge_iff_le, hgj, if_false] at h
    cases h
    exact .inr rfl

theorem loop_shiftStep_le {lo g : Nat} {tmp : α} :
    ∀ {fuel j j' : Nat} {a a' : List α}, loop (shiftStep comp lo g tmp) fuel (j, a) = .ok (j', a') →
      j' ≤ j ∧ a'.length = a.length
  | 0, _, _, _, _, h => by cases h
  | fuel + 1, j, j', a, a', h => by
    simp only [loop] at h
    rcases hs : shiftStep comp lo g tmp (j, a) with e | r <;> rw [hs] at h
    · cases h
    rcases shiftStep_cases comp hs with ⟨j₁, a₁, rfl, hj, ha⟩ | rfl
    · obtain ⟨hj', ha'⟩ := loop_shiftStep_le h
      exact ⟨hj'.trans hj, ha'.trans ha⟩
    · cases h
      exact ⟨le_rfl, rfl⟩

theorem gapInsert_length {lo g i : Nat} {a a' : List α} (h : gapInsert comp lo g a i = .ok a') :
    a'.length = a.length := by
  rcases hr : readAt a (lo + i) with e | tmp
  · simp [gapInsert, hr] at h
  rcases hl : loop (shiftStep comp lo g tmp) (i + 1) (i, a) with e | ⟨j, b⟩
  · simp [gapInsert, hr, hl] at h
  simp only [gapInsert, hr, hl, except_ok_bind] at h
  exact (length_of_writeAt h).trans (loop_shiftStep_le comp hl).2

theorem foldlM_gapInsert_length {lo g : Nat} :
    ∀ {l : List Nat} {a a' : List α}, l.foldlM (gapInsert comp lo g) a = .ok a' → a'.length = a.length
  | [], _, _, h => by cases h; rfl
  | i :: l, a, a', h => by
    rw [List.foldlM_cons] at h
    rcases hi : gapInsert comp lo g a i with e | b <;> rw [hi] at h
    · cases h
    exact (foldlM_gapInsert_length h).trans (gapInsert_length comp hi)

theorem lt_of_mem_steps {g n i : Nat} (h : i ∈ steps g n 1) : i < n := by
  simp only [steps, Nat.add_sub_cancel, Nat.div_one, List.mem_range'_1] at h
  omega

section Frame
variable (u v : List α)

theorem shiftStep_frame (g : Nat) (tmp : α) {j : Nat} (w : List α) (hj : j < w.length) :
    shiftStep comp u.length g tmp (j, u ++ w ++ v) =
      Sum.map (fun s => (s.1, u ++ s.2 ++ v)) (fun s => (s.1, u ++ s.2 ++ v)) <$>
        shiftStep comp 0 g tmp (j, w) := by
  by_cases hgj : g ≤ j
  · have hk : j - g < w.length := by omega
    simp only [shiftStep, ge_iff_le, hgj, if_true, readAt_frame u w v hk, Nat.zero_add]
    rcases readAt w (j - g) with e | y
    · rfl
    · by_cases hc : comp tmp y
      · simp only [hc, if_true, except_ok_bind, writeAt_frame u w v hj]
        rcases writeAt w j y with e | a <;> rfl
      · simp [hc]
  · simp [shiftStep, hgj]

theorem loop_shiftStep_frame (g : Nat) (tmp : α) : ∀ (fuel j : Nat) (w : List α), j < w.length →
    loop (shiftStep comp u.length g tmp) fuel (j, u ++ w ++ v) =
      (fun s => (s.1, u ++ s.2 ++ v)) <$> loop (shiftStep comp 0 g tmp) fuel (j, w)
  | 0, _, _, _ => rfl
  | fuel + 1, j, w, hj => by
    simp only [loop, shiftStep_frame comp u v g tmp w hj]
    rcases h : shiftStep comp 0 g tmp (j, w) with e | r
    · rfl
    · rcases shiftStep_cases comp h with ⟨j', a, rfl, hj', ha⟩ | rfl
      · exact loop_shiftStep_frame g tmp fuel j' a (by omega)
      · rfl

theorem gapInsert_frame (g : Nat) (w : List α) {i : Nat} (hi : i < w.length) :
    gapInsert comp u.length g (u ++ w ++ v) i =
      (fun w' => u ++ w' ++ v) <$> gapInsert comp 0 g w i := by
  simp only [gapInsert, readAt_frame u w v hi, Nat.zero_add]
  rcases readAt w i with e | tmp
  · rfl
  simp only [except_ok_bind, loop_shiftStep_frame comp u v g tmp (i + 1) i w hi]
  rcases hl : loop (shiftStep comp 0 g tmp) (i + 1) (i, w) with e | ⟨j, a⟩
  · rfl
  have ⟨hj, ha⟩ := loop_shiftStep_le comp hl
  simp only [except_map_ok, except_ok_bind, Nat.zero_add]
  rw [writeAt_frame u a v (by omega) tmp]

theorem foldlM_gapInsert_frame (g : Nat) : ∀ (l : List Nat) (w : List α), (∀ i ∈ l, i < w.length) →
    l.foldlM (gapInsert comp u.length g) (u ++ w ++ v) =
      (fun w' => u ++ w' ++ v) <$> l.foldlM (gapInsert comp 0 g) w
  | [], _, _ => rfl
  | i :: l, w, hl => by
    rw [List.foldlM_cons, List.foldlM_cons, gapInsert_frame comp u v g w (hl i (.head _))]
    rcases h : gapInsert comp 0 g w i with e | w'
    · rfl
    · exact foldlM_gapInsert_frame g l w' fun k hk => (gapInsert_length comp h) ▸ hl k (.tail _ hk)

theorem foldlM_passes_frame (n : Nat) : ∀ (gs : List Nat) (w : List α), w.length = n →
    gs.foldlM (fun a g => (steps g n 1).foldlM (gapInsert comp u.length g) a) (u ++ w ++ v) =
      (fun w' => u ++ w' ++ v) <$> gs.foldlM (fun a g => (steps g n 1).foldlM (gapInsert comp 0 g) a) w
  | [], _, _ => rfl
  | g :: gs, w, hw => by
    rw [List.foldlM_cons, List.foldlM_cons,
      foldlM_gapInsert_frame comp u v g _ w fun i hi => hw ▸ lt_of_mem_steps hi]
    rcases h : (steps g n 1).foldlM (gapInsert comp 0 g) w with e | w'
    · rfl
    · exact foldlM_passes_frame n gs w' ((foldlM_gapInsert_length comp h).trans hw)

theorem shellsort_frame (w : List α) :
    shellsort comp u.length (u.length + w.length) (u ++ w ++ v) =
      (fun w' => u ++ w' ++ v) <$> shellsort comp 0 w.length w := by
  simp only [shellsort, Nat.add_sub_cancel_left, Nat.sub_zero]
  exact foldlM_passes_frame comp u v w.length _ w rfl

end Frame

/-- The anonymous shellsort of a block `[lo, hi)` sorts the block and leaves the rest. -/
theorem shellsort_block (hw : IsStrictWeakOrder α fun x y => comp x y = true) {lo hi : Nat}
    {a : List α} (h : lo ≤ hi) (hh : hi ≤ a.length) :
    ∃ w, shellsort comp lo hi a = .ok (a.take lo ++ w ++ a.drop hi) ∧ w.Perm (slice a lo hi) ∧
      w.Sorted fun x y => comp y x = false := by
  obtain ⟨w, hsh, hp, hs⟩ := Shellsort.foldlM_innerLoop_sorted comp hw (slice a lo hi)
    curiaGapSequence (by decide) (by decide)
  have hframe := shellsort_frame comp (a.take lo) (a.drop hi) (slice a lo hi)
  rw [show shellsort comp 0 (slice a lo hi).length (slice a lo hi) = .ok w from hsh, except_map_ok,
    take_slice_drop h, List.length_take, Nat.min_eq_left (h.trans hh), length_slice hh,
    Nat.add_sub_cancel' h] at hframe
  exact ⟨w, hframe, hp, hs⟩

/-! ### The block loop and the whole sort -/

section Blocks
variable {comp} (hw : IsStrictWeakOrder α fun x y => comp x y = true) {n p : Nat} (hp : 0 < p)
include hw hp

theorem foldlM_shellsort_blocks :
    ∀ (K s : Nat) (b : List α), 16 ∣ s → s + 16 * K ≤ p → b.length = n →
      ∃ b', (List.range' s K 16).foldlM
          (fun a blk => shellsort comp (scaled n p blk) (scaled n p (blk + 16)) a) b = .ok b' ∧
        b'.length = n ∧ b'.take (scaled n p s) = b.take (scaled n p s) ∧ b'.Perm b ∧
        ∀ m, s ≤ m → m < s + 16 * K → 16 ∣ m → RunSorted comp n p 16 m b'
  | 0, _, b, _, _, hb => ⟨b, rfl, hb, rfl, .refl b, fun _ _ _ _ => by omega⟩
  | K + 1, s, b, hs, hK, hb => by
    have hK' : s + 16 * (K + 1) = s + 16 + 16 * K := by omega
    rw [hK'] at hK ⊢
    have hlh : scaled n p s ≤ scaled n p (s + 16) := scaled_mono (by omega)
    have hhi : scaled n p (s + 16) ≤ b.length := hb ▸ scaled_le hp (by omega)
    obtain ⟨w, hblk, hperm, hsorted⟩ := shellsort_block comp hw hlh hhi
    have hwlen : w.length = scaled n p (s + 16) - scaled n p s := by
      rw [hperm.length_eq, length_slice hhi]
    obtain ⟨b', hfold, hb', htake, hperm', hruns'⟩ := foldlM_shellsort_blocks K (s + 16)
      (b.take (scaled n p s) ++ w ++ b.drop (scaled n p (s + 16))) (Nat.dvd_add hs (Nat.dvd_refl _))
      (by omega) (by rw [length_splice hlh hhi hwlen, hb])
    refine ⟨b', by rw [List.range'_succ, List.foldlM_cons, hblk, except_ok_bind, hfold], hb', ?_,
      hperm'.trans ?_, fun m hm hm' hdvd => ?_⟩
    · have := congrArg (List.take (scaled n p s)) htake
      simp only [List.take_take, Nat.min_eq_left hlh] at this
      rw [this, take_splice hlh hhi]
    · conv_rhs => rw [← take_slice_drop (a := b) hlh]
      exact (hperm.append_left _).append_right _
    · by_cases hms : m = s
      · subst hms
        rw [RunSorted, slice_eq_of_take_eq htake le_rfl, slice_splice_self hlh hhi hwlen]
        exact hsorted
      · exact hruns' m (add_le_of_dvd_of_lt hs hdvd (by omega)) (by omega) hdvd

/-- The block phase: the range is permuted and every block of 16 is sorted. -/
theorem sortBlocks_runsSorted (h16 : 16 ∣ p) (a : List α) (ha : a.length = n) :
    ∃ b, sortBlocks comp n p a = .ok b ∧ b.length = n ∧ b.Perm a ∧ RunsSorted comp n p 16 b := by
  have hK : 0 + 16 * (p / 16) = p := by rw [Nat.zero_add, Nat.mul_div_cancel' h16]
  obtain ⟨b, hfold, hb, -, hperm, hruns⟩ :=
    foldlM_shellsort_blocks hw hp (p / 16) 0 a (Nat.dvd_zero _) hK.le ha
  exact ⟨b, by rw [sortBlocks, sortBlocksWith, steps_of_dvd (by decide) h16]; exact hfold, hb, hperm,
    fun m hm hdvd => hruns m (Nat.zero_le _) (by omega) hdvd⟩

end Blocks

/-! ### The bounds in `double` -/

theorem sortBlocksWith_congr {f g : Nat → Nat} {p : Nat} (h : ∀ b, b < p + 16 → f b = g b) :
    sortBlocksWith comp f p = sortBlocksWith comp g p := by
  funext a
  refine foldlM_congr (fun x b hb => ?_) a
  have := lt_of_mem_steps_zero hb
  rw [h b (by omega), h (b + 16) (by omega)]

theorem mergeStepWith_congr {f g : Nat → Nat} {p : Nat} (h : ∀ b, b < 3 * p → f b = g b) :
    mergeStepWith comp f p = mergeStepWith comp g p := by
  funext ⟨len, a⟩
  simp only [mergeStepWith]
  split
  · next hlt =>
    rw [foldlM_congr (g := mergeRunsWith comp g len) (fun x m hm => ?_) a]
    have := lt_of_mem_steps_zero hm
    simp only [mergeRunsWith, h m (by omega), h (m + len) (by omega), h (m + len * 2) (by omega)]
  · rfl

/-- `blocksort` sorts every range of 16 to `2 ^ 25` elements. There its bounds, computed in
`double`, are the exact `⌊b · n / rl_pow2⌋`; the shellsort of each block sorts the block and
leaves the rest of the range; and `blocksort` returns, without reading or writing outside the
range, a sorted permutation of it. -/
theorem blocksort_sorted (hw : IsStrictWeakOrder α fun x y => comp x y = true) (a : List α)
    (h16 : 16 ≤ a.length) (hsmall : a.length ≤ 2 ^ 25) :
    (∀ b, b ≤ 2 ^ a.length.log2 →
      scaledDouble a.length (2 ^ a.length.log2) b = scaled a.length (2 ^ a.length.log2) b) ∧
    (∀ m lo hi, 16 ∣ m → m < 2 ^ a.length.log2 → scaledDouble a.length (2 ^ a.length.log2) m = lo →
      scaledDouble a.length (2 ^ a.length.log2) (m + 16) = hi → ∀ x : List α, x.length = a.length →
        ∃ w, shellsort comp lo hi x = .ok (x.take lo ++ w ++ x.drop hi) ∧ w.Perm (slice x lo hi) ∧
          w.Sorted fun x y => comp y x = false) ∧
    ∃ r, blocksort comp a = .ok r ∧ r.Perm a ∧ r.Sorted fun x y => comp y x = false := by
  have hn0 : a.length ≠ 0 := by omega
  have hofNat : (UInt64.ofNat a.length).toNat = a.length :=
    UInt64.toNat_ofNat_of_lt (lt_of_le_of_lt hsmall (by decide))
  have hp : (rlPow2 (UInt64.ofNat a.length)).toNat = 2 ^ a.length.log2 := by
    rw [toNat_rlPow2 _ (by rw [hofNat]; exact hn0), hofNat]
  have hlog : 4 ≤ a.length.log2 := (Nat.le_log2 hn0).2 h16
  have hpn : 2 ^ a.length.log2 ≤ a.length := Nat.log2_self_le hn0
  have h16p : 16 ≤ 2 ^ a.length.log2 := (Nat.pow_le_pow_right (by decide) hlog : 2 ^ 4 ≤ _)
  have h16dvd : 16 ∣ 2 ^ a.length.log2 := (Nat.pow_dvd_pow 2 hlog : 2 ^ 4 ∣ _)
  have hexact : ∀ b, b < 3 * 2 ^ a.length.log2 →
      scaledDouble a.length (2 ^ a.length.log2) b = scaled a.length (2 ^ a.length.log2) b :=
    fun b hb => scaledDouble_eq_scaled hpn (by omega) (calc
      b * a.length ≤ (3 * 2 ^ 25) * 2 ^ 25 := Nat.mul_le_mul (by omega) hsmall
      _ < 2 ^ 53 := by decide) (by omega)
  refine ⟨fun b hb => hexact b (by omega), fun m lo hi hm hmp hlo hhi x hx => ?_, ?_⟩
  · rw [← hlo, ← hhi, hexact m (by omega), hexact (m + 16) (by omega)]
    exact shellsort_block comp hw (scaled_mono (by omega)) (hx.symm ▸ scaled_le (by omega) (by omega))
  · obtain ⟨b, hb, hblen, hperm, hruns⟩ := sortBlocks_runsSorted hw (by omega) h16dvd a rfl
    obtain ⟨r, hr, hsort⟩ := loop_mergeStep hw (by omega) hpn rfl h16p b hblen hruns
    refine ⟨r, ?_, hsort.perm.trans hperm, hsort.sorted⟩
    rw [blocksort, hp, sortBlocksWith_congr comp fun b hb => hexact b (by omega),
      mergeStepWith_congr comp fun b hb => hexact b hb,
      show sortBlocksWith comp (scaled a.length (2 ^ a.length.log2)) _ a = .ok b from hb, except_ok_bind]
    exact hr

theorem blocksort_sorted_twenty :
    IsStrictWeakOrder ℕ (fun x y => decide (x < y) = true) ∧ 16 ≤ (List.range 20).reverse.length ∧
      (List.range 20).reverse.length ≤ 2 ^ 25 ∧
      (∀ b, b ≤ 2 ^ (List.range 20).reverse.length.log2 →
        scaledDouble (List.range 20).reverse.length (2 ^ (List.range 20).reverse.length.log2) b =
          scaled (List.range 20).reverse.length (2 ^ (List.range 20).reverse.length.log2) b) ∧
      (∀ m lo hi, 16 ∣ m → m < 2 ^ (List.range 20).reverse.length.log2 →
        scaledDouble (List.range 20).reverse.length (2 ^ (List.range 20).reverse.length.log2) m = lo →
        scaledDouble (List.range 20).reverse.length (2 ^ (List.range 20).reverse.length.log2) (m + 16) =
          hi → ∀ x : List ℕ, x.length = (List.range 20).reverse.length →
          ∃ w, shellsort (fun x y : ℕ => decide (x < y)) lo hi x = .ok (x.take lo ++ w ++ x.drop hi) ∧
            w.Perm (slice x lo hi) ∧ w.Sorted fun x y => decide (y < x) = false) ∧
      ∃ r, blocksort (fun x y : ℕ => decide (x < y)) (List.range 20).reverse = .ok r ∧
        r.Perm (List.range 20).reverse ∧ r.Sorted fun x y => decide (y < x) = false :=
  ⟨isStrictWeakOrder_decide_lt, by decide, by decide,
    blocksort_sorted _ isStrictWeakOrder_decide_lt _ (by decide) (by decide)⟩

end Blocksort
end Dsa
