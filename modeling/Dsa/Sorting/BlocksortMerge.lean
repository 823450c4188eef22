import Dsa.Sorting.Blocksort
import Dsa.Sorting.Order

/-! # The merge phase of blocksort

After the blocks of 16 are sorted, `len` doubles from 16 below `rl_pow2` and each round joins
the runs `[⌊m · scale⌋, ⌊(m + len) · scale⌋)` and `[⌊(m + len) · scale⌋, ⌊(m + 2 len) · scale⌋)`
for `m` a multiple of `2 len`. With `rl_pow2 ≤ n` the scale is at least 1, so no run is empty
(`scaled_lt`), and a run is a `slice` of the range. One pair is settled by `mergeRuns_stableSort`,
one round by `mergeStep_level`, and the loop by `loop_mergeStep` through `loop_of_variant`.
-/
namespace Dsa
namespace Blocksort
open Sorting
variable {α : Type} (comp : α → α → Bool)

section Scale
variable {n p : Nat}

@[simp] theorem scaled_zero : scaled n p 0 = 0 := by simp [scaled]

theorem scaled_self (hp : 0 < p) : scaled n p p = n := Nat.mul_div_cancel_left n hp

theorem scaled_mono {b b' : Nat} (h : b ≤ b') : scaled n p b ≤ scaled n p b' :=
  Nat.div_le_div_right (Nat.mul_le_mul_right n h)

theorem scaled_le (hp : 0 < p) {b : Nat} (h : b ≤ p) : scaled n p b ≤ n :=
  (scaled_mono h).trans (scaled_self hp).le

theorem scaled_lt (hp : 0 < p) (hpn : p ≤ n) {b b' : Nat} (h : b < b') :
    scaled n p b < scaled n p b' :=
  calc scaled n p b < b * n / p + 1 := Nat.lt_succ_self _
    _ = (b * n + p) / p := (Nat.add_div_right _ hp).symm
    _ ≤ scaled n p b' := Nat.div_le_div_right (by
        have := Nat.mul_le_mul_right n (Nat.succ_le_of_lt h)
        rw [Nat.succ_mul] at this
        omega)

end Scale

/-- The elements of `[i, j)`. -/
def slice (a : List α) (i j : Nat) : List α := (a.take j).drop i

section Slice
variable {a : List α} {i j : Nat}

@[simp] theorem slice_self (a : List α) (i : Nat) : slice a i i = [] :=
  List.drop_eq_nil_of_le (by simp)

theorem length_slice (h : j ≤ a.length) : (slice a i j).length = j - i := by
  simp [slice, Nat.min_eq_left h]

theorem take_append_slice (h : i ≤ j) : a.take i ++ slice a i j = a.take j := by
  have := List.take_append_drop i (a.take j)
  rwa [List.take_take, Nat.min_eq_left h] at this

theorem take_slice_drop (h : i ≤ j) : a.take i ++ slice a i j ++ a.drop j = a := by
  rw [take_append_slice h, List.take_append_drop]

theorem slice_append_left {u v : List α} (h : j ≤ u.length) : slice (u ++ v) i j = slice u i j := by
  rw [slice, slice, List.take_append_of_le_length h]

theorem slice_append_right {u v : List α} (h : u.length ≤ i) :
    slice (u ++ v) i j = slice v (i - u.length) (j - u.length) := by
  rw [slice, slice, List.drop_take, List.drop_take, List.drop_append_eq_append_drop,
    List.drop_eq_nil_of_le h, List.nil_append, show j - u.length - (i - u.length) = j - i by omega]

theorem slice_eq_of_take_eq {b : List α} {k : Nat} (h : a.take k = b.take k) (hj : j ≤ k) :
    slice a i j = slice b i j := by
  rw [slice, slice, ← Nat.min_eq_left hj, ← List.take_take, h, List.take_take]

theorem slice_eq_cons (h : i < j) (hj : j ≤ a.length) :
    slice a i j = a[i] :: slice a (i + 1) j := by
  simp only [slice, List.drop_eq_getElem_cons (show i < (a.take j).length by simp; omega),
    List.getElem_take]

theorem slice_append_slice {k : Nat} (h₁ : i ≤ j) (h₂ : j ≤ k) :
    slice a i j ++ slice a j k = slice a i k := by
  refine List.append_cancel_left (?_ : a.take i ++ _ = a.take i ++ _)
  rw [← List.append_assoc, take_append_slice h₁, take_append_slice h₂, take_append_slice (h₁.trans h₂)]

theorem slice_eq_concat (h : i < j) (hj : j ≤ a.length) :
    slice a i j = slice a i (j - 1) ++ [a[j - 1]] := by
  rw [← slice_append_slice (Nat.le_sub_one_of_lt h) (Nat.sub_le j 1),
    slice_eq_cons (Nat.sub_lt (by omega) Nat.one_pos) hj]
  simp only [Nat.sub_add_cancel (show 1 ≤ j by omega), slice_self]

end Slice

/-! ### Replacing `[lo, hi)`

`std::rotate` and `std::inplace_merge` on `[lo, hi)` leave `first [0, lo)` and `first [hi, n)`
as they were.
-/

section Splice
variable {b r : List α} {lo hi : Nat} (hlh : lo ≤ hi) (hb : hi ≤ b.length)
  (hr : r.length = hi - lo)
include hlh hb hr

theorem length_splice : (b.take lo ++ r ++ b.drop hi).length = b.length := by
  simp [hr]
  omega

omit hr in
theorem take_splice : (b.take lo ++ r ++ b.drop hi).take lo = b.take lo := by
  rw [List.append_assoc, List.take_left' (by simp; omega)]

theorem slice_splice_self : slice (b.take lo ++ r ++ b.drop hi) lo hi = r := by
  rw [slice_append_left (by simp; omega), slice_append_right (by simp)]
  simp [slice, hr, Nat.min_eq_left (hlh.trans hb)]

theorem slice_splice_of_le {i j : Nat} (h : hi ≤ i) :
    slice (b.take lo ++ r ++ b.drop hi) i j = slice b i j := by
  have hX : (b.take lo ++ r).length = hi := by simp [hr]; omega
  conv_rhs => rw [← List.take_append_drop hi b]
  rw [slice_append_right (hX ▸ h), slice_append_right (by simp; omega), hX, List.length_take,
    Nat.min_eq_left hb]

end Splice

/-! ### One pair of runs -/

section Pair
variable {comp} (hw : IsStrictWeakOrder α fun x y => comp x y = true)
include hw

theorem not_lt_slice_first {a : List α} {i j : Nat} (h : i < j) (hj : j ≤ a.length)
    (hs : (slice a i j).Sorted fun x y => comp y x = false) : ∀ z ∈ slice a i j, comp z a[i] = false := by
  rw [slice_eq_cons h hj] at hs ⊢
  exact not_lt_head hw hs

theorem not_lt_slice_last {a : List α} {i j : Nat} (h : i < j) (hj : j ≤ a.length)
    (hs : (slice a i j).Sorted fun x y => comp y x = false) :
    ∀ y ∈ slice a i j, comp a[j - 1] y = false := by
  rw [slice_eq_concat h hj] at hs ⊢
  exact not_lt_last hw hs

/-- The body of the `merge` loop on two sorted non-empty runs `[lo, mid)` and `[mid, hi)`
rewrites `[lo, hi)` alone, into the stable sort of the two: by `std::rotate` when the last of
the second run is below the first of the first, by `std::inplace_merge` when the runs overlap,
and not at all when they are already in order. -/
theorem mergeRuns_stableSort {n p len m lo mid hi : Nat} {b : List α}
    (hlo : scaled n p m = lo) (hmid : scaled n p (m + len) = mid)
    (hhi : scaled n p (m + len * 2) = hi) (h₁ : lo < mid) (h₂ : mid < hi) (h₃ : hi ≤ b.length)
    (s₁ : (slice b lo mid).Sorted fun x y => comp y x = false)
    (s₂ : (slice b mid hi).Sorted fun x y => comp y x = false) :
    ∃ r, mergeRuns comp n p len b m = .ok (b.take lo ++ r ++ b.drop hi) ∧
      StableSort comp (slice b lo hi) r := by
  rw [← slice_append_slice h₁.le h₂.le]
  have hfirst₁ := not_lt_slice_first hw h₁ (by omega) s₁
  have hlast₁ := not_lt_slice_last hw h₁ (by omega) s₁
  have hfirst₂ := not_lt_slice_first hw h₂ h₃ s₂
  have hlast₂ := not_lt_slice_last hw h₂ h₃ s₂
  simp only [mergeRuns, mergeRunsWith, hlo, hmid, hhi, readPrev_of_le (show 0 < hi by omega) h₃,
    readPrev_of_le (show 0 < mid by omega) (show mid ≤ b.length by omega),
    readAt_of_lt (show lo < b.length by omega), readAt_of_lt (show mid < b.length by omega),
    except_ok_bind]
  split
  · next hrot =>
    refine ⟨_, by simp [rotate, h₁.le, h₂.le, h₃, slice], stableSort_swap hw s₁ s₂ fun y hy z hz => ?_⟩
    exact lt_of_lt_of_not_lt hw (lt_of_not_lt_of_lt hw (hlast₂ y hy) hrot) (hfirst₁ z hz)
  · split
    · exact ⟨_, by simp [inplaceMerge, h₁.le, h₂.le, h₃, slice], stableSort_merge hw s₁ s₂⟩
    · next hmerge =>
      refine ⟨_, by rw [← List.append_assoc, take_append_slice h₁.le, take_append_slice h₂.le,
        List.take_append_drop]; rfl, stableSort_append s₁ s₂ fun y hy z hz => ?_⟩
      exact not_lt_trans hw (not_lt_trans hw (hfirst₂ z hz) (Bool.eq_false_iff.mpr hmerge)) (hlast₁ y hy)

end Pair

/-! ### One round of the `len` loop -/

/-- The run `[⌊m · scale⌋, ⌊(m + len) · scale⌋)` is sorted. -/
def RunSorted (n p len m : Nat) (a : List α) : Prop :=
  (slice a (scaled n p m) (scaled n p (m + len))).Sorted fun x y => comp y x = false

instance (n p len m : Nat) (a : List α) : Decidable (RunSorted comp n p len m a) :=
  inferInstanceAs (Decidable (List.Pairwise _ _))

/-- Every run `[⌊m · scale⌋, ⌊(m + len) · scale⌋)` with `m` a multiple of `len` below
`rl_pow2` is sorted. -/
def RunsSorted (n p len : Nat) (a : List α) : Prop :=
  ∀ m < p, len ∣ m → RunSorted comp n p len m a

instance (n p len : Nat) (a : List α) : Decidable (RunsSorted comp n p len a) :=
  inferInstanceAs (Decidable (∀ m, m < p → len ∣ m → RunSorted comp n p len m a))

theorem add_le_of_dvd_of_lt {k m p : Nat} (hm : k ∣ m) (hp : k ∣ p) (h : m < p) : m + k ≤ p := by
  obtain ⟨c, rfl⟩ := hm
  obtain ⟨d, rfl⟩ := hp
  calc k * c + k = k * (c + 1) := (Nat.mul_succ k c).symm
    _ ≤ k * d := Nat.mul_le_mul_left k (Nat.lt_of_mul_lt_mul_left h)

theorem two_pow_mul_two_dvd {j e : Nat} (h : 2 ^ j < 2 ^ e) : 2 ^ j * 2 ∣ 2 ^ e :=
  Nat.pow_succ 2 j ▸ Nat.pow_dvd_pow 2 ((Nat.pow_lt_pow_iff_right (by decide)).1 h)

theorem steps_of_dvd {k p : Nat} (hk : 0 < k) (h : k ∣ p) : steps 0 p k = List.range' 0 (p / k) k := by
  obtain ⟨q, rfl⟩ := h
  rw [steps, Nat.sub_zero, Nat.mul_div_cancel_left q hk, show k * q + k - 1 = k - 1 + k * q by omega,
    Nat.add_mul_div_left _ _ hk, Nat.div_eq_of_lt (by omega), Nat.zero_add]

section Level
variable {comp} (hw : IsStrictWeakOrder α fun x y => comp x y = true) {n p : Nat} (hp : 0 < p)
  (hpn : p ≤ n)
include hw hp hpn

theorem foldlM_mergeRuns {len : Nat} (hlen : 0 < len) :
    ∀ (K s : Nat) (b : List α), len * 2 ∣ s → s + len * 2 * K ≤ p → b.length = n →
      (∀ m, s ≤ m → m < s + len * 2 * K → len ∣ m → RunSorted comp n p len m b) →
      ∃ b', (List.range' s K (len * 2)).foldlM (mergeRuns comp n p len) b = .ok b' ∧
        b'.length = n ∧ b'.take (scaled n p s) = b.take (scaled n p s) ∧ StablePerm comp b b' ∧
        ∀ m, s ≤ m → m < s + len * 2 * K → len * 2 ∣ m → RunSorted comp n p (len * 2) m b'
  | 0, _, b, _, _, hb, _ => ⟨b, rfl, hb, rfl, StablePerm.refl b, fun _ _ _ _ => by omega⟩
  | K + 1, s, b, hs, hK, hb, hruns => by
    have hK' : s + len * 2 * (K + 1) = s + len * 2 + len * 2 * K := by rw [Nat.mul_succ]; omega
    rw [hK'] at hK hruns ⊢
    have hlm : scaled n p s < scaled n p (s + len) := scaled_lt hp hpn (by omega)
    have hmh : scaled n p (s + len) < scaled n p (s + len * 2) := scaled_lt hp hpn (by omega)
    have hhi : scaled n p (s + len * 2) ≤ b.length := hb ▸ scaled_le hp (by omega)
    have hlen_s : len ∣ s := Nat.dvd_trans (Nat.dvd_mul_right len 2) hs
    have hrun₂ := hruns (s + len) (by omega) (by omega)
      (Nat.dvd_add hlen_s (Nat.dvd_refl len))
    rw [RunSorted, show s + len + len = s + len * 2 by omega] at hrun₂
    obtain ⟨r, hr, hsort⟩ := mergeRuns_stableSort hw rfl rfl rfl hlm hmh hhi
      (hruns s le_rfl (by omega) hlen_s) hrun₂
    have hrlen : r.length = scaled n p (s + len * 2) - scaled n p s := by
      rw [hsort.perm.length_eq, length_slice hhi]
    obtain ⟨b', hfold, hb', htake, hperm, hruns'⟩ := foldlM_mergeRuns hlen K (s + len * 2)
      (b.take (scaled n p s) ++ r ++ b.drop (scaled n p (s + len * 2)))
      (Nat.dvd_add hs (Nat.dvd_refl _)) (by omega) (by rw [length_splice (by omega) hhi hrlen, hb])
      fun m hm hm' hdvd => by
        rw [RunSorted, slice_splice_of_le (by omega) hhi hrlen (scaled_mono hm)]
        exact hruns m (by omega) (by omega) hdvd
    refine ⟨b', by rw [List.range'_succ, List.foldlM_cons, hr, except_ok_bind, hfold], hb', ?_, ?_, ?_⟩
    · have := congrArg (List.take (scaled n p s)) htake
      simp only [List.take_take, Nat.min_eq_left (hlm.trans hmh).le] at this
      rw [this, take_splice (by omega) hhi]
    · refine StablePerm.trans ?_ hperm
      have := hsort.toStablePerm.append_middle (b.take (scaled n p s)) (b.drop (scaled n p (s + len * 2)))
      rwa [take_slice_drop (by omega)] at this
    · intro m hm hm' hdvd
      by_cases hms : m = s
      · subst hms
        rw [RunSorted, slice_eq_of_take_eq htake le_rfl, slice_splice_self (by omega) hhi hrlen]
        exact hsort.sorted
      · exact hruns' m (add_le_of_dvd_of_lt hs hdvd (by omega)) (by omega) hdvd

theorem mergeStep_level {len : Nat} (hlen : 0 < len) (hdvd : len * 2 ∣ p) (hlt : len < p)
    (b : List α) (hb : b.length = n) (hs : RunsSorted comp n p len b) :
    ∃ b', mergeStep comp n p (len, b) = .ok (.inl (len * 2, b')) ∧ b'.length = n ∧
      RunsSorted comp n p (len * 2) b' ∧ StablePerm comp b b' := by
  have hK : 0 + len * 2 * (p / (len * 2)) = p := by rw [Nat.zero_add, Nat.mul_div_cancel' hdvd]
  obtain ⟨b', hfold, hb', -, hperm, hruns⟩ := foldlM_mergeRuns hw hp hpn hlen (p / (len * 2)) 0 b
    (Nat.dvd_zero _) hK.le hb fun m _ hm hdvd' => hs m (by omega) hdvd'
  refine ⟨b', ?_, hb', fun m hm hdvd' => hruns m (Nat.zero_le _) (by omega) hdvd', hperm⟩
  simp only [mergeStep, mergeStepWith, if_pos hlt, steps_of_dvd (by omega) hdvd]
  rw [show (List.range' 0 (p / (len * 2)) (len * 2)).foldlM (mergeRunsWith comp (scaled n p) len) b =
    .ok b' from hfold]
  rfl

/-- The `len` loop from 16, on sorted blocks of 16: `len` runs through the powers of two up to
`rl_pow2`, and the loop returns the stable sort of the range. -/
theorem loop_mergeStep {e : Nat} (hpe : p = 2 ^ e) (h16 : 16 ≤ p) (a : List α) (ha : a.length = n)
    (hs : RunsSorted comp n p 16 a) :
    ∃ r, loop (mergeStep comp n p) (p + 1) (16, a) = .ok r ∧ StableSort comp a r := by
  refine loop_of_variant
    (fun st => (∃ j, st.1 = 2 ^ j) ∧ st.1 ≤ p ∧ st.2.length = n ∧ RunsSorted comp n p st.1 st.2 ∧
      StablePerm comp a st.2)
    (StableSort comp a) (fun st => p - st.1) ?_ (p + 1) (16, a) ⟨⟨4, rfl⟩, h16, ha, hs, StablePerm.refl a⟩
    (Nat.lt_succ_of_le (Nat.sub_le p 16))
  rintro ⟨len, b⟩ ⟨⟨j, rfl⟩, hle, hb, hruns, hperm⟩
  have hpos := Nat.two_pow_pos j
  by_cases hlt : 2 ^ j < p
  · have hdvd : 2 ^ j * 2 ∣ p := hpe ▸ two_pow_mul_two_dvd (hpe ▸ hlt)
    obtain ⟨b', hstep, hb', hruns', hperm'⟩ := mergeStep_level hw hp hpn hpos hdvd hlt b hb hruns
    exact .inl ⟨_, hstep, ⟨⟨j + 1, (Nat.pow_succ 2 j).symm⟩, Nat.le_of_dvd hp hdvd, hb', hruns',
      hperm.trans hperm'⟩, by simp only; omega⟩
  · obtain rfl : 2 ^ j = p := by omega
    refine .inr ⟨b, by simp [mergeStep, mergeStepWith], hperm.perm, ?_, hperm.stable⟩
    have := hruns 0 hp (Nat.dvd_zero _)
    rwa [RunSorted, scaled_zero, Nat.zero_add, scaled_self hp, slice, List.drop_zero, ← hb,
      List.take_length] at this

end Level

/-- The merge phase of `blocksort` on a range of `n ≥ 16` elements whose blocks of 16 are
sorted, with `rl_pow2 = 2 ^ ⌊log₂ n⌋`: the runs tile `[0, n)` and none is empty; a round of
the `len` loop turns sorted runs of `len = 16, 32, …` into sorted runs of `2 len`, stably; each
`rotate` or `inplace_merge` stably sorts its pair of runs; and the loop returns the stable sort
of the range. -/
theorem blocksort_merge_phase (hw : IsStrictWeakOrder α fun x y => comp x y = true) {n p : Nat}
    (hn : 16 ≤ n) (hp : p = 2 ^ n.log2) (a : List α) (ha : a.length = n)
    (hblocks : RunsSorted comp n p 16 a) :
    (scaled n p 0 = 0 ∧ scaled n p p = n ∧ ∀ m len, 0 < len → m + len ≤ p →
      scaled n p m < scaled n p (m + len) ∧ scaled n p (m + len) ≤ n) ∧
    (∀ k (b : List α), 16 * 2 ^ k < p → b.length = n → RunsSorted comp n p (16 * 2 ^ k) b →
      ∃ b', mergeStep comp n p (16 * 2 ^ k, b) = .ok (.inl (16 * 2 ^ k * 2, b')) ∧
        RunsSorted comp n p (16 * 2 ^ k * 2) b' ∧ StablePerm comp b b') ∧
    (∀ k m (b : List α), 16 * 2 ^ k < p → 16 * 2 ^ k * 2 ∣ m → m < p → b.length = n →
      RunSorted comp n p (16 * 2 ^ k) m b → RunSorted comp n p (16 * 2 ^ k) (m + 16 * 2 ^ k) b →
      ∃ r, mergeRuns comp n p (16 * 2 ^ k) b m =
          .ok (b.take (scaled n p m) ++ r ++ b.drop (scaled n p (m + 16 * 2 ^ k * 2))) ∧
        StableSort comp (slice b (scaled n p m) (scaled n p (m + 16 * 2 ^ k * 2))) r) ∧
    ∃ r, loop (mergeStep comp n p) (p + 1) (16, a) = .ok r ∧ StableSort comp a r := by
  have hn0 : n ≠ 0 := by omega
  have hpn : p ≤ n := hp ▸ Nat.log2_self_le hn0
  have h16 : 16 ≤ p := hp ▸ (Nat.pow_le_pow_right (by decide) ((Nat.le_log2 hn0).2 hn) : 2 ^ 4 ≤ _)
  have hp0 : 0 < p := by omega
  have hdvd₂ : ∀ k, 16 * 2 ^ k < p → 16 * 2 ^ k * 2 ∣ p := fun k hk => by
    rw [show 16 * 2 ^ k = 2 ^ (k + 4) by rw [Nat.pow_add, Nat.mul_comm], hp] at hk ⊢
    exact two_pow_mul_two_dvd hk
  refine ⟨⟨scaled_zero, scaled_self hp0, fun m len hlen hm => ⟨scaled_lt hp0 hpn (by omega),
    scaled_le hp0 hm⟩⟩, fun k b hk hb hruns => ?_, fun k m b hk hdvd hm hb s₁ s₂ => ?_,
    loop_mergeStep hw hp0 hpn hp h16 a ha hblocks⟩
  · obtain ⟨b', hstep, -, hruns', hperm⟩ := mergeStep_level hw hp0 hpn
      (Nat.mul_pos (by decide) (Nat.two_pow_pos k)) (hdvd₂ k hk) hk b hb hruns
    exact ⟨b', hstep, hruns', hperm⟩
  · have hmp := add_le_of_dvd_of_lt hdvd (hdvd₂ k hk) hm
    have := Nat.two_pow_pos k
    rw [RunSorted, Nat.add_assoc, ← Nat.mul_two] at s₂
    exact mergeRuns_stableSort hw rfl rfl rfl (scaled_lt hp0 hpn (by omega))
      (scaled_lt hp0 hpn (by omega)) (hb ▸ scaled_le hp0 hmp) s₁ s₂

theorem blocksort_merge_phase_two_blocks :
    IsStrictWeakOrder ℕ (fun x y => decide (x < y) = true) ∧ 16 ≤ 32 ∧ 32 = 2 ^ Nat.log2 32 ∧
      (List.range' 16 16 ++ List.range 16).length = 32 ∧
      RunsSorted (fun x y : ℕ => decide (x < y)) 32 32 16 (List.range' 16 16 ++ List.range 16) ∧
      ∃ r, loop (mergeStep (fun x y : ℕ => decide (x < y)) 32 32) (32 + 1)
          (16, List.range' 16 16 ++ List.range 16) = .ok r ∧
        StableSort (fun x y : ℕ => decide (x < y)) (List.range' 16 16 ++ List.range 16) r := by
  have hp : 32 = 2 ^ Nat.log2 32 := by rw [show (32 : ℕ) = 2 ^ 5 from rfl, Nat.log2_two_pow]
  have hs : RunsSorted (fun x y : ℕ => decide (x < y)) 32 32 16 (List.range' 16 16 ++ List.range 16) := by
    decide
  exact ⟨isStrictWeakOrder_decide_lt, by decide, hp, rfl, hs,
    (blocksort_merge_phase _ isStrictWeakOrder_decide_lt (by decide) hp
      (List.range' 16 16 ++ List.range 16) rfl hs).2.2.2⟩

example : loop (mergeStep (fun x y : ℕ => decide (x < y)) 32 32) (32 + 1)
    (16, List.range' 16 16 ++ List.range 16) = .ok (List.range 32) := by decide

end Blocksort
end Dsa
