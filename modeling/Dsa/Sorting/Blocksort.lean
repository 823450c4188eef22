import Dsa.Sorting.Range
import Mathlib.Data.List.Sort
import Mathlib.Algebra.Group.Nat.Basic

/-! # Blocksort

`dsa::blocksort`: with `rl_pow2` the largest power of two not above the length `n` and
`scale = n / rl_pow2`, the blocks `[b · scale, (b + 16) · scale)` for `b = 0, 16, …` are each
sorted by a shellsort with the gaps 23, 10, 4, 1, and runs of doubling length are then
joined: by `std::rotate` when the second run lies wholly below the first, by
`std::inplace_merge` when the two overlap. The bounds are computed in binary64 as the source
computes them (`scaledDouble`); while `b · n` stays below `2 ^ 53` they are the exact
`⌊b · n / rl_pow2⌋` (`scaled`, `scaledDouble_eq_scaled`), the bounds the phases are stated
with.
-/
namespace Dsa
namespace Blocksort
open Sorting
variable {α : Type} (comp : α → α → Bool)

/-- `curia_gap_sequence`. -/
def curiaGapSequence : List Nat := [23, 10, 4, 1]

/-- One round of `for (j = i; j >= g && comp (tmp, index [j - g]); j -= g)
index [j] = index [j - g];` over the locals `j` and the range. -/
def shiftStep (lo g : Nat) (tmp : α) :
    Nat × List α → Except Fault ((Nat × List α) ⊕ (Nat × List α))
  | (j, a) => do
    if j ≥ g then
      if comp tmp (← readAt a (lo + (j - g))) then
        let a ← writeAt a (lo + j) (← readAt a (lo + (j - g)))
        pure (.inl (j - g, a))
      else pure (.inr (j, a))
    else pure (.inr (j, a))

/-- One round of `for (std::size_t i = g; i < length; ++i)`: `tmp = index [i]`, the shift,
and `index [j] = tmp`. Each shift lowers `j`, so `i + 1` rounds bound it. -/
def gapInsert (lo g : Nat) (a : List α) (i : Nat) : Except Fault (List α) := do
  let tmp ← readAt a (lo + i)
  let (j, a) ← loop (shiftStep comp lo g tmp) (i + 1) (i, a)
  writeAt a (lo + j) tmp

/-- The anonymous `shellsort (first + lo, first + hi, comp)`. -/
def shellsort (lo hi : Nat) (a : List α) : Except Fault (List α) :=
  curiaGapSequence.foldlM (fun a g => (steps g (hi - lo) 1).foldlM (gapInsert comp lo g) a) a

/-- `rl_pow2`: `rl |= rl >> 1`, … `rl |= rl >> 32`, then `rl - (rl >> 1)`, on
`std::uint64_t`. -/
def rlPow2 (rangelen : UInt64) : UInt64 :=
  let rl := rangelen ||| rangelen >>> 1
  let rl := rl ||| rl >>> 2
  let rl := rl ||| rl >>> 4
  let rl := rl ||| rl >>> 8
  let rl := rl ||| rl >>> 16
  let rl := rl ||| rl >>> 32
  rl - (rl >>> 1)

/-! ### `rl_pow2`

The smear is followed bit by bit: after the shifts by `1, …, m / 2` the word has no bit above
its top bit `k` and the `m` bits from `k` down set; after the shift by 32 that is every bit
from `k` down, and `rl - (rl >> 1)` keeps bit `k` alone.
-/

theorem toNat_or (a b : UInt64) : (a ||| b).toNat = a.toNat ||| b.toNat := BitVec.toNat_or _ _

theorem toNat_shiftRight (a s : UInt64) (hs : s.toNat < 64) : (a >>> s).toNat = a.toNat >>> s.toNat := by
  show (a.toBitVec >>> (s.toBitVec % 64).toNat).toNat = _
  rw [BitVec.toNat_ushiftRight, BitVec.toNat_umod]
  show a.toNat >>> (s.toNat % 64) = _
  rw [Nat.mod_eq_of_lt hs]

/-- `x` has no bit above `k` and the `m` bits from `k` down set. -/
def Smeared (k m x : Nat) : Prop :=
  (∀ j, k < j → x.testBit j = false) ∧ ∀ j, j ≤ k → k < j + m → x.testBit j = true

theorem smeared_or_shiftRight {k m x : Nat} (h : Smeared k m x) : Smeared k (2 * m) (x ||| x >>> m) := by
  obtain ⟨hab, hset⟩ := h
  refine ⟨fun j hj => ?_, fun j hj hjm => ?_⟩
  · simp [hab j hj, hab (m + j) (by omega)]
  · by_cases hjm' : k < j + m
    · simp [hset j hj hjm']
    · simp [hset (m + j) (by omega) (by omega)]

theorem smeared_log2 {x : Nat} (hx : x ≠ 0) : Smeared x.log2 1 x := by
  refine ⟨fun j hj => Nat.testBit_lt_two_pow (Nat.lt_of_lt_of_le Nat.lt_log2_self
    (Nat.pow_le_pow_right (by decide) hj)), fun j hj hj1 => ?_⟩
  obtain rfl : j = x.log2 := by omega
  have hle := Nat.log2_self_le hx
  have hlt : x - 2 ^ x.log2 < 2 ^ x.log2 := by
    have := @Nat.lt_log2_self x
    rw [Nat.pow_succ] at this
    omega
  have hbit := Nat.testBit_two_pow_add_eq (x - 2 ^ x.log2) x.log2
  rwa [Nat.add_sub_cancel' hle, Nat.testBit_lt_two_pow hlt] at hbit

theorem smeared_eq {k m x : Nat} (h : Smeared k m x) (hkm : k < m) : x = 2 ^ (k + 1) - 1 :=
  Nat.eq_of_testBit_eq fun j => by
    rw [Nat.testBit_two_pow_sub_one]
    by_cases hj : j ≤ k
    · rw [h.2 j hj (by omega)]; simp; omega
    · rw [h.1 j (by omega)]; simp; omega

theorem toNat_sub_shiftRight_one {k : Nat} {rl : UInt64} (h : rl.toNat = 2 ^ (k + 1) - 1) :
    (rl - rl >>> 1).toNat = 2 ^ k := by
  have hs := toNat_shiftRight rl 1 (by decide)
  rw [UInt64.toNat_sub_of_le _ _ (by
    show (rl >>> 1).toNat ≤ rl.toNat
    rw [hs, Nat.shiftRight_eq_div_pow]
    exact Nat.div_le_self _ _), hs, h, Nat.shiftRight_eq_div_pow, Nat.pow_succ]
  have := Nat.one_le_two_pow (n := k)
  show 2 ^ k * 2 - 1 - (2 ^ k * 2 - 1) / 2 ^ 1 = 2 ^ k
  omega

theorem toNat_rlPow2 (n : UInt64) (hn : n.toNat ≠ 0) : (rlPow2 n).toNat = 2 ^ n.toNat.log2 := by
  have hk : n.toNat.log2 < 64 := (Nat.log2_lt hn).2 n.toBitVec.isLt
  have step : ∀ (a s : UInt64), s.toNat < 64 → Smeared n.toNat.log2 s.toNat a.toNat →
      Smeared n.toNat.log2 (2 * s.toNat) (a ||| a >>> s).toNat := fun a s hs h => by
    rw [toNat_or, toNat_shiftRight a s hs]
    exact smeared_or_shiftRight h
  have h6 := step _ 32 (by decide) <| step _ 16 (by decide) <| step _ 8 (by decide) <|
    step _ 4 (by decide) <| step _ 2 (by decide) <| step n 1 (by decide) (smeared_log2 hn)
  have hX := smeared_eq h6 (by show n.toNat.log2 < 64; exact hk)
  exact toNat_sub_shiftRight_one hX

/-- For a nonzero length `rl_pow2` is `2 ^ ⌊log₂ n⌋`, the largest power of two not above `n`,
so `1 ≤ n / rl_pow2 < 2`; for `0` it is `0`. -/
theorem rlPow2_eq_two_pow_log2 :
    rlPow2 0 = 0 ∧
      ∀ n : UInt64, 1 ≤ n.toNat →
        (rlPow2 n).toNat = 2 ^ n.toNat.log2 ∧ (rlPow2 n).toNat ≤ n.toNat ∧
          n.toNat < 2 * (rlPow2 n).toNat := by
  refine ⟨by decide, fun n hn => ?_⟩
  have hn0 : n.toNat ≠ 0 := by omega
  have hlt := @Nat.lt_log2_self n.toNat
  rw [Nat.pow_succ] at hlt
  rw [toNat_rlPow2 n hn0]
  exact ⟨rfl, Nat.log2_self_le hn0, by omega⟩

theorem rlPow2_forty :
    rlPow2 0 = 0 ∧ 1 ≤ (40 : UInt64).toNat ∧
      (rlPow2 40).toNat = 2 ^ (40 : UInt64).toNat.log2 ∧ (rlPow2 40).toNat ≤ (40 : UInt64).toNat ∧
        (40 : UInt64).toNat < 2 * (rlPow2 40).toNat :=
  ⟨rlPow2_eq_two_pow_log2.1, by decide, rlPow2_eq_two_pow_log2.2 40 (by decide)⟩

/-! ### The `double` arithmetic of the bounds

`scale = static_cast <double> (rangelen) / static_cast <double> (rl_pow2)`, and each bound is
`static_cast <std::size_t> (b * scale)`. A nonnegative finite binary64 value is `sig · 2 ^ exp`;
the conversion from an integer, the product and the quotient round the exact value to 53
significant bits, to nearest with ties to even, and the cast truncates. The exponent range is
not bounded here: the bounds' values lie far from overflow and from the subnormals.
-/

/-- A nonnegative finite `double`, of value `sig · 2 ^ exp`. -/
structure Binary64 where
  sig : Nat
  exp : Int
  deriving DecidableEq, Repr

namespace Binary64

/-- The number of significant bits of `m`. -/
def bitLength (m : Nat) : Nat := go m m
where
  go : Nat → Nat → Nat
    | 0, _ => 0
    | fuel + 1, m => if m = 0 then 0 else go fuel (m / 2) + 1

/-- Halve the significand while it has more than 53 bits, keeping the last bit shifted out
(`half`) and whether any bit below it was set (`sticky`), then round to nearest, ties to
even. -/
def roundBits : Nat → Nat → Int → Bool → Bool → Binary64
  | 0, m, e, _, _ => ⟨m, e⟩
  | fuel + 1, m, e, half, sticky =>
    if 2 ^ 53 ≤ m then roundBits fuel (m / 2) (e + 1) (m % 2 == 1) (sticky || half)
    else if half && (sticky || m % 2 == 1) then ⟨m + 1, e⟩ else ⟨m, e⟩

/-- `m · 2 ^ e` rounded to a `double`; `sticky` marks an exact value strictly between
`m · 2 ^ e` and `(m + 1) · 2 ^ e`, for an `m` of more than 53 bits. -/
def round (m : Nat) (e : Int) (sticky : Bool) : Binary64 := roundBits m m e false sticky

/-- `static_cast <double> (n)`. -/
def ofNat (n : Nat) : Binary64 := round n 0 false

/-- `x * y`. -/
def mul (x y : Binary64) : Binary64 := round (x.sig * y.sig) (x.exp + y.exp) false

/-- `x / y` for a nonzero `y`: a power of two only moves the exponent; any other divisor is
developed to at least 56 quotient bits, a nonzero remainder being the sticky bit. -/
def div (x y : Binary64) : Binary64 :=
  if y.sig = 2 ^ (bitLength y.sig - 1) then ⟨x.sig, x.exp - y.exp - (bitLength y.sig - 1 : Nat)⟩
  else
    let t := bitLength y.sig + 55
    round ((x.sig <<< t) / y.sig) (x.exp - y.exp - t) ((x.sig <<< t) % y.sig != 0)

/-- `static_cast <std::size_t> (x)`: the value truncated. -/
def toSizeT (x : Binary64) : Nat :=
  match x.exp with
  | .ofNat k => x.sig <<< k
  | .negSucc k => x.sig >>> (k + 1)

theorem round_of_lt {m : Nat} (h : m < 2 ^ 53) (e : Int) (sticky : Bool) :
    round m e sticky = ⟨m, e⟩ := by
  cases m with
  | zero => rfl
  | succ k =>
    rw [round, roundBits, if_neg (Nat.not_le.mpr h)]
    rfl

theorem ofNat_of_lt {n : Nat} (h : n < 2 ^ 53) : ofNat n = ⟨n, 0⟩ := round_of_lt h 0 false

theorem bitLength_two_pow (k : Nat) : bitLength (2 ^ k) = k + 1 := by
  have go_two_pow : ∀ k fuel, k < fuel → bitLength.go fuel (2 ^ k) = k + 1 := by
    intro k
    induction k with
    | zero => rintro (_ | _ | fuel) h <;> first | omega | rfl
    | succ k ih =>
      rintro (_ | fuel) h
      · omega
      · rw [bitLength.go, if_neg (Nat.pos_pow_of_pos _ (by decide)).ne', Nat.pow_succ,
          Nat.mul_div_cancel _ (by decide), ih fuel (by omega)]
  exact go_two_pow k _ (Nat.lt_two_pow k)

theorem div_two_pow (x : Binary64) (k : Nat) : x.div ⟨2 ^ k, 0⟩ = ⟨x.sig, x.exp - k⟩ := by
  simp [div, bitLength_two_pow]

theorem toSizeT_neg (m k : Nat) : toSizeT ⟨m, -(k : Int)⟩ = m / 2 ^ k := by
  cases k with
  | zero => simp [toSizeT]
  | succ k =>
    show toSizeT ⟨m, Int.negSucc k⟩ = _
    exact Nat.shiftRight_eq_div_pow m (k + 1)

end Binary64

/-- `scale`: `static_cast <double> (rangelen) / static_cast <double> (rl_pow2)`. -/
def scale (n p : Nat) : Binary64 := (Binary64.ofNat n).div (Binary64.ofNat p)

/-- `static_cast <std::size_t> (b * scale)`. -/
def scaledDouble (n p b : Nat) : Nat := ((Binary64.ofNat b).mul (scale n p)).toSizeT

/-- `static_cast <std::size_t> (b * scale)` with `scale = rangelen / rl_pow2` taken exactly. -/
def scaled (n p b : Nat) : Nat := b * n / p

/-- With `rl_pow2 = 2 ^ k`, nothing of a bound is rounded while `b · rangelen` stays below
`2 ^ 53`: the bound in `double` is the exact one. -/
theorem scaledDouble_eq_scaled {n k b : Nat} (hkn : 2 ^ k ≤ n) (hn : n < 2 ^ 53)
    (hb : b * n < 2 ^ 53) (hn0 : 0 < n) : scaledDouble n (2 ^ k) b = scaled n (2 ^ k) b := by
  have hb' : b < 2 ^ 53 := lt_of_le_of_lt (Nat.le_mul_of_pos_right b hn0) hb
  rw [scaledDouble, scale, Binary64.ofNat_of_lt hn, Binary64.ofNat_of_lt (n := 2 ^ k) (by omega),
    Binary64.div_two_pow, Binary64.ofNat_of_lt hb', Binary64.mul, Binary64.round_of_lt hb]
  show Binary64.toSizeT ⟨b * n, 0 + (0 - (k : Int))⟩ = _
  rw [Int.zero_add, Int.zero_sub, Binary64.toSizeT_neg]
  rfl

/-- The block loop `for (std::size_t b = 0; b < rl_pow2; b += 16) shellsort (block_start,
block_end, comp);` with the bounds `b ↦ static_cast <std::size_t> (b * scale)` given as
`bound`. -/
def sortBlocksWith (bound : Nat → Nat) (p : Nat) (a : List α) : Except Fault (List α) :=
  (steps 0 p 16).foldlM (fun a b => shellsort comp (bound b) (bound (b + 16)) a) a

/-- The block loop with the bounds taken exactly. -/
def sortBlocks (n p : Nat) : List α → Except Fault (List α) := sortBlocksWith comp (scaled n p) p

/-- `std::rotate (first + lo, first + mid, first + hi)`. -/
def rotate (lo mid hi : Nat) (a : List α) : Except Fault (List α) :=
  if lo ≤ mid ∧ mid ≤ hi ∧ hi ≤ a.length then
    .ok (a.take lo ++ (a.take hi).drop mid ++ (a.take mid).drop lo ++ a.drop hi)
  else .error .undefined

/-- `std::inplace_merge (first + lo, first + mid, first + hi, comp)`: the stable merge, which
takes from the second run only an element strictly less than the first run's. -/
def inplaceMerge (lo mid hi : Nat) (a : List α) : Except Fault (List α) :=
  if lo ≤ mid ∧ mid ≤ hi ∧ hi ≤ a.length then
    .ok (a.take lo ++ ((a.take mid).drop lo).merge ((a.take hi).drop mid) (fun x y => !comp y x) ++
      a.drop hi)
  else .error .undefined

/-- The body of `for (std::size_t merge = 0; merge < rl_pow2; merge += len * 2)`, with the
bounds given as `bound`. -/
def mergeRunsWith (bound : Nat → Nat) (len : Nat) (a : List α) (merge : Nat) :
    Except Fault (List α) := do
  let rangeStart := bound merge
  let rangeMid := bound (merge + len)
  let rangeEnd := bound (merge + len * 2)
  if comp (← readPrev a rangeEnd) (← readAt a rangeStart) then
    rotate rangeStart rangeMid rangeEnd a
  else if comp (← readAt a rangeMid) (← readPrev a rangeMid) then
    inplaceMerge comp rangeStart rangeMid rangeEnd a
  else pure a

/-- The body of the merge loop with the bounds taken exactly. -/
def mergeRuns (n p len : Nat) : List α → Nat → Except Fault (List α) :=
  mergeRunsWith comp (scaled n p) len

/-- One round of `for (std::size_t len = 16; len < rl_pow2; len *= 2)`, with the bounds given
as `bound`. -/
def mergeStepWith (bound : Nat → Nat) (p : Nat) :
    Nat × List α → Except Fault ((Nat × List α) ⊕ List α)
  | (len, a) => do
    if len < p then
      pure (.inl (len * 2, ← (steps 0 p (len * 2)).foldlM (mergeRunsWith comp bound len) a))
    else pure (.inr a)

/-- One round of the `len` loop with the bounds taken exactly. -/
def mergeStep (n p : Nat) : Nat × List α → Except Fault ((Nat × List α) ⊕ List α) :=
  mergeStepWith comp (scaled n p) p

/-- `blocksort (first, last, comp)`, with the bounds in `double`. The length doubles from 16,
so `rl_pow2 + 1` rounds bound the merge loop. -/
def blocksort (a : List α) : Except Fault (List α) := do
  let rangelen := a.length
  let p := (rlPow2 (UInt64.ofNat rangelen)).toNat
  let a ← sortBlocksWith comp (scaledDouble rangelen p) p a
  loop (mergeStepWith comp (scaledDouble rangelen p) p) (p + 1) (16, a)

/-- On one element the single block is `[0, 16)`: the shellsort reads `first [10]`, outside
the range, whatever the comparator and the element. -/
theorem blocksort_single_out_of_range (x : α) : blocksort comp [x] = .error .undefined := by
  simp only [blocksort, List.length_singleton]
  rfl

/-- Pairs ordered by their first component alone. -/
def byKey (a b : Nat × Nat) : Bool := decide (a.1 < b.1)

theorem byKey_strictWeakOrder : IsStrictWeakOrder (Nat × Nat) (fun a b => byKey a b = true) where
  irrefl a := by simp [byKey]
  trans a b c := by simp only [byKey, decide_eq_true_eq]; omega
  incomp_trans a b c := by simp only [byKey, decide_eq_true_eq]; omega

/-- `(1, 0)` and then `(0, 1)`, …, `(0, 15)`: sixteen elements, so one block and no merge. -/
def oneThenZeros : List (Nat × Nat) := (1, 0) :: (List.range' 1 15).map ((0, ·))

/-- The gap-10 pass moves `(0, 10)` to the front, past the nine elements equivalent to it, and
the later passes keep it there: the result is sorted but not the stable sort. -/
theorem blocksort_reorders_equivalent :
    IsStrictWeakOrder (Nat × Nat) (fun a b => byKey a b = true) ∧
      blocksort byKey oneThenZeros =
        .ok ((0, 10) :: (List.range' 1 9).map ((0, ·)) ++ [(0, 14), (0, 11), (0, 12), (0, 13),
          (0, 15), (1, 0)]) ∧
      blocksort byKey oneThenZeros ≠ .ok (oneThenZeros.insertionSort fun a b => byKey b a = false) := by
  exact ⟨byKey_strictWeakOrder, by decide, by decide⟩

end Blocksort
end Dsa
