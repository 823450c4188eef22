import Dsa.Exec

/-! # Random-access ranges

The sorting routines take a range `[first, last)` of a random-access iterator. The range is
the list of its elements: `first [i]` reads position `i` and faults outside the range, so a
run that returns has read and written only positions in `[0, n)`. A counted `for` loop is a
fold over the indices it visits.
-/
namespace Dsa
namespace Sorting
variable {α : Type}

/-- `first [i]` read. -/
def readAt (a : List α) (i : Nat) : Except Fault α :=
  match a[i]? with
  | some x => .ok x
  | none => .error .undefined

/-- `*(first + i - 1)`, the element before position `i`. -/
def readPrev (a : List α) (i : Nat) : Except Fault α :=
  if i = 0 then .error .undefined else readAt a (i - 1)

/-- `first [i] = x`. -/
def writeAt (a : List α) (i : Nat) (x : α) : Except Fault (List α) :=
  if i < a.length then .ok (a.set i x) else .error .undefined

/-- The indices `for (std::size_t i = start; i < stop; i += step)` visits. -/
def steps (start stop step : Nat) : List Nat :=
  List.range' start ((stop - start + step - 1) / step) step

theorem readAt_of_lt {a : List α} {i : Nat} (h : i < a.length) : readAt a i = .ok a[i] := by
  simp [readAt, List.getElem?_eq_getElem h]

theorem readPrev_of_le {a : List α} {i : Nat} (h0 : 0 < i) (h : i ≤ a.length) :
    readPrev a i = .ok a[i - 1] := by
  simp [readPrev, Nat.pos_iff_ne_zero.mp h0, readAt_of_lt (show i - 1 < a.length by omega)]

theorem length_of_writeAt {a a' : List α} {i : Nat} {x : α} (h : writeAt a i x = .ok a') :
    a'.length = a.length := by
  unfold writeAt at h
  split at h
  · cases h; simp
  · cases h

theorem readAt_frame (u w v : List α) {k : Nat} (hk : k < w.length) :
    readAt (u ++ w ++ v) (u.length + k) = readAt w k := by
  simp [readAt, List.append_assoc, List.getElem?_append_right, List.getElem?_append_left hk, Nat.add_sub_cancel_left]

theorem writeAt_frame (u w v : List α) {k : Nat} (hk : k < w.length) (x : α) :
    writeAt (u ++ w ++ v) (u.length + k) x = (fun w' => u ++ w' ++ v) <$> writeAt w k x := by
  simp [writeAt, hk, List.append_assoc, List.set_append_right, List.set_append_left _ _ hk,
    show k < w.length + v.length by omega, Nat.add_sub_cancel_left]

theorem lt_of_mem_steps_zero {p k i : Nat} (h : i ∈ steps 0 p k) : i < p := by
  obtain ⟨j, hj, rfl⟩ := List.mem_range'.mp h
  rcases Nat.eq_zero_or_pos k with rfl | hk
  · simp at hj
  have := (Nat.le_div_iff_mul_le hk).mp hj
  rw [Nat.succ_mul, Nat.mul_comm] at this
  omega

theorem foldlM_congr {β ι : Type} {f g : β → ι → Except Fault β} :
    ∀ {l : List ι}, (∀ b i, i ∈ l → f b i = g b i) → ∀ b, l.foldlM f b = l.foldlM g b
  | [], _, _ => rfl
  | i :: l, h, b => by
    rw [List.foldlM_cons, List.foldlM_cons, h b i (.head _)]
    exact congrArg _ (funext fun b' => foldlM_congr (fun b j hj => h b j (.tail _ hj)) b')

/-- A `for` loop whose every round, from the invariant `P`, returns inside `P` returns inside
`P`. -/
theorem foldlM_of_inv {β ι : Type} {f : β → ι → Except Fault β} (P : β → Prop) :
    ∀ (l : List ι) (b : β), P b → (∀ b i, i ∈ l → P b → ∃ b', f b i = .ok b' ∧ P b') →
      ∃ b', l.foldlM f b = .ok b' ∧ P b'
  | [], b, hb, _ => ⟨b, rfl, hb⟩
  | i :: l, b, hb, hf => by
    obtain ⟨b', hb', hP⟩ := hf b i (.head _) hb
    rw [List.foldlM_cons, hb', except_ok_bind]
    exact foldlM_of_inv P l b' hP fun b j hj => hf b j (.tail _ hj)

end Sorting
end Dsa
