import Dsa.Bstree.TreeDelete
import Mathlib.Data.List.Sort

/-! # Inserting a range

`insert (first, last)` calls `insert (value)` once per element. What one call does to the keys
in order is `insertKey`: nothing when an equivalent key is there, otherwise the value goes
before the first larger key. Under a comparator that returns and orders strictly, on a tree
with exact links and keys increasing, in a memory whose addresses from the allocator's next one
on are free, the range insert returns from some loop bound on and leaves the keys
`vs.foldl insertKey`, the tree again with exact links and keys increasing. `bstree (first, last)`
and `operator= (initializer_list)` run that fold from no keys.
-/
namespace Dsa
variable {α : Type}

/-- The keys in order after `insert (v)`. -/
def insertKey (lt : α → α → Bool) (ks : List α) (v : α) : List α :=
  if ks.any (equivBy lt v) then ks else ks.orderedInsert (fun a b => lt a b = true) v

theorem orderedInsert_split {r : α → α → Prop} [DecidableRel r] {v : α} {post : List α}
    (hpost : ∀ b ∈ post.head?, r v b) :
    ∀ {pre : List α}, (∀ a ∈ pre, ¬r v a) → (pre ++ post).orderedInsert r v = pre ++ v :: post
  | [], _ => by cases post <;> simp_all [List.orderedInsert]
  | a :: pre, h => by
    simp [List.orderedInsert, h a (.head _), orderedInsert_split hpost fun b hb => h b (.tail _ hb)]

namespace Bstree
variable (comp : α → α → Except Fault Bool) {lt : α → α → Bool} {s : State α} {t : Shape}

theorem InsertsNew.keys_eq (htrans : ∀ a b c, lt a b = true → lt b c = true → lt a c = true)
    (hirr : ∀ a, lt a a = false) {s' : State α} {v : α} {n : Ptr}
    (hins : InsertsNew comp lt s s' t v n) (hany : (t.keys s.store.heap).any (equivBy lt v) = false) :
    (t.ins s.store.heap lt v n).keys s'.store.heap = insertKey lt (t.keys s.store.heap) v := by
  obtain ⟨pre, post, e, e', hpre, hpost⟩ := hins.keys
  rw [e', insertKey, hany, if_neg Bool.false_ne_true, e,
    orderedInsert_split (fun b hb => hpost b (List.mem_of_mem_head? hb))]
  exact fun a ha hva => Bool.false_ne_true ((hirr a).symm.trans (htrans a v a (hpre a ha) hva))

/-- One `insert (value)`: from some loop bound on it returns one state, whose tree again has
exact links and keys increasing, with the keys `insertKey` gives, and the memory from the
allocator's next address on still free. -/
theorem insert_keys (hk : KeyOrder comp lt) (hirr : ∀ a, lt a a = false)
    (hh : Hangs s.store.heap none t) (hs : SearchOk comp s t) (hfresh : s.store.Fresh) (v : α) :
    ∃ N res s' t', (∀ fuel, N ≤ fuel → insert comp fuel v s = (.ok res, s')) ∧
      Hangs s'.store.heap none t' ∧ SearchOk comp s' t' ∧ s'.store.Fresh ∧
      t'.keys s'.store.heap = insertKey lt (t.keys s.store.heap) v := by
  obtain ⟨N, res, s', hrun, hspec⟩ := insert_run comp hk hh hs hfresh v
  refine ⟨N, res, s', ?_⟩
  cases hany : (t.keys s.store.heap).any (equivBy lt v)
  · rw [hany, if_neg Bool.false_ne_true] at hspec
    obtain ⟨-, hins, hfresh', -⟩ := hspec
    exact ⟨_, hrun, hins.hangs, hins.searchOk, hfresh', hins.keys_eq comp hk.trans hirr hany⟩
  · rw [hany, if_pos rfl] at hspec
    obtain ⟨rfl, -⟩ := hspec
    exact ⟨t, hrun, hh, hs, hfresh, by rw [insertKey, hany, if_pos rfl]⟩

/-- The range insert under the part of the invariant `insert` reads: from some loop bound on it
returns one state, whose tree again has exact links and keys increasing, with the range's
values inserted in turn by `insertKey`. -/
theorem insertRange_run (hk : KeyOrder comp lt) (hirr : ∀ a, lt a a = false)
    (hh : Hangs s.store.heap none t) (hs : SearchOk comp s t) (hfresh : s.store.Fresh)
    (vs : List α) :
    ∃ N s' t', (∀ fuel, N ≤ fuel → insertRange comp fuel vs s = (.ok (), s')) ∧
      Hangs s'.store.heap none t' ∧ SearchOk comp s' t' ∧ s'.store.Fresh ∧
      t'.keys s'.store.heap = vs.foldl (insertKey lt) (t.keys s.store.heap) := by
  induction vs generalizing s t with
  | nil => exact ⟨0, s, t, fun _ _ => rfl, hh, hs, hfresh, rfl⟩
  | cons v vs ih =>
    obtain ⟨N₁, res, s₁, t₁, hrun, hh₁, hs₁, hf₁, hkeys⟩ := insert_keys comp hk hirr hh hs hfresh v
    obtain ⟨N₂, s', t', hrest, hh', hs', hf', hkeys'⟩ := ih hh₁ hs₁ hf₁
    refine ⟨max N₁ N₂, s', t', fun fuel hf => ?_, hh', hs', hf', by rw [hkeys', hkeys]; rfl⟩
    simp only [insertRange, List.forM_cons', bind_apply, hrun fuel ((Nat.le_max_left _ _).trans hf),
      pure_apply]
    exact hrest fuel ((Nat.le_max_right _ _).trans hf)

/-- `insert (first, last)` and `insert (initializer_list)` on a tree that satisfies the
invariant, with a comparator that returns and is a strict order, in a memory whose addresses
from the allocator's next one on are free: from some loop bound on it returns, the tree again
has exact links and keys increasing, and its keys are the old ones with the range's values
inserted in turn by `insertKey`. -/
theorem insertRange_correct (hk : KeyOrder comp lt) (hirr : ∀ a, lt a a = false)
    (hr : RepOk comp s t) (hfresh : s.store.Fresh) (vs : List α) :
    ∃ N s' t', (∀ fuel, N ≤ fuel → insertRange comp fuel vs s = (.ok (), s')) ∧
      Hangs s'.store.heap none t' ∧ SearchOk comp s' t' ∧
      t'.keys s'.store.heap = vs.foldl (insertKey lt) (t.keys s.store.heap) := by
  obtain ⟨N, s', t', hrun, hh, hs, -, hkeys⟩ :=
    insertRange_run comp hk hirr hr.hangs hr.searchOk hfresh vs
  exact ⟨N, s', t', hrun, hh, hs, hkeys⟩

theorem fortyTwentyTenThirty_insertRange :
    KeyOrder stdLess (fun a b : Nat => decide (a < b)) ∧ (∀ a : Nat, decide (a < a) = false) ∧
      RepOk stdLess fortyTwentyTenThirty fortyTwentyShape ∧ fortyTwentyTenThirty.store.Fresh ∧
      ∃ N s' t', (∀ fuel, N ≤ fuel →
          insertRange stdLess fuel [25, 10, 35] fortyTwentyTenThirty = (.ok (), s')) ∧
        Hangs s'.store.heap none t' ∧ SearchOk stdLess s' t' ∧
        t'.keys s'.store.heap = [25, 10, 35].foldl (insertKey fun a b : Nat => decide (a < b))
          (fortyTwentyShape.keys fortyTwentyTenThirty.store.heap) :=
  have hirr : ∀ a : Nat, decide (a < a) = false := fun a => decide_eq_false (Nat.lt_irrefl a)
  ⟨stdLess_keyOrder, hirr, fortyTwentyTenThirty_repOk, fortyTwentyTenThirty_fresh,
    insertRange_correct stdLess stdLess_keyOrder hirr fortyTwentyTenThirty_repOk
      fortyTwentyTenThirty_fresh _⟩

/-- There the keys go from `10, 20, 30, 40` to `10, 20, 25, 30, 35, 40`: `10` is present. -/
example : [25, 10, 35].foldl (insertKey fun a b : Nat => decide (a < b))
    (fortyTwentyShape.keys fortyTwentyTenThirty.store.heap) = [10, 20, 25, 30, 35, 40] := by
  decide

theorem searchOk_empty (st : Store α) : SearchOk comp ⟨st, Bstree.empty⟩ .leaf :=
  ⟨trivial, rfl, List.nodup_nil, List.Pairwise.nil, rfl⟩

/-- `bstree (first, last)`, with a comparator that returns and is a strict order, in a memory
whose addresses from the allocator's next one on are free: from some loop bound on it returns
a tree with exact links and keys increasing, whose keys are the range's values inserted in turn
by `insertKey` from none: one per class of equivalent values, the first of each, in order. -/
theorem rangeConstruct_correct (hk : KeyOrder comp lt) (hirr : ∀ a, lt a a = false)
    (hfresh : s.store.Fresh) (vs : List α) :
    ∃ N s' t', (∀ fuel, N ≤ fuel → rangeConstruct comp fuel vs s = (.ok (), s')) ∧
      Hangs s'.store.heap none t' ∧ SearchOk comp s' t' ∧
      t'.keys s'.store.heap = vs.foldl (insertKey lt) [] := by
  obtain ⟨N, s', t', hrun, hh, hs, -, hkeys⟩ := insertRange_run comp
    (s := ⟨s.store, Bstree.empty⟩) (t := .leaf) hk hirr trivial (searchOk_empty comp s.store) hfresh vs
  exact ⟨N, s', t', fun fuel hf => hrun fuel hf, hh, hs, hkeys⟩

theorem threeOneTwoOne_rangeConstruct :
    KeyOrder stdLess (fun a b : Nat => decide (a < b)) ∧ (∀ a : Nat, decide (a < a) = false) ∧
      (State.empty : State Nat).store.Fresh ∧
      ∃ N s' t', (∀ fuel, N ≤ fuel →
          rangeConstruct stdLess fuel [3, 1, 2, 1] (State.empty : State Nat) = (.ok (), s')) ∧
        Hangs s'.store.heap none t' ∧ SearchOk stdLess s' t' ∧
        t'.keys s'.store.heap = [3, 1, 2, 1].foldl (insertKey fun a b : Nat => decide (a < b)) [] :=
  have hirr : ∀ a : Nat, decide (a < a) = false := fun a => decide_eq_false (Nat.lt_irrefl a)
  have hfresh : (State.empty : State Nat).store.Fresh := fun _ _ => rfl
  ⟨stdLess_keyOrder, hirr, hfresh, rangeConstruct_correct stdLess stdLess_keyOrder hirr hfresh _⟩

/-- There the keys are `1, 2, 3`. -/
example : [3, 1, 2, 1].foldl (insertKey fun a b : Nat => decide (a < b)) [] = [1, 2, 3] := by
  decide

/-- `operator= (initializer_list)` on a tree that satisfies the invariant, with a comparator that
returns and is a strict order, in a memory whose addresses from the allocator's next one on are
free: from some loop bound on it returns a tree with exact links and keys increasing, whose
keys are the list's values inserted in turn by `insertKey` from none; the old keys are gone. -/
theorem assignList_correct (hk : KeyOrder comp lt) (hirr : ∀ a, lt a a = false)
    (hr : RepOk comp s t) (hfresh : s.store.Fresh) (vs : List α) :
    ∃ N s' t', (∀ fuel, N ≤ fuel → assignList comp fuel vs s = (.ok (), s')) ∧
      Hangs s'.store.heap none t' ∧ SearchOk comp s' t' ∧
      t'.keys s'.store.heap = vs.foldl (insertKey lt) [] := by
  obtain ⟨N₁, hclear⟩ := clear_run hr.hangs hr.root hr.nodup
  have hfresh' : Store.Fresh { s.store with
      heap := fun x => if x ∈ t.ptrs then none else s.store.heap x } := fun x hx => by
    simp only [hfresh x hx, ite_self]
  obtain ⟨N₂, s', t', hrun, hh, hs, -, hkeys⟩ := insertRange_run comp (t := .leaf) hk hirr
    trivial (searchOk_empty comp _) hfresh' vs
  refine ⟨max N₁ N₂, s', t', fun fuel hf => ?_, hh, hs, hkeys⟩
  simp only [assignList, bind_apply, hclear fuel ((Nat.le_max_left _ _).trans hf)]
  exact hrun fuel ((Nat.le_max_right _ _).trans hf)

theorem fortyTwentyTenThirty_assignList :
    KeyOrder stdLess (fun a b : Nat => decide (a < b)) ∧ (∀ a : Nat, decide (a < a) = false) ∧
      RepOk stdLess fortyTwentyTenThirty fortyTwentyShape ∧ fortyTwentyTenThirty.store.Fresh ∧
      ∃ N s' t', (∀ fuel, N ≤ fuel →
          assignList stdLess fuel [5, 15] fortyTwentyTenThirty = (.ok (), s')) ∧
        Hangs s'.store.heap none t' ∧ SearchOk stdLess s' t' ∧
        t'.keys s'.store.heap = [5, 15].foldl (insertKey fun a b : Nat => decide (a < b)) [] :=
  have hirr : ∀ a : Nat, decide (a < a) = false := fun a => decide_eq_false (Nat.lt_irrefl a)
  ⟨stdLess_keyOrder, hirr, fortyTwentyTenThirty_repOk, fortyTwentyTenThirty_fresh,
    assignList_correct stdLess stdLess_keyOrder hirr fortyTwentyTenThirty_repOk
      fortyTwentyTenThirty_fresh _⟩

end Bstree
end Dsa
