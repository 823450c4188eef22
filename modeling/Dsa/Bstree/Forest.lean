import Dsa.Bstree.Copy
import Dsa.Bstree.Reachable

/-! # Trees sharing one memory

The `bstree` objects of a program take their nodes from one memory. `Forest` is that memory with
the members of every tree, numbered; a call on tree `i` runs the member function on the memory
and tree `i`'s members, and `swap` and `operator= (bstree &&)` work on two trees. Across any
interleaving of such calls, made where the code is right, each tree keeps `TreeOk` for a shape of
its own, no two trees share a node, and every allocated cell is a node of some tree
(`forest_safe`): a call on one tree never writes or releases a node of another, because each
call is `Confined` to its tree. Under a strict weak order each tree is then an ordered set of its
own (`forestReachableKeys_refines`): a call changes only the keys of the tree it is made on,
`swap` exchanges two trees' keys, and move assignment moves them and leaves the source empty.
-/
namespace Dsa
namespace Bstree
variable {α : Type}

/-- The node memory of a program's trees and the members of each, numbered. -/
structure Forest (α : Type) where
  store : Store α
  trees : Nat → Bstree

namespace Forest

def get (f : Forest α) (i : Nat) : State α := ⟨f.store, f.trees i⟩

def put (f : Forest α) (i : Nat) (s : State α) : Forest α := ⟨s.store, Function.update f.trees i s.tree⟩

def putTree (f : Forest α) (j : Nat) (b : Bstree) : Forest α := ⟨f.store, Function.update f.trees j b⟩

/-- Default-constructed trees in a memory with no cell allocated. -/
def empty : Forest α := ⟨Store.empty, fun _ => Bstree.empty⟩

@[simp] theorem get_put_self (f : Forest α) (i : Nat) (s : State α) : (f.put i s).get i = s := by
  simp [get, put]

theorem get_put_of_ne (f : Forest α) {i j : Nat} (s : State α) (h : j ≠ i) :
    (f.put i s).get j = ⟨s.store, f.trees j⟩ := by
  simp [get, put, h]

end Forest

variable (comp : α → α → Except Fault Bool) (lt : α → α → Bool) {f : Forest α} {ts : Nat → Shape}

/-- Each tree realises its own shape with `TreeOk`, no two trees share a node, and every
allocated cell is a node of some tree. -/
structure ForestOk (f : Forest α) (ts : Nat → Shape) : Prop where
  treeOk : ∀ i, TreeOk comp (f.get i) (ts i)
  disjoint : ∀ i j, i ≠ j → ∀ x ∈ (ts i).ptrs, x ∉ (ts j).ptrs
  owned : ∀ x, f.store.heap x ≠ none → ∃ i, x ∈ (ts i).ptrs

variable {comp lt}

theorem TreeOk.frame {s s' : State α} {t : Shape} (ho : TreeOk comp s t)
    (he : ∀ x ∈ t.ptrs, s'.store.heap x = s.store.heap x) (htree : s'.tree = s.tree)
    (hf : s'.store.Fresh) : TreeOk comp s' t :=
  have hh := ho.hangs.frame he
  have hkeys : t.keys s'.store.heap = t.keys s.store.heap :=
    valuesAt_congr fun x hx => by rw [he x hx]
  ⟨hh, ⟨hh.links, htree ▸ ho.searchOk.root, ho.searchOk.nodup, hkeys ▸ ho.searchOk.sorted,
    htree ▸ ho.searchOk.size⟩, hf⟩

theorem forestOk_empty : ForestOk comp (Forest.empty : Forest α) fun _ => .leaf :=
  ⟨fun _ => ownsTree_empty.toTreeOk, fun _ _ _ _ h => (by cases h), fun _ h => absurd rfl h⟩

theorem ForestOk.frame_other (hF : ForestOk comp f ts) {i : Nat} {s' : State α} {t' : Shape}
    (hC : Confined (f.get i) s' (ts i) t') {j : Nat} (hj : j ≠ i) :
    ∀ x ∈ (ts j).ptrs, s'.store.heap x = f.store.heap x := fun x hx =>
  hC.frame x (hF.disjoint j i hj x hx) ((hF.treeOk j).hangs.ne_none hx)

theorem ForestOk.keys_other (hF : ForestOk comp f ts) {i : Nat} {s' : State α} {t' : Shape}
    (hC : Confined (f.get i) s' (ts i) t') {j : Nat} (hj : j ≠ i) :
    (ts j).keys s'.store.heap = (ts j).keys f.store.heap :=
  valuesAt_congr fun x hx => by rw [hF.frame_other hC hj x hx]

/-- A call on tree `i` that keeps `TreeOk` and is confined to its tree keeps `ForestOk`, with
tree `i`'s new shape in place of its old one. -/
theorem ForestOk.put (hF : ForestOk comp f ts) {i : Nat} {s' : State α} {t' : Shape}
    (ho : TreeOk comp s' t') (hC : Confined (f.get i) s' (ts i) t') :
    ForestOk comp (f.put i s') (Function.update ts i t') := by
  have hfrom : ∀ j, j ≠ i → ∀ x ∈ (ts j).ptrs, x ∉ t'.ptrs := fun j hj x hx hx' =>
    (hC.fromOld x hx').elim (hF.disjoint j i hj x hx) ((hF.treeOk j).hangs.ne_none hx)
  refine ⟨fun j => ?_, fun j k hjk x hx hx' => ?_, fun x hx => ?_⟩
  · by_cases hj : j = i
    · subst hj
      simpa using ho
    · rw [Forest.get_put_of_ne _ _ hj, Function.update_noteq hj]
      exact (hF.treeOk j).frame (hF.frame_other hC hj) rfl ho.fresh
  · rw [Function.update_apply] at hx hx'
    split_ifs at hx hx' with hj hk hk
    · exact hjk (hj.trans hk.symm)
    · exact hfrom k hk x hx' hx
    · exact hfrom j hj x hx hx'
    · exact hF.disjoint j k hjk x hx hx'
  · rcases hC.owned x hx with hx' | ⟨hxt, hx'⟩
    · exact ⟨i, by rwa [Function.update_same]⟩
    · obtain ⟨j, hj⟩ := hF.owned x hx'
      have hji : j ≠ i := fun e => hxt (e ▸ hj)
      exact ⟨j, by rwa [Function.update_noteq hji]⟩

theorem ForestOk.comp_perm (hF : ForestOk comp f ts) (σ : Equiv.Perm Nat) :
    ForestOk comp ⟨f.store, f.trees ∘ σ⟩ (ts ∘ σ) :=
  ⟨fun i => hF.treeOk (σ i), fun i j hij => hF.disjoint (σ i) (σ j) (σ.injective.ne hij),
    fun x hx => let ⟨i, hi⟩ := hF.owned x hx; ⟨σ.symm i, by simpa using hi⟩⟩

theorem update_update_swap {β : Type} (g : Nat → β) (i j : Nat) :
    Function.update (Function.update g i (g j)) j (g i) = g ∘ Equiv.swap i j := by
  funext k
  simp only [Function.update_apply, Function.comp_apply, Equiv.swap_apply_def]
  split_ifs <;> simp_all

variable (comp lt)

/-- The forests reached from default-constructed trees through calls on any tree made where the
code is right (`erase (pos)` at a node of the tree it is called on), `a.swap (b)`, and
`a = std::move (b)` for two different trees under an allocator that propagates or compares
equal, each returning from some loop bound on. -/
inductive ForestReachable : Forest α → Prop
  | empty : ForestReachable Forest.empty
  | call {f : Forest α} {s' : State α} {N : Nat} (i : Nat) (c : Call α) : ForestReachable f →
      c.Allowed lt (f.get i) → (∀ fuel, N ≤ fuel → c.run comp fuel (f.get i) = (.ok (), s')) → ForestReachable (f.put i s')
  | swap {f : Forest α} {s' : State α} {b : Bstree} (i j : Nat) : ForestReachable f →
      Bstree.swap (f.trees j) (f.get i) = (.ok b, s') → ForestReachable ((f.put i s').putTree j b)
  | moveAssign {f : Forest α} {s' : State α} {b : Bstree} {N : Nat} (i j : Nat) (allocEq : Bool) :
      ForestReachable f → i ≠ j →
      (∀ fuel, N ≤ fuel → Bstree.moveAssign fuel true allocEq (f.trees j) (f.get i) = (.ok b, s')) →
      ForestReachable ((f.put i s').putTree j b)

variable {comp lt}

/-- Two trees in one memory: `insert (20)` on tree 0, `insert (30)` on tree 1, `insert (10)` on
tree 0, `swap` of the two trees, and `erase (pos)` at the node of `10`, now in tree 1. -/
def swappedForest : Forest Nat :=
  let f₁ := Forest.empty.put 0 ((Forest.empty.get 0).after (Bstree.insert stdLess 20 20))
  let f₂ := f₁.put 1 ((f₁.get 1).after (Bstree.insert stdLess 20 30))
  let f₃ := f₂.put 0 ((f₂.get 0).after (Bstree.insert stdLess 20 10))
  let f₄ := (f₃.put 0 ⟨f₃.store, f₃.trees 1⟩).putTree 1 (f₃.trees 0)
  f₄.put 1 ((f₄.get 1).after (Bstree.erase stdLess 20 ⟨some 2, .valid⟩))

theorem swappedForest_erase_ten_allowed :
    let f₁ := Forest.empty.put 0 ((Forest.empty.get 0).after (Bstree.insert stdLess 20 20))
    let f₂ := f₁.put 1 ((f₁.get 1).after (Bstree.insert stdLess 20 30))
    let f₃ := f₂.put 0 ((f₂.get 0).after (Bstree.insert stdLess 20 10))
    (Call.erase 2).Allowed (fun a b => decide (a < b))
      (((f₃.put 0 ⟨f₃.store, f₃.trees 1⟩).putTree 1 (f₃.trees 0)).get 1) :=
  ⟨nodeOf_of_mem (show SearchOk stdLess _ (.node (.node .leaf 2 .leaf) 0 .leaf) from
    ⟨Hangs.links ⟨⟨20, rfl⟩, ⟨⟨10, rfl⟩, trivial, trivial⟩, trivial⟩, rfl, by decide, by decide, rfl⟩)
    (by decide), ⟨_, rfl, by decide, by decide⟩⟩

theorem swappedForest_reachable : ForestReachable stdLess (fun a b => decide (a < b)) swappedForest :=
  .call (N := 4) 1 (.erase 2) (.swap 0 1 (.call (N := 4) 0 (.insert 10) (.call (N := 4) 1 (.insert 30)
    (.call (N := 4) 0 (.insert 20) .empty trivial (of_add_bound fun _ => by rfl)) trivial
    (of_add_bound fun _ => by rfl)) trivial (of_add_bound fun _ => by rfl)) rfl)
    swappedForest_erase_ten_allowed (of_add_bound fun _ => by rfl)

theorem swap_forest {s' : State α} {b : Bstree} {i j : Nat}
    (h : Bstree.swap (f.trees j) (f.get i) = (.ok b, s')) :
    (f.put i s').putTree j b = ⟨f.store, f.trees ∘ Equiv.swap i j⟩ := by
  have e : Bstree.swap (f.trees j) (f.get i) = (.ok (f.trees i), ⟨f.store, f.trees j⟩) := rfl
  obtain ⟨hb, rfl⟩ := Prod.mk.inj (e.symm.trans h)
  cases Except.ok.inj hb
  simp only [Forest.putTree, Forest.put, update_update_swap]

/-- `a = std::move (b)` with an allocator that propagates or compares equal, for two different
trees: `a`'s nodes are released as by `clear ()`, in a memory `s₁` the release leaves, and the
two trees' members are exchanged, so `b` is left empty. -/
theorem ForestOk.moveAssign (hF : ForestOk comp f ts) {s' : State α} {b : Bstree} {N : Nat}
    {i j : Nat} (allocEq : Bool) (hij : i ≠ j)
    (h : ∀ fuel, N ≤ fuel → Bstree.moveAssign fuel true allocEq (f.trees j) (f.get i) = (.ok b, s')) :
    ∃ s₁ : State α, ((f.put i s').putTree j b).store = s₁.store ∧ Confined (f.get i) s₁ (ts i) .leaf ∧
      ForestOk comp ((f.put i s').putTree j b) (Function.update ts i .leaf ∘ Equiv.swap i j) := by
  obtain ⟨N₁, s₁, hclear, ho₁, hC₁⟩ := (hF.treeOk i).clear_run
  have hrun : ∀ fuel, N₁ ≤ fuel → Bstree.moveAssign fuel true allocEq (f.trees j) (f.get i) =
      (.ok s₁.tree, ⟨s₁.store, f.trees j⟩) := fun fuel hf => by
    have hc := hclear fuel hf
    rw [Call.run] at hc
    simp only [Bstree.moveAssign, Bool.true_or, ite_true, bind_apply, hc, Bstree.swap, getTree_apply,
      modifyTree_apply, pure_apply]
  obtain ⟨hb, rfl⟩ := Prod.mk.inj ((hrun _ (Nat.le_max_left N₁ N)).symm.trans (h _ (Nat.le_max_right N₁ N)))
  cases Except.ok.inj hb
  have e : (f.put i ⟨s₁.store, f.trees j⟩).putTree j s₁.tree =
      ⟨(f.put i s₁).store, (f.put i s₁).trees ∘ Equiv.swap i j⟩ := by
    have hg := update_update_swap (Function.update f.trees i s₁.tree) i j
    rw [Function.update_same, Function.update_noteq hij.symm, Function.update_idem] at hg
    simp only [Forest.putTree, Forest.put, hg]
  exact ⟨s₁, rfl, hC₁, e ▸ (hF.put ho₁ hC₁).comp_perm (Equiv.swap i j)⟩

/-- A call made where the code is right on tree `i`, returning from some loop bound on, keeps
`ForestOk` with tree `i`'s new shape, as `CallSpec` describes the call. -/
theorem ForestOk.call (hk : KeyOrder comp lt) (hirr : ∀ a, lt a a = false) (hF : ForestOk comp f ts)
    {i : Nat} {c : Call α} (hc : c.Allowed lt (f.get i)) {s' : State α} {N : Nat}
    (hrun : ∀ fuel, N ≤ fuel → c.run comp fuel (f.get i) = (.ok (), s')) :
    ∃ t', ForestOk comp (f.put i s') (Function.update ts i t') ∧
      CallSpec comp lt c (f.get i) s' (ts i) t' := by
  obtain ⟨N', s'', t', hrun', hspec⟩ := (hF.treeOk i).call_run hk hirr hc
  obtain rfl := eq_of_runs hrun' hrun
  exact ⟨t', hF.put hspec.treeOk hspec.confined, hspec⟩

theorem ForestReachable.forestOk (hk : KeyOrder comp lt) (hirr : ∀ a, lt a a = false)
    (h : ForestReachable comp lt f) : ∃ ts, ForestOk comp f ts := by
  induction h with
  | empty => exact ⟨_, forestOk_empty⟩
  | call i c _ hc hrun ih =>
    obtain ⟨ts, hF⟩ := ih
    obtain ⟨t', hF', -⟩ := hF.call hk hirr hc hrun
    exact ⟨_, hF'⟩
  | swap i j _ hs ih =>
    obtain ⟨ts, hF⟩ := ih
    rw [swap_forest hs]
    exact ⟨_, hF.comp_perm _⟩
  | moveAssign i j allocEq _ hij hrun ih =>
    obtain ⟨ts, hF⟩ := ih
    obtain ⟨-, -, -, hF'⟩ := hF.moveAssign allocEq hij hrun
    exact ⟨_, hF'⟩

/-- Trees in one memory stay apart: under a comparator that returns and is transitive and
irreflexive, every forest reached through calls on any of its trees, `swap` and move assignment,
each made where the code is right, has each tree keeping `TreeOk` for its own shape, no node
shared by two trees, and every allocated cell a node of some tree. From it a call made where the
code is right on any tree returns from some loop bound on, to a forest reached the same way, and
leaves every node of every other tree as it was. -/
theorem forest_safe (hk : KeyOrder comp lt) (hirr : ∀ a, lt a a = false)
    (h : ForestReachable comp lt f) :
    ∃ ts, ForestOk comp f ts ∧ ∀ i (c : Call α), c.Allowed lt (f.get i) →
      ∃ N s', (∀ fuel, N ≤ fuel → c.run comp fuel (f.get i) = (.ok (), s')) ∧
        ForestReachable comp lt (f.put i s') ∧
        ∀ j, j ≠ i → ∀ x ∈ (ts j).ptrs, s'.store.heap x = f.store.heap x := by
  obtain ⟨ts, hF⟩ := h.forestOk hk hirr
  refine ⟨ts, hF, fun i c hc => ?_⟩
  obtain ⟨N, s', t', hrun, hspec⟩ := (hF.treeOk i).call_run hk hirr hc
  exact ⟨N, s', hrun, .call i c h hc hrun, fun j hj => hF.frame_other hspec.confined hj⟩

theorem swappedForest_safe :
    ∃ ts, ForestOk stdLess swappedForest ts ∧
      ∀ i (c : Call Nat), c.Allowed (fun a b => decide (a < b)) (swappedForest.get i) →
        ∃ N s', (∀ fuel, N ≤ fuel → c.run stdLess fuel (swappedForest.get i) = (.ok (), s')) ∧
          ForestReachable stdLess (fun a b => decide (a < b)) (swappedForest.put i s') ∧
          ∀ j, j ≠ i → ∀ x ∈ (ts j).ptrs, s'.store.heap x = swappedForest.store.heap x :=
  forest_safe stdLess_keyOrder (fun a => by simp) swappedForest_reachable

variable (comp lt)

/-- The forests `ForestReachable` describes, each tree with the keys in order that the same
operations give on one ordered set per tree: a call changes the set of the tree it is made on as
`Call.keys` does, `a.swap (b)` exchanges the two sets, and `a = std::move (b)` gives `a` the set
of `b` and leaves `b` with none. -/
inductive ForestReachableKeys : Forest α → (Nat → List α) → Prop
  | empty : ForestReachableKeys Forest.empty fun _ => []
  | call {f : Forest α} {K : Nat → List α} {s' : State α} {N : Nat} (i : Nat) (c : Call α) :
      ForestReachableKeys f K → c.Allowed lt (f.get i) →
      (∀ fuel, N ≤ fuel → c.run comp fuel (f.get i) = (.ok (), s')) →
      ForestReachableKeys (f.put i s') (Function.update K i (c.keys lt f.store.heap (K i)))
  | swap {f : Forest α} {K : Nat → List α} {s' : State α} {b : Bstree} (i j : Nat) :
      ForestReachableKeys f K → Bstree.swap (f.trees j) (f.get i) = (.ok b, s') →
      ForestReachableKeys ((f.put i s').putTree j b) (K ∘ Equiv.swap i j)
  | moveAssign {f : Forest α} {K : Nat → List α} {s' : State α} {b : Bstree} {N : Nat} (i j : Nat)
      (allocEq : Bool) : ForestReachableKeys f K → i ≠ j →
      (∀ fuel, N ≤ fuel → Bstree.moveAssign fuel true allocEq (f.trees j) (f.get i) = (.ok b, s')) →
      ForestReachableKeys ((f.put i s').putTree j b) (Function.update (Function.update K i (K j)) j [])

variable {comp lt}

/-- The ordered sets of `swappedForest`'s trees, step after step. -/
def swappedKeys : Nat → List Nat :=
  Function.update (Function.update (Function.update (Function.update (fun _ => []) 0 [20]) 1 [30]) 0
    [10, 20] ∘ Equiv.swap 0 1) 1 [20]

example : swappedKeys 0 = [30] ∧ swappedKeys 1 = [20] ∧ swappedKeys 2 = [] := by decide

theorem swappedForest_reachableKeys :
    ForestReachableKeys stdLess (fun a b => decide (a < b)) swappedForest swappedKeys :=
  .call (N := 4) 1 (.erase 2) (.swap 0 1 (.call (N := 4) 0 (.insert 10) (.call (N := 4) 1 (.insert 30)
    (.call (N := 4) 0 (.insert 20) .empty trivial (of_add_bound fun _ => by rfl)) trivial
    (of_add_bound fun _ => by rfl)) trivial (of_add_bound fun _ => by rfl)) rfl)
    swappedForest_erase_ten_allowed (of_add_bound fun _ => by rfl)

/-- Trees in one memory are independent ordered sets: under a comparator that returns and is a
strict weak order, after any interleaving of calls on any trees, `swap` and move assignment,
each made where the code is right, every tree's keys in order are those of its own ordered set,
changed only by the operations on that tree, and the forest keeps `ForestOk`. -/
theorem forestReachableKeys_refines (hk : KeyOrder comp lt) (hw : IsStrictWeakOrder α (lt · · = true))
    {K : Nat → List α} (h : ForestReachableKeys comp lt f K) :
    ∃ ts, ForestOk comp f ts ∧ ∀ i, (ts i).keys f.store.heap = K i := by
  induction h with
  | empty => exact ⟨_, forestOk_empty, fun _ => rfl⟩
  | call i c _ hc hrun ih =>
    obtain ⟨ts, hF, hK⟩ := ih
    obtain ⟨t', hF', hspec⟩ := hF.call hk (Sorting.lt_irrefl hw) hc hrun
    refine ⟨_, hF', fun k => ?_⟩
    by_cases hki : k = i
    · subst hki
      rw [Function.update_same, Function.update_same, ← hK]
      exact hspec.keys hw
    · rw [Function.update_noteq hki, Function.update_noteq hki]
      exact (hF.keys_other hspec.confined hki).trans (hK k)
  | swap i j _ hs ih =>
    obtain ⟨ts, hF, hK⟩ := ih
    rw [swap_forest hs]
    exact ⟨_, hF.comp_perm _, fun k => hK _⟩
  | moveAssign i j allocEq _ hij hrun ih =>
    obtain ⟨ts, hF, hK⟩ := ih
    obtain ⟨s₁, hst, hC, hF'⟩ := hF.moveAssign allocEq hij hrun
    refine ⟨_, hF', fun k => ?_⟩
    rw [hst, Function.comp_apply]
    by_cases hkj : k = j
    · subst hkj
      rw [Equiv.swap_apply_right, Function.update_same, Function.update_same]
      rfl
    · rw [Function.update_noteq hkj]
      by_cases hki : k = i
      · subst hki
        rw [Equiv.swap_apply_left, Function.update_noteq (Ne.symm hij), Function.update_same]
        exact (hF.keys_other hC (Ne.symm hij)).trans (hK j)
      · rw [Equiv.swap_apply_of_ne_of_ne hki hkj, Function.update_noteq hki, Function.update_noteq hki]
        exact (hF.keys_other hC hki).trans (hK k)

theorem swappedForest_refines :
    ∃ ts, ForestOk stdLess swappedForest ts ∧ ∀ i, (ts i).keys swappedForest.store.heap = swappedKeys i :=
  forestReachableKeys_refines stdLess_keyOrder Sorting.isStrictWeakOrder_decide_lt
    swappedForest_reachableKeys

end Bstree
end Dsa
