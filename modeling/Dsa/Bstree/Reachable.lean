import Dsa.Bstree.EraseCorrect
import Dsa.Bstree.InsertRange
import Dsa.Sorting.Order

/-! # Calls on one tree

A client default-constructs a tree and then calls `insert (value)`, `insert (first, last)`,
`operator= (initializer_list)`, `erase (pos)`, `erase (key)` and `clear ()` on it in any order.
Where each call is made where the code is right (`erase` neither at a leaf alone at the root nor
at a node with two children off the root), every call returns from some loop bound on, and
every state on the way keeps `OwnsTree`: exact links, keys increasing, the memory from the
allocator's next address on free, and the allocated cells exactly the tree's nodes, so no call
leaks a node or leaves a link to a released one (`reachable_safe`).

Two layers sit on it. Under a strict weak order the keys in order follow the ordered set the
tree stands for, call by call (`Call.keys`, `reachableKeys_refines`). `_begin` stays the valid
iterator at the first node as long as no call erases that node while it has a right child
(`reachableKeepingBegin_beginAt`); such an erase moves it to the node's parent
(`erase_first_begin_at_parent`). `_end` is not kept: `insert` can leave it stale.
-/
namespace Dsa
variable {α : Type}

namespace Shape
variable {h : Heap α} {lt : α → α → Bool} {k : α} {n : Ptr}

theorem ins_eq_or_mem : ∀ t : Shape, t.ins h lt k n = t ∨ n ∈ (t.ins h lt k n).ptrs
  | .leaf => .inr (by simp [ins])
  | .node l p r => by
    simp only [ins]
    split
    · exact .inl rfl
    · split_ifs
      · rcases ins_eq_or_mem l with e | hm
        · exact .inl (by rw [e])
        · exact .inr (by simp [hm])
      · rcases ins_eq_or_mem r with e | hm
        · exact .inl (by rw [e])
        · exact .inr (by simp [hm])
      · exact .inl rfl

theorem mem_ins_or {x : Ptr} : ∀ {t : Shape}, x ∈ (t.ins h lt k n).ptrs → x ∈ t.ptrs ∨ x = n
  | .leaf, hx => .inr (by simpa [ins] using hx)
  | .node l p r, hx => by
    simp only [ins] at hx
    split at hx
    · exact .inl hx
    · split_ifs at hx
      · simp only [ptrs_node, List.mem_append, List.mem_cons] at hx ⊢
        rcases hx with hx | hx | hx
        exacts [(mem_ins_or hx).imp_left .inl, .inl (.inr (.inl hx)), .inl (.inr (.inr hx))]
      · simp only [ptrs_node, List.mem_append, List.mem_cons] at hx ⊢
        rcases hx with hx | hx | hx
        exacts [.inl (.inl hx), .inl (.inr (.inl hx)), (mem_ins_or hx).imp_left (.inr ∘ .inr)]
      · exact .inl hx

end Shape

/-- The keys in order after `erase (key)`: the keys equivalent to `key` go. -/
def removeKey (lt : α → α → Bool) (ks : List α) (key : α) : List α :=
  ks.filter fun k => !equivBy lt key k

theorem removeKey_of_any_eq_false {lt : α → α → Bool} {ks : List α} {key : α}
    (h : ks.any (equivBy lt key) = false) : removeKey lt ks key = ks :=
  List.filter_eq_self.mpr fun k hk => by simp [List.any_eq_false.mp h k hk]

theorem removeKey_of_pairwise {lt : α → α → Bool} {pre post : List α} {v key : α}
    (hs : (pre ++ v :: post).Pairwise (lt · · = true)) (hv : equivBy lt key v = true)
    (hlo : ∀ a, lt a v = true → lt a key = true) (hhi : ∀ b, lt v b = true → lt key b = true) :
    removeKey lt (pre ++ v :: post) key = pre ++ post := by
  obtain ⟨-, -, hcross⟩ := List.pairwise_append.mp hs
  have hpost := (List.pairwise_cons.mp (List.pairwise_append.mp hs).2.1).1
  rw [removeKey, List.filter_append, List.filter_cons_of_neg (by simp [hv]),
    List.filter_eq_self.mpr fun a ha => ?_, List.filter_eq_self.mpr fun b hb => ?_]
  · simp [equivBy, hhi b (hpost b hb)]
  · simp [equivBy, hlo a (hcross a ha v (List.mem_cons_self _ _))]

theorem Links.unique {h : Heap α} :
    ∀ {t t' : Shape}, Links h t → Links h t' → t.rootPtr = t'.rootPtr → t = t'
  | .leaf, .leaf, _, _, _ => rfl
  | .leaf, .node .., _, _, e => by cases e
  | .node .., .leaf, _, _, e => by cases e
  | .node l p r, .node l' p' r', ⟨⟨nd, hp, hl, hr⟩, hL, hR⟩, ⟨⟨nd', hp', hl', hr'⟩, hL', hR'⟩, e => by
    obtain rfl : p = p' := Option.some.inj e
    obtain rfl : nd = nd' := Option.some.inj (hp.symm.trans hp')
    rw [Links.unique hL hL' (hl.symm.trans hl'), Links.unique hR hR' (hr.symm.trans hr')]

theorem Hangs.ne_none {h : Heap α} {up : Option Ptr} {t : Shape} (ht : Hangs h up t) {x : Ptr}
    (hx : x ∈ t.ptrs) : h x ≠ none := by
  obtain ⟨nd, hnd, -⟩ := ht.cell hx
  simp [hnd]

namespace Bstree
variable (comp : α → α → Except Fault Bool) (lt : α → α → Bool) (fuel : Nat) {s : State α}
  {t : Shape}

/-- The calls a client makes: `insert (v)`, `insert (first, last)` (and
`insert (initializer_list)`), `operator= (initializer_list)`, `erase (pos)` with `pos` at the
node `n`, `erase (key)` and `clear ()`. -/
inductive Call (α : Type)
  | insert (v : α)
  | insertRange (vs : List α)
  | assignList (vs : List α)
  | erase (n : Ptr)
  | eraseKey (key : α)
  | clear

/-- A call with its result dropped. -/
def Call.run : Call α → Method α Unit
  | .insert v => do let _ ← Bstree.insert comp fuel v
  | .insertRange vs => Bstree.insertRange comp fuel vs
  | .assignList vs => Bstree.assignList comp fuel vs
  | .erase n => do let _ ← Bstree.erase comp fuel ⟨some n, .valid⟩
  | .eraseKey key => do let _ ← Bstree.eraseKey comp fuel key
  | .clear => Bstree.clear fuel

/-- What a call does to the keys in order, in the ordered set the tree stands for: `erase (pos)`
takes out the key at its node. -/
def Call.keys (h : Heap α) : Call α → List α → List α
  | .insert v, ks => insertKey lt ks v
  | .insertRange vs, ks => vs.foldl (insertKey lt) ks
  | .assignList vs, _ => vs.foldl (insertKey lt) []
  | .erase n, ks => (h n).elim ks fun nd => removeKey lt ks nd.value
  | .eraseKey key, ks => removeKey lt ks key
  | .clear, _ => []

/-- `n` is a node of the tree: an address of the shape its child links form from `_tree_root`. -/
def NodeOf (s : State α) (n : Ptr) : Prop :=
  ∀ t, Links s.store.heap t → s.tree.treeRoot = t.rootPtr → n ∈ t.ptrs

/-- Where `erase (pos)` at `n` is right: `n` is a node, not a leaf alone at the root, and has
two children only at the root. -/
def ErasableAt (s : State α) (n : Ptr) : Prop :=
  ∃ nd, s.store.heap n = some nd ∧ (nd.left = none → nd.right = none → s.tree.treeRoot ≠ some n) ∧
    (nd.left ≠ none → nd.right ≠ none → s.tree.treeRoot = some n)

/-- A call made where the code is right: `erase (pos)` at a node of the tree where it is right,
and `erase (key)` on a non-empty tree where every node of the tree holding an equivalent key is
such a node. -/
def Call.Allowed (s : State α) : Call α → Prop
  | .erase n => NodeOf s n ∧ ErasableAt s n
  | .eraseKey key => s.tree.treeRoot ≠ none ∧
      ∀ n nd, NodeOf s n → s.store.heap n = some nd → equivBy lt key nd.value = true → ErasableAt s n
  | _ => True

/-- Where erasing `n` keeps `_begin` at the first node: `n` is not the node of `_begin` with a
right child. -/
def KeepsBeginAt (s : State α) (n : Ptr) : Prop :=
  s.tree.beginIt = ⟨some n, .valid⟩ → ∀ nd, s.store.heap n = some nd → nd.right = none

/-- A call after which `_begin` is still at the first node: any but an `erase (pos)`, or an
`erase (key)` that may reach it, at the node of `_begin` when that node has a right child. -/
def Call.KeepsBegin (s : State α) : Call α → Prop
  | .erase n => KeepsBeginAt s n
  | .eraseKey key => ∀ n nd, NodeOf s n → s.store.heap n = some nd →
      equivBy lt key nd.value = true → KeepsBeginAt s n
  | _ => True

/-- The nodes a call may release: `erase (pos)` its node, `erase (key)` a node holding a key
equivalent to `key`, `clear ()` and `operator= (initializer_list)` every node. -/
def Call.Removes (h : Heap α) : Call α → Ptr → Prop
  | .erase n, x => x = n
  | .eraseKey key, x => ∃ nd, h x = some nd ∧ equivBy lt key nd.value = true
  | .clear, _ => True
  | .assignList _, _ => True
  | _, _ => False

/-- The part of the invariant every call reads and keeps: the node graph realises `t` with exact
links and keys increasing, and the memory from the allocator's next address on is free. -/
structure TreeOk (s : State α) (t : Shape) : Prop where
  hangs : Hangs s.store.heap none t
  searchOk : SearchOk comp s t
  fresh : s.store.Fresh

/-- What every call keeps, caches apart: `TreeOk`, and the allocated cells are exactly the tree's
nodes. -/
structure OwnsTree (s : State α) (t : Shape) extends TreeOk comp s t : Prop where
  owns : ∀ x, s.store.heap x ≠ none ↔ x ∈ t.ptrs

/-- What a call on the tree `t` leaving the tree `t'` may do to the memory: cells allocated
outside `t` stay as they are, the new tree's cells are `t`'s or were free, and every cell
allocated afterwards is the new tree's or was allocated outside `t`. -/
structure Confined (s s' : State α) (t t' : Shape) : Prop where
  frame : ∀ x ∉ t.ptrs, s.store.heap x ≠ none → s'.store.heap x = s.store.heap x
  fromOld : ∀ x ∈ t'.ptrs, x ∈ t.ptrs ∨ s.store.heap x = none
  owned : ∀ x, s'.store.heap x ≠ none → x ∈ t'.ptrs ∨ x ∉ t.ptrs ∧ s.store.heap x ≠ none

/-- What one call `c` made where the code is right does, from a tree `t` that keeps `TreeOk` to
the tree `t'` it leaves: it keeps `TreeOk` and is confined to the tree; under a strict weak order
it changes the keys in order as `Call.keys` does; `_begin` stays at the first node when the call
keeps it there; and every node it does not remove stays in the tree with its key. -/
structure CallSpec (c : Call α) (s s' : State α) (t t' : Shape) : Prop where
  treeOk : TreeOk comp s' t'
  confined : Confined s s' t t'
  keys : IsStrictWeakOrder α (lt · · = true) →
    t'.keys s'.store.heap = c.keys lt s.store.heap (t.keys s.store.heap)
  keepsBegin : s.tree.BeginAt t.ptrs → c.KeepsBegin lt s → s'.tree.BeginAt t'.ptrs
  stays : ∀ x ∈ t.ptrs, ¬ c.Removes lt s.store.heap x →
    x ∈ t'.ptrs ∧ (s'.store.heap x).map Node.value = (s.store.heap x).map Node.value

variable {comp lt}

theorem Confined.refl : Confined s s t t :=
  ⟨fun _ _ _ => rfl, fun _ hx => .inl hx, fun x hx => (em (x ∈ t.ptrs)).imp_right fun h => ⟨h, hx⟩⟩

theorem Confined.trans {s₁ s₂ : State α} {t₁ t₂ : Shape} (h₁ : Confined s s₁ t t₁)
    (h₂ : Confined s₁ s₂ t₁ t₂) : Confined s s₂ t t₂ := by
  have hout : ∀ x ∉ t.ptrs, s.store.heap x ≠ none → x ∉ t₁.ptrs := fun x hxt hx hx₁ =>
    ((h₁.fromOld x hx₁).resolve_left hxt) |> hx
  refine ⟨fun x hxt hx => ?_, fun x hx => ?_, fun x hx => ?_⟩
  · rw [h₂.frame x (hout x hxt hx) (by rwa [h₁.frame x hxt hx]), h₁.frame x hxt hx]
  · rcases h₂.fromOld x hx with hx₁ | hx₁
    · exact h₁.fromOld x hx₁
    · exact (em (x ∈ t.ptrs)).imp_right fun hxt => by_contra fun hx' => by
        rw [h₁.frame x hxt hx'] at hx₁
        exact hx' hx₁
  · rcases h₂.owned x hx with hx₂ | ⟨hxt₁, hx₁⟩
    · exact .inl hx₂
    · exact .inr ((h₁.owned x hx₁).resolve_left hxt₁)

theorem Confined.ownsTree {s' : State α} {t' : Shape} (ho : OwnsTree comp s t)
    (ho' : TreeOk comp s' t') (hC : Confined s s' t t') : OwnsTree comp s' t' :=
  ⟨ho', fun x => ⟨fun hx => (hC.owned x hx).resolve_right fun h => h.1 ((ho.owns x).mp h.2),
    ho'.hangs.ne_none⟩⟩

theorem nodeOf_of_mem (hs : SearchOk comp s t) {n : Ptr} (hn : n ∈ t.ptrs) : NodeOf s n :=
  fun _ hl hr => Links.unique hs.links hl (hs.root.symm.trans hr) ▸ hn

theorem eq_of_runs {β : Type} {m : Nat → Method α β} {s₁ s₂ : State α} {b₁ b₂ : β} {N₁ N₂ : Nat}
    (h₁ : ∀ fuel, N₁ ≤ fuel → m fuel s = (.ok b₁, s₁)) (h₂ : ∀ fuel, N₂ ≤ fuel → m fuel s = (.ok b₂, s₂)) :
    s₁ = s₂ :=
  (Prod.mk.inj ((h₁ _ (Nat.le_max_left N₁ N₂)).symm.trans (h₂ _ (Nat.le_max_right N₁ N₂)))).2

theorem drop_runs {β : Type} {m : Nat → Method α β} {b : β} {s' : State α} {N : Nat}
    (h : ∀ fuel, N ≤ fuel → m fuel s = (.ok b, s')) :
    ∀ fuel, N ≤ fuel → (do let _ ← m fuel : Method α Unit) s = (.ok (), s') :=
  fun fuel hf => by simp only [bind_apply, h fuel hf, pure_apply]

theorem bind_runs {β γ : Type} {m : Nat → Method α β} {k : Nat → β → Method α γ} {s₁ s₂ : State α}
    {b : β} {c : γ} {N₁ N₂ : Nat} (h₁ : ∀ fuel, N₁ ≤ fuel → m fuel s = (.ok b, s₁))
    (h₂ : ∀ fuel, N₂ ≤ fuel → k fuel b s₁ = (.ok c, s₂)) :
    ∀ fuel, max N₁ N₂ ≤ fuel → (m fuel >>= k fuel) s = (.ok c, s₂) := fun fuel hf => by
  rw [bind_apply, h₁ fuel ((Nat.le_max_left _ _).trans hf)]
  exact h₂ fuel ((Nat.le_max_right _ _).trans hf)

theorem ownsTree_empty : OwnsTree comp (State.empty : State α) .leaf :=
  ⟨⟨trivial, (State.empty_repOk comp).searchOk, fun _ _ => rfl⟩, fun _ => ⟨fun h => absurd rfl h, nofun⟩⟩

theorem InsertsNew.mem_ins {s' : State α} {v : α} {n : Ptr} (hs : SearchOk comp s t)
    (hi : InsertsNew comp lt s s' t v n) : n ∈ (t.ins s.store.heap lt v n).ptrs := by
  refine (Shape.ins_eq_or_mem t).resolve_left fun e => ?_
  have hsize := hi.searchOk.size
  rw [e, hi.size, hs.size] at hsize
  omega

theorem ErasesNode.treeOk {s' : State α} {t' : Shape} {n : Ptr} (ho : TreeOk comp s t)
    (hE : ErasesNode comp s s' t t' n) : TreeOk comp s' t' ∧ Confined s s' t t' := by
  refine ⟨⟨hE.hangs, hE.searchOk, fun q hq => ?_⟩, fun x hxt _ => hE.untouched x hxt,
    fun x hx => .inl (List.mem_of_mem_erase (hE.ptrs ▸ hx)), fun x hx => ?_⟩
  · have hq' : s.store.heap q = none := ho.fresh q (hE.next ▸ hq)
    rw [hE.untouched q (ho.hangs.not_mem_of_free hq'), hq']
  · by_cases hxt : x ∈ t.ptrs
    · have hxn : x ≠ n := fun e => hx (e ▸ hE.released)
      exact .inl (hE.ptrs ▸ (List.mem_erase_of_ne hxn).mpr hxt)
    · exact .inr ⟨hxt, by rwa [hE.untouched x hxt] at hx⟩

theorem ErasesNode.stays {s' : State α} {t' : Shape} {n : Ptr} (hE : ErasesNode comp s s' t t' n) :
    ∀ x ∈ t.ptrs, x ≠ n →
      x ∈ t'.ptrs ∧ (s'.store.heap x).map Node.value = (s.store.heap x).map Node.value :=
  fun x hx hxn => ⟨hE.ptrs ▸ (List.mem_erase_of_ne hxn).mpr hx, hE.kept x hxn⟩

theorem ErasesNode.keys_eq (hk : KeyOrder comp lt) {s' : State α} {t' : Shape} {n : Ptr} {nd : Node α}
    (hs : SearchOk comp s t) (hE : ErasesNode comp s s' t t' n) (hnd : s.store.heap n = some nd)
    {key : α} (hv : equivBy lt key nd.value = true) (hlo : ∀ a, lt a nd.value = true → lt a key = true)
    (hhi : ∀ b, lt nd.value b = true → lt key b = true) :
    t'.keys s'.store.heap = removeKey lt (t.keys s.store.heap) key := by
  obtain ⟨pre, post, v, hv', hks, hks'⟩ := hE.keys
  obtain rfl : nd.value = v := by simpa [hnd] using hv'
  have hsorted := hk.pairwise_lt hs.sorted
  rw [hks] at hsorted ⊢
  rw [hks', removeKey_of_pairwise hsorted hv hlo hhi]

theorem TreeOk.insert_run (hk : KeyOrder comp lt) (hirr : ∀ a, lt a a = false)
    (ho : TreeOk comp s t) (v : α) :
    ∃ N s' t', (∀ fuel, N ≤ fuel → (Call.insert v).run comp fuel s = (.ok (), s')) ∧
      TreeOk comp s' t' ∧ Confined s s' t t' ∧
      t'.keys s'.store.heap = insertKey lt (t.keys s.store.heap) v ∧
      (s.tree.BeginAt t.ptrs → s'.tree.BeginAt t'.ptrs) ∧
      ∀ x ∈ t.ptrs, x ∈ t'.ptrs ∧ (s'.store.heap x).map Node.value = (s.store.heap x).map Node.value := by
  obtain ⟨N, res, s', hrun, hspec⟩ := Bstree.insert_run comp hk ho.hangs ho.searchOk ho.fresh v
  have hcall : ∀ fuel, N ≤ fuel → (Call.insert v).run comp fuel s = (.ok (), s') := drop_runs hrun
  split_ifs at hspec with hany
  · obtain ⟨hs', -⟩ := hspec
    subst hs'
    exact ⟨N, s', t, hcall, ho, .refl, by rw [insertKey, if_pos hany], id, fun _ hx => ⟨hx, rfl⟩⟩
  · obtain ⟨-, hi, hfresh, hframe, hbegin⟩ := hspec
    have hnext : s.store.heap s.store.next = none := ho.fresh _ le_rfl
    have hne : ∀ x, s.store.heap x ≠ none → x ≠ s.store.next := fun x hx e => hx (e ▸ hnext)
    refine ⟨N, s', _, hcall, ⟨hi.hangs, hi.searchOk, hfresh⟩,
      ⟨fun x hxt hx => hframe x hxt (hne x hx), fun x hx => ?_, fun x hx => ?_⟩,
      hi.keys_eq comp hk.trans hirr (Bool.eq_false_iff.mpr hany), hbegin, hi.kept⟩
    · exact (Shape.mem_ins_or hx).imp_right fun (e : x = s.store.next) => e ▸ hnext
    · by_cases hxt : x ∈ t.ptrs
      · exact .inl (hi.kept x hxt).1
      by_cases hxn : x = s.store.next
      · rw [hxn]
        exact .inl (hi.mem_ins ho.searchOk)
      · exact .inr ⟨hxt, by rwa [hframe x hxt hxn] at hx⟩

theorem TreeOk.clear_run (ho : TreeOk comp s t) :
    ∃ N s', (∀ fuel, N ≤ fuel → Call.clear.run comp fuel s = (.ok (), s')) ∧
      TreeOk comp s' .leaf ∧ Confined s s' t .leaf := by
  obtain ⟨N, hN⟩ := Bstree.clear_run ho.hangs ho.searchOk.root ho.searchOk.nodup
  refine ⟨N, _, hN, ⟨trivial, searchOk_empty comp _, fun q hq => ?_⟩,
    fun x hxt _ => if_neg hxt, nofun, fun x hx => .inr ?_⟩
  · show (if q ∈ t.ptrs then none else s.store.heap q) = none
    split_ifs
    exacts [rfl, ho.fresh q hq]
  · have hx : (if x ∈ t.ptrs then none else s.store.heap x) ≠ none := hx
    by_cases hxt : x ∈ t.ptrs
    · simp [hxt] at hx
    · exact ⟨hxt, by simpa [hxt] using hx⟩

theorem TreeOk.insertRange_run (hk : KeyOrder comp lt) (hirr : ∀ a, lt a a = false)
    (ho : TreeOk comp s t) (vs : List α) :
    ∃ N s' t', (∀ fuel, N ≤ fuel → insertRange comp fuel vs s = (.ok (), s')) ∧
      TreeOk comp s' t' ∧ Confined s s' t t' ∧
      t'.keys s'.store.heap = vs.foldl (insertKey lt) (t.keys s.store.heap) ∧
      (s.tree.BeginAt t.ptrs → s'.tree.BeginAt t'.ptrs) ∧
      ∀ x ∈ t.ptrs, x ∈ t'.ptrs ∧ (s'.store.heap x).map Node.value = (s.store.heap x).map Node.value := by
  induction vs generalizing s t with
  | nil => exact ⟨0, s, t, fun _ _ => rfl, ho, .refl, rfl, id, fun _ hx => ⟨hx, rfl⟩⟩
  | cons v vs ih =>
    obtain ⟨N₁, s₁, t₁, h₁, ho₁, hC₁, hk₁, hb₁, hs₁⟩ := ho.insert_run hk hirr v
    obtain ⟨N₂, s', t', h₂, ho', hC₂, hk₂, hb₂, hs₂⟩ := ih ho₁
    refine ⟨max N₁ N₂, s', t', fun fuel hf => ?_, ho', hC₁.trans hC₂, by rw [hk₂, hk₁]; rfl,
      hb₂ ∘ hb₁, fun x hx => ?_⟩
    · rw [insertRange, List.forM_cons']
      exact bind_runs (k := fun fuel _ => insertRange comp fuel vs) h₁ h₂ fuel hf
    · obtain ⟨hx₁, hv₁⟩ := hs₁ x hx
      obtain ⟨hx₂, hv₂⟩ := hs₂ x hx₁
      exact ⟨hx₂, hv₂.trans hv₁⟩

/-- One call on a tree that keeps `TreeOk`, made where the code is right: from some loop bound on
it returns, to a state and a tree that `CallSpec` describes. -/
theorem TreeOk.call_run (hk : KeyOrder comp lt) (hirr : ∀ a, lt a a = false)
    (ho : TreeOk comp s t) {c : Call α} (hc : c.Allowed lt s) :
    ∃ N s' t', (∀ fuel, N ≤ fuel → c.run comp fuel s = (.ok (), s')) ∧ CallSpec comp lt c s s' t t' := by
  cases c with
  | insert v =>
    obtain ⟨N, s', t', hrun, ho', hC, hks, hb, hst⟩ := ho.insert_run hk hirr v
    exact ⟨N, s', t', hrun, ho', hC, fun _ => hks, fun h _ => hb h, fun x hx _ => hst x hx⟩
  | erase n =>
    obtain ⟨hnode, nd, hnd, hleaf, htwo⟩ := hc
    have hin := hnode t ho.searchOk.links ho.searchOk.root
    obtain ⟨N, s', t', hrun, hE, hbg⟩ := erase_run comp hk hirr ho.hangs ho.searchOk hin hnd hleaf htwo
    refine ⟨N, s', t', drop_runs hrun, (hE.treeOk ho).1, (hE.treeOk ho).2, fun _ => ?_, fun hb hkb => ?_, hE.stays⟩
    · rw [Call.keys, hnd, Option.elim]
      exact hE.keys_eq hk ho.searchOk hnd (by simp [equivBy, hirr]) (fun _ => id) fun _ => id
    · rw [hE.ptrs]
      exact beginAt_erase ho.hangs ho.searchOk.nodup hin hnd hb (fun e => hkb e nd hnd) hbg
  | eraseKey key =>
    obtain ⟨hroot, hall⟩ := hc
    have ht : t ≠ .leaf := fun e => hroot (by rw [ho.searchOk.root, e]; rfl)
    have hspec := eraseKey_run comp hk hirr ho.hangs ho.searchOk ht key
    split_ifs at hspec
    · obtain ⟨n, nd, hn, hnd, he, hrun⟩ := hspec
      have hnode := nodeOf_of_mem ho.searchOk hn
      obtain ⟨nd', hnd', hleaf, htwo⟩ := hall n nd hnode hnd he
      obtain rfl : nd' = nd := Option.some.inj (hnd'.symm.trans hnd)
      obtain ⟨N, s', t', hrun', hE, hbg⟩ := hrun hleaf htwo
      refine ⟨N, s', t', drop_runs hrun', (hE.treeOk ho).1, (hE.treeOk ho).2, fun hw => ?_, fun hb hkb => ?_,
        fun x hx hrem => hE.stays x hx fun e => hrem ⟨nd', e ▸ hnd, he⟩⟩
      · have hv : equivBy lt key nd'.value = true := he
        simp only [equivBy, Bool.and_eq_true, Bool.not_eq_true'] at he
        exact hE.keys_eq hk ho.searchOk hnd hv (fun a ha => Sorting.lt_of_lt_of_not_lt hw ha he.1)
          fun b hb => Sorting.lt_of_not_lt_of_lt hw he.2 hb
      · rw [hE.ptrs]
        exact beginAt_erase ho.hangs ho.searchOk.nodup hn hnd hb (fun e => hkb n nd' hnode hnd he e nd' hnd) hbg
    · obtain ⟨N, hN⟩ := hspec
      exact ⟨N, s, t, drop_runs hN, ho,
        .refl, fun _ => (removeKey_of_any_eq_false (Bool.eq_false_iff.mpr ‹_›)).symm, fun hb _ => hb,
        fun _ hx _ => ⟨hx, rfl⟩⟩
  | clear =>
    obtain ⟨N, s', hrun, ho', hC⟩ := ho.clear_run
    exact ⟨N, s', .leaf, hrun, ho', hC, fun _ => rfl, fun _ _ _ h => (by cases h), fun _ _ h => absurd trivial h⟩
  | insertRange vs =>
    obtain ⟨N, s', t', hrun, ho', hC, hks, hb, hst⟩ := ho.insertRange_run hk hirr vs
    exact ⟨N, s', t', hrun, ho', hC, fun _ => hks, fun h _ => hb h, fun x hx _ => hst x hx⟩
  | assignList vs =>
    obtain ⟨N₁, s₁, h₁, ho₁, hC₁⟩ := ho.clear_run
    obtain ⟨N₂, s', t', h₂, ho', hC₂, hks, hb, -⟩ := ho₁.insertRange_run hk hirr vs
    exact ⟨max N₁ N₂, s', t', bind_runs (k := fun fuel _ => insertRange comp fuel vs) h₁ h₂, ho',
      hC₁.trans hC₂, fun _ => hks, fun _ _ => hb fun _ h => (by cases h), fun _ _ h => absurd trivial h⟩

/-- From a state that keeps `OwnsTree`, every call made where the code is right returns from
some loop bound on, to a state that keeps it again, as `CallSpec` describes. -/
theorem OwnsTree.call_run (hk : KeyOrder comp lt) (hirr : ∀ a, lt a a = false)
    (ho : OwnsTree comp s t) {c : Call α} (hc : c.Allowed lt s) :
    ∃ N s' t', (∀ fuel, N ≤ fuel → c.run comp fuel s = (.ok (), s')) ∧ OwnsTree comp s' t' ∧
      CallSpec comp lt c s s' t t' := by
  obtain ⟨N, s', t', hrun, hspec⟩ := ho.toTreeOk.call_run hk hirr hc
  exact ⟨N, s', t', hrun, hspec.confined.ownsTree ho hspec.treeOk, hspec⟩

variable (comp lt)

/-- The states a tree reaches from default construction through calls made where the code is
right, each returning from some loop bound on. -/
inductive Reachable : State α → Prop
  | empty : Reachable State.empty
  | call {s s' : State α} {N : Nat} (c : Call α) : Reachable s → c.Allowed lt s →
      (∀ fuel, N ≤ fuel → c.run comp fuel s = (.ok (), s')) → Reachable s'

variable {comp lt}

theorem fortyTwentyTenThirty_reachable :
    Reachable stdLess (fun a b => decide (a < b)) fortyTwentyTenThirty :=
  .call (N := 4) (.insert 30) (.call (N := 4) (.insert 10) (.call (N := 4) (.insert 20)
    (.call (N := 0) (.insert 40) .empty trivial (of_add_bound fun _ => by rfl)) trivial
    (of_add_bound fun _ => by rfl)) trivial (of_add_bound fun _ => by rfl)) trivial
    (of_add_bound fun _ => by rfl)

theorem fortyTwentyTenThirty_erase_ten_allowed :
    (Call.erase 2).Allowed (fun a b => decide (a < b)) fortyTwentyTenThirty :=
  ⟨nodeOf_of_mem fortyTwentyTenThirty_repOk.searchOk (by decide), ⟨_, rfl, by decide, by decide⟩⟩

def fortyTwentyThirty : State Nat := fortyTwentyTenThirty.after (erase stdLess 20 ⟨some 2, .valid⟩)

theorem fortyTwentyThirty_reachable : Reachable stdLess (fun a b => decide (a < b)) fortyTwentyThirty :=
  .call (N := 4) (.erase 2) fortyTwentyTenThirty_reachable fortyTwentyTenThirty_erase_ten_allowed
    (of_add_bound fun _ => by rfl)

theorem Reachable.ownsTree (hk : KeyOrder comp lt) (hirr : ∀ a, lt a a = false)
    (h : Reachable comp lt s) : ∃ t, OwnsTree comp s t := by
  induction h with
  | empty => exact ⟨_, ownsTree_empty⟩
  | call c _ hc hrun ih =>
    obtain ⟨t, ho⟩ := ih
    obtain ⟨N, s'', t', hrun', ho', -⟩ := ho.call_run hk hirr hc
    exact ⟨t', eq_of_runs hrun' hrun ▸ ho'⟩

/-- Every state a tree reaches from default construction through calls made where the code is
right keeps `OwnsTree`: exact links, keys increasing, the memory from the allocator's next
address on free, and the allocated cells exactly the tree's nodes. From it every call made where
the code is right returns, from some loop bound on, to a state reached the same way. -/
theorem reachable_safe (hk : KeyOrder comp lt) (hirr : ∀ a, lt a a = false)
    (h : Reachable comp lt s) :
    (∃ t, OwnsTree comp s t) ∧ ∀ c : Call α, c.Allowed lt s →
      ∃ N s', (∀ fuel, N ≤ fuel → c.run comp fuel s = (.ok (), s')) ∧ Reachable comp lt s' := by
  obtain ⟨t, ho⟩ := h.ownsTree hk hirr
  refine ⟨⟨t, ho⟩, fun c hc => ?_⟩
  obtain ⟨N, s', -, hrun, -⟩ := ho.call_run hk hirr hc
  exact ⟨N, s', hrun, .call c h hc hrun⟩

theorem fortyTwentyThirty_reachable_safe :
    (∃ t, OwnsTree stdLess fortyTwentyThirty t) ∧
      ∀ c : Call Nat, c.Allowed (fun a b => decide (a < b)) fortyTwentyThirty →
        ∃ N s', (∀ fuel, N ≤ fuel → c.run stdLess fuel fortyTwentyThirty = (.ok (), s')) ∧
          Reachable stdLess (fun a b => decide (a < b)) s' :=
  reachable_safe stdLess_keyOrder (fun a => by simp) fortyTwentyThirty_reachable

/-- Iterators at nodes a call does not remove stay valid: from every state reached through calls
made where the code is right, a call made where the code is right returns, and every node of the
tree that the call does not remove (`Call.Removes`: `insert` and `insert (first, last)` remove
none, `erase (pos)` its node, `erase (key)` a node with an equivalent key) is still a node of the
tree, holding the same key, and `++` there returns its successor in the new tree. -/
theorem reachable_iterators_stay (hk : KeyOrder comp lt) (hirr : ∀ a, lt a a = false)
    (h : Reachable comp lt s) :
    ∃ t, OwnsTree comp s t ∧ ∀ c : Call α, c.Allowed lt s → ∃ N s' t',
      (∀ fuel, N ≤ fuel → c.run comp fuel s = (.ok (), s')) ∧ OwnsTree comp s' t' ∧
      ∀ x ∈ t.ptrs, ¬ c.Removes lt s.store.heap x →
        x ∈ t'.ptrs ∧ (s'.store.heap x).map Node.value = (s.store.heap x).map Node.value ∧
        BstreeIterator.IncrTo s'.store.heap ⟨some x, .valid⟩ (BstreeIterator.successorIn t'.ptrs x) := by
  obtain ⟨t, ho⟩ := h.ownsTree hk hirr
  refine ⟨t, ho, fun c hc => ?_⟩
  obtain ⟨N, s', t', hrun, ho', hspec⟩ := ho.call_run hk hirr hc
  refine ⟨N, s', t', hrun, ho', fun x hx hrem => ?_⟩
  obtain ⟨hx', hv⟩ := hspec.stays x hx hrem
  exact ⟨hx', hv, BstreeIterator.incrTo_successorIn ho'.hangs ho'.searchOk.nodup hx'⟩

theorem fortyTwentyThirty_iterators_stay :
    ∃ t, OwnsTree stdLess fortyTwentyThirty t ∧
      ∀ c : Call Nat, c.Allowed (fun a b => decide (a < b)) fortyTwentyThirty →
        ∃ N s' t', (∀ fuel, N ≤ fuel → c.run stdLess fuel fortyTwentyThirty = (.ok (), s')) ∧
        OwnsTree stdLess s' t' ∧ ∀ x ∈ t.ptrs,
          ¬ c.Removes (fun a b => decide (a < b)) fortyTwentyThirty.store.heap x →
          x ∈ t'.ptrs ∧ (s'.store.heap x).map Node.value = (fortyTwentyThirty.store.heap x).map Node.value ∧
          BstreeIterator.IncrTo s'.store.heap ⟨some x, .valid⟩ (BstreeIterator.successorIn t'.ptrs x) :=
  reachable_iterators_stay stdLess_keyOrder (fun a => by simp) fortyTwentyThirty_reachable

theorem BeginAt.visits {b : Bstree} {h : Heap α} (hb : b.BeginAt t.ptrs) (ht : Hangs h none t)
    (hnd : t.ptrs.Nodup) {m : Ptr} (hm : t.ptrs.getLast? = some m) :
    BstreeIterator.Visits h ⟨some m, .afterEnd⟩ b.beginIt (t.keys h) := by
  obtain ⟨a, rest, hp⟩ := List.exists_cons_of_ne_nil fun (e : t.ptrs = []) => by simp [e] at hm
  rw [hb a (by rw [hp]; rfl), show t.keys h = valuesAt h t.ptrs from rfl, hp]
  exact BstreeIterator.visits_to_end ht hnd hm rest [] a hp

variable (comp lt)

/-- The states reached from default construction through calls made where the code is right
that never erase the node of `_begin` while it has a right child. -/
inductive ReachableKeepingBegin : State α → Prop
  | empty : ReachableKeepingBegin State.empty
  | call {s s' : State α} {N : Nat} (c : Call α) : ReachableKeepingBegin s → c.Allowed lt s →
      c.KeepsBegin lt s → (∀ fuel, N ≤ fuel → c.run comp fuel s = (.ok (), s')) →
      ReachableKeepingBegin s'

variable {comp lt}

theorem fortyTwentyThirty_keepingBegin :
    ReachableKeepingBegin stdLess (fun a b => decide (a < b)) fortyTwentyThirty :=
  .call (N := 4) (.erase 2) (.call (N := 4) (.insert 30) (.call (N := 4) (.insert 10)
    (.call (N := 4) (.insert 20) (.call (N := 0) (.insert 40) .empty trivial trivial
    (of_add_bound fun _ => by rfl)) trivial trivial (of_add_bound fun _ => by rfl)) trivial trivial
    (of_add_bound fun _ => by rfl)) trivial trivial (of_add_bound fun _ => by rfl))
    fortyTwentyTenThirty_erase_ten_allowed (fun _ _ hnd => by cases hnd; rfl)
    (of_add_bound fun _ => by rfl)

/-- Along calls made where the code is right that never erase the node of `_begin` while it has
a right child, `_begin` stays the valid iterator at the first node in order: every state reached
keeps `OwnsTree` for a shape whose first address, when it has one, is that of `_begin`, and `++`
from `begin ()` visits the keys in order up to the after-end iterator at the last node. -/
theorem reachableKeepingBegin_beginAt (hk : KeyOrder comp lt) (hirr : ∀ a, lt a a = false)
    (h : ReachableKeepingBegin comp lt s) :
    ∃ t, OwnsTree comp s t ∧ s.tree.BeginAt t.ptrs ∧ ∀ m, t.ptrs.getLast? = some m →
      BstreeIterator.Visits s.store.heap ⟨some m, .afterEnd⟩ s.tree.beginIt (t.keys s.store.heap) := by
  suffices ∃ t, OwnsTree comp s t ∧ s.tree.BeginAt t.ptrs from
    let ⟨t, ho, hb⟩ := this
    ⟨t, ho, hb, fun _ hm => hb.visits ho.hangs ho.searchOk.nodup hm⟩
  induction h with
  | empty => exact ⟨_, ownsTree_empty, fun _ h => by cases h⟩
  | call c _ hc hkb hrun ih =>
    obtain ⟨t, ho, hb⟩ := ih
    obtain ⟨N, s'', t', hrun', ho', hspec⟩ := ho.call_run hk hirr hc
    obtain rfl := eq_of_runs hrun' hrun
    exact ⟨t', ho', hspec.keepsBegin hb hkb⟩

theorem fortyTwentyThirty_beginAt :
    ∃ t, OwnsTree stdLess fortyTwentyThirty t ∧ fortyTwentyThirty.tree.BeginAt t.ptrs ∧
      ∀ m, t.ptrs.getLast? = some m → BstreeIterator.Visits fortyTwentyThirty.store.heap
        ⟨some m, .afterEnd⟩ fortyTwentyThirty.tree.beginIt (t.keys fortyTwentyThirty.store.heap) :=
  reachableKeepingBegin_beginAt stdLess_keyOrder (fun a => by simp) fortyTwentyThirty_keepingBegin

variable (comp lt)

/-- The states reached from default construction through calls made where the code is right,
each with the keys in order that the same operations on an ordered set give: `Call.keys` of the
keys before each call. -/
inductive ReachableKeys : State α → List α → Prop
  | empty : ReachableKeys State.empty []
  | call {s s' : State α} {ks : List α} {N : Nat} (c : Call α) : ReachableKeys s ks →
      c.Allowed lt s → (∀ fuel, N ≤ fuel → c.run comp fuel s = (.ok (), s')) →
      ReachableKeys s' (c.keys lt s.store.heap ks)

variable {comp lt}

theorem fortyTwentyThirty_reachableKeys :
    ReachableKeys stdLess (fun a b => decide (a < b)) fortyTwentyThirty [20, 30, 40] :=
  .call (N := 4) (.erase 2) (.call (N := 4) (.insert 30) (.call (N := 4) (.insert 10)
    (.call (N := 4) (.insert 20) (.call (N := 0) (.insert 40) .empty trivial
    (of_add_bound fun _ => by rfl)) trivial (of_add_bound fun _ => by rfl)) trivial
    (of_add_bound fun _ => by rfl)) trivial (of_add_bound fun _ => by rfl))
    fortyTwentyTenThirty_erase_ten_allowed (of_add_bound fun _ => by rfl)

/-- The tree is an ordered set: under a comparator that returns and is a strict weak order, after
any calls made where the code is right, the tree's keys in order are those the same operations
give on the ordered set of keys (`insertKey`, `removeKey`, the fold of a range, nothing after
`clear`), and the state keeps `OwnsTree`. -/
theorem reachableKeys_refines (hk : KeyOrder comp lt) (hw : IsStrictWeakOrder α (lt · · = true))
    {ks : List α} (h : ReachableKeys comp lt s ks) :
    ∃ t, OwnsTree comp s t ∧ t.keys s.store.heap = ks := by
  induction h with
  | empty => exact ⟨_, ownsTree_empty, rfl⟩
  | call c _ hc hrun ih =>
    obtain ⟨t, ho, hks⟩ := ih
    obtain ⟨N, s'', t', hrun', ho', hspec⟩ := ho.call_run hk (Sorting.lt_irrefl hw) hc
    obtain rfl := eq_of_runs hrun' hrun
    exact ⟨t', ho', by rw [hspec.keys hw, hks]⟩

theorem fortyTwentyThirty_refines :
    ∃ t, OwnsTree stdLess fortyTwentyThirty t ∧ t.keys fortyTwentyThirty.store.heap = [20, 30, 40] :=
  reachableKeys_refines stdLess_keyOrder Sorting.isStrictWeakOrder_decide_lt
    fortyTwentyThirty_reachableKeys

end Bstree
end Dsa
