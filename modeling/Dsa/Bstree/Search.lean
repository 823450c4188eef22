import Dsa.Bstree.Insert

/-! # The descent, and what `count` and `find` return

The descent loop that `insert`, `emplace`, `count`, `find_impl` and `erase (key)` share is
read off the shape it walks: `Shape.slot` is where the search for a key ends, at a node
equivalent to it or at the empty child slot where it would hang. On a shape realised with
exact links the loop reaches that slot. With a comparator that returns and is transitive
and keys increasing in order, the search is sound (a node found is equivalent to the key)
and complete (an empty slot means no node is).
-/
namespace Dsa
variable {α : Type}

/-- `_key_comp` returns without throwing, is the relation `lt`, and `lt` is transitive: what
the descent needs of a strict weak order. -/
structure KeyOrder (comp : α → α → Except Fault Bool) (lt : α → α → Bool) : Prop where
  comp_eq : ∀ a b, comp a b = .ok (lt a b)
  trans : ∀ a b c, lt a b = true → lt b c = true → lt a c = true

/-- The part of the invariant the descent relies on: child links from the root forming `t`, no
node twice, keys increasing under the comparator, and the size. Parent links are not read. -/
structure SearchOk (comp : α → α → Except Fault Bool) (s : State α) (t : Shape) : Prop where
  links : Links s.store.heap t
  root : s.tree.treeRoot = t.rootPtr
  nodup : t.ptrs.Nodup
  sorted : (t.keys s.store.heap).Pairwise fun a b => comp a b = .ok true
  size : s.tree.treeSize = t.ptrs.length

theorem KeyOrder.pairwise_lt {comp : α → α → Except Fault Bool} {lt : α → α → Bool}
    (hk : KeyOrder comp lt) {l : List α} (hl : l.Pairwise fun a b => comp a b = .ok true) :
    l.Pairwise (lt · · = true) :=
  hl.imp fun hab => by rwa [hk.comp_eq, Except.ok.injEq] at hab

theorem RepOk.searchOk {comp : α → α → Except Fault Bool} {s : State α} {t : Shape}
    (hr : RepOk comp s t) : SearchOk comp s t :=
  ⟨hr.hangs.links, hr.root, hr.nodup, hr.sorted, hr.size⟩

namespace Shape
variable (h : Heap α) (lt : α → α → Bool) (k : α)

/-- Where the search for `k` ends in `t`: less goes left, greater goes right, neither stops
at the node; a missing child is the slot on that side. An empty shape has no slot. -/
def slot : Shape → Option Bstree.Slot
  | .leaf => none
  | .node l p r =>
    match h p with
    | none => none
    | some pn =>
      if lt k pn.value then some ((l.slot).getD (.vacant .left p))
      else if lt pn.value k then some ((r.slot).getD (.vacant .right p))
      else some (.found p)

variable {h}

@[simp] theorem slot_leaf : leaf.slot h lt k = none := rfl
@[simp] theorem keys_leaf : leaf.keys h = [] := rfl

theorem keys_node {l r : Shape} {p : Ptr} {nd : Node α} (hp : h p = some nd) :
    (node l p r).keys h = l.keys h ++ nd.value :: r.keys h := by
  simp [keys, List.filterMap_append, hp]

theorem slot_eq_none_iff {t : Shape} (ht : Links h t) : t.slot h lt k = none ↔ t = .leaf := by
  cases t with
  | leaf => simp [slot]
  | node l p r =>
    obtain ⟨nd, hv, -⟩ := ht.1
    simp only [slot, hv]
    split <;> simp
    split <;> simp

theorem slot_node {l r : Shape} {p : Ptr} {pn : Node α} (hv : h p = some pn) {res : Bstree.Slot}
    (hx : (node l p r).slot h lt k = some res) :
    (lt k pn.value = true ∧ (l.slot h lt k).getD (.vacant .left p) = res) ∨
    (lt k pn.value = false ∧ lt pn.value k = true ∧ (r.slot h lt k).getD (.vacant .right p) = res) ∨
    (lt k pn.value = false ∧ lt pn.value k = false ∧ res = .found p) := by
  simp only [slot, hv] at hx
  split_ifs at hx with hkv hvk <;> cases hx
  exacts [.inl ⟨hkv, rfl⟩, .inr (.inl ⟨by simpa using hkv, hvk, rfl⟩),
    .inr (.inr ⟨by simpa using hkv, by simpa using hvk, rfl⟩)]

theorem slot_getD {c : Shape} (hc : Links h c) {d : Dir} {p : Ptr} {res : Bstree.Slot}
    (hx : (c.slot h lt k).getD (.vacant d p) = res) :
    (c = .leaf ∧ res = .vacant d p) ∨ c.slot h lt k = some res := by
  rcases hcs : c.slot h lt k with _ | cs <;> rw [hcs] at hx
  · exact .inl ⟨(slot_eq_none_iff lt k hc).mp hcs, hx.symm⟩
  · exact .inr (congrArg some hx)

theorem mem_keys {t : Shape} {x : Ptr} {nd : Node α} (hx : x ∈ t.ptrs) (hnd : h x = some nd) :
    nd.value ∈ t.keys h :=
  List.mem_filterMap.mpr ⟨x, hx, by simp [hnd]⟩

theorem slot_found {t : Shape} (ht : Links h t) {x : Ptr}
    (hx : t.slot h lt k = some (.found x)) :
    ∃ nd, x ∈ t.ptrs ∧ h x = some nd ∧ equivBy lt k nd.value = true := by
  induction t with
  | leaf => cases hx
  | node l p r ihl ihr =>
    obtain ⟨⟨pn, hv, -⟩, hl, hr⟩ := ht
    rcases slot_node lt k hv hx with ⟨-, hx⟩ | ⟨-, -, hx⟩ | ⟨hkv, hvk, hx⟩
    · rcases slot_getD lt k hl hx with ⟨-, ⟨⟩⟩ | hls
      obtain ⟨nd, hm, hnd, he⟩ := ihl hl hls
      exact ⟨nd, by simp [hm], hnd, he⟩
    · rcases slot_getD lt k hr hx with ⟨-, ⟨⟩⟩ | hrs
      obtain ⟨nd, hm, hnd, he⟩ := ihr hr hrs
      exact ⟨nd, by simp [hm], hnd, he⟩
    · cases hx
      exact ⟨_, by simp, hv, by simp [equivBy, hkv, hvk]⟩

theorem slot_vacant (htrans : ∀ a b c, lt a b = true → lt b c = true → lt a c = true)
    {t : Shape} (ht : Links h t) (hs : (t.keys h).Pairwise (lt · · = true))
    {d : Dir} {m : Ptr} (hx : t.slot h lt k = some (.vacant d m)) :
    (t.keys h).any (equivBy lt k) = false := by
  induction t with
  | leaf => cases hx
  | node l p r ihl ihr =>
    obtain ⟨⟨pn, hv, -⟩, hl, hr⟩ := ht
    rw [keys_node hv] at hs ⊢
    rw [List.pairwise_append, List.pairwise_cons] at hs
    obtain ⟨hsl, ⟨hvr, hsr⟩, hlv⟩ := hs
    simp only [List.any_append, List.any_cons, Bool.or_eq_false_iff, List.any_eq_false]
    rcases slot_node lt k hv hx with ⟨hkv, hx⟩ | ⟨-, hvk, hx⟩ | ⟨-, -, hx⟩
    · have hl' : ∀ x ∈ l.keys h, ¬ equivBy lt k x = true := by
        rcases slot_getD lt k hl hx with ⟨rfl, -⟩ | hls
        · simp
        · exact List.any_eq_false.mp (ihl hl hsl hls)
      exact ⟨hl', by simp [equivBy, hkv], fun y hy => by
        simp [equivBy, htrans _ _ _ hkv (hvr y hy)]⟩
    · have hr' : ∀ x ∈ r.keys h, ¬ equivBy lt k x = true := by
        rcases slot_getD lt k hr hx with ⟨rfl, -⟩ | hrs
        · simp
        · exact List.any_eq_false.mp (ihr hr hsr hrs)
      exact ⟨fun y hy => by simp [equivBy, htrans _ _ _ (hlv y hy _ (List.mem_cons_self _ _)) hvk],
        by simp [equivBy, hvk], hr'⟩
    · cases hx

end Shape

namespace Bstree
variable (comp : α → α → Except Fault Bool) {lt : α → α → Bool} {h : Heap α} {k : α}

theorem descend_reaches (hk : KeyOrder comp lt) :
    ∀ {t : Shape} {q : Ptr} {res : Slot}, Links h t → t.rootPtr = some q →
      t.slot h lt k = some res → Reaches (descendStep comp h k) q res
  | .leaf, _, _, _, hq, _ => by cases hq
  | .node l p r, q, res, ⟨⟨pn, hv, hpl, hpr⟩, hl, hr⟩, hq, hres => by
    cases hq
    rcases Shape.slot_node lt k hv hres with ⟨hkv, hres⟩ | ⟨hkv, hvk, hres⟩ | ⟨hkv, hvk, rfl⟩
    · rcases Shape.slot_getD lt k hl hres with ⟨rfl, rfl⟩ | hls
      · exact .done (by simp [descendStep, deref_some hv, hk.comp_eq, hkv, hpl])
      · cases l with
        | leaf => cases hls
        | node ll lq lr =>
          exact .step (by simp [descendStep, deref_some hv, hk.comp_eq, hkv, hpl])
            (descend_reaches hk hl rfl hls)
    · rcases Shape.slot_getD lt k hr hres with ⟨rfl, rfl⟩ | hrs
      · exact .done (by simp [descendStep, deref_some hv, hk.comp_eq, hkv, hvk, hpr])
      · cases r with
        | leaf => cases hrs
        | node rl rq rr =>
          exact .step (by simp [descendStep, deref_some hv, hk.comp_eq, hkv, hvk, hpr])
            (descend_reaches hk hr rfl hrs)
    · exact .done (by simp [descendStep, deref_some hv, hk.comp_eq, hkv, hvk])

/-- The descent of a member function on a tree with a node returns the slot, from some loop
bound on, and changes nothing. -/
theorem descend_eq (hk : KeyOrder comp lt) {s : State α} {t : Shape}
    (hs : SearchOk comp s t) {res : Slot} (hres : t.slot s.store.heap lt k = some res) :
    ∃ N, ∀ fuel, N ≤ fuel → descend comp fuel k s = (.ok res, s) := by
  cases t with
  | leaf => cases hres
  | node l p r =>
    obtain ⟨N, hN⟩ := (descend_reaches comp hk hs.links rfl hres).loop_eq
    refine ⟨N, fun fuel hf => ?_⟩
    rw [descend, getTree_bind, hs.root]
    simp [ptrOf, getHeap_bind, liftE_apply, hN fuel hf]

theorem descendStep_cases {p : Ptr} {pn : Node α} (hv : h p = some pn) :
    (∃ a b e, comp a b = .error e ∧ descendStep comp h k p = .error e) ∨
    (∃ j, (pn.left = some j ∨ pn.right = some j) ∧ descendStep comp h k p = .ok (.inl j)) ∨
    ∃ res, descendStep comp h k p = .ok (.inr res) ∧ (res = .found p ∨ ∃ d, res = .vacant d p) := by
  simp only [descendStep, deref_some hv, except_ok_bind]
  rcases hc : comp k pn.value with e | _ | _
  · exact .inl ⟨_, _, e, hc, rfl⟩
  · rcases hc' : comp pn.value k with e | _ | _
    · exact .inl ⟨_, _, e, hc', by simp [hc']⟩
    · exact .inr (.inr ⟨_, by simp [hc'], .inl rfl⟩)
    · rcases hr : pn.right with _ | j
      · exact .inr (.inr ⟨.vacant .right p, by simp [hc'], .inr ⟨_, rfl⟩⟩)
      · exact .inr (.inl ⟨j, .inr rfl, by simp [hc']⟩)
  · rcases hl : pn.left with _ | j
    · exact .inr (.inr ⟨.vacant .left p, by simp, .inr ⟨_, rfl⟩⟩)
    · exact .inr (.inl ⟨j, .inl rfl, by simp⟩)

theorem loop_descendStep_congr {h' : Heap α} :
    ∀ {t : Shape} {q : Ptr}, Links h t → t.rootPtr = some q → (∀ x ∈ t.ptrs, h' x = h x) →
      ∀ fuel, loop (descendStep comp h' k) fuel q = loop (descendStep comp h k) fuel q
  | .leaf, _, _, hq, _, _ => by cases hq
  | .node _ _ _, _, _, _, _, 0 => rfl
  | .node l p r, q, ⟨⟨pn, hv, hpl, hpr⟩, hl, hr⟩, hq, he, fuel + 1 => by
    cases hq
    have hstep : descendStep comp h' k p = descendStep comp h k p := by
      simp only [descendStep, deref_some hv, deref_some ((he p (by simp)).trans hv)]
    simp only [loop, hstep]
    rcases descendStep_cases comp (k := k) hv with ⟨-, -, e, -, hd⟩ | ⟨j, hj | hj, hd⟩ | ⟨res, hd, -⟩ <;>
      simp only [hd]
    · exact loop_descendStep_congr hl (hpl ▸ hj) (fun x hx => he x (by simp [hx])) fuel
    · exact loop_descendStep_congr hr (hpr ▸ hj) (fun x hx => he x (by simp [hx])) fuel

theorem loop_descendStep_outcome :
    ∀ {t : Shape} {q : Ptr}, Links h t → t.rootPtr = some q → ∀ fuel, t.ptrs.length ≤ fuel →
      (∃ a b e, comp a b = .error e ∧ loop (descendStep comp h k) fuel q = .error e) ∨
      ∃ x ∈ t.ptrs, loop (descendStep comp h k) fuel q = .ok (.found x) ∨
        ∃ d, loop (descendStep comp h k) fuel q = .ok (.vacant d x)
  | .leaf, _, _, hq, _, _ => by cases hq
  | .node _ _ _, _, _, _, 0, hf => by simp at hf
  | .node l p r, q, ⟨⟨pn, hv, hpl, hpr⟩, hl, hr⟩, hq, fuel + 1, hf => by
    cases hq
    simp only [Shape.ptrs_node, List.length_append, List.length_cons] at hf
    simp only [loop]
    rcases descendStep_cases comp (k := k) hv with ⟨a, b, e, hc, hd⟩ | ⟨j, hj | hj, hd⟩ |
        ⟨res, hd, hres⟩ <;> simp only [hd]
    · exact .inl ⟨a, b, e, hc, rfl⟩
    · rcases loop_descendStep_outcome hl (hpl ▸ hj) fuel (by omega) with he | ⟨x, hx, hx'⟩
      · exact .inl he
      · exact .inr ⟨x, by simp [hx], hx'⟩
    · rcases loop_descendStep_outcome hr (hpr ▸ hj) fuel (by omega) with he | ⟨x, hx, hx'⟩
      · exact .inl he
      · exact .inr ⟨x, by simp [hx], hx'⟩
    · refine .inr ⟨p, by simp, ?_⟩
      rcases hres with rfl | ⟨d, rfl⟩
      exacts [.inl rfl, .inr ⟨d, rfl⟩]

theorem stdLess_keyOrder : KeyOrder (stdLess (α := Nat)) (fun a b => decide (a < b)) :=
  ⟨fun _ _ => rfl, fun a b c hab hbc => by simp only [decide_eq_true_eq] at *; omega⟩

/-- `count (key)` and `find (key)` on every tree whose keys increase under a transitive
comparator that returns: from some loop bound on, `count` is 1 exactly when a key equivalent
to `key` is present, and `find` returns the valid iterator at such a node, or else `_end`;
neither changes the object. -/
theorem count_find_correct (hk : KeyOrder comp lt) {s : State α} {t : Shape}
    (hs : SearchOk comp s t) (key : α) :
    ∃ N, ∀ fuel, N ≤ fuel →
      count comp fuel key s = (.ok (if (t.keys s.store.heap).any (equivBy lt key) then 1 else 0), s) ∧
      ∃ it, find comp fuel key s = (.ok it, s) ∧
        if (t.keys s.store.heap).any (equivBy lt key) then
          ∃ n nd, n ∈ t.ptrs ∧ s.store.heap n = some nd ∧ equivBy lt key nd.value = true ∧
            it = ⟨some n, .valid⟩
        else it = s.tree.endIt := by
  have hsorted := hk.pairwise_lt hs.sorted
  cases t with
  | leaf =>
    have hsize : s.tree.treeSize = 0 := hs.size
    exact ⟨0, fun fuel _ => ⟨by simp [count, getTree_bind, hsize], s.tree.endIt,
      by simp only [find, getTree_bind, hsize, if_true]; rfl, by simp⟩⟩
  | node l p r =>
    have hsize : s.tree.treeSize ≠ 0 := by simp [hs.size]
    obtain ⟨res, hres⟩ := Option.ne_none_iff_exists'.mp
      (mt (Shape.slot_eq_none_iff lt key hs.links).mp (by simp))
    obtain ⟨N, hN⟩ := descend_eq comp hk hs hres
    refine ⟨N, fun fuel hf => ?_⟩
    cases res with
    | found x =>
      obtain ⟨nd, hx, hnd, he⟩ := Shape.slot_found lt key hs.links hres
      have hany : ((Shape.node l p r).keys s.store.heap).any (equivBy lt key) = true :=
        List.any_eq_true.mpr ⟨_, Shape.mem_keys hx hnd, he⟩
      refine ⟨by simp [count, getTree_bind, hsize, hN fuel hf, hany], ⟨some x, .valid⟩,
        by simp [find, getTree_bind, hsize, hN fuel hf], ?_⟩
      rw [hany, if_pos rfl]
      exact ⟨x, nd, hx, hnd, he, rfl⟩
    | vacant d m =>
      have hany := Shape.slot_vacant lt key hk.trans hs.links hsorted hres
      refine ⟨by simp [count, getTree_bind, hsize, hN fuel hf, hany], s.tree.endIt,
        by rw [find, getTree_bind, if_neg hsize, bind_apply, hN fuel hf]; rfl, ?_⟩
      simp [hany]

theorem fortyTwentyTenThirty_count_find :
    KeyOrder stdLess (fun a b : Nat => decide (a < b)) ∧
      SearchOk stdLess fortyTwentyTenThirty fortyTwentyShape ∧
      ∃ N, ∀ fuel, N ≤ fuel →
        count stdLess fuel 30 fortyTwentyTenThirty =
          (.ok (if (fortyTwentyShape.keys fortyTwentyTenThirty.store.heap).any
            (equivBy (fun a b : Nat => decide (a < b)) 30) then 1 else 0), fortyTwentyTenThirty) ∧
        ∃ it, find stdLess fuel 30 fortyTwentyTenThirty = (.ok it, fortyTwentyTenThirty) ∧
          if (fortyTwentyShape.keys fortyTwentyTenThirty.store.heap).any
              (equivBy (fun a b : Nat => decide (a < b)) 30) then
            ∃ n nd, n ∈ fortyTwentyShape.ptrs ∧ fortyTwentyTenThirty.store.heap n = some nd ∧
              equivBy (fun a b : Nat => decide (a < b)) 30 nd.value = true ∧ it = ⟨some n, .valid⟩
          else it = fortyTwentyTenThirty.tree.endIt :=
  ⟨stdLess_keyOrder, fortyTwentyTenThirty_repOk.searchOk,
    count_find_correct stdLess stdLess_keyOrder fortyTwentyTenThirty_repOk.searchOk 30⟩

end Bstree

end Dsa
