import Dsa.Bstree.Erase
import Dsa.Bstree.InsertCorrect

/-! # The graft loop of `erase`

When `erase` removes a node with two children, one child's subtree `P` takes its place and
the other's, `G`, is grafted into `P`: the loop walks down from `P`'s root, comparing `G`'s
root with each node, and links `G` into the first free slot. When every key of `G` lies above
every key of `P` the walk follows `P`'s right spine, and `G` hangs right of `P`'s last node;
when below, left of its first node. `Shape.graftAt` is that shape, and `graft_correct` says the
loop finds its slot within `P.height` rounds, one comparison each, and leaves exactly that
shape with the keys of `P` and `G` in order.
-/
namespace Dsa
variable {α : Type}

def Dir.join {β : Type} : Dir → List β → List β → List β
  | .right, xs, ys => xs ++ ys
  | .left, xs, ys => ys ++ xs

def Dir.endOf {β : Type} : Dir → List β → Option β
  | .right, xs => xs.getLast?
  | .left, xs => xs.head?

namespace Shape

def height : Shape → Nat
  | leaf => 0
  | node l _ r => max l.height r.height + 1

/-- The last node down the spine on side `d`. -/
def spineEnd : Shape → Dir → Option Ptr
  | leaf, _ => none
  | node l p _, .left => (l.spineEnd .left).or (some p)
  | node _ p r, .right => (r.spineEnd .right).or (some p)

/-- `t` with `g` hung at the end of its spine on side `d`. -/
def graftAt : Shape → Shape → Dir → Shape
  | leaf, g, _ => g
  | node l p r, g, .left => node (l.graftAt g .left) p r
  | node l p r, g, .right => node l p (r.graftAt g .right)

@[simp] theorem graftAt_leaf (g : Shape) (d : Dir) : leaf.graftAt g d = g := by
  cases d <;> rfl

theorem ptrs_graftAt (g : Shape) (d : Dir) (t : Shape) :
    (t.graftAt g d).ptrs = d.join t.ptrs g.ptrs := by
  induction t with
  | leaf => cases d <;> simp [Dir.join]
  | node l p r ihl ihr => cases d <;> simp_all [graftAt, Dir.join]

theorem spineEnd_eq_endOf (d : Dir) (t : Shape) : t.spineEnd d = d.endOf t.ptrs := by
  induction t with
  | leaf => cases d <;> rfl
  | node l p r ihl ihr =>
    cases d
    · simp [spineEnd, Dir.endOf, ihl, List.head?_append]
    · simp only [spineEnd, ihr, Dir.endOf, ptrs_node, List.getLast?_append, List.getLast?_cons]
      cases r.ptrs.getLast? <;> rfl

theorem spineEnd_eq_none {d : Dir} {t : Shape} : t.spineEnd d = none ↔ t = leaf := by
  cases t with
  | leaf => simp [spineEnd]
  | node l p r => cases d <;> simp [spineEnd, Option.or_eq_none]

theorem rootPtr_graftAt {t : Shape} (ht : t ≠ leaf) (g : Shape) (d : Dir) :
    (t.graftAt g d).rootPtr = t.rootPtr := by
  cases t with
  | leaf => exact absurd rfl ht
  | node l p r => cases d <;> rfl

theorem spineEnd_mem {d : Dir} {t : Shape} {m : Ptr} (h : t.spineEnd d = some m) : m ∈ t.ptrs := by
  rw [spineEnd_eq_endOf] at h
  cases d
  · exact List.mem_of_mem_head? h
  · exact List.mem_of_getLast?_eq_some h

theorem keys_graftAt (h : Heap α) (t g : Shape) (d : Dir) :
    (t.graftAt g d).keys h = d.join (t.keys h) (g.keys h) := by
  rw [keys, ptrs_graftAt]
  cases d <;> simp [Dir.join, keys, List.filterMap_append]

end Shape

section Link
variable {h : Heap α} {m g : Ptr} {mn gn : Node α} {d : Dir}

/-- The memory after the graft: `g` linked below `m` on side `d`, and `m` as `g`'s parent. -/
def linkGraft (h : Heap α) (m : Ptr) (mn : Node α) (d : Dir) (g : Ptr) (gn : Node α) : Heap α :=
  (h.write m (some (mn.setChild d (some g)))).write g (some { gn with parent := some m })

theorem linkGraft_below (hgm : g ≠ m) : linkGraft h m mn d g gn m = some (mn.setChild d (some g)) := by
  simp [linkGraft, Ne.symm hgm]

theorem linkGraft_graft : linkGraft h m mn d g gn g = some { gn with parent := some m } :=
  Heap.write_self _ _ _

theorem linkGraft_other {x : Ptr} (hxm : x ≠ m) (hxg : x ≠ g) : linkGraft h m mn d g gn x = h x := by
  simp [linkGraft, hxm, hxg]

theorem keys_linkGraft (hm : h m = some mn) (hg : h g = some gn) (t : Shape) :
    t.keys (linkGraft h m mn d g gn) = t.keys h := by
  refine List.filterMap_congr fun x _ => ?_
  by_cases hxg : x = g
  · subst hxg
    simp [linkGraft_graft, hg]
  · by_cases hxm : x = m
    · subst hxm
      simp [linkGraft, hxg, hm]
    · rw [linkGraft_other hxm hxg]

end Link

theorem Hangs.reparent {h h' : Heap α} {up up' : Option Ptr} {t : Shape} {g : Ptr} {gn : Node α}
    (ht : Hangs h up t) (hnd : t.ptrs.Nodup) (hg : t.rootPtr = some g) (hgn : h g = some gn)
    (hg' : h' g = some { gn with parent := up' }) (he : ∀ x ∈ t.ptrs, x ≠ g → h' x = h x) :
    Hangs h' up' t := by
  cases t with
  | leaf => trivial
  | node l p r =>
    cases hg
    obtain ⟨⟨v, hv⟩, hl, hr⟩ := ht
    rw [hv] at hgn
    cases hgn
    have hnd' := List.nodup_append.mp hnd
    exact ⟨⟨v, hg'⟩,
      hl.frame fun x hx => he x (by simp [hx]) fun e => hnd'.2.2 hx (e ▸ List.mem_cons_self _ _),
      hr.frame fun x hx => he x (by simp [hx]) fun e => (List.nodup_cons.mp hnd'.2.1).1 (e ▸ hx)⟩

theorem hangs_graftAt {h : Heap α} {G : Shape} {upG : Option Ptr} {g : Ptr} {gn : Node α}
    (hG : Hangs h upG G) (hgq : G.rootPtr = some g) (hgn : h g = some gn) (d : Dir) :
    ∀ {t : Shape} {up : Option Ptr} {m : Ptr} {mn : Node α}, Hangs h up t →
      t.spineEnd d = some m → h m = some mn → (t.ptrs ++ G.ptrs).Nodup →
      Hangs (linkGraft h m mn d g gn) up (t.graftAt G d)
  | .leaf, _, _, _, _, hm, _, _ => by cases hm
  | .node l p r, up, m, mn, ⟨⟨v, hv⟩, hl, hr⟩, hm, hmn, hnd => by
    have hgG : g ∈ G.ptrs := Shape.rootPtr_mem hgq
    have hdis := List.nodup_append.mp hnd
    have hnode := List.nodup_append.mp hdis.1
    have hpr := List.nodup_cons.mp hnode.2.1
    have hpl : p ∉ l.ptrs := fun hp => hnode.2.2 hp (List.mem_cons_self _ _)
    have hnotG : ∀ x ∈ (Shape.node l p r).ptrs, x ∉ G.ptrs := fun x hx hxG => hdis.2.2 hx hxG
    have hgm : g ≠ m := fun e => hnotG m (Shape.spineEnd_mem hm) (e ▸ hgG)
    have hframe : ∀ {c : Shape} {up' : Option Ptr}, Hangs h up' c →
        (∀ x ∈ c.ptrs, x ∈ (Shape.node l p r).ptrs) → m ∉ c.ptrs →
        Hangs (linkGraft h m mn d g gn) up' c := fun hc hsub hmc =>
      hc.frame fun x hx => linkGraft_other (fun e => hmc (e ▸ hx)) fun e => hnotG x (hsub x hx) (e ▸ hgG)
    have hGp : m = p → Hangs (linkGraft h m mn d g gn) (some p) G := fun e =>
      hG.reparent hdis.2.1 hgq hgn (e ▸ linkGraft_graft) fun x hx hxg =>
        linkGraft_other (fun e' => hnotG x (by simp [e' ▸ e]) hx) hxg
    have hpv : m ≠ p → linkGraft h m mn d g gn p = some ⟨v, l.rootPtr, r.rootPtr, up⟩ := fun e =>
      (linkGraft_other (Ne.symm e) fun e' => hnotG p (by simp) (e' ▸ hgG)).trans hv
    cases d with
    | left =>
      rcases hls : l.spineEnd .left with _ | m'
      · obtain rfl := Shape.spineEnd_eq_none.mp hls
        simp only [Shape.spineEnd, hls, Option.none_or, Option.some.injEq] at hm
        subst hm
        rw [hv] at hmn
        cases hmn
        exact ⟨⟨v, by rw [linkGraft_below hgm, Shape.graftAt_leaf, hgq]; rfl⟩, hGp rfl,
          hframe hr (fun x hx => by simp [hx]) hpr.1⟩
      · simp only [Shape.spineEnd, hls, Option.or_some, Option.some.injEq] at hm
        subst hm
        have hml : m' ∈ l.ptrs := Shape.spineEnd_mem hls
        have hl0 : l ≠ .leaf := by rintro rfl; cases hml
        refine ⟨⟨v, by rw [hpv (fun e => hpl (e ▸ hml)), Shape.rootPtr_graftAt hl0]⟩,
          hangs_graftAt hG hgq hgn .left hl hls hmn
            (hnd.sublist ((List.sublist_append_left _ _).append_right _)),
          hframe hr (fun x hx => by simp [hx]) fun hmr => hnode.2.2 hml (List.mem_cons_of_mem _ hmr)⟩
    | right =>
      rcases hrs : r.spineEnd .right with _ | m'
      · obtain rfl := Shape.spineEnd_eq_none.mp hrs
        simp only [Shape.spineEnd, hrs, Option.none_or, Option.some.injEq] at hm
        subst hm
        rw [hv] at hmn
        cases hmn
        exact ⟨⟨v, by rw [linkGraft_below hgm, Shape.graftAt_leaf, hgq]; rfl⟩,
          hframe hl (fun x hx => by simp [hx]) hpl, hGp rfl⟩
      · simp only [Shape.spineEnd, hrs, Option.or_some, Option.some.injEq] at hm
        subst hm
        have hmr : m' ∈ r.ptrs := Shape.spineEnd_mem hrs
        have hr0 : r ≠ .leaf := by rintro rfl; cases hmr
        refine ⟨⟨v, by rw [hpv (fun e => hpr.1 (e ▸ hmr)), Shape.rootPtr_graftAt hr0]⟩,
          hframe hl (fun x hx => by simp [hx]) fun hml => hnode.2.2 hml (List.mem_cons_of_mem _ hmr),
          hangs_graftAt hG hgq hgn .right hr hrs hmn
            (hnd.sublist (((List.sublist_cons_self _ _).trans
              (List.sublist_append_right _ _)).append_right _))⟩

namespace Bstree
variable (comp : α → α → Except Fault Bool) {lt : α → α → Bool}

/-- From the root of `t`, the graft loop for `in` follows `t`'s spine on side `d` when `in`'s
value is below every key of `t` (`d = .left`) or below none (`d = .right`), and stops at the
spine's end within `t.height` rounds. -/
theorem loop_graftStep (hk : KeyOrder comp lt) {h : Heap α} {inn : Ptr} {inNd : Node α}
    (hin : h inn = some inNd) (d : Dir) :
    ∀ {t : Shape} {q : Ptr}, Links h t → t.rootPtr = some q →
      (∀ x ∈ t.keys h, lt inNd.value x = decide (d = .left)) → ∀ fuel, t.height ≤ fuel →
      ∃ m, t.spineEnd d = some m ∧ loop (graftStep comp h inn) fuel q = .ok (d, m)
  | .leaf, _, _, hq, _, _, _ => by cases hq
  | .node _ _ _, _, _, _, _, 0, hf => by simp [Shape.height] at hf
  | .node l p r, q, ⟨⟨pn, hv, hpl, hpr⟩, hl, hr⟩, hq, hx, fuel + 1, hf => by
    cases hq
    rw [Shape.keys_node hv] at hx
    have hc : comp inNd.value pn.value = .ok (decide (d = .left)) := by
      rw [hk.comp_eq, hx _ (by simp)]
    simp only [Shape.height] at hf
    cases d with
    | left =>
      cases l with
      | leaf => exact ⟨p, rfl, by simp [loop, graftStep, deref_some hin, deref_some hv, hc, hpl]⟩
      | node ll lq lr =>
        obtain ⟨m, hm, hlp⟩ := loop_graftStep hk hin .left hl rfl
          (fun x hx' => hx x (List.mem_append_left _ hx')) fuel (by omega)
        exact ⟨m, congrArg (Option.or · (some p)) hm,
          by simp [loop, graftStep, deref_some hin, deref_some hv, hc, hpl, hlp]⟩
    | right =>
      cases r with
      | leaf => exact ⟨p, rfl, by simp [loop, graftStep, deref_some hin, deref_some hv, hc, hpr]⟩
      | node rl rq rr =>
        obtain ⟨m, hm, hlp⟩ := loop_graftStep hk hin .right hr rfl
          (fun x hx' => hx x (by simp [hx'])) fuel (by omega)
        exact ⟨m, congrArg (Option.or · (some p)) hm,
          by simp [loop, graftStep, deref_some hin, deref_some hv, hc, hpr, hlp]⟩

theorem graft_side (htrans : ∀ a b c, lt a b = true → lt b c = true → lt a c = true)
    (hirr : ∀ a, lt a a = false) {ps gs : List α} {d : Dir}
    (hs : (d.join ps gs).Pairwise (lt · · = true)) {g : α} (hg : g ∈ gs) :
    ∀ x ∈ ps, lt g x = decide (d = .left) := fun x hx => by
  cases d with
  | left => simpa using (List.pairwise_append.mp hs).2.2 _ hg x hx
  | right =>
    have hxg := (List.pairwise_append.mp hs).2.2 x hx _ hg
    cases hgx : lt g x
    · rfl
    · simpa [hirr] using htrans _ _ _ hgx hxg

/-- `graft` from `P`'s root `pq` for `G`'s root `gq`, once its loop stops at the slot on side
`d` of `m`: `gq` linked below `m` and `m` above `gq`, and nothing else. -/
theorem graft_run {s : State α} {pq gq m : Ptr} {d : Dir} {mn gn : Node α} {fuel : Nat}
    (hm : s.store.heap m = some mn) (hg : s.store.heap gq = some gn) (hgm : gq ≠ m)
    (hl : loop (graftStep comp s.store.heap gq) fuel pq = .ok (d, m)) :
    graft comp fuel (some pq) (some gq) s =
      (.ok (), { s with store := { s.store with heap := linkGraft s.store.heap m mn d gq gn } }) := by
  have hg' : (s.store.heap.write m (some (mn.setChild d (some gq)))) gq = some gn := by
    rw [Heap.write_ne _ _ hgm, hg]
  simp only [graft, ptrOf, bind_apply, pure_apply, getHeap_apply, hl, liftE_ok, setChild,
    writeNode_of hm, setParent]
  rw [writeNode_of (s := { s with store := { s.store with heap := _ } }) hg']
  rfl

/-- The graft loop of `erase`, for two non-empty subtrees `P` (promoted) and `G` with exact
links, no node twice, and keys in order with all of `G`'s above `P`'s (`d = .right`, the
even case) or all below (`d = .left`, the odd case). From the bound `P.height` on, the loop
stops at `P`'s last node (`.right`) or first node (`.left`), and `graft` links `G` on that
side of it and it above `G`, changing no other cell. The node graph then realises
`P.graftAt G d`, whose keys are `P`'s and `G`'s, in order. -/
theorem graft_correct (hk : KeyOrder comp lt) (hirr : ∀ a, lt a a = false) {s : State α}
    {P G : Shape} {upP upG : Option Ptr} {pq gq : Ptr} (d : Dir)
    (hP : Hangs s.store.heap upP P) (hG : Hangs s.store.heap upG G)
    (hpq : P.rootPtr = some pq) (hgq : G.rootPtr = some gq) (hnd : (P.ptrs ++ G.ptrs).Nodup)
    (hs : (d.join (P.keys s.store.heap) (G.keys s.store.heap)).Pairwise (lt · · = true)) :
    ∃ m, d.endOf P.ptrs = some m ∧ ∀ fuel, P.height ≤ fuel →
      loop (graftStep comp s.store.heap gq) fuel pq = .ok (d, m) ∧
      ∃ s', graft comp fuel (some pq) (some gq) s = (.ok (), s') ∧ s'.tree = s.tree ∧
        (∃ mn, s'.store.heap m = some mn ∧ mn.child d = some gq) ∧
        (∃ gn, s'.store.heap gq = some gn ∧ gn.parent = some m) ∧
        (∀ x, x ≠ m → x ≠ gq → s'.store.heap x = s.store.heap x) ∧
        Hangs s'.store.heap upP (P.graftAt G d) ∧
        (P.graftAt G d).keys s'.store.heap = d.join (P.keys s.store.heap) (G.keys s.store.heap) ∧
        ((P.graftAt G d).keys s'.store.heap).Pairwise (lt · · = true) := by
  obtain ⟨gn, hgn, -⟩ := hG.cell (Shape.rootPtr_mem hgq)
  have hside := graft_side hk.trans hirr hs (Shape.mem_keys (Shape.rootPtr_mem hgq) hgn)
  obtain ⟨m, hm⟩ := Option.ne_none_iff_exists'.mp
    (mt Shape.spineEnd_eq_none.mp (by rintro rfl; cases hpq) : P.spineEnd d ≠ none)
  have hmP := Shape.spineEnd_mem hm
  obtain ⟨mn, hmn, -⟩ := hP.cell hmP
  have hgm : gq ≠ m := fun e => List.disjoint_of_nodup_append hnd hmP (e ▸ Shape.rootPtr_mem hgq)
  refine ⟨m, (Shape.spineEnd_eq_endOf d P) ▸ hm, fun fuel hf => ?_⟩
  obtain ⟨m', hm', hl⟩ := loop_graftStep comp hk hgn d hP.links hpq hside fuel hf
  obtain rfl : m' = m := Option.some.inj (hm'.symm.trans hm)
  refine ⟨hl, _, graft_run comp hmn hgn hgm hl, rfl, ⟨_, linkGraft_below hgm, by simp⟩,
    ⟨_, linkGraft_graft, rfl⟩, fun x hxm hxg => linkGraft_other hxm hxg,
    hangs_graftAt hG hgq hgn d hP hm hmn hnd, ?_, ?_⟩ <;>
    rw [keys_linkGraft hmn hgn, Shape.keys_graftAt]
  exact hs

/-- In `40, 20, 10, 30`, the subtrees `10` (at 2) and `30` (at 3) of `20` (at 1): erasing `20`
at even size promotes `10` and grafts `30` right of it. -/
theorem graft_tenThirty :
    ∃ m, Dir.right.endOf (Shape.node .leaf 2 .leaf).ptrs = some m ∧
      ∀ fuel, (Shape.node .leaf 2 .leaf).height ≤ fuel →
      loop (graftStep stdLess fortyTwentyTenThirty.store.heap 3) fuel 2 = .ok (.right, m) ∧
      ∃ s', graft stdLess fuel (some 2) (some 3) fortyTwentyTenThirty = (.ok (), s') ∧
        s'.tree = fortyTwentyTenThirty.tree ∧
        (∃ mn, s'.store.heap m = some mn ∧ mn.child .right = some 3) ∧
        (∃ gn, s'.store.heap 3 = some gn ∧ gn.parent = some m) ∧
        (∀ x, x ≠ m → x ≠ 3 → s'.store.heap x = fortyTwentyTenThirty.store.heap x) ∧
        Hangs s'.store.heap (some 1) ((Shape.node .leaf 2 .leaf).graftAt (.node .leaf 3 .leaf) .right) ∧
        ((Shape.node .leaf 2 .leaf).graftAt (.node .leaf 3 .leaf) .right).keys s'.store.heap =
          Dir.right.join ((Shape.node .leaf 2 .leaf).keys fortyTwentyTenThirty.store.heap)
            ((Shape.node .leaf 3 .leaf).keys fortyTwentyTenThirty.store.heap) ∧
        (((Shape.node .leaf 2 .leaf).graftAt (.node .leaf 3 .leaf) .right).keys s'.store.heap).Pairwise
          (fun a b => decide (a < b) = true) :=
  graft_correct stdLess stdLess_keyOrder (fun a => by simp) .right
    ⟨⟨10, by decide⟩, trivial, trivial⟩
    (show Hangs _ (some 1) _ from ⟨⟨30, by decide⟩, trivial, trivial⟩) rfl rfl (by decide) (by decide)

end Bstree
end Dsa
