import Dsa.Bstree.Copy
import Dsa.Bstree.InsertCorrect

/-! # What `copy_from` and `move_from` build

The walk of `copy_from` is read off the source's shape: at a source node with its copy, it
copies the left subtree (one round down, the subtree's walk, and its round back up), then the
right one, then goes up both trees (`walk_child`, `walks_of_hangs`). Each subtree's walk
allocates its copy in cells that were free and changes no other allocated cell but the copy's
parent. `CopyOf` relates the two trees: the same shape, the same value at corresponding nodes.
Termination comes from the walk reaching its end (`Reaches`), which gives a loop bound.
-/
namespace Dsa
variable {α : Type}

/-- `t'` in `h'` is a copy of `t` in `h`: the same shape, and the same value at corresponding
nodes. -/
def CopyOf (h h' : Heap α) : Shape → Shape → Prop
  | .leaf, .leaf => True
  | .node l p r, .node l' p' r' =>
    (h' p').map Node.value = (h p).map Node.value ∧ CopyOf h h' l l' ∧ CopyOf h h' r r'
  | _, _ => False

theorem CopyOf.frame {h h' h'' : Heap α} {t t' : Shape} (hc : CopyOf h h' t t')
    (he : ∀ x ∈ t'.ptrs, h'' x = h' x) : CopyOf h h'' t t' := by
  induction t generalizing t' with
  | leaf => cases t' <;> trivial
  | node l p r ihl ihr =>
    cases t' with
    | leaf => exact hc.elim
    | node l' p' r' =>
      obtain ⟨hv, hl, hr⟩ := hc
      exact ⟨by rw [he p' (by simp), hv], ihl hl fun x hx => he x (by simp [hx]),
        ihr hr fun x hx => he x (by simp [hx])⟩

theorem CopyOf.rootPtr_eq_none {h h' : Heap α} {t t' : Shape} (hc : CopyOf h h' t t') :
    t.rootPtr = none ↔ t'.rootPtr = none := by
  cases t <;> cases t' <;> first | exact hc.elim | simp

namespace Bstree

/-- The store after a round that copies the value `v` into a new node at the next address,
linked below `q` (whose cell was `qn`) on side `d`. -/
def copyDown (st : Store α) (q : Ptr) (qn : Node α) (d : Dir) (v : α) : Store α :=
  ⟨(st.heap.write st.next (some ⟨v, none, none, some q⟩)).write q
    (some (qn.setChild d (some st.next))), st.next + 1⟩

section CopyDown
variable {st : Store α} {q : Ptr} {qn : Node α} {d : Dir} {v : α}

@[simp] theorem copyDown_next : (copyDown st q qn d v).next = st.next + 1 := rfl

theorem ne_next_of_alloc (hf : st.Fresh) (hq : st.heap q ≠ none) : q ≠ st.next :=
  fun e => hq (hf q (Nat.le_of_eq e.symm))

theorem copyDown_new (hf : st.Fresh) (hq : st.heap q ≠ none) :
    (copyDown st q qn d v).heap st.next = some ⟨v, none, none, some q⟩ := by
  simp [copyDown, Ne.symm (ne_next_of_alloc hf hq)]

theorem copyDown_parent : (copyDown st q qn d v).heap q = some (qn.setChild d (some st.next)) := by
  simp [copyDown]

theorem copyDown_other {x : Ptr} (hxq : x ≠ q) (hx : x ≠ st.next) :
    (copyDown st q qn d v).heap x = st.heap x := by
  simp [copyDown, hxq, hx]

theorem copyDown_old (hf : st.Fresh) {x : Ptr} (hx : st.heap x ≠ none) (hxq : x ≠ q) :
    (copyDown st q qn d v).heap x = st.heap x :=
  copyDown_other hxq (ne_next_of_alloc hf hx)

theorem copyDown_fresh (hf : st.Fresh) (hq : st.heap q ≠ none) : (copyDown st q qn d v).Fresh :=
  fun x hx => by
    have hx' : st.next < x := hx
    have hxq : x ≠ q := fun e => hq (e ▸ hf x (Nat.le_of_lt hx'))
    rw [copyDown_other hxq (Nat.ne_of_gt hx'), hf x (Nat.le_of_lt hx')]

end CopyDown

theorem copyStep_down {st : Store α} {cw q cd : Ptr} {cn qn cdn : Node α} (d : Dir)
    (hc : st.heap cw = some cn) (hq : st.heap q = some qn) (hcd : cn.child d = some cd)
    (hqd : qn.child d = none) (hcdn : st.heap cd = some cdn)
    (hleft : d = .right → cn.left = none ∨ qn.left ≠ none) :
    copyStep (st, cw, some q) = .ok (.inl (copyDown st q qn d cdn.value, cd, some st.next)) := by
  cases d with
  | left =>
    simp only [Node.child_left] at hcd hqd
    simp only [copyStep, deref_some hc, deref_some hq, deref_some hcdn, hcd, hqd, except_ok_bind]
    rfl
  | right =>
    simp only [Node.child_right] at hcd hqd
    simp only [copyStep, deref_some hc, deref_some hq, except_ok_bind]
    split
    · next _ _ _ _ _ hl hql => simp [hl, hql] at hleft
    · next _ _ _ _ cr hcr _ _ =>
      obtain rfl : cr = cd := Option.some.inj (hcr.symm.trans hcd)
      simp only [deref_some hcdn, except_ok_bind]
      rfl
    · next _ _ _ _ _ hne => exact absurd hqd (hne _ hcd)

theorem copyStep_up {st : Store α} {cw q : Ptr} {cn qn : Node α}
    (hc : st.heap cw = some cn) (hq : st.heap q = some qn)
    (hl : cn.left = none ∨ qn.left ≠ none) (hr : cn.right = none ∨ qn.right ≠ none) :
    copyStep (st, cw, some q) = match cn.parent with
      | none => .ok (.inr st)
      | some cp => .ok (.inl (st, cp, qn.parent)) := by
  have hl' : ∀ x, cn.left = some x → qn.left ≠ none := fun x hx => by simpa [hx] using hl
  have hr' : ∀ x, cn.right = some x → qn.right ≠ none := fun x hx => by simpa [hx] using hr
  simp only [copyStep, deref_some hc, deref_some hq, except_ok_bind]
  split <;> simp_all

/-- Where the walk goes once the subtree under the source node `c` is copied below `q`: up
both trees, to `cp` and `qp`, when `c`'s parent is `some cp`; it ends when `c` is the root. -/
def WalkExits (st : Store α) (c q : Ptr) (st' : Store α) (qp : Option Ptr) : Option Ptr → Prop
  | none => Reaches copyStep (st, c, some q) st'
  | some cp => Relation.ReflTransGen (Continues copyStep) (st, c, some q) (st', cp, qp)

/-- The walk from the root `c` of the source subtree `t` (hanging under `up`), with `c`'s copy
`q` allocated childless under `qp`, copies `t` below `q` into cells that were free, changes no
other allocated cell but `q`, and leaves the subtree. The cells allocated in `h` are those of
the source, unchanged so far. -/
def Walks (h : Heap α) (t : Shape) (up : Option Ptr) : Prop :=
  ∀ {c : Ptr} (st : Store α) (q : Ptr) (qp : Option Ptr) (cv : α), t.rootPtr = some c →
    (∀ x, h x ≠ none → st.heap x = h x) → st.Fresh → h q = none →
    (h c).map Node.value = some cv → st.heap q = some ⟨cv, none, none, qp⟩ →
    ∃ t' st', t'.rootPtr = some q ∧ Hangs st'.heap qp t' ∧ CopyOf h st'.heap t t' ∧
      t'.ptrs.Nodup ∧ st'.Fresh ∧ (∀ x ∈ t'.ptrs, x = q ∨ st.heap x = none) ∧
      (∀ x, st.heap x ≠ none → x ≠ q → st'.heap x = st.heap x) ∧ WalkExits st c q st' qp up

theorem walk_child {h : Heap α} {u : Shape} {c q : Ptr} {cn qn : Node α} {st : Store α}
    (d : Dir) (hw : Walks h u (some c)) (hu : Hangs h (some c) u)
    (hsrc : ∀ x, h x ≠ none → st.heap x = h x) (hc : st.heap c = some cn)
    (hcu : cn.child d = u.rootPtr) (hhq : h q = none) (hq : st.heap q = some qn) (hqd : qn.child d = none)
    (hleft : d = .right → cn.left = none ∨ qn.left ≠ none) (hfresh : st.Fresh) :
    ∃ u' st', st'.heap q = some (qn.setChild d u'.rootPtr) ∧ Hangs st'.heap (some q) u' ∧
      CopyOf h st'.heap u u' ∧ u'.ptrs.Nodup ∧ st'.Fresh ∧ (∀ x ∈ u'.ptrs, st.heap x = none) ∧
      (∀ x, st.heap x ≠ none → x ≠ q → st'.heap x = st.heap x) ∧
      Relation.ReflTransGen (Continues copyStep) (st, c, some q) (st', c, some q) := by
  cases u with
  | leaf =>
    exact ⟨.leaf, st, by rw [Shape.rootPtr_leaf, ← hqd, Node.setChild_child, hq], trivial,
      trivial, List.nodup_nil, hfresh, by simp, fun _ _ _ => rfl, .refl⟩
  | node ul uc ur =>
    have hqa : st.heap q ≠ none := by simp [hq]
    obtain ⟨ucn, hucn, -⟩ := hu.cell (by simp : uc ∈ (Shape.node ul uc ur).ptrs)
    have hsucn : st.heap uc = some ucn := (hsrc uc (by simp [hucn])).trans hucn
    have hstep := copyStep_down d hc hq hcu hqd hsucn hleft
    have hnew : st.heap st.next = none := hfresh _ le_rfl
    have hhp : h st.next = none := by
      by_contra hne
      exact hne ((hsrc _ hne).symm.trans hnew)
    have hold : ∀ x, st.heap x ≠ none → x ≠ q → (copyDown st q qn d ucn.value).heap x = st.heap x :=
      fun x hx hxq => copyDown_old hfresh hx hxq
    obtain ⟨u', st', hroot, hhangs, hcopy, hnd, hfresh', hcells, hframe, hexit⟩ :=
      hw (c := uc) (copyDown st q qn d ucn.value) st.next (some q) ucn.value rfl
        (fun x hx => by
          have hxq : x ≠ q := fun e => hx (e ▸ hhq)
          rw [hold x (by rwa [hsrc x hx]) hxq, hsrc x hx])
        (copyDown_fresh hfresh hqa) hhp (by rw [hucn]; rfl) (copyDown_new hfresh hqa)
    have hqp : q ≠ st.next := ne_next_of_alloc hfresh hqa
    refine ⟨u', st', ?_, hhangs, hcopy, hnd, hfresh', fun x hx => ?_,
      fun x hx hxq => by rw [hframe x (by rwa [hold x hx hxq]) (ne_next_of_alloc hfresh hx),
        hold x hx hxq], .head hstep hexit⟩
    · rw [hframe q (by simp [copyDown_parent]) hqp, copyDown_parent, hroot]
    · rcases hcells x hx with rfl | hx'
      · exact hnew
      · by_contra hne
        have hxq : x ≠ q := by rintro rfl; simp [copyDown_parent] at hx'
        exact hne (by rwa [hold x hne hxq] at hx')

theorem walks_of_hangs {h : Heap α} {t : Shape} {up : Option Ptr} (ht : Hangs h up t) :
    Walks h t up := by
  induction t generalizing up with
  | leaf => intro _ _ _ _ _ hc; cases hc
  | node l c r ihl ihr =>
    obtain ⟨⟨v, hv⟩, hl, hr⟩ := ht
    intro c' st q qp cv hc hsrc hfresh hhq hcv hq
    cases hc
    rw [hv] at hcv
    cases hcv
    have hsc : st.heap c = some ⟨v, l.rootPtr, r.rootPtr, up⟩ := (hsrc c (by simp [hv])).trans hv
    obtain ⟨l', st1, hq1, hl1, hcl1, hnl1, hf1, hnew1, hfr1, hch1⟩ :=
      walk_child .left (ihl hl) hl hsrc hsc rfl hhq hq rfl (by simp) hfresh
    have hqa : st.heap q ≠ none := by simp [hq]
    have hsrc1 : ∀ x, h x ≠ none → st1.heap x = h x := fun x hx => by
      rw [hfr1 x (by rwa [hsrc x hx]) (fun e => hx (e ▸ hhq)), hsrc x hx]
    have hsc1 : st1.heap c = some ⟨v, l.rootPtr, r.rootPtr, up⟩ := (hsrc1 c (by simp [hv])).trans hv
    have hleft : l.rootPtr = none ∨ l'.rootPtr ≠ none :=
      or_iff_not_imp_left.mpr (not_congr hcl1.rootPtr_eq_none).mp
    obtain ⟨r', st2, hq2, hr2, hcr2, hnr2, hf2, hnew2, hfr2, hch2⟩ :=
      walk_child .right (ihr hr) hr hsrc1 hsc1 rfl hhq hq1 rfl (fun _ => hleft) hf1
    have hl'a : ∀ x ∈ l'.ptrs, st1.heap x ≠ none := fun x hx => by
      obtain ⟨nd, hnd, -⟩ := hl1.cell hx
      simp [hnd]
    have hl'q : ∀ x ∈ l'.ptrs, x ≠ q := fun x hx e => hqa (e ▸ hnew1 x hx)
    have hl'2 : ∀ x ∈ l'.ptrs, st2.heap x = st1.heap x := fun x hx => hfr2 x (hl'a x hx) (hl'q x hx)
    have hsc2 : st2.heap c = some ⟨v, l.rootPtr, r.rootPtr, up⟩ :=
      (hfr2 c (by simp [hsc1]) (fun e => by rw [e, hhq] at hv; cases hv)).trans hsc1
    have hup := copyStep_up hsc2 hq2 (by simpa using hleft) (by
      simpa using or_iff_not_imp_left.mpr (not_congr hcr2.rootPtr_eq_none).mp)
    refine ⟨.node l' q r', st2, rfl, ⟨⟨v, hq2⟩, hl1.frame hl'2, hr2⟩,
      ⟨by simp [hq2, hv], hcl1.frame hl'2, hcr2⟩, ?_, hf2, fun x hx => ?_,
      fun x hx hxq => by rw [hfr2 x (by rwa [hfr1 x hx hxq]) hxq, hfr1 x hx hxq], ?_⟩
    · have hr'q : ∀ x ∈ r'.ptrs, x ≠ q := fun x hx e => by simpa [e, hq1] using hnew2 x hx
      refine List.nodup_append.mpr ⟨hnl1, List.nodup_cons.mpr ⟨fun hq' => hr'q q hq' rfl, hnr2⟩,
        fun x hxl hxr => ?_⟩
      rcases List.mem_cons.mp hxr with rfl | hxr
      · exact hl'q x hxl rfl
      · exact hl'a x hxl (hnew2 x hxr)
    · simp only [Shape.ptrs_node, List.mem_append, List.mem_cons] at hx
      rcases hx with hx | rfl | hx
      · exact .inr (hnew1 x hx)
      · exact .inl rfl
      · by_cases hxq : x = q
        · exact .inl hxq
        · exact .inr (by_contra fun hne => hne ((hfr1 x hne hxq).symm.trans (hnew2 x hx)))
    · cases up with
      | none => exact Reaches.of_chain (hch1.trans hch2) (.done hup)
      | some cp => exact (hch1.trans hch2).tail hup

/-- `copy_from` at a live source root, once the walk from the root and its copy, allocated at
the next address, ends with the store `st'`. -/
theorem copyFrom_run {s : State α} {root : Ptr} {rn : Node α} {fuel : Nat} {st' : Store α}
    (hr : s.store.heap root = some rn)
    (hl : loop copyStep fuel (⟨s.store.heap.write s.store.next (some ⟨rn.value, none, none, none⟩),
      s.store.next + 1⟩, root, some s.store.next) = .ok st') :
    copyFrom fuel (some root) s = (.ok (some s.store.next), { s with store := st' }) := by
  simp only [copyFrom, bind_apply, readNode_apply, deref_some hr]
  simp [nodeCreate, Store.alloc, hl]

/-- `copy_from` and `move_from` on a non-empty source whose links are exact and whose root
has a null parent, in a memory whose addresses from the allocator's next one on are free: from
some loop bound on they return the copy's root. The copy is built of cells that were free,
has exact links and a null root parent, and has the source's shape with the same value at
each corresponding node; every cell allocated before, the source's included, is unchanged. -/
theorem copyFrom_correct {s : State α} {T : Shape} {root : Ptr} (hT : Hangs s.store.heap none T)
    (hroot : T.rootPtr = some root) (hfresh : s.store.Fresh) :
    ∃ T' s' N, T'.rootPtr = some s.store.next ∧
      (∀ fuel, N ≤ fuel → copyFrom fuel (some root) s = (.ok (some s.store.next), s') ∧
        moveFrom fuel (some root) s = (.ok (some s.store.next), s')) ∧
      s'.tree = s.tree ∧ s'.store.Fresh ∧ Hangs s'.store.heap none T' ∧
      CopyOf s.store.heap s'.store.heap T T' ∧ T'.ptrs.Nodup ∧
      (∀ x ∈ T'.ptrs, s.store.heap x = none) ∧
      (∀ x, s.store.heap x ≠ none → s'.store.heap x = s.store.heap x) ∧
      Hangs s'.store.heap none T := by
  obtain ⟨rn, hrn, -⟩ := hT.cell (Shape.rootPtr_mem hroot)
  have hnext : s.store.heap s.store.next = none := hfresh _ le_rfl
  have hne : ∀ x, s.store.heap x ≠ none → x ≠ s.store.next := fun x hx e => hx (e ▸ hnext)
  obtain ⟨T', st', hT'root, hhangs, hcopy, hnd, hfresh', hcells, hframe, hexit⟩ :=
    walks_of_hangs hT (c := root)
      ⟨s.store.heap.write s.store.next (some ⟨rn.value, none, none, none⟩), s.store.next + 1⟩
      s.store.next none rn.value hroot (fun x hx => Heap.write_ne _ _ (hne x hx))
      (fun x hx => by
        have hx' : s.store.next < x := hx
        dsimp only
        rw [Heap.write_ne _ _ (Nat.ne_of_gt hx'), hfresh x (Nat.le_of_lt hx')])
      hnext (by rw [hrn]; rfl) (Heap.write_self _ _ _)
  obtain ⟨N, hN⟩ := Reaches.loop_eq hexit
  dsimp only at hcells hframe
  have hold : ∀ x, s.store.heap x ≠ none → st'.heap x = s.store.heap x := fun x hx => by
    rw [hframe x (by rwa [Heap.write_ne _ _ (hne x hx)]) (hne x hx), Heap.write_ne _ _ (hne x hx)]
  refine ⟨T', { s with store := st' }, N, hT'root,
    fun fuel hf => ⟨copyFrom_run hrn (hN fuel hf), copyFrom_run hrn (hN fuel hf)⟩, rfl, hfresh',
    hhangs, hcopy, hnd, fun x hx => ?_, hold, hT.frame fun x hx => hold x ?_⟩
  · rcases hcells x hx with rfl | hx'
    · exact hnext
    · by_contra hne'
      rw [Heap.write_ne _ _ (hne x hne')] at hx'
      exact hne' hx'
  · obtain ⟨nd, hnd, -⟩ := hT.cell hx
    simp [hnd]

theorem copyFrom_fortyTwenty :
    ∃ T' s' N, T'.rootPtr = some fortyTwentyTenThirty.store.next ∧
      (∀ fuel, N ≤ fuel →
        copyFrom fuel (some 0) fortyTwentyTenThirty = (.ok (some fortyTwentyTenThirty.store.next), s') ∧
        moveFrom fuel (some 0) fortyTwentyTenThirty = (.ok (some fortyTwentyTenThirty.store.next), s')) ∧
      s'.tree = fortyTwentyTenThirty.tree ∧ s'.store.Fresh ∧ Hangs s'.store.heap none T' ∧
      CopyOf fortyTwentyTenThirty.store.heap s'.store.heap fortyTwentyShape T' ∧ T'.ptrs.Nodup ∧
      (∀ x ∈ T'.ptrs, fortyTwentyTenThirty.store.heap x = none) ∧
      (∀ x, fortyTwentyTenThirty.store.heap x ≠ none →
        s'.store.heap x = fortyTwentyTenThirty.store.heap x) ∧
      Hangs s'.store.heap none fortyTwentyShape :=
  copyFrom_correct fortyTwentyTenThirty_repOk.hangs rfl fortyTwentyTenThirty_fresh

end Bstree
end Dsa