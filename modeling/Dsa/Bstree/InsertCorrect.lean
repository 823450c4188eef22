import Dsa.Bstree.Search

/-! # What `insert` and `emplace` do

`Shape.ins` is insertion into a binary search tree as a function on shapes: down the search
path to the empty slot, where the new address becomes a leaf. On a tree with exact links and
keys increasing under a transitive comparator that returns, `insert (v)` terminates; it
returns the node equivalent to `v` and changes nothing, or it links a fresh node, and the node
graph afterwards realises `Shape.ins`: the old keys with `v` between the smaller and the
larger ones, every old node still in place with its value. `emplace (v)` builds its node
first and ends in the same object and the same memory.
-/
namespace Dsa
variable {α : Type}

theorem valuesAt_append (h : Heap α) (xs ys : List Ptr) :
    valuesAt h (xs ++ ys) = valuesAt h xs ++ valuesAt h ys := by
  simp [valuesAt, List.filterMap_append]

theorem valuesAt_congr {h h' : Heap α} {xs : List Ptr}
    (he : ∀ x ∈ xs, (h' x).map Node.value = (h x).map Node.value) : valuesAt h' xs = valuesAt h xs :=
  List.filterMap_congr he

theorem Hangs.frame {h h' : Heap α} {up : Option Ptr} {t : Shape} (ht : Hangs h up t)
    (he : ∀ x ∈ t.ptrs, h' x = h x) : Hangs h' up t := by
  induction t generalizing up with
  | leaf => trivial
  | node l p r ihl ihr =>
    obtain ⟨⟨v, hv⟩, hl, hr⟩ := ht
    exact ⟨⟨v, by rw [he p (by simp), hv]⟩, ihl hl fun x hx => he x (by simp [hx]),
      ihr hr fun x hx => he x (by simp [hx])⟩

theorem Hangs.not_mem_of_free {h : Heap α} {up : Option Ptr} {t : Shape} (ht : Hangs h up t)
    {n : Ptr} (hn : h n = none) : n ∉ t.ptrs := fun hm => by
  obtain ⟨nd, hnd, -⟩ := ht.cell hm
  simp [hn] at hnd

theorem Store.Fresh.write_next {st : Store α} (hf : st.Fresh) {h : Heap α}
    (hh : ∀ q, st.next < q → h q = st.heap q) : Store.Fresh ⟨h, st.next + 1⟩ :=
  fun q hq => (hh q hq).trans (hf q (Nat.le_of_lt hq))

/-- The memory after `insert` links the new leaf `n` at the empty slot `d` of `m`: the new
cell, with `m` as its parent, and `m`'s child link on that side. -/
def linkLeaf (h : Heap α) (k : α) (n m : Ptr) (mn : Node α) (d : Dir) : Heap α :=
  (h.write n (some ⟨k, none, none, some m⟩)).write m (some (mn.setChild d (some n)))

section LinkLeaf
variable {h : Heap α} {k : α} {n m : Ptr} {mn : Node α} {d : Dir}

theorem linkLeaf_self : linkLeaf h k n m mn d m = some (mn.setChild d (some n)) :=
  Heap.write_self _ _ _

theorem linkLeaf_new (hnm : n ≠ m) : linkLeaf h k n m mn d n = some ⟨k, none, none, some m⟩ := by
  simp [linkLeaf, hnm]

theorem linkLeaf_other {x : Ptr} (hxm : x ≠ m) (hxn : x ≠ n) : linkLeaf h k n m mn d x = h x := by
  simp [linkLeaf, hxm, hxn]

end LinkLeaf

theorem linkLeaf_value {x : Ptr} (hxn : x ≠ n) (hm : h m = some mn) :
    (linkLeaf h k n m mn d x).map Node.value = (h x).map Node.value := by
  by_cases hxm : x = m
  · subst hxm
    simp [linkLeaf_self, hm]
  · rw [linkLeaf_other hxm hxn]

namespace Shape
variable (h : Heap α) (lt : α → α → Bool) (k : α) (n : Ptr)

/-- Insertion of the key `k` as a new leaf at address `n`: down the search path to the empty
slot; unchanged where the search stops at a node equivalent to `k`. -/
def ins : Shape → Shape
  | .leaf => .node .leaf n .leaf
  | .node l p r =>
    match h p with
    | none => .node l p r
    | some pn =>
      if lt k pn.value then .node l.ins p r
      else if lt pn.value k then .node l p r.ins
      else .node l p r

variable {h lt k n}

theorem rootPtr_ins_node (l r : Shape) (p : Ptr) : ((node l p r).ins h lt k n).rootPtr = some p := by
  simp only [ins]
  split
  · rfl
  · split_ifs <;> rfl

theorem slot_vacant_mem {t : Shape} (ht : Links h t) {d : Dir} {m : Ptr}
    (hx : t.slot h lt k = some (.vacant d m)) :
    m ∈ t.ptrs ∧ ∃ mn, h m = some mn ∧ mn.child d = none := by
  induction t with
  | leaf => cases hx
  | node l p r ihl ihr =>
    obtain ⟨⟨pn, hv, hpl, hpr⟩, hl, hr⟩ := ht
    rcases slot_node lt k hv hx with ⟨-, hx⟩ | ⟨-, -, hx⟩ | ⟨-, -, ⟨⟩⟩
    · rcases slot_getD lt k hl hx with ⟨rfl, ⟨⟩⟩ | hls
      · exact ⟨by simp, pn, hv, by simp [hpl]⟩
      · obtain ⟨hm, hc⟩ := ihl hl hls
        exact ⟨by simp [hm], hc⟩
    · rcases slot_getD lt k hr hx with ⟨rfl, ⟨⟩⟩ | hrs
      · exact ⟨by simp, pn, hv, by simp [hpr]⟩
      · obtain ⟨hm, hc⟩ := ihr hr hrs
        exact ⟨by simp [hm], hc⟩

theorem ptrs_ins (htrans : ∀ a b c, lt a b = true → lt b c = true → lt a c = true) {t : Shape}
    (ht : Links h t) (hs : (t.keys h).Pairwise (lt · · = true))
    (hx : ∀ x, t.slot h lt k ≠ some (.found x)) :
    ∃ pre post, t.ptrs = pre ++ post ∧ (t.ins h lt k n).ptrs = pre ++ n :: post ∧
      (∀ a ∈ valuesAt h pre, lt a k = true) ∧ (∀ b ∈ valuesAt h post, lt k b = true) := by
  induction t with
  | leaf => exact ⟨[], [], rfl, rfl, by simp [valuesAt], by simp [valuesAt]⟩
  | node l p r ihl ihr =>
    obtain ⟨⟨pn, hv, -⟩, hl, hr⟩ := ht
    rw [keys_node hv, List.pairwise_append, List.pairwise_cons] at hs
    obtain ⟨hsl, ⟨hvr, hsr⟩, hlv⟩ := hs
    have hvals : ∀ xs, valuesAt h (xs ++ p :: r.ptrs) = valuesAt h xs ++ pn.value :: r.keys h :=
      fun xs => by rw [valuesAt_append, valuesAt_cons hv]; rfl
    have hvals' : ∀ xs, valuesAt h (l.ptrs ++ p :: xs) = l.keys h ++ pn.value :: valuesAt h xs :=
      fun xs => by rw [valuesAt_append, valuesAt_cons hv]; rfl
    simp only [slot, hv, ne_eq] at hx
    by_cases hkv : lt k pn.value
    · simp only [hkv, if_true, Option.some.injEq] at hx
      obtain ⟨pre, post, e, e', hpre, hpost⟩ := ihl hl hsl fun x hlx => hx x (by simp [hlx])
      refine ⟨pre, post ++ p :: r.ptrs, by simp [e], by simp [ins, hv, hkv, e'], hpre, ?_⟩
      rw [hvals]
      simp only [List.mem_append, List.mem_cons]
      rintro b (hb | rfl | hb)
      · exact hpost b hb
      · exact hkv
      · exact htrans _ _ _ hkv (hvr b hb)
    · by_cases hvk : lt pn.value k
      · simp only [hkv, hvk, Bool.false_eq_true, if_false, if_true, Option.some.injEq] at hx
        obtain ⟨pre, post, e, e', hpre, hpost⟩ := ihr hr hsr fun x hrx => hx x (by simp [hrx])
        refine ⟨l.ptrs ++ p :: pre, post, by simp [e], by simp [ins, hv, hkv, hvk, e'], ?_, hpost⟩
        rw [hvals']
        simp only [List.mem_append, List.mem_cons]
        rintro a (ha | rfl | ha)
        · exact htrans _ _ _ (hlv a ha _ (List.mem_cons_self _ _)) hvk
        · exact hvk
        · exact hpre a ha
      · simp [hkv, hvk] at hx


theorem hangs_ins {t : Shape} {up : Option Ptr} (ht : Hangs h up t) (hnd : t.ptrs.Nodup)
    (hn : n ∉ t.ptrs) {d : Dir} {m : Ptr} {mn : Node α} (hx : t.slot h lt k = some (.vacant d m))
    (hm : h m = some mn) : Hangs (linkLeaf h k n m mn d) up (t.ins h lt k n) := by
  induction t generalizing up with
  | leaf => cases hx
  | node l p r ihl ihr =>
    have hmem := (slot_vacant_mem ht.links hx).1
    obtain ⟨⟨v, hv⟩, hl, hr⟩ := ht
    obtain ⟨hndl, hndr, hdisj⟩ := List.nodup_append.mp hnd
    have hpl : p ∉ l.ptrs := fun hp => hdisj hp (List.mem_cons_self _ _)
    have hpr : p ∉ r.ptrs := (List.nodup_cons.mp hndr).1
    have hnm : n ≠ m := fun e => hn (e ▸ hmem)
    have hpn : p ≠ n := fun e => hn (by simp [e])
    have hnl : n ∉ l.ptrs := fun hl' => hn (by simp [hl'])
    have hnr : n ∉ r.ptrs := fun hr' => hn (by simp [hr'])
    rcases slot_node lt k hv hx with ⟨hkv, hx⟩ | ⟨hkv, hvk, hx⟩ | ⟨-, -, ⟨⟩⟩
    · rw [show (node l p r).ins h lt k n = node (l.ins h lt k n) p r by simp [ins, hv, hkv]]
      rcases slot_getD lt k hl.links hx with ⟨rfl, ⟨⟩⟩ | hls
      · rw [hv] at hm
        cases hm
        refine ⟨⟨v, by rw [linkLeaf_self]; rfl⟩, ⟨⟨k, linkLeaf_new hnm⟩, trivial, trivial⟩,
          hr.frame fun x hx' => linkLeaf_other ?_ ?_⟩ <;> rintro rfl
        exacts [hpr hx', hnr hx']
      · have hml := (slot_vacant_mem hl.links hls).1
        cases l with
        | leaf => cases hls
        | node ll lq lr =>
          refine ⟨⟨v, ?_⟩, ihl hl hndl hnl hls, hr.frame fun x hx' => linkLeaf_other ?_ ?_⟩
          · rw [linkLeaf_other (by rintro rfl; exact hpl hml) hpn, hv, rootPtr_ins_node]; rfl
          all_goals rintro rfl
          exacts [hdisj hml (List.mem_cons_of_mem _ hx'), hnr hx']
    · rw [show (node l p r).ins h lt k n = node l p (r.ins h lt k n) by simp [ins, hv, hkv, hvk]]
      rcases slot_getD lt k hr.links hx with ⟨rfl, ⟨⟩⟩ | hrs
      · rw [hv] at hm
        cases hm
        refine ⟨⟨v, by rw [linkLeaf_self]; rfl⟩, hl.frame fun x hx' => linkLeaf_other ?_ ?_,
          ⟨⟨k, linkLeaf_new hnm⟩, trivial, trivial⟩⟩ <;> rintro rfl
        exacts [hpl hx', hnl hx']
      · have hmr := (slot_vacant_mem hr.links hrs).1
        cases r with
        | leaf => cases hrs
        | node rl rq rr =>
          refine ⟨⟨v, ?_⟩, hl.frame fun x hx' => linkLeaf_other ?_ ?_, ihr hr hndr.of_cons hnr hrs⟩
          · rw [linkLeaf_other (by rintro rfl; exact hpr hmr) hpn, hv, rootPtr_ins_node]; rfl
          all_goals rintro rfl
          exacts [hdisj hx' (List.mem_cons_of_mem _ hmr), hnl hx']

theorem head_ins {t : Shape} (ht : Links h t) (hnd : t.ptrs.Nodup) {d : Dir} {m : Ptr}
    (hx : t.slot h lt k = some (.vacant d m)) :
    (t.ins h lt k n).ptrs.head? =
      if d = .left ∧ t.ptrs.head? = some m then some n else t.ptrs.head? := by
  induction t with
  | leaf => cases hx
  | node l p r ihl ihr =>
    obtain ⟨⟨pn, hv, -⟩, hl, hr⟩ := ht
    rcases slot_node lt k hv hx with ⟨hkv, hx⟩ | ⟨hkv, hvk, hx⟩ | ⟨-, -, ⟨⟩⟩
    · rcases slot_getD lt k hl hx with ⟨rfl, ⟨⟩⟩ | hls
      · simp [ins, hv, hkv]
      · cases l with
        | leaf => cases hls
        | node ll lq lr =>
          rw [show (node (node ll lq lr) p r).ins h lt k n = node ((node ll lq lr).ins h lt k n) p r by
            simp [ins, hv, hkv], ptrs_node, ptrs_node, List.head?_append_of_ne_nil _ ?_,
            List.head?_append_of_ne_nil _ (by simp), ihl hl (List.nodup_append.mp hnd).1 hls]
          exact List.ne_nil_of_mem (rootPtr_mem (rootPtr_ins_node ll lr lq))
    · have hhead : ∀ xs : List Ptr, (l.ptrs ++ p :: xs).head? = (l.ptrs ++ [p]).head? := fun xs => by
        cases l.ptrs <;> rfl
      rw [show (node l p r).ins h lt k n = node l p (r.ins h lt k n) by simp [ins, hv, hkv, hvk],
        ptrs_node, ptrs_node, if_neg]
      · exact (hhead _).trans (hhead _).symm
      rintro ⟨hd, hm⟩
      rcases slot_getD lt k hr hx with ⟨-, ⟨⟩⟩ | hrs
      · exact absurd hd nofun
      · rw [hhead] at hm
        have hnd' : ((l.ptrs ++ [p]) ++ r.ptrs).Nodup := by simpa using hnd
        exact (List.nodup_append.mp hnd').2.2 (List.mem_of_mem_head? hm) (slot_vacant_mem hr hrs).1

end Shape

namespace Bstree
variable (comp : α → α → Except Fault Bool) {lt : α → α → Bool} {s : State α} {t : Shape}
  {d : Dir} {m : Ptr} {mn : Node α}

theorem writeNode_of {p : Ptr} {nd : Node α} (hp : s.store.heap p = some nd) (f : Node α → Node α) :
    writeNode (some p) f s =
      (.ok (), { s with store := { s.store with heap := s.store.heap.write p (some (f nd)) } }) := by
  rw [writeNode, readNode_bind_of hp]
  rfl

/-- `_begin` is the valid iterator at the first node in order, when there is one. -/
def BeginAt (b : Bstree) (xs : List Ptr) : Prop :=
  ∀ a, xs.head? = some a → b.beginIt = ⟨some a, .valid⟩

theorem cacheAfterInsert_run (hm : s.store.heap m = some mn) :
    ∃ b, cacheAfterInsert d (some m) s = (.ok (), { s with tree := b }) ∧
      b.treeRoot = s.tree.treeRoot ∧ b.treeSize = s.tree.treeSize + 1 ∧
      b.beginIt = if d = .left ∧ s.tree.beginIt.equal ⟨some m, .valid⟩ = true
        then { s.tree.beginIt with iter := mn.left } else s.tree.beginIt := by
  simp only [cacheAfterInsert, bind_apply, modifyTree_apply, moveCache_apply, deref_some hm]
  cases d <;> split_ifs <;> first | exact ⟨_, rfl, rfl, rfl, rfl⟩ | simp_all

theorem insertSide_eq (hm : s.store.heap m = some mn) (hmn : m ≠ s.store.next) (v : α) :
    insertSide d (some m) v s = cacheAfterInsert d (some m)
      ⟨⟨linkLeaf s.store.heap v s.store.next m mn d, s.store.next + 1⟩, s.tree⟩ := by
  have hm' : (s.store.heap.write s.store.next (some ⟨v, none, none, some m⟩)) m = some mn := by
    rw [Heap.write_ne _ _ hmn, hm]
  simp only [insertSide, nodeCreate, bind_apply, modifyGet_apply, Store.alloc, setChild]
  rw [writeNode_of (s := { s with store := _ }) hm']
  rfl

theorem insertNodeSide_eq (hm : s.store.heap m = some mn) {n : Ptr} (hmn : m ≠ n) (v : α) :
    insertNodeSide d (some m) n
        { s with store := ⟨s.store.heap.write n (some ⟨v, none, none, none⟩), n + 1⟩ } =
      cacheAfterInsert d (some m) ⟨⟨linkLeaf s.store.heap v n m mn d, n + 1⟩, s.tree⟩ := by
  have hm' : (s.store.heap.write n (some ⟨v, none, none, none⟩)) m = some mn := by
    rw [Heap.write_ne _ _ hmn, hm]
  have hn' : ((s.store.heap.write n (some ⟨v, none, none, none⟩)).write m
      (some (mn.setChild d (some n)))) n = some ⟨v, none, none, none⟩ := by
    rw [Heap.write_ne _ _ hmn.symm, Heap.write_self]
  simp only [insertNodeSide, setChild, setParent, bind_apply]
  rw [writeNode_of (s := { s with store := _ }) hm']
  simp only
  rw [writeNode_of (s := ⟨⟨_, n + 1⟩, s.tree⟩) hn']
  have hheap : ((s.store.heap.write n (some ⟨v, none, none, none⟩)).write m
      (some (mn.setChild d (some n)))).write n (some ⟨v, none, none, some m⟩) =
      linkLeaf s.store.heap v n m mn d := by
    funext x
    by_cases hxn : x = n
    · subst hxn; simp [linkLeaf, Ne.symm hmn]
    · by_cases hxm : x = m
      · subst hxm; simp [linkLeaf, hxn]
      · simp [linkLeaf, hxm, hxn]
  dsimp only
  rw [hheap]

/-- What linking a new node `n` holding `v` into the tree `t` is meant to leave in `s'`: one
element more, `n` a node that was not in the tree and holds `v`, the node graph realising
`Shape.ins` with exact links and keys still increasing, the keys the old ones with `v` between
the smaller and the larger, and every old node still in the tree with its value. -/
structure InsertsNew (lt : α → α → Bool) (s s' : State α) (t : Shape) (v : α) (n : Ptr) :
    Prop where
  size : s'.tree.treeSize = s.tree.treeSize + 1
  fresh : n ∉ t.ptrs
  value : (s'.store.heap n).map Node.value = some v
  hangs : Hangs s'.store.heap none (t.ins s.store.heap lt v n)
  searchOk : SearchOk comp s' (t.ins s.store.heap lt v n)
  keys : ∃ pre post, t.keys s.store.heap = pre ++ post ∧
    (t.ins s.store.heap lt v n).keys s'.store.heap = pre ++ v :: post ∧
    (∀ a ∈ pre, lt a v = true) ∧ ∀ b ∈ post, lt v b = true
  kept : ∀ p ∈ t.ptrs, p ∈ (t.ins s.store.heap lt v n).ptrs ∧
    (s'.store.heap p).map Node.value = (s.store.heap p).map Node.value

theorem insertsNew_root (hs : SearchOk comp s .leaf) {b : Bstree}
    (hroot : b.treeRoot = some s.store.next) (hsize : b.treeSize = 1) (v : α) :
    InsertsNew comp lt s ⟨⟨s.store.heap.write s.store.next (some ⟨v, none, none, none⟩),
      s.store.next + 1⟩, b⟩ .leaf v s.store.next := by
  have hsize0 : s.tree.treeSize = 0 := hs.size
  have hhangs : Hangs (s.store.heap.write s.store.next (some ⟨v, none, none, none⟩)) none
      (.node .leaf s.store.next .leaf) := ⟨⟨v, Heap.write_self _ _ _⟩, trivial, trivial⟩
  have hkeys : (Shape.node .leaf s.store.next .leaf).keys
      (s.store.heap.write s.store.next (some ⟨v, none, none, none⟩)) = [v] := by
    simp [Shape.keys]
  exact ⟨by rw [hsize, hsize0], List.not_mem_nil _, by simp, hhangs,
    ⟨hhangs.links, hroot, List.nodup_singleton _, by simp [Shape.ins, hkeys], by simp [Shape.ins, hsize]⟩,
    ⟨[], [], rfl, hkeys, by simp, by simp⟩, by simp⟩

theorem insertsNew_link (hk : KeyOrder comp lt) (hh : Hangs s.store.heap none t)
    (hs : SearchOk comp s t) {v : α}
    (hn : s.store.heap s.store.next = none) (hx : t.slot s.store.heap lt v = some (.vacant d m))
    (hm : s.store.heap m = some mn) {b : Bstree} (hroot : b.treeRoot = s.tree.treeRoot)
    (hsize : b.treeSize = s.tree.treeSize + 1) :
    InsertsNew comp lt s ⟨⟨linkLeaf s.store.heap v s.store.next m mn d, s.store.next + 1⟩, b⟩
      t v s.store.next := by
  have hnt : s.store.next ∉ t.ptrs := hh.not_mem_of_free hn
  have hnm : s.store.next ≠ m := fun e => by simp [e, hm] at hn
  have hvals : ∀ x ∈ t.ptrs, (linkLeaf s.store.heap v s.store.next m mn d x).map Node.value =
      (s.store.heap x).map Node.value := fun x hx => linkLeaf_value (fun e => hnt (e ▸ hx)) hm
  have hsorted := hk.pairwise_lt hs.sorted
  obtain ⟨pre, post, e, e', hpre, hpost⟩ := Shape.ptrs_ins (k := v) (n := s.store.next) hk.trans
    hh.links hsorted fun x => by simp [hx]
  have hkeys : t.keys s.store.heap = valuesAt s.store.heap pre ++ valuesAt s.store.heap post := by
    rw [Shape.keys, e]
    exact valuesAt_append _ _ _
  have hkeys' : (t.ins s.store.heap lt v s.store.next).keys
      (linkLeaf s.store.heap v s.store.next m mn d) =
      valuesAt s.store.heap pre ++ v :: valuesAt s.store.heap post := by
    rw [Shape.keys, e']
    change valuesAt _ _ = _
    rw [valuesAt_append, valuesAt_cons (linkLeaf_new hnm),
      valuesAt_congr fun x hx => hvals x (by simp [e, hx]),
      valuesAt_congr fun x hx => hvals x (by simp [e, hx])]
  have hhangs := Shape.hangs_ins hh hs.nodup hnt hx hm
  have hsorted' : (valuesAt s.store.heap pre ++ v :: valuesAt s.store.heap post).Pairwise
      (lt · · = true) := by
    rw [hkeys, List.pairwise_append] at hsorted
    obtain ⟨hsp, hsq, hpq⟩ := hsorted
    refine List.pairwise_append.mpr ⟨hsp, List.pairwise_cons.mpr ⟨hpost, hsq⟩, ?_⟩
    simp only [List.mem_cons]
    rintro a ha c (rfl | hc)
    exacts [hpre a ha, hpq a ha c hc]
  refine ⟨hsize, hnt, by simp [linkLeaf_new hnm], hhangs, ⟨hhangs.links, ?_, ?_, ?_, ?_⟩,
    ⟨_, _, hkeys, hkeys', hpre, hpost⟩, fun p hp => ⟨?_, hvals p hp⟩⟩
  · cases t with
    | leaf => cases hx
    | node l q r => rw [hroot, hs.root, Shape.rootPtr_ins_node]; rfl
  · rw [e']
    exact List.nodup_middle.mpr (List.nodup_cons.mpr ⟨e ▸ hnt, e ▸ hs.nodup⟩)
  · rw [hkeys']
    exact hsorted'.imp fun hab => by rw [hk.comp_eq, hab]
  · simp only [hsize, hs.size, e, e', List.length_append, List.length_cons]
    omega
  · rw [e, List.mem_append] at hp
    rw [e', List.mem_append, List.mem_cons]
    exact hp.imp_right .inr

/-- `insert (value)` under the part of the invariant it reads, exact links and keys increasing:
from some loop bound on it returns one result and one state. A new node keeps the addresses
from the allocator's next one on free. -/
theorem insert_run (hk : KeyOrder comp lt) (hh : Hangs s.store.heap none t) (hs : SearchOk comp s t)
    (hfresh : s.store.Fresh) (v : α) :
    ∃ N res s', (∀ fuel, N ≤ fuel → insert comp fuel v s = (.ok res, s')) ∧
      if (t.keys s.store.heap).any (equivBy lt v) then
        s' = s ∧ ∃ n nd, n ∈ t.ptrs ∧ s.store.heap n = some nd ∧ equivBy lt v nd.value = true ∧
          res = (⟨some n, .valid⟩, false)
      else res = (⟨some s.store.next, .valid⟩, true) ∧ InsertsNew comp lt s s' t v s.store.next ∧
        s'.store.Fresh ∧ (∀ x ∉ t.ptrs, x ≠ s.store.next → s'.store.heap x = s.store.heap x) ∧
        (s.tree.BeginAt t.ptrs → s'.tree.BeginAt (t.ins s.store.heap lt v s.store.next).ptrs) := by
  have hn : s.store.heap s.store.next = none := hfresh _ le_rfl
  cases t with
  | leaf =>
    have hsize : s.tree.treeSize = 0 := hs.size
    have hroot : s.tree.treeRoot = none := hs.root
    refine ⟨0, _, _, fun fuel _ => by
      rw [insert, getTree_bind, if_pos hsize]
      simp only [makeRoot, resetRoot, bind_apply, nodeCreate, modifyGet_apply, Store.alloc,
        getTree_apply, modifyTree_apply, hroot, treeDelete, pure_apply]
      rfl, ?_⟩
    rw [if_neg (by simp)]
    exact ⟨rfl, insertsNew_root comp hs rfl rfl v,
      hfresh.write_next fun q hq => Heap.write_ne _ _ (Nat.ne_of_gt hq),
      fun x _ hx => Heap.write_ne _ _ hx, fun _ a ha => by cases ha; rfl⟩
  | node l p r =>
    have hsize : s.tree.treeSize ≠ 0 := by simp [hs.size]
    obtain ⟨res, hres⟩ := Option.ne_none_iff_exists'.mp
      (mt (Shape.slot_eq_none_iff lt v hh.links).mp (by simp))
    obtain ⟨N, hN⟩ := descend_eq comp hk hs hres
    cases res with
    | found x =>
      obtain ⟨nd, hx, hnd, he⟩ := Shape.slot_found lt v hh.links hres
      have hany : ((Shape.node l p r).keys s.store.heap).any (equivBy lt v) = true :=
        List.any_eq_true.mpr ⟨_, Shape.mem_keys hx hnd, he⟩
      refine ⟨N, _, _, fun fuel hf => by
        rw [insert, getTree_bind, if_neg hsize, bind_apply, hN fuel hf]; rfl, ?_⟩
      rw [hany, if_pos rfl]
      exact ⟨rfl, x, nd, hx, hnd, he, rfl⟩
    | vacant d m =>
      have hany := Shape.slot_vacant lt v hk.trans hh.links (hk.pairwise_lt hs.sorted) hres
      obtain ⟨hmt, mn, hm, -⟩ := Shape.slot_vacant_mem hh.links hres
      have hmn : m ≠ s.store.next := fun e => by simp [e, hn] at hm
      obtain ⟨b, hb, hroot, hsz, hbegin⟩ := cacheAfterInsert_run (d := d)
        (s := ⟨⟨linkLeaf s.store.heap v s.store.next m mn d, s.store.next + 1⟩, s.tree⟩) linkLeaf_self
      refine ⟨N, _, _, fun fuel hf => by
        rw [insert, getTree_bind, if_neg hsize, bind_apply, hN fuel hf]
        simp only [bind_apply, insertSide_eq hm hmn, hb, readNode_apply, deref_some linkLeaf_self]
        rfl, ?_⟩
      rw [hany]
      refine ⟨by simp, insertsNew_link comp hk hh hs hn hres hm hroot hsz,
        hfresh.write_next fun q hq => linkLeaf_other ?_ (Nat.ne_of_gt hq),
        fun x hx hxn => linkLeaf_other (fun e => hx (e ▸ hmt)) hxn, fun hB a ha => ?_⟩
      · rintro rfl
        simp [hfresh q (Nat.le_of_lt hq)] at hm
      show b.beginIt = _
      rw [Shape.head_ins hh.links hs.nodup hres] at ha
      split_ifs at ha with hc
      · obtain ⟨rfl, hm0⟩ := hc
        cases ha
        rw [hbegin, hB m hm0]
        simp
      · rw [hbegin, hB a ha, if_neg]
        rintro ⟨hd, he⟩
        obtain rfl : a = m := by simpa using he
        exact hc ⟨hd, ha⟩

/-- `insert (value)` on a tree that satisfies the invariant, with a comparator that returns
and is transitive, in a memory whose addresses from the allocator's next one on are free: from
some loop bound on it returns. If a key equivalent to `v` is present it returns the valid
iterator at that node with `false` and changes nothing; otherwise it returns the valid
iterator at the new node with `true`, and the tree is the old one with `v` inserted. -/
theorem insert_correct (hk : KeyOrder comp lt) (hr : RepOk comp s t) (hfresh : s.store.Fresh)
    (v : α) :
    ∃ N, ∀ fuel, N ≤ fuel → ∃ res s', insert comp fuel v s = (.ok res, s') ∧
      if (t.keys s.store.heap).any (equivBy lt v) then
        s' = s ∧ ∃ n nd, n ∈ t.ptrs ∧ s.store.heap n = some nd ∧ equivBy lt v nd.value = true ∧
          res = (⟨some n, .valid⟩, false)
      else res = (⟨some s.store.next, .valid⟩, true) ∧ InsertsNew comp lt s s' t v s.store.next := by
  obtain ⟨N, res, s', hrun, hspec⟩ := insert_run comp hk hr.hangs hr.searchOk hfresh v
  refine ⟨N, fun fuel hf => ⟨res, s', hrun fuel hf, ?_⟩⟩
  split_ifs at hspec ⊢
  exacts [hspec, hspec.imp_right And.left]

theorem fortyTwentyTenThirty_fresh : fortyTwentyTenThirty.store.Fresh := fun p hp => by
  have hn : fortyTwentyTenThirty.store.next = 4 := by decide
  obtain ⟨k, rfl⟩ : ∃ k : Nat, p = k + 4 := ⟨p - 4, by rw [hn] at hp; exact (Nat.sub_add_cancel hp).symm⟩
  rfl

theorem fortyTwentyTenThirty_insert_correct :
    KeyOrder stdLess (fun a b : Nat => decide (a < b)) ∧
      RepOk stdLess fortyTwentyTenThirty fortyTwentyShape ∧ fortyTwentyTenThirty.store.Fresh ∧
      ∃ N, ∀ fuel, N ≤ fuel → ∃ res s', insert stdLess fuel 25 fortyTwentyTenThirty = (.ok res, s') ∧
        if (fortyTwentyShape.keys fortyTwentyTenThirty.store.heap).any
            (equivBy (fun a b : Nat => decide (a < b)) 25) then
          s' = fortyTwentyTenThirty ∧ ∃ n nd, n ∈ fortyTwentyShape.ptrs ∧
            fortyTwentyTenThirty.store.heap n = some nd ∧
            equivBy (fun a b : Nat => decide (a < b)) 25 nd.value = true ∧
            res = (⟨some n, .valid⟩, false)
        else res = (⟨some fortyTwentyTenThirty.store.next, .valid⟩, true) ∧
          InsertsNew stdLess (fun a b : Nat => decide (a < b)) fortyTwentyTenThirty s'
            fortyTwentyShape 25 fortyTwentyTenThirty.store.next :=
  ⟨stdLess_keyOrder, fortyTwentyTenThirty_repOk, fortyTwentyTenThirty_fresh,
    insert_correct stdLess stdLess_keyOrder fortyTwentyTenThirty_repOk fortyTwentyTenThirty_fresh 25⟩

theorem deallocate_new {H : Heap α} {n : Ptr} (hn : H n = none) (c : Node α) (next : Ptr)
    (b : Bstree) : deallocate n ⟨⟨H.write n (some c), next⟩, b⟩ = (.ok (), ⟨⟨H, next⟩, b⟩) := by
  rw [deallocate, readNode_bind_of (s := ⟨⟨H.write n (some c), next⟩, b⟩) (Heap.write_self H n _)]
  simp only [modifyHeap, modify_apply]
  congr 3
  funext x
  by_cases hx : x = n
  · subst hx; simp [hn]
  · simp [hx]

/-- `emplace (value)` on a tree that satisfies the invariant, in a memory whose addresses from
the allocator's next one on are free, with a comparator that returns or throws: once the loop
bound reaches the number of nodes it returns what `insert (value)` returns and leaves the same
object and the same memory. The node built first is linked where `insert` would build its own,
or released when the key is present or a comparison throws; only the allocator's counter
differs. -/
theorem emplace_eq_insert (hcomp : ∀ a b e, comp a b = .error e → e = .thrown)
    (hr : RepOk comp s t) (hfresh : s.store.Fresh) (v : α) :
    ∃ N, ∀ fuel, N ≤ fuel →
      (emplace comp fuel v s).1 = (insert comp fuel v s).1 ∧
      (emplace comp fuel v s).2.tree = (insert comp fuel v s).2.tree ∧
      (emplace comp fuel v s).2.store.heap = (insert comp fuel v s).2.store.heap := by
  have hn : s.store.heap s.store.next = none := hfresh _ le_rfl
  cases t with
  | leaf =>
    have hsize : s.tree.treeSize = 0 := hr.size
    exact ⟨0, fun fuel _ => by
      rw [emplace, insert, getTree_bind, getTree_bind, if_pos hsize, if_pos hsize]
      exact ⟨rfl, rfl, rfl⟩⟩
  | node l p r =>
    have hsize : s.tree.treeSize ≠ 0 := by simp [hr.size]
    have hroot : s.tree.treeRoot = some p := hr.root
    have hnt : s.store.next ∉ (Shape.node l p r).ptrs := hr.hangs.not_mem_of_free hn
    refine ⟨(Shape.node l p r).ptrs.length, fun fuel hf => ?_⟩
    have hcongr : loop (descendStep comp (s.store.heap.write s.store.next
        (some ⟨v, none, none, none⟩)) v) fuel p = loop (descendStep comp s.store.heap v) fuel p :=
      loop_descendStep_congr comp hr.hangs.links rfl
        (fun x hx => Heap.write_ne _ _ (by rintro rfl; exact hnt hx)) fuel
    rw [emplace, insert, getTree_bind, getTree_bind, if_neg hsize, if_neg hsize]
    simp only [bind_apply, getTree_apply, nodeCreate, modifyGet_apply, Store.alloc, catchThrown,
      tryCatch_apply, hroot, ptrOf, pure_apply, getHeap_apply, liftE_apply, hcongr, descend]
    rcases loop_descendStep_outcome comp (k := v) hr.hangs.links rfl fuel hf with
      ⟨a, b, e, hc, hl⟩ | ⟨x, hx, hl | ⟨d, hl⟩⟩ <;> simp only [hl]
    · obtain rfl := hcomp a b e hc
      simp only [if_true, bind_apply, deallocate_new hn]
      exact ⟨rfl, rfl, rfl⟩
    · simp only [bind_apply, deallocate_new hn]
      exact ⟨rfl, rfl, rfl⟩
    · obtain ⟨mn, hm, -⟩ := hr.hangs.cell hx
      have hmn : x ≠ s.store.next := fun e => hnt (e ▸ hx)
      obtain ⟨b, hb, -, -⟩ := cacheAfterInsert_run (d := d)
        (s := ⟨⟨linkLeaf s.store.heap v s.store.next x mn d, s.store.next + 1⟩, s.tree⟩) linkLeaf_self
      simp only [bind_apply, insertSide_eq hm hmn, insertNodeSide_eq hm hmn, hb, readNode_apply,
        deref_some linkLeaf_self]
      exact ⟨rfl, rfl, rfl⟩


theorem fortyTwentyTenThirty_emplace_eq_insert :
    (∀ (a b : Nat) e, stdLess a b = .error e → e = .thrown) ∧
      RepOk stdLess fortyTwentyTenThirty fortyTwentyShape ∧ fortyTwentyTenThirty.store.Fresh ∧
      ∃ N, ∀ fuel, N ≤ fuel →
        (emplace stdLess fuel 25 fortyTwentyTenThirty).1 = (insert stdLess fuel 25 fortyTwentyTenThirty).1 ∧
        (emplace stdLess fuel 25 fortyTwentyTenThirty).2.tree =
          (insert stdLess fuel 25 fortyTwentyTenThirty).2.tree ∧
        (emplace stdLess fuel 25 fortyTwentyTenThirty).2.store.heap =
          (insert stdLess fuel 25 fortyTwentyTenThirty).2.store.heap :=
  have hcomp : ∀ (a b : Nat) e, stdLess a b = .error e → e = .thrown := fun _ _ _ h => by cases h
  ⟨hcomp, fortyTwentyTenThirty_repOk, fortyTwentyTenThirty_fresh,
    emplace_eq_insert stdLess hcomp fortyTwentyTenThirty_repOk fortyTwentyTenThirty_fresh 25⟩

end Bstree

end Dsa
