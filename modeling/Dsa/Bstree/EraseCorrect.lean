import Dsa.Bstree.Graft

/-! # What `erase (pos)` does where it works

A `Shape.Path` is the way from the root down to a node: a stack of frames, each a node with the
subtree on the other side. Exact links of a plugged shape split into links of the frames around
the hole and of the subtree in it (`hangs_plug`), so each case of `erase` is proved on the
erased node's subtree `node l n r` alone: a leaf gives way to nothing, a node with one child to
the child, a node with two children to the promoted child with the other grafted on. Off the
root only the parent's link changes, and the frames keep their links (`HangsAbove.relink`).
Where the code is right (a leaf off the root, a node with one child, a node with two children at
the root) `erase` returns `++pos` and leaves a tree with exact links and keys increasing, the
old in-order addresses without `n`.
-/
namespace Dsa
variable {α : Type}

namespace Shape

/-- A position in a shape: the frames from it up to the root, each a node with the subtree on
the other side. -/
inductive Path
  | root
  | left (up : Path) (p : Ptr) (r : Shape)
  | right (up : Path) (l : Shape) (p : Ptr)

namespace Path

/-- The shape with `t` at the position. -/
def plug : Path → Shape → Shape
  | root, t => t
  | left c p r, t => c.plug (node t p r)
  | right c l p, t => c.plug (node l p t)

def parent : Path → Option Ptr
  | root => none
  | left _ p _ => some p
  | right _ _ p => some p

def side : Path → Dir
  | right .. => .right
  | _ => .left

def before : Path → List Ptr
  | root => []
  | left c _ _ => c.before
  | right c l p => c.before ++ (l.ptrs ++ [p])

def after : Path → List Ptr
  | root => []
  | left c p r => (p :: r.ptrs) ++ c.after
  | right c _ _ => c.after

@[simp] theorem ptrs_plug (c : Path) (t : Shape) :
    (c.plug t).ptrs = c.before ++ t.ptrs ++ c.after := by
  induction c generalizing t with
  | root => simp [plug, before, after]
  | left c p r ih => simp [plug, before, after, ih]
  | right c l p ih => simp [plug, before, after, ih]

theorem ptrs_plug_node (c : Path) (l r : Shape) (n : Ptr) :
    (c.plug (node l n r)).ptrs = (c.before ++ l.ptrs) ++ n :: (r.ptrs ++ c.after) := by
  simp

theorem ptrs_plug_of_eq {c : Path} {u l r : Shape} (hu : u.ptrs = l.ptrs ++ r.ptrs) :
    (c.plug u).ptrs = (c.before ++ l.ptrs) ++ (r.ptrs ++ c.after) := by
  simp [hu]

theorem mem_plug_of_frame {c : Path} {t : Shape} {x : Ptr} (hx : x ∈ c.before ++ c.after) :
    x ∈ (c.plug t).ptrs := by
  simp only [ptrs_plug, List.mem_append] at hx ⊢
  tauto

theorem mem_plug_of_mem {c : Path} {t : Shape} {x : Ptr} (hx : x ∈ t.ptrs) : x ∈ (c.plug t).ptrs := by
  simp [hx]

theorem rootPtr_plug {c : Path} (hc : c ≠ root) (t : Shape) :
    ∃ p ∈ c.before ++ c.after, ∀ t', (c.plug t').rootPtr = some p := by
  induction c generalizing t with
  | root => exact absurd rfl hc
  | left c p r ih =>
    by_cases h0 : c = root
    · subst h0
      exact ⟨p, by simp [before, after], fun _ => rfl⟩
    · obtain ⟨q, hq, e⟩ := ih h0 (node t p r)
      exact ⟨q, by simp only [before, after, List.mem_append] at hq ⊢; tauto, fun t' => e _⟩
  | right c l p ih =>
    by_cases h0 : c = root
    · subst h0
      exact ⟨p, by simp [before, after], fun _ => rfl⟩
    · obtain ⟨q, hq, e⟩ := ih h0 (node l p t)
      exact ⟨q, by simp only [before, after, List.mem_append] at hq ⊢; tauto, fun t' => e _⟩

theorem exists_plug {n : Ptr} : ∀ {t : Shape} (c : Path), n ∈ t.ptrs →
    ∃ (c' : Path) (l r : Shape), c.plug t = c'.plug (node l n r)
  | .leaf, _, hn => by cases hn
  | .node l p r, c, hn => by
    simp only [ptrs_node, List.mem_append, List.mem_cons] at hn
    rcases hn with hn | rfl | hn
    · exact exists_plug (left c p r) hn
    · exact ⟨c, l, r, rfl⟩
    · exact exists_plug (right c l p) hn

theorem parent_some {c : Path} (hc : c ≠ root) : ∃ q, c.parent = some q ∧ q ∈ c.before ++ c.after := by
  cases c with
  | root => exact absurd rfl hc
  | left c p r => exact ⟨p, rfl, by simp [after]⟩
  | right c l p => exact ⟨p, rfl, by simp [before]⟩

theorem nodup_split {c : Path} {l r : Shape} {n : Ptr} (h : (c.plug (node l n r)).ptrs.Nodup) :
    (n :: (l.ptrs ++ r.ptrs)).Nodup ∧ (c.before ++ c.after).Nodup ∧
      ∀ x ∈ n :: (l.ptrs ++ r.ptrs), x ∉ c.before ++ c.after := by
  have hp : List.Perm (c.plug (node l n r)).ptrs ((n :: (l.ptrs ++ r.ptrs)) ++ (c.before ++ c.after)) :=
    List.perm_iff_count.mpr fun a => by
      simp only [ptrs_plug, ptrs_node, List.count_append, List.count_cons]
      omega
  obtain ⟨hsub, hfr, hdis⟩ := List.nodup_append.mp (hp.nodup_iff.mp h)
  exact ⟨hsub, hfr, fun x hx hx' => hdis hx hx'⟩

theorem rootPtr_plug_ne {c : Path} (hc : c ≠ root) {l r : Shape} {n : Ptr}
    (h : (c.plug (node l n r)).ptrs.Nodup) : (c.plug (node l n r)).rootPtr ≠ some n := by
  obtain ⟨p, hp, e⟩ := rootPtr_plug hc (node l n r)
  rw [e]
  exact fun e' => (nodup_split h).2.2 n (List.mem_cons_self _ _) (Option.some.inj e' ▸ hp)

theorem first_of_head {c : Path} {l r : Shape} {n : Ptr} (h : (c.plug (node l n r)).ptrs.Nodup)
    (hfirst : (c.plug (node l n r)).ptrs.head? = some n) : c.before = [] ∧ l = leaf := by
  have hpre : c.before ++ l.ptrs = [] := by
    rw [ptrs_plug_node] at h hfirst
    cases hp : c.before ++ l.ptrs with
    | nil => rfl
    | cons a rest =>
      rw [hp] at h hfirst
      obtain rfl : a = n := by simpa using hfirst
      exact absurd (by simp) (List.nodup_cons.mp h).1
  obtain ⟨hbefore, hl⟩ := List.append_eq_nil.mp hpre
  exact ⟨hbefore, by cases l <;> simp_all⟩

theorem head_after {c : Path} (hc : c.before = []) : c.after.head? = c.parent := by
  cases c with
  | root => rfl
  | left c p r => rfl
  | right c l p => simp [before] at hc

variable (h : Heap α)

/-- The frames realised with exact child and parent links around a hole whose root is `a`. -/
def HangsAbove : Path → Option Ptr → Prop
  | root, _ => True
  | left c p r, a =>
    (∃ v, h p = some ⟨v, a, r.rootPtr, c.parent⟩) ∧ Hangs h (some p) r ∧ c.HangsAbove (some p)
  | right c l p, a =>
    (∃ v, h p = some ⟨v, l.rootPtr, a, c.parent⟩) ∧ Hangs h (some p) l ∧ c.HangsAbove (some p)

variable {h}

theorem hangs_plug {c : Path} {t : Shape} :
    Hangs h none (c.plug t) ↔ c.HangsAbove h t.rootPtr ∧ Hangs h c.parent t := by
  induction c generalizing t with
  | root => simp [plug, HangsAbove, parent]
  | left c p r ih =>
    simp only [plug, ih, HangsAbove, parent, hangs_node, rootPtr_node]
    tauto
  | right c l p ih =>
    simp only [plug, ih, HangsAbove, parent, hangs_node, rootPtr_node]
    tauto

theorem HangsAbove.frame {h' : Heap α} {c : Path} {a : Option Ptr} (hc : c.HangsAbove h a)
    (he : ∀ x ∈ c.before ++ c.after, h' x = h x) : c.HangsAbove h' a := by
  induction c generalizing a with
  | root => trivial
  | left c p r ih =>
    obtain ⟨⟨v, hv⟩, hr, hc⟩ := hc
    refine ⟨⟨v, (he p (by simp [after])).trans hv⟩, hr.frame fun x hx => he x (by simp [after, hx]),
      ih hc fun x hx => he x ?_⟩
    simp only [before, after, List.mem_append, List.mem_cons] at hx ⊢
    tauto
  | right c l p ih =>
    obtain ⟨⟨v, hv⟩, hl, hc⟩ := hc
    refine ⟨⟨v, (he p (by simp [before])).trans hv⟩, hl.frame fun x hx => he x (by simp [before, hx]),
      ih hc fun x hx => he x ?_⟩
    simp only [before, after, List.mem_append, List.mem_cons] at hx ⊢
    tauto

theorem HangsAbove.parent_cell {c : Path} {a : Option Ptr} (hc : c.HangsAbove h a) {q : Ptr}
    (hq : c.parent = some q) :
    ∃ qn, h q = some qn ∧ qn.child c.side = a ∧
      (c.side = .right → ∀ x, qn.left = some x → x ∈ c.before) := by
  cases c with
  | root => cases hq
  | left c p r =>
    cases hq
    obtain ⟨⟨v, hv⟩, -⟩ := hc
    exact ⟨_, hv, rfl, nofun⟩
  | right c l p =>
    cases hq
    obtain ⟨⟨v, hv⟩, -⟩ := hc
    exact ⟨_, hv, rfl, fun _ x hx => by simp [before, rootPtr_mem hx]⟩

theorem HangsAbove.relink {h' : Heap α} {c : Path} {a a' : Option Ptr} (hc : c.HangsAbove h a)
    (hnd : (c.before ++ c.after).Nodup)
    (he : ∀ x ∈ c.before ++ c.after, some x ≠ c.parent → h' x = h x)
    (hq : ∀ q qn, c.parent = some q → h q = some qn → h' q = some (qn.setChild c.side a')) :
    c.HangsAbove h' a' := by
  cases c with
  | root => trivial
  | left c p r =>
    obtain ⟨⟨v, hv⟩, hr, hc⟩ := hc
    have hp : p ∉ c.before ++ (r.ptrs ++ c.after) :=
      (List.nodup_cons.mp (List.nodup_middle.mp (by simpa [before, after] using hnd))).1
    refine ⟨⟨v, by rw [hq p _ rfl hv]; rfl⟩, hr.frame fun x hx => he x (by simp [after, hx]) ?_,
      hc.frame fun x hx => he x ?_ ?_⟩
    · rintro ⟨⟩
      exact hp (by simp [hx])
    · simp only [before, after, List.mem_append, List.mem_cons] at hx ⊢
      tauto
    · rintro ⟨⟩
      exact hp (by simp only [List.mem_append] at hx ⊢; tauto)
  | right c l p =>
    obtain ⟨⟨v, hv⟩, hl, hc⟩ := hc
    have hp : p ∉ (c.before ++ l.ptrs) ++ c.after :=
      (List.nodup_cons.mp (List.nodup_middle.mp (by simpa [before, after] using hnd))).1
    refine ⟨⟨v, by rw [hq p _ rfl hv]; rfl⟩, hl.frame fun x hx => he x (by simp [before, hx]) ?_,
      hc.frame fun x hx => he x ?_ ?_⟩
    · rintro ⟨⟩
      exact hp (by simp [hx])
    · simp only [before, after, List.mem_append, List.mem_cons] at hx ⊢
      tauto
    · rintro ⟨⟩
      exact hp (by simp only [List.mem_append] at hx ⊢; tauto)

end Path
end Shape

@[simp] theorem Dir.mem_join {β : Type} {d : Dir} {xs ys : List β} {x : β} :
    x ∈ d.join xs ys ↔ x ∈ xs ∨ x ∈ ys := by
  cases d
  · simp [Dir.join, or_comm]
  · simp [Dir.join]

namespace Bstree
variable (comp : α → α → Except Fault Bool) (fuel : Nat) {s : State α} {n : Ptr} {nd : Node α}

theorem replaceInParent_run {q : Ptr} {qn : Node α} {d : Dir} (hpar : nd.parent = some q)
    (hq : s.store.heap q = some qn) (hd : qn.child d = some n)
    (hleft : d = .right → qn.left ≠ some n) (x : Option Ptr) :
    replaceInParent n nd x s =
      (.ok (), { s with store := { s.store with heap := s.store.heap.write q (some (qn.setChild d x)) } }) := by
  cases d with
  | left =>
    simp only [Node.child_left] at hd
    simp only [replaceInParent, hpar, readNode_bind_of hq, hd, if_true, setChild, writeNode_of hq]
  | right =>
    simp only [Node.child_right] at hd
    simp only [replaceInParent, hpar, readNode_bind_of hq, hd, if_true, if_neg (hleft rfl), setChild,
      writeNode_of hq]

theorem moveCache_run (hn : s.store.heap n = some nd) (d : Dir) (f : Node α → Option Ptr) :
    ∃ b, moveCache d (some n) f s =
        (.ok ((s.tree.cache d).equal ⟨some n, .valid⟩), { s with tree := b }) ∧
      b.treeRoot = s.tree.treeRoot ∧ b.treeSize = s.tree.treeSize ∧
      b.beginIt = if d = .left ∧ s.tree.beginIt.equal ⟨some n, .valid⟩ = true
        then { s.tree.beginIt with iter := f nd } else s.tree.beginIt := by
  rw [moveCache_apply]
  by_cases h : (s.tree.cache d).equal ⟨some n, .valid⟩ = true
  · rw [if_pos h, deref_some hn, h]
    refine ⟨_, rfl, by cases d <;> rfl, by cases d <;> rfl, ?_⟩
    cases d
    · rw [Bstree.cache_left] at h
      simp [h]
    · simp
  · rw [if_neg h, Bool.eq_false_iff.mpr h]
    refine ⟨_, rfl, rfl, rfl, ?_⟩
    cases d
    · rw [Bstree.cache_left] at h
      simp [h]
    · simp

theorem leafCaches_run (hn : s.store.heap n = some nd) :
    ∃ b, leafCaches n s = (.ok (), { s with tree := b }) ∧
      b.treeRoot = s.tree.treeRoot ∧ b.treeSize = s.tree.treeSize ∧
      b.beginIt = if s.tree.beginIt.equal ⟨some n, .valid⟩ = true
        then { s.tree.beginIt with iter := nd.parent } else s.tree.beginIt := by
  obtain ⟨b, hm, hr, hs, hbg⟩ := moveCache_run hn .left (·.parent)
  rw [leafCaches, bind_apply, hm]
  simp only [Bstree.cache_left, true_and] at hbg ⊢
  cases he : s.tree.beginIt.equal ⟨some n, .valid⟩
  · obtain ⟨b', hm', hr', hs', hbg'⟩ := moveCache_run (s := { s with tree := b }) hn .right (·.parent)
    refine ⟨b', ?_, hr'.trans hr, hs'.trans hs, ?_⟩
    · simp only [Bool.not_false, if_true, bind_apply, hm', pure_apply]
    · simp_all
  · exact ⟨b, rfl, hr, hs, by simp_all⟩

theorem Heap.map_value_write {h : Heap α} {q : Ptr} {qn qn' : Node α} (hq : h q = some qn)
    (hv : qn'.value = qn.value) (y : Ptr) :
    ((h.write q (some qn')) y).map Node.value = (h y).map Node.value := by
  by_cases hy : y = q
  · subst hy
    simp [hq, hv]
  · rw [Heap.write_ne _ _ hy]

open Shape in
/-- What unlinking `n` from its position `c` is meant to leave in `s₁`: the subtree `u` in its
place with exact links, the parent linking `u`, every other cell of the frames as it was, every
value kept, `n` itself untouched, a new root only at the root, and the size as it was. -/
structure Unlinks (s s₁ : State α) (c : Path) (n : Ptr) (u : Shape) : Prop where
  hangs : Hangs s₁.store.heap c.parent u
  frame : ∀ x ∈ c.before ++ c.after, some x ≠ c.parent → s₁.store.heap x = s.store.heap x
  untouched : ∀ x ∉ (c.plug u).ptrs, s₁.store.heap x = s.store.heap x
  parent : ∀ q qn, c.parent = some q → s.store.heap q = some qn →
    s₁.store.heap q = some (qn.setChild c.side u.rootPtr)
  values : ∀ x, (s₁.store.heap x).map Node.value = (s.store.heap x).map Node.value
  self : s₁.store.heap n = s.store.heap n
  root_eq : c = .root → s₁.tree.treeRoot = u.rootPtr
  root_stays : c ≠ .root → s₁.tree.treeRoot = s.tree.treeRoot
  size : s₁.tree.treeSize = s.tree.treeSize
  next : s₁.store.next = s.store.next

open Shape in
theorem unlinks_leaf {c : Path} (hc0 : c ≠ .root) {v : α}
    (hc : c.HangsAbove s.store.heap (some n)) (hn : s.store.heap n = some ⟨v, none, none, c.parent⟩)
    (hn' : n ∉ c.before ++ c.after) (hr : s.tree.treeRoot ≠ some n) :
    ∃ s₁, (∀ fuel, unlinkNode comp fuel n ⟨v, none, none, c.parent⟩ s = (.ok (), s₁)) ∧
      Unlinks s s₁ c n .leaf ∧ s₁.tree.beginIt = if s.tree.beginIt.equal ⟨some n, .valid⟩ = true
        then { s.tree.beginIt with iter := c.parent } else s.tree.beginIt := by
  obtain ⟨q, hq, hqc⟩ := Path.parent_some hc0
  obtain ⟨qn, hqn, hside, hleft⟩ := hc.parent_cell hq
  have hqn' : q ≠ n := fun e => hn' (e ▸ hqc)
  obtain ⟨b, hb, hbr, hbs, hbg⟩ := leafCaches_run
    (s := ⟨{ s.store with heap := s.store.heap.write q (some (qn.setChild c.side none)) }, s.tree⟩)
    ((Heap.write_ne _ _ (Ne.symm hqn')).trans hn)
  refine ⟨⟨{ s.store with heap := s.store.heap.write q (some (qn.setChild c.side none)) }, b⟩,
    fun fuel => ?_, ⟨trivial, fun x _ hx => Heap.write_ne _ _ fun e => hx (by rw [e, hq]),
    fun x hx => Heap.write_ne _ _ fun (e : x = q) => hx (Path.mem_plug_of_frame (e ▸ hqc)),
    fun q' qn' hq' hqn'' => ?_, Heap.map_value_write hqn (Node.value_setChild _ _ _),
    Heap.write_ne _ _ (Ne.symm hqn'),
    fun e => absurd e hc0, fun _ => hbr, hbs, rfl⟩, hbg⟩
  · simp only [unlinkNode, eraseLeaf, bind_apply, unlinkLeaf, getTree_apply, if_neg hr,
      replaceInParent_run (show (⟨v, none, none, c.parent⟩ : Node α).parent = some q from hq) hqn hside
        fun e x => hn' (List.mem_append_left _ (hleft e n x))]
    exact hb
  · obtain rfl := Option.some.inj (hq'.symm.trans hq)
    rw [hqn''] at hqn
    cases hqn
    exact Heap.write_self _ _ _

open Shape in
theorem unlinks_oneChild {c : Path} {u : Shape} {cq : Ptr} {cn : Node α} (d : Dir)
    (hc : c.HangsAbove s.store.heap (some n)) (hu : Hangs s.store.heap (some n) u)
    (hcq : u.rootPtr = some cq) (hcn : s.store.heap cq = some cn)
    (hn : s.store.heap n = some nd) (hpar : nd.parent = c.parent)
    (hn' : n ∉ c.before ++ c.after) (hnu : n ∉ u.ptrs) (hund : u.ptrs.Nodup)
    (hdis : ∀ x ∈ u.ptrs, x ∉ c.before ++ c.after)
    (hroot : c = .root → s.tree.treeRoot = some n) (hroot' : c ≠ .root → s.tree.treeRoot ≠ some n) :
    ∃ s₁, eraseOneChild d n nd (some cq) s = (.ok (), s₁) ∧ Unlinks s s₁ c n u ∧
      s₁.tree.beginIt = if d = .left ∧ s.tree.beginIt.equal ⟨some n, .valid⟩ = true
        then { s.tree.beginIt with iter := c.parent } else s.tree.beginIt := by
  have hcu : cq ∈ u.ptrs := rootPtr_mem hcq
  have hcqn : cq ≠ n := fun e => hnu (e ▸ hcu)
  by_cases hc0 : c = .root
  · subst hc0
    let H := s.store.heap.write cq (some { cn with parent := none })
    obtain ⟨b, hb, hbr, hbs, hbg⟩ := moveCache_run
      (s := ⟨{ s.store with heap := H }, { s.tree with treeRoot := some cq }⟩)
      ((Heap.write_ne _ _ hcqn.symm).trans hn) d (·.parent)
    refine ⟨⟨{ s.store with heap := H }, b⟩, ?_, ⟨?_, by simp [Path.before, Path.after],
      fun x hx => Heap.write_ne _ _ fun (e : x = cq) => hx (Path.mem_plug_of_mem (e ▸ hcu)), nofun,
      Heap.map_value_write hcn (show ({ cn with parent := none } : Node α).value = cn.value from rfl),
      Heap.write_ne _ _ hcqn.symm, fun _ => hbr.trans hcq.symm, nofun,
      hbs, rfl⟩, by rw [hbg]; simp [hpar]⟩
    · simp only [eraseOneChild, bind_apply, unlinkOneChild, getTree_apply, if_pos (hroot rfl),
        modifyTree_apply, setParent, hpar, Path.parent,
        writeNode_of (s := ⟨s.store, { s.tree with treeRoot := some cq }⟩) hcn, hb, pure_apply]
    · exact hu.reparent hund hcq hcn (Heap.write_self _ _ _) fun x _ hx => Heap.write_ne _ _ hx
  · obtain ⟨q, hq, hqc⟩ := Path.parent_some hc0
    obtain ⟨qn, hqn, hside, hleft⟩ := hc.parent_cell hq
    have hqn' : q ≠ n := fun e => hn' (e ▸ hqc)
    have hqcq : q ≠ cq := fun e => hdis cq hcu (e ▸ hqc)
    have hcn₁ : (s.store.heap.write q (some (qn.setChild c.side (some cq)))) cq = some cn :=
      (Heap.write_ne _ _ hqcq.symm).trans hcn
    obtain ⟨b, hb, hbr, hbs, hbg⟩ := moveCache_run (s := ⟨⟨(s.store.heap.write q
        (some (qn.setChild c.side (some cq)))).write cq (some { cn with parent := c.parent }),
        s.store.next⟩, s.tree⟩)
      ((Heap.write_ne _ _ hcqn.symm).trans ((Heap.write_ne _ _ hqn'.symm).trans hn)) d (·.parent)
    refine ⟨⟨⟨(s.store.heap.write q (some (qn.setChild c.side (some cq)))).write cq
        (some { cn with parent := c.parent }), s.store.next⟩, b⟩, ?_,
      ⟨?_, fun x hx hxq => ?_, fun x hx => (Heap.write_ne _ _ fun (e : x = cq) =>
        hx (Path.mem_plug_of_mem (e ▸ hcu))).trans (Heap.write_ne _ _ fun (e : x = q) =>
        hx (Path.mem_plug_of_frame (e ▸ hqc))),
        fun q' qn' hq' hqn'' => ?_, fun y => ?_, ?_, fun e => absurd e hc0,
        fun _ => hbr, hbs, rfl⟩, by rw [hbg]; simp [hpar]⟩
    · simp only [eraseOneChild, bind_apply, unlinkOneChild, getTree_apply, if_neg (hroot' hc0),
        replaceInParent_run (hpar.trans hq) hqn hside
          fun e x => hn' (List.mem_append_left _ (hleft e n x)), setParent, hpar,
        writeNode_of (s := ⟨⟨s.store.heap.write q (some (qn.setChild c.side (some cq))),
          s.store.next⟩, s.tree⟩) hcn₁, hb, pure_apply]
    · exact hu.reparent hund hcq hcn (Heap.write_self _ _ _) fun x hx hxc =>
        (Heap.write_ne _ _ hxc).trans (Heap.write_ne _ _ fun e => hdis x hx (e ▸ hqc))
    · have hxc : x ≠ cq := fun e => hdis cq hcu (e ▸ hx)
      have hxq' : x ≠ q := fun e => hxq (by rw [e, hq])
      exact (Heap.write_ne _ _ hxc).trans (Heap.write_ne _ _ hxq')
    · obtain rfl := Option.some.inj (hq'.symm.trans hq)
      rw [hqn''] at hqn
      cases hqn
      exact (Heap.write_ne _ _ hqcq).trans (by rw [Heap.write_self, hcq])
    · exact (Heap.map_value_write hcn₁ (show ({ cn with parent := c.parent } : Node α).value = cn.value
        from rfl) y).trans (Heap.map_value_write hqn (Node.value_setChild _ _ _) y)
    · exact (Heap.write_ne _ _ hcqn.symm).trans (Heap.write_ne _ _ hqn'.symm)

theorem unlinks_twoChildren {lt : α → α → Bool} (hk : KeyOrder comp lt) (hirr : ∀ a, lt a a = false)
    {P G : Shape} {pq gq : Ptr} (d : Dir) (hroot : s.tree.treeRoot = some n)
    (hpro : (if s.tree.treeSize % 2 == 0 then nd.left else nd.right) = some pq)
    (hoth : (if s.tree.treeSize % 2 == 0 then nd.right else nd.left) = some gq)
    (hP : Hangs s.store.heap (some n) P) (hG : Hangs s.store.heap (some n) G)
    (hpq : P.rootPtr = some pq) (hgq : G.rootPtr = some gq) (hnd : (n :: (P.ptrs ++ G.ptrs)).Nodup)
    (hs : (d.join (P.keys s.store.heap) (G.keys s.store.heap)).Pairwise (lt · · = true)) :
    ∃ s₁, s₁.tree.beginIt = s.tree.beginIt ∧ ∀ fuel, P.height ≤ fuel →
      eraseTwoChildren comp fuel n nd s = (.ok (), s₁) ∧ Unlinks s s₁ .root n (P.graftAt G d) := by
  have hnd' := List.nodup_cons.mp hnd
  have hpP : pq ∈ P.ptrs := Shape.rootPtr_mem hpq
  have hgG : gq ∈ G.ptrs := Shape.rootPtr_mem hgq
  have hPG : ∀ x ∈ P.ptrs, x ∉ G.ptrs := fun x hx hxG => List.disjoint_of_nodup_append hnd'.2 hx hxG
  have hpn : pq ≠ n := fun e => hnd'.1 (e ▸ by simp [hpP])
  have hgn' : gq ≠ n := fun e => hnd'.1 (e ▸ by simp [hgG])
  have hgp : gq ≠ pq := fun e => hPG pq hpP (e ▸ hgG)
  obtain ⟨pn, hpn₀, -⟩ := hP.cell hpP
  obtain ⟨gn, hgn₀, -⟩ := hG.cell hgG
  have hPnd := (List.nodup_append.mp hnd'.2).1
  have hv₂ : ∀ y, ((s.store.heap.write pq (some { pn with parent := none })) y).map Node.value =
      (s.store.heap y).map Node.value := Heap.map_value_write hpn₀ rfl
  have hG₂ : Hangs (s.store.heap.write pq (some { pn with parent := none })) (some n) G :=
    hG.frame fun x hx => Heap.write_ne _ _ fun e => hPG pq hpP (e ▸ hx)
  have hP₂ : Hangs (s.store.heap.write pq (some { pn with parent := none })) none P :=
    hP.reparent hPnd hpq hpn₀ (Heap.write_self _ _ _) fun x _ hx => Heap.write_ne _ _ hx
  have hgn₂ : (s.store.heap.write pq (some { pn with parent := none })) gq = some gn :=
    (Heap.write_ne _ _ hgp).trans hgn₀
  have hside := graft_side hk.trans hirr hs (Shape.mem_keys hgG hgn₀)
  rw [show P.keys s.store.heap = P.keys (s.store.heap.write pq (some { pn with parent := none })) from
    List.filterMap_congr fun x _ => (hv₂ x).symm] at hside
  obtain ⟨m, hm, -⟩ := loop_graftStep comp hk hgn₂ d hP₂.links hpq hside P.height le_rfl
  have hmP := Shape.spineEnd_mem hm
  obtain ⟨mn, hmn, -⟩ := hP₂.cell hmP
  have hgm : gq ≠ m := fun e => hPG m hmP (e ▸ hgG)
  have hmn' : m ≠ n := fun e => hnd'.1 (e ▸ by simp [hmP])
  refine ⟨⟨⟨linkGraft (s.store.heap.write pq (some { pn with parent := none })) m mn d gq gn,
    s.store.next⟩, { s.tree with treeRoot := some pq }⟩, rfl, fun fuel hf => ⟨?_, ?_, nofun, fun x hx => ?_, nofun,
    fun y => ?_, ?_, fun _ => by rw [Shape.rootPtr_graftAt (by rintro rfl; cases hpq), hpq], nofun,
    rfl, rfl⟩⟩
  · obtain ⟨m', hm', hl⟩ := loop_graftStep comp hk hgn₂ d hP₂.links hpq hside fuel hf
    obtain rfl : m' = m := Option.some.inj (hm'.symm.trans hm)
    simp only [eraseTwoChildren, bind_apply, getTree_apply, hpro, hoth, promote, if_pos hroot,
      modifyTree_apply, setParent, writeNode_of (s := ⟨s.store, { s.tree with treeRoot := some pq }⟩) hpn₀]
    exact graft_run comp (s := ⟨⟨_, s.store.next⟩, { s.tree with treeRoot := some pq }⟩) hmn hgn₂ hgm hl
  · exact hangs_graftAt hG₂ hgq hgn₂ d hP₂ hm hmn hnd'.2
  · have hxP : x ∉ P.ptrs ∧ x ∉ G.ptrs := by
      simpa [Shape.Path.plug, Shape.ptrs_graftAt, Dir.mem_join, not_or] using hx
    exact (linkGraft_other (fun (e : x = m) => hxP.1 (e ▸ hmP)) fun (e : x = gq) => hxP.2 (e ▸ hgG)).trans
      (Heap.write_ne _ _ fun (e : x = pq) => hxP.1 (e ▸ hpP))
  · dsimp only
    by_cases hyg : y = gq
    · rw [hyg, linkGraft_graft, ← hv₂, hgn₂]
      rfl
    · by_cases hym : y = m
      · rw [hym, linkGraft_below hgm, ← hv₂, hmn]
        simp
      · rw [linkGraft_other hym hyg, hv₂]
  · exact (linkGraft_other hmn'.symm hgn'.symm).trans (Heap.write_ne _ _ hpn.symm)

open Shape in
/-- The case of `unlinkNode` that the subtree `node l n r` at `c` selects, where the code is
right: a leaf off the root, a node with one child anywhere, a node with two children at the
root. The subtree left in `n`'s place holds the children's addresses in order. -/
theorem unlinks_node {lt : α → α → Bool} (hk : KeyOrder comp lt) (hirr : ∀ a, lt a a = false)
    {c : Path} {l r : Shape} {v : α} (hc : c.HangsAbove s.store.heap (some n))
    (hn : s.store.heap n = some ⟨v, l.rootPtr, r.rootPtr, c.parent⟩)
    (hl : Hangs s.store.heap (some n) l) (hr : Hangs s.store.heap (some n) r)
    (hnd : (c.plug (.node l n r)).ptrs.Nodup) (hroot : s.tree.treeRoot = (c.plug (.node l n r)).rootPtr)
    (hs : (l.keys s.store.heap ++ r.keys s.store.heap).Pairwise (lt · · = true))
    (hleaf : l = .leaf → r = .leaf → c ≠ .root) (htwo : l ≠ .leaf → r ≠ .leaf → c = .root) :
    ∃ u : Shape, u.ptrs = l.ptrs ++ r.ptrs ∧ ∃ N s₁,
      s₁.tree.beginIt = (if l = .leaf ∧ s.tree.beginIt.equal ⟨some n, .valid⟩ = true
        then { s.tree.beginIt with iter := c.parent } else s.tree.beginIt) ∧
      ∀ fuel, N ≤ fuel → unlinkNode comp fuel n ⟨v, l.rootPtr, r.rootPtr, c.parent⟩ s = (.ok (), s₁) ∧
        Unlinks s s₁ c n u := by
  obtain ⟨hsub, -, hdis⟩ := Path.nodup_split hnd
  obtain ⟨hnlr, hlrnd⟩ := List.nodup_cons.mp hsub
  have hn' : n ∉ c.before ++ c.after := hdis n (List.mem_cons_self _ _)
  have hroot₀ : c = .root → s.tree.treeRoot = some n := by
    rintro rfl
    exact hroot
  have hroot₁ : c ≠ .root → s.tree.treeRoot ≠ some n := fun h0 => hroot ▸ Path.rootPtr_plug_ne h0 hnd
  cases l with
  | leaf =>
    cases r with
    | leaf =>
      obtain ⟨s₁, hrun, hu, hbg⟩ := unlinks_leaf comp (hleaf rfl rfl) hc hn hn' (hroot₁ (hleaf rfl rfl))
      exact ⟨.leaf, rfl, 0, s₁, by simp [hbg], fun fuel _ => ⟨hrun fuel, hu⟩⟩
    | node rl rp rr =>
      obtain ⟨w, hw⟩ := hr.1
      obtain ⟨s₁, hrun, hu, hbg⟩ := unlinks_oneChild .left hc hr rfl hw hn rfl hn' hnlr hlrnd
        (fun x hx => hdis x (List.mem_cons_of_mem _ hx)) hroot₀ hroot₁
      exact ⟨_, rfl, 0, s₁, by simp [hbg], fun _ _ => ⟨hrun, hu⟩⟩
  | node ll lp lr =>
    cases r with
    | leaf =>
      obtain ⟨w, hw⟩ := hl.1
      obtain ⟨s₁, hrun, hu, hbg⟩ := unlinks_oneChild .right hc hl rfl hw hn rfl hn'
        (fun h => hnlr (List.mem_append_left _ h)) (List.nodup_append.mp hlrnd).1
        (fun x hx => hdis x (List.mem_cons_of_mem _ (List.mem_append_left _ hx))) hroot₀ hroot₁
      exact ⟨_, (List.append_nil _).symm, 0, s₁, by simp [hbg], fun _ _ => ⟨hrun, hu⟩⟩
    | node rl rp rr =>
      obtain rfl := htwo nofun nofun
      by_cases hpar : (s.tree.treeSize % 2 == 0) = true
      · have hpro : (if s.tree.treeSize % 2 == 0 then (⟨v, some lp, some rp, none⟩ : Node α).left
            else (⟨v, some lp, some rp, none⟩ : Node α).right) = some lp := if_pos hpar
        obtain ⟨s₁, hbg, h₁⟩ := unlinks_twoChildren comp hk hirr .right (hroot₀ rfl) hpro (if_pos hpar)
          hl hr rfl rfl hsub hs
        exact ⟨_, ptrs_graftAt _ .right _, _, s₁, by simp [hbg], h₁⟩
      · have hpro : (if s.tree.treeSize % 2 == 0 then (⟨v, some lp, some rp, none⟩ : Node α).left
            else (⟨v, some lp, some rp, none⟩ : Node α).right) = some rp := if_neg hpar
        obtain ⟨s₁, hbg, h₁⟩ := unlinks_twoChildren comp hk hirr .left (hroot₀ rfl) hpro (if_neg hpar)
          hr hl rfl rfl ((List.perm_append_comm.cons n).nodup_iff.mp hsub) hs
        exact ⟨_, ptrs_graftAt _ .left _, _, s₁, by simp [hbg], h₁⟩

open Shape in
/-- What a returning `erase (pos)` at `n` is meant to leave in `s'`: the node graph realising
`t'` with exact links and keys increasing, `t'` holding the old addresses in order without `n`
and so the old keys without `n`'s, `n` released, every other value kept, every cell outside the
tree untouched, and the allocator as it was. -/
structure ErasesNode (s s' : State α) (t t' : Shape) (n : Ptr) : Prop where
  hangs : Hangs s'.store.heap none t'
  searchOk : SearchOk comp s' t'
  ptrs : t'.ptrs = t.ptrs.erase n
  keys : ∃ pre post v, (s.store.heap n).map Node.value = some v ∧
    t.keys s.store.heap = pre ++ v :: post ∧ t'.keys s'.store.heap = pre ++ post
  released : s'.store.heap n = none
  kept : ∀ x, x ≠ n → (s'.store.heap x).map Node.value = (s.store.heap x).map Node.value
  untouched : ∀ x ∉ t.ptrs, s'.store.heap x = s.store.heap x
  next : s'.store.next = s.store.next

open Shape in
/-- Unlinking `n` from its position and then releasing it with the size one less, as `erase`
does after `++pos`, leaves what `ErasesNode` asks: the frames keep their links but for the
parent's, which now holds the subtree left in `n`'s place. -/
theorem unlinks_erases {s₁ : State α} {c : Path} {l r u : Shape} {v : α}
    (hh : Hangs s.store.heap none (c.plug (.node l n r))) (hs : SearchOk comp s (c.plug (.node l n r)))
    (hv : (s.store.heap n).map Node.value = some v) (hU : Unlinks s s₁ c n u)
    (hu : u.ptrs = l.ptrs ++ r.ptrs) :
    ErasesNode comp s ⟨⟨s₁.store.heap.write n none, s₁.store.next⟩,
      { s₁.tree with treeSize := s₁.tree.treeSize - 1 }⟩ (c.plug (.node l n r)) (c.plug u) n := by
  obtain ⟨hsub, hfr, hdis⟩ := Path.nodup_split hs.nodup
  have hnlr : n ∉ l.ptrs ++ r.ptrs := (List.nodup_cons.mp hsub).1
  have hn' : n ∉ c.before ++ c.after := hdis n (List.mem_cons_self _ _)
  have hnu : n ∉ (c.plug u).ptrs := by
    simp only [Path.ptrs_plug, hu, List.mem_append, not_or] at hnlr hn' ⊢
    tauto
  have hw : ∀ x, x ≠ n → s₁.store.heap.write n none x = s₁.store.heap x := fun x hx =>
    Heap.write_ne _ _ hx
  have hf : ∀ x, x ≠ n → ((s₁.store.heap.write n none) x).map Node.value =
      (s.store.heap x).map Node.value := fun x hx => by rw [hw x hx, hU.values]
  have hptrs : (c.plug u).ptrs = (c.plug (.node l n r)).ptrs.erase n := by
    rw [Path.ptrs_plug_node, Path.ptrs_plug_of_eq hu, List.erase_append_right, List.erase_cons_head]
    simp only [List.mem_append, not_or] at hnlr hn' ⊢
    tauto
  have hkeys : (c.plug u).keys (s₁.store.heap.write n none) =
      valuesAt s.store.heap (c.before ++ l.ptrs) ++ valuesAt s.store.heap (r.ptrs ++ c.after) := by
    rw [← valuesAt_append, ← Path.ptrs_plug_of_eq hu]
    exact valuesAt_congr fun x hx => hf x fun e => hnu (e ▸ hx)
  obtain ⟨nd, hnd, rfl⟩ := Option.map_eq_some'.mp hv
  have hkeys₀ : (c.plug (.node l n r)).keys s.store.heap =
      valuesAt s.store.heap (c.before ++ l.ptrs) ++ nd.value :: valuesAt s.store.heap (r.ptrs ++ c.after) := by
    rw [Shape.keys, Path.ptrs_plug_node, ← valuesAt, valuesAt_append, valuesAt_cons hnd]
  have hH : Hangs (s₁.store.heap.write n none) none (c.plug u) := by
    refine Path.hangs_plug.mpr ⟨((Path.hangs_plug.mp hh).1.relink hfr hU.frame hU.parent).frame fun x hx => ?_,
      hU.hangs.frame fun x hx => hw x ?_⟩
    · exact hw x fun e => hn' (e ▸ hx)
    · exact fun e => hnu (Path.mem_plug_of_mem (e ▸ hx))
  have hnt : n ∈ (c.plug (.node l n r)).ptrs := Path.mem_plug_of_mem (by simp)
  refine ⟨hH, ⟨hH.links, ?_, hptrs ▸ hs.nodup.erase n, ?_, ?_⟩, hptrs,
    ⟨_, _, nd.value, hv, hkeys₀, hkeys⟩, Heap.write_self _ _ _, hf,
    fun x hx => (hw x fun e => hx (e ▸ hnt)).trans
      (hU.untouched x fun hx' => hx (List.mem_of_mem_erase (hptrs ▸ hx'))), hU.next⟩
  · show s₁.tree.treeRoot = (c.plug u).rootPtr
    by_cases hc0 : c = .root
    · subst hc0
      exact hU.root_eq rfl
    · obtain ⟨p, -, e⟩ := Path.rootPtr_plug hc0 u
      rw [hU.root_stays hc0, hs.root, e, e]
  · have hsorted := hs.sorted
    rw [hkeys₀] at hsorted
    rw [hkeys]
    exact hsorted.sublist ((List.sublist_cons_self _ _).append_left _)
  · show s₁.tree.treeSize - 1 = _
    rw [hU.size, hs.size, hptrs, List.length_erase_of_mem hnt]

open Shape BstreeIterator in
theorem erase_run_at {lt : α → α → Bool} (hk : KeyOrder comp lt) (hirr : ∀ a, lt a a = false)
    {c : Path} {l r : Shape} (hh : Hangs s.store.heap none (c.plug (.node l n r)))
    (hs : SearchOk comp s (c.plug (.node l n r))) (hnd : s.store.heap n = some nd)
    (hleaf : nd.left = none → nd.right = none → s.tree.treeRoot ≠ some n)
    (htwo : nd.left ≠ none → nd.right ≠ none → s.tree.treeRoot = some n) :
    ∃ N s' u, u.ptrs = l.ptrs ++ r.ptrs ∧ (∀ fuel, N ≤ fuel →
      erase comp fuel ⟨some n, .valid⟩ s = (.ok (successorIn (c.plug (.node l n r)).ptrs n), s')) ∧
        ErasesNode comp s s' (c.plug (.node l n r)) (c.plug u) n ∧
        s'.tree.beginIt = if nd.left = none ∧ s.tree.beginIt.equal ⟨some n, .valid⟩ = true
          then { s.tree.beginIt with iter := nd.parent } else s.tree.beginIt := by
  obtain ⟨hc, ⟨v, hv⟩, hl, hr⟩ := Path.hangs_plug.mp hh
  obtain rfl : nd = _ := Option.some.inj (hnd.symm.trans hv)
  have hlr : (l.keys s.store.heap ++ r.keys s.store.heap).Pairwise (lt · · = true) := by
    have hsub : (l.ptrs ++ r.ptrs).Sublist (c.plug (.node l n r)).ptrs := by
      rw [Path.ptrs_plug_node]
      exact (List.sublist_append_right _ _).append
        ((List.sublist_append_left _ _).trans (List.sublist_cons_self _ _))
    exact (hk.pairwise_lt hs.sorted).sublist (List.filterMap_append _ _ _ ▸ hsub.filterMap _)
  obtain ⟨u, hu, N₂, s₁, hbg, hrun⟩ := unlinks_node comp hk hirr hc hv hl hr hs.nodup hs.root hlr
    (fun hl0 hr0 hc0 => hleaf (by rw [hl0]; rfl) (by rw [hr0]; rfl) (by subst hc0; exact hs.root))
    (fun hl0 hr0 => by
      by_contra hc0
      exact Path.rootPtr_plug_ne hc0 hs.nodup (hs.root.symm.trans
        (htwo (mt rootPtr_eq_none_iff.mp hl0) (mt rootPtr_eq_none_iff.mp hr0))))
  obtain ⟨N₁, hinc⟩ := incrTo_successorIn hh hs.nodup (Path.mem_plug_of_mem (x := n) (by simp))
  have hU := (hrun N₂ le_rfl).2
  refine ⟨max N₁ N₂, _, u, hu, fun fuel hf => ?_, unlinks_erases comp hh hs (by rw [hv]; rfl) hU hu, ?_⟩
  swap
  · show s₁.tree.beginIt = _
    simp only [hbg, rootPtr_eq_none_iff]
  simp only [erase, ptrOf, bind_apply, pure_apply, getHeap_apply, liftE_apply,
    hinc fuel ((Nat.le_max_left _ _).trans hf), readNode_apply, deref_some hv,
    (hrun fuel ((Nat.le_max_right _ _).trans hf)).1, modifyTree_apply, deallocate,
    deref_some (hU.self.trans hv), modifyHeap, modify_apply]

open BstreeIterator in
/-- `erase (pos)` under the part of the invariant it reads (exact links, keys increasing), where
the code is right: from some loop bound on it returns `++pos` and leaves what `ErasesNode`
asks; `_begin` takes `n`'s parent when it was at `n` and `n` has no left child. -/
theorem erase_run {lt : α → α → Bool} (hk : KeyOrder comp lt) (hirr : ∀ a, lt a a = false)
    {t : Shape} (hh : Hangs s.store.heap none t) (hs : SearchOk comp s t) (hn : n ∈ t.ptrs)
    (hnd : s.store.heap n = some nd)
    (hleaf : nd.left = none → nd.right = none → s.tree.treeRoot ≠ some n)
    (htwo : nd.left ≠ none → nd.right ≠ none → s.tree.treeRoot = some n) :
    ∃ N s' t', (∀ fuel, N ≤ fuel →
      erase comp fuel ⟨some n, .valid⟩ s = (.ok (successorIn t.ptrs n), s')) ∧
        ErasesNode comp s s' t t' n ∧
        s'.tree.beginIt = if nd.left = none ∧ s.tree.beginIt.equal ⟨some n, .valid⟩ = true
          then { s.tree.beginIt with iter := nd.parent } else s.tree.beginIt := by
  obtain ⟨c, l, r, hT⟩ := Shape.Path.exists_plug .root hn
  have hT : t = c.plug (.node l n r) := hT
  subst hT
  obtain ⟨N, s', u, -, h⟩ := erase_run_at comp hk hirr hh hs hnd hleaf htwo
  exact ⟨N, s', _, h⟩

open Shape in
/-- What `erase (pos)` does with `_begin` keeps it at the first node in order unless `n` is that
node and has a right child: off the first node `_begin` stays where it is, and when the first
node goes without children its parent comes first afterwards. -/
theorem beginAt_erase {t : Shape} (hh : Hangs s.store.heap none t) (hnodup : t.ptrs.Nodup)
    (hn : n ∈ t.ptrs) (hnd : s.store.heap n = some nd) (hb : s.tree.BeginAt t.ptrs)
    (hkeep : s.tree.beginIt = ⟨some n, .valid⟩ → nd.right = none) {b : Bstree}
    (hb' : b.beginIt = if nd.left = none ∧ s.tree.beginIt.equal ⟨some n, .valid⟩ = true
      then { s.tree.beginIt with iter := nd.parent } else s.tree.beginIt) :
    b.BeginAt (t.ptrs.erase n) := by
  obtain ⟨c, l, r, hT⟩ := Path.exists_plug .root hn
  have hT : t = c.plug (.node l n r) := hT
  subst hT
  obtain ⟨-, ⟨v, hv⟩, -⟩ := Path.hangs_plug.mp hh
  obtain rfl : nd = _ := Option.some.inj (hnd.symm.trans hv)
  obtain ⟨a, rest, hp⟩ := List.exists_cons_of_ne_nil (List.ne_nil_of_mem hn)
  have ha := hb a (by rw [hp]; rfl)
  intro x hx
  by_cases han : a = n
  · subst han
    obtain ⟨hbefore, rfl⟩ := Path.first_of_head hnodup (by rw [hp]; rfl)
    obtain rfl : r = .leaf := rootPtr_eq_none_iff.mp (hkeep ha)
    simp only [Path.ptrs_plug_node, hbefore, ptrs_leaf, List.append_nil, List.nil_append,
      List.erase_cons_head] at hx
    rw [hb', ha]
    simp [← Path.head_after hbefore, hx]
  · rw [hp, List.erase_cons_tail (by simpa using han), List.head?_cons, Option.some.injEq] at hx
    subst hx
    rw [hb', ha]
    simp [han]

open BstreeIterator in
/-- `erase (pos)` at a node `n` of a tree that satisfies the invariant, with a comparator that
returns and is transitive and irreflexive, where the code is right: a leaf off the root, a node
with one child anywhere, a node with two children at the root. From some loop bound on it
returns `++pos` (the next node in order, or after-end at `n` itself when `n` is the last) and
leaves the tree without `n`: exact links, keys increasing, the old addresses in order without
`n`, the old keys without `n`'s, `n` released and every other cell as it was but for links. -/
theorem erase_correct {lt : α → α → Bool} (hk : KeyOrder comp lt) (hirr : ∀ a, lt a a = false)
    {t : Shape} (hr : RepOk comp s t) (hn : n ∈ t.ptrs) (hnd : s.store.heap n = some nd)
    (hleaf : nd.left = none → nd.right = none → s.tree.treeRoot ≠ some n)
    (htwo : nd.left ≠ none → nd.right ≠ none → s.tree.treeRoot = some n) :
    ∃ N s' t', (∀ fuel, N ≤ fuel →
      erase comp fuel ⟨some n, .valid⟩ s = (.ok (successorIn t.ptrs n), s')) ∧
        ErasesNode comp s s' t t' n ∧
        s'.tree.beginIt = if nd.left = none ∧ s.tree.beginIt.equal ⟨some n, .valid⟩ = true
          then { s.tree.beginIt with iter := nd.parent } else s.tree.beginIt :=
  erase_run comp hk hirr hr.hangs hr.searchOk hn hnd hleaf htwo

/-- `erase (pos)` at the node of `10` in the tree of `40`, `20`, `10`, `30`: a leaf off the
root. -/
theorem fortyTwentyTenThirty_erase_ten :
    fortyTwentyTenThirty.store.heap 2 = some ⟨10, none, none, some 1⟩ ∧
      ∃ N s' t', (∀ fuel, N ≤ fuel → erase stdLess fuel ⟨some 2, .valid⟩ fortyTwentyTenThirty =
        (.ok (BstreeIterator.successorIn fortyTwentyShape.ptrs 2), s')) ∧
        ErasesNode stdLess fortyTwentyTenThirty s' fortyTwentyShape t' 2 ∧
        s'.tree.beginIt = if (⟨10, none, none, some 1⟩ : Node Nat).left = none ∧
            fortyTwentyTenThirty.tree.beginIt.equal ⟨some 2, .valid⟩ = true
          then { fortyTwentyTenThirty.tree.beginIt with iter := some 1 }
          else fortyTwentyTenThirty.tree.beginIt :=
  have hnd : fortyTwentyTenThirty.store.heap 2 = some ⟨10, none, none, some 1⟩ := by decide
  ⟨hnd, erase_correct stdLess stdLess_keyOrder (fun a => by simp) fortyTwentyTenThirty_repOk
    (by decide) hnd (by decide) (by decide)⟩

open Shape BstreeIterator in
/-- `erase (pos)` at the first node, with `_begin` there, when the node has a right child: the
call returns and leaves the tree without the node, but `_begin` takes the node's parent, while
the first node afterwards is the first of that right subtree. So `begin ()` is not the first
node any more: a null valid iterator at the root, an iterator past the right subtree's keys
elsewhere. -/
theorem erase_first_begin_at_parent {lt : α → α → Bool} (hk : KeyOrder comp lt)
    (hirr : ∀ a, lt a a = false) {t : Shape} (hh : Hangs s.store.heap none t)
    (hs : SearchOk comp s t) (hfirst : t.ptrs.head? = some n)
    (hbegin : s.tree.beginIt = ⟨some n, .valid⟩) (hnd : s.store.heap n = some nd)
    (hright : nd.right ≠ none) :
    ∃ N s' t', (∀ fuel, N ≤ fuel →
      erase comp fuel ⟨some n, .valid⟩ s = (.ok (successorIn t.ptrs n), s')) ∧
        ErasesNode comp s s' t t' n ∧ s'.tree.beginIt = ⟨nd.parent, .valid⟩ ∧
        t'.ptrs.head? ≠ nd.parent := by
  obtain ⟨c, l, r, hT⟩ := Path.exists_plug .root (List.mem_of_mem_head? hfirst)
  have hT : t = c.plug (.node l n r) := hT
  subst hT
  obtain ⟨-, ⟨v, hv⟩, -⟩ := Path.hangs_plug.mp hh
  obtain rfl : nd = _ := Option.some.inj (hnd.symm.trans hv)
  obtain ⟨-, -, hdis⟩ := Path.nodup_split hs.nodup
  obtain ⟨hbefore, rfl⟩ := Path.first_of_head hs.nodup hfirst
  obtain ⟨N, s', u, hu, hrun, hE, hbg⟩ := erase_run_at comp hk hirr hh hs hnd
    (fun _ h => absurd h hright) (fun h => absurd rfl h)
  refine ⟨N, s', _, hrun, hE, by simp [hbg, hbegin], ?_⟩
  obtain ⟨x, hx⟩ : ∃ x, r.rootPtr = some x := Option.ne_none_iff_exists'.mp hright
  have hne : r.ptrs ≠ [] := List.ne_nil_of_mem (rootPtr_mem hx)
  rw [Path.ptrs_plug_of_eq hu, hbefore, ptrs_leaf, List.append_nil, List.nil_append,
    List.head?_append_of_ne_nil _ hne]
  intro hpar
  obtain ⟨y, hy⟩ := Option.ne_none_iff_exists'.mp (mt List.head?_eq_none_iff.mp hne)
  have hyq : some y = c.parent := hy ▸ hpar
  obtain ⟨q, hq, hqc⟩ := Path.parent_some (c := c) fun h0 => by subst h0; cases hyq
  rw [hq] at hyq
  cases hyq
  exact hdis y (List.mem_cons_of_mem _ (List.mem_append_right _ (List.mem_of_mem_head? hy))) hqc

/-- `insert (10)` and `insert (20)` on an empty `bstree <int>`: `10` is the root and first, with
the right child `20`. -/
def insertTenTwenty : State Nat := (State.empty.after (insert stdLess 20 10)).after (insert stdLess 20 20)

theorem insertTenTwenty_erase_first :
    Hangs insertTenTwenty.store.heap none (.node .leaf 0 (.node .leaf 1 .leaf)) ∧
      SearchOk stdLess insertTenTwenty (.node .leaf 0 (.node .leaf 1 .leaf)) ∧
      insertTenTwenty.tree.beginIt = ⟨some 0, .valid⟩ ∧
      insertTenTwenty.store.heap 0 = some ⟨10, none, some 1, none⟩ ∧
      ∃ N s' t', (∀ fuel, N ≤ fuel → erase stdLess fuel ⟨some 0, .valid⟩ insertTenTwenty =
        (.ok (BstreeIterator.successorIn [0, 1] 0), s')) ∧
        ErasesNode stdLess insertTenTwenty s' (.node .leaf 0 (.node .leaf 1 .leaf)) t' 0 ∧
        s'.tree.beginIt = ⟨none, .valid⟩ ∧ t'.ptrs.head? ≠ none :=
  have hh : Hangs insertTenTwenty.store.heap none (.node .leaf 0 (.node .leaf 1 .leaf)) :=
    ⟨⟨10, by decide⟩, trivial, ⟨20, by decide⟩, trivial, trivial⟩
  have hs : SearchOk stdLess insertTenTwenty (.node .leaf 0 (.node .leaf 1 .leaf)) :=
    ⟨hh.links, by decide, by decide, by decide, by decide⟩
  have hnd : insertTenTwenty.store.heap 0 = some ⟨10, none, some 1, none⟩ := by decide
  ⟨hh, hs, by decide, hnd, erase_first_begin_at_parent stdLess stdLess_keyOrder (fun a => by simp)
    hh hs rfl (by decide) hnd nofun⟩

open Shape in
/-- `erase (key)` on a non-empty tree under the part of the invariant it reads: the descent
`count` and `find` make decides the call. -/
theorem eraseKey_run {lt : α → α → Bool} (hk : KeyOrder comp lt) (hirr : ∀ a, lt a a = false)
    {t : Shape} (hh : Hangs s.store.heap none t) (hs : SearchOk comp s t) (ht : t ≠ .leaf) (key : α) :
    if (t.keys s.store.heap).any (equivBy lt key) then
      ∃ n nd, n ∈ t.ptrs ∧ s.store.heap n = some nd ∧ equivBy lt key nd.value = true ∧
        ((nd.left = none → nd.right = none → s.tree.treeRoot ≠ some n) →
          (nd.left ≠ none → nd.right ≠ none → s.tree.treeRoot = some n) →
          ∃ N s' t', (∀ fuel, N ≤ fuel → eraseKey comp fuel key s = (.ok 1, s')) ∧
            ErasesNode comp s s' t t' n ∧
            s'.tree.beginIt = if nd.left = none ∧ s.tree.beginIt.equal ⟨some n, .valid⟩ = true
              then { s.tree.beginIt with iter := nd.parent } else s.tree.beginIt)
    else ∃ N, ∀ fuel, N ≤ fuel → eraseKey comp fuel key s = (.ok 0, s) := by
  obtain ⟨res, hres⟩ := Option.ne_none_iff_exists'.mp (mt (slot_eq_none_iff lt key hh.links).mp ht)
  obtain ⟨N₁, hN⟩ := descend_eq comp hk hs hres
  cases res with
  | found x =>
    obtain ⟨nd, hx, hnd, he⟩ := slot_found lt key hh.links hres
    rw [if_pos (List.any_eq_true.mpr ⟨_, mem_keys hx hnd, he⟩)]
    refine ⟨x, nd, hx, hnd, he, fun hleaf htwo => ?_⟩
    obtain ⟨N₂, s', t', hrun, hE⟩ := erase_run comp hk hirr hh hs hx hnd hleaf htwo
    refine ⟨max N₁ N₂, s', t', fun fuel hf => ?_, hE⟩
    simp only [eraseKey, bind_apply, hN fuel ((Nat.le_max_left _ _).trans hf),
      hrun fuel ((Nat.le_max_right _ _).trans hf), pure_apply]
  | vacant d m =>
    rw [if_neg (by simp [slot_vacant lt key hk.trans hh.links (hk.pairwise_lt hs.sorted) hres])]
    exact ⟨N₁, fun fuel hf => by simp only [eraseKey, bind_apply, hN fuel hf, pure_apply]⟩

/-- `erase (key)` on a non-empty tree that satisfies the invariant, with a comparator that
returns and is transitive and irreflexive. With no key equivalent to `key` it returns `0` from
some loop bound on and changes nothing. Otherwise the node `n` holding one is found, and where
`erase (pos)` is right at `n` the call returns `1` and leaves the tree without `n`. -/
theorem eraseKey_correct {lt : α → α → Bool} (hk : KeyOrder comp lt) (hirr : ∀ a, lt a a = false)
    {t : Shape} (hr : RepOk comp s t) (ht : t ≠ .leaf) (key : α) :
    if (t.keys s.store.heap).any (equivBy lt key) then
      ∃ n nd, n ∈ t.ptrs ∧ s.store.heap n = some nd ∧ equivBy lt key nd.value = true ∧
        ((nd.left = none → nd.right = none → s.tree.treeRoot ≠ some n) →
          (nd.left ≠ none → nd.right ≠ none → s.tree.treeRoot = some n) →
          ∃ N s' t', (∀ fuel, N ≤ fuel → eraseKey comp fuel key s = (.ok 1, s')) ∧
            ErasesNode comp s s' t t' n ∧
            s'.tree.beginIt = if nd.left = none ∧ s.tree.beginIt.equal ⟨some n, .valid⟩ = true
              then { s.tree.beginIt with iter := nd.parent } else s.tree.beginIt)
    else ∃ N, ∀ fuel, N ≤ fuel → eraseKey comp fuel key s = (.ok 0, s) :=
  eraseKey_run comp hk hirr hr.hangs hr.searchOk ht key

theorem fortyTwentyTenThirty_eraseKey :
    fortyTwentyShape ≠ .leaf ∧
      if (fortyTwentyShape.keys fortyTwentyTenThirty.store.heap).any (equivBy (fun a b => decide (a < b)) 30)
      then ∃ n nd, n ∈ fortyTwentyShape.ptrs ∧ fortyTwentyTenThirty.store.heap n = some nd ∧
        equivBy (fun a b => decide (a < b)) 30 nd.value = true ∧
        ((nd.left = none → nd.right = none → fortyTwentyTenThirty.tree.treeRoot ≠ some n) →
          (nd.left ≠ none → nd.right ≠ none → fortyTwentyTenThirty.tree.treeRoot = some n) →
          ∃ N s' t', (∀ fuel, N ≤ fuel → eraseKey stdLess fuel 30 fortyTwentyTenThirty = (.ok 1, s')) ∧
            ErasesNode stdLess fortyTwentyTenThirty s' fortyTwentyShape t' n ∧
            s'.tree.beginIt = if nd.left = none ∧
                fortyTwentyTenThirty.tree.beginIt.equal ⟨some n, .valid⟩ = true
              then { fortyTwentyTenThirty.tree.beginIt with iter := nd.parent }
              else fortyTwentyTenThirty.tree.beginIt)
      else ∃ N, ∀ fuel, N ≤ fuel → eraseKey stdLess fuel 30 fortyTwentyTenThirty = (.ok 0, fortyTwentyTenThirty) :=
  ⟨by decide, eraseKey_correct stdLess stdLess_keyOrder (fun a => by simp) fortyTwentyTenThirty_repOk
    (by decide) 30⟩

end Bstree
end Dsa
