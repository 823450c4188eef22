import Dsa.Bstree.Traversal
import Mathlib.Order.Defs.Unbundled

/-! # The container object and its private members

The fields `_tree_root`, `_tree_size`, `_begin`, `_end` of `bstree`, and the private members
that allocate, link and release nodes. A member function is a `Method`: it runs in `Exec`
over the memory of the node allocator together with the object `*this`.

Where the source compares a `node *` with an iterator (`parent == this->_begin`) the
pointer is converted by `bstree_iterator (Node *)`, whose state is `valid`, and
`operator==` decides; `unique_ptr::reset` hands the old root to `tree_delete`.
-/
namespace Dsa

structure Bstree where
  treeRoot : Option Ptr
  treeSize : Nat
  beginIt : BstreeIterator
  endIt : BstreeIterator
  deriving DecidableEq, Repr

namespace Bstree

/-- The default constructor: no root, size zero, both cached iterators singular. -/
def empty : Bstree := ⟨none, 0, .singular, .singular⟩

/-- `_begin` for the left side, `_end` for the right. -/
def cache (b : Bstree) : Dir → BstreeIterator
  | .left => b.beginIt
  | .right => b.endIt

def setCache (b : Bstree) : Dir → BstreeIterator → Bstree
  | .left, it => { b with beginIt := it }
  | .right, it => { b with endIt := it }

@[simp] theorem cache_left (b : Bstree) : b.cache .left = b.beginIt := rfl
@[simp] theorem cache_right (b : Bstree) : b.cache .right = b.endIt := rfl
@[simp] theorem setCache_left (b : Bstree) (it : BstreeIterator) :
    b.setCache .left it = { b with beginIt := it } := rfl
@[simp] theorem setCache_right (b : Bstree) (it : BstreeIterator) :
    b.setCache .right it = { b with endIt := it } := rfl

end Bstree

/-- The memory of the node allocator and the object `*this`. -/
structure State (α : Type) where
  store : Store α
  tree : Bstree

/-- A member function of `bstree`. -/
abbrev Method (α β : Type) := Exec (State α) β

/-- `_begin` valid at the first address and `_end` after-end at the last; on an empty tree
`begin () == end ()`. -/
def Bstree.CachesOk (b : Bstree) : List Ptr → Prop
  | [] => b.beginIt.equal b.endIt = true
  | a :: rest => b.beginIt = ⟨some a, .valid⟩ ∧ b.endIt = ⟨(a :: rest).getLast?, .afterEnd⟩

instance (b : Bstree) : (xs : List Ptr) → Decidable (b.CachesOk xs)
  | [] => inferInstanceAs (Decidable (_ = true))
  | _ :: _ => inferInstanceAs (Decidable (_ ∧ _))

theorem Bstree.CachesOk.ends {b : Bstree} {a : Ptr} {rest : List Ptr} (hc : b.CachesOk (a :: rest)) :
    ∃ m, (a :: rest).getLast? = some m ∧ b.beginIt = ⟨some a, .valid⟩ ∧
      b.endIt = ⟨some m, .afterEnd⟩ :=
  have hm := List.getLast?_eq_getLast (a :: rest) (List.cons_ne_nil _ _)
  ⟨_, hm, hc.1, hc.2.trans (by rw [hm])⟩

/-- The representation invariant, for the shape `t` the node graph is meant to have: exact
child and parent links from `_tree_root`, no node twice, keys increasing in order under the
comparator, `_tree_size` the number of nodes, and the cached iterators at the ends. -/
structure RepOk {α : Type} (comp : α → α → Except Fault Bool) (s : State α) (t : Shape) :
    Prop where
  hangs : Hangs s.store.heap none t
  root : s.tree.treeRoot = t.rootPtr
  nodup : t.ptrs.Nodup
  sorted : (t.keys s.store.heap).Pairwise fun a b => comp a b = .ok true
  size : s.tree.treeSize = t.ptrs.length
  caches : s.tree.CachesOk t.ptrs

theorem RepOk.endIt_eq {α : Type} {comp : α → α → Except Fault Bool} {s : State α} {t : Shape}
    (hr : RepOk comp s t) {m : Ptr} (hm : t.ptrs.getLast? = some m) :
    s.tree.treeSize ≠ 0 ∧ s.tree.endIt = ⟨some m, .afterEnd⟩ := by
  have hc := hr.caches
  cases hp : t.ptrs with
  | nil => simp [hp] at hm
  | cons a rest =>
    rw [hp] at hc hm
    exact ⟨by simp [hr.size, hp], by rw [hc.2, hm]⟩

/-- A default-constructed tree in a memory with nothing allocated. -/
def State.empty {α : Type} : State α := ⟨Store.empty, Bstree.empty⟩

theorem State.empty_repOk {α : Type} (comp : α → α → Except Fault Bool) :
    RepOk comp (State.empty : State α) .leaf :=
  ⟨trivial, rfl, List.nodup_nil, List.Pairwise.nil, rfl, rfl⟩

/-- The state a call leaves, whether it returned or not. -/
def State.after {α β : Type} (s : State α) (m : Method α β) : State α := (m s).2

/-- `std::less <Key>`, the default comparator: it never throws. -/
def stdLess {α : Type} [LT α] [DecidableRel (α := α) (· < ·)] (a b : α) : Except Fault Bool :=
  .ok (decide (a < b))

namespace Bstree
variable {α : Type}

def getHeap : Method α (Heap α) := do pure (← get).store.heap
def getTree : Method α Bstree := do pure (← get).tree

def modifyTree (f : Bstree → Bstree) : Method α Unit :=
  modify fun s => { s with tree := f s.tree }

def modifyHeap (f : Heap α → Heap α) : Method α Unit :=
  modify fun s => { s with store := { s.store with heap := f s.store.heap } }

@[simp] theorem getHeap_apply (s : State α) : (getHeap : Method α (Heap α)) s = (.ok s.store.heap, s) :=
  rfl
@[simp] theorem getTree_apply (s : State α) : (getTree : Method α Bstree) s = (.ok s.tree, s) := rfl
@[simp] theorem modifyTree_apply (f : Bstree → Bstree) (s : State α) :
    modifyTree f s = (.ok (), { s with tree := f s.tree }) := rfl

theorem getTree_bind {β : Type} (f : Bstree → Method α β) (s : State α) :
    (getTree >>= f) s = f s.tree s := rfl
theorem getHeap_bind {β : Type} (f : Heap α → Method α β) (s : State α) :
    (getHeap >>= f) s = f s.store.heap s := rfl

/-- `*p`. -/
def readNode (p : Option Ptr) : Method α (Node α) := do liftE (deref (← getHeap) p)

@[simp] theorem readNode_apply (p : Option Ptr) (s : State α) :
    readNode p s = (deref s.store.heap p, s) := by
  simp only [readNode, bind_apply, getHeap_apply]
  exact liftE_apply _ _

theorem readNode_bind_of {β : Type} {f : Node α → Method α β} {s : State α} {n : Ptr}
    {nd : Node α} (hn : s.store.heap n = some nd) : (readNode (some n) >>= f) s = f nd s := by
  rw [bind_apply, readNode_apply, deref_some hn]

/-- A pointer about to be dereferenced: null is undefined behaviour. -/
def ptrOf : Option Ptr → Method α Ptr
  | some p => pure p
  | none => throw .undefined

theorem ptrOf_eq_ok {p : Option Ptr} {n : Ptr} {s s' : State α} :
    ptrOf p s = (.ok n, s') ↔ p = some n ∧ s' = s := by
  cases p with
  | none => exact ⟨fun h => (by cases h), fun ⟨h, _⟩ => (by cases h)⟩
  | some q => exact ⟨fun h => (by cases h; exact ⟨rfl, rfl⟩), fun ⟨h, e⟩ => (by cases h; cases e; rfl)⟩

/-- `p->field = ...` through a pointer that must be live. -/
def writeNode (p : Option Ptr) (f : Node α → Node α) : Method α Unit := do
  let nd ← readNode p
  let q ← ptrOf p
  modifyHeap (·.write q (some (f nd)))

def setChild (d : Dir) (p c : Option Ptr) : Method α Unit := writeNode p (·.setChild d c)
def setParent (p q : Option Ptr) : Method α Unit := writeNode p ({ · with parent := q })

theorem writeNode_eq_ok {p : Option Ptr} {f : Node α → Node α} {u : Unit} {s s' : State α}
    (h : writeNode p f s = (.ok u, s')) : ∃ q nd, p = some q ∧ s.store.heap q = some nd ∧
      s'.store.heap = s.store.heap.write q (some (f nd)) := by
  obtain ⟨nd, _, hr, h₁⟩ := bind_eq_ok.mp h
  rw [readNode_apply] at hr
  obtain ⟨hd, rfl⟩ := Prod.mk.inj_iff.mp hr
  obtain ⟨q, _, hq, h₂⟩ := bind_eq_ok.mp h₁
  obtain ⟨rfl, rfl⟩ := ptrOf_eq_ok.mp hq
  obtain ⟨-, rfl⟩ := Prod.mk.inj_iff.mp h₂
  obtain ⟨_, ⟨⟩, hnd⟩ := deref_eq_ok.mp hd
  exact ⟨q, nd, rfl, hnd, rfl⟩

theorem setChild_parents {d : Dir} {p c : Option Ptr} {u : Unit} {s s' : State α}
    (h : setChild d p c s = (.ok u, s')) (x : Ptr) :
    (s'.store.heap x).map Node.parent = (s.store.heap x).map Node.parent := by
  obtain ⟨q, nd, -, hnd, he⟩ := writeNode_eq_ok h
  rw [he]
  by_cases hx : x = q
  · subst hx
    simp [hnd]
  · rw [Heap.write_ne _ _ hx]

theorem setParent_other {p : Ptr} {q : Option Ptr} {u : Unit} {s s' : State α}
    (h : setParent (some p) q s = (.ok u, s')) {x : Ptr} (hx : x ≠ p) :
    s'.store.heap x = s.store.heap x := by
  obtain ⟨_, _, ⟨⟩, -, he⟩ := writeNode_eq_ok h
  rw [he, Heap.write_ne _ _ hx]

/-- `assert (c)`, with assertions compiled in. -/
def assertThat (c : Bool) : Method α Unit := if c then pure () else throw .assertFailed

/-- `node_create`: allocate and construct a childless node. -/
def nodeCreate (parent : Option Ptr) (v : α) : Method α Ptr :=
  modifyGet fun s =>
    let (p, st) := s.store.alloc ⟨v, none, none, parent⟩
    (p, { s with store := st })

/-- `(&n->value)->~value_type (); alloc.deallocate (n, 1);` -- releasing a node that is not
live is undefined behaviour. -/
def deallocate (n : Ptr) : Method α Unit := do
  let _ ← readNode (some n)
  modifyHeap (·.write n none)

theorem deallocate_heap {n : Ptr} {u : Unit} {s s' : State α} (h : deallocate n s = (.ok u, s')) :
    s'.store.heap = s.store.heap.write n none := by
  obtain ⟨_, _, hr, h⟩ := bind_eq_ok.mp h
  rw [readNode_apply] at hr
  obtain ⟨-, rfl⟩ := Prod.mk.inj_iff.mp hr
  obtain ⟨-, rfl⟩ := Prod.mk.inj_iff.mp h
  rfl

/-- One round of `tree_delete`'s loop: descend to a leaf, unlink it from its parent, release
it, and continue from the parent; the memory travels with the loop. -/
def treeDeleteStep : Heap α × Ptr → Except Fault ((Heap α × Ptr) ⊕ Heap α)
  | (h, n) => do
    let nd ← deref h (some n)
    match nd.left, nd.right with
    | some l, _ => pure (.inl (h, l))
    | none, some r => pure (.inl (h, r))
    | none, none => do
      let h' ← match nd.parent with
        | none => pure h
        | some p => do
          let pn ← deref h (some p)
          if pn.left = some n then pure (h.write p (some { pn with left := none }))
          else if pn.right = some n then pure (h.write p (some { pn with right := none }))
          else pure h
      match nd.parent with
      | none => pure (.inr (h'.write n none))
      | some p => pure (.inl (h'.write n none, p))

variable (fuel : Nat)

/-- `tree_delete (n, alloc)`. -/
def treeDelete : Option Ptr → Method α Unit
  | none => pure ()
  | some n => do
    let h ← liftE (loop treeDeleteStep fuel ((← getHeap), n))
    modifyHeap fun _ => h

/-- `_tree_root.reset (p)`: store the new root, then hand the old one to `tree_delete`. -/
def resetRoot (p : Option Ptr) : Method α Unit := do
  let old := (← getTree).treeRoot
  modifyTree ({ · with treeRoot := p })
  treeDelete fuel old

/-- `make_root (value)`. -/
def makeRoot (v : α) : Method α Unit := do
  let p ← nodeCreate none v
  resetRoot fuel (some p)
  modifyTree fun b => { b with beginIt := ⟨some p, .valid⟩, endIt := ⟨some p, .afterEnd⟩, treeSize := 1 }

/-- `if (x == this->_begin) this->_begin = x->field;` and its `_end` twin: if the cache of
side `d` is the valid iterator at `x`, it takes a pointer read from `*x` and keeps its state
(`operator= (Node *)`); the result says whether it moved. -/
def moveCache (d : Dir) (x : Option Ptr) (field : Node α → Option Ptr) : Method α Bool := do
  let b ← getTree
  if (b.cache d).equal ⟨x, .valid⟩ then
    let xn ← readNode x
    modifyTree (·.setCache d { b.cache d with iter := field xn })
    pure true
  else pure false

theorem moveCache_apply (d : Dir) (x : Option Ptr) (field : Node α → Option Ptr) (s : State α) :
    moveCache d x field s =
      if (s.tree.cache d).equal ⟨x, .valid⟩ then
        match deref s.store.heap x with
        | .ok xn => (.ok true, { s with tree := s.tree.setCache d { s.tree.cache d with iter := field xn } })
        | .error e => (.error e, s)
      else (.ok false, s) := by
  simp only [moveCache, bind_apply, getTree_apply]
  split
  · simp only [bind_apply, readNode_apply]
    rcases deref s.store.heap x with e | xn <;> rfl
  · rfl

/-- The tail of `insert_left` / `insert_right`: count the node, and if the parent was the
cached iterator of that side, point the cache at the new child. -/
def cacheAfterInsert (d : Dir) (parent : Option Ptr) : Method α Unit := do
  modifyTree fun b => { b with treeSize := b.treeSize + 1 }
  let _ ← moveCache d parent (·.child d)

/-- `insert_left` / `insert_right` with a value: a new leaf under `parent`. -/
def insertSide (d : Dir) (parent : Option Ptr) (v : α) : Method α Unit := do
  let c ← nodeCreate parent v
  setChild d parent (some c)
  cacheAfterInsert d parent

/-- `insert_left` / `insert_right` with a node already built. -/
def insertNodeSide (d : Dir) (parent : Option Ptr) (n : Ptr) : Method α Unit := do
  setChild d parent (some n)
  setParent (some n) parent
  cacheAfterInsert d parent

def insertLeft : Option Ptr → α → Method α Unit := insertSide .left
def insertRight : Option Ptr → α → Method α Unit := insertSide .right
def insertLeftNode : Option Ptr → Ptr → Method α Unit := insertNodeSide .left
def insertRightNode : Option Ptr → Ptr → Method α Unit := insertNodeSide .right

/-- `set_iterators`: `_begin` gets the leftmost node by pointer assignment, which keeps its
state; `_end` is rebuilt after-end at the rightmost node. -/
def setIterators : Method α Unit := do
  let b ← getTree
  if b.treeSize > 0 then
    let h ← getHeap
    let root ← ptrOf b.treeRoot
    let l ← liftE (loop (BstreeIterator.spine h .left) fuel root)
    modifyTree fun b => { b with beginIt := { b.beginIt with iter := some l } }
    let r ← liftE (loop (BstreeIterator.spine h .right) fuel root)
    modifyTree ({ · with endIt := ⟨some r, .afterEnd⟩ })
  else
    modifyTree ({ · with beginIt := ⟨none, .valid⟩, endIt := ⟨none, .valid⟩ })

section Frame
variable {β γ : Type} {R : Bstree → Bstree → Prop}

/-- Every run of `m`, whether it returns or not, relates the object `*this` before it to the
object after it by `R`. -/
def Guarantees (R : Bstree → Bstree → Prop) (m : Method α β) : Prop :=
  ∀ s, R s.tree (m s).2.tree

/-- A call that leaves the object `*this` as it found it, whatever it does to memory. -/
def KeepsTree (m : Method α β) : Prop := Guarantees (· = ·) m

theorem Guarantees.bind [IsTrans Bstree R] {m : Method α β} {f : β → Method α γ}
    (hm : Guarantees R m) (hf : ∀ b, Guarantees R (f b)) : Guarantees R (m >>= f) := by
  intro s
  rw [bind_apply]
  rcases hms : m s with ⟨_ | b, s'⟩
  · simpa [hms] using hm s
  · exact trans_of R (by simpa [hms] using hm s) (hf b s')

theorem Guarantees.of_keepsTree [IsRefl Bstree R] {m : Method α β} (hm : KeepsTree m) :
    Guarantees R m := fun s => by
  rw [← hm s]
  exact refl_of R _

theorem guarantees_modifyTree [IsRefl Bstree R] {f : Bstree → Bstree} (hf : ∀ b, R b (f b)) :
    Guarantees R (modifyTree (α := α) f) := fun s => hf s.tree

theorem guarantees_ite {c : Prop} [Decidable c] {m m' : Method α β} (hm : Guarantees R m)
    (hm' : Guarantees R m') : Guarantees R (if c then m else m') := by
  split <;> assumption

theorem Guarantees.tryCatch [IsTrans Bstree R] {x : Method α β} {k : Fault → Method α β}
    (hx : Guarantees R x) (hk : ∀ e, Guarantees R (k e)) : Guarantees R (tryCatch x k) := by
  intro s
  rw [tryCatch_apply]
  rcases hxs : x s with ⟨_ | b, s'⟩
  · exact trans_of R (by simpa [hxs] using hx s) (hk _ s')
  · simpa [hxs] using hx s

theorem KeepsTree.bind {m : Method α β} {f : β → Method α γ} (hm : KeepsTree m)
    (hf : ∀ b, KeepsTree (f b)) : KeepsTree (m >>= f) :=
  Guarantees.bind hm hf

theorem keepsTree_pure (b : β) : KeepsTree (pure b : Method α β) := fun _ => rfl
theorem keepsTree_throw (e : Fault) : KeepsTree (throw e : Method α β) := fun _ => rfl
theorem keepsTree_liftE (x : Except Fault β) : KeepsTree (liftE x : Method α β) :=
  fun s => by rw [liftE_apply]
theorem guarantees_catchThrown [IsRefl Bstree R] [IsTrans Bstree R] {x : Method α β}
    {handler : Method α PUnit} (hx : Guarantees R x) (hh : Guarantees R handler) :
    Guarantees R (catchThrown x handler) :=
  hx.tryCatch fun _ => guarantees_ite (hh.bind fun _ => .of_keepsTree (keepsTree_throw _))
    (.of_keepsTree (keepsTree_throw _))

theorem keepsTree_get : KeepsTree (get : Method α (State α)) := fun _ => rfl
theorem keepsTree_modify {f : State α → State α} (hf : ∀ s, (f s).tree = s.tree) :
    KeepsTree (modify f : Method α PUnit) := fun s => (hf s).symm
theorem keepsTree_getHeap : KeepsTree (getHeap : Method α (Heap α)) := fun _ => rfl
theorem keepsTree_getTree : KeepsTree (getTree : Method α Bstree) := fun _ => rfl
theorem keepsTree_modifyHeap (f : Heap α → Heap α) : KeepsTree (modifyHeap f) := fun _ => rfl
theorem keepsTree_readNode (p : Option Ptr) : KeepsTree (readNode p : Method α (Node α)) :=
  fun s => by rw [readNode_apply]
theorem keepsTree_ptrOf (p : Option Ptr) : KeepsTree (ptrOf p : Method α Ptr) := by
  cases p <;> exact fun _ => rfl
theorem keepsTree_writeNode (p : Option Ptr) (f : Node α → Node α) : KeepsTree (writeNode p f) :=
  (keepsTree_readNode p).bind fun _ => (keepsTree_ptrOf p).bind fun _ => keepsTree_modifyHeap _
theorem keepsTree_setChild (d : Dir) (p c : Option Ptr) : KeepsTree (setChild (α := α) d p c) :=
  keepsTree_writeNode _ _
theorem keepsTree_setParent (p q : Option Ptr) : KeepsTree (setParent (α := α) p q) :=
  keepsTree_writeNode _ _
theorem keepsTree_nodeCreate (parent : Option Ptr) (v : α) : KeepsTree (nodeCreate parent v) :=
  fun _ => rfl
theorem keepsTree_deallocate (n : Ptr) : KeepsTree (deallocate (α := α) n) :=
  (keepsTree_readNode _).bind fun _ => keepsTree_modifyHeap _
theorem keepsTree_treeDelete (p : Option Ptr) : KeepsTree (treeDelete (α := α) fuel p) := by
  cases p with
  | none => exact keepsTree_pure _
  | some n => exact keepsTree_getHeap.bind fun _ => (keepsTree_liftE _).bind fun _ =>
      keepsTree_modifyHeap _

/-- `_end` stays where it is while it is after-end. -/
def EndStays (b b' : Bstree) : Prop := b.endIt.state = .afterEnd → b'.endIt = b.endIt

instance : IsRefl Bstree EndStays := ⟨fun _ _ => rfl⟩
instance : IsTrans Bstree EndStays := ⟨fun _ _ _ hab hbc ha => (hbc (hab ha ▸ ha)).trans (hab ha)⟩

theorem moveCache_endStays (d : Dir) (x : Option Ptr) (field : Node α → Option Ptr) :
    Guarantees EndStays (moveCache d x field) := by
  intro s hs
  rw [moveCache_apply]
  split
  · rename_i heq
    cases d with
    | left => rcases deref s.store.heap x with e | xn <;> rfl
    | right =>
      rcases hb : s.tree.endIt with ⟨q, st⟩
      simp only [Bstree.cache_right, hb] at heq hs
      subst hs
      simp at heq
  · rfl

theorem resetRoot_endStays (p : Option Ptr) : Guarantees EndStays (resetRoot (α := α) fuel p) :=
  (Guarantees.of_keepsTree keepsTree_getTree).bind fun _ =>
    (guarantees_modifyTree fun _ _ => rfl).bind fun _ => .of_keepsTree (keepsTree_treeDelete _ _)

theorem cacheAfterInsert_endStays (d : Dir) (parent : Option Ptr) :
    Guarantees EndStays (cacheAfterInsert (α := α) d parent) :=
  (guarantees_modifyTree fun _ _ => rfl).bind fun _ => (moveCache_endStays _ _ _).bind fun _ =>
    .of_keepsTree (keepsTree_pure _)

theorem insertSide_endStays (d : Dir) (parent : Option Ptr) (v : α) :
    Guarantees EndStays (insertSide d parent v) :=
  (Guarantees.of_keepsTree (keepsTree_nodeCreate _ _)).bind fun _ =>
    (Guarantees.of_keepsTree (keepsTree_setChild _ _ _)).bind fun _ => cacheAfterInsert_endStays _ _

theorem insertNodeSide_endStays (d : Dir) (parent : Option Ptr) (n : Ptr) :
    Guarantees EndStays (insertNodeSide (α := α) d parent n) :=
  (Guarantees.of_keepsTree (keepsTree_setChild _ _ _)).bind fun _ =>
    (Guarantees.of_keepsTree (keepsTree_setParent _ _)).bind fun _ => cacheAfterInsert_endStays _ _

end Frame

/-- `clear`. -/
def clear : Method α Unit := do
  modifyTree ({ · with treeSize := 0, beginIt := .singular, endIt := .singular })
  resetRoot fuel none

end Bstree

end Dsa
