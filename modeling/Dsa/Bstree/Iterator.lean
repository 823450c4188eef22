import Dsa.Bstree.Node

/-! # The three-state iterator

`detail::bstree_iterator`: a node pointer tagged `valid`, `after_end` (one past the last
element while still pointing at the maximum) or `invalid` (fallen off the front).
`operator++` and `operator--` walk the parent-linked node graph, each inner `while` as a
`loop`.
-/
namespace Dsa

inductive IterState
  | invalid
  | valid
  | afterEnd
  deriving DecidableEq, Repr

structure BstreeIterator where
  iter : Option Ptr
  state : IterState
  deriving DecidableEq, Repr

namespace BstreeIterator

/-- The default constructor: a singular iterator, after-end at no node. -/
def singular : BstreeIterator := ⟨none, .afterEnd⟩

/-- `operator==`: equal only in the same state, valid or after-end, at the same node. -/
def equal (a b : BstreeIterator) : Bool :=
  match a.state, b.state with
  | .valid, .valid => a.iter == b.iter
  | .afterEnd, .afterEnd => a.iter == b.iter
  | _, _ => false

@[simp] theorem equal_valid (p q : Option Ptr) : equal ⟨p, .valid⟩ ⟨q, .valid⟩ = (p == q) := rfl
@[simp] theorem equal_afterEnd (p q : Option Ptr) :
    equal ⟨p, .afterEnd⟩ ⟨q, .afterEnd⟩ = (p == q) := rfl
@[simp] theorem equal_valid_afterEnd (p q : Option Ptr) :
    equal ⟨p, .valid⟩ ⟨q, .afterEnd⟩ = false := rfl
@[simp] theorem equal_afterEnd_valid (p q : Option Ptr) :
    equal ⟨p, .afterEnd⟩ ⟨q, .valid⟩ = false := rfl

theorem iter_eq_of_equal {a b : BstreeIterator} (h : a.equal b = true) : a.iter = b.iter := by
  rcases a with ⟨p, _|_|_⟩ <;> rcases b with ⟨q, _|_|_⟩ <;> simp_all [equal]

section Walk
variable {α : Type} (h : Heap α)

/-- `while (n->child) n = n->child;` -/
def spine (d : Dir) (n : Ptr) : Except Fault (Ptr ⊕ Ptr) := do
  let nd ← deref h (some n)
  pure (match nd.child d with
    | some c => .inl c
    | none => .inr n)

/-- The ascent of `operator++` from `n`'s parent: climb while `it` is a right child; the
parent of a left child is the successor, and the root means falling off the end at `n`. -/
def ascendRight (self : BstreeIterator) (n it : Ptr) : Except Fault (Ptr ⊕ BstreeIterator) := do
  let itn ← deref h (some it)
  match itn.parent with
  | none => pure (.inr { self with iter := some n, state := .afterEnd })
  | some q => do
    let qn ← deref h (some q)
    if qn.left = some it then pure (.inr { self with iter := some q })
    else pure (.inl q)

/-- `operator++`. -/
def increment (fuel : Nat) (self : BstreeIterator) : Except Fault BstreeIterator :=
  match self.iter, self.state with
  | some n, .valid => do
    let nd ← deref h (some n)
    match nd.right with
    | some r => do
      let m ← loop (spine h .left) fuel r
      pure { self with iter := some m }
    | none =>
      match nd.parent with
      | some p => do
        let pn ← deref h (some p)
        if pn.left = some n then pure { self with iter := some p }
        else loop (ascendRight h self n) fuel p
      | none => pure { self with state := .afterEnd }
  | _, _ => pure self

/-- The ascent of `operator--`, whose loop has no `break`: at the root it marks the
iterator invalid and goes round again, above a right child it records the parent and goes
round again, and only a left child climbs on. -/
def ascendLeft : Ptr × Ptr × BstreeIterator → Except Fault ((Ptr × Ptr × BstreeIterator) ⊕ Empty)
  | (it, n, self) => do
    let itn ← deref h (some it)
    match itn.parent with
    | none => pure (.inl (it, n, { self with state := .invalid, iter := none }))
    | some q => do
      let qn ← deref h (some q)
      if qn.right = some it then pure (.inl (it, q, self))
      else pure (.inl (q, n, self))

/-- `operator--`. -/
def decrement (fuel : Nat) (self : BstreeIterator) : Except Fault BstreeIterator :=
  match self.iter, self.state with
  | some n, .valid => do
    let nd ← deref h (some n)
    match nd.left with
    | some l => do
      let m ← loop (spine h .right) fuel l
      pure { self with iter := some m }
    | none =>
      match nd.parent with
      | some p => do
        let pn ← deref h (some p)
        if pn.right = some n then pure { self with iter := some p }
        else Empty.elim <$> loop (ascendLeft h) fuel (p, n, self)
      | none => pure { self with state := .invalid, iter := none }
  | some _, .afterEnd => pure { self with state := .valid }
  | _, _ => pure self

theorem increment_of_not_valid (fuel : Nat) {self : BstreeIterator}
    (hs : self.state ≠ .valid) : increment h fuel self = .ok self := by
  rcases self with ⟨_|n, _|_|_⟩ <;> simp_all [increment]

theorem increment_mono {fuel fuel' : Nat} {it r : BstreeIterator} (hle : fuel ≤ fuel')
    (hr : increment h fuel it = .ok r) : increment h fuel' it = .ok r := by
  rcases it with ⟨_ | n, _ | _ | _⟩ <;> simp only [increment] at hr ⊢ <;> try exact hr
  rcases hd : deref h (some n) with e | nd <;>
    simp only [hd, except_ok_bind, except_error_bind] at hr ⊢
  · exact hr
  rcases hrt : nd.right with _ | r <;> simp only [hrt] at hr ⊢
  · rcases hpt : nd.parent with _ | p <;> simp only [hpt] at hr ⊢
    · exact hr
    · rcases hpd : deref h (some p) with e | pn <;>
        simp only [hpd, except_ok_bind, except_error_bind] at hr ⊢
      · exact hr
      · by_cases hl : pn.left = some n <;> simp only [hl, if_true, if_false] at hr ⊢
        · exact hr
        · exact loop_mono hle hr
  · rcases hm : loop (spine h .left) fuel r with e | m <;>
      simp only [hm, except_ok_bind, except_error_bind] at hr
    · cases hr
    · simp only [loop_mono hle hm, except_ok_bind]
      exact hr

end Walk

end BstreeIterator

end Dsa
