import Dsa.Bstree.Node
import Mathlib.Data.List.Nodup

/-! # Shapes: the tree the node graph is meant to be

A `Shape` is a binary tree of addresses. `Links h t` says the child links of the cells
in `h` form `t`; `Hangs h up t` says so with every parent link exact as well, `up` being
the parent of the root. `ptrs` is the in-order list of addresses, the order iteration is
meant to visit, and `nextAfter` reads the in-order successor off it.
-/
namespace Dsa

inductive Shape
  | leaf
  | node (l : Shape) (p : Ptr) (r : Shape)
  deriving DecidableEq, Repr

/-- The values at a list of addresses, skipping cells that are not allocated. -/
def valuesAt {α : Type} (h : Heap α) (xs : List Ptr) : List α :=
  xs.filterMap fun p => (h p).map Node.value

theorem valuesAt_cons {α : Type} {h : Heap α} {p : Ptr} {nd : Node α} (hp : h p = some nd)
    (xs : List Ptr) : valuesAt h (p :: xs) = nd.value :: valuesAt h xs := by
  simp [valuesAt, hp]

namespace Shape

def rootPtr : Shape → Option Ptr
  | leaf => none
  | node _ p _ => some p

/-- In-order addresses. -/
def ptrs : Shape → List Ptr
  | leaf => []
  | node l p r => l.ptrs ++ p :: r.ptrs

@[simp] theorem rootPtr_leaf : leaf.rootPtr = none := rfl
@[simp] theorem rootPtr_node (l r : Shape) (p : Ptr) : (node l p r).rootPtr = some p := rfl
@[simp] theorem ptrs_leaf : leaf.ptrs = [] := rfl
@[simp] theorem ptrs_node (l r : Shape) (p : Ptr) : (node l p r).ptrs = l.ptrs ++ p :: r.ptrs := rfl

/-- The values at the in-order addresses. -/
def keys {α : Type} (h : Heap α) (t : Shape) : List α :=
  t.ptrs.filterMap fun p => (h p).map Node.value

theorem rootPtr_mem {s : Shape} {q : Ptr} (h : s.rootPtr = some q) : q ∈ s.ptrs := by
  cases s with
  | leaf => cases h
  | node l p r => cases h; simp

theorem rootPtr_eq_none_iff {s : Shape} : s.rootPtr = none ↔ s = leaf := by
  cases s <;> simp

end Shape

section Realise
variable {α : Type} (h : Heap α)

/-- The child links of the cells form `t`. -/
def Links : Shape → Prop
  | .leaf => True
  | .node l p r =>
    (∃ nd, h p = some nd ∧ nd.left = l.rootPtr ∧ nd.right = r.rootPtr) ∧ Links l ∧ Links r

/-- The cells form `t` with exact child and parent links; the root's parent is `up`. -/
def Hangs (up : Option Ptr) : Shape → Prop
  | .leaf => True
  | .node l p r =>
    (∃ v, h p = some ⟨v, l.rootPtr, r.rootPtr, up⟩) ∧ Hangs (some p) l ∧ Hangs (some p) r

@[simp] theorem hangs_leaf (up : Option Ptr) : Hangs h up .leaf := trivial
@[simp] theorem hangs_node (up : Option Ptr) (l r : Shape) (p : Ptr) :
    Hangs h up (.node l p r) ↔
      (∃ v, h p = some ⟨v, l.rootPtr, r.rootPtr, up⟩) ∧ Hangs h (some p) l ∧ Hangs h (some p) r :=
  Iff.rfl

variable {h}

theorem Hangs.links {up : Option Ptr} {t : Shape} (ht : Hangs h up t) : Links h t := by
  induction t generalizing up with
  | leaf => trivial
  | node l p r ihl ihr =>
    obtain ⟨⟨v, hv⟩, hl, hr⟩ := ht
    exact ⟨⟨_, hv, rfl, rfl⟩, ihl hl, ihr hr⟩

theorem Hangs.cell {up : Option Ptr} {t : Shape} (ht : Hangs h up t) {p : Ptr} (hp : p ∈ t.ptrs) :
    ∃ nd, h p = some nd ∧ (nd.parent = up ∨ ∃ q ∈ t.ptrs, nd.parent = some q) := by
  induction t generalizing up with
  | leaf => cases hp
  | node l q r ihl ihr =>
    obtain ⟨⟨v, hv⟩, hl, hr⟩ := ht
    simp only [Shape.ptrs_node, List.mem_append, List.mem_cons] at hp
    rcases hp with hp | rfl | hp
    · obtain ⟨nd, hnd, hup | ⟨q', hq', hpar⟩⟩ := ihl hl hp
      · exact ⟨nd, hnd, .inr ⟨q, by simp, hup⟩⟩
      · exact ⟨nd, hnd, .inr ⟨q', by simp [hq'], hpar⟩⟩
    · exact ⟨_, hv, .inl rfl⟩
    · obtain ⟨nd, hnd, hup | ⟨q', hq', hpar⟩⟩ := ihr hr hp
      · exact ⟨nd, hnd, .inr ⟨q, by simp, hup⟩⟩
      · exact ⟨nd, hnd, .inr ⟨q', by simp [hq'], hpar⟩⟩

theorem Hangs.children_ne {up : Option Ptr} {t : Shape} (ht : Hangs h up t) (hnd : t.ptrs.Nodup)
    {n l r : Ptr} {nd : Node α} (hn : n ∈ t.ptrs) (hc : h n = some nd) (hl : nd.left = some l)
    (hr : nd.right = some r) : l ≠ r ∧ n ≠ l ∧ n ≠ r := by
  induction t generalizing up with
  | leaf => cases hn
  | node L p R ihl ihr =>
    obtain ⟨⟨v, hv⟩, hL, hR⟩ := ht
    have hnd' := List.nodup_append.mp hnd
    simp only [Shape.ptrs_node, List.mem_append, List.mem_cons] at hn
    rcases hn with hn | rfl | hn
    · exact ihl hL hnd'.1 hn
    · rw [hv] at hc
      cases hc
      have hlm : l ∈ L.ptrs := Shape.rootPtr_mem hl
      have hrm : r ∈ R.ptrs := Shape.rootPtr_mem hr
      refine ⟨fun e => ?_, fun e => ?_, fun e => ?_⟩ <;> subst e
      · exact hnd'.2.2 hlm (List.mem_cons_of_mem _ hrm)
      · exact hnd'.2.2 hlm (List.mem_cons_self _ _)
      · exact (List.nodup_cons.mp hnd'.2.1).1 hrm
    · exact ihr hR (List.nodup_cons.mp hnd'.2.1).2 hn

end Realise

section Order
variable {β : Type}

/-- `m` comes right after `n` in `xs`. -/
def Adjacent (xs : List β) (n m : β) : Prop := ∃ pre post, xs = pre ++ n :: m :: post

theorem adjacent_append_cons {l r : List β} {p n m : β} :
    Adjacent (l ++ p :: r) n m ↔ Adjacent l n m ∨ (l.getLast? = some n ∧ m = p) ∨
      (n = p ∧ r.head? = some m) ∨ Adjacent r n m := by
  constructor
  · rintro ⟨pre, post, e⟩
    rcases List.append_eq_append_iff.mp e with ⟨a, rfl, ha⟩ | ⟨c, rfl, hc⟩
    · rcases List.cons_eq_append_iff.mp ha with ⟨rfl, he⟩ | ⟨a, rfl, rfl⟩
      · simp only [List.cons.injEq] at he
        obtain ⟨rfl, rfl⟩ := he
        exact .inr (.inr (.inl ⟨rfl, by simp⟩))
      · exact .inr (.inr (.inr ⟨a, post, rfl⟩))
    · rcases List.cons_eq_append_iff.mp hc with ⟨rfl, he⟩ | ⟨c, rfl, hm⟩
      · simp only [List.cons.injEq] at he
        obtain ⟨rfl, rfl⟩ := he
        exact .inr (.inr (.inl ⟨rfl, by simp⟩))
      · rcases List.cons_eq_append_iff.mp hm with ⟨rfl, he⟩ | ⟨c, rfl, rfl⟩
        · simp only [List.cons.injEq] at he
          obtain ⟨rfl, rfl⟩ := he
          exact .inr (.inl ⟨by simp, rfl⟩)
        · exact .inl ⟨pre, c, by simp⟩
  · rintro (⟨pre, post, rfl⟩ | ⟨hl, rfl⟩ | ⟨rfl, hr⟩ | ⟨pre, post, rfl⟩)
    · exact ⟨pre, post ++ p :: r, by simp⟩
    · obtain ⟨ys, rfl⟩ := List.getLast?_eq_some_iff.mp hl
      exact ⟨ys, r, by simp⟩
    · obtain ⟨ys, rfl⟩ := List.head?_eq_some_iff.mp hr
      exact ⟨l, ys, rfl⟩
    · exact ⟨l ++ p :: pre, post, by simp⟩

theorem ne_of_getLast?_eq {xs pre rest : List β} {x x' m : β} (hnd : xs.Nodup)
    (e : xs = pre ++ x :: x' :: rest) (hm : xs.getLast? = some m) : x ≠ m := by
  rintro rfl
  rw [e, List.getLast?_append_cons, List.getLast?_cons_cons] at hm
  rw [e] at hnd
  exact (List.nodup_cons.mp (List.nodup_append.mp hnd).2.1).1 (List.mem_of_getLast?_eq_some hm)

variable [DecidableEq β]

/-- The element right after `n` in `xs`, if any. -/
def nextAfter (n : β) : List β → Option β
  | a :: b :: rest => if a = n then some b else nextAfter n (b :: rest)
  | _ => none

theorem nextAfter_cons_of_ne {n a : β} (ha : a ≠ n) (ys : List β) :
    nextAfter n (a :: ys) = nextAfter n ys := by
  cases ys with
  | nil => rfl
  | cons b rest => simp [nextAfter, ha]

theorem adjacent_of_nextAfter {n m : β} : ∀ {xs : List β}, nextAfter n xs = some m → Adjacent xs n m
  | a :: b :: rest, h => by
    by_cases ha : a = n
    · simp only [nextAfter, ha, if_true, Option.some.injEq] at h
      exact ⟨[], rest, by simp [ha, h]⟩
    · rw [nextAfter_cons_of_ne ha] at h
      obtain ⟨pre, post, e⟩ := adjacent_of_nextAfter h
      exact ⟨a :: pre, post, by simp [e]⟩
  | [], h | [_], h => by simp [nextAfter] at h

theorem getLast_of_nextAfter_eq_none {n : β} :
    ∀ {xs : List β}, n ∈ xs → nextAfter n xs = none → xs.getLast? = some n
  | [a], hn, _ => by simp_all
  | a :: b :: rest, hn, h => by
    by_cases ha : a = n
    · simp [nextAfter, ha] at h
    · rw [nextAfter_cons_of_ne ha] at h
      have hn' : n ∈ b :: rest := by simpa [Ne.symm ha] using hn
      simpa using getLast_of_nextAfter_eq_none hn' h

end Order

end Dsa
