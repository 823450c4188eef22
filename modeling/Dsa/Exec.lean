import Mathlib.Logic.Relation

/-! # Faults, the execution monad and fuelled loops

C++ code either returns, throws, or does not complete: it runs forever, dereferences a
null or released pointer, or fails an `assert`. `Exec` is the state-and-exception monad in
which a throw keeps the state it found. A `while (true)` loop is `loop` on its body, which
continues with new locals or breaks with a result; the loop bound is the only thing that
does not come from the source, and `Reaches` states that it does not matter. A comparator
is a strict order `lt`, and `equivBy lt` is the equivalence it induces.
-/
namespace Dsa

/-- Why a call did not return normally. -/
inductive Fault
  | diverged
  | undefined
  | assertFailed
  | thrown
  deriving DecidableEq, Repr

/-- Results can be compared, so that a run on a concrete input is checked by `decide`. -/
instance exceptDecidableEq {ε β : Type} [DecidableEq ε] [DecidableEq β] :
    DecidableEq (Except ε β)
  | .error a, .error b => if h : a = b then isTrue (h ▸ rfl) else isFalse (h ∘ Except.error.inj)
  | .ok a, .ok b => if h : a = b then isTrue (h ▸ rfl) else isFalse (h ∘ Except.ok.inj)
  | .error _, .ok _ => isFalse Except.noConfusion
  | .ok _, .error _ => isFalse Except.noConfusion

abbrev Exec (σ β : Type) := ExceptT Fault (StateM σ) β

section Exec
variable {σ β γ : Type}

@[simp] theorem bind_apply (x : Exec σ β) (f : β → Exec σ γ) (s : σ) :
    (x >>= f) s = match x s with
      | (.ok a, s') => f a s'
      | (.error e, s') => (.error e, s') := by
  show (ExceptT.bind x f) s = _
  simp only [ExceptT.bind, ExceptT.mk, ExceptT.bindCont, bind, StateT.bind]
  rcases x s with ⟨⟨e⟩|⟨a⟩, s'⟩ <;> rfl

theorem bind_eq_ok {x : Exec σ β} {f : β → Exec σ γ} {s s' : σ} {c : γ} :
    (x >>= f) s = (.ok c, s') ↔ ∃ b s₁, x s = (.ok b, s₁) ∧ f b s₁ = (.ok c, s') := by
  rw [bind_apply]
  rcases x s with ⟨_ | b, s₁⟩
  · exact ⟨fun h => (by cases h), fun ⟨_, _, h, _⟩ => (by cases h)⟩
  · exact ⟨fun h => ⟨b, s₁, rfl, h⟩, fun ⟨_, _, h, hf⟩ => by cases h; exact hf⟩

@[simp] theorem pure_apply (b : β) (s : σ) : (pure b : Exec σ β) s = (.ok b, s) := rfl
@[simp] theorem throw_apply (e : Fault) (s : σ) : (throw e : Exec σ β) s = (.error e, s) := rfl
@[simp] theorem get_apply (s : σ) : (get : Exec σ σ) s = (.ok s, s) := rfl
@[simp] theorem modifyGet_apply (f : σ → β × σ) (s : σ) :
    (modifyGet f : Exec σ β) s = (.ok (f s).1, (f s).2) := rfl
@[simp] theorem modify_apply (f : σ → σ) (s : σ) :
    (modify f : Exec σ PUnit) s = (.ok ⟨⟩, f s) := rfl

@[simp] theorem tryCatch_apply (x : Exec σ β) (handler : Fault → Exec σ β) (s : σ) :
    (tryCatch x handler) s = match x s with
      | (.ok a, s') => (.ok a, s')
      | (.error e, s') => handler e s' := by
  show ExceptT.tryCatch x handler s = _
  simp only [ExceptT.tryCatch, ExceptT.mk, bind, StateT.bind]
  rcases x s with ⟨⟨e⟩|⟨a⟩, s'⟩ <;> rfl

/-- A computation of the pure loop layer, run inside `Exec`. -/
def liftE (x : Except Fault β) : Exec σ β :=
  match x with
  | .ok b => pure b
  | .error e => throw e

@[simp] theorem liftE_ok (b : β) : (liftE (.ok b) : Exec σ β) = pure b := rfl
@[simp] theorem liftE_error (e : Fault) : (liftE (.error e) : Exec σ β) = throw e := rfl

theorem liftE_apply (x : Except Fault β) (s : σ) : (liftE x : Exec σ β) s = (x, s) := by
  cases x <;> rfl

theorem liftE_eq_ok {x : Except Fault β} {b : β} {s s' : σ} :
    (liftE x : Exec σ β) s = (.ok b, s') ↔ x = .ok b ∧ s' = s := by
  rw [liftE_apply]
  exact ⟨fun h => (by cases h; exact ⟨rfl, rfl⟩), fun ⟨h, e⟩ => (by cases h; cases e; rfl)⟩

/-- `catch (...) { handler; throw; }`: only a C++ exception is caught; a run that does
not complete stays so. -/
def catchThrown (x : Exec σ β) (handler : Exec σ PUnit) : Exec σ β :=
  tryCatch x fun e => if e = .thrown then do handler; throw .thrown else throw e

end Exec

section Pure
variable {β γ : Type}

@[simp] theorem except_ok_bind (b : β) (f : β → Except Fault γ) :
    ((.ok b : Except Fault β) >>= f) = f b := rfl
@[simp] theorem except_error_bind (e : Fault) (f : β → Except Fault γ) :
    ((.error e : Except Fault β) >>= f) = .error e := rfl
@[simp] theorem except_map_ok (b : β) (f : β → γ) : (f <$> (.ok b : Except Fault β)) = .ok (f b) :=
  rfl
@[simp] theorem except_map_error (e : Fault) (f : β → γ) :
    (f <$> (.error e : Except Fault β)) = .error e := rfl
@[simp] theorem except_pure (b : β) : (pure b : Except Fault β) = .ok b := rfl

end Pure

section Loop
variable {ι β : Type}

/-- `while (true) { body }` for at most `fuel` rounds: `.inl` continues with new locals,
`.inr` breaks with the loop's result. -/
def loop (body : ι → Except Fault (ι ⊕ β)) : Nat → ι → Except Fault β
  | 0, _ => .error .diverged
  | fuel + 1, i =>
    match body i with
    | .ok (.inl j) => loop body fuel j
    | .ok (.inr b) => .ok b
    | .error e => .error e

/-- The loop, started at `i`, breaks with `b` after finitely many rounds. -/
inductive Reaches (body : ι → Except Fault (ι ⊕ β)) : ι → β → Prop
  | done {i b} : body i = .ok (.inr b) → Reaches body i b
  | step {i j b} : body i = .ok (.inl j) → Reaches body j b → Reaches body i b

def Continues (body : ι → Except Fault (ι ⊕ β)) (i j : ι) : Prop := body i = .ok (.inl j)

theorem Reaches.of_chain {body : ι → Except Fault (ι ⊕ β)} {i j : ι} {b : β}
    (h : Relation.ReflTransGen (Continues body) i j) (hj : Reaches body j b) : Reaches body i b := by
  induction h using Relation.ReflTransGen.head_induction_on with
  | refl => exact hj
  | head hstep _ ih => exact .step hstep ih

theorem Reaches.loop_eq {body : ι → Except Fault (ι ⊕ β)} {i : ι} {b : β}
    (h : Reaches body i b) : ∃ N, ∀ fuel, N ≤ fuel → loop body fuel i = .ok b := by
  induction h with
  | done hb => exact ⟨1, fun fuel hf => by obtain ⟨k, rfl⟩ : ∃ k, fuel = k + 1 := ⟨fuel - 1, by omega⟩; simp [loop, hb]⟩
  | step hj _ ih =>
    obtain ⟨N, hN⟩ := ih
    refine ⟨N + 1, fun fuel hf => ?_⟩
    obtain ⟨k, rfl⟩ : ∃ k, fuel = k + 1 := ⟨fuel - 1, by omega⟩
    simp only [loop, hj]
    exact hN k (by omega)

theorem loop_mono {body : ι → Except Fault (ι ⊕ β)} {b : β} :
    ∀ {fuel fuel' : Nat} {i : ι}, fuel ≤ fuel' → loop body fuel i = .ok b →
      loop body fuel' i = .ok b
  | 0, _, _, _, h => by simp [loop] at h
  | _ + 1, 0, _, hle, _ => by omega
  | fuel + 1, fuel' + 1, i, hle, h => by
    rcases hb : body i with e | j | c <;> simp only [loop, hb] at h ⊢
    · exact h
    · exact loop_mono (by omega) h
    · exact h

theorem of_add_bound {f : Nat → β} {b : β} {N : Nat} (h : ∀ k, f (k + N) = b) :
    ∀ fuel, N ≤ fuel → f fuel = b := fun fuel hf => by
  obtain ⟨k, rfl⟩ : ∃ k, fuel = k + N := ⟨fuel - N, by omega⟩
  exact h k

/-- A loop whose every round, from an invariant, continues inside the invariant never
breaks, whatever the bound. -/
theorem loop_diverges {body : ι → Except Fault (ι ⊕ β)} (P : ι → Prop)
    (hP : ∀ i, P i → ∃ j, P j ∧ body i = .ok (.inl j)) :
    ∀ fuel i, P i → loop body fuel i = .error .diverged := by
  intro fuel
  induction fuel with
  | zero => intro i _; rfl
  | succ k ih =>
    intro i hi
    obtain ⟨j, hj, hb⟩ := hP i hi
    simp only [loop, hb]
    exact ih j hj

/-- A loop whose every round from the invariant `P` either continues inside `P` at a smaller
measure or breaks into `Q` breaks into `Q` under any bound above the measure. -/
theorem loop_of_variant {body : ι → Except Fault (ι ⊕ β)} (P : ι → Prop) (Q : β → Prop)
    (μ : ι → Nat) (hstep : ∀ i, P i →
      (∃ j, body i = .ok (.inl j) ∧ P j ∧ μ j < μ i) ∨ ∃ b, body i = .ok (.inr b) ∧ Q b) :
    ∀ fuel i, P i → μ i < fuel → ∃ b, loop body fuel i = .ok b ∧ Q b
  | 0, _, _, h => absurd h (Nat.not_lt_zero _)
  | fuel + 1, i, hi, hf => by
    rcases hstep i hi with ⟨j, hb, hj, hμ⟩ | ⟨b, hb, hq⟩
    · simp only [loop, hb]
      exact loop_of_variant P Q μ hstep fuel j hj (by omega)
    · exact ⟨b, by simp only [loop, hb], hq⟩

/-- `loop` for a body with effects: the loop of `erase (first, last)` erases as it goes. -/
def loopM {σ : Type} (body : ι → Exec σ (ι ⊕ β)) : Nat → ι → Exec σ β
  | 0, _ => throw .diverged
  | fuel + 1, i => do
    match ← body i with
    | .inl j => loopM body fuel j
    | .inr b => pure b

end Loop

/-- Neither of `a` and `b` is less than the other. -/
def equivBy {α : Type} (lt : α → α → Bool) (a b : α) : Bool := !lt a b && !lt b a

end Dsa
