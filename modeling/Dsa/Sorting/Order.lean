import Dsa.Exec
import Mathlib.Data.List.Sort

/-! # Strict weak orders and stable sorting

The sorting headers take a comparator `comp` that C++ requires to be a strict weak order.
What a stable sort of a list is under it is stated once, as `StableSort`: a permutation,
in order, with every equivalence class in its input order. There is one such list
(`eq_of_sorted_of_filter`), and Mathlib's `insertionSort` under "not above" is it. Two sorted
runs are stably sorted by `List.merge` under "not above", by swapping them when the second lies
wholly below the first, and by nothing when the first is nowhere above the second.
-/
namespace Dsa
namespace Sorting
variable {α : Type} {lt : α → α → Bool}

theorem isStrictWeakOrder_decide_lt {β : Type} [LinearOrder β] :
    IsStrictWeakOrder β fun a b => decide (a < b) = true := by
  simpa using (inferInstance : IsStrictWeakOrder β (· < ·))

theorem lt_irrefl (hw : IsStrictWeakOrder α fun a b => lt a b = true) (a : α) : lt a a = false := by
  simpa using hw.irrefl a

theorem not_lt_trans (hw : IsStrictWeakOrder α fun a b => lt a b = true) {a b c : α} (hab : lt a b = false) (hbc : lt b c = false) :
    lt a c = false := by
  by_contra hac
  simp only [Bool.not_eq_false] at hac
  have hba : lt b a = false := by
    by_contra h
    simp only [Bool.not_eq_false] at h
    simp [hw.trans _ _ _ h hac] at hbc
  have hcb : lt c b = false := by
    by_contra h
    simp only [Bool.not_eq_false] at h
    simp [hw.trans _ _ _ hac h] at hab
  have := (hw.incomp_trans a b c (by simp [hab, hba]) (by simp [hbc, hcb])).1
  simp [hac] at this

theorem equivBy_trans (hw : IsStrictWeakOrder α fun a b => lt a b = true) {a b c : α} (hab : equivBy lt a b = true) (hbc : equivBy lt b c = true) :
    equivBy lt a c = true := by
  simp only [equivBy, Bool.and_eq_true, Bool.not_eq_true'] at *
  exact ⟨not_lt_trans hw hab.1 hbc.1, not_lt_trans hw hbc.2 hab.2⟩

theorem equivBy_comm {a b : α} : equivBy lt a b = equivBy lt b a := by
  simp [equivBy, Bool.and_comm]

theorem lt_of_lt_of_not_lt (hw : IsStrictWeakOrder α fun a b => lt a b = true) {a b c : α}
    (hab : lt a b = true) (hcb : lt c b = false) : lt a c = true := by
  by_contra hac
  simp [not_lt_trans hw (Bool.eq_false_iff.mpr hac) hcb] at hab

theorem lt_of_not_lt_of_lt (hw : IsStrictWeakOrder α fun a b => lt a b = true) {a b c : α}
    (hba : lt b a = false) (hbc : lt b c = true) : lt a c = true := by
  by_contra hac
  simp [not_lt_trans hw hba (Bool.eq_false_iff.mpr hac)] at hbc

theorem not_lt_head (hw : IsStrictWeakOrder α fun a b => lt a b = true) {c : α} {t : List α}
    (hs : (c :: t).Sorted fun a b => lt b a = false) : ∀ y ∈ c :: t, lt y c = false := fun y hy => by
  rcases List.mem_cons.mp hy with rfl | hy
  exacts [lt_irrefl hw y, List.rel_of_sorted_cons hs y hy]

theorem lt_asymm (hw : IsStrictWeakOrder α fun a b => lt a b = true) {a b : α} (h : lt a b = true) :
    lt b a = false :=
  Bool.eq_false_iff.mpr fun h' => by simpa [lt_irrefl hw] using hw.trans _ _ _ h h'

theorem not_lt_last (hw : IsStrictWeakOrder α fun a b => lt a b = true) {c : α} {t : List α}
    (hs : (t ++ [c]).Sorted fun a b => lt b a = false) : ∀ y ∈ t ++ [c], lt c y = false := fun y hy => by
  rcases List.mem_append.mp hy with hy | hy
  · exact List.pairwise_append.mp hs |>.2.2 y hy c (List.mem_singleton_self c)
  · obtain rfl := List.mem_singleton.mp hy
    exact lt_irrefl hw y

/-- `l'` sorts `l` stably under the strict order `lt`: a permutation of it, with no element
above a later one, and the elements of each equivalence class in their order in `l`. -/
structure StableSort (lt : α → α → Bool) (l l' : List α) : Prop where
  perm : l'.Perm l
  sorted : l'.Sorted fun a b => lt b a = false
  stable : ∀ x, l'.filter (equivBy lt x) = l.filter (equivBy lt x)

theorem eq_of_sorted_of_filter (hw : IsStrictWeakOrder α fun a b => lt a b = true) :
    ∀ {l₁ l₂ : List α}, l₁.Perm l₂ → l₁.Sorted (fun a b => lt b a = false) →
      l₂.Sorted (fun a b => lt b a = false) →
      (∀ x, l₁.filter (equivBy lt x) = l₂.filter (equivBy lt x)) → l₁ = l₂
  | [], _, hp, _, _, _ => hp.nil_eq
  | _ :: _, [], hp, _, _, _ => absurd hp.length_eq (by simp)
  | a :: t₁, b :: t₂, hp, h₁, h₂, hf => by
    have hab : equivBy lt a b = true := by
      simp [equivBy, not_lt_head hw h₂ a (hp.subset (List.mem_cons_self _ _)),
        not_lt_head hw h₁ b (hp.symm.subset (List.mem_cons_self _ _))]
    have haa : equivBy lt a a = true := by simp [equivBy, lt_irrefl hw]
    have hx := hf a
    simp only [List.filter_cons, haa, hab, if_true, List.cons.injEq] at hx
    obtain ⟨rfl, -⟩ := hx
    refine congrArg _ (eq_of_sorted_of_filter hw (hp.cons_inv) h₁.of_cons h₂.of_cons fun x => ?_)
    have := hf x
    simp only [List.filter_cons] at this
    split at this
    · exact List.cons.inj this |>.2
    · exact this

theorem StableSort.eq (hw : IsStrictWeakOrder α fun a b => lt a b = true) {l l₁ l₂ : List α}
    (h₁ : StableSort lt l l₁) (h₂ : StableSort lt l l₂) : l₁ = l₂ :=
  eq_of_sorted_of_filter hw (h₁.perm.trans h₂.perm.symm) h₁.sorted h₂.sorted fun x =>
    (h₁.stable x).trans (h₂.stable x).symm

/-- `l'` rearranges `l` and keeps each equivalence class in its order in `l`. -/
structure StablePerm (lt : α → α → Bool) (l l' : List α) : Prop where
  perm : l'.Perm l
  stable : ∀ x, l'.filter (equivBy lt x) = l.filter (equivBy lt x)

theorem StablePerm.refl (l : List α) : StablePerm lt l l := ⟨List.Perm.refl l, fun _ => rfl⟩

theorem StablePerm.trans {l₁ l₂ l₃ : List α} (h₁ : StablePerm lt l₁ l₂) (h₂ : StablePerm lt l₂ l₃) :
    StablePerm lt l₁ l₃ :=
  ⟨h₂.perm.trans h₁.perm, fun x => (h₂.stable x).trans (h₁.stable x)⟩

theorem StablePerm.append_middle {m m' : List α} (h : StablePerm lt m m') (u v : List α) :
    StablePerm lt (u ++ m ++ v) (u ++ m' ++ v) :=
  ⟨(h.perm.append_left u).append_right v, fun x => by simp only [List.filter_append, h.stable x]⟩

theorem StableSort.toStablePerm {l l' : List α} (h : StableSort lt l l') : StablePerm lt l l' :=
  ⟨h.perm, h.stable⟩

theorem filter_merge (hw : IsStrictWeakOrder α fun a b => lt a b = true) (x : α) :
    ∀ (l₁ l₂ : List α), l₁.Sorted (fun a b => lt b a = false) →
      (l₁.merge l₂ fun a b => !lt b a).filter (equivBy lt x) =
        l₁.filter (equivBy lt x) ++ l₂.filter (equivBy lt x)
  | [], l₂, _ => by simp
  | a :: l₁, [], _ => by simp
  | a :: l₁, b :: l₂, h => by
    rw [List.cons_merge_cons]
    cases hba : lt b a
    · simp only [Bool.not_false, if_true]
      rw [List.filter_cons, filter_merge hw x l₁ (b :: l₂) h.of_cons]
      split <;> simp [*]
    · simp only [Bool.not_true, Bool.false_eq_true, if_false]
      rw [List.filter_cons, filter_merge hw x (a :: l₁) l₂ h, List.filter_cons (x := b)]
      split
      · next hxb =>
        have hnil : (a :: l₁).filter (equivBy lt x) = [] :=
          List.filter_eq_nil_iff.mpr fun y hy hxy => by
            have hby := lt_of_lt_of_not_lt hw hba (not_lt_head hw h y hy)
            have := equivBy_trans hw (by rw [equivBy_comm]; exact hxb) hxy
            simp [equivBy, hby] at this
        rw [hnil]; rfl
      · rfl

section Runs
variable (hw : IsStrictWeakOrder α fun a b => lt a b = true) {l₁ l₂ : List α}
  (h₁ : l₁.Sorted fun a b => lt b a = false) (h₂ : l₂.Sorted fun a b => lt b a = false)
include hw h₁ h₂

theorem stableSort_swap (hlt : ∀ y ∈ l₂, ∀ z ∈ l₁, lt y z = true) :
    StableSort lt (l₁ ++ l₂) (l₂ ++ l₁) := by
  refine ⟨List.perm_append_comm, List.pairwise_append.mpr ⟨h₂, h₁, fun y hy z hz => ?_⟩, fun x => ?_⟩
  · exact lt_asymm hw (hlt y hy z hz)
  · by_cases hx : l₁.filter (equivBy lt x) = []
    · simp [hx]
    obtain ⟨z, hz⟩ := List.exists_mem_of_ne_nil _ hx
    have hnil : l₂.filter (equivBy lt x) = [] := List.filter_eq_nil_iff.mpr fun y hy hxy => by
      have hyz := equivBy_trans hw (by rw [equivBy_comm]; exact hxy) (List.mem_filter.mp hz).2
      simp [equivBy, hlt y hy z (List.mem_filter.mp hz).1] at hyz
    simp [hnil]

theorem stableSort_merge : StableSort lt (l₁ ++ l₂) (l₁.merge l₂ fun a b => !lt b a) := by
  have hs : (l₁.merge l₂ fun a b => !lt b a).Pairwise fun a b => (!lt b a) = true := List.sorted_merge
    (fun a b c hab hbc => by simpa using not_lt_trans hw (by simpa using hbc) (by simpa using hab))
    (fun a b => by cases h : lt a b <;> simp [lt_asymm hw, h])
    l₁ l₂ (h₁.imp fun h => by simpa using h) (h₂.imp fun h => by simpa using h)
  exact ⟨List.merge_perm_append _, hs.imp fun h => by simpa using h, fun x =>
    (filter_merge hw x l₁ l₂ h₁).trans (List.filter_append _ _).symm⟩

omit hw in
theorem stableSort_append (hle : ∀ y ∈ l₁, ∀ z ∈ l₂, lt z y = false) :
    StableSort lt (l₁ ++ l₂) (l₁ ++ l₂) :=
  ⟨List.Perm.refl _, List.pairwise_append.mpr ⟨h₁, h₂, hle⟩, fun _ => rfl⟩

end Runs

theorem filter_insertionSort (r : α → α → Prop) [DecidableRel r] (p : α → Bool) (l : List α)
    (hp : (l.filter p).Pairwise r) : (l.insertionSort r).filter p = l.filter p := by
  have hsub := (List.sublist_insertionSort hp (List.filter_sublist l)).filter p
  rw [List.filter_eq_self.mpr fun a ha => (List.mem_filter.mp ha).2] at hsub
  exact (hsub.eq_of_length ((List.perm_insertionSort r l).filter p).length_eq.symm).symm

theorem pairwise_filter_equivBy (hw : IsStrictWeakOrder α fun a b => lt a b = true)
    {r : α → α → Prop} (hr : ∀ a b, equivBy lt a b = true → r a b) (l : List α) (x : α) :
    (l.filter (equivBy lt x)).Pairwise r :=
  List.pairwise_of_forall_mem_list fun a ha b hb => hr a b <|
    equivBy_trans hw (by rw [equivBy_comm]; exact (List.mem_filter.mp ha).2) (List.mem_filter.mp hb).2

theorem isTotal_not_lt (hw : IsStrictWeakOrder α fun a b => lt a b = true) :
    IsTotal α fun a b => lt a b = false :=
  ⟨fun a b => by
    cases hab : lt a b
    · exact .inl rfl
    · exact .inr (lt_asymm hw hab)⟩


theorem stableSort_insertionSort (hw : IsStrictWeakOrder α fun a b => lt a b = true)
    (l : List α) : StableSort lt l (l.insertionSort fun a b => lt b a = false) := by
  haveI : IsTotal α fun a b => lt b a = false := ⟨fun a b => (isTotal_not_lt hw).total b a⟩
  haveI : IsTrans α fun a b => lt b a = false := ⟨fun _ _ _ hab hbc => not_lt_trans hw hbc hab⟩
  refine ⟨List.perm_insertionSort _ l, List.sorted_insertionSort _ l, fun x =>
    filter_insertionSort _ _ l (pairwise_filter_equivBy hw (fun a b h => ?_) l x)⟩
  simp only [equivBy, Bool.and_eq_true, Bool.not_eq_true'] at h
  exact h.2

theorem stableSort_reverse_insertionSort (hw : IsStrictWeakOrder α fun a b => lt a b = true)
    (l : List α) : StableSort lt l (l.reverse.insertionSort fun a b => lt a b = false).reverse := by
  haveI := isTotal_not_lt hw
  haveI : IsTrans α fun a b => lt a b = false := ⟨fun _ _ _ => not_lt_trans hw⟩
  refine ⟨(List.reverse_perm _).trans ((List.perm_insertionSort _ _).trans (List.reverse_perm l)),
    List.pairwise_reverse.mpr (List.sorted_insertionSort _ _), fun x => ?_⟩
  rw [List.filter_reverse, filter_insertionSort _ _ _ (pairwise_filter_equivBy hw (fun a b h => ?_) _ x),
    List.filter_reverse, List.reverse_reverse]
  simp only [equivBy, Bool.and_eq_true, Bool.not_eq_true'] at h
  exact h.1

end Sorting
end Dsa
