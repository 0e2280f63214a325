import Mathlib

/-! Three-way comparisons as C writes them: integers whose sign is that of an order. -/
set_option autoImplicit false

namespace ThreeWay

section
variable {β : Type} [LT β] [DecidableLT β]

def order (x y : β) : Int := if x < y then -1 else if y < x then 1 else 0

theorem order_eq_neg_one {x y : β} : order x y = -1 ↔ x < y := by
  unfold order
  split
  · simp [*]
  split <;> simp [*]

theorem sign_order (x y : β) : (order x y).sign = order x y := by
  unfold order
  split
  · rfl
  split <;> rfl

variable [Std.Asymm (α := β) (· < ·)]

theorem order_swap (x y : β) : order y x = -order x y := by
  unfold order
  by_cases h : x < y
  · simp [h,Std.Asymm.asymm _ _ h]
  · by_cases h' : y < x <;> simp [h,h']

theorem order_self (x : β) : order x x = 0 := by
  have h : ¬ x < x := fun h => Std.Asymm.asymm _ _ h h
  simp [order,h]

theorem order_eq_one {x y : β} : order x y = 1 ↔ y < x := by
  rw [← order_eq_neg_one,order_swap x y]
  omega

variable [Std.Trichotomous (α := β) (· < ·)]

theorem order_eq_zero {x y : β} : order x y = 0 ↔ x = y := by
  constructor
  · intro h
    refine Std.Trichotomous.trichotomous (r := (· < ·)) x y (fun hlt => ?_) (fun hlt => ?_)
    · rw [order_eq_neg_one.mpr hlt] at h
      cases h
    · rw [order_eq_one.mpr hlt] at h
      cases h
  · rintro rfl
    exact order_self x

end

def Compares {α β : Type} [LT β] [DecidableLT β] (key : α → β) (cmp : α → α → Int) : Prop :=
  ∀ a b, (cmp a b).sign = order (key a) (key b)

namespace Compares
variable {α β : Type} [LT β] [DecidableLT β] {key : α → β} {cmp : α → α → Int}

theorem neg (h : Compares key cmp) (a b : α) : cmp a b < 0 ↔ key a < key b := by
  rw [← Int.sign_eq_neg_one_iff_neg,h,order_eq_neg_one]

variable [Std.Asymm (α := β) (· < ·)]

theorem antisymm (h : Compares key cmp) (a b : α) : (cmp b a).sign = -(cmp a b).sign := by
  rw [h,h,order_swap]

theorem le_zero (h : Compares key cmp) (a b : α) : cmp a b ≤ 0 ↔ ¬ key b < key a := by
  rw [← h.neg b a,← Int.sign_eq_neg_one_iff_neg,h.antisymm a b,← Int.not_lt,
    ← Int.sign_eq_one_iff_pos]
  omega

variable [Std.Trichotomous (α := β) (· < ·)]

theorem eq_zero (h : Compares key cmp) (a b : α) : cmp a b = 0 ↔ key a = key b := by
  rw [← Int.sign_eq_zero_iff_zero,h,order_eq_zero]

theorem trans [Trans (α := β) (· < ·) (· < ·) (· < ·)] (h : Compares key cmp) {a b c : α}
    (hab : cmp a b ≤ 0) (hbc : cmp b c ≤ 0) : cmp a c ≤ 0 := by
  rw [h.le_zero] at hab hbc ⊢
  intro hca
  by_cases heq : key b = key c
  · exact hab (heq ▸ hca)
  · have hlt : key b < key c := by
      by_contra hlt
      exact heq (Std.Trichotomous.trichotomous _ _ hlt hbc)
    exact hab (Trans.trans hlt hca)

end Compares

section
variable {α : Type} [LT α] [DecidableLT α] [DecidableEq α]

/-- The order of the first pair that differs, among the first `n`. -/
def firstDifference : List α → List α → Nat → Int
  | x :: xs, y :: ys, n+1 => if x = y then firstDifference xs ys n else order x y
  | _, _, _ => 0

variable [Std.Asymm (α := α) (· < ·)]

theorem order_cons (x y : α) (xs ys : List α) :
    order (x :: xs) (y :: ys) = if x = y then order xs ys else order x y := by
  by_cases h : x = y
  · subst h
    simp [order]
  · simp [order,List.cons_lt_cons_iff,h,Ne.symm h]

variable [Std.Trichotomous (α := α) (· < ·)]

theorem order_eq_firstDifference (xs ys : List α) : order xs ys =
    if firstDifference xs ys (min xs.length ys.length) = 0 then order xs.length ys.length
    else firstDifference xs ys (min xs.length ys.length) := by
  induction xs generalizing ys with
  | nil => cases ys <;> simp [firstDifference,order]
  | cons x xs ih =>
    cases ys with
    | nil => simp [firstDifference,order]
    | cons y ys =>
      rw [order_cons,List.length_cons,List.length_cons,Nat.add_min_add_right,firstDifference]
      by_cases h : x = y
      · simp only [h,if_true,ih ys]
        simp [order]
      · simp only [h,if_false,order_eq_zero]

end

end ThreeWay
