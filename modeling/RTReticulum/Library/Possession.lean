import Mathlib

/-! A flag that one party at a time holds up: taken with an exchange, handed over while it is up,
and given back with a store. -/
set_option autoImplicit false

namespace Possession

variable {H : Type}

/-- At most one party holds the token, and the flag is up while one does. -/
structure Exclusive (holds : H → Prop) (flag : Bool) : Prop where
  unique : ∀ {x y}, holds x → holds y → x = y
  flagged : ∀ {x}, holds x → flag = true

namespace Exclusive
variable {holds holds' : H → Prop} {flag : Bool} {x y : H}

theorem mono (h : Exclusive holds flag) (hsub : ∀ z, holds' z → holds z) :
    Exclusive holds' flag :=
  ⟨fun hx hy => h.unique (hsub _ hx) (hsub _ hy),fun hx => h.flagged (hsub _ hx)⟩

theorem free (h : Exclusive holds false) (x : H) : ¬ holds x := fun hx => by
  cases h.flagged hx

theorem acquire (h : Exclusive holds false) (hsub : ∀ z, holds' z → z = x ∨ holds z) :
    Exclusive holds' true := by
  have honly : ∀ z, holds' z → z = x := fun z hz => (hsub z hz).resolve_right (h.free z)
  exact ⟨fun hy hz => (honly _ hy).trans (honly _ hz).symm,fun _ => rfl⟩

theorem handOver (h : Exclusive holds flag) (hx : holds x)
    (hsub : ∀ z, holds' z → z = y ∨ holds z ∧ z ≠ x) : Exclusive holds' flag := by
  have honly : ∀ z, holds' z → z = y := fun z hz =>
    (hsub z hz).resolve_right fun hz => hz.2 (h.unique hz.1 hx)
  exact ⟨fun hy hz => (honly _ hy).trans (honly _ hz).symm,fun _ => h.flagged hx⟩

theorem release (h : Exclusive holds flag) (hx : holds x)
    (hsub : ∀ z, holds' z → holds z ∧ z ≠ x) (flag' : Bool) : Exclusive holds' flag' := by
  have hnone : ∀ z, ¬ holds' z := fun z hz => (hsub z hz).2 (h.unique (hsub z hz).1 hx)
  exact ⟨fun hy _ => absurd hy (hnone _),fun hy => absurd hy (hnone _)⟩

end Exclusive

end Possession
