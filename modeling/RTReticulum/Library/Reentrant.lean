import Mathlib

/-! Runs of a component whose operations call out to their environment, which may
run further operations of the same component before the call returns. -/
set_option autoImplicit false

namespace Reentrant

/-- One operation from one state. The first argument is the environment: what a call-out
of kind `E` answers, and the state it leaves behind. -/
abbrev Exec (S O E A F : Type) := (E → S → A × S) → O → S → Except F S

variable {S O E A F : Type}

inductive Run (exec : Exec S O E A F) (guard : O → S → Prop) : S → S → Prop where
  | refl (s : S) : Run exec guard s s
  | step {s t u : S} {o : O} {env : E → S → A × S} : Run exec guard s t →
      (∀ e m, Run exec guard m (env e m).2) → guard o t →
      exec env o t = .ok u → Run exec guard s u

variable {exec : Exec S O E A F} {guard : O → S → Prop}

theorem Run.trans {s t u : S} (h : Run exec guard s t) (k : Run exec guard t u) :
    Run exec guard s u := by
  induction k with
  | refl => exact h
  | step _ henv hg hx ih _ => exact .step (ih h) henv hg hx

theorem Run.mono {guard' : O → S → Prop} (hg : ∀ o s, guard o s → guard' o s)
    {s t : S} (h : Run exec guard s t) : Run exec guard' s t := by
  induction h with
  | refl s => exact .refl s
  | step _ _ hgo hx ih henv => exact .step ih henv (hg _ _ hgo) hx

/-- A preorder kept by every operation, whenever the call-outs are runs that keep it,
relates the two ends of every run. -/
theorem Run.lift (R : S → S → Prop) (hrefl : ∀ s, R s s)
    (htrans : ∀ {s t u}, R s t → R t u → R s u)
    (hstep : ∀ {env : E → S → A × S} {o : O} {t u : S},
      (∀ e m, Run exec guard m (env e m).2) → (∀ e m, R m (env e m).2) → guard o t →
      exec env o t = .ok u → R t u)
    {s t : S} (h : Run exec guard s t) : R s t := by
  induction h with
  | refl s => exact hrefl s
  | step _ henv hg hx ih ihenv => exact htrans ih (hstep henv ihenv hg hx)

theorem Run.invariant (I : S → Prop)
    (hstep : ∀ {env : E → S → A × S} {o : O} {t u : S},
      (∀ e m, Run exec guard m (env e m).2) → (∀ e m, I m → I (env e m).2) → guard o t → I t →
      exec env o t = .ok u → I u)
    {s t : S} (h : Run exec guard s t) : I s → I t :=
  h.lift (fun s t => I s → I t) (fun _ => id) (fun h k i => k (h i))
    (fun hruns henv hg hx i => hstep hruns henv hg i hx)

/-- What happens inside one operation: updates of the component's own, each of kind `U`,
and call-outs between them. -/
inductive Does (U : S → S → Prop) (env : E → S → A × S) : S → S → Prop where
  | refl (s : S) : Does U env s s
  | update {s t u : S} : Does U env s t → U t u → Does U env s u
  | call {s t : S} (e : E) : Does U env s t → Does U env s (env e t).2

variable {U : S → S → Prop} {env : E → S → A × S}

theorem Does.single {s t : S} (h : U s t) : Does U env s t := .update (.refl s) h

theorem Does.trans {s t u : S} (h : Does U env s t) (k : Does U env t u) : Does U env s u := by
  induction k with
  | refl => exact h
  | update _ hu ih => exact .update ih hu
  | call e _ ih => exact .call e ih

theorem Does.lift (R : S → S → Prop) (hrefl : ∀ s, R s s)
    (htrans : ∀ {s t u}, R s t → R t u → R s u) (hU : ∀ {s t}, U s t → R s t)
    (henv : ∀ e m, R m (env e m).2) {s t : S} (h : Does U env s t) : R s t := by
  induction h with
  | refl => exact hrefl s
  | update _ hu ih => exact htrans ih (hU hu)
  | call e _ ih => exact htrans ih (henv e _)

end Reentrant
