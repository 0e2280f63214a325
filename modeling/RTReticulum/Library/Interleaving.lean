import RTReticulum.Library.Reentrant

/-! Several components of one kind, each run on its own and interleaved in any order. -/
set_option autoImplicit false

namespace Interleaving
open Reentrant

variable {ι S O E A F : Type} [DecidableEq ι]

/-- Runs of the whole: one component after another makes a run of its own. The guard of a
component may look at the state the others are in. -/
inductive Run (exec : Exec S O E A F) (guard : ι → (ι → S) → O → S → Prop) :
    (ι → S) → (ι → S) → Prop where
  | refl (s : ι → S) : Run exec guard s s
  | step {s t : ι → S} {i : ι} {u : S} : Run exec guard s t →
      Reentrant.Run exec (guard i t) (t i) u → Run exec guard s (Function.update t i u)

variable {exec : Exec S O E A F} {guard : ι → (ι → S) → O → S → Prop}

theorem Run.trans {s t u : ι → S} (h : Run exec guard s t) (k : Run exec guard t u) :
    Run exec guard s u := by
  induction k with
  | refl => exact h
  | step _ hu ih => exact .step ih hu

theorem Run.mono {guard' : ι → (ι → S) → O → S → Prop}
    (hg : ∀ i t o s, guard i t o s → guard' i t o s) {s t : ι → S} (h : Run exec guard s t) :
    Run exec guard' s t := by
  induction h with
  | refl => exact .refl _
  | step _ hu ih => exact .step ih (hu.mono fun o s => hg _ _ o s)

theorem Run.proj {g : ι → O → S → Prop} (hg : ∀ i t o s, guard i t o s → g i o s)
    {s t : ι → S} (h : Run exec guard s t) (i : ι) : Reentrant.Run exec (g i) (s i) (t i) := by
  induction h with
  | refl => exact .refl _
  | @step t j u _ hu ih =>
    by_cases hij : i = j
    · subst hij
      rw [Function.update_self]
      exact ih.trans (hu.mono (hg i t))
    · rwa [Function.update_of_ne hij]

/-- What every run of one component keeps, the others standing still, the whole keeps. -/
theorem Run.invariant (I : (ι → S) → Prop)
    (hstep : ∀ {t i u}, I t → Reentrant.Run exec (guard i t) (t i) u → I (Function.update t i u))
    {s t : ι → S} (h : Run exec guard s t) (hs : I s) : I t := by
  induction h with
  | refl => exact hs
  | step _ hu ih => exact hstep ih hu

inductive Merge {α : Type} : (ι → List α) → List α → Prop where
  | done {threads : ι → List α} (h : ∀ i, threads i = []) : Merge threads []
  | step {threads : ι → List α} {i : ι} {x : α} {xs out : List α} (h : threads i = x :: xs)
      (hout : Merge (Function.update threads i xs) out) : Merge threads (x :: out)

theorem Merge.mem_iff {α : Type} {threads : ι → List α} {out : List α} (h : Merge threads out)
    (x : α) : x ∈ out ↔ ∃ i, x ∈ threads i := by
  induction h with
  | done h => simp [h]
  | @step threads i y ys out h _ ih =>
    rw [List.mem_cons,ih]
    constructor
    · rintro (rfl | ⟨j,hj⟩)
      · exact ⟨i,by rw [h]; exact List.mem_cons_self⟩
      · by_cases hij : j = i
        · subst hij
          rw [Function.update_self] at hj
          exact ⟨j,by rw [h]; exact List.mem_cons_of_mem _ hj⟩
        · rw [Function.update_of_ne hij] at hj
          exact ⟨j,hj⟩
    · rintro ⟨j,hj⟩
      by_cases hij : j = i
      · subst hij
        rw [h,List.mem_cons] at hj
        exact hj.imp_right fun hj => ⟨j,by rwa [Function.update_self]⟩
      · exact .inr ⟨j,by rwa [Function.update_of_ne hij]⟩

end Interleaving
