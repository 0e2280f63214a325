import Mathlib.Data.List.Basic

/-! Machines that read one event after the other and emit a list for each. -/
set_option autoImplicit false

namespace Mealy

variable {S T E L O : Type}

abbrev Machine (S E L : Type) := S → E → S × List L

def run (m : Machine S E L) (s : S) : List E → S × List L
  | [] => (s,[])
  | e :: es =>
    let q := run m (m s e).1 es
    (q.1,(m s e).2 ++ q.2)

def pipe (m : Machine S E L) (k : Machine T L O) : Machine (S × T) E O := fun s e =>
  let r := m s.1 e
  let q := run k s.2 r.2
  ((r.1,q.1),q.2)

variable {m : Machine S E L}

@[simp] theorem run_nil (s : S) : run m s [] = (s,[]) := rfl

theorem run_cons (s : S) (e : E) (es : List E) : run m s (e :: es) =
    ((run m (m s e).1 es).1,(m s e).2 ++ (run m (m s e).1 es).2) := rfl

@[simp] theorem run_singleton (s : S) (e : E) : run m s [e] = m s e := by
  simp [run]

theorem run_append (s : S) (es es' : List E) : run m s (es ++ es') =
    ((run m (run m s es).1 es').1,(run m s es).2 ++ (run m (run m s es).1 es').2) := by
  induction es generalizing s with
  | nil => simp
  | cons e es ih => simp [run_cons,ih]

theorem run_emits {Q : L → Prop} (hstep : ∀ s e, ∀ x ∈ (m s e).2, Q x) (s : S) (es : List E) :
    ∀ x ∈ (run m s es).2, Q x := by
  induction es generalizing s with
  | nil => exact fun x hx => by cases hx
  | cons e es ih =>
    intro x hx
    rcases List.mem_append.mp hx with hx | hx
    · exact hstep s e x hx
    · exact ih _ x hx

end Mealy
