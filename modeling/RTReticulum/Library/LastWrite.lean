import Mathlib.Data.List.Basic

/-! The value that a history of events leaves in a register which some of them write. -/
set_option autoImplicit false

namespace LastWrite
variable {ε β : Type}

/-- What the last event that writes has written; `initial` if there is none. -/
def latest (write : ε → Option β) (initial : β) (history : List ε) : β :=
  (history.filterMap write).getLast?.getD initial

variable {write : ε → Option β} {initial : β}

@[simp] theorem latest_nil : latest write initial [] = initial := rfl

@[simp] theorem latest_singleton (e : ε) :
    latest write initial [e] = (write e).getD initial := by
  rw [latest]
  cases h : write e <;> simp [h]

theorem latest_append (past later : List ε) : latest write initial (past ++ later) =
    latest write (latest write initial past) later := by
  simp only [latest,List.filterMap_append,List.getLast?_append]
  cases (later.filterMap write).getLast? <;> simp

theorem latest_silent {history : List ε} (h : ∀ e ∈ history, write e = none) :
    latest write initial history = initial := by
  rw [latest,List.filterMap_eq_nil_iff.mpr h]
  rfl

end LastWrite
