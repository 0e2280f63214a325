import RTReticulum.Library.Possession
import RTReticulum.Types

/-! `Reticulum::start`, `stop` and `task_entry`: two flags, threads that call the first two, and
the loop tasks, one access to a flag after the other. -/
set_option autoImplicit false

namespace RNS.Reticulum
open Possession

/-- Where a thread is in `start` or `stop`. From its exchange on, a start carries along which
loop tasks there were at that moment. -/
inductive CallerPc where
  | idle
  /-- `if (_running.exchange(true)) return false`. -/
  | exchange (tickMs : Nat)
  /-- `_stop_requested.store(false)`. -/
  | clearStop (tickMs : Nat) (seen : List Nat)
  /-- `_tick_ms = tick_ms`. -/
  | setTick (tickMs : Nat) (seen : List Nat)
  /-- `rt_hal_task_spawn`. -/
  | spawn (seen : List Nat)
  /-- `_running.store(false)`, where there is no task. -/
  | spawnFailed (seen : List Nat)
  | returns (result : Bool) (seen : List Nat)
  /-- `_stop_requested.store(true)`. -/
  | stop

def CallerPc.Starting : CallerPc → Prop
  | .clearStop _ _ | .setTick _ _ | .spawn _ | .spawnFailed _ => True
  | _ => False

def CallerPc.seen? : CallerPc → Option (List Nat)
  | .clearStop _ seen | .setTick _ seen | .spawn seen | .returns true seen => some seen
  | _ => none

inductive TaskPc where
  /-- `while (!_stop_requested.load())`. -/
  | check
  /-- `run_once()` and the delay. -/
  | body
  /-- `_running.store(false)`. -/
  | clearRunning
  | ended
  deriving DecidableEq

/-- The flags, what the threads and the tasks do, and what every start has returned so far, with
the tasks it had seen. A task that is not spawned yet counts as ended. -/
structure Threads (ι : Type) where
  running : Bool
  stopRequested : Bool
  tickMs : Nat
  callers : ι → CallerPc
  tasks : Nat → TaskPc
  spawned : Nat
  returned : List (Bool × List Nat)

namespace Threads
variable {ι : Type}

def boot : Threads ι where
  running := false
  stopRequested := false
  tickMs := 100
  callers _ := .idle
  tasks _ := .ended
  spawned := 0
  returned := []

/-- Between its start and its final store to `_running`. -/
def Live (s : Threads ι) (k : Nat) : Prop := s.tasks k ≠ .ended

def InLoop (s : Threads ι) (k : Nat) : Prop := s.tasks k = .check ∨ s.tasks k = .body

def live (s : Threads ι) : List Nat := (List.range s.spawned).filter fun k => s.tasks k ≠ .ended

section
variable [DecidableEq ι]

def goto (i : ι) (pc : CallerPc) (s : Threads ι) : Threads ι :=
  { s with callers := Function.update s.callers i pc }

def taskGoto (k : Nat) (pc : TaskPc) (s : Threads ι) : Threads ι :=
  { s with tasks := Function.update s.tasks k pc }

def storeStop (i : ι) (s : Threads ι) : Threads ι := { s.goto i .idle with stopRequested := true }

inductive Step : Threads ι → Threads ι → Prop where
  | callStart {s : Threads ι} (i : ι) (tickMs : Nat) : s.callers i = .idle →
      Step s (s.goto i (.exchange tickMs))
  | callStop {s : Threads ι} (i : ι) : s.callers i = .idle → Step s (s.goto i .stop)
  | alreadyRunning {s : Threads ι} {i : ι} {tickMs : Nat} : s.callers i = .exchange tickMs →
      s.running = true → Step s (s.goto i (.returns false s.live))
  | exchange {s : Threads ι} {i : ι} {tickMs : Nat} : s.callers i = .exchange tickMs →
      s.running = false → Step s { s.goto i (.clearStop tickMs s.live) with running := true }
  | clearStop {s : Threads ι} {i : ι} {tickMs : Nat} {seen : List Nat} :
      s.callers i = .clearStop tickMs seen →
      Step s { s.goto i (.setTick tickMs seen) with stopRequested := false }
  | setTick {s : Threads ι} {i : ι} {tickMs : Nat} {seen : List Nat} :
      s.callers i = .setTick tickMs seen → Step s { s.goto i (.spawn seen) with tickMs := tickMs }
  | spawn {s : Threads ι} {i : ι} {seen : List Nat} : s.callers i = .spawn seen →
      Step s { (s.goto i (.returns true seen)).taskGoto s.spawned .check with
        spawned := s.spawned+1 }
  | noTask {s : Threads ι} {i : ι} {seen : List Nat} : s.callers i = .spawn seen →
      Step s (s.goto i (.spawnFailed seen))
  | spawnFailed {s : Threads ι} {i : ι} {seen : List Nat} : s.callers i = .spawnFailed seen →
      Step s { s.goto i (.returns false seen) with running := false }
  | returns {s : Threads ι} {i : ι} {result : Bool} {seen : List Nat} :
      s.callers i = .returns result seen →
      Step s { s.goto i .idle with returned := s.returned ++ [(result,seen)] }
  | stop {s : Threads ι} {i : ι} : s.callers i = .stop → Step s (s.storeStop i)
  | check {s : Threads ι} {k : Nat} : s.tasks k = .check → s.stopRequested = false →
      Step s (s.taskGoto k .body)
  | leave {s : Threads ι} {k : Nat} : s.tasks k = .check → s.stopRequested = true →
      Step s (s.taskGoto k .clearRunning)
  | body {s : Threads ι} {k : Nat} : s.tasks k = .body → Step s (s.taskGoto k .check)
  | clearRunning {s : Threads ι} {k : Nat} : s.tasks k = .clearRunning →
      Step s { s.taskGoto k .ended with running := false }

abbrev Run (s t : Threads ι) : Prop := Relation.ReflTransGen Step s t

end

/-- The parties that `_running` is up for: a start until there is a task, then the task. -/
def Holds (s : Threads ι) : ι ⊕ Nat → Prop
  | .inl i => (s.callers i).Starting
  | .inr k => s.Live k

structure Inv (s : Threads ι) : Prop where
  token : Exclusive s.Holds s.running
  seen : ∀ i, ∀ x ∈ (s.callers i).seen?, x = []
  returned : ∀ x, (true,x) ∈ s.returned → x = []

theorem boot_inv : (boot : Threads ι).Inv where
  token := by
    have hnone : ∀ z, ¬ (boot : Threads ι).Holds z := by
      intro z hz
      cases z with
      | inl i => exact hz
      | inr k => exact hz rfl
    exact ⟨fun hx => absurd hx (hnone _),fun hx => absurd hx (hnone _)⟩
  seen _ _ h := by cases h
  returned _ h := by cases h

variable {s t : Threads ι}

theorem live_eq_nil (h : ∀ k, ¬ s.Live k) : s.live = [] := by
  refine List.filter_eq_nil_iff.mpr fun k _ => ?_
  simpa [Live] using h k

theorem InLoop.live {k : Nat} (h : s.InLoop k) : s.Live k := by
  rcases h with h | h <;> simp [Live,h]

theorem Holds.of_taskGoto {k : Nat} {pc : TaskPc} {z : ι ⊕ Nat}
    (h : (s.taskGoto k pc).Holds z) : z = .inr k ∧ pc ≠ .ended ∨ s.Holds z ∧ z ≠ .inr k := by
  cases z with
  | inl i => exact .inr ⟨h,Sum.inl_ne_inr⟩
  | inr j =>
    simp only [Holds,Live,taskGoto] at h
    by_cases hjk : j = k
    · subst hjk
      rw [Function.update_self] at h
      exact .inl ⟨rfl,h⟩
    · rw [Function.update_of_ne hjk] at h
      exact .inr ⟨h,fun h => hjk (Sum.inr.inj h)⟩

theorem Inv.taskStep (h : s.Inv) {k : Nat} (hk : s.InLoop k) (pc : TaskPc) :
    (s.taskGoto k pc).Inv where
  token := h.token.mono fun z hz => by
    rcases Holds.of_taskGoto hz with ⟨rfl,-⟩ | ⟨hz,-⟩
    · exact hk.live
    · exact hz
  seen := h.seen
  returned := h.returned

variable [DecidableEq ι]

theorem Holds.of_goto {i : ι} {pc : CallerPc} {z : ι ⊕ Nat} (h : (s.goto i pc).Holds z) :
    z = .inl i ∧ pc.Starting ∨ s.Holds z ∧ z ≠ .inl i := by
  cases z with
  | inr k => exact .inr ⟨h,Sum.inr_ne_inl⟩
  | inl j =>
    simp only [Holds,goto] at h
    by_cases hji : j = i
    · subst hji
      rw [Function.update_self] at h
      exact .inl ⟨rfl,h⟩
    · rw [Function.update_of_ne hji] at h
      exact .inr ⟨h,fun h => hji (Sum.inl.inj h)⟩

theorem Inv.seen_goto (h : s.Inv) (i : ι) {pc : CallerPc} (hseen : ∀ x ∈ pc.seen?, x = []) :
    ∀ j, ∀ x ∈ ((s.goto i pc).callers j).seen?, x = [] := by
  intro j
  simp only [goto]
  by_cases hji : j = i
  · subst hji
    rwa [Function.update_self]
  · rw [Function.update_of_ne hji]
    exact h.seen j

theorem Inv.callerStep (h : s.Inv) (i : ι) (pc : CallerPc)
    (hstart : pc.Starting → (s.callers i).Starting) (hseen : ∀ x ∈ pc.seen?, x = [])
    (stopRequested : Bool) (tickMs : Nat) :
    ({ s.goto i pc with stopRequested := stopRequested, tickMs := tickMs } : Threads ι).Inv where
  token := h.token.mono fun z hz => by
    rcases Holds.of_goto hz with ⟨rfl,hpc⟩ | ⟨hz,-⟩
    · exact hstart hpc
    · exact hz
  seen := h.seen_goto i hseen
  returned := h.returned

theorem step_inv (h : s.Inv) (hst : Step s t) : t.Inv := by
  cases hst with
  | callStart i tickMs hpc =>
    exact h.callerStep i (.exchange tickMs) (fun h => False.elim h) (fun _ h => by cases h) _ _
  | callStop i hpc =>
    exact h.callerStep i .stop (fun h => False.elim h) (fun _ h => by cases h) _ _
  | @alreadyRunning i tickMs hpc hrun =>
    exact h.callerStep i (.returns false s.live) (fun h => False.elim h)
      (fun _ h => by cases h) _ _
  | @exchange i tickMs hpc hrun =>
    have hfree : Exclusive s.Holds false := hrun ▸ h.token
    refine ⟨hfree.acquire (x := .inl i) fun z hz => ?_,h.seen_goto i fun x hx => ?_,h.returned⟩
    · exact (Holds.of_goto hz).imp And.left And.left
    · cases hx
      exact live_eq_nil fun k => hfree.free (.inr k)
  | @clearStop i tickMs seen hpc =>
    exact h.callerStep i (.setTick tickMs seen) (fun _ => by rw [hpc]; trivial)
      (fun x hx => h.seen i x (by rwa [hpc])) false s.tickMs
  | @setTick i tickMs seen hpc =>
    exact h.callerStep i (.spawn seen) (fun _ => by rw [hpc]; trivial)
      (fun x hx => h.seen i x (by rwa [hpc])) s.stopRequested tickMs
  | @spawn i seen hpc =>
    have hi : s.Holds (.inl i) := show (s.callers i).Starting by rw [hpc]; trivial
    refine ⟨h.token.handOver (y := .inr s.spawned) hi fun z hz => ?_,
      h.seen_goto i fun x hx => h.seen i x (by rwa [hpc]),h.returned⟩
    have hz' : ((s.goto i (.returns true seen)).taskGoto s.spawned .check).Holds z := hz
    rcases Holds.of_taskGoto hz' with ⟨rfl,-⟩ | ⟨hz',-⟩
    · exact .inl rfl
    · exact (Holds.of_goto hz').elim (fun hz => False.elim hz.2) .inr
  | @noTask i seen hpc =>
    exact h.callerStep i (.spawnFailed seen) (fun _ => by rw [hpc]; trivial)
      (fun _ h => by cases h) _ _
  | @spawnFailed i seen hpc =>
    have hi : s.Holds (.inl i) := show (s.callers i).Starting by rw [hpc]; trivial
    refine ⟨h.token.release hi (fun z hz => ?_) false,h.seen_goto i (fun _ h => by cases h),
      h.returned⟩
    have hz' : (s.goto i (.returns false seen)).Holds z := hz
    exact (Holds.of_goto hz').elim (fun hz => False.elim hz.2) id
  | @returns i result seen hpc =>
    have hidle := h.callerStep i .idle (fun h => False.elim h) (fun _ h => by cases h)
      s.stopRequested s.tickMs
    refine ⟨hidle.token,hidle.seen,fun x hx => ?_⟩
    rcases List.mem_append.mp hx with hx | hx
    · exact h.returned x hx
    · cases List.mem_singleton.mp hx
      exact h.seen i seen (by rw [hpc]; rfl)
  | @stop i hpc =>
    exact h.callerStep i .idle (fun h => False.elim h) (fun _ h => by cases h) true s.tickMs
  | check hk hstop => exact h.taskStep (.inl hk) _
  | leave hk hstop => exact h.taskStep (.inl hk) _
  | body hk => exact h.taskStep (.inr hk) _
  | @clearRunning k hk =>
    have hlive : s.Holds (.inr k) := by
      intro hend
      rw [hk] at hend
      cases hend
    refine ⟨h.token.release hlive (fun z hz => ?_) false,h.seen,h.returned⟩
    have hz' : (s.taskGoto k .ended).Holds z := hz
    exact (Holds.of_taskGoto hz').elim (fun hz => absurd rfl hz.2) id

theorem run_inv (h : Run boot s) : s.Inv := by
  induction h with
  | refl => exact boot_inv
  | tail _ hst ih => exact step_inv ih hst

omit [DecidableEq ι] in
theorem InLoop.of_taskGoto {j k : Nat} {pc : TaskPc} (hj : s.InLoop j ∨ pc = .ended)
    (h : (s.taskGoto j pc).InLoop k) : s.InLoop k := by
  simp only [InLoop,taskGoto] at h
  by_cases hkj : k = j
  · subst hkj
    rw [Function.update_self] at h
    rcases hj with hj | rfl
    · exact hj
    · exact absurd h (by decide)
  · rwa [Function.update_of_ne hkj] at h

/-- A task that was spawned before a stop finds it, as long as it is in its loop: only a start
that holds the token clears it. -/
theorem step_stopped (h : s.Inv) (hst : Step s t) {k : Nat} (hk : k < s.spawned)
    (hs : s.InLoop k → s.stopRequested = true) :
    k < t.spawned ∧ (t.InLoop k → t.stopRequested = true) := by
  cases hst with
  | callStart i tickMs hpc => exact ⟨hk,hs⟩
  | callStop i hpc => exact ⟨hk,hs⟩
  | alreadyRunning hpc hrun => exact ⟨hk,hs⟩
  | exchange hpc hrun => exact ⟨hk,hs⟩
  | @clearStop i tickMs seen hpc =>
    refine ⟨hk,fun hin => ?_⟩
    have hi : s.Holds (.inl i) := show (s.callers i).Starting by rw [hpc]; trivial
    have hloop : s.InLoop k := hin
    have hsame := h.token.unique hi (show s.Holds (.inr k) from hloop.live)
    cases hsame
  | setTick hpc => exact ⟨hk,hs⟩
  | @spawn i seen hpc =>
    refine ⟨Nat.lt_succ_of_lt hk,fun hin => hs ?_⟩
    have hne : k ≠ s.spawned := Nat.ne_of_lt hk
    simpa [InLoop,taskGoto,goto,Function.update_of_ne hne] using hin
  | noTask hpc => exact ⟨hk,hs⟩
  | spawnFailed hpc => exact ⟨hk,hs⟩
  | returns hpc => exact ⟨hk,hs⟩
  | stop hpc => exact ⟨hk,fun _ => rfl⟩
  | check hj hstop => exact ⟨hk,fun hin => hs (hin.of_taskGoto (.inl (.inl hj)))⟩
  | leave hj hstop => exact ⟨hk,fun hin => hs (hin.of_taskGoto (.inl (.inl hj)))⟩
  | body hj => exact ⟨hk,fun hin => hs (hin.of_taskGoto (.inl (.inr hj)))⟩
  | @clearRunning j hj =>
    have hin' : (s.taskGoto j .ended).InLoop k → s.InLoop k := fun hin => hin.of_taskGoto (.inr rfl)
    exact ⟨hk,fun hin => hs (hin' hin)⟩

theorem run_stopped (hs : Run boot s) {u : Threads ι} (h : Run s u) {k : Nat}
    (hk : k < s.spawned) (hstop : s.stopRequested = true) :
    k < u.spawned ∧ (u.InLoop k → u.stopRequested = true) := by
  induction h with
  | refl => exact ⟨hk,fun _ => hstop⟩
  | tail hrun hst ih => exact step_stopped (run_inv (hs.trans hrun)) hst ih.1 ih.2

/-- There is one loop task at most; a start returns true only if there was none, and there is
none until it spawns its own; and every task that was spawned before the store of a stop finds
it, as long as that task is in its loop. -/
theorem single_loop_task (h : Run boot s) :
    (∀ k k', s.Live k → s.Live k' → k = k') ∧
    (∀ seen, (true,seen) ∈ s.returned → seen = []) ∧
    (∀ i, (s.callers i).Starting → ∀ k, ¬ s.Live k) ∧
    ∀ i, s.callers i = .stop → ∀ t, Run (s.storeStop i) t → ∀ k < s.spawned,
      t.InLoop k → t.stopRequested = true := by
  have hinv := run_inv h
  refine ⟨fun k k' hk hk' => ?_,hinv.returned,fun i hi k hk => ?_,fun i hi t ht k hk => ?_⟩
  · exact Sum.inr.inj (hinv.token.unique (show s.Holds (.inr k) from hk)
      (show s.Holds (.inr k') from hk'))
  · have hsame := hinv.token.unique (show s.Holds (.inl i) from hi) (show s.Holds (.inr k) from hk)
    cases hsame
  · exact (run_stopped (h.tail (.stop hi)) ht hk rfl).2

theorem single_loop_task_stopped : ∃ s : Threads Bool, Run boot s ∧ s.returned = [(true,[])] ∧
    s.Live 0 ∧ (∀ k, s.Live k → k = 0) ∧ s.callers false = .stop ∧
    ∀ t, Run (s.storeStop false) t → t.InLoop 0 → t.stopRequested = true := by
  have h : Run (boot : Threads Bool) _ := .single (.callStart true 10 rfl)
  have h := h.tail (.exchange (i := true) rfl rfl)
  have h := h.tail (.clearStop (i := true) rfl)
  have h := h.tail (.setTick (i := true) rfl)
  have h := h.tail (.spawn (i := true) rfl)
  have h := h.tail (.check (k := 0) rfl rfl)
  have h := h.tail (.returns (i := true) rfl)
  have h := h.tail (.callStop false rfl)
  obtain ⟨hone,-,-,hstop⟩ := single_loop_task h
  refine ⟨_,h,rfl,fun h => (by cases h),fun k hk => hone k 0 hk fun h => (by cases h),rfl,
    fun t ht => hstop false rfl t ht 0 (by decide)⟩

end Threads

end RNS.Reticulum
