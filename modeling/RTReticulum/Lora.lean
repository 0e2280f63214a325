import RTReticulum.Types

/-! `lora_interface.cpp`: the flag that the radio raises, the queue of frames to transmit, and
`poll`, statement by statement, with interrupts and other tasks between any two of them. -/
set_option autoImplicit false

namespace HeltecV3
open RNS

abbrev maxFrame : Nat := Reticulum.mtu + 32

structure RxPacket where
  data : Bytes
  ok : Bool
  deriving DecidableEq

inductive PollPc where
  /-- It is not in `poll`. -/
  | idle
  /-- `xQueueReceive`, the condition of the loop of `drain_tx_queue`. -/
  | queueReceive
  | standby (item : Bytes)
  | transmit (item : Bytes)
  /-- `g_packet_pending = false` and `startReceive` in that loop. -/
  | clearSent
  | restartSent
  /-- `if (!g_packet_pending) return`, then `g_packet_pending = false`. -/
  | check
  | clear
  | getPacketLength
  | readData (p : RxPacket)
  | restart
  deriving DecidableEq

def PollPc.Sending : PollPc → Prop
  | .transmit _ | .clearSent | .restartSent => True
  | _ => False

/-- From the moment the flag is down to the end of `readData`. -/
def PollPc.Reading : PollPc → Prop
  | .getPacketLength | .readData _ => True
  | _ => False

/-- The interface once it is started: the flag, the queue, the packets that can still be read
from the radio, and where `poll` is. The last four are what has happened so far: `transmitted` is
what was handed to RadioLib's `transmit`, which may fail. -/
structure LoraInterface where
  pending : Bool
  txQueue : List Bytes
  radio : List RxPacket
  pc : PollPc
  received : List RxPacket
  read : List RxPacket
  delivered : List Bytes
  transmitted : List Bytes
  deriving DecidableEq

namespace LoraInterface

def started : LoraInterface where
  pending := false
  txQueue := []
  radio := []
  pc := .idle
  received := []
  read := []
  delivered := []
  transmitted := []

def onDio1 (p : RxPacket) (s : LoraInterface) : LoraInterface :=
  { s with pending := true, radio := s.radio ++ [p], received := s.received ++ [p] }

/-- `send_outgoing`, with the random byte it draws; a full queue drops the frame. -/
def sendOutgoing (random : UInt8) (data : Bytes) (s : LoraInterface) : LoraInterface :=
  let item := (random &&& 0xF0) :: data.take (maxFrame-1)
  if s.txQueue.length < 8 then { s with txQueue := s.txQueue ++ [item] } else s

def finishRead (p : RxPacket) (s : LoraInterface) : LoraInterface :=
  { s with
    radio := s.radio.erase p
    read := s.read ++ [p]
    delivered := if p.ok ∧ 1 < p.data.length then s.delivered ++ [p.data.tail] else s.delivered
    pc := .restart }

/-- One statement of `poll`. Which of several packets the radio hands out is left open. -/
inductive Stmt : LoraInterface → LoraInterface → Prop where
  | call {s : LoraInterface} : s.pc = .idle → Stmt s { s with pc := .queueReceive }
  | queueReceive {s : LoraInterface} {item : Bytes} {items : List Bytes} :
      s.pc = .queueReceive → s.txQueue = item :: items →
      Stmt s { s with txQueue := items, pc := .standby item }
  | drained {s : LoraInterface} : s.pc = .queueReceive → s.txQueue = [] →
      Stmt s { s with pc := .check }
  /-- A packet stays readable until `standby` is called. -/
  | standby {s : LoraInterface} {item : Bytes} : s.pc = .standby item →
      Stmt s { s with radio := [], pc := .transmit item }
  /-- The end of a transmission raises the flag as well, unless it times out. -/
  | transmit {s : LoraInterface} {item : Bytes} (done : Bool) : s.pc = .transmit item →
      Stmt s { s with
        pending := s.pending || done, radio := [], transmitted := s.transmitted ++ [item]
        pc := .clearSent }
  | clearSent {s : LoraInterface} : s.pc = .clearSent →
      Stmt s { s with pending := false, pc := .restartSent }
  | restartSent {s : LoraInterface} : s.pc = .restartSent →
      Stmt s { s with pc := .queueReceive }
  | checkUnset {s : LoraInterface} : s.pc = .check → s.pending = false →
      Stmt s { s with pc := .idle }
  | check {s : LoraInterface} : s.pc = .check → s.pending = true → Stmt s { s with pc := .clear }
  | clear {s : LoraInterface} : s.pc = .clear →
      Stmt s { s with pending := false, pc := .getPacketLength }
  | noPacket {s : LoraInterface} : s.pc = .getPacketLength → s.radio = [] →
      Stmt s { s with pc := .restart }
  | badLength {s : LoraInterface} {p : RxPacket} : s.pc = .getPacketLength → p ∈ s.radio →
      p.data.length = 0 ∨ maxFrame < p.data.length →
      Stmt s { s with radio := s.radio.erase p, read := s.read ++ [p], pc := .restart }
  | getPacketLength {s : LoraInterface} {p : RxPacket} : s.pc = .getPacketLength →
      p ∈ s.radio → ¬ (p.data.length = 0 ∨ maxFrame < p.data.length) →
      Stmt s { s with pc := .readData p }
  | readData {s : LoraInterface} {p : RxPacket} : s.pc = .readData p → Stmt s (s.finishRead p)
  | restart {s : LoraInterface} : s.pc = .restart → Stmt s { s with pc := .idle }

inductive Step (guard : LoraInterface → Prop) : LoraInterface → LoraInterface → Prop where
  | onDio1 {s : LoraInterface} (p : RxPacket) : ¬ s.pc.Sending → Step guard s (s.onDio1 p)
  | sendOutgoing {s : LoraInterface} (random : UInt8) (data : Bytes) :
      Step guard s (s.sendOutgoing random data)
  | poll {s t : LoraInterface} : guard s → Stmt s t → Step guard s t

abbrev Run (guard : LoraInterface → Prop) (s : LoraInterface) : Prop :=
  Relation.ReflTransGen (Step guard) started s

/-- Every packet received has been read or can be, and the flag is up for those that can be,
but for the one `poll` has taken it down for and is about to read. -/
structure Intact (s : LoraInterface) : Prop where
  kept : s.received.Perm (s.read ++ s.radio)
  flagged : s.pending = false → s.radio = [] ∨ (s.pc = .getPacketLength ∧ s.radio.length = 1) ∨
    ∃ p, s.pc = .readData p ∧ s.radio = [p]

/-- `poll` is not about to leave receive mode for a queued frame while a packet is unread, nor
about to take the flag down for more than one. -/
structure Careful (s : LoraInterface) : Prop where
  standby : ∀ item, s.pc = .standby item → s.radio = []
  clear : s.pc = .clear → s.radio.length ≤ 1

structure Inv (s : LoraInterface) : Prop where
  intact : s.Intact
  silent : s.pc.Sending → s.radio = []
  picked : ∀ p, s.pc = .readData p → p ∈ s.radio

variable {s t : LoraInterface}

theorem started_inv : started.Inv :=
  ⟨⟨List.Perm.refl _,fun _ => .inl rfl⟩,fun h => h.elim,fun _ h => by cases h⟩

theorem onDio1_inv (h : s.Inv) (p : RxPacket) (hs : ¬ s.pc.Sending) : (s.onDio1 p).Inv where
  intact := by
    refine ⟨?_,fun hp => by cases hp⟩
    have hkept := h.intact.kept.append_right [p]
    rwa [List.append_assoc] at hkept
  silent hs' := absurd hs' hs
  picked q hq := List.mem_append_left _ (h.picked q hq)

theorem sendOutgoing_inv (h : s.Inv) (random : UInt8) (data : Bytes) :
    (s.sendOutgoing random data).Inv := by
  unfold sendOutgoing
  dsimp only
  split
  · exact ⟨⟨h.intact.kept,h.intact.flagged⟩,h.silent,h.picked⟩
  · exact h

/-- Except while `poll` reads one, every packet in the radio has its flag. -/
theorem Intact.unflagged (h : s.Intact) (hpc : ¬ s.pc.Reading) (hp : s.pending = false) :
    s.radio = [] := by
  rcases h.flagged hp with hr | ⟨hr,-⟩ | ⟨p,hr,-⟩
  · exact hr
  · exact absurd (hr ▸ trivial) hpc
  · exact absurd (hr ▸ trivial) hpc

theorem Inv.goto (h : s.Inv) {pc : PollPc} {items : List Bytes} (hpc : ¬ s.pc.Reading)
    (hread : ¬ pc.Reading) (hsend : ¬ pc.Sending) :
    ({ s with txQueue := items, pc := pc } : LoraInterface).Inv where
  intact := ⟨h.intact.kept,fun hp => .inl (h.intact.unflagged hpc hp)⟩
  silent hs := absurd hs hsend
  picked p hp := absurd ((show pc = .readData p from hp) ▸ trivial) hread

theorem Inv.lastRead (h : s.Inv) {p : RxPacket} (hp : p ∈ s.radio) (delivered : List Bytes) :
    ({ s with radio := s.radio.erase p, read := s.read ++ [p], delivered := delivered,
              pc := .restart } : LoraInterface).Inv where
  intact := by
    have hsplit : (s.read ++ s.radio).Perm (s.read ++ [p] ++ s.radio.erase p) := by
      rw [List.append_assoc]
      exact (List.perm_cons_erase hp).append_left s.read
    refine ⟨h.intact.kept.trans hsplit,fun hpending => .inl ?_⟩
    have hone : s.radio = [p] := by
      rcases h.intact.flagged hpending with hr | ⟨-,hr⟩ | ⟨q,-,hr⟩
      · rw [hr] at hp
        cases hp
      · obtain ⟨q,hq⟩ := List.length_eq_one_iff.mp hr
        rw [hq] at hp ⊢
        rw [List.mem_singleton.mp hp]
      · rw [hr] at hp ⊢
        rw [List.mem_singleton.mp hp]
    simp [hone]
  silent := fun h => h.elim
  picked := fun _ h => by cases h

theorem stmt_inv (h : s.Inv) (hc : s.Careful) (hst : Stmt s t) : t.Inv := by
  cases hst with
  | call hpc => exact h.goto (hpc ▸ id) id id
  | queueReceive hpc hq => exact h.goto (hpc ▸ id) id id
  | drained hpc hq => exact h.goto (hpc ▸ id) id id
  | @standby item hpc =>
    -- The only statement that loses packets, and here there are none.
    have hr := hc.standby item hpc
    have hkept := h.intact.kept
    rw [hr] at hkept
    exact ⟨⟨hkept,fun _ => .inl rfl⟩,fun _ => rfl,fun _ h => by cases h⟩
  | @transmit item done hpc =>
    have hr := h.silent (hpc ▸ trivial)
    have hkept := h.intact.kept
    rw [hr] at hkept
    exact ⟨⟨hkept,fun _ => .inl rfl⟩,fun _ => rfl,fun _ h => by cases h⟩
  | clearSent hpc =>
    have hr := h.silent (hpc ▸ trivial)
    exact ⟨⟨h.intact.kept,fun _ => .inl hr⟩,fun _ => hr,fun _ h => by cases h⟩
  | restartSent hpc => exact h.goto (hpc ▸ id) id id
  | checkUnset hpc hp => exact h.goto (hpc ▸ id) id id
  | check hpc hp => exact h.goto (hpc ▸ id) id id
  | clear hpc =>
    have hle := hc.clear hpc
    refine ⟨⟨h.intact.kept,fun _ => ?_⟩,fun h => h.elim,fun _ h => by cases h⟩
    rcases Nat.le_one_iff_eq_zero_or_eq_one.mp hle with hr | hr
    · exact .inl (List.eq_nil_of_length_eq_zero hr)
    · exact .inr (.inl ⟨rfl,hr⟩)
  | noPacket hpc hr =>
    exact ⟨⟨h.intact.kept,fun _ => .inl hr⟩,fun h => h.elim,fun _ h => by cases h⟩
  | badLength hpc hp hlen => exact h.lastRead hp s.delivered
  | @getPacketLength p hpc hp hlen =>
    refine ⟨⟨h.intact.kept,fun hpending => ?_⟩,fun h => h.elim,fun q hq => ?_⟩
    · rcases h.intact.flagged hpending with hr | ⟨-,hr⟩ | ⟨q,hq,-⟩
      · exact .inl hr
      · obtain ⟨q,hq⟩ := List.length_eq_one_iff.mp hr
        rw [hq,List.mem_singleton] at hp
        exact .inr (.inr ⟨p,rfl,hp ▸ hq⟩)
      · rw [hpc] at hq
        cases hq
    · cases hq
      exact hp
  | @readData p hpc => exact h.lastRead (h.picked p hpc) _
  | restart hpc => exact h.goto (hpc ▸ id) id id

/-- A statement that is not done with care loses a packet, or leaves one without its flag. -/
theorem stmt_careful (h : s.Inv) (hst : Stmt s t) (ht : t.Intact) : s.Careful where
  standby item hpc := by
    cases hst with
    | standby hpc' =>
      have hlen := h.intact.kept.length_eq.symm.trans ht.kept.length_eq
      simpa using hlen
    | _ => simp_all
  clear hpc := by
    cases hst with
    | clear hpc' =>
      rcases ht.flagged rfl with hr | ⟨-,hr⟩ | ⟨q,hq,-⟩
      · simp [show s.radio = [] from hr]
      · exact Nat.le_of_eq hr
      · cases hq
    | _ => simp_all

theorem step_inv (h : s.Inv) (hst : Step Careful s t) : t.Inv := by
  cases hst with
  | onDio1 p hs => exact onDio1_inv h p hs
  | sendOutgoing random data => exact sendOutgoing_inv h random data
  | poll hc hst => exact stmt_inv h hc hst

theorem run_inv (h : Run Careful s) : s.Inv := by
  induction h with
  | refl => exact started_inv
  | tail _ hst ih => exact step_inv ih hst

/-- In a run whose statements of `poll` are all done with care, no packet received is lost, and
none loses its flag before it is read; the first statement that is not done so ends that. -/
theorem run_intact (h : Run Careful s) :
    s.Intact ∧ (s.pc = .idle → s.pending = false → s.received.Perm s.read) ∧
      ∀ t, Stmt s t → (t.Intact ↔ s.Careful) := by
  have hinv := run_inv h
  refine ⟨hinv.intact,fun hpc hp => ?_,fun t hst => ⟨stmt_careful hinv hst,
    fun hc => (stmt_inv hinv hc hst).intact⟩⟩
  have hkept := hinv.intact.kept
  rwa [hinv.intact.unflagged (hpc ▸ id) hp,List.append_nil] at hkept

theorem run_intact_read : ∃ s p, Run Careful s ∧ s.Intact ∧ s.received = [p] ∧ s.read = [p] ∧
    s.delivered = [[0x41]] ∧ s.pc = .idle ∧ s.received.Perm s.read := by
  let p : RxPacket := ⟨[0x00,0x41],true⟩
  have h : Run Careful (started.onDio1 p) := .single (.onDio1 p id)
  have h := h.tail (.poll ⟨fun _ h => (by cases h),fun h => by cases h⟩ (.call rfl))
  have h := h.tail (.poll ⟨fun _ h => (by cases h),fun h => by cases h⟩ (.drained rfl rfl))
  have h := h.tail (.poll ⟨fun _ h => (by cases h),fun h => by cases h⟩ (.check rfl rfl))
  have h := h.tail (.poll ⟨fun _ h => (by cases h),fun _ => Nat.le_refl 1⟩ (.clear rfl))
  have h := h.tail (.poll ⟨fun _ h => (by cases h),fun h => by cases h⟩
    (.getPacketLength rfl (.head _) (by decide)))
  have h := h.tail (.poll ⟨fun _ h => (by cases h),fun h => by cases h⟩ (.readData rfl))
  have h := h.tail (.poll ⟨fun _ h => (by cases h),fun h => by cases h⟩ (.restart rfl))
  exact ⟨_,p,h,(run_intact h).1,rfl,rfl,rfl,rfl,(run_intact h).2.1 rfl rfl⟩

/-- A packet comes in, a task sends a frame, and `poll` is called: it transmits the frame, takes
the flag down, and finds nothing to read. -/
theorem packet_lost : ∃ s p, Run (fun _ => True) s ∧ s.received = [p] ∧ s.read = [] ∧
    s.radio = [] ∧ s.pending = false ∧ s.pc = .idle ∧ ¬ s.Intact := by
  let p : RxPacket := ⟨[0x00,0x41],true⟩
  have h : Run (fun _ => True) (started.onDio1 p) := .single (.onDio1 p id)
  have h := h.tail (.sendOutgoing 0 [0x42])
  have h := h.tail (.poll trivial (.call rfl))
  have h := h.tail (.poll trivial (.queueReceive rfl rfl))
  have h := h.tail (.poll trivial (.standby rfl))
  have h := h.tail (.poll trivial (.transmit true rfl))
  have h := h.tail (.poll trivial (.clearSent rfl))
  have h := h.tail (.poll trivial (.restartSent rfl))
  have h := h.tail (.poll trivial (.drained rfl rfl))
  have h := h.tail (.poll trivial (.checkUnset rfl rfl))
  refine ⟨_,p,h,rfl,rfl,rfl,rfl,rfl,fun hintact => ?_⟩
  have hlen := hintact.kept.length_eq
  cases hlen

end LoraInterface

end HeltecV3
