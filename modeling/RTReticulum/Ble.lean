import RTReticulum.Library.RingBuffer
import RTReticulum.Types

/-! `rnode_ble_bridge.cpp`: the ring between the write callback, which runs on the task of the
Bluetooth host, and the main loop of the bridge, one access to the ring after the other. -/
set_option autoImplicit false

namespace HeltecV3.RNodeBleBridge
open RNS RingBuffer

abbrev rxRingSize : Nat := 2048

inductive ProducerPc where
  | idle
  /-- `size_t next = (g_rx_head + 1) % RX_RING_SIZE`. -/
  | readHead (b : UInt8) (rest : Bytes)
  /-- `if (next == g_rx_tail) break`. -/
  | readTail (next : Nat) (b : UInt8) (rest : Bytes)
  /-- `g_rx_ring[g_rx_head] = buf[i]`: the index, then the slot. -/
  | readIndex (next : Nat) (b : UInt8) (rest : Bytes)
  | writeSlot (index next : Nat) (b : UInt8) (rest : Bytes)
  /-- `g_rx_head = next`. -/
  | writeHead (next : Nat) (b : UInt8) (rest : Bytes)
  deriving DecidableEq

def ProducerPc.loop : Bytes → ProducerPc
  | [] => .idle
  | b :: rest => .readHead b rest

inductive ConsumerPc where
  /-- It does not drain the ring. -/
  | away
  /-- `while (g_rx_tail != g_rx_head)`; nobody else writes the tail, so it does not matter which
  of the two is read first. -/
  | readTail
  | readHead (tail : Nat)
  /-- `uint8_t b = g_rx_ring[g_rx_tail]`: the index, then the slot. -/
  | readIndex
  | readSlot (index : Nat)
  /-- `g_rx_tail = (g_rx_tail + 1) % RX_RING_SIZE`. -/
  | readOld (b : UInt8)
  | writeTail (next : Nat) (b : UInt8)
  /-- Inside `feed_byte(b)`. -/
  | feedByte (b : UInt8)
  deriving DecidableEq

/-- The ring, the two tasks, and the bytes that were accepted and handed over so far. A byte is
accepted when the head is moved past it. -/
structure RxRing where
  head : Nat
  tail : Nat
  slots : Nat → UInt8
  producer : ProducerPc
  consumer : ConsumerPc
  accepted : Bytes
  handed : Bytes

namespace RxRing

def boot : RxRing := ⟨0,0,fun _ => 0,.idle,.away,[],[]⟩

def occupied (s : RxRing) : List Nat := RingBuffer.occupied rxRingSize s.head s.tail

def content (s : RxRing) : Bytes := s.occupied.map s.slots

/-- One access of one of the two tasks to the head, the tail or a slot, or a call or return. The
call of `feed_byte` touches none of them and comes right after the tail is written. -/
inductive Step : RxRing → RxRing → Prop where
  /-- A write of the host; what an attribute can hold fits the buffer, so that
  `ble_hs_mbuf_to_flat` copies all of it. -/
  | write {s : RxRing} (om : Bytes) : s.producer = .idle → om.length ≤ 512 →
      Step s { s with producer := .loop om }
  | readHead {s : RxRing} {b : UInt8} {rest : Bytes} : s.producer = .readHead b rest →
      Step s { s with producer := .readTail ((s.head+1) % rxRingSize) b rest }
  | full {s : RxRing} {next : Nat} {b : UInt8} {rest : Bytes} :
      s.producer = .readTail next b rest → next = s.tail → Step s { s with producer := .idle }
  | room {s : RxRing} {next : Nat} {b : UInt8} {rest : Bytes} :
      s.producer = .readTail next b rest → next ≠ s.tail →
      Step s { s with producer := .readIndex next b rest }
  | readIndex {s : RxRing} {next : Nat} {b : UInt8} {rest : Bytes} :
      s.producer = .readIndex next b rest →
      Step s { s with producer := .writeSlot s.head next b rest }
  | writeSlot {s : RxRing} {index next : Nat} {b : UInt8} {rest : Bytes} :
      s.producer = .writeSlot index next b rest →
      Step s { s with
        slots := Function.update s.slots index b, producer := .writeHead next b rest }
  | writeHead {s : RxRing} {next : Nat} {b : UInt8} {rest : Bytes} :
      s.producer = .writeHead next b rest →
      Step s { s with head := next, accepted := s.accepted ++ [b], producer := .loop rest }
  | drain {s : RxRing} : s.consumer = .away → Step s { s with consumer := .readTail }
  | readTail {s : RxRing} : s.consumer = .readTail → Step s { s with consumer := .readHead s.tail }
  | drained {s : RxRing} {tail : Nat} : s.consumer = .readHead tail → tail = s.head →
      Step s { s with consumer := .away }
  | more {s : RxRing} {tail : Nat} : s.consumer = .readHead tail → tail ≠ s.head →
      Step s { s with consumer := .readIndex }
  | readSlotIndex {s : RxRing} : s.consumer = .readIndex →
      Step s { s with consumer := .readSlot s.tail }
  | readSlot {s : RxRing} {index : Nat} : s.consumer = .readSlot index →
      Step s { s with consumer := .readOld (s.slots index) }
  | readOld {s : RxRing} {b : UInt8} : s.consumer = .readOld b →
      Step s { s with consumer := .writeTail ((s.tail+1) % rxRingSize) b }
  | writeTail {s : RxRing} {next : Nat} {b : UInt8} : s.consumer = .writeTail next b →
      Step s { s with tail := next, handed := s.handed ++ [b], consumer := .feedByte b }
  | fed {s : RxRing} {b : UInt8} : s.consumer = .feedByte b →
      Step s { s with consumer := .readTail }

abbrev Run (s : RxRing) : Prop := Relation.ReflTransGen Step boot s

def Room (s : RxRing) (next : Nat) : Prop :=
  next = RingBuffer.next rxRingSize s.head ∧ next ≠ s.tail

/-- What the producer has read is what it would read now, but for a tail that has moved on. -/
def Produces (s : RxRing) : ProducerPc → Prop
  | .idle | .readHead _ _ => True
  | .readTail next _ _ => next = RingBuffer.next rxRingSize s.head
  | .readIndex next _ _ => s.Room next
  | .writeSlot index next _ _ => s.Room next ∧ index = s.head
  | .writeHead next b _ => s.Room next ∧ s.slots s.head = b

def Consumes (s : RxRing) : ConsumerPc → Prop
  | .away | .readTail | .feedByte _ => True
  | .readHead tail => tail = s.tail
  | .readIndex => s.tail ≠ s.head
  | .readSlot index => s.tail ≠ s.head ∧ index = s.tail
  | .readOld b => s.tail ≠ s.head ∧ s.slots s.tail = b
  | .writeTail next b =>
    s.tail ≠ s.head ∧ s.slots s.tail = b ∧ next = RingBuffer.next rxRingSize s.tail

structure Inv (s : RxRing) : Prop where
  head_lt : s.head < rxRingSize
  tail_lt : s.tail < rxRingSize
  fifo : s.accepted = s.handed ++ s.content
  produces : s.Produces s.producer
  consumes : s.Consumes s.consumer

variable {s t : RxRing}

theorem boot_inv : boot.Inv where
  head_lt := by decide
  tail_lt := by decide
  fifo := rfl
  produces := trivial
  consumes := trivial

theorem content_push (h : s.Inv) {next : Nat} (hroom : s.Room next) :
    ({ s with head := next } : RxRing).content = s.content ++ [s.slots s.head] := by
  obtain ⟨rfl,hne⟩ := hroom
  simp only [content,occupied,occupied_push h.head_lt h.tail_lt hne,List.map_append,
    List.map_singleton]

theorem content_pop (h : s.Inv) (hne : s.tail ≠ s.head) : s.content =
    s.slots s.tail :: ({ s with tail := RingBuffer.next rxRingSize s.tail } : RxRing).content := by
  simp only [content,occupied,occupied_pop h.head_lt h.tail_lt hne,List.map_cons]

/-- The free slot at the head is nobody's. -/
theorem content_writeSlot (h : s.Inv) (b : UInt8) :
    ({ s with slots := Function.update s.slots s.head b } : RxRing).content = s.content := by
  refine List.map_congr_left fun i hi => ?_
  exact Function.update_of_ne (mem_occupied h.head_lt h.tail_lt hi).2 _ _

/-- What a step of the producer leaves to the consumer. -/
theorem Consumes.of_head {pc : ConsumerPc} (h : s.Consumes pc) {next : Nat}
    (hne : next ≠ s.tail) : ({ s with head := next } : RxRing).Consumes pc := by
  cases pc with
  | away => trivial
  | readTail => trivial
  | readHead tail => exact h
  | readIndex => exact hne.symm
  | readSlot index => exact ⟨hne.symm,h.2⟩
  | readOld b => exact ⟨hne.symm,h.2⟩
  | writeTail next b => exact ⟨hne.symm,h.2⟩
  | feedByte b => trivial

theorem Consumes.of_slots {pc : ConsumerPc} (h : s.Consumes pc) (b : UInt8) :
    ({ s with slots := Function.update s.slots s.head b } : RxRing).Consumes pc := by
  have hslot (hne : s.tail ≠ s.head) : Function.update s.slots s.head b s.tail = s.slots s.tail :=
    Function.update_of_ne hne _ _
  cases pc with
  | away => trivial
  | readTail => trivial
  | readHead tail => exact h
  | readIndex => exact h
  | readSlot index => exact h
  | readOld b => exact ⟨h.1,(hslot h.1).trans h.2⟩
  | writeTail next b => exact ⟨h.1,(hslot h.1).trans h.2.1,h.2.2⟩
  | feedByte b => trivial

/-- What a step of the consumer leaves to the producer: there is still room. -/
theorem Produces.of_tail {pc : ProducerPc} (h : s.Produces pc) (hinv : s.Inv)
    (hne : s.tail ≠ s.head) :
    ({ s with tail := RingBuffer.next rxRingSize s.tail } : RxRing).Produces pc := by
  have hroom {next : Nat} (h : s.Room next) :
      ({ s with tail := RingBuffer.next rxRingSize s.tail } : RxRing).Room next := by
    refine ⟨h.1,fun heq => hne ?_⟩
    exact (next_inj hinv.head_lt hinv.tail_lt (h.1.symm.trans heq)).symm
  cases pc with
  | idle => trivial
  | readHead b rest => trivial
  | readTail next b rest => exact h
  | readIndex next b rest => exact hroom h
  | writeSlot index next b rest => exact ⟨hroom h.1,h.2⟩
  | writeHead next b rest => exact ⟨hroom h.1,h.2⟩

theorem produces_loop (s : RxRing) (rest : Bytes) : s.Produces (.loop rest) := by
  cases rest <;> trivial

theorem step_inv (h : s.Inv) (hst : Step s t) : t.Inv := by
  obtain ⟨hhead,htail,hfifo,hprod,hcons⟩ := id h
  cases hst with
  | write om hpc hlen => exact ⟨hhead,htail,hfifo,produces_loop _ om,hcons⟩
  | readHead hpc => exact ⟨hhead,htail,hfifo,rfl,hcons⟩
  | full hpc heq => exact ⟨hhead,htail,hfifo,trivial,hcons⟩
  | room hpc hne =>
    rw [hpc] at hprod
    exact ⟨hhead,htail,hfifo,⟨hprod,hne⟩,hcons⟩
  | readIndex hpc =>
    rw [hpc] at hprod
    exact ⟨hhead,htail,hfifo,⟨hprod,rfl⟩,hcons⟩
  | @writeSlot index next b rest hpc =>
    rw [hpc] at hprod
    obtain ⟨hroom,rfl⟩ := hprod
    refine ⟨hhead,htail,?_,⟨hroom,Function.update_self _ _ _⟩,hcons.of_slots b⟩
    exact hfifo.trans (congrArg (s.handed ++ ·) (content_writeSlot h b).symm)
  | @writeHead next b rest hpc =>
    rw [hpc] at hprod
    obtain ⟨hroom,rfl⟩ := hprod
    refine ⟨by rw [hroom.1]; exact next_lt hhead,htail,?_,produces_loop _ rest,
      hcons.of_head hroom.2⟩
    have hpush := congrArg (s.handed ++ ·) (content_push h hroom)
    rw [← List.append_assoc,← hfifo] at hpush
    exact hpush.symm
  | drain hpc => exact ⟨hhead,htail,hfifo,hprod,trivial⟩
  | readTail hpc => exact ⟨hhead,htail,hfifo,hprod,rfl⟩
  | drained hpc heq => exact ⟨hhead,htail,hfifo,hprod,trivial⟩
  | more hpc hne =>
    rw [hpc] at hcons
    exact ⟨hhead,htail,hfifo,hprod,fun heq => hne (hcons.trans heq)⟩
  | readSlotIndex hpc =>
    rw [hpc] at hcons
    exact ⟨hhead,htail,hfifo,hprod,hcons,rfl⟩
  | readSlot hpc =>
    rw [hpc] at hcons
    obtain ⟨hne,rfl⟩ := hcons
    exact ⟨hhead,htail,hfifo,hprod,hne,rfl⟩
  | readOld hpc =>
    rw [hpc] at hcons
    exact ⟨hhead,htail,hfifo,hprod,hcons.1,hcons.2,rfl⟩
  | @writeTail next b hpc =>
    rw [hpc] at hcons
    obtain ⟨hne,rfl,rfl⟩ := hcons
    refine ⟨hhead,next_lt htail,?_,hprod.of_tail h hne,trivial⟩
    rw [content_pop h hne] at hfifo
    exact hfifo.trans (List.append_cons _ _ _)
  | fed hpc => exact ⟨hhead,htail,hfifo,hprod,trivial⟩

theorem run_inv (h : Run s) : s.Inv := by
  induction h with
  | refl => exact boot_inv
  | tail _ hst ih => exact step_inv ih hst

/-- Whatever the order of the two tasks, the bytes handed to the parser are those accepted, in
order, but for the ones in the ring; no slot is written whose byte is still to be handed over;
and a write stops before its end only where all slots but one are in use. -/
theorem rx_ring_fifo (h : Run s) :
    s.head < rxRingSize ∧ s.tail < rxRingSize ∧
    s.handed <+: s.accepted ∧ s.accepted = s.handed ++ s.content ∧
    (∀ index next b rest, s.producer = .writeSlot index next b rest →
      index < rxRingSize ∧ index ∉ s.occupied) ∧
    ∀ next b rest t, s.producer = .readTail next b rest → Step s t → t.producer = .idle →
      s.content.length = rxRingSize-1 := by
  have hinv := run_inv h
  refine ⟨hinv.head_lt,hinv.tail_lt,?_,hinv.fifo,fun index next b rest hpc => ?_,
    fun next b rest t hpc hst hidle => ?_⟩
  · rw [hinv.fifo]
    exact List.prefix_append _ _
  · have hprod := hinv.produces
    rw [hpc] at hprod
    obtain ⟨-,rfl⟩ := hprod
    exact ⟨hinv.head_lt,fun hmem => (mem_occupied hinv.head_lt hinv.tail_lt hmem).2 rfl⟩
  · have hprod := hinv.produces
    rw [hpc] at hprod
    have hfull : next = s.tail := by
      cases hst <;> simp_all
    rw [content,List.length_map]
    exact occupied_full hinv.head_lt hinv.tail_lt (hprod.symm.trans hfull)

theorem rx_ring_fifo_two : ∃ s, Run s ∧ s.accepted = [0x41,0x42] ∧ s.handed = [0x41] ∧
    s.accepted = s.handed ++ s.content ∧ s.tail < rxRingSize := by
  have h : Run _ := .single (.write [0x41,0x42] rfl (by decide))
  have h := h.tail (.readHead rfl)
  have h := h.tail (.room rfl (by decide))
  have h := h.tail (.readIndex rfl)
  have h := h.tail (.writeSlot rfl)
  have h := h.tail (.drain rfl)
  have h := h.tail (.writeHead rfl)
  have h := h.tail (.readTail rfl)
  have h := h.tail (.readHead rfl)
  have h := h.tail (.more rfl (by decide))
  have h := h.tail (.room rfl (by decide))
  have h := h.tail (.readSlotIndex rfl)
  have h := h.tail (.readIndex rfl)
  have h := h.tail (.readSlot rfl)
  have h := h.tail (.writeSlot rfl)
  have h := h.tail (.readOld rfl)
  have h := h.tail (.writeTail rfl)
  have h := h.tail (.writeHead rfl)
  obtain ⟨-,htail,-,hfifo,-,-⟩ := rx_ring_fifo h
  exact ⟨_,h,rfl,rfl,hfifo,htail⟩

end RxRing

end HeltecV3.RNodeBleBridge
