import RTReticulum.Bridge
import RTReticulum.Lora

/-! `rnode_bridge.cpp` and `rnode_ble_bridge.cpp`: the way of a packet from the radio to the host,
in the main loop of the bridge. -/
set_option autoImplicit false

namespace HeltecV3

namespace LoraInterface

/-- `loop` has an empty body; it is `poll` that reads the radio. -/
def loop (s : LoraInterface) : LoraInterface := s

/-- `send_raw`: the frame is sent at once. The flag that the end of the transmission raises is
taken down. -/
def sendRaw (radioOn : Bool) (random : UInt8) (data : RNS.Bytes) (s : LoraInterface) :
    LoraInterface :=
  if radioOn then
    { s with
      pending := false, radio := []
      transmitted := s.transmitted ++ [(random &&& 0xF0) :: data.take (maxFrame-1)] }
  else s

def standby (s : LoraInterface) : LoraInterface := { s with radio := [] }

end LoraInterface

namespace RNodeKiss
open RNS LoraInterface

def sendStatRssi (rssi : Int) : Effect :=
  let v := rssi+157
  let v := if v < 0 then 0 else v
  let v := if v > 255 then 255 else v
  sendU8 cmdStatRssi (UInt8.ofInt v)

def sendStatSnr (snr4 : Int) : Effect :=
  let v := if snr4 < -128 then -128 else snr4
  let v := if v > 127 then 127 else v
  sendU8 cmdStatSnr (UInt8.ofInt v)

def onLoraRx (rssi snr4 : Int) (data : Bytes) : List Effect :=
  [sendStatRssi rssi,sendStatSnr snr4,.frame cmdData data]

structure AirPacket where
  data : Bytes
  two_le : 2 ≤ data.length
  length_le : data.length ≤ maxFrame

inductive Event where
  | dio1 (p : AirPacket)
  | host (x : Input)
  /-- A host has connected over Bluetooth. -/
  | ready

def Event.packet : Event → Option AirPacket
  | .dio1 p => some p
  | _ => none

/-- A turn of the loop of `run`, with what the radio measures at its end. Over UART the host has
at most one byte in a turn. -/
structure Iteration where
  events : List Event
  rssi : Int
  snr4 : Int

def Iteration.signalled (it : Iteration) : List AirPacket := it.events.filterMap Event.packet

structure Device where
  lora : LoraInterface
  radioOn : Bool
  bridge : Bridge

namespace Device

def boot : Device := ⟨started,true,Bridge.boot⟩

def perform (d : Device) : Effect → Device
  | .set (.radioOnline online) true =>
    if online = d.radioOn then d
    else { d with lora := if online then d.lora else d.lora.standby, radioOn := online }
  | .sendRaw random data => { d with lora := d.lora.sendRaw d.radioOn random data }
  | _ => d

def handle (d : Device) : Event → Device × List Effect
  | .dio1 p => ({ d with lora := d.lora.onDio1 ⟨p.data,true⟩ },[])
  | .host x =>
    let r := d.bridge.feedByte true x
    (r.2.foldl perform { d with bridge := r.1 },r.2)
  | .ready => (d,[indicateReady])

def handleAll (d : Device) : List Event → Device × List Effect
  | [] => (d,[])
  | e :: events =>
    let r := d.handle e
    let q := r.1.handleAll events
    (q.1,r.2 ++ q.2)

def rawRx (rssi snr4 : Int) (before after : LoraInterface) : List Effect :=
  (after.delivered.drop before.delivered.length).flatMap (onLoraRx rssi snr4)

def pollLora (rssi snr4 : Int) (d : Device) : Device × List Effect :=
  ({ d with lora := d.lora.loop },rawRx rssi snr4 d.lora d.lora.loop)

def iterate (d : Device) (it : Iteration) : Device × List Effect × List Effect :=
  let r := d.handleAll it.events
  let q := r.1.pollLora it.rssi it.snr4
  (q.1,r.2,q.2)

end Device

/-- The host reads the two measurements and the packet without its header byte. -/
def Forwarded (p : AirPacket) (polled : List Effect) : Prop :=
  ∃ rssi snr : UInt8, hostFrames polled =
    [(cmdStatRssi,[rssi]),(cmdStatSnr,[snr]),(cmdData,p.data.tail)]

def Device.Forwards (d : Device) : List Iteration → Prop
  | [] => True
  | it :: its =>
    (it.signalled ≠ [] → ∃ p ∈ it.signalled, Forwarded p (d.iterate it).2.2) ∧
      (d.iterate it).1.Forwards its

theorem onLoraRx_forwarded (rssi snr4 : Int) (p : AirPacket) :
    Forwarded p (onLoraRx rssi snr4 p.data.tail) := by
  have hlen : p.data.tail.length ≤ frameMax := by
    have hmax : p.data.length ≤ 532 := p.length_le
    have htail : p.data.tail.length ≤ 600 := by rw [List.length_tail]; omega
    exact htail
  have hfits : ∀ e ∈ onLoraRx rssi snr4 p.data.tail, e.Fits := by
    refine List.forall_mem_cons.mpr ⟨⟨by decide,by decide,show 1 ≤ 600 by decide⟩,
      List.forall_mem_cons.mpr ⟨⟨by decide,by decide,show 1 ≤ 600 by decide⟩,
      List.forall_mem_singleton.mpr ⟨by decide,by decide,hlen⟩⟩⟩
  exact ⟨_,_,hostFrames_eq hfits⟩

/-- `poll` would do what `loop` does not: a packet that is signalled is read and forwarded. -/
theorem poll_forwarded (rssi snr4 : Int) (p : AirPacket) {s : LoraInterface} (hpc : s.pc = .idle)
    (hqueue : s.txQueue = []) (hpending : s.pending = true)
    (hradio : s.radio = [⟨p.data,true⟩]) :
    ∃ t, Relation.ReflTransGen Stmt s t ∧ t.pc = .idle ∧
      Forwarded p (Device.rawRx rssi snr4 s t) := by
  have hlen : ¬ (p.data.length = 0 ∨ maxFrame < p.data.length) := by
    have h2 := p.two_le
    have hmax := p.length_le
    omega
  have hmem : (⟨p.data,true⟩ : RxPacket) ∈ s.radio := by
    rw [hradio]
    exact List.mem_singleton_self _
  have h : Relation.ReflTransGen Stmt s _ := .single (.call hpc)
  have h := h.tail (.drained rfl hqueue)
  have h := h.tail (.check rfl hpending)
  have h := h.tail (.clear rfl)
  have h := h.tail (.getPacketLength rfl hmem hlen)
  have h := h.tail (.readData rfl)
  have h := h.tail (.restart rfl)
  refine ⟨_,h,rfl,?_⟩
  have hone : 1 < p.data.length := p.two_le
  have hraw : ∀ t : LoraInterface, t.delivered = s.delivered ++ [p.data.tail] →
      Device.rawRx rssi snr4 s t = onLoraRx rssi snr4 p.data.tail := by
    intro t ht
    simp [Device.rawRx,ht]
  rw [hraw _ (if_pos ⟨rfl,hone⟩)]
  exact onLoraRx_forwarded rssi snr4 p

theorem iterate_polled (d : Device) (it : Iteration) : (d.iterate it).2.2 = [] := by
  show List.flatMap _ (List.drop _ _) = []
  rw [LoraInterface.loop,List.drop_length,List.flatMap_nil]

theorem not_forwarded_nil (p : AirPacket) : ¬ Forwarded p [] := by
  rintro ⟨rssi,snr,h⟩
  cases h

/-- A run forwards the packets that are signalled exactly if there are none. -/
theorem forwards_iff (d : Device) (its : List Iteration) :
    d.Forwards its ↔ ∀ it ∈ its, it.signalled = [] := by
  induction its generalizing d with
  | nil => simp [Device.Forwards]
  | cons it its ih =>
    rw [Device.Forwards,ih,List.forall_mem_cons,iterate_polled]
    refine and_congr_left fun _ => ⟨fun h => ?_,fun h hne => absurd h hne⟩
    by_contra hne
    obtain ⟨p,-,hp⟩ := h hne
    exact not_forwarded_nil p hp

/-- One packet of two bytes. -/
theorem packet_not_forwarded : ¬ Device.boot.Forwards
    [⟨[.dio1 ⟨[0x00,0x41],by decide,by decide⟩],-100,40⟩] := by
  rintro ⟨h,-⟩
  obtain ⟨p,-,rssi,snr,hframes⟩ := h (List.cons_ne_nil _ _)
  cases hframes

end RNodeKiss

end HeltecV3
