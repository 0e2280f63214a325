import RTReticulum.Library.Interleaving
import RTReticulum.Simulation
import RTReticulum.Updates

/-! What a node relays: the hop count of the frames it passes on, and how often it passes
on an announce. -/
set_option autoImplicit false

namespace RNS

def hopByte (raw : Bytes) : UInt8 := raw.getD 1 0

theorem hopByte_withHops {raw : Bytes} (h : 2 ≤ raw.length) (hops : UInt8) :
    hopByte (withHops raw hops) = hops+1 := by
  have h1 : raw.length > 1 := h
  simp [hopByte,withHops,h1,List.getD]

theorem withHops_rewritten {raw : Bytes} (h : 2 ≤ raw.length) (hops : UInt8) :
    Packet.Rewritten raw (withHops raw hops) := by
  match raw, h with
  | flags :: hop :: rest, _ => exact .hops flags hop (hops+1) rest

theorem toNat_succ_of_lt {hops : UInt8} (h : hops < pathfinderM) :
    (hops+1).toNat = hops.toNat+1 ∧ hops.toNat < 128 := by
  have hlt : hops.toNat < 128 := h
  refine ⟨?_,hlt⟩
  rw [UInt8.toNat_add]
  simp only [UInt8.reduceToNat]
  omega

def frameType (raw : Bytes) : PacketType := .ofByte (raw.getD 0 0 &&& 0x03)

theorem frameType_frame (d : DestinationType) (t : PacketType) (hops : UInt8) (dest : Bytes)
    (ctx : Context) (data : Bytes) : frameType (Packet.frame
      (Packet.packFlags .header1 .unset .broadcast d t) hops dest ctx data) = t := by
  rw [Packet.frame_cons]
  exact Packet.packFlags_packetType d t

theorem frameType_of_unpack {P : Platform} {raw : Bytes} {packet : Packet}
    (h : Packet.unpack P raw = some packet) : packet.packetType = frameType raw := by
  simp only [Packet.unpack] at h
  split at h
  · cases h
  · cases h; rfl

theorem frameType_rewritten {raw raw' : Bytes} (h : Packet.Rewritten raw raw') :
    frameType raw' = frameType raw := by
  cases h with
  | same | hops => rfl
  | header2 flags hops flags' hops' tid rest _ _ hlow _ =>
    show PacketType.ofByte (flags' &&& 0x03) = PacketType.ofByte (flags &&& 0x03)
    rw [Packet.low_bits flags',hlow,← Packet.low_bits]

theorem frameType_withHops (raw : Bytes) (hops : UInt8) :
    frameType (withHops raw hops) = frameType raw := by
  unfold withHops
  split
  · cases raw with
    | nil => rfl
    | cons flags rest => rfl
  · rfl

theorem Node.Forwards.frameType {P : Platform} {n : Node} {raw : Bytes} {packet : Packet}
    {via : Nat} (h : n.Forwards P raw packet via) :
    frameType (withHops raw packet.hops) = .data := by
  rw [frameType_withHops,← frameType_of_unpack h.unpacked,h.data]

theorem frameType_requestFrame {P : Platform} (l : Link) :
    frameType (l.requestFrame P) = .linkRequest :=
  frameType_frame _ _ _ _ _ _

theorem frameType_linkFrame (t : PacketType) (hash data : Bytes) (ctx : Context) :
    frameType (linkFrame t hash ctx data) = t := frameType_frame _ _ _ _ _ _

theorem announceFrame_eq {P : Platform} {d : Destination} {app raw : Bytes} {r r' : Rng}
    (h : announceFrame P d app r = .ok (raw,r')) : ∃ data, raw = Packet.frame
      (Packet.packFlags .header1 .unset .broadcast d.type .announce) 0 d.hash Context.none
        data := by
  obtain ⟨-,_,_,-,-,hraw⟩ := announceFrame_made h
  exact ⟨_,hraw⟩

def Node.Transmits (n : Node) (packet : Packet) (raw : Bytes) : Prop :=
  ∃ i, .sendOutgoing i raw (.announceRelay packet) ∈ n.log ∨
    .sendOutgoing i raw (.forward packet) ∈ n.log

def Node.Relayed (P : Platform) (n : Node) (raw raw' : Bytes) : Prop :=
  ∃ packet iface, .rx raw iface ∈ n.log ∧ Packet.unpack P raw = some packet ∧
    n.Transmits packet raw'

/-- No DATA frame is passed on that has reached PATHFINDER_M hops. -/
def HopsBelow (P : Platform) (o : Op) (n : Node) : Prop :=
  ∀ raw iface packet via, o = .inbound raw iface → n.Forwards P raw packet via →
    packet.hops < pathfinderM

structure CountsHops (packet : Packet) (raw : Bytes) : Prop where
  length : 2 ≤ packet.raw.length
  raw : raw = withHops packet.raw packet.hops
  below : packet.hops < pathfinderM

section
variable {P : Platform}

/-- A relayed announce counts its hops, and so does DATA as long as it is below the limit. -/
theorem Event.From.countsHops {o : Op} {t : Node} {i : Nat} {raw : Bytes} {packet : Packet} :
    (Event.From P o t (.sendOutgoing i raw (.announceRelay packet)) → CountsHops packet raw) ∧
      (HopsBelow P o t → Event.From P o t (.sendOutgoing i raw (.forward packet)) →
        CountsHops packet raw) := by
  constructor
  · rintro ⟨received,iface,-,hp,-,rfl,hlt⟩
    obtain ⟨hraw,-,hlen⟩ := Packet.unpack_some hp
    exact ⟨by rw [hraw]; omega,by rw [hraw],hlt⟩
  · rintro hg ⟨received,iface,ho,hf,rfl⟩
    obtain ⟨hraw,-,hlen⟩ := Packet.unpack_some hf.unpacked
    exact ⟨by rw [hraw]; omega,by rw [hraw],hg received iface packet i ho hf⟩

theorem Runs.announceHops {guard : Op → Node → Prop} {r : Rng} {n : Node}
    (h : Runs P guard (Node.boot r) n) {i : Nat} {raw : Bytes} {packet : Packet}
    (hi : .sendOutgoing i raw (.announceRelay packet) ∈ n.log) : CountsHops packet raw :=
  Runs.events (Q := fun e => ∀ i raw packet, e = .sendOutgoing i raw (.announceRelay packet) →
      CountsHops packet raw)
    (fun _ he _ _ _ h => Event.From.countsHops.1 (h ▸ he)) h
    (fun _ he => nomatch he) _ hi i raw packet rfl

theorem Runs.forwardHops {r : Rng} {n : Node} (h : Runs P (HopsBelow P) (Node.boot r) n)
    {i : Nat} {raw : Bytes} {packet : Packet}
    (hi : .sendOutgoing i raw (.forward packet) ∈ n.log) : CountsHops packet raw :=
  Runs.events (Q := fun e => ∀ i raw packet, e = .sendOutgoing i raw (.forward packet) →
      CountsHops packet raw)
    (fun hg he _ _ _ h => Event.From.countsHops.2 hg (h ▸ he)) h
    (fun _ he => nomatch he) _ hi i raw packet rfl

theorem Runs.transmits {r : Rng} {n : Node} (h : Runs P (HopsBelow P) (Node.boot r) n)
    {packet : Packet} {raw : Bytes} (ht : n.Transmits packet raw) : CountsHops packet raw := by
  obtain ⟨i,hi | hi⟩ := ht
  · exact h.announceHops hi
  · exact h.forwardHops hi

theorem Runs.relayed {r : Rng} {n : Node} (h : Runs P (HopsBelow P) (Node.boot r) n)
    {raw raw' : Bytes} (hr : n.Relayed P raw raw') :
    (hopByte raw').toNat = (hopByte raw).toNat + 1 ∧ hopByte raw < pathfinderM := by
  obtain ⟨packet,iface,-,hp,htr⟩ := hr
  obtain ⟨hlen,hraw',hlt⟩ := h.transmits htr
  obtain ⟨-,hhops,-⟩ := Packet.unpack_some hp
  rw [hraw',hopByte_withHops hlen,(toNat_succ_of_lt hlt).1]
  rw [hhops] at hlt ⊢
  exact ⟨rfl,hlt⟩

/-- A frame that goes round: each is transmitted by some node as a relay of the one
before. -/
def RelayChain (P : Platform) {ι : Type} (nodes : ι → Node) (chain : List Bytes) : Prop :=
  chain.IsChain fun raw raw' => ∃ i, (nodes i).Relayed P raw raw'

theorem relayChain_length {ι : Type} {nodes : ι → Node}
    (hn : ∀ i, ∃ r, Runs P (HopsBelow P) (Node.boot r) (nodes i))
    {raw : Bytes} {chain : List Bytes} (hc : RelayChain P nodes (raw :: chain)) :
    chain ≠ [] → (hopByte raw).toNat + chain.length ≤ 128 := by
  induction chain generalizing raw with
  | nil => exact fun h => absurd rfl h
  | cons raw' chain ih =>
    intro _
    obtain ⟨⟨i,hi⟩,hrest⟩ := List.isChain_cons_cons.mp hc
    obtain ⟨r,hr⟩ := hn i
    obtain ⟨hnext,hlt⟩ := hr.relayed hi
    have hraw : (hopByte raw).toNat < 128 := hlt
    by_cases hchain : chain = []
    · simp [hchain]; omega
    · have := ih hrest hchain
      simp only [List.length_cons]; omega

/-- While no DATA frame is passed on that has reached PATHFINDER_M hops: every relay
carries, as an integer, one hop more than it came with, nothing at the limit is relayed,
and no chain of relays is longer than the limit allows. -/
theorem relay_hops {ι : Type} {nodes : ι → Node}
    (h : ∀ i, ∃ r, Runs P (HopsBelow P) (Node.boot r) (nodes i)) :
    (∀ i raw raw', (nodes i).Relayed P raw raw' →
      (hopByte raw').toNat = (hopByte raw).toNat + 1 ∧ hopByte raw < pathfinderM) ∧
    ∀ chain, RelayChain P nodes chain → chain.length ≤ 129 := by
  refine ⟨fun i raw raw' hr => ?_,fun chain hc => ?_⟩
  · obtain ⟨r,hrun⟩ := h i
    exact hrun.relayed hr
  · match chain with
    | [] => simp
    | [_] => simp
    | raw :: raw' :: rest =>
      have := relayChain_length h hc (List.cons_ne_nil _ _)
      simp only [List.length_cons] at this ⊢; omega

theorem inbound_forwards {n : Node} {raw : Bytes} {packet : Packet} {via : Nat}
    (h : n.Forwards P raw packet via) (env : Env) (iface : Option Nat) :
    n.inbound P env raw iface = .ok ((n.note (.rx raw iface)).tell env
      (.sendOutgoing via (withHops raw packet.hops) (.forward packet))) := by
  obtain ⟨nextHop,hops,hpath⟩ := h.path
  have hd : (n.note (.rx raw iface)).destinations.lookup packet.destinationHash = none := h.notLocal
  have hl : (n.note (.rx raw iface)).links.lookup packet.destinationHash = none := h.noLink
  have hp : (n.note (.rx raw iface)).pathTable.lookup packet.destinationHash =
      some ⟨nextHop,hops,some via⟩ := hpath
  simp only [Node.inbound,h.unpacked,h.data,hd,hl,hp]

end

def lowHops (o : Op) (_ : Node) : Bool :=
  match o with
  | .inbound raw _ => hopByte raw < pathfinderM
  | _ => true

theorem lowHops_hopsBelow {P : Platform} {o : Op} {n : Node} (h : lowHops o n = true) :
    HopsBelow P o n := by
  rintro raw iface packet via rfl hf
  rw [(Packet.unpack_some hf.unpacked).2.1]
  exact of_decide_eq_true h

theorem relay_hops_announced : ∃ n : Node, n.log.length = 3 ∧
    (∀ raw raw', n.Relayed Sample.platform raw raw' →
      (hopByte raw').toNat = (hopByte raw).toNat + 1 ∧ hopByte raw < pathfinderM) ∧
    ∀ chain, RelayChain Sample.platform (fun _ : Unit => n) chain → chain.length ≤ 129 := by
  obtain ⟨n,hn,hq⟩ := runs_of_endsIn Sample.platform lowHops
    [.registerInterface 8,.inbound (Sample.announceFrame 4 []) (some 7)]
    (Node.boot (Sample.rng 5)) (fun n => n.log.length = 3) (by decide +kernel)
  have hruns : ∀ i : Unit, ∃ r, Runs Sample.platform (HopsBelow Sample.platform) (Node.boot r)
      ((fun _ => n) i) := fun _ => ⟨_,hn.mono fun _ _ => lowHops_hopsBelow⟩
  have h := relay_hops hruns
  exact ⟨n,of_decide_eq_true hq,h.1 (),h.2⟩

/-- The hop count of a DATA frame wraps: the frame goes on from 0. -/
theorem relay_wraps : ∃ n raw raw', Reachable Sample.platform n ∧
    n.Relayed Sample.platform raw raw' ∧ hopByte raw = 255 ∧ hopByte raw' = 0 := by
  obtain ⟨n,hn,hq⟩ := reachable_of_endsIn Sample.platform
    [.inbound (Sample.announceFrame 4 []) (some 7)] (Sample.rng 5)
    (fun n => n.pathTable.lookup Sample.destination.hash =
        some ⟨Sample.destination.hash,0,some 7⟩ ∧
      (n.destinations.lookup Sample.destination.hash).isNone ∧
      (n.links.lookup Sample.destination.hash).isNone)
    (by decide +kernel)
  obtain ⟨hpath,hd,hl⟩ := of_decide_eq_true hq
  let raw : Bytes := 0x00 :: 255 :: (Sample.destination.hash ++ [Context.none])
  have hp : Packet.unpack Sample.platform raw =
      some (Packet.parsed Sample.platform .header1 raw) := Packet.unpack_header1 rfl rfl
  have hc : (Packet.parsed Sample.platform .header1 raw).Carries 0x00 Sample.destination.hash
      Context.none [] := Packet.parsed_header1 0x00 255 Context.none rfl
  have hdest := hc.destinationHash
  have hf : n.Forwards Sample.platform raw (Packet.parsed Sample.platform .header1 raw) 7 :=
    ⟨hp,hc.packetType.trans rfl,hdest ▸ Option.isNone_iff_eq_none.mp hd,
      hdest ▸ Option.isNone_iff_eq_none.mp hl,
      _,_,hdest ▸ hpath⟩
  obtain ⟨r,hr⟩ := hn
  have hx : exec Sample.platform quiet (.inbound raw none) n = .ok _ :=
    inbound_forwards hf quiet none
  have hstep := hr.step (quiet_runs _ _) trivial hx
  refine ⟨_,raw,withHops raw 255,⟨r,hstep⟩,⟨_,none,?_,hp,7,.inr ?_⟩,rfl,by decide +kernel⟩
  · exact List.mem_cons_of_mem _ List.mem_cons_self
  · exact List.mem_cons_self

end RNS
