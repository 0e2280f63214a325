import RTReticulum.Library.Reentrant
import RTReticulum.Node

/-! `transport.cpp`: announces, the dispatch of received frames, and the operations of a
node with their runs. -/
set_option autoImplicit false

namespace RNS

/-- `forward[1] = hops + 1`, in eight bits. -/
def withHops (raw : Bytes) (hops : UInt8) : Bytes :=
  if raw.length > 1 then raw.set 1 (hops+1) else raw

namespace Node

def remember (packetHash destinationHash publicKey appData : Bytes) (n : Node) :
    Except Fault Node :=
  if publicKey.length ≠ 64 then
    .error (.invalidArgument "Identity::remember: invalid public key size")
  else .ok { n with
    knownDestinations := n.knownDestinations.insert destinationHash ⟨packetHash,publicKey,appData⟩ }

def insertPath (packet : Packet) (via : Option Nat) (n : Node) : Node :=
  let entry : PathEntry := ⟨packet.destinationHash,packet.hops,via⟩
  { n with pathTable := n.pathTable.insert packet.destinationHash entry }

def tellAnnounce (env : Env) (packet : Packet) (a : Announce) (n : Node) : Node :=
  match n.onAnnounce with
  | none => n
  | some cb => n.tell env (.announce cb packet.destinationHash a.identity a.appData packet)

/-- The end of `process_announce`, once the tables are written. -/
def relayAnnounce (env : Env) (packet : Packet) (a : Announce) (via : Option Nat) (n : Node) :
    Node :=
  let n := n.tellAnnounce env packet a
  if packet.hops < pathfinderM then
    (n.note (.relay packet)).broadcast env (withHops packet.raw packet.hops) via
      (.announceRelay packet)
  else n

def announceCalls (packet : Packet) (a : Announce) (n : Node) : List Event :=
  n.onAnnounce.toList.map fun cb =>
    .announce cb packet.destinationHash a.identity a.appData packet

theorem tellAnnounce_eq (env : Env) (packet : Packet) (a : Announce) (n : Node) :
    n.tellAnnounce env packet a = n.calls env (n.announceCalls packet a) := by
  unfold tellAnnounce announceCalls
  cases n.onAnnounce <;> rfl

theorem relayAnnounce_eq (env : Env) (packet : Packet) (a : Announce) (via : Option Nat)
    (n : Node) (h : 2 ≤ packet.raw.length) : n.relayAnnounce env packet a via =
      let heard := n.calls env (n.announceCalls packet a)
      if packet.hops < pathfinderM then
        (heard.note (.relay packet)).calls env
          (heard.copies (packet.raw.set 1 (packet.hops+1)) via (.announceRelay packet))
      else heard := by
  have hraw : withHops packet.raw packet.hops = packet.raw.set 1 (packet.hops+1) := if_pos h
  simp only [relayAnnounce,tellAnnounce_eq,broadcast_eq,hraw]
  rfl

theorem relayAnnounce_quiet {env : Env} (henv : ∀ e m, (env e m).2 = m) (packet : Packet)
    (a : Announce) (via : Option Nat) (n : Node) (h : 2 ≤ packet.raw.length) :
    n.relayAnnounce env packet a via = { n with
      log := (if packet.hops < pathfinderM then
          (n.copies (packet.raw.set 1 (packet.hops+1)) via (.announceRelay packet)).reverse ++
            [.relay packet]
        else []) ++ (n.announceCalls packet a).reverse ++ n.log } := by
  rw [relayAnnounce_eq env packet a via n h,calls_quiet fun e _ => henv e]
  dsimp only
  split
  · rw [calls_quiet fun e _ => henv e]
    simp only [note,copies,List.append_assoc,List.cons_append,List.nil_append]
  · rfl

variable (P : Platform)

def processAnnounce (env : Env) (packet : Packet) (via : Option Nat) (n : Node) :
    Except Fault Node :=
  if packet.packetHash ∈ n.seenAnnounces then .ok n
  else
    let n := { n with seenAnnounces := insert packet.packetHash n.seenAnnounces }
    match Announce.check P packet with
    | none => .ok n
    | some a => do
      let n ← n.remember packet.packetHash packet.destinationHash a.publicKey a.appData
      return (n.insertPath packet via).relayAnnounce env packet a via

def linkRequest (env : Env) (handler : LinkRequestHandler) (dest : Destination) (data : Bytes)
    (packet : Packet) (n : Node) : Except Fault (Option Nat × Node) :=
  match handler with
  | .validateRequest => n.validateRequest P env dest data packet
  | .user h =>
    let (answer,n) := n.callOut env (.linkRequest h dest data packet)
    .ok (answer.link,n)

/-- `_links.insert_or_assign(link->hash(), link)`, where a handler returned a link. -/
def storeLink (link : Option Nat) (n : Node) : Node :=
  match link with
  | none => n
  | some a => n.registerLink a

def inbound (env : Env) (raw : Bytes) (iface : Option Nat) (n : Node) : Except Fault Node :=
  let n := n.note (.rx raw iface)
  match Packet.unpack P raw with
  | none => .ok n
  | some pkt =>
    match pkt.packetType with
    | .announce => n.processAnnounce P env pkt iface
    | .linkRequest =>
      match n.destinations.lookup pkt.destinationHash, n.onLinkRequest with
      | some dest, some handler => do
        let (link,n) ← n.linkRequest P env handler dest pkt.data pkt
        return n.storeLink link
      | _, _ => .ok n
    | .proof =>
      if pkt.context = Context.lrproof then
        match n.links.lookup pkt.destinationHash with
        | none => .ok n
        | some a => n.onProof P env a pkt
      else .ok n
    | .data =>
      match n.destinations.lookup pkt.destinationHash with
      | some d => do
        let plaintext ← d.decrypt P pkt.data
        if plaintext.isEmpty then return n else return n.receive env d plaintext pkt
      | none =>
        match n.links.lookup pkt.destinationHash with
        | some a => n.onInbound P env a pkt
        | none =>
          match n.pathTable.lookup pkt.destinationHash with
          | some ⟨_,_,some via⟩ =>
            .ok (n.tell env (.sendOutgoing via (withHops raw pkt.hops) (.forward pkt)))
          | _ => .ok n

def reset (n : Node) : Node :=
  { n with
    interfaces := [], destinations := ∅, pathTable := ∅, links := ∅, seenAnnounces := ∅
    onAnnounce := none, onLinkRequest := none }

def announce (env : Env) (dest : Destination) (appData : Bytes) (send : Bool) (n : Node) :
    Except Fault Node := do
  let (raw,r) ← announceFrame P dest appData n.rng
  let n := { n with rng := r }
  if send then return n.broadcast env raw none .own else return n

end Node

/-- What an application, an interface or a callback may call. Links are given by their
place in the heap. -/
inductive Op where
  | registerInterface (iface : Nat)
  | deregisterInterface (iface : Nat)
  | registerDestination (dest : Destination)
  | deregisterDestination (dest : Destination)
  | registerLink (link : Nat)
  | deregisterLink (link : Nat)
  | setLinkRequestHandler (handler : Option LinkRequestHandler)
  | onAnnounce (callback : Option Nat)
  | clearPaths
  | reset
  | broadcast (raw : Bytes) (skip : Option Nat)
  | inbound (raw : Bytes) (iface : Option Nat)
  | announce (dest : Destination) (appData : Bytes) (send : Bool)
  /-- `Destination::set_packet_callback`. -/
  | setPacketCallback (obj : Nat) (callback : Option Nat)
  | registerRequestHandler (obj : Nat) (path : Bytes) (generator : Nat)
  /-- A draw from the entropy source, for a key made outside the node. -/
  | random (len : Nat)
  | request (dest : Destination) (onEstablished onPacket : Option Nat) (advertisedMtu : UInt32)
  | validateRequest (owner : Destination) (requestData : Bytes) (requestPacket : Packet)
  | onProof (link : Nat) (packet : Packet)
  | onInbound (link : Nat) (packet : Packet)
  | send (link : Nat) (plaintext : Bytes)
  | sendWithContext (link : Nat) (plaintext : Bytes) (context : Context)
  | setLinkPacketCallback (link : Nat) (callback : Option Nat)
  | setEstablishedCallback (link : Nat) (callback : Option Nat)

open Node in
def exec (P : Platform) : Reentrant.Exec Node Op Event Answer Fault := fun env o n =>
  match o with
  | .registerInterface i => .ok { n with interfaces := n.interfaces ++ [i] }
  | .deregisterInterface i => .ok { n with interfaces := n.interfaces.filter (· ≠ i) }
  | .registerDestination d => .ok { n with destinations := n.destinations.insert d.hash d }
  | .deregisterDestination d => .ok { n with destinations := n.destinations.erase d.hash }
  | .registerLink a => .ok (n.registerLink a)
  | .deregisterLink a => .ok (n.deregisterLink a)
  | .setLinkRequestHandler h => .ok { n with onLinkRequest := h }
  | .onAnnounce cb => .ok { n with onAnnounce := cb }
  | .clearPaths => .ok { n with pathTable := ∅ }
  | .reset => .ok n.reset
  | .broadcast raw skip => .ok (n.broadcast env raw skip .own)
  | .inbound raw iface => n.inbound P env raw iface
  | .announce d appData send => n.announce P env d appData send
  | .setPacketCallback obj cb =>
    .ok { n with packetCallback := Function.update n.packetCallback obj cb }
  | .registerRequestHandler obj path g =>
    let h := Destination.requestHandler P path g
    .ok { n with requestHandlers :=
      Function.update n.requestHandlers obj ((n.requestHandlers obj).insert h.pathHash h) }
  | .random len => .ok { n with rng := (n.rng.random len).2 }
  | .request d oe op mtu => do
    let (_,n) ← n.request P env d oe op mtu
    return n
  | .validateRequest d data pkt => do
    let (_,n) ← n.validateRequest P env d data pkt
    return n
  | .onProof a pkt => n.onProof P env a pkt
  | .onInbound a pkt => n.onInbound P env a pkt
  | .send a pt => n.send P env a pt
  | .sendWithContext a pt ctx => n.sendWithContext P env a pt ctx
  | .setLinkPacketCallback a cb => .ok (n.setPacketCallback a cb)
  | .setEstablishedCallback a cb => .ok (n.setEstablishedCallback a cb)

/-- The runs of a node under a guard, and the states it reaches from its start. -/
abbrev Runs (P : Platform) (guard : Op → Node → Prop) : Node → Node → Prop :=
  Reentrant.Run (exec P) guard

def Reachable (P : Platform) (n : Node) : Prop :=
  ∃ r, Runs P (fun _ _ => True) (Node.boot r) n

/-- Callbacks and interfaces only act on a node through its operations. -/
def Env.Wellbehaved (P : Platform) (guard : Op → Node → Prop) (env : Env) : Prop :=
  ∀ e m, Runs P guard m (env e m).2

end RNS
