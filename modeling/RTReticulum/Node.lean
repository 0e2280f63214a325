import RTReticulum.Announce
import RTReticulum.Link
import RTReticulum.MsgPack

/-! The state of one node, what it calls out to, and the operations of its links. -/
set_option autoImplicit false

namespace RNS

/-- Why a frame is transmitted. Not in the source; only the log carries it. -/
inductive Origin where
  /-- An application's own broadcast, announces included. -/
  | own
  | request (link : Nat)
  | proof (link : Nat)
  /-- `send` and `send_with_context`. -/
  | link (link : Nat)
  | announceRelay (packet : Packet)
  | forward (packet : Packet)

/-- A call out of the library: into an interface, or into a user's callback. Callbacks are
named by the number they were registered under. The last three are no calls; the log
keeps them so that a property can speak of them. -/
inductive Event where
  | sendOutgoing (iface : Nat) (raw : Bytes) (origin : Origin)
  /-- Neither the packet here nor the destination below is an argument of the callback. -/
  | announce (callback : Nat) (destinationHash : Bytes) (announced : Identity)
      (appData : Bytes) (packet : Packet)
  | receive (callback : Nat) (dest : Destination) (plaintext : Bytes) (packet : Packet)
  | linkRequest (handler : Nat) (dest : Destination) (data : Bytes) (packet : Packet)
  | established (callback : Nat) (link : Nat)
  | linkPacket (callback : Nat) (plaintext : Bytes) (link : Nat)
  | generate (link : Nat) (generator : Nat) (path requestData requestId linkHash : Bytes)
      (requestedAt : UInt64)
  | rx (raw : Bytes) (iface : Option Nat)
  | relay (packet : Packet)
  | onProof (link : Nat) (packet : Packet)

def Event.raw? : Event → Option Bytes
  | .rx raw _ => some raw
  | _ => none

def Event.sent? : Event → Option Bytes
  | .sendOutgoing _ raw _ => some raw
  | _ => none

/-- What a callback returns: a response for `generate`, a link for `linkRequest`. -/
structure Answer where
  response : Bytes
  link : Option Nat

/-- `Transport::PathEntry`, less the timestamp, which only the index page reads, as an age. -/
structure PathEntry where
  nextHop : Bytes
  hops : UInt8
  viaInterface : Option Nat
  deriving DecidableEq

structure KnownDestination where
  packetHash : Bytes
  publicKey : Bytes
  appData : Bytes
  deriving DecidableEq

/-- `Link::validate_request`, or a function of the user's. -/
inductive LinkRequestHandler where
  | validateRequest
  | user (handler : Nat)
  deriving DecidableEq

/-- The static state of `Transport` and `Identity`, the heap of links, the callbacks set on
destination objects, and the log of what happened, newest first. -/
structure Node where
  interfaces : List Nat
  destinations : Table Destination
  pathTable : Table PathEntry
  links : Table Nat
  seenAnnounces : Finset Bytes
  onAnnounce : Option Nat
  onLinkRequest : Option LinkRequestHandler
  knownDestinations : Table KnownDestination
  packetCallback : Nat → Option Nat
  requestHandlers : Nat → Table RequestHandler
  linkHeap : List Link
  rng : Rng
  log : List Event

/-- What the callbacks and interfaces do when they are called: an answer, and the node as
they leave it. They do not throw. -/
abbrev Env := Event → Node → Answer × Node

namespace Node

def boot (r : Rng) : Node where
  interfaces := []
  destinations := ∅
  pathTable := ∅
  links := ∅
  seenAnnounces := ∅
  onAnnounce := none
  onLinkRequest := none
  knownDestinations := ∅
  packetCallback := fun _ => none
  requestHandlers := fun _ => ∅
  linkHeap := []
  rng := r
  log := []

def note (e : Event) (n : Node) : Node := { n with log := e :: n.log }

def callOut (env : Env) (e : Event) (n : Node) : Answer × Node := env e (n.note e)

def tell (env : Env) (e : Event) (n : Node) : Node := (n.callOut env e).2

/-- `Transport::broadcast`, over the interfaces as they are when it starts. -/
def broadcast (env : Env) (raw : Bytes) (skip : Option Nat) (origin : Origin) (n : Node) : Node :=
  n.interfaces.foldl
    (fun n i => if skip = some i then n else n.tell env (.sendOutgoing i raw origin)) n

def calls (env : Env) (es : List Event) (n : Node) : Node :=
  es.foldl (fun n e => (env e { n with log := e :: n.log }).2) n

/-- The transmissions of a broadcast: one for each entry of the list of interfaces, in
order, but for the one to skip. -/
def copies (raw : Bytes) (skip : Option Nat) (origin : Origin) (n : Node) : List Event :=
  (n.interfaces.filter fun i => skip ≠ some i).map fun i => .sendOutgoing i raw origin

/-- The call-outs `es` are all that happens from `n` to `m`; where they leave the node as it is,
they are what is new in its log. -/
def CallsOut (env : Env) (es : List Event) (n m : Node) : Prop :=
  m = n.calls env es ∧ ((∀ e k, (env e k).2 = k) → m = { n with log := es.reverse ++ n.log })

def link? (n : Node) (a : Nat) : Option Link := n.linkHeap[a]?

def setLink (a : Nat) (l : Link) (n : Node) : Node := { n with linkHeap := n.linkHeap.set a l }

def registerLink (a : Nat) (n : Node) : Node :=
  match n.link? a with
  | none => n
  | some l => { n with links := n.links.insert l.hash a }

def deregisterLink (a : Nat) (n : Node) : Node :=
  match n.link? a with
  | none => n
  | some l => { n with links := n.links.erase l.hash }

def newLink (l : Link) (r : Rng) (n : Node) : Node :=
  { n with linkHeap := n.linkHeap ++ [l], rng := r }

def receive (env : Env) (d : Destination) (plaintext : Bytes) (packet : Packet) (n : Node) :
    Node :=
  match n.packetCallback d.obj with
  | none => n
  | some cb => n.tell env (.receive cb d plaintext packet)

variable (P : Platform)

/-- `Link::request`. -/
def request (env : Env) (destination : Destination) (onEstablished onPacket : Option Nat)
    (advertisedMtu : UInt32) (n : Node) : Except Fault (Nat × Node) := do
  let ((link,raw),r) ← Link.request P destination onEstablished onPacket advertisedMtu n.rng
  let a := n.linkHeap.length
  return (a,((n.newLink link r).registerLink a).broadcast env raw none (.request a))

def validateRequest (env : Env) (owner : Destination) (requestData : Bytes)
    (requestPacket : Packet) (n : Node) : Except Fault (Option Nat × Node) := do
  let (res,r) ← Link.validateRequest P owner requestData requestPacket n.rng
  match res with
  | none => return (none,{ n with rng := r })
  | some (link,raw) =>
    let a := n.linkHeap.length
    return (some a,((n.newLink link r).registerLink a).broadcast env raw none (.proof a))

def onProof (env : Env) (a : Nat) (packet : Packet) (n : Node) : Except Fault Node :=
  match n.link? a with
  | none => .ok n
  | some l =>
    let n := n.note (.onProof a packet)
    if l.status ≠ .handshake ∨ l.initiator = false then .ok n
    else do
      let l ← l.onProof P packet.data
      let n := n.setLink a l
      match l.status, l.onEstablished with
      | .active, some cb => return n.tell env (.established cb a)
      | _, _ => return n

def sendWithContext (env : Env) (a : Nat) (plaintext : Bytes) (context : Context) (n : Node) :
    Except Fault Node :=
  match n.link? a with
  | none => .ok n
  | some l =>
    match l.status, l.token with
    | .active, some token => do
      let (ciphertext,r) ← token.encrypt P plaintext n.rng
      return { n with rng := r }.broadcast env (linkFrame .data l.hash context ciphertext) none
        (.link a)
    | _, _ => .ok n

/-- `Link::send` writes out the same, for one context. -/
def send (env : Env) (a : Nat) (plaintext : Bytes) (n : Node) : Except Fault Node :=
  n.sendWithContext P env a plaintext Context.none

def handleRequest (env : Env) (a : Nat) (l : Link) (plaintext : Bytes) (packet : Packet)
    (n : Node) : Except Fault Node := do
  let requestId := truncatedHash P packet.getHashablePart
  match ← MsgPack.readRequest P.sizeBits plaintext with
  | none => return n
  | some request =>
    match (n.requestHandlers l.destination.obj).lookup request.pathHash with
    | none => return n
    | some handler =>
      let (answer,n) := n.callOut env (.generate a handler.generator handler.path request.data
        requestId l.hash request.requestedAt)
      if answer.response.isEmpty then return n
      let packed := MsgPack.packArrayHeader 2 ++ MsgPack.packBin requestId ++
        MsgPack.packBin answer.response
      n.sendWithContext P env a packed Context.response

def onInbound (env : Env) (a : Nat) (packet : Packet) (n : Node) : Except Fault Node :=
  match n.link? a with
  | none => .ok n
  | some l =>
    match l.status, l.token with
    | .active, some token =>
      if packet.packetType ≠ .data then .ok n
      else do
        let plaintext ← token.decrypt P packet.data
        if plaintext.isEmpty then return n
        if packet.context = Context.request then n.handleRequest P env a l plaintext packet
        else
          match l.onPacket with
          | none => return n
          | some cb => return n.tell env (.linkPacket cb plaintext a)
    | _, _ => .ok n

def setPacketCallback (a : Nat) (cb : Option Nat) (n : Node) : Node :=
  match n.link? a with
  | none => n
  | some l => n.setLink a { l with onPacket := cb }

def setEstablishedCallback (a : Nat) (cb : Option Nat) (n : Node) : Node :=
  match n.link? a with
  | none => n
  | some l => n.setLink a { l with onEstablished := cb }

@[simp] theorem note_log (e : Event) (n : Node) : (n.note e).log = e :: n.log := rfl

@[simp] theorem note_linkHeap (e : Event) (n : Node) : (n.note e).linkHeap = n.linkHeap := rfl

@[simp] theorem link?_note (e : Event) (n : Node) (a : Nat) : (n.note e).link? a = n.link? a := rfl

theorem calls_cons (env : Env) (e : Event) (es : List Event) (n : Node) :
    n.calls env (e :: es) = (n.tell env e).calls env es := rfl

theorem broadcast_eq (env : Env) (raw : Bytes) (skip : Option Nat) (origin : Origin)
    (n : Node) : n.broadcast env raw skip origin = n.calls env (n.copies raw skip origin) := by
  have hfold : ∀ (is : List Nat) (m : Node), is.foldl
      (fun n i => if skip = some i then n else n.tell env (.sendOutgoing i raw origin)) m =
      m.calls env ((is.filter fun i => skip ≠ some i).map fun i =>
        .sendOutgoing i raw origin) := by
    intro is
    induction is with
    | nil => exact fun _ => rfl
    | cons i is ih =>
      intro m
      rw [List.foldl_cons,ih]
      by_cases h : skip = some i
      · simp [h]
      · simp [h,calls_cons]
  exact hfold n.interfaces n

theorem copies_all (raw : Bytes) (origin : Origin) (n : Node) :
    n.copies raw none origin = n.interfaces.map fun i => .sendOutgoing i raw origin := by
  simp [copies]

/-- Call-outs that leave the node as it is are only logged. -/
theorem calls_quiet {env : Env} {es : List Event}
    (henv : ∀ e ∈ es, ∀ m, (env e m).2 = m) (n : Node) :
    n.calls env es = { n with log := es.reverse ++ n.log } := by
  induction es generalizing n with
  | nil => rfl
  | cons e es ih =>
    have htell : n.tell env e = n.note e := henv e List.mem_cons_self (n.note e)
    rw [calls_cons,htell,ih fun e he => henv e (List.mem_cons_of_mem _ he)]
    simp [note]

theorem callsOut (env : Env) (es : List Event) (n : Node) : n.CallsOut env es (n.calls env es) :=
  ⟨rfl,fun henv => calls_quiet (fun e _ => henv e) n⟩

theorem broadcast_callsOut (env : Env) (raw : Bytes) (origin : Origin) (n : Node) :
    n.CallsOut env (n.interfaces.map fun i => .sendOutgoing i raw origin)
      (n.broadcast env raw none origin) := by
  rw [broadcast_eq,copies_all]
  exact callsOut _ _ _

theorem broadcast_queued {env : Env} (henv : ∀ i raw o m, (env (.sendOutgoing i raw o) m).2 = m)
    (n : Node) (raw : Bytes) (skip : Option Nat) (origin : Origin) :
    n.broadcast env raw skip origin =
      { n with log := (n.copies raw skip origin).reverse ++ n.log } := by
  rw [broadcast_eq,calls_quiet]
  intro e he m
  obtain ⟨i,-,rfl⟩ := List.mem_map.mp he
  exact henv i raw origin m

theorem link?_lt {n : Node} {a : Nat} {l : Link} (h : n.link? a = some l) :
    a < n.linkHeap.length := (List.getElem?_eq_some_iff.mp h).1

theorem link?_setLink {n : Node} {a : Nat} {l : Link} (h : n.link? a = some l) (l' : Link)
    (b : Nat) : (n.setLink a l').link? b = if b = a then some l' else n.link? b := by
  have hlt := link?_lt h
  by_cases hb : b = a
  · subst hb
    simp [link?,setLink,hlt]
  · rw [if_neg hb]
    exact List.getElem?_set_ne (Ne.symm hb)

theorem link?_newLink (n : Node) (l : Link) (r : Rng) (b : Nat) :
    (n.newLink l r).link? b = if b = n.linkHeap.length then some l else n.link? b := by
  simp only [link?,newLink,List.getElem?_append]
  split
  · rename_i hb
    rw [if_neg (by omega)]
  · split
    · simp [*]
    · rw [List.getElem?_eq_none (by simp; omega),List.getElem?_eq_none (by omega)]

theorem registerLink_eq (a : Nat) (n : Node) :
    ∃ links, n.registerLink a = { n with links := links } ∧
      (∀ h, (n.links.lookup h).isSome → (links.lookup h).isSome) ∧
      ∀ h b, links.lookup h = some b →
        n.links.lookup h = some b ∨ ∃ l, n.link? b = some l ∧ l.hash = h := by
  unfold registerLink
  split
  · exact ⟨n.links,rfl,fun _ h => h,fun _ _ h => .inl h⟩
  · rename_i l hl
    refine ⟨_,rfl,fun h hs => ?_,fun h b hb => ?_⟩
    · by_cases hh : h = l.hash
      · rw [hh,Finmap.lookup_insert]; rfl
      · rwa [Finmap.lookup_insert_of_ne _ hh]
    · by_cases hh : h = l.hash
      · rw [hh,Finmap.lookup_insert] at hb
        cases hb
        exact .inr ⟨l,hl,hh.symm⟩
      · rw [Finmap.lookup_insert_of_ne _ hh] at hb
        exact .inl hb

@[simp] theorem link?_registerLink (a b : Nat) (n : Node) :
    (n.registerLink a).link? b = n.link? b := by
  obtain ⟨links,h,-⟩ := registerLink_eq a n
  rw [h]; rfl

section
variable (a : Nat) (n : Node)

@[simp] theorem registerLink_log : (n.registerLink a).log = n.log := by
  unfold registerLink; split <;> rfl

@[simp] theorem registerLink_interfaces : (n.registerLink a).interfaces = n.interfaces := by
  unfold registerLink; split <;> rfl

@[simp] theorem registerLink_seenAnnounces :
    (n.registerLink a).seenAnnounces = n.seenAnnounces := by
  unfold registerLink; split <;> rfl

@[simp] theorem registerLink_pathTable : (n.registerLink a).pathTable = n.pathTable := by
  unfold registerLink; split <;> rfl

@[simp] theorem registerLink_knownDestinations :
    (n.registerLink a).knownDestinations = n.knownDestinations := by
  unfold registerLink; split <;> rfl

@[simp] theorem registerLink_onLinkRequest :
    (n.registerLink a).onLinkRequest = n.onLinkRequest := by
  unfold registerLink; split <;> rfl

end

theorem table_setLink {n : Node} {a : Nat} {l l' : Link} (hl : n.link? a = some l)
    (hhash : l'.hash = l.hash)
    (h : ∀ {x b}, n.links.lookup x = some b → ∃ k, n.link? b = some k ∧ k.hash = x)
    {x : Bytes} {b : Nat} (hx : n.links.lookup x = some b) :
    ∃ k, (n.setLink a l').link? b = some k ∧ k.hash = x := by
  obtain ⟨k,hk,rfl⟩ := h hx
  rw [link?_setLink hl]
  split
  · subst b
    cases hl.symm.trans hk
    exact ⟨l',rfl,hhash⟩
  · exact ⟨k,hk,rfl⟩

theorem registerLink_lookup {n : Node} {a : Nat} {l : Link} (h : n.link? a = some l) :
    (n.registerLink a).links.lookup l.hash = some a := by
  simp [registerLink,h]

end Node

end RNS
