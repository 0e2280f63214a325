import RTReticulum.Sizes

/-! What an invariant of a node has to survive for the functions of `transport.cpp` and `link.cpp`
to keep it. Callbacks and interfaces come in through what their calls do to it. -/
set_option autoImplicit false

namespace RNS

/-- The calls that the code makes of callbacks and interfaces, with the field that the callback
is taken from where it is one of the transport's. The calls of a packet callback are left out:
they come with the packet. -/
def Node.Calls (n : Node) : Event → Prop
  | .linkRequest h _ _ _ => n.onLinkRequest = some (.user h)
  | .announce cb _ _ _ _ => n.onAnnounce = some cb
  | .linkPacket .. | .rx .. | .relay _ | .onProof .. => False
  | _ => True

structure Link.ProofKeeps (l l' : Link) : Prop where
  status : l.status = .handshake
  hash : l'.hash = l.hash
  initiator : l'.initiator = l.initiator
  destination : l'.destination = l.destination
  onPacket : l'.onPacket = l.onPacket
  token : l'.status = .active → l'.token.isSome

/-- The operations that call nothing: they change one field, or a callback of a link. -/
def Op.Direct : Op → Prop
  | .registerInterface _ | .deregisterInterface _ | .registerDestination _
  | .deregisterDestination _ | .deregisterLink _ | .setLinkRequestHandler _ | .onAnnounce _
  | .clearPaths | .reset | .setPacketCallback .. | .registerRequestHandler ..
  | .setLinkPacketCallback .. | .setEstablishedCallback .. => True
  | _ => False

/-- An invariant that survives what happens between the calls, and the calls themselves. -/
structure Upkeep (env : Env) (I : Node → Prop) : Prop where
  tables : ∀ {n : Node} (rng : Rng) (paths : Table PathEntry) (seen : Finset Bytes)
    (known : Table KnownDestination), n.seenAnnounces ⊆ seen → I n → I { n with
      rng := rng, pathTable := paths, seenAnnounces := seen, knownDestinations := known }
  relay : ∀ {n : Node} (packet : Packet), I n → I (n.note (.relay packet))
  onProof : ∀ {n : Node} (a : Nat) (packet : Packet), I n → I (n.note (.onProof a packet))
  call : ∀ {n : Node} {e : Event}, I n → n.Calls e → I (n.tell env e)
  registerLink : ∀ {n : Node} (a : Nat), I n → I (n.registerLink a)
  proof : ∀ {n : Node} {a : Nat} {l l' : Link}, I n → n.link? a = some l → l.ProofKeeps l' →
    I (n.setLink a l')

theorem Link.onProof_keeps {P : Platform} {l l' : Link} {d : Bytes}
    (hs : l.status = .handshake) (h : l.onProof P d = .ok l') : l.ProofKeeps l' := by
  by_cases hlen : d.length ≠ 96 ∧ d.length ≠ 99
  · rw [Link.onProof_bad hlen] at h
    cases h
    exact ⟨hs,rfl,rfl,rfl,rfl,fun hactive => nomatch hs.symm.trans hactive⟩
  have hgood : d.length = 96 ∨ d.length = 99 := by omega
  rw [Link.onProof_eq hgood] at h
  split at h
  · cases h
  · cases h
    exact ⟨hs,rfl,rfl,rfl,rfl,fun _ => rfl⟩

theorem validateRequest_ok {P : Platform} {env : Env} {n u : Node} {owner : Destination}
    {data : Bytes} {packet : Packet} {res : Option Nat}
    (h : n.validateRequest P env owner data packet = .ok (res,u)) :
    (∃ r, res = none ∧ u = { n with rng := r }) ∨ ∃ r raw, res = some n.linkHeap.length ∧
      u = ((n.newLink (Link.validating P owner data packet n.rng) r).registerLink
        n.linkHeap.length).broadcast env raw none (.proof n.linkHeap.length) := by
  by_cases hlen : data.length ≠ 64 ∧ data.length ≠ 67
  · rw [Node.validateRequest,Link.validateRequest_bad hlen] at h
    cases h
    exact .inl ⟨_,rfl,rfl⟩
  have hgood : data.length = 64 ∨ data.length = 67 := by omega
  simp only [Node.validateRequest,Link.validateRequest_eq hgood] at h
  cases hid : owner.identity with
  | none => simp [hid] at h
  | some id =>
    cases hprv : id.sigPrv with
    | none => simp [hid,hprv] at h
    | some prv =>
      simp only [hid,hprv,ok_bind,pure_eq_ok,Except.ok.injEq,Prod.mk.injEq] at h
      obtain ⟨rfl,rfl⟩ := h
      exact .inr ⟨_,_,rfl,rfl⟩

namespace Upkeep
variable {P : Platform} {env : Env} {I : Node → Prop} {n u : Node}

theorem rng (h : Upkeep env I) (hn : I n) (r : Rng) : I { n with rng := r } :=
  h.tables r n.pathTable n.seenAnnounces n.knownDestinations subset_rfl hn

theorem broadcast (h : Upkeep env I) (hn : I n) (raw : Bytes) (skip : Option Nat)
    (origin : Origin) : I (n.broadcast env raw skip origin) := by
  have hfold (is : List Nat) : ∀ m : Node, I m → I (is.foldl
      (fun n i => if skip = some i then n else n.tell env (.sendOutgoing i raw origin)) m) := by
    induction is with
    | nil => exact fun m hm => hm
    | cons i is ih =>
      intro m hm
      rw [List.foldl_cons]
      split
      · exact ih m hm
      · exact ih _ (h.call hm trivial)
  exact hfold n.interfaces n hn

theorem receive (h : Upkeep env I) (hn : I n) (d : Destination) (plaintext : Bytes)
    (packet : Packet) : I (n.receive env d plaintext packet) := by
  unfold Node.receive
  split
  · exact hn
  · exact h.call hn trivial

theorem sendWithContext (h : Upkeep env I) (hn : I n) {a : Nat} {plaintext : Bytes}
    {ctx : Context} (hu : n.sendWithContext P env a plaintext ctx = .ok u) : I u := by
  rw [sendWithContext_frame] at hu
  cases hu
  cases n.frame? P a plaintext ctx with
  | none => exact hn
  | some f => exact h.broadcast (h.rng hn (n.rng.random 16).2) f none (.link a)

theorem request (h : Upkeep env I) {d : Destination} {oe op : Option Nat} {mtu : UInt32}
    (hnew : ∀ l raw r, Link.request P d oe op mtu n.rng = .ok ((l,raw),r) → I (n.newLink l r))
    {a : Nat} (hu : n.request P env d oe op mtu = .ok (a,u)) : I u := by
  obtain ⟨⟨⟨l,raw⟩,r⟩,hreq,hu⟩ := bind_eq_ok.mp hu
  cases hu
  exact h.broadcast (h.registerLink _ (hnew l raw r hreq)) raw none _

theorem validateRequest (h : Upkeep env I) (hn : I n) {owner : Destination} {data : Bytes}
    {packet : Packet} (hnew : ∀ r, I (n.newLink (Link.validating P owner data packet n.rng) r))
    {res : Option Nat} (hu : n.validateRequest P env owner data packet = .ok (res,u)) : I u := by
  obtain ⟨r,-,rfl⟩ | ⟨r,raw,-,rfl⟩ := validateRequest_ok hu
  · exact h.rng hn r
  · exact h.broadcast (h.registerLink _ (hnew r)) raw none _

theorem linkRequest (h : Upkeep env I) (hn : I n) {handler : LinkRequestHandler}
    (hset : n.onLinkRequest = some handler) {owner : Destination} {data : Bytes} {packet : Packet}
    (hnew : handler = .validateRequest →
      ∀ r, I (n.newLink (Link.validating P owner data packet n.rng) r)) {res : Option Nat}
    (hu : n.linkRequest P env handler owner data packet = .ok (res,u)) : I (u.storeLink res) := by
  have hstore {m : Node} (hm : I m) : I (m.storeLink res) := by
    cases res with
    | none => exact hm
    | some a => exact h.registerLink a hm
  cases handler with
  | validateRequest => exact hstore (h.validateRequest hn (hnew rfl) hu)
  | user g =>
    cases hu
    exact hstore (h.call (e := .linkRequest g owner data packet) hn hset)

theorem proved (h : Upkeep env I) (hn : I n) {a : Nat} {packet : Packet}
    (hu : n.onProof P env a packet = .ok u) : I u := by
  unfold Node.onProof at hu
  cases hl : n.link? a with
  | none =>
    rw [hl] at hu
    cases hu
    exact hn
  | some l =>
    simp only [hl] at hu
    have hnote := h.onProof a packet hn
    split at hu
    · cases hu
      exact hnote
    rename_i hstatus
    have hhs : l.status = .handshake := by_contra fun hs => hstatus (.inl hs)
    obtain ⟨l',hl',hu⟩ := bind_eq_ok.mp hu
    have hset := h.proof hnote hl (Link.onProof_keeps hhs hl')
    split at hu
    · cases hu
      exact h.call hset trivial
    · cases hu
      exact hset

theorem handleRequest (h : Upkeep env I) (hn : I n) {a : Nat} {l : Link} {plaintext : Bytes}
    {packet : Packet} (hu : n.handleRequest P env a l plaintext packet = .ok u) : I u := by
  obtain ⟨res,-,hu⟩ := bind_eq_ok.mp hu
  cases res with
  | none => cases hu; exact hn
  | some request =>
    dsimp only at hu
    split at hu
    · cases hu; exact hn
    · rename_i handler _
      have hcall := h.call (e := .generate a handler.generator handler.path request.data
        (truncatedHash P packet.getHashablePart) l.hash request.requestedAt) hn trivial
      split at hu
      · cases hu; exact hcall
      · exact h.sendWithContext hcall hu

/-- The call of a packet callback, for a packet of the link at `a`. -/
def Hands (P : Platform) (env : Env) (I : Node → Prop) (n : Node) (a : Nat) (packet : Packet) :
    Prop :=
  ∀ l cb pt, n.link? a = some l → l.status = .active → packet.packetType = .data →
    l.Opens P packet.data pt → pt ≠ [] → packet.context ≠ Context.request →
    l.onPacket = some cb → I (n.tell env (.linkPacket cb pt a))

theorem onInbound (h : Upkeep env I) (hn : I n) {a : Nat} {packet : Packet}
    (hhands : Hands P env I n a packet) (hu : n.onInbound P env a packet = .ok u) : I u := by
  unfold Node.onInbound at hu
  cases hl : n.link? a with
  | none =>
    rw [hl] at hu
    cases hu
    exact hn
  | some l =>
    simp only [hl] at hu
    split at hu
    · rename_i token hs ht
      split at hu
      · cases hu; exact hn
      rename_i hdata
      obtain ⟨pt,hdec,hu⟩ := bind_eq_ok.mp hu
      split at hu
      · cases hu; exact hn
      rename_i hne
      split at hu
      · exact h.handleRequest hn hu
      rename_i hctx
      split at hu
      · cases hu; exact hn
      · rename_i cb hcb
        cases hu
        exact hhands l cb pt hl hs (not_not.mp hdata) ⟨token,ht,hdec⟩ (by simpa using hne) hctx hcb
    · cases hu; exact hn

theorem relayAnnounce (h : Upkeep env I) (hn : I n) {packet : Packet} {a : Announce}
    {via : Option Nat} : I (n.relayAnnounce env packet a via) := by
  have htell : I (n.tellAnnounce env packet a) := by
    unfold Node.tellAnnounce
    split
    · exact hn
    · rename_i cb hcb
      exact h.call hn hcb
  unfold Node.relayAnnounce
  dsimp only
  split
  · exact h.broadcast (h.relay packet htell) _ via _
  · exact htell

theorem processAnnounce (h : Upkeep env I) (hn : I n) {packet : Packet} {via : Option Nat}
    (hu : n.processAnnounce P env packet via = .ok u) : I u := by
  rw [Node.processAnnounce_eq] at hu
  cases hu
  split
  · exact hn
  split
  · exact h.tables _ _ _ _ (Finset.subset_insert _ _) hn
  rename_i a _
  have hbelieve : I (n.believe packet a via) :=
    h.tables (n := n) n.rng (n.believe packet a via).pathTable (n.hear packet).seenAnnounces
      (n.believe packet a via).knownDestinations (Finset.subset_insert _ _) hn
  exact h.relayAnnounce hbelieve

theorem announce (h : Upkeep env I) (hn : I n) {d : Destination} {appData : Bytes} {send : Bool}
    (hu : n.announce P env d appData send = .ok u) : I u := by
  obtain ⟨⟨raw,r⟩,-,hu⟩ := bind_eq_ok.mp hu
  have hrng := h.rng hn r
  dsimp only at hu
  split at hu
  · cases hu
    exact h.broadcast hrng raw none .own
  · cases hu
    exact hrng

/-- A received frame: what is left to show is that the invariant survives its log entry, a link
that answers it, and the call of a packet callback that it is for. -/
theorem inbound (h : Upkeep env I) {raw : Bytes} {iface : Option Nat}
    (hrx : I (n.note (.rx raw iface)))
    (hnew : n.onLinkRequest = some .validateRequest → ∀ packet owner r,
      Packet.unpack P raw = some packet → packet.packetType = .linkRequest →
      n.destinations.lookup packet.destinationHash = some owner →
      I ((n.note (.rx raw iface)).newLink (Link.validating P owner packet.data packet n.rng) r))
    (hhands : ∀ packet a, Packet.unpack P raw = some packet →
      n.destinations.lookup packet.destinationHash = none →
      n.links.lookup packet.destinationHash = some a →
      Hands P env I (n.note (.rx raw iface)) a packet)
    (hu : n.inbound P env raw iface = .ok u) : I u := by
  simp only [Node.inbound] at hu
  cases hp : Packet.unpack P raw with
  | none =>
    rw [hp] at hu
    cases hu
    exact hrx
  | some packet =>
    simp only [hp] at hu
    cases ht : packet.packetType with
    | announce =>
      simp only [ht] at hu
      exact h.processAnnounce hrx hu
    | linkRequest =>
      simp only [ht] at hu
      split at hu
      · rename_i owner handler hd hset
        obtain ⟨⟨res,m⟩,hm,hu⟩ := bind_eq_ok.mp hu
        cases hu
        exact h.linkRequest hrx hset (fun heq r => hnew (heq ▸ hset) packet owner r hp ht hd) hm
      · cases hu; exact hrx
    | proof =>
      simp only [ht] at hu
      split at hu
      · split at hu
        · cases hu; exact hrx
        · exact h.proved hrx hu
      · cases hu; exact hrx
    | data =>
      simp only [ht] at hu
      split at hu
      · obtain ⟨pt,-,hu⟩ := bind_eq_ok.mp hu
        split at hu
        · cases hu; exact hrx
        · cases hu
          exact h.receive hrx _ pt packet
      · rename_i hd
        split at hu
        · rename_i a ha
          exact h.onInbound hrx (hhands packet a hp hd ha) hu
        · split at hu
          · cases hu
            exact h.call hrx trivial
          · cases hu; exact hrx

/-- An operation: what is left to show is that the invariant survives a new link, the call of a
packet callback, a received frame, and what is done without a call. -/
theorem exec (h : Upkeep env I) (hn : I n) {o : Op} (hnew : ∀ l r, I (n.newLink l r))
    (hhands : ∀ cb pt a, I (n.tell env (.linkPacket cb pt a)))
    (hinbound : ∀ raw iface, n.inbound P env raw iface = .ok u → I u)
    (hdirect : o.Direct → I u) (hu : RNS.exec P env o n = .ok u) : I u := by
  cases o with
  | registerLink a => cases hu; exact h.registerLink a hn
  | broadcast raw skip => cases hu; exact h.broadcast hn raw skip .own
  | inbound raw iface => exact hinbound raw iface hu
  | announce d appData send => exact h.announce hn hu
  | random len => cases hu; exact h.rng hn _
  | request d oe op mtu =>
    obtain ⟨⟨a,m⟩,hm,hu⟩ := bind_eq_ok.mp hu
    cases hu
    exact h.request (fun l _ r _ => hnew l r) hm
  | validateRequest d data packet =>
    obtain ⟨⟨a,m⟩,hm,hu⟩ := bind_eq_ok.mp hu
    cases hu
    exact h.validateRequest hn (fun r => hnew _ r) hm
  | onProof a packet => exact h.proved hn hu
  | onInbound a packet => exact h.onInbound hn (fun _ cb pt _ _ _ _ _ _ _ => hhands cb pt a) hu
  | send a plaintext => exact h.sendWithContext hn hu
  | sendWithContext a plaintext ctx => exact h.sendWithContext hn hu
  | _ => exact hdirect trivial

end Upkeep

end RNS
