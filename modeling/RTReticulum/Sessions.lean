import RTReticulum.Handshake

/-! Frames on links that are up: what one end sends the other end hands to its callback, and
nothing else does. -/
set_option autoImplicit false

namespace RNS

/-- The links of a node have ids of 16 bytes, those that are ACTIVE a token of their session
key, and the table finds a link under its own id. -/
structure Node.LinksSound (n : Node) : Prop where
  hash : ∀ {a l}, n.link? a = some l → l.hash.length = 16
  keyed : ∀ {a l}, n.link? a = some l → l.status = .active → l.Keyed
  table : ∀ {h a}, n.links.lookup h = some a → ∃ l, n.link? a = some l ∧ l.hash = h

namespace Node.LinksSound

theorem boot (r : Rng) : (Node.boot r).LinksSound where
  hash := fun h => nomatch h
  keyed := fun h => nomatch h
  table := fun h => nomatch (Finmap.lookup_empty _).symm.trans h

theorem same {n m : Node} (h : n.LinksSound) (hlink : ∀ a, m.link? a = n.link? a)
    (htable : ∀ h a, m.links.lookup h = some a →
      n.links.lookup h = some a ∨ ∃ l, n.link? a = some l ∧ l.hash = h) : m.LinksSound where
  hash := fun hl => h.hash (hlink _ ▸ hl)
  keyed := fun hl => h.keyed (hlink _ ▸ hl)
  table := fun {k a} hk => by
    rw [hlink]
    exact (htable k a hk).elim h.table id

theorem setLink {n : Node} (h : n.LinksSound) {a : Nat} {l l' : Link} (hl : n.link? a = some l)
    (hhash : l'.hash = l.hash) (hkeyed : l'.status = .active → l'.Keyed) :
    (n.setLink a l').LinksSound where
  hash := fun {b k} hk => by
    rw [link?_setLink hl] at hk
    split at hk
    · cases hk
      rw [hhash]; exact h.hash hl
    · exact h.hash hk
  keyed := fun {b k} hk hs => by
    rw [link?_setLink hl] at hk
    split at hk
    · cases hk
      exact hkeyed hs
    · exact h.keyed hk hs
  table := table_setLink hl hhash h.table

theorem newLink {n : Node} (h : n.LinksSound) {l : Link} (r : Rng) (hhash : l.hash.length = 16)
    (hkeyed : l.status = .active → l.Keyed) :
    ((n.newLink l r).registerLink n.linkHeap.length).LinksSound := by
  have hnew : (n.newLink l r).LinksSound := by
    refine ⟨fun {b k} hk => ?_,fun {b k} hk hs => ?_,fun {k b} hk => ?_⟩
    · rw [link?_newLink] at hk
      split at hk
      · cases hk
        exact hhash
      · exact h.hash hk
    · rw [link?_newLink] at hk
      split at hk
      · cases hk
        exact hkeyed hs
      · exact h.keyed hk hs
    · obtain ⟨j,hj,rfl⟩ := h.table hk
      have hlt := link?_lt hj
      exact ⟨j,by rw [link?_newLink,if_neg (by omega),hj],rfl⟩
  obtain ⟨links,heq,-,hentries⟩ := registerLink_eq n.linkHeap.length (n.newLink l r)
  rw [heq]
  exact hnew.same (fun _ => rfl) hentries

end Node.LinksSound

section
variable {P : Platform} {guard : Op → Node → Prop}

theorem Update.linksSound {o : Op} {t n m : Node} (h : Update P o t n m) (hn : n.LinksSound) :
    m.LinksSound := by
  have keep : ∀ {m : Node}, m.linkHeap = n.linkHeap → m.links = n.links → m.LinksSound :=
    fun hheap hlinks => hn.same (fun a => by rw [Node.link?,hheap]; rfl) fun h a hk =>
      .inl (hlinks ▸ hk)
  cases h with
  | tables h => exact hn.same h.link? h.entries
  | unlinked _ =>
    unfold Node.deregisterLink
    split
    · exact hn
    · rename_i l _
      refine hn.same (fun _ => rfl) fun h a hk => .inl ?_
      by_cases hh : h = l.hash
      · rw [hh,Finmap.lookup_erase] at hk
        cases hk
      · rwa [Finmap.lookup_erase_ne hh] at hk
  | joined _ | left _ | cleared _ | plain _ | received _ _ | sent _ | requestSent _ _
  | proofSent _ _ _ _ | linkSent _ _ | delivered _ _ _ _ _ | forwarded _ _ => exact keep rfl rfl
  | requested _ _ hr =>
    refine hn.newLink _ ?_ fun hs => by cases hr.status.symm.trans hs
    rw [hr.hash]; exact truncatedHash_length _ _
  | validated _ _ _ hv =>
    refine hn.newLink _ ?_ fun _ => hv.keyed
    rw [hv.hash]; exact truncatedHash_length _ _
  | @proved n a l id packet _ _ hl hs hi _ _ _ =>
    have hset : ((n.note (.onProof a packet)).setLink a
        { l.proving P packet.data with status := .active }).LinksSound :=
      (hn.same (m := n.note (.onProof a packet)) (fun _ => rfl) fun _ _ h => .inl h).setLink hl rfl
        fun _ => ⟨Link.sessionKey_length _ _ _,rfl⟩
    unfold Node.noteEstablished
    split
    · exact hset
    · exact hset.same (fun _ => rfl) fun _ _ h => .inl h
  | @refused n a l id packet _ hl _ _ _ =>
    exact (hn.same (m := n.note (.onProof a packet)) (fun _ => rfl) fun _ _ h => .inl h).setLink hl
      rfl fun hs => by cases hs
  | callbacks hl =>
    refine hn.setLink hl rfl fun hs => ?_
    obtain ⟨hlen,htoken⟩ := hn.keyed hl hs
    exact ⟨hlen,htoken⟩

theorem Heard.linksSound {packet : Packet} {via : Option Nat} {s n m : Node}
    (h : Heard P packet via s n m) (hn : n.LinksSound) : m.LinksSound := by
  cases h <;> exact hn.same (fun _ => rfl) fun _ _ h => .inl h

theorem Runs.linksSound {n m : Node} (h : Runs P guard n m) : n.LinksSound → m.LinksSound :=
  Runs.invariant Node.LinksSound
    (fun _ _ hn => ⟨hn.hash,hn.keyed,fun h => nomatch (Finmap.lookup_empty _).symm.trans h⟩)
    (fun _ hn => hn.same (fun _ => rfl) fun _ _ h => .inl h)
    (fun _ _ _ h => h.linksSound) (fun _ _ h => h.linksSound) h

theorem Reachable.linksSound {n : Node} (h : Reachable P n) : n.LinksSound := by
  obtain ⟨r,hn⟩ := h
  exact hn.linksSound (.boot r)

theorem Link.Later.keyed {l l' : Link} (h : l.Later l') (hs : l.status = .active)
    (hk : l.Keyed) : l'.Keyed := by
  obtain ⟨-,-,-,hkey,htoken⟩ := h.settled (by simp [hs])
  obtain ⟨hlen,ht⟩ := hk
  exact ⟨by rw [hkey,hlen],by simp only [htoken,ht,hkey]⟩

theorem sendWithContext_eq {n : Node} {a : Nat} {l : Link} (hc : P.CbcInverts)
    (hl : n.link? a = some l) (hs : l.status = .active) (hk : l.Keyed) (pt : Bytes)
    (ctx : Context) : ∃ c r, (∀ k : Link, k.Keyed → k.sharedSessionKey = l.sharedSessionKey →
        k.Opens P c pt) ∧
      ∀ env, n.sendWithContext P env a pt ctx = .ok
        ({ n with rng := r }.broadcast env (linkFrame .data l.hash ctx c) none (.link a)) := by
  obtain ⟨hlen,htoken⟩ := hk
  generalize ht : Token.ofKey64 l.sharedSessionKey hlen = token at htoken
  obtain ⟨c,r,henc⟩ : ∃ c r, token.encrypt P pt n.rng = .ok (c,r) := ⟨_,_,token.encrypt_eq pt n.rng⟩
  refine ⟨c,r,?_,fun env => ?_⟩
  · rintro k ⟨hklen,hktoken⟩ hkey
    refine ⟨_,hktoken,Token.decrypt_iff.mpr ?_⟩
    have hsame : Token.ofKey64 k.sharedSessionKey hklen = token := by
      rw [← ht]; simp only [hkey]
    rw [hsame]
    exact Token.opens_encrypt hc henc
  · simp only [Node.sendWithContext,hl,hs,htoken,henc,ok_bind,pure_eq_ok]

theorem inbound_link {n : Node} {raw : Bytes} {packet : Packet} {b : Nat} {l : Link} {pt : Bytes}
    (hp : Packet.unpack P raw = some packet) (ht : packet.packetType = .data)
    (hd : n.destinations.lookup packet.destinationHash = none)
    (hb : n.links.lookup packet.destinationHash = some b) (hl : n.link? b = some l)
    (hs : l.status = .active) (ho : l.Opens P packet.data pt) (hne : pt ≠ []) (env : Env)
    (iface : Option Nat) : n.inbound P env raw iface =
      if packet.context = Context.request then
        (n.note (.rx raw iface)).handleRequest P env b l pt packet
      else .ok (l.onPacket.elim (n.note (.rx raw iface)) fun cb =>
        (n.note (.rx raw iface)).tell env (.linkPacket cb pt b)) := by
  obtain ⟨token,htoken,hdec⟩ := ho
  have hd' : (n.note (.rx raw iface)).destinations.lookup packet.destinationHash = none := hd
  have hb' : (n.note (.rx raw iface)).links.lookup packet.destinationHash = some b := hb
  have hl' : (n.note (.rx raw iface)).link? b = some l := hl
  have hne' : pt.isEmpty = false := by simpa using hne
  simp only [Node.inbound,hp,ht,hd',hb',Node.onInbound,hl',hs,htoken,hdec,ok_bind,hne',
    ne_eq,not_true_eq_false,if_false,Bool.false_eq_true,pure_eq_ok]
  cases l.onPacket <;> rfl

/-- What the link at `a` sends goes out on every interface, and the node `m` hands it to the
callback of its link at `b`, once and unchanged, whatever relays did to the header. -/
def Node.Reaches (P : Platform) (n : Node) (a : Nat) (m : Node) (b : Nat) : Prop :=
  ∀ (l : Link) (cb : Nat) (pt : Bytes) (ctx : Context), m.link? b = some l →
    l.onPacket = some cb → pt ≠ [] → ctx ≠ Context.request →
    ∃ frame r, (∀ env, ∃ u, n.sendWithContext P env a pt ctx = .ok u ∧
        { n with rng := r }.CallsOut env
          (n.interfaces.map fun i => .sendOutgoing i frame (.link a)) u) ∧
      ∀ raw, Packet.Rewritten frame raw → ∀ env iface, ∃ u,
        m.inbound P env raw iface = .ok u ∧
        { m with log := .rx raw iface :: m.log }.CallsOut env [.linkPacket cb pt b] u

/-- A link that is up and registered, and no local destination has its id. -/
structure Node.Up (n : Node) (a : Nat) (l : Link) : Prop where
  link : n.link? a = some l
  active : l.status = .active
  registered : n.links.lookup l.hash = some a
  notLocal : n.destinations.lookup l.hash = none

theorem Node.Up.inbound {n : Node} {a : Nat} {l : Link} (h : n.Up a l) (hhash : l.hash.length = 16)
    {c pt raw : Bytes} {ctx : Context} (hopens : l.Opens P c pt) (hne : pt ≠ [])
    (hctx : ctx ≠ Context.request) {cb : Nat} (hcb : l.onPacket = some cb)
    (hraw : Packet.Rewritten (linkFrame .data l.hash ctx c) raw) (env : Env) (iface : Option Nat) :
    n.inbound P env raw iface =
      .ok ((n.note (.rx raw iface)).tell env (.linkPacket cb pt a)) := by
  obtain ⟨packet,hunpack,hcar⟩ := unpack_linkFrame (P := P) hhash hraw
  have hdest := hcar.destinationHash
  rw [inbound_link hunpack (hcar.packetType.trans (Packet.packFlags_packetType _ _))
    (hdest ▸ h.notLocal) (hdest ▸ h.registered) h.link h.active (hcar.data ▸ hopens) hne,
    if_neg (by rw [hcar.context]; exact hctx),hcb]
  rfl

theorem Node.Up.reaches (hc : P.CbcInverts) {n m : Node} {a b : Nat} {l k : Link}
    (h : n.Up a l) (h' : m.Up b k) (hhash : l.hash = k.hash)
    (hkey : l.sharedSessionKey = k.sharedSessionKey) (hn : n.LinksSound) (hm : m.LinksSound) :
    n.Reaches P a m b := by
  intro k' cb pt ctx hk' hcb hne hctx
  cases h'.link.symm.trans hk'
  obtain ⟨c,r,hopens,hsend⟩ :=
    sendWithContext_eq hc h.link h.active (hn.keyed h.link h.active) pt ctx
  refine ⟨linkFrame .data l.hash ctx c,r,fun env => ⟨_,hsend env,?_⟩,
    fun raw hraw env iface => ⟨_,?_,Node.callsOut _ _ _⟩⟩
  · exact Node.broadcast_callsOut _ _ _ _
  · rw [hhash] at hraw
    exact h'.inbound (hm.hash h'.link) (hopens k (hm.keyed h'.link h'.active) hkey.symm) hne hctx
      hcb hraw env iface

/-- A plaintext of a link is logged when its session opened a packet, and at no other
time. -/
theorem Update.linkPacket {o : Op} {t n m : Node} (h : Update P o t n m) {cb b : Nat} {pt : Bytes}
    (he : .linkPacket cb pt b ∈ m.log) : .linkPacket cb pt b ∈ n.log ∨
      ∃ l packet, n.link? b = some l ∧ l.status = .active ∧ o.Receives P t n b packet ∧
        l.Opens P packet.data pt := by
  have other : ∀ {m : Node} {e : Event}, m.log = e :: n.log → (∀ cb pt b, e ≠ .linkPacket cb pt b) →
      .linkPacket cb pt b ∈ m.log → .linkPacket cb pt b ∈ n.log := by
    intro m e hlog hne he
    rw [hlog,List.mem_cons] at he
    exact he.resolve_left fun h => hne _ _ _ h.symm
  cases h with
  | tables h => exact .inl (h.log ▸ he)
  | unlinked _ =>
    unfold Node.deregisterLink at he
    split at he <;> exact .inl he
  | joined _ | left _ | cleared _ | callbacks _ => exact .inl he
  | plain hp => exact .inl (other rfl (by rintro _ _ _ rfl; exact hp) he)
  | received _ _ | sent _ | requestSent _ _ | proofSent _ _ _ _ | linkSent _ _ =>
    exact .inl (other rfl (by rintro _ _ _ ⟨⟩) he)
  | requested _ _ _ | validated _ _ _ _ =>
    rw [Node.registerLink_log] at he
    exact .inl he
  | proved _ _ _ _ _ _ _ _ =>
    unfold Node.noteEstablished at he
    split at he
    · exact .inl (other rfl (by rintro _ _ _ ⟨⟩) he)
    · rcases List.mem_cons.mp he with h | he
      · cases h
      · exact .inl (other rfl (by rintro _ _ _ ⟨⟩) he)
  | refused _ _ _ _ _ => exact .inl (other rfl (by rintro _ _ _ ⟨⟩) he)
  | @delivered _ a l packet e hl hs ho hd hg =>
    rcases List.mem_cons.mp he with rfl | he
    · cases (hd : b = a)
      exact .inr ⟨l,packet,hl,hs,ho,hg⟩
    · exact .inl he
  | forwarded _ _ =>
    rcases List.mem_cons.mp he with h | he
    · cases h
    · exact .inl (other rfl (by rintro _ _ _ ⟨⟩) he)

theorem Heard.linkPacket {packet : Packet} {via : Option Nat} {s n m : Node}
    (h : Heard P packet via s n m) {cb b : Nat} {pt : Bytes}
    (he : .linkPacket cb pt b ∈ m.log) : .linkPacket cb pt b ∈ n.log := by
  cases h with
  | heard _ | believed _ _ => exact he
  | announced _ | relayed _ | relaySent _ =>
    exact (List.mem_cons.mp he).resolve_left fun h => nomatch h

def Node.Delivered (P : Platform) (n : Node) (pt : Bytes) (b : Nat) : Prop :=
  ∃ l raw iface packet, n.link? b = some l ∧ l.status = .active ∧ .rx raw iface ∈ n.log ∧
    Packet.unpack P raw = some packet ∧ packet.packetType = .data ∧
    packet.destinationHash = l.hash ∧ l.Opens P packet.data pt

theorem Node.Delivered.later {n m : Node} {pt : Bytes} {b : Nat} (h : n.Delivered P pt b)
    (hl : n.LinksLater m) (hlog : ∀ e ∈ n.log, e ∈ m.log) : m.Delivered P pt b := by
  obtain ⟨l,raw,iface,packet,hlink,hs,hrx,hp,ht,hdest,token,htoken,hdec⟩ := h
  obtain ⟨l',hl',hlater⟩ := hl b l hlink
  obtain ⟨-,-,-,-,htoken'⟩ := hlater.settled (by simp [hs])
  exact ⟨l',raw,iface,packet,hl',hlater.active hs,hlog _ hrx,hp,ht,hdest.trans hlater.hash.symm,
    token,htoken'.trans htoken,hdec⟩

def Op.ThroughInbound (o : Op) : Prop := ∀ a packet, o ≠ .onInbound a packet

theorem Runs.delivered {n m : Node} (h : Runs P (fun o _ => o.ThroughInbound) n m)
    (hn : n.LinksSound ∧ ∀ cb pt b, .linkPacket cb pt b ∈ n.log → n.Delivered P pt b) :
    m.LinksSound ∧ ∀ cb pt b, .linkPacket cb pt b ∈ m.log → m.Delivered P pt b := by
  have grow : ∀ {n m : Node}, n.LinksLater m → (∀ e ∈ n.log, e ∈ m.log) →
      (∀ cb pt b, .linkPacket cb pt b ∈ n.log → n.Delivered P pt b) →
      ∀ cb pt b, .linkPacket cb pt b ∈ n.log → m.Delivered P pt b :=
    fun hl hlog hn cb pt b he => (hn cb pt b he).later hl hlog
  have logs : ∀ {n m : Node} {new : List Event} , m.log = new ++ n.log → ∀ e ∈ n.log, e ∈ m.log :=
    fun hlog e he => hlog ▸ List.mem_append_right _ he
  refine Runs.invariant (fun n : Node => n.LinksSound ∧
    ∀ cb pt b, .linkPacket cb pt b ∈ n.log → n.Delivered P pt b) ?_ ?_ ?_ ?_ h hn
  · exact fun n _ hn => ⟨⟨hn.1.hash,hn.1.keyed,fun h =>
      nomatch (Finmap.lookup_empty _).symm.trans h⟩,hn.2⟩
  · refine fun _ hn => ⟨hn.1.same (fun _ => rfl) fun _ _ h => .inl h,fun cb pt b he => ?_⟩
    have he := (List.mem_cons.mp he).resolve_left fun h => nomatch h
    exact (hn.2 cb pt b he).later (.of_link? fun _ => rfl) fun e he => List.mem_cons_of_mem _ he
  · rintro raw iface packet t n m - hp ht hu hn
    obtain ⟨new,hlog,-⟩ := hu.events (t := t) hp ht
    exact ⟨hu.linksSound hn.1,fun cb pt b he =>
      grow hu.linksLater (logs hlog) hn.2 cb pt b (hu.linkPacket he)⟩
  · rintro o t n m hg - hu hn
    obtain ⟨new,hlog,-⟩ := hu.events
    refine ⟨hu.linksSound hn.1,fun cb pt b he => ?_⟩
    rcases hu.linkPacket he with he | ⟨l,packet,hl,hs,ho,hopens⟩
    · exact grow hu.linksLater (logs hlog) hn.2 cb pt b he
    · obtain ⟨rfl,-⟩ | ⟨raw,iface,-,rfl,hp,ht,ha⟩ := ho
      · exact absurd rfl (hg b packet)
      · obtain ⟨k,hk,hhash⟩ := hn.1.table (h := packet.destinationHash) ha
        cases hl.symm.trans hk
        refine Node.Delivered.later ⟨l,raw,iface,packet,hl,hs,List.mem_cons_self,hp,ht,
          hhash.symm,hopens⟩ hu.linksLater (logs hlog)

/-- Two ends of one session reach each other; and in any run, whatever frames of whatever
links arrive in whatever order, a plaintext only reaches the callback of a link in a frame
that carries the id of that link. -/
theorem links_deliver (hc : P.CbcInverts) :
    (∀ {n m : Node} {a b : Nat} {l k : Link}, Reachable P n → Reachable P m → n.Up a l →
      m.Up b k → l.hash = k.hash → l.sharedSessionKey = k.sharedSessionKey →
      n.Reaches P a m b ∧ m.Reaches P b n a) ∧
    ∀ (r : Rng) (n : Node), Runs P (fun o _ => o.ThroughInbound) (Node.boot r) n →
      ∀ cb pt b, .linkPacket cb pt b ∈ n.log →
      ∃ l raw iface, n.link? b = some l ∧ .rx raw iface ∈ n.log ∧
        ∀ hash ctx c, hash.length = 16 → Packet.Rewritten (linkFrame .data hash ctx c) raw →
          hash = l.hash ∧ l.Opens P c pt := by
  constructor
  · intro n m a b l k hn hm hl hk hhash hkey
    exact ⟨hl.reaches hc hk hhash hkey hn.linksSound hm.linksSound,
      hk.reaches hc hl hhash.symm hkey.symm hm.linksSound hn.linksSound⟩
  · intro r n hn cb pt b he
    obtain ⟨-,hdelivered⟩ := hn.delivered ⟨.boot r,fun _ _ _ h => nomatch h⟩
    obtain ⟨l,raw,iface,packet,hl,-,hrx,hp,-,hdest,hopens⟩ := hdelivered cb pt b he
    refine ⟨l,raw,iface,hl,hrx,fun hash ctx c hlen hraw => ?_⟩
    obtain ⟨packet',hp',hcar⟩ := unpack_linkFrame (P := P) hlen hraw
    cases hp.symm.trans hp'
    exact ⟨hcar.destinationHash.symm.trans hdest,hcar.data ▸ hopens⟩

end

theorem links_deliver_sample : ∃ (n m : Node) (l k : Link), n.Up 0 l ∧ l.onPacket = some 9 ∧
    m.Up 0 k ∧ k.onPacket = some 8 ∧
    n.Reaches Sample.platform 0 m 0 ∧ m.Reaches Sample.platform 0 n 0 := by
  obtain ⟨n,hn,hq⟩ := reachable_of_endsIn Sample.platform
    [.registerInterface 0,.request Sample.destination none (some 9) 600,
      .inbound (Sample.proofFrame 600) (some 0)] (Sample.rng 2)
    (fun n => endsIn Sample.platform (fun _ _ => true) (Sample.responder ++
        [.inbound (Sample.requestFrame 600) (some 0),.setLinkPacketCallback 0 (some 8)])
      (Node.boot (Sample.rng 3)) fun m => (n.link? 0).any fun l => (m.link? 0).any fun k =>
        l.status = .active ∧ n.links.lookup l.hash = some 0 ∧ n.destinations.lookup l.hash = none ∧
        l.onPacket = some 9 ∧ k.status = .active ∧ m.links.lookup k.hash = some 0 ∧
        m.destinations.lookup k.hash = none ∧ k.onPacket = some 8 ∧ l.hash = k.hash ∧
        l.sharedSessionKey = k.sharedSessionKey)
    (by decide +kernel)
  obtain ⟨m,hm,hq⟩ := runs_of_endsIn _ _ _ _ _ hq
  obtain ⟨l,hl,hq⟩ := (Option.any_eq_true _ _).mp hq
  obtain ⟨k,hk,hq⟩ := (Option.any_eq_true _ _).mp hq
  obtain ⟨hs,hreg,hdest,hcb,hks,hkreg,hkdest,hkcb,hhash,hkey⟩ := of_decide_eq_true hq
  have hm : Reachable Sample.platform m := ⟨_,hm.mono fun _ _ _ => trivial⟩
  obtain ⟨hnm,hmn⟩ := (links_deliver Sample.cbcInverts).1 hn hm ⟨hl,hs,hreg,hdest⟩
    ⟨hk,hks,hkreg,hkdest⟩ hhash hkey
  exact ⟨n,m,l,k,⟨hl,hs,hreg,hdest⟩,hcb,⟨hk,hks,hkreg,hkdest⟩,hkcb,hnm,hmn⟩

end RNS
