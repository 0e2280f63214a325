import RTReticulum.Upkeep

/-! A link over a whole run of its node: what its packet callback hears is what arrived for it,
and a resource sent over it is put together again. -/
set_option autoImplicit false

namespace RNS

section
variable (P : Platform)

/-- The plaintext that a frame has for the packet callback of a link. -/
def Link.plaintext? (l : Link) (raw : Bytes) : Option Bytes :=
  match Packet.unpack P raw, l.token with
  | some packet, some token =>
    if packet.packetType = .data ∧ packet.destinationHash = l.hash ∧
        packet.context ≠ Context.request then
      match token.decrypt P packet.data with
      | .ok plaintext => if plaintext.isEmpty then none else some plaintext
      | .error _ => none
    else none
  | _, _ => none

def Event.arrival (k : Link) : Event → Option Bytes
  | .rx raw _ => k.plaintext? P raw
  | _ => none

def Event.handed (b cb : Nat) : Event → Option Bytes
  | .linkPacket c plaintext a => if a = b ∧ c = cb then some plaintext else none
  | _ => none

/-- Operations that leave the link at `b` and its id alone: it stays in the table, its callback
stays, and no other link or destination takes its id. Only the transport calls `on_inbound`. -/
def Op.Spares (b : Nat) (id : Bytes) (o : Op) (n : Node) : Prop :=
  match o with
  | .reset => False
  | .deregisterLink a | .setLinkPacketCallback a _ | .onInbound a _ => a ≠ b
  | .registerDestination d => d.hash ≠ id
  | .request d oe op mtu => ∀ l raw r, Link.request P d oe op mtu n.rng = .ok ((l,raw),r) →
      l.hash ≠ id
  | .validateRequest _ data packet => Link.linkIdFromLrPacket P packet data.length ≠ id
  | .inbound raw _ => ∀ packet, Packet.unpack P raw = some packet →
      packet.packetType = .linkRequest →
        Link.linkIdFromLrPacket P packet packet.data.length ≠ id
  | _ => True

end

theorem Link.plaintext?_eq_some {P : Platform} {l : Link} {raw pt : Bytes} :
    l.plaintext? P raw = some pt ↔ ∃ packet, Packet.unpack P raw = some packet ∧
      packet.packetType = .data ∧ packet.destinationHash = l.hash ∧
      packet.context ≠ Context.request ∧ pt ≠ [] ∧ l.Opens P packet.data pt := by
  unfold Link.plaintext? Link.Opens
  cases hp : Packet.unpack P raw with
  | none => simp
  | some packet =>
    cases ht : l.token with
    | none => simp
    | some token =>
      cases hd : token.decrypt P packet.data with
      | error f => simp [hd]
      | ok plaintext =>
        dsimp only
        rw [hd]
        constructor
        · intro h
          by_cases hfor : packet.packetType = .data ∧ packet.destinationHash = l.hash ∧
              packet.context ≠ Context.request
          · rw [if_pos hfor] at h
            by_cases hempty : plaintext.isEmpty
            · simp [hempty] at h
            · have hpt : plaintext = pt := by simpa [hempty] using h
              subst hpt
              exact ⟨packet,rfl,hfor.1,hfor.2.1,hfor.2.2,by simpa using hempty,token,rfl,hd⟩
          · rw [if_neg hfor] at h
            cases h
        · rintro ⟨q,hq,hdata,hdest,hctx,hne,token',htoken,hdec⟩
          cases hq
          cases htoken
          cases hd.symm.trans hdec
          rw [if_pos ⟨hdata,hdest,hctx⟩]
          simp [hne]

/-- The link at `b` is up, alone with its id, and its callback has heard since `old` what
arrived. -/
structure Node.Hears (P : Platform) (k : Link) (b cb : Nat) (old : List Event) (n : Node) :
    Prop where
  link : ∃ l, n.link? b = some l ∧ l.status = .active ∧ l.hash = k.hash ∧ l.token = k.token ∧
    l.onPacket = some cb
  sole : ∀ {a l}, n.link? a = some l → l.hash = k.hash → a = b
  table : ∀ {h a}, n.links.lookup h = some a → ∃ l, n.link? a = some l ∧ l.hash = h
  registered : n.links.lookup k.hash = some b
  notLocal : n.destinations.lookup k.hash = none
  heard : ∃ new, n.log = new ++ old ∧
    new.filterMap (Event.handed b cb) = new.filterMap (Event.arrival P k)

namespace Node.Hears
variable {P : Platform} {k : Link} {b cb : Nat} {old : List Event} {n : Node}

theorem note (h : n.Hears P k b cb old) {e : Event} (ha : e.arrival P k = none)
    (hh : e.handed b cb = none) : (n.note e).Hears P k b cb old := by
  obtain ⟨new,hlog,hheard⟩ := h.heard
  refine ⟨h.link,h.sole,h.table,h.registered,h.notLocal,e :: new,?_,?_⟩
  · rw [note_log,hlog]; rfl
  · rw [List.filterMap_cons_none hh,List.filterMap_cons_none ha,hheard]

theorem same (h : n.Hears P k b cb old) {m : Node} (hheap : m.linkHeap = n.linkHeap)
    (hlinks : m.links = n.links) (hdest : m.destinations.lookup k.hash = none)
    (hlog : m.log = n.log) : m.Hears P k b cb old := by
  have hlink (a : Nat) : m.link? a = n.link? a := by rw [Node.link?,hheap]; rfl
  refine ⟨?_,?_,?_,?_,hdest,?_⟩
  · simp only [hlink]
    exact h.link
  · intro a l hl
    exact h.sole (hlink a ▸ hl)
  · intro x a hx
    rw [hlink]
    exact h.table (hlinks ▸ hx)
  · rw [hlinks]
    exact h.registered
  · rw [hlog]
    exact h.heard

theorem registerLink (h : n.Hears P k b cb old) (a : Nat) :
    (n.registerLink a).Hears P k b cb old := by
  obtain ⟨links,heq,hsome,hentries⟩ := registerLink_eq a n
  rw [heq]
  refine ⟨h.link,h.sole,?_,?_,h.notLocal,h.heard⟩
  · intro x c hx
    exact (hentries x c hx).elim h.table id
  · obtain ⟨c,hc⟩ := Option.isSome_iff_exists.mp (hsome k.hash (by rw [h.registered]; rfl))
    show links.lookup k.hash = some b
    rcases hentries _ _ hc with hold | ⟨l,hl,hhash⟩
    · exact hc.trans (hold.symm.trans h.registered)
    · rw [hc,h.sole hl hhash]

theorem deregisterLink (h : n.Hears P k b cb old) {a : Nat} (ha : a ≠ b) :
    (n.deregisterLink a).Hears P k b cb old := by
  unfold Node.deregisterLink
  split
  · exact h
  rename_i l hl
  refine ⟨h.link,h.sole,?_,?_,h.notLocal,h.heard⟩
  · intro x c hx
    by_cases hid : x = l.hash
    · rw [hid,Finmap.lookup_erase] at hx
      cases hx
    · exact h.table ((Finmap.lookup_erase_ne hid).symm.trans hx)
  · have hid : k.hash ≠ l.hash := fun hid => ha (h.sole hl hid.symm)
    exact (Finmap.lookup_erase_ne hid).trans h.registered

theorem newLink (h : n.Hears P k b cb old) {l : Link} (r : Rng) (hne : l.hash ≠ k.hash) :
    (n.newLink l r).Hears P k b cb old := by
  have hb : b ≠ n.linkHeap.length := by
    obtain ⟨l',hl',-⟩ := h.link
    exact Nat.ne_of_lt (link?_lt hl')
  refine ⟨?_,?_,?_,h.registered,h.notLocal,h.heard⟩
  · rw [link?_newLink,if_neg hb]
    exact h.link
  · intro a l' hl' hhash
    rw [link?_newLink] at hl'
    split at hl'
    · cases hl'
      exact absurd hhash hne
    · exact h.sole hl' hhash
  · intro x a hx
    obtain ⟨l',hl',hhash⟩ := h.table hx
    have ha : a ≠ n.linkHeap.length := Nat.ne_of_lt (link?_lt hl')
    exact ⟨l',by rw [link?_newLink,if_neg ha,hl'],hhash⟩

theorem setLink (h : n.Hears P k b cb old) {a : Nat} {l l' : Link} (hl : n.link? a = some l)
    (hhash : l'.hash = l.hash) (hsame : a = b → l'.status = l.status ∧ l'.token = l.token ∧
      l'.onPacket = l.onPacket) : (n.setLink a l').Hears P k b cb old := by
  refine ⟨?_,?_,table_setLink hl hhash h.table,h.registered,h.notLocal,h.heard⟩
  · obtain ⟨j,hj,hs,hj',ht,hp⟩ := h.link
    rw [link?_setLink hl]
    split
    · rename_i hb
      subst hb
      cases hl.symm.trans hj
      obtain ⟨hs',ht',hp'⟩ := hsame rfl
      exact ⟨l',rfl,hs'.trans hs,hhash.trans hj',ht'.trans ht,hp'.trans hp⟩
    · exact ⟨j,hj,hs,hj',ht,hp⟩
  · intro c j hj hid
    rw [link?_setLink hl] at hj
    split at hj
    · rename_i hc
      cases hj
      rw [hc]
      exact h.sole hl (hhash.symm.trans hid)
    · exact h.sole hj hid

theorem upkeep {env : Env} (henv : ∀ (e : Event) (m : Node), m.Hears P k b cb old →
    (env e m).2.Hears P k b cb old) : Upkeep env (Hears P k b cb old) where
  tables := fun _ _ _ _ _ hn => hn.same rfl rfl hn.notLocal rfl
  relay := fun _ hn => hn.note rfl rfl
  onProof := fun _ _ hn => hn.note rfl rfl
  call := fun {_ e} hn he => by
    refine henv e _ ?_
    cases e with
    | linkPacket | rx | relay | onProof => exact absurd he id
    | _ => exact hn.note rfl rfl
  registerLink := fun a hn => hn.registerLink a
  proof := fun {n a l l'} hn hl hl' => by
    refine hn.setLink hl hl'.hash ?_
    rintro rfl
    -- the link at `b` is past its handshake
    obtain ⟨j,hj,hs,-⟩ := hn.link
    cases hl.symm.trans hj
    cases hl'.status.symm.trans hs

section
variable {env : Env} (henv : ∀ (e : Event) (m : Node), m.Hears P k b cb old →
  (env e m).2.Hears P k b cb old)
include henv

theorem inbound (h : n.Hears P k b cb old) {raw : Bytes} {iface : Option Nat}
    (hspares : (Op.inbound raw iface).Spares P b k.hash n) {u : Node}
    (hu : n.inbound P env raw iface = .ok u) : u.Hears P k b cb old := by
  cases harr : k.plaintext? P raw with
  | some pt =>
    obtain ⟨packet,hp,ht,hd,hctx,hne,hopens⟩ := Link.plaintext?_eq_some.mp harr
    obtain ⟨l,hl,hs,hhash,htoken,hcb⟩ := h.link
    have hopens' : l.Opens P packet.data pt := by rwa [Link.Opens,htoken]
    rw [inbound_link hp ht (hd ▸ h.notLocal) (hd ▸ h.registered) hl hs hopens' hne,if_neg hctx,hcb]
      at hu
    cases hu
    refine henv _ _ ⟨h.link,h.sole,h.table,h.registered,h.notLocal,?_⟩
    obtain ⟨new,hlog,hheard⟩ := h.heard
    refine ⟨.linkPacket cb pt b :: .rx raw iface :: new,by simp [hlog],?_⟩
    have hhanded : (Event.linkPacket cb pt b).handed b cb = some pt := if_pos ⟨rfl,rfl⟩
    have harrival : (Event.rx raw iface).arrival P k = some pt := harr
    rw [List.filterMap_cons_some hhanded,List.filterMap_cons_none rfl,
      List.filterMap_cons_none rfl,List.filterMap_cons_some harrival,hheard]
  | none =>
    have hrx : (n.note (.rx raw iface)).Hears P k b cb old := h.note harr rfl
    refine (upkeep henv).inbound hrx (fun _ packet owner r hp ht _ => ?_)
      (fun packet a hp _ ha => ?_) hu
    · exact hrx.newLink r (hspares packet hp ht)
    · intro l c pt hl hs ht hopens hne hctx hc
      have hab : a ≠ b := by
        rintro rfl
        obtain ⟨j,hj,-,hhash,htoken,-⟩ := h.link
        cases hl.symm.trans hj
        obtain ⟨j',hj',hdest⟩ := h.table ha
        cases hj.symm.trans hj'
        have hopens' : k.Opens P packet.data pt := by rwa [Link.Opens,← htoken]
        have := Link.plaintext?_eq_some.mpr
          ⟨packet,hp,ht,hdest.symm.trans hhash,hctx,hne,hopens'⟩
        exact nomatch harr.symm.trans this
      exact henv _ _ (hrx.note rfl (if_neg fun hh => hab hh.1))

theorem exec (h : n.Hears P k b cb old) {o : Op} (hspares : o.Spares P b k.hash n) {u : Node}
    (hu : RNS.exec P env o n = .ok u) : u.Hears P k b cb old := by
  cases o with
  | reset => exact absurd hspares id
  | registerDestination d =>
    cases hu
    refine h.same rfl rfl ?_ rfl
    rw [Finmap.lookup_insert_of_ne _ (Ne.symm hspares)]
    exact h.notLocal
  | deregisterDestination d =>
    cases hu
    refine h.same rfl rfl ?_ rfl
    by_cases hd : k.hash = d.hash
    · rw [hd]; exact Finmap.lookup_erase _ _
    · rw [Finmap.lookup_erase_ne hd]; exact h.notLocal
  | registerLink a => cases hu; exact h.registerLink a
  | deregisterLink a => cases hu; exact h.deregisterLink hspares
  | broadcast raw skip => cases hu; exact (upkeep henv).broadcast h raw skip .own
  | inbound raw iface => exact h.inbound henv hspares hu
  | announce d appData send => exact (upkeep henv).announce h hu
  | request d oe op mtu =>
    obtain ⟨⟨a,m⟩,hm,hu⟩ := bind_eq_ok.mp hu
    cases hu
    exact (upkeep henv).request (fun l raw r hreq => h.newLink r (hspares l raw r hreq)) hm
  | validateRequest d data packet =>
    obtain ⟨⟨a,m⟩,hm,hu⟩ := bind_eq_ok.mp hu
    cases hu
    exact (upkeep henv).validateRequest h (fun r => h.newLink r hspares) hm
  | onProof a packet => exact (upkeep henv).proved h hu
  | onInbound a packet =>
    refine (upkeep henv).onInbound h (fun l c pt _ _ _ _ _ _ _ => ?_) hu
    exact henv _ _ (h.note rfl (if_neg fun hh => hspares hh.1))
  | send a plaintext => exact (upkeep henv).sendWithContext h hu
  | sendWithContext a plaintext ctx => exact (upkeep henv).sendWithContext h hu
  | setLinkPacketCallback a c =>
    cases hu
    unfold Node.setPacketCallback
    split
    · exact h
    · rename_i l hl
      exact h.setLink hl rfl fun hab => absurd hab hspares
  | setEstablishedCallback a c =>
    cases hu
    unfold Node.setEstablishedCallback
    split
    · exact h
    · rename_i l hl
      exact h.setLink hl rfl fun _ => ⟨rfl,rfl,rfl⟩
  | registerInterface _ | deregisterInterface _ | setLinkRequestHandler _ | onAnnounce _
  | clearPaths | setPacketCallback _ _ | registerRequestHandler _ _ _ | random _ =>
    cases hu
    exact h.same rfl rfl h.notLocal rfl

end

end Node.Hears

section
variable {P : Platform} {n m : Node} {b cb : Nat} {k : Link}

theorem Node.Up.hears (hk : n.Up b k) (hn : Reachable P n) (hcb : k.onPacket = some cb)
    (hsole : ∀ a l, n.link? a = some l → l.hash = k.hash → a = b)
    (h : Runs P (Op.Spares P b k.hash) n m) : m.Hears P k b cb n.log :=
  Reentrant.Run.invariant (fun u : Node => u.Hears P k b cb n.log)
    (fun _ henv hg ht hx => ht.exec henv hg hx) h
    ⟨⟨k,hk.link,hk.active,rfl,rfl,hcb⟩,hsole _ _,hn.linksSound.table,hk.registered,hk.notLocal,[],
      rfl,rfl⟩

/-- In a run that spares a link, its callback hears every frame that arrives for it, once and
in their order, and nothing else. -/
theorem link_hears (hn : Reachable P n) (hk : n.Up b k) (hcb : k.onPacket = some cb)
    (hsole : ∀ a l, n.link? a = some l → l.hash = k.hash → a = b)
    (h : Runs P (Op.Spares P b k.hash) n m) :
    (∃ k', m.Up b k' ∧ k'.hash = k.hash ∧ k'.token = k.token ∧ k'.onPacket = some cb) ∧
    ∃ new, m.log = new ++ n.log ∧
      new.filterMap (Event.handed b cb) = new.filterMap (Event.arrival P k) := by
  have hend := hk.hears hn hcb hsole h
  obtain ⟨k',hk',hs,hhash,htoken,hcb'⟩ := hend.link
  exact ⟨⟨k',⟨hk',hs,hhash ▸ hend.registered,hhash ▸ hend.notLocal⟩,hhash,htoken,hcb'⟩,hend.heard⟩

end

section
variable {P : Platform}

def Link.Frames (P : Platform) (l : Link) (f plaintext : Bytes) : Prop :=
  ∃ c, f = linkFrame .data l.hash Context.none c ∧
    ∀ k : Link, k.Keyed → k.sharedSessionKey = l.sharedSessionKey → k.Opens P c plaintext

theorem Link.Keyed.frame? (hc : P.CbcInverts) {n : Node} {a : Nat} {l : Link} (hk : l.Keyed)
    (hl : n.link? a = some l) (hs : l.status = .active) (pt : Bytes) :
    ∃ f, n.frame? P a pt Context.none = some f ∧ l.Frames P f pt := by
  obtain ⟨hlen,htoken⟩ := hk
  generalize ht : Token.ofKey64 l.sharedSessionKey hlen = token at htoken
  have henc := token.encrypt_eq (P := P) pt n.rng
  refine ⟨_,by simp only [Node.frame?,hl,hs,htoken,henc]; rfl,_,rfl,?_⟩
  rintro k ⟨hklen,hktoken⟩ hkey
  refine ⟨_,hktoken,Token.decrypt_iff.mpr ?_⟩
  have hsame : Token.ofKey64 k.sharedSessionKey hklen = token := by
    rw [← ht]; simp only [hkey]
  rw [hsame]
  exact Token.opens_encrypt hc henc

theorem Link.Frames.plaintext? {l k : Link} {f pt raw : Bytes} (h : l.Frames P f pt)
    (hraw : Packet.Rewritten f raw) (hne : pt ≠ []) (hhash : l.hash = k.hash)
    (hkey : l.sharedSessionKey = k.sharedSessionKey) (hk : k.Keyed) (hlen : k.hash.length = 16) :
    k.plaintext? P raw = some pt := by
  obtain ⟨c,rfl,hopens⟩ := h
  rw [hhash] at hraw
  obtain ⟨packet,hunpack,hcar⟩ := unpack_linkFrame (P := P) hlen hraw
  refine Link.plaintext?_eq_some.mpr ⟨packet,hunpack,
    hcar.packetType.trans (Packet.packFlags_packetType _ _),hcar.destinationHash,?_,hne,?_⟩
  · rw [hcar.context]
    decide
  · rw [hcar.data]
    exact hopens k hk hkey.symm

namespace Resource
variable {a : Nat} {env : Env}

theorem frames_forall₂ (hc : P.CbcInverts) {n : Node} (hn : n.LinksSound) {l : Link}
    (hl : n.link? a = some l) (hs : l.status = .active)
    (henv : ∀ e m, Node.LinksLater m (env e m).2) (chunks : List Bytes) (m : Node)
    (hm : n.LinksLater m) : List.Forall₂ (l.Frames P) (frames P env a chunks m) chunks := by
  induction chunks generalizing m with
  | nil => exact .nil
  | cons chunk chunks ih =>
    obtain ⟨l',hl',hlater⟩ := hm a l hl
    obtain ⟨-,-,-,hkey,-⟩ := hlater.settled (by simp [hs])
    obtain ⟨f,hf,c,hframe,hopens⟩ := (hlater.keyed hs (hn.keyed hl hs)).frame? hc hl'
      (hlater.active hs) chunk
    have hsend : m.send P env a chunk = .ok (m.transmit env a f) := by
      rw [Node.send,sendWithContext_frame,hf]
      rfl
    have hframes : frames P env a (chunk :: chunks) m =
        f :: frames P env a chunks (m.transmit env a f) := by
      simp only [frames,hf,hsend,Option.toList_some,List.singleton_append]
    rw [hframes]
    refine .cons ⟨c,by rw [hframe,hlater.hash],fun k hk h => hopens k hk (h.trans hkey.symm)⟩ ?_
    exact ih _ (hm.trans (transmit_linksLater henv a f m))

theorem sentFrames_forall₂ (hc : P.CbcInverts) {n : Node} (hn : n.LinksSound) {l : Link}
    (hl : n.link? a = some l) (hs : l.status = .active)
    (henv : ∀ e m, Node.LinksLater m (env e m).2) (payload : Bytes) :
    List.Forall₂ (l.Frames P) (sentFrames P env a payload n)
      (chunksOf (n.rng.random idBytes).1 l.mtu payload) := by
  have hsent : sentFrames P env a payload n = frames P env a
      (chunksOf (n.rng.random idBytes).1 l.mtu payload)
      { n with rng := (n.rng.random idBytes).2 } := by
    simp [sentFrames,hl,hs]
  rw [hsent]
  exact frames_forall₂ hc hn hl hs henv _ _ (.of_link? fun _ => rfl)

/-- Frames go out one after the other, each on every interface. -/
inductive Transmits (env : Env) (a : Nat) : List Bytes → Node → Node → Prop where
  | nil (n : Node) : Transmits env a [] n n
  | cons {f : Bytes} {fs : List Bytes} {n u m : Node} (r : Rng) :
      { n with rng := r }.CallsOut env
        (n.interfaces.map fun i => .sendOutgoing i f (.link a)) u →
      Transmits env a fs u m → Transmits env a (f :: fs) n m

theorem transmits_foldl (env : Env) (a : Nat) (fs : List Bytes) (n : Node) :
    Transmits env a fs n (fs.foldl (fun n f => n.transmit env a f) n) := by
  induction fs generalizing n with
  | nil => exact .nil n
  | cons f fs ih =>
    exact .cons (n.rng.random 16).2 (Node.broadcast_callsOut env f (.link a)
      { n with rng := (n.rng.random 16).2 }) (ih (n.transmit env a f))

/-- Frames that bring a resource to a link: its header before anything else that the session
opens, every other chunk at least once, and next to them nothing that carries its id. -/
structure Arrives (P : Platform) (k : Link) (id first : Bytes) (rest raws : List Bytes) :
    Prop where
  head : ∃ before raw after, raws = before ++ raw :: after ∧
    (∀ r ∈ before, k.plaintext? P r = none) ∧ Packet.Rewritten first raw
  all : ∀ f ∈ rest, ∃ raw ∈ raws, Packet.Rewritten f raw
  others : ∀ raw ∈ raws, ∀ pt, k.plaintext? P raw = some pt →
    (∃ f ∈ first :: rest, Packet.Rewritten f raw) ∨ Foreign id pt

theorem chunkAt_ne_nil (id : Bytes) (mtu : UInt32) (payload : Bytes) (i : Nat) :
    chunkAt id mtu payload i ≠ [] := by
  unfold chunkAt
  split <;> exact List.cons_ne_nil _ _

theorem exists_of_forall₂ {α β : Type} {R : α → β → Prop} {xs : List α} {ys : List β}
    (h : List.Forall₂ R xs ys) {x : α} (hx : x ∈ xs) : ∃ y ∈ ys, R x y := by
  obtain ⟨i,hi,rfl⟩ := List.mem_iff_getElem.mp hx
  have hi' : i < ys.length := h.length_eq ▸ hi
  exact ⟨ys[i],List.getElem_mem hi',h.get hi hi'⟩

/-- The chunks come out of their frames, the header first. -/
theorem Arrives.delivers {l k : Link} {id first payload : Bytes} {rest raws : List Bytes}
    {mtu : UInt32} (h : Arrives P k id first rest raws)
    (hf : List.Forall₂ (l.Frames P) (first :: rest) (chunksOf id mtu payload))
    (hopen : ∀ f pt raw, l.Frames P f pt → Packet.Rewritten f raw → pt ≠ [] →
      k.plaintext? P raw = some pt) :
    Delivers id mtu payload (raws.filterMap (k.plaintext? P)) ∧
      ∀ chunk ∈ chunksOf id mtu payload, chunk ∈ raws.filterMap (k.plaintext? P) := by
  obtain ⟨before,raw,after,rfl,hbefore,hraw⟩ := h.head
  have hne (chunk : Bytes) (hchunk : chunk ∈ chunksOf id mtu payload) : chunk ≠ [] := by
    obtain ⟨i,-,rfl⟩ := mem_chunksOf.mp hchunk
    exact chunkAt_ne_nil id mtu payload i
  have hhead : k.plaintext? P raw = some (chunkAt id mtu payload 0) := by
    rw [chunksOf_eq] at hf
    exact hopen _ _ _ (List.forall₂_cons.mp hf).1 hraw (chunkAt_ne_nil id mtu payload 0)
  have hpts : (before ++ raw :: after).filterMap (k.plaintext? P) =
      chunkAt id mtu payload 0 :: after.filterMap (k.plaintext? P) := by
    rw [List.filterMap_append,List.filterMap_eq_nil_iff.mpr hbefore,List.nil_append,
      List.filterMap_cons_some hhead]
  refine ⟨⟨?_,?_⟩,?_⟩
  · rw [hpts]
    exact fun chunk hchunk => (Option.some.inj hchunk).symm
  · intro pt hpt
    obtain ⟨r,hr,hopens⟩ := List.mem_filterMap.mp hpt
    refine (h.others r hr pt hopens).imp_left ?_
    rintro ⟨f,hfmem,hrew⟩
    obtain ⟨chunk,hchunk,hfr⟩ := exists_of_forall₂ hf hfmem
    have := hopen f chunk r hfr hrew (hne chunk hchunk)
    cases hopens.symm.trans this
    exact hchunk
  · intro chunk hchunk
    obtain ⟨f,hmem,hfr⟩ := exists_of_forall₂ hf.flip hchunk
    rcases List.mem_cons.mp hmem with rfl | hmem
    · exact List.mem_filterMap.mpr ⟨raw,by simp,hopen f chunk raw hfr hraw (hne chunk hchunk)⟩
    · obtain ⟨r,hr,hrew⟩ := h.all f hmem
      exact List.mem_filterMap.mpr ⟨r,hr,hopen f chunk r hfr hrew (hne chunk hchunk)⟩

end Resource

/-- A resource is sent in frames that go out on every interface, the header first. It is complete
at the other end of the link once they have arrived, in whatever order after the header, however
often each, through relays, and between whatever else happens there; nothing that the session
opens comes before the header. -/
theorem resource_arrives (hc : P.CbcInverts) {n m : Node} {a b cb : Nat} {l k : Link}
    (hn : Reachable P n) (hm : Reachable P m) (hl : n.Up a l) (hk : m.Up b k)
    (hhash : l.hash = k.hash) (hkey : l.sharedSessionKey = k.sharedSessionKey)
    (hcb : k.onPacket = some cb) (hsole : ∀ c j, m.link? c = some j → j.hash = k.hash → c = b)
    {guard : Op → Node → Prop} {env : Env} (henv : env.Wellbehaved P guard) {payload : Bytes}
    (hlen : payload.length < 2^32) :
    ∃ res n' first rest, Resource.send P env a payload n = .ok (res,n') ∧
      Resource.sentFrames P env a payload n = first :: rest ∧
      Resource.Transmits env a (first :: rest) n n' ∧
      ∀ m' new, Runs P (Op.Spares P b k.hash) m m' → m'.log = new ++ m.log →
        Resource.Arrives P k (n.rng.random idBytes).1 first rest
          (new.reverse.filterMap Event.raw?) → ∀ onComplete onProgress,
        let x := (Resource.receive (some onComplete) onProgress).feed
          (new.reverse.filterMap (Event.handed b cb))
        x.1.status = .complete ∧ Resource.completions x.2 = [payload] := by
  obtain ⟨-,res,hsend⟩ := Resource.send_frames (P := P) hn.linksSound hl.link hl.active
    henv.linksLater payload
  have hframes := Resource.sentFrames_forall₂ (P := P) hc hn.linksSound hl.link hl.active
    henv.linksLater payload
  cases hfs : Resource.sentFrames P env a payload n with
  | nil =>
    rw [hfs,List.forall₂_nil_left_iff,Resource.chunksOf_eq] at hframes
    cases hframes
  | cons first rest =>
    rw [hfs] at hframes
    rw [hfs] at hsend
    have hsent : Resource.Transmits env a (first :: rest) n ((first :: rest).foldl
        (fun n f => n.transmit env a f) { n with rng := (n.rng.random idBytes).2 }) := by
      cases Resource.transmits_foldl env a (first :: rest)
        { n with rng := (n.rng.random idBytes).2 } with
      | cons r hcalls htransmits => exact .cons r hcalls htransmits
    refine ⟨res,_,first,rest,hsend,rfl,hsent,
      fun m' new hrun hlog harr onComplete onProgress => ?_⟩
    obtain ⟨hdelivers,hall⟩ := harr.delivers hframes fun f pt raw hf hraw hne =>
      hf.plaintext? hraw hne hhash hkey (hm.linksSound.keyed hk.link hk.active)
        (hm.linksSound.hash hk.link)
    obtain ⟨new',hlog',hheard⟩ := (hk.hears hm hcb hsole hrun).heard
    cases List.append_cancel_right (hlog.symm.trans hlog')
    have hfeed : new.reverse.filterMap (Event.handed b cb) =
        (new.reverse.filterMap Event.raw?).filterMap (k.plaintext? P) := by
      rw [List.filterMap_reverse,hheard,← List.filterMap_reverse,List.filterMap_filterMap]
      congr 1
      funext e
      cases e <;> rfl
    have hcompleted := hdelivers.completed (n.rng.random_length idBytes) hlen onComplete onProgress
    rw [Resource.Completed,if_pos hall] at hcompleted
    rwa [hfeed]

end

/-- The two ends of a link at an MTU of 102, with a packet callback at the far one. -/
theorem narrow_ends : ∃ (n m : Node) (l k : Link), Reachable Sample.platform n ∧
    Reachable Sample.platform m ∧ n.Up 0 l ∧ m.Up 0 k ∧ l.hash = k.hash ∧
    l.sharedSessionKey = k.sharedSessionKey ∧ k.onPacket = some 8 ∧ l.mtu = 102 ∧
    n.interfaces = [0] ∧ ∀ c j, m.link? c = some j → j.hash = k.hash → c = 0 := by
  obtain ⟨n,hn,hq⟩ := reachable_of_endsIn Sample.platform
    [.registerInterface 0,.request Sample.destination none none 102,
      .inbound (Sample.proofFrame 102) (some 0)] (Sample.rng 2)
    (fun n => endsIn Sample.platform (fun _ _ => true) (Sample.responder ++
        [.inbound (Sample.requestFrame 102) (some 0),.setLinkPacketCallback 0 (some 8)])
      (Node.boot (Sample.rng 3)) fun m => (n.link? 0).any fun l => (m.link? 0).any fun k =>
        l.status = .active ∧ n.links.lookup l.hash = some 0 ∧ n.destinations.lookup l.hash = none ∧
        k.status = .active ∧ m.links.lookup k.hash = some 0 ∧ m.destinations.lookup k.hash = none ∧
        l.hash = k.hash ∧ l.sharedSessionKey = k.sharedSessionKey ∧ k.onPacket = some 8 ∧
        l.mtu = 102 ∧ n.interfaces = [0] ∧ m.linkHeap.length = 1)
    (by decide +kernel)
  obtain ⟨m,hm,hq⟩ := runs_of_endsIn _ _ _ _ _ hq
  obtain ⟨l,hl,hq⟩ := (Option.any_eq_true _ _).mp hq
  obtain ⟨k,hk,hq⟩ := (Option.any_eq_true _ _).mp hq
  obtain ⟨hs,hreg,hdest,hks,hkreg,hkdest,hhash,hkey,hcb,hmtu,hwired,hone⟩ := of_decide_eq_true hq
  refine ⟨n,m,l,k,hn,⟨_,hm.mono fun _ _ _ => trivial⟩,⟨hl,hs,hreg,hdest⟩,⟨hk,hks,hkreg,hkdest⟩,
    hhash,hkey,hcb,hmtu,hwired,fun c j hj _ => ?_⟩
  have := Node.link?_lt hj
  omega

theorem Link.Frames.arrives {P : Platform} {m : Node} {b cb : Nat} {l k : Link} {f pt : Bytes}
    (h : l.Frames P f pt) (hk : m.Up b k) (hhash : l.hash = k.hash)
    (hkey : l.sharedSessionKey = k.sharedSessionKey) (hcb : k.onPacket = some cb)
    (hkeyed : k.Keyed) (hlen : k.hash.length = 16) (hne : pt ≠ []) :
    ∃ m', Runs P (Op.Spares P b k.hash) m m' ∧ m'.Up b k ∧
      m'.log = .linkPacket cb pt b :: .rx f none :: m.log := by
  obtain ⟨c,rfl,hopens⟩ := h
  rw [hhash]
  obtain ⟨packet,hunpack,hcar⟩ := unpack_linkFrame (P := P) hlen (.same _)
  have hctx : Context.none ≠ Context.request := by decide
  have hinbound := hk.inbound hlen (hopens k hkeyed hkey.symm) hne hctx hcb (.same _) quiet none
  refine ⟨_,.step (o := .inbound _ none) (.refl m) (quiet_runs P _) ?_ hinbound,
    ⟨hk.link,hk.active,hk.registered,hk.notLocal⟩,rfl⟩
  intro packet' hp ht
  cases hunpack.symm.trans hp
  rw [hcar.packetType.trans (Packet.packFlags_packetType _ _)] at ht
  cases ht

theorem link_hears_narrow : ∃ (m m' : Node) (k : Link) (new : List Event),
    m'.log = new ++ m.log ∧ new.filterMap (Event.handed 0 8) = [[1,2,3]] ∧
    new.filterMap (Event.handed 0 8) = new.filterMap (Event.arrival Sample.platform k) := by
  obtain ⟨n,m,l,k,hn,hm,hl,hk,hhash,hkey,hcb,-,-,hsole⟩ := narrow_ends
  obtain ⟨f,-,hf⟩ := (hn.linksSound.keyed hl.link hl.active).frame? Sample.cbcInverts hl.link
    hl.active [1,2,3]
  obtain ⟨m',hrun,-,hlog⟩ := hf.arrives hk hhash hkey hcb (hm.linksSound.keyed hk.link hk.active)
    (hm.linksSound.hash hk.link) (List.cons_ne_nil _ _)
  obtain ⟨-,new,hlog',hheard⟩ := link_hears hm hk hcb hsole hrun
  have hnew : [Event.linkPacket 8 [1,2,3] 0,.rx f none] = new :=
    List.append_cancel_right (hlog.symm.trans hlog')
  subst hnew
  exact ⟨m,m',k,_,hlog',rfl,hheard⟩

theorem resource_arrives_narrow : ∃ (n n' m' : Node) (first second : Bytes) (new : List Event),
    (∃ res, Resource.send Sample.platform quiet 0 [1,2,3] n = .ok (res,n')) ∧
    n'.log = .sendOutgoing 0 second (.link 0) :: .sendOutgoing 0 first (.link 0) :: n.log ∧
    new.reverse.filterMap Event.raw? = [first,second,second] ∧ new <+: m'.log ∧
    let x := (Resource.receive (some 1) none).feed (new.reverse.filterMap (Event.handed 0 8))
    x.1.status = .complete ∧ Resource.completions x.2 = [[1,2,3]] := by
  obtain ⟨n,m,l,k,hn,hm,hl,hk,hhash,hkey,hcb,hmtu,hwired,hsole⟩ := narrow_ends
  obtain ⟨res,n',first,rest,hsend,hsent,htransmits,harrives⟩ := resource_arrives Sample.cbcInverts
    hn hm hl hk hhash hkey hcb hsole (quiet_runs Sample.platform fun _ _ => True)
    (show [1,2,3].length < 2^32 by decide)
  have hframes := Resource.sentFrames_forall₂ (P := Sample.platform) Sample.cbcInverts
    hn.linksSound hl.link hl.active
    (Env.Wellbehaved.linksLater (quiet_runs Sample.platform fun _ _ => True)) [1,2,3]
  generalize (n.rng.random idBytes).1 = id at hframes harrives
  rw [hsent,hmtu,Resource.chunksOf_eq] at hframes
  obtain ⟨hfirst,hrest⟩ := List.forall₂_cons.mp hframes
  obtain ⟨second,rest,hsecond,hnil,rfl⟩ := List.forall₂_cons_right_iff.mp hrest
  cases List.forall₂_nil_right_iff.mp hnil
  have hkeyed := hm.linksSound.keyed hk.link hk.active
  have hlen := hm.linksSound.hash hk.link
  have hne (i : Nat) := Resource.chunkAt_ne_nil id 102 [1,2,3] i
  obtain ⟨m₁,hrun₁,hk₁,hlog₁⟩ := hfirst.arrives hk hhash hkey hcb hkeyed hlen (hne 0)
  obtain ⟨m₂,hrun₂,hk₂,hlog₂⟩ := hsecond.arrives hk₁ hhash hkey hcb hkeyed hlen (hne 1)
  obtain ⟨m₃,hrun₃,-,hlog₃⟩ := hsecond.arrives hk₂ hhash hkey hcb hkeyed hlen (hne 1)
  let heard (i : Nat) : Event := .linkPacket 8 (Resource.chunkAt id 102 [1,2,3] i) 0
  let new : List Event := [heard 1,.rx second none,heard 1,.rx second none,heard 0,.rx first none]
  have hlog : m₃.log = new ++ m.log := by
    rw [hlog₃,hlog₂,hlog₁]
    rfl
  have hout : n'.log =
      .sendOutgoing 0 second (.link 0) :: .sendOutgoing 0 first (.link 0) :: n.log := by
    cases htransmits with
    | cons r hfirst htransmits =>
      cases htransmits with
      | cons r' hsecond hnil =>
        cases hnil
        cases hfirst.2 fun _ _ => rfl
        rw [hsecond.2 fun _ _ => rfl]
        show (n.interfaces.map _).reverse ++ ((n.interfaces.map _).reverse ++ n.log) = _
        rw [hwired]
        rfl
  refine ⟨n,n',m₃,first,second,new,⟨res,hsend⟩,hout,rfl,⟨m.log,hlog.symm⟩,
    harrives m₃ new ((hrun₁.trans hrun₂).trans hrun₃) hlog ?_ 1 none⟩
  refine ⟨⟨[],first,[second,second],rfl,by simp,.same first⟩,?_,?_⟩
  · intro f hf
    exact ⟨f,List.mem_cons_of_mem first (List.mem_cons.mpr (.inl (List.mem_singleton.mp hf))),
      .same f⟩
  · intro raw hraw pt _
    have hmem : raw ∈ [first,second,second] := hraw
    exact .inl ⟨raw,by simpa using hmem,.same raw⟩

end RNS
