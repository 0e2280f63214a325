import RTReticulum.Handshake
import RTReticulum.Relays

/-! An initiator and a responder over a network that drops, delays, reorders and copies
frames: when the two ends of a link hold one session. -/
set_option autoImplicit false

namespace RNS

def Apart (raw : Bytes) : Prop := frameType raw = .data ∨ frameType raw = .announce

theorem announceFrame_apart {P : Platform} {d : Destination} {app raw : Bytes} {r r' : Rng}
    (h : announceFrame P d app r = .ok (raw,r')) : Apart raw := by
  obtain ⟨data,rfl⟩ := announceFrame_eq h
  exact .inr (frameType_frame _ _ _ _ _ _)

def Event.frame? : Event → Option Bytes
  | .sendOutgoing _ raw _ => some raw
  | _ => none

theorem Event.Plain.frame? {e : Event} (he : e.Plain) : e.frame? = none := by
  cases e <;> first | exact he.elim | rfl

theorem Event.Delivers.frame? {e : Event} {a : Nat} (he : e.Delivers a) : e.frame? = none := by
  cases e <;> first | exact he.elim | rfl

namespace Node

def sent (n : Node) : List Bytes := n.log.filterMap Event.frame?

theorem mem_sent_note {e : Event} {n : Node} {raw : Bytes} :
    raw ∈ (n.note e).sent ↔ e.frame? = some raw ∨ raw ∈ n.sent := by
  cases he : e.frame? <;> simp [sent,he,eq_comm]

theorem sent_eq {n m : Node} (h : m.log = n.log) : m.sent = n.sent := by rw [sent,h]; rfl

structure Apart (o : Op) (n m : Node) : Prop where
  link? : ∀ a, m.link? a = n.link? a
  links : ∀ h, (n.links.lookup h).isSome → (m.links.lookup h).isSome
  entries : ∀ h a, m.links.lookup h = some a →
    n.links.lookup h = some a ∨ ∃ l, n.link? a = some l ∧ l.hash = h
  handler : m.onLinkRequest = n.onLinkRequest ∨ o = .setLinkRequestHandler m.onLinkRequest
  sent : ∀ raw ∈ m.sent, raw ∈ n.sent ∨ RNS.Apart raw

theorem SameCore.apart {o : Op} {n m : Node} (h : n.SameCore o m) : n.Apart o m :=
  ⟨h.link?,h.links,h.entries,h.handler,fun raw hr => .inl (by rwa [← sent_eq h.log])⟩

theorem apart_of_fields {o : Op} {n m : Node} (hheap : m.linkHeap = n.linkHeap)
    (hlinks : m.links = n.links) (hhandler : m.onLinkRequest = n.onLinkRequest)
    (hlog : m.log = n.log) : n.Apart o m :=
  ⟨fun a => by rw [link?,hheap]; rfl,fun h => by rw [hlinks]; exact id,
    fun h a hs => .inl (by rwa [← hlinks]),.inl hhandler,
    fun raw hr => .inl (by rwa [← sent_eq hlog])⟩

theorem apart_note {o : Op} {n : Node} {e : Event}
    (he : ∀ raw, e.frame? = some raw → RNS.Apart raw) : n.Apart o (n.note e) :=
  ⟨fun _ => rfl,fun _ => id,fun _ _ => .inl,.inl rfl,fun raw hr =>
    (mem_sent_note.mp hr).elim (fun h => .inr (he raw h)) .inl⟩

theorem apart_quiet {o : Op} {n : Node} {e : Event} (he : e.frame? = none) :
    n.Apart o (n.note e) := by
  refine apart_note fun raw h => ?_
  rw [he] at h
  cases h

theorem apart_frame {o : Op} {n : Node} {i : Nat} {raw : Bytes} {origin : Origin}
    (h : RNS.Apart raw) : n.Apart o (n.note (.sendOutgoing i raw origin)) := by
  refine apart_note fun raw' heq => ?_
  cases heq
  exact h

theorem Apart.trans {o : Op} {n m k : Node} (h : n.Apart o m) (h' : m.Apart o k) :
    n.Apart o k where
  link? a := (h'.link? a).trans (h.link? a)
  links x hx := h'.links x (h.links x hx)
  entries x a hx := by
    rcases h'.entries x a hx with hx | ⟨l,hl,rfl⟩
    · exact h.entries x a hx
    · exact .inr ⟨l,(h.link? a).symm.trans hl,rfl⟩
  handler := by
    rcases h'.handler with h₂ | h₂
    · rw [h₂]; exact h.handler
    · exact .inr h₂
  sent raw hr := (h'.sent raw hr).elim (h.sent raw) .inr

structure Registered (n : Node) : Prop where
  entry : ∀ {a l}, n.link? a = some l → n.links.lookup l.hash = some a
  table : ∀ {h a}, n.links.lookup h = some a → ∃ l, n.link? a = some l ∧ l.hash = h

namespace Registered
variable {n m : Node}

theorem boot (r : Rng) : (Node.boot r).Registered where
  entry := by rintro a l ⟨⟩
  table := fun h => nomatch (Finmap.lookup_empty _).symm.trans h

theorem unique (h : n.Registered) {a b : Nat} {l k : Link} (hl : n.link? a = some l)
    (hk : n.link? b = some k) (heq : l.hash = k.hash) : a = b := by
  have ha := h.entry hl
  rw [heq] at ha
  exact Option.some.inj (ha.symm.trans (h.entry hk))

theorem apart {o : Op} (h : n.Registered) (ha : n.Apart o m) : m.Registered where
  entry := fun {a l} hl => by
    rw [ha.link?] at hl
    have hsome := ha.links l.hash (by rw [h.entry hl]; rfl)
    obtain ⟨b,hb⟩ := Option.isSome_iff_exists.mp hsome
    rw [hb]
    rcases ha.entries l.hash b hb with hb | ⟨k,hk,heq⟩
    · exact hb.symm.trans (h.entry hl)
    · rw [h.unique hl hk heq.symm]
  table := fun {x a} hx => by
    rw [ha.link?]
    exact (ha.entries x a hx).elim h.table id

theorem setLink (h : n.Registered) {a : Nat} {l l' : Link} (hl : n.link? a = some l)
    (heq : l'.hash = l.hash) : (n.setLink a l').Registered where
  entry := fun {b k} hk => by
    rw [link?_setLink hl] at hk
    split at hk
    · subst b
      cases hk
      rw [heq]
      exact h.entry hl
    · exact h.entry hk
  table := table_setLink hl heq h.table

theorem made (h : n.Registered) {l : Link} (r : Rng) (hnew : n.links.lookup l.hash = none) :
    ((n.newLink l r).registerLink n.linkHeap.length).Registered := by
  have hl : (n.newLink l r).link? n.linkHeap.length = some l := by simp [link?_newLink]
  have htable : ((n.newLink l r).registerLink n.linkHeap.length).links =
      n.links.insert l.hash n.linkHeap.length := by simp only [registerLink,hl]; rfl
  have hlink : ∀ b, ((n.newLink l r).registerLink n.linkHeap.length).link? b =
      if b = n.linkHeap.length then some l else n.link? b := fun b => by
    rw [link?_registerLink,link?_newLink]
  refine ⟨fun {b k} hk => ?_,fun {x b} hx => ?_⟩
  · rw [htable]
    rw [hlink] at hk
    split at hk
    · subst b
      cases hk
      exact Finmap.lookup_insert _
    · rw [Finmap.lookup_insert_of_ne _ fun heq => ?_,h.entry hk]
      rw [← heq,h.entry hk] at hnew
      cases hnew
  · rw [htable] at hx
    rw [hlink]
    by_cases hxl : x = l.hash
    · subst hxl
      rw [Finmap.lookup_insert] at hx
      cases hx
      exact ⟨l,if_pos rfl,rfl⟩
    · rw [Finmap.lookup_insert_of_ne _ hxl] at hx
      obtain ⟨k,hk,rfl⟩ := h.table hx
      rw [if_neg (Nat.ne_of_lt (link?_lt hk))]
      exact ⟨k,hk,rfl⟩

end Registered
end Node

inductive Party where
  | initiator
  | responder
  deriving DecidableEq

/-- What the two parties do: no frames or link tables made by hand, an initiator that
answers no requests and a responder that makes none. -/
def Op.plays (p : Party) : Op → Bool
  | .broadcast .. | .deregisterLink _ | .reset | .validateRequest .. => false
  | .onProof .. => p = .responder
  | .setLinkRequestHandler h => p = .responder ∨ h ≠ some .validateRequest
  | .request d .. => p = .initiator ∧ d.hash.length = 16
  | _ => true

/-- No link is registered under an id that the table already has. -/
def Op.fresh (P : Platform) (n : Node) : Op → Bool
  | .request d oe op mtu =>
    match Link.request P d oe op mtu n.rng with
    | .ok ((l,_),_) => (n.links.lookup l.hash).isNone
    | .error _ => true
  | .inbound raw _ =>
    match Packet.unpack P raw with
    | none => true
    | some packet =>
      packet.packetType ≠ .linkRequest ∨
        (n.destinations.lookup packet.destinationHash).isNone ∨
        n.onLinkRequest ≠ some .validateRequest ∨
        (packet.data.length ≠ 64 ∧ packet.data.length ≠ 67) ∨
        (n.links.lookup (Link.linkIdFromLrPacket P packet packet.data.length)).isNone
  | _ => true

/-- Frames that a party transmitted, any number of times and in any order, with headers that
relays may have changed. `n` is where the party that receives has come to. -/
def OnAir (t : Party → Node) (n : Node) (raw : Bytes) : Prop :=
  ∃ sent, (sent ∈ n.sent ∨ ∃ p, sent ∈ (t p).sent) ∧ Packet.Rewritten sent raw

def Plays (p : Party) (t : Party → Node) (o : Op) (n : Node) : Prop :=
  o.plays p = true ∧ ∀ raw iface, o = .inbound raw iface → OnAir t n raw

section
variable {P : Platform}

theorem Heard.apart {o : Op} {raw : Bytes} {packet : Packet} {via : Option Nat} {s n m : Node}
    (hp : Packet.unpack P raw = some packet) (ht : packet.packetType = .announce)
    (h : Heard P packet via s n m) : n.Apart o m := by
  cases h with
  | heard _ | believed _ _ => exact Node.apart_of_fields rfl rfl rfl rfl
  | announced _ | relayed _ => exact Node.apart_quiet rfl
  | relaySent _ =>
    refine Node.apart_frame (.inr ?_)
    rw [frameType_withHops,(Packet.unpack_some hp).1,← frameType_of_unpack hp,ht]

structure Link.Asked (P : Platform) (l : Link) : Prop where
  initiator : l.initiator = true
  hash : l.hash = l.requestId P
  destination : l.destination.hash.length = 16
  mtu : l.status = .handshake → l.mtu = if l.localMtu ≠ 0 then l.localMtu else 500

/-- A node that only asks for links: the requests it sent are those of its links. -/
structure Initiator (P : Platform) (n : Node) : Prop where
  registered : n.Registered
  asked : ∀ {a l}, n.link? a = some l → l.Asked P
  handler : n.onLinkRequest ≠ some .validateRequest
  sent : ∀ raw ∈ n.sent, Apart raw ∨ ∃ a l, n.link? a = some l ∧ raw = l.requestFrame P

def Node.SendsProof (P : Platform) (n i : Node) (raw : Bytes) : Prop :=
  ∃ b k a l id key, n.link? b = some k ∧ i.link? a = some l ∧ k.Answers P l ∧
    raw = linkFrame .proof k.hash Context.lrproof (k.proofData P id key (l.localMtu ≠ 0))

structure Responder (P : Platform) (i n : Node) : Prop where
  registered : n.Registered
  active : ∀ {b k}, n.link? b = some k → k.status = .active ∧ k.initiator = false
  sent : ∀ raw ∈ n.sent, Apart raw ∨ n.SendsProof P i raw

/-- Every ACTIVE link of `i` agrees with a link of `n`. -/
def Settled (i n : Node) : Prop :=
  ∀ a l, i.link? a = some l → l.status = .active → ∃ b k, n.link? b = some k ∧ l.Agrees k

namespace Initiator
variable {n m : Node}

theorem boot (r : Rng) : Initiator P (Node.boot r) where
  registered := .boot r
  asked := by rintro a l ⟨⟩
  handler := by rintro ⟨⟩
  sent := by rintro raw ⟨⟩

theorem apart {o : Op} (h : Initiator P n) (ha : n.Apart o m)
    (ho : o ≠ .setLinkRequestHandler (some .validateRequest)) : Initiator P m where
  registered := h.registered.apart ha
  asked := fun {a l} hl => h.asked ((ha.link? a).symm.trans hl)
  handler := by
    rcases ha.handler with hh | hh
    · rw [hh]; exact h.handler
    · intro heq
      exact ho (heq ▸ hh)
  sent raw hr := by
    rcases ha.sent raw hr with hr | hr
    · rcases h.sent raw hr with hr | ⟨a,l,hl,hraw⟩
      · exact .inl hr
      · exact .inr ⟨a,l,(ha.link? a).trans hl,hraw⟩
    · exact .inl hr

theorem requestSent (h : Initiator P n) {a i : Nat} {l : Link} (hl : n.link? a = some l)
    (origin : Origin) : Initiator P (n.note (.sendOutgoing i (l.requestFrame P) origin)) where
  registered := ⟨h.registered.entry,h.registered.table⟩
  asked := h.asked
  handler := h.handler
  sent raw hr := by
    rcases Node.mem_sent_note.mp hr with hr | hr
    · cases hr
      exact .inr ⟨a,l,hl,rfl⟩
    · exact h.sent raw hr

theorem setLink {a : Nat} {l l' : Link} (h : Initiator P n) (hl : n.link? a = some l)
    (hlater : l.Later l') (hs : l'.status = .handshake → l'.mtu = l.mtu ∧ l.status = .handshake) :
    Initiator P (n.setLink a l') := by
  have hask := h.asked hl
  have hasked : l'.Asked P := by
    refine ⟨hlater.initiator.trans hask.initiator,?_,?_,fun hl' => ?_⟩
    · rw [hlater.hash,hask.hash]
      simp only [Link.requestId,Link.ephX25519Pub,Link.ephEd25519Pub,hlater.destination,
        hlater.ephX25519Prv,hlater.ephEd25519Prv]
    · rw [hlater.destination]; exact hask.destination
    · obtain ⟨hmtu,hl⟩ := hs hl'
      rw [hmtu,hlater.localMtu]; exact hask.mtu hl
  refine ⟨h.registered.setLink hl hlater.hash,fun {b k} hk => ?_,h.handler,fun raw hr => ?_⟩
  · rw [Node.link?_setLink hl] at hk
    split at hk
    · cases hk
      exact hasked
    · exact h.asked hk
  · rcases h.sent raw hr with hr | ⟨b,k,hk,hraw⟩
    · exact .inl hr
    · obtain ⟨k',hk',hlater'⟩ := Node.LinksLater.setLink hl hlater b k hk
      exact .inr ⟨b,k',hk',by rw [hraw,hlater'.requestFrame]⟩

theorem made {l : Link} (h : Initiator P n) (r : Rng) (hl : l.Asked P)
    (hnew : n.links.lookup l.hash = none) :
    Initiator P ((n.newLink l r).registerLink n.linkHeap.length) where
  registered := h.registered.made r hnew
  asked := fun {b k} hk => by
    rw [Node.link?_registerLink,Node.link?_newLink] at hk
    split at hk
    · cases hk
      exact hl
    · exact h.asked hk
  handler := by
    rw [Node.registerLink_onLinkRequest]
    exact h.handler
  sent raw hr := by
    rw [Node.sent,Node.registerLink_log] at hr
    rcases h.sent raw hr with hr | ⟨b,k,hk,hraw⟩
    · exact .inl hr
    · refine .inr ⟨b,k,?_,hraw⟩
      rw [Node.link?_registerLink,Node.link?_newLink,if_neg (Nat.ne_of_lt (Node.link?_lt hk)),hk]

end Initiator

namespace Settled
variable {n m r : Node}

theorem same (h : Settled n r) (hlink : ∀ a, m.link? a = n.link? a) : Settled m r :=
  fun a l hl => h a l ((hlink a).symm.trans hl)

theorem setLink (h : Settled n r) {a : Nat} {l l' : Link} (hl : n.link? a = some l)
    (hl' : l'.status = .active → ∃ b k, r.link? b = some k ∧ l'.Agrees k) :
    Settled (n.setLink a l') r := by
  intro b k hk hs
  rw [Node.link?_setLink hl] at hk
  split at hk
  · cases hk
    exact hl' hs
  · exact h b k hk hs

theorem made (h : Settled n r) {l : Link} (rng : Rng) (hs : l.status ≠ .active) :
    Settled ((n.newLink l rng).registerLink n.linkHeap.length) r := by
  intro b k hk hk'
  rw [Node.link?_registerLink,Node.link?_newLink] at hk
  split at hk
  · cases hk
    exact absurd hk' hs
  · exact h b k hk hk'

theorem later (h : Settled n r) {r' : Node} (hr : ∀ {b k}, r.link? b = some k → k.status = .active)
    (hlater : r.LinksLater r') : Settled n r' := by
  intro a l hl hs
  obtain ⟨b,k,hk,hagrees⟩ := h a l hl hs
  obtain ⟨k',hk',hkl⟩ := hlater b k hk
  obtain ⟨-,hmtu,-,hkey,-⟩ := hkl.settled (by simp [hr hk])
  exact ⟨b,k',hk',hagrees.hash.trans hkl.hash.symm,hagrees.key.trans hkey.symm,
    hagrees.mtu.trans hmtu.symm⟩

end Settled

theorem Link.Answers.settled {k k' l : Link} (h : k.Answers P l) (hs : k.status ≠ .handshake)
    (hk : k.Later k') : k'.Answers P l := by
  obtain ⟨-,hmtu,-,hkey,-⟩ := hk.settled hs
  refine ⟨hk.hash.trans h.hash,?_,hmtu.trans h.mtu⟩
  rw [hkey,h.key,Link.sessionKey,Link.sessionKey,hk.ephX25519Prv,hk.hash]

theorem Node.SendsProof.later {i i' n n' : Node} {raw : Bytes} (h : n.SendsProof P i raw)
    (hi : i.LinksLater i') (hn : n.LinksLater n')
    (hactive : ∀ {b k}, n.link? b = some k → k.status = .active) : n'.SendsProof P i' raw := by
  obtain ⟨b,k,a,l,id,key,hk,hl,hans,rfl⟩ := h
  obtain ⟨k',hk',hklater⟩ := hn b k hk
  obtain ⟨l',hl',hllater⟩ := hi a l hl
  have hs : k.status ≠ .handshake := by simp [hactive hk]
  exact ⟨b,k',a,l',id,key,hk',hl',(hans.settled hs hklater).later hllater,by
    rw [hklater.hash,hklater.proofData hs,hllater.localMtu]⟩

theorem Responder.asked_later {i i' n : Node} (h : Responder P i n) (hi : i.LinksLater i') :
    Responder P i' n where
  registered := h.registered
  active := h.active
  sent raw hr := (h.sent raw hr).imp_right fun hp => hp.later hi (.refl n) fun hk => (h.active hk).1

theorem Apart.not_proof {raw : Bytes} (h : Apart raw) : frameType raw ≠ .proof := by
  rcases h with h | h <;> simp [h]

theorem Apart.not_request {raw : Bytes} (h : Apart raw) : frameType raw ≠ .linkRequest := by
  rcases h with h | h <;> simp [h]

section
variable {t : Party → Node} {n : Node} {raw : Bytes} (hi : Initiator P (t .initiator))
  (hr : Responder P (t .initiator) (t .responder)) (h : OnAir t n raw)
include hi hr h

theorem OnAir.proof (hn : Initiator P n) (ht : frameType raw = .proof) :
    ∃ sent, (t .responder).SendsProof P (t .initiator) sent ∧ Packet.Rewritten sent raw := by
  obtain ⟨sent,hsent,hraw⟩ := h
  rw [frameType_rewritten hraw] at ht
  have asked : ∀ {i : Node}, Initiator P i → sent ∉ i.sent := by
    intro i hi hs
    rcases hi.sent sent hs with ha | ⟨a,l,-,rfl⟩
    · exact ha.not_proof ht
    · rw [frameType_requestFrame] at ht
      cases ht
  rcases hsent with hs | ⟨p,hs⟩
  · exact absurd hs (asked hn)
  · cases p with
    | initiator => exact absurd hs (asked hi)
    | responder => exact ⟨sent,(hr.sent sent hs).resolve_left fun ha => ha.not_proof ht,hraw⟩

theorem OnAir.request (hn : Responder P (t .initiator) n) (ht : frameType raw = .linkRequest) :
    ∃ a l, (t .initiator).link? a = some l ∧ Packet.Rewritten (l.requestFrame P) raw := by
  obtain ⟨sent,hsent,hraw⟩ := h
  rw [frameType_rewritten hraw] at ht
  have answered : ∀ {r : Node}, Responder P (t .initiator) r → sent ∉ r.sent := by
    intro r hr hs
    rcases hr.sent sent hs with ha | ⟨_,_,_,_,_,_,-,-,-,rfl⟩
    · exact ha.not_request ht
    · rw [frameType_linkFrame] at ht
      cases ht
  rcases hsent with hs | ⟨p,hs⟩
  · exact absurd hs (answered hn)
  · cases p with
    | initiator =>
      obtain ⟨a,l,hl,rfl⟩ := (hi.sent sent hs).resolve_left fun ha => ha.not_request ht
      exact ⟨a,l,hl,hraw⟩
    | responder => exact absurd hs (answered hr)

end

structure Asking (P : Platform) (i r n : Node) : Prop where
  initiator : Initiator P n
  later : i.LinksLater n
  settled : Settled n r

theorem Asking.apart {i r n m : Node} {o : Op} (h : Asking P i r n) (ha : n.Apart o m)
    (ho : o.plays .initiator = true) : Asking P i r m where
  initiator := h.initiator.apart ha (by rintro rfl; simp [Op.plays] at ho)
  later := h.later.trans (.of_link? ha.link?)
  settled := h.settled.same ha.link?

theorem Asking.setLink {i r n : Node} {a : Nat} {l l' : Link} (h : Asking P i r n)
    (hl : n.link? a = some l) (hlater : l.Later l')
    (hs : l'.status = .handshake → l'.mtu = l.mtu ∧ l.status = .handshake)
    (hl' : l'.status = .active → ∃ b k, r.link? b = some k ∧ l'.Agrees k) :
    Asking P i r (n.setLink a l') :=
  ⟨h.initiator.setLink hl hlater hs,h.later.trans (.setLink hl hlater),h.settled.setLink hl hl'⟩

section
variable {t : Party → Node} {o : Op} {u n m : Node}

theorem Asking.requested (h : Asking P (t .initiator) (t .responder) u)
    {d : Destination} {oe op : Option Nat} {mtu : UInt32} {l : Link} {rng : Rng} {raw : Bytes}
    (hg : (Op.request d oe op mtu).plays .initiator = true)
    (hf : (Op.request d oe op mtu).fresh P u = true)
    (hl : Link.request P d oe op mtu u.rng = .ok ((l,raw),rng)) (hreq : l.Requested P d oe op mtu) :
    Asking P (t .initiator) (t .responder)
      ((u.newLink l rng).registerLink u.linkHeap.length) := by
  have hasked : l.Asked P := by
    refine ⟨hreq.initiator,hreq.hash,?_,fun _ => ?_⟩
    · rw [hreq.destination]
      simpa [Op.plays] using hg
    · rw [hreq.mtu,hreq.localMtu]
  have hnew : u.links.lookup l.hash = none := by simpa [Op.fresh,hl] using hf
  refine ⟨h.initiator.made rng hasked hnew,h.later.trans ?_,
    h.settled.made rng (by simp [hreq.status])⟩
  exact (Node.LinksLater.newLink u l rng).trans (.of_link? fun _ => by simp)

theorem Asking.proved (hx : P.ExchangeCommutes) (hi : Initiator P (t .initiator))
    (hr : Responder P (t .initiator) (t .responder)) {raw : Bytes} {a : Nat} {l : Link}
    {packet : Packet} (hair : OnAir t u raw)
    (h : Asking P (t .initiator) (t .responder) u) (hp : Packet.unpack P raw = some packet)
    (ht : packet.packetType = .proof) (ha : u.links.lookup packet.destinationHash = some a)
    (hl : u.link? a = some l) (hs : l.status = .handshake) :
    ∃ b k, (t .responder).link? b = some k ∧
      ({ l.proving P packet.data with status := .active } : Link).Agrees k := by
  obtain ⟨_,⟨b,k,a',l',id,key,hk,hl',hans,rfl⟩,hraw⟩ :=
    hair.proof hi hr h.initiator ((frameType_of_unpack hp).symm.trans ht)
  have hlen : k.hash.length = 16 := by
    rw [hans.hash,(hi.asked hl').hash]
    exact truncatedHash_length _ _
  obtain ⟨packet',hp',hcar⟩ := unpack_linkFrame (P := P) hlen hraw
  cases hp.symm.trans hp'
  -- The id of the proof is that of one link only.
  obtain ⟨l₁,hl₁,hhash⟩ := h.initiator.registered.table ha
  cases hl.symm.trans hl₁
  obtain ⟨l₂,hl₂,hlater⟩ := h.later a' l' hl'
  have haa : a = a' := h.initiator.registered.unique hl hl₂ (by
    rw [hhash,hcar.destinationHash,hans.hash,hlater.hash])
  subst haa
  cases hl.symm.trans hl₂
  refine ⟨b,k,hk,?_⟩
  rw [hcar.data,← hlater.localMtu]
  exact (hans.later hlater).agrees hx ((h.initiator.asked hl).mtu hs) id key

theorem Update.asking (hx : P.ExchangeCommutes) (hi : Initiator P (t .initiator))
    (hr : Responder P (t .initiator) (t .responder)) (hg : Plays .initiator t o u)
    (hf : o.fresh P u = true) (hu : Asking P (t .initiator) (t .responder) u)
    (h : Update P o u n m) (hn : Asking P (t .initiator) (t .responder) n) :
    Asking P (t .initiator) (t .responder) m := by
  have apart : n.Apart o m → Asking P (t .initiator) (t .responder) m := fun ha => hn.apart ha hg.1
  have starts : ∀ {n : Node} {a : Nat}, u.Starts n → n.link? a = u.link? a := by
    rintro n a (rfl | ⟨raw,iface,rfl⟩) <;> rfl
  cases h with
  | tables h => exact apart h.apart
  | unlinked ho => subst ho; cases hg.1
  | joined _ | left _ | cleared _ => exact apart (Node.apart_of_fields rfl rfl rfl rfl)
  | @plain _ e he => exact apart (Node.apart_quiet he.frame?)
  | received _ _ => exact apart (Node.apart_quiet rfl)
  | sent ho =>
    refine apart (Node.apart_frame ?_)
    rcases ho with ⟨skip,rfl⟩ | ⟨_,_,_,_,_,-,hframe⟩
    · cases hg.1
    · exact announceFrame_apart hframe
  | requested ho hl hreq =>
    subst ho
    exact hn.requested hg.1 hf hl hreq
  | requestSent hl _ =>
    exact ⟨hn.initiator.requestSent hl _,hn.later.trans (.of_link? fun _ => rfl),
      hn.settled.same fun _ => rfl⟩
  | validated _ ho _ _ | proofSent _ ho _ _ =>
    obtain rfl | ⟨raw,iface,rfl,-,-,-,-,hh⟩ := ho
    · cases hg.1
    · exact absurd hh hu.initiator.handler
  | @proved _ a l id packet hstart ho hl hs hinit _ _ _ =>
    obtain rfl | ⟨raw,iface,rfl,hp,ht,-,ha⟩ := ho
    · cases hg.1
    have hagrees := hu.proved hx hi hr (hg.2 raw iface rfl) hp ht ha
      ((starts hstart).symm.trans hl) hs
    have hlater : l.Later { l.proving P packet.data with status := .active } :=
      ⟨rfl,rfl,rfl,rfl,rfl,rfl,.inr ⟨hs,hinit,.inl rfl⟩⟩
    have hset := (hn.apart (m := n.note (.onProof a packet))
      (Node.apart_quiet rfl) hg.1).setLink hl hlater (by rintro ⟨⟩) fun _ => hagrees
    unfold Node.noteEstablished
    split
    · exact hset
    · exact hset.apart (Node.apart_quiet rfl) hg.1
  | @refused _ a l id packet _ hl hs hinit _ =>
    exact (hn.apart (m := n.note (.onProof a packet))
      (Node.apart_quiet rfl) hg.1).setLink hl
      ⟨rfl,rfl,rfl,rfl,rfl,rfl,.inr ⟨hs,hinit,.inr rfl⟩⟩ (by rintro ⟨⟩) (by rintro ⟨⟩)
  | linkSent _ _ =>
    exact apart (Node.apart_frame (.inl (frameType_linkFrame _ _ _ _)))
  | @delivered _ _ _ _ e _ _ _ he _ =>
    exact apart (Node.apart_quiet he.frame?)
  | @callbacks _ a l oe op hl =>
    refine hn.setLink hl ⟨rfl,rfl,rfl,rfl,rfl,rfl,.inl ⟨rfl,rfl,rfl,rfl,rfl⟩⟩ (fun hs => ⟨rfl,hs⟩)
      fun hs => ?_
    obtain ⟨b,k,hk,hagrees⟩ := hn.settled a l hl hs
    exact ⟨b,k,hk,hagrees.hash,hagrees.key,hagrees.mtu⟩
  | forwarded _ hfwd =>
    exact hn.apart ((Node.apart_quiet rfl).trans (Node.apart_frame (.inl hfwd.frameType))) hg.1

structure Answering (P : Platform) (i r n : Node) : Prop where
  responder : Responder P i n
  later : r.LinksLater n

theorem Answering.grow {i r : Node} (h : Answering P i r n) (hlinks : n.LinksLater m)
    (hreg : m.Registered) (hactive : ∀ {b k}, m.link? b = some k →
      k.status = .active ∧ k.initiator = false)
    (hsent : ∀ raw ∈ m.sent, raw ∈ n.sent ∨ Apart raw ∨ m.SendsProof P i raw) :
    Answering P i r m := by
  refine ⟨⟨hreg,hactive,fun raw hr => ?_⟩,h.later.trans hlinks⟩
  rcases hsent raw hr with hr | hr
  · exact (h.responder.sent raw hr).imp_right fun hp =>
      hp.later (.refl i) hlinks fun hk => (h.responder.active hk).1
  · exact hr

theorem Answering.apart {i r : Node} (h : Answering P i r n) (ha : n.Apart o m) :
    Answering P i r m :=
  h.grow (.of_link? ha.link?) (h.responder.registered.apart ha)
    (fun hk => h.responder.active ((ha.link? _).symm.trans hk))
    fun raw hr => (ha.sent raw hr).imp_right .inl

theorem Answering.request (hi : Initiator P (t .initiator))
    (hr : Responder P (t .initiator) (t .responder)) (hg : Plays .responder t o u)
    (hu : Responder P (t .initiator) u) {owner : Destination} {data : Bytes} {packet : Packet}
    (ho : o.Requests P u owner data packet) : ∃ raw iface a l, o = .inbound raw iface ∧
      Packet.unpack P raw = some packet ∧ packet.packetType = .linkRequest ∧ data = packet.data ∧
      u.destinations.lookup packet.destinationHash = some owner ∧
      u.onLinkRequest = some .validateRequest ∧ (t .initiator).link? a = some l ∧
      l.Asked P ∧ packet.Carries
        (Packet.packFlags .header1 .unset .broadcast l.destination.type .linkRequest)
        l.destination.hash Context.none (l.requestData P) := by
  obtain rfl | ⟨raw,iface,rfl,hp,ht,hdata,hd,hh⟩ := ho
  · cases hg.1
  obtain ⟨a,l,hl,hraw⟩ :=
    (hg.2 raw iface rfl).request hi hr hu ((frameType_of_unpack hp).symm.trans ht)
  obtain ⟨packet',hp',hcar⟩ := unpack_requestFrame (hi.asked hl).destination hraw
  cases hp.symm.trans hp'
  exact ⟨raw,iface,a,l,rfl,hp,ht,hdata,hd,hh,hl,hi.asked hl,hcar⟩

theorem Update.answering (hi : Initiator P (t .initiator))
    (hr : Responder P (t .initiator) (t .responder)) (hg : Plays .responder t o u)
    (hf : o.fresh P u = true) (hu : Answering P (t .initiator) (t .responder) u)
    (h : Update P o u n m) (hn : Answering P (t .initiator) (t .responder) n) :
    Answering P (t .initiator) (t .responder) m := by
  have later := h.linksLater
  cases h with
  | tables h => exact hn.apart h.apart
  | unlinked ho => subst ho; cases hg.1
  | joined _ | left _ | cleared _ =>
    exact hn.apart (o := o) (Node.apart_of_fields rfl rfl rfl rfl)
  | @plain _ e he =>
    exact hn.apart (o := o) (Node.apart_quiet he.frame?)
  | received _ _ => exact hn.apart (o := o) (Node.apart_quiet rfl)
  | sent ho =>
    refine hn.apart (o := o) (Node.apart_frame ?_)
    rcases ho with ⟨skip,rfl⟩ | ⟨_,_,_,_,_,-,hframe⟩
    · cases hg.1
    · exact announceFrame_apart hframe
  | requested ho _ _ => subst ho; simp [Plays,Op.plays] at hg
  | requestSent hl hinit | proved _ _ hl _ hinit _ _ _ | refused _ hl _ hinit _ =>
    rw [(hn.responder.active hl).2] at hinit
    cases hinit
  | @validated _ owner data packet l rng hstart ho hlen hv =>
    obtain ⟨raw,iface,a,l',rfl,hp,ht,rfl,hd,hh,hl',hasked,hcar⟩ :=
      Answering.request hi hr hg hu.responder ho
    have hnew : n.links.lookup l.hash = none := by
      have hlen' : ¬ (packet.data.length ≠ 64 ∧ packet.data.length ≠ 67) := by omega
      have hu' : u.links.lookup l.hash = none := by
        rw [hv.hash]
        simpa [Op.fresh,hp,ht,hd,hh,hlen'] using hf
      rcases hstart with rfl | ⟨_,_,rfl⟩ <;> exact hu'
    refine hn.grow later (hn.responder.registered.made rng hnew) (fun {b k} hk => ?_)
      fun raw hr => .inl ?_
    · rw [Node.link?_registerLink,Node.link?_newLink] at hk
      split at hk
      · cases hk
        exact ⟨hv.status,hv.initiator⟩
      · exact hn.responder.active hk
    · rwa [Node.sent,Node.registerLink_log] at hr
  | @proofSent _ b i l l₀ owner data packet id key hl ho hv hlater =>
    obtain ⟨raw,iface,a,l',rfl,-,-,rfl,-,-,hl',hasked,hcar⟩ :=
      Answering.request hi hr hg hu.responder ho
    have hans : l.Answers P l' :=
      (hv.answers hasked.hash hcar).settled (by simp [hv.status]) hlater
    refine hn.grow later ⟨hn.responder.registered.entry,hn.responder.registered.table⟩
      hn.responder.active fun raw hr => ?_
    rcases Node.mem_sent_note.mp hr with hr | hr
    · cases hr
      refine .inr (.inr ⟨b,l,a,l',id,key,hl,hl',hans,?_⟩)
      rw [hcar.data]
      simp only [l'.requestData_length_iff]
    · exact .inl hr
  | linkSent _ _ =>
    exact hn.apart (o := o) (Node.apart_frame (.inl (frameType_linkFrame _ _ _ _)))
  | @delivered _ _ _ _ e _ _ _ he _ =>
    exact hn.apart (o := o) (Node.apart_quiet he.frame?)
  | @callbacks _ a l oe op hl =>
    refine hn.grow later (hn.responder.registered.setLink hl rfl) (fun {b k} hk => ?_)
      fun raw hr => .inl hr
    rw [Node.link?_setLink hl] at hk
    split at hk
    · cases hk
      obtain ⟨hs,hinit⟩ := hn.responder.active hl
      exact ⟨hs,hinit⟩
    · exact hn.responder.active hk
  | forwarded _ hfwd =>
    exact hn.apart (o := o)
      ((Node.apart_quiet rfl).trans (Node.apart_frame (.inl hfwd.frameType)))

end

structure Agreement (P : Platform) (t : Party → Node) : Prop where
  initiator : Initiator P (t .initiator)
  responder : Responder P (t .initiator) (t .responder)
  settled : Settled (t .initiator) (t .responder)

theorem Agreement.boot (r : Party → Rng) : Agreement P fun p => Node.boot (r p) where
  initiator := .boot _
  responder := ⟨.boot _,by rintro b k ⟨⟩,by rintro raw ⟨⟩⟩
  settled := by rintro a l ⟨⟩

theorem Agreement.step (hx : P.ExchangeCommutes) {t : Party → Node} {p : Party} {u : Node}
    (h : Agreement P t) (hu : Runs P (fun o n => Plays p t o n ∧ o.fresh P n = true) (t p) u) :
    Agreement P (Function.update t p u) := by
  have reset : ∀ {n : Node}, ¬ (Plays p t .reset n ∧ Op.fresh P n .reset = true) :=
    fun h => nomatch h.1.1
  cases p with
  | initiator =>
    have hu : Asking P (t .initiator) (t .responder) u := by
      refine Runs.invariant (Asking P (t .initiator) (t .responder)) (fun _ hg => absurd hg reset)
        (fun hg hn => ?_) (fun hg hp ht hh hn => ?_)
        (fun hg ht hu => hu.asking hx h.initiator h.responder hg.1 hg.2 ht) hu
        ⟨h.initiator,.refl _,h.settled⟩
      · exact hn.apart (Node.apart_quiet rfl) hg.1.1
      · exact hn.apart (hh.apart hp ht) hg.1.1
    have hi : Function.update t .initiator u .initiator = u := Function.update_self _ _ _
    have hr : Function.update t .initiator u .responder = t .responder :=
      Function.update_of_ne (by decide) _ _
    exact ⟨by rw [hi]; exact hu.initiator,by
      rw [hi,hr]; exact h.responder.asked_later hu.later,by rw [hi,hr]; exact hu.settled⟩
  | responder =>
    have hu : Answering P (t .initiator) (t .responder) u := by
      refine Runs.invariant (Answering P (t .initiator) (t .responder))
        (fun _ hg => absurd hg reset) (fun {raw iface n} hg hn => ?_) (fun hg hp ht hh hn => ?_)
        (fun hg ht hu => hu.answering h.initiator h.responder hg.1 hg.2 ht) hu
        ⟨h.responder,.refl _⟩
      · exact hn.apart (o := .inbound raw iface) (Node.apart_quiet rfl)
      · exact hn.apart (o := .reset) (hh.apart hp ht)
    have hi : Function.update t .responder u .initiator = t .initiator :=
      Function.update_of_ne (by decide) _ _
    have hr : Function.update t .responder u .responder = u := Function.update_self _ _ _
    exact ⟨by rw [hi]; exact h.initiator,by rw [hi,hr]; exact hu.responder,by
      rw [hi,hr]; exact h.settled.later (fun hk => (h.responder.active hk).1) hu.later⟩

/-- Parties that play their parts, over any order, loss and repetition of frames: as long as
no link is registered under an id that the table has already, an ACTIVE link of the initiator
and the link that the responder has under its id hold one session. -/
theorem sessions_agree (hx : P.ExchangeCommutes) (r : Party → Rng) {t : Party → Node}
    (h : Interleaving.Run (exec P) (fun p t o n => Plays p t o n ∧ o.fresh P n = true)
      (fun p => Node.boot (r p)) t) {a b : Nat} {l k : Link}
    (hl : (t .initiator).link? a = some l) (hs : l.status = .active)
    (hb : (t .responder).links.lookup l.hash = some b) (hk : (t .responder).link? b = some k) :
    l.sharedSessionKey = k.sharedSessionKey ∧ l.mtu = k.mtu := by
  have hagree : Agreement P t :=
    Interleaving.Run.invariant (Agreement P) (fun ht hu => ht.step hx hu) h (.boot r)
  obtain ⟨b',k',hk',hagrees⟩ := hagree.settled a l hl hs
  have hentry := hagree.responder.registered.entry hk'
  rw [← hagrees.hash,hb] at hentry
  cases hentry
  cases hk.symm.trans hk'
  exact ⟨hagrees.key,hagrees.mtu⟩

end

def Op.hears (frames : List Bytes) : Op → Bool
  | .inbound raw _ => frames.contains raw
  | _ => true

theorem Op.hears_plays {p q : Party} {t : Party → Node} {o : Op} {n : Node}
    (hp : o.plays p = true) (ho : o.hears (t q).sent = true) : Plays p t o n := by
  refine ⟨hp,?_⟩
  rintro raw iface rfl
  exact ⟨raw,.inr ⟨q,List.contains_iff_mem.mp ho⟩,.same raw⟩

namespace Sample

def rngs : Party → Rng
  | .initiator => rng 2
  | .responder => rng 3

def hearing (p : Party) (frames : List Bytes) (o : Op) (n : Node) : Bool :=
  o.plays p && o.fresh platform n && o.hears frames

/-- A request and its proof; a second copy of the request would make another session. -/
theorem session : ∃ (t : Party → Node) (b : Nat) (l k : Link),
    Interleaving.Run (exec platform)
      (fun p t o n => Plays p t o n ∧ o.fresh platform n = true) (fun p => Node.boot (rngs p)) t ∧
    (t .initiator).link? 0 = some l ∧ l.status = .active ∧
    (t .responder).links.lookup l.hash = some b ∧ (t .responder).link? b = some k ∧
    endsIn platform (fun o _ => o.plays .responder && o.hears (t .initiator).sent)
      [.inbound (requestFrame 600) (some 0)] (t .responder) fun m =>
        (m.links.lookup l.hash).any fun b => (m.link? b).any fun k =>
          k.status = .active ∧ k.sharedSessionKey ≠ l.sharedSessionKey := by
  have plays : ∀ {p q : Party} {t : Party → Node} {n m : Node},
      Runs platform (fun o n => hearing p (t q).sent o n = true) n m →
      Runs platform (fun o n => Plays p t o n ∧ o.fresh platform n = true) n m := by
    intro p q t n m h
    refine h.mono fun o n ho => ?_
    simp only [hearing,Bool.and_eq_true] at ho
    exact ⟨Op.hears_plays ho.1.1 ho.2,ho.1.2⟩
  let t₀ : Party → Node := fun p => Node.boot (rngs p)
  obtain ⟨n₁,hn₁,hq⟩ := runs_of_endsIn platform (hearing .initiator (t₀ .responder).sent)
    [.registerInterface 0,.request destination none none 600] (t₀ .initiator)
    (fun n => endsIn platform (hearing .responder n.sent)
      (responder ++ [.inbound (requestFrame 600) (some 0)]) (t₀ .responder) fun m =>
        endsIn platform (hearing .initiator m.sent) [.inbound (proofFrame 600) (some 0)] n fun n =>
          (n.link? 0).any fun l => (m.links.lookup l.hash).any fun b => (m.link? b).any fun k =>
            l.status = .active ∧ endsIn platform
              (fun o _ => o.plays .responder && o.hears n.sent)
              [.inbound (requestFrame 600) (some 0)] m fun m =>
                (m.links.lookup l.hash).any fun b => (m.link? b).any fun k =>
                  k.status = .active ∧ k.sharedSessionKey ≠ l.sharedSessionKey)
    (by decide +kernel)
  obtain ⟨m,hm,hq⟩ := runs_of_endsIn _ _ _ _ _ hq
  obtain ⟨n₂,hn₂,hq⟩ := runs_of_endsIn _ _ _ _ _ hq
  obtain ⟨l,hl,hq⟩ := (Option.any_eq_true _ _).mp hq
  obtain ⟨b,hb,hq⟩ := (Option.any_eq_true _ _).mp hq
  obtain ⟨k,hk,hq⟩ := (Option.any_eq_true _ _).mp hq
  obtain ⟨hs,hq⟩ := of_decide_eq_true hq
  let t₁ := Function.update t₀ .initiator n₁
  let t₂ := Function.update t₁ .responder m
  have h₁ : Interleaving.Run (exec platform)
      (fun p t o n => Plays p t o n ∧ o.fresh platform n = true) t₀ t₁ :=
    .step (.refl t₀) (plays hn₁)
  have h₂ : Interleaving.Run (exec platform)
      (fun p t o n => Plays p t o n ∧ o.fresh platform n = true) t₀ t₂ :=
    h₁.step (plays (q := .initiator) hm)
  have h₃ := h₂.step (plays (p := .initiator) (q := .responder) hn₂)
  exact ⟨_,b,l,k,h₃,hl,hs,hb,hk,hq⟩

end Sample

theorem sessions_agree_sample : ∃ (t : Party → Node) (b : Nat) (l k : Link),
    (t .initiator).link? 0 = some l ∧ l.status = .active ∧
    (t .responder).links.lookup l.hash = some b ∧ (t .responder).link? b = some k ∧
    l.sharedSessionKey = k.sharedSessionKey ∧ l.mtu = k.mtu := by
  obtain ⟨t,b,l,k,ht,hl,hs,hb,hk,-⟩ := Sample.session
  exact ⟨t,b,l,k,hl,hs,hb,hk,
    sessions_agree Sample.exchangeCommutes Sample.rngs ht hl hs hb hk⟩

/-- A second copy of the request, after the link is up, replaces the session of the
responder. -/
theorem session_replaced : ∃ (t : Party → Node) (a b : Nat) (l k : Link),
    Interleaving.Run (exec Sample.platform) Plays (fun p => Node.boot (Sample.rngs p)) t ∧
    (t .initiator).link? a = some l ∧ l.status = .active ∧
    (t .responder).links.lookup l.hash = some b ∧ (t .responder).link? b = some k ∧
    k.status = .active ∧ k.sharedSessionKey ≠ l.sharedSessionKey := by
  obtain ⟨t,-,l,-,ht,hl,hs,-,-,hq⟩ := Sample.session
  obtain ⟨m,hm,hq⟩ := runs_of_endsIn _ _ _ _ _ hq
  obtain ⟨b,hb,hq⟩ := (Option.any_eq_true _ _).mp hq
  obtain ⟨k,hk,hq⟩ := (Option.any_eq_true _ _).mp hq
  obtain ⟨hks,hkey⟩ := of_decide_eq_true hq
  have hm : Runs Sample.platform (Plays .responder t) (t .responder) m := by
    refine hm.mono fun o n ho => ?_
    obtain ⟨hp,hh⟩ := (Bool.and_eq_true _ _).mp ho
    exact Op.hears_plays hp hh
  refine ⟨_,0,b,l,k,(ht.mono fun _ _ _ _ hg => hg.1).step hm,?_,hs,?_,?_,hks,hkey⟩
  · rwa [Function.update_of_ne (by decide)]
  · rwa [Function.update_self]
  · rwa [Function.update_self]

end RNS
