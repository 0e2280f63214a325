import RTReticulum.Transport

/-! Everything an operation can do to a node, one update at a time. What holds along runs
is proved from this list. -/
set_option autoImplicit false

namespace RNS

/-- A later state of the same link: its keys and its id stay, and its session with them,
unless an initiator leaves the handshake. -/
structure Link.Later (l l' : Link) : Prop where
  destination : l'.destination = l.destination
  initiator : l'.initiator = l.initiator
  ephX25519Prv : l'.ephX25519Prv = l.ephX25519Prv
  ephEd25519Prv : l'.ephEd25519Prv = l.ephEd25519Prv
  hash : l'.hash = l.hash
  localMtu : l'.localMtu = l.localMtu
  session : (l'.status = l.status ∧ l'.mtu = l.mtu ∧ l'.peerX25519Pub = l.peerX25519Pub ∧
      l'.sharedSessionKey = l.sharedSessionKey ∧ l'.token = l.token) ∨
    (l.status = .handshake ∧ l.initiator = true ∧ (l'.status = .active ∨ l'.status = .closed))

namespace Link.Later

theorem refl (l : Link) : l.Later l := ⟨rfl,rfl,rfl,rfl,rfl,rfl,.inl ⟨rfl,rfl,rfl,rfl,rfl⟩⟩

theorem trans {l l' l'' : Link} (h : l.Later l') (k : l'.Later l'') : l.Later l'' where
  destination := k.destination.trans h.destination
  initiator := k.initiator.trans h.initiator
  ephX25519Prv := k.ephX25519Prv.trans h.ephX25519Prv
  ephEd25519Prv := k.ephEd25519Prv.trans h.ephEd25519Prv
  hash := k.hash.trans h.hash
  localMtu := k.localMtu.trans h.localMtu
  session := by
    obtain ⟨h₁,h₂,h₃,h₄,h₅⟩ | ⟨h₁,h₂,h₃⟩ := h.session
    · obtain ⟨k₁,k₂,k₃,k₄,k₅⟩ | ⟨k₁,k₂,k₃⟩ := k.session
      · exact .inl ⟨k₁.trans h₁,k₂.trans h₂,k₃.trans h₃,k₄.trans h₄,k₅.trans h₅⟩
      · exact .inr ⟨h₁ ▸ k₁,h.initiator ▸ k₂,k₃⟩
    · obtain ⟨k₁,-⟩ | ⟨-,-,k₃⟩ := k.session
      · exact .inr ⟨h₁,h₂,k₁ ▸ h₃⟩
      · exact .inr ⟨h₁,h₂,k₃⟩

theorem settled {l l' : Link} (h : l.Later l') (hs : l.status ≠ .handshake) :
    l'.status = l.status ∧ l'.mtu = l.mtu ∧ l'.peerX25519Pub = l.peerX25519Pub ∧
      l'.sharedSessionKey = l.sharedSessionKey ∧ l'.token = l.token :=
  h.session.resolve_right fun k => hs k.1

theorem active {l l' : Link} (h : l.Later l') (hs : l.status = .active) : l'.status = .active :=
  (h.settled (by simp [hs])).1.trans hs

end Link.Later

def Node.LinksLater (n m : Node) : Prop :=
  ∀ a l, n.link? a = some l → ∃ l', m.link? a = some l' ∧ l.Later l'

namespace Node.LinksLater

theorem refl (n : Node) : n.LinksLater n := fun _ l h => ⟨l,h,.refl l⟩

theorem trans {n m k : Node} (h : n.LinksLater m) (h' : m.LinksLater k) : n.LinksLater k := by
  intro a l hl
  obtain ⟨l',hl',h₁⟩ := h a l hl
  obtain ⟨l'',hl'',h₂⟩ := h' a l' hl'
  exact ⟨l'',hl'',h₁.trans h₂⟩

theorem of_link? {n m : Node} (h : ∀ a, m.link? a = n.link? a) : n.LinksLater m :=
  fun a l hl => ⟨l,(h a).trans hl,.refl l⟩

theorem setLink {n : Node} {a : Nat} {l l' : Link} (h : n.link? a = some l) (hl : l.Later l') :
    n.LinksLater (n.setLink a l') := by
  intro b k hb
  rw [link?_setLink h]
  split
  · subst b; rw [h] at hb; cases hb
    exact ⟨l',rfl,hl⟩
  · exact ⟨k,hb,.refl k⟩

theorem newLink (n : Node) (l : Link) (r : Rng) : n.LinksLater (n.newLink l r) := by
  intro b k hb
  have hlt := link?_lt hb
  refine ⟨k,?_,.refl k⟩
  rw [link?_newLink,if_neg (by omega),hb]

end Node.LinksLater

def Op.Requests (P : Platform) (t : Node) (o : Op) (owner : Destination) (data : Bytes)
    (packet : Packet) : Prop :=
  o = .validateRequest owner data packet ∨
    ∃ raw iface, o = .inbound raw iface ∧ Packet.unpack P raw = some packet ∧
      packet.packetType = .linkRequest ∧ data = packet.data ∧
      t.destinations.lookup packet.destinationHash = some owner ∧
      t.onLinkRequest = some .validateRequest

def Op.Proves (P : Platform) (t : Node) (o : Op) (a : Nat) (packet : Packet) : Prop :=
  o = .onProof a packet ∨
    ∃ raw iface, o = .inbound raw iface ∧ Packet.unpack P raw = some packet ∧
      packet.packetType = .proof ∧ packet.context = Context.lrproof ∧
      t.links.lookup packet.destinationHash = some a

/-- Where a packet handled by `on_inbound` comes from, in the state `n`. -/
def Op.Receives (P : Platform) (t n : Node) (o : Op) (a : Nat) (packet : Packet) : Prop :=
  (o = .onInbound a packet ∧ n = t) ∨
    ∃ raw iface, o = .inbound raw iface ∧ n = t.note (.rx raw iface) ∧
      Packet.unpack P raw = some packet ∧ packet.packetType = .data ∧
      t.links.lookup packet.destinationHash = some a

def Link.Opens (P : Platform) (l : Link) (data plaintext : Bytes) : Prop :=
  ∃ token, l.token = some token ∧ token.decrypt P data = .ok plaintext

structure Node.Forwards (P : Platform) (n : Node) (raw : Bytes) (packet : Packet) (via : Nat) :
    Prop where
  unpacked : Packet.unpack P raw = some packet
  data : packet.packetType = .data
  notLocal : n.destinations.lookup packet.destinationHash = none
  noLink : n.links.lookup packet.destinationHash = none
  path : ∃ nextHop hops,
    n.pathTable.lookup packet.destinationHash = some ⟨nextHop,hops,some via⟩

def Event.Plain : Event → Prop
  | .linkRequest .. | .rx .. | .onProof .. => True
  | _ => False

def Event.Delivers (a : Nat) : Event → Prop
  | .linkPacket _ _ b => b = a
  | .generate b .. => b = a
  | _ => False

def Event.Gives (P : Platform) (l : Link) (packet : Packet) : Event → Prop
  | .linkPacket _ plaintext _ => l.Opens P packet.data plaintext
  | .generate .. => ∃ plaintext, l.Opens P packet.data plaintext
  | _ => False

structure Node.SameCore (o : Op) (n m : Node) : Prop where
  interfaces : m.interfaces = n.interfaces
  pathTable : m.pathTable = n.pathTable
  seenAnnounces : m.seenAnnounces = n.seenAnnounces
  knownDestinations : m.knownDestinations = n.knownDestinations
  linkHeap : m.linkHeap = n.linkHeap
  log : m.log = n.log
  links : ∀ h, (n.links.lookup h).isSome → (m.links.lookup h).isSome
  entries : ∀ h a, m.links.lookup h = some a →
    n.links.lookup h = some a ∨ ∃ l, n.link? a = some l ∧ l.hash = h
  handler : m.onLinkRequest = n.onLinkRequest ∨ o = .setLinkRequestHandler m.onLinkRequest

theorem Node.SameCore.link? {o : Op} {n m : Node} (h : n.SameCore o m) (a : Nat) :
    m.link? a = n.link? a := by
  rw [Node.link?,h.linkHeap]; rfl

def Node.noteEstablished (a : Nat) (l : Link) (n : Node) : Node :=
  match l.onEstablished with
  | none => n
  | some cb => n.note (.established cb a)

def Node.Starts (t n : Node) : Prop := n = t ∨ ∃ raw iface, n = t.note (.rx raw iface)

/-- One update made by the operation `o` that started in the state `t`, other than
`reset` and the handling of an announce. -/
inductive Update (P : Platform) (o : Op) (t : Node) : Node → Node → Prop where
  | tables {n m : Node} : n.SameCore o m → Update P o t n m
  | unlinked {n : Node} {a : Nat} : o = .deregisterLink a → Update P o t n (n.deregisterLink a)
  | joined {i : Nat} : o = .registerInterface i →
      Update P o t t { t with interfaces := t.interfaces ++ [i] }
  | left {n : Node} {i : Nat} : o = .deregisterInterface i →
      Update P o t n { n with interfaces := n.interfaces.filter (· ≠ i) }
  | cleared {n : Node} : o = .clearPaths → Update P o t n { n with pathTable := ∅ }
  | plain {n : Node} {e : Event} : e.Plain → Update P o t n (n.note e)
  | received {n : Node} {cb : Nat} {d : Destination} {pt : Bytes} {packet : Packet} :
      d.decrypt P packet.data = .ok pt → pt ≠ [] →
      Update P o t n (n.note (.receive cb d pt packet))
  | sent {n : Node} {i : Nat} {raw : Bytes} :
      (∃ skip, o = .broadcast raw skip) ∨ (∃ d appData send r r', o = .announce d appData send ∧
        announceFrame P d appData r = .ok (raw,r')) →
      Update P o t n (n.note (.sendOutgoing i raw .own))
  | requested {d : Destination} {oe op : Option Nat} {mtu : UInt32} {l : Link} {r : Rng}
      {raw : Bytes} : o = .request d oe op mtu →
      Link.request P d oe op mtu t.rng = .ok ((l,raw),r) → l.Requested P d oe op mtu →
      Update P o t t ((t.newLink l r).registerLink t.linkHeap.length)
  | requestSent {n : Node} {a i : Nat} {l : Link} : n.link? a = some l → l.initiator = true →
      Update P o t n (n.note (.sendOutgoing i (l.requestFrame P) (.request a)))
  | validated {n : Node} {owner : Destination} {data : Bytes} {packet : Packet} {l : Link}
      {r : Rng} : t.Starts n → o.Requests P t owner data packet →
      data.length = 64 ∨ data.length = 67 → l.Validated P owner data packet →
      Update P o t n ((n.newLink l r).registerLink n.linkHeap.length)
  | proofSent {n : Node} {a i : Nat} {l l₀ : Link} {owner : Destination} {data : Bytes}
      {packet : Packet} {id : Identity} {k : Ed25519PrivateKey} : n.link? a = some l →
      o.Requests P t owner data packet → l₀.Validated P owner data packet → l₀.Later l →
      Update P o t n (n.note (.sendOutgoing i (linkFrame .proof l.hash Context.lrproof
        (l.proofData P id k (data.length = 67))) (.proof a)))
  | proved {n : Node} {a : Nat} {l : Link} {id : Identity} {packet : Packet} :
      t.Starts n → o.Proves P t a packet → n.link? a = some l → l.status = .handshake →
      l.initiator = true →
      packet.data.length = 96 ∨ packet.data.length = 99 → l.destination.identity = some id →
      l.Proven P id packet.data →
      Update P o t n (((n.note (.onProof a packet)).setLink a
        { l.proving P packet.data with status := .active }).noteEstablished a l)
  | refused {n : Node} {a : Nat} {l : Link} {id : Identity} {packet : Packet} :
      o.Proves P t a packet → n.link? a = some l → l.status = .handshake → l.initiator = true →
      ¬ l.Proven P id packet.data →
      Update P o t n ((n.note (.onProof a packet)).setLink a
        { l.proving P packet.data with status := .closed })
  | linkSent {n : Node} {a i : Nat} {l : Link} {ctx : Context} {c : Bytes} :
      n.link? a = some l → l.status = .active →
      Update P o t n (n.note (.sendOutgoing i (linkFrame .data l.hash ctx c) (.link a)))
  | delivered {n : Node} {a : Nat} {l : Link} {packet : Packet} {e : Event} :
      n.link? a = some l → l.status = .active → o.Receives P t n a packet → e.Delivers a →
      e.Gives P l packet → Update P o t n (n.note e)
  | callbacks {n : Node} {a : Nat} {l : Link} {oe op : Option Nat} : n.link? a = some l →
      Update P o t n (n.setLink a { l with onEstablished := oe, onPacket := op })
  | forwarded {raw : Bytes} {iface : Option Nat} {packet : Packet} {via : Nat} :
      o = .inbound raw iface → t.Forwards P raw packet via →
      Update P o t t ((t.note (.rx raw iface)).note
        (.sendOutgoing via (withHops raw packet.hops) (.forward packet)))

namespace Link.Later
variable {P : Platform}

theorem requestFrame {l l' : Link} (h : l.Later l') : l'.requestFrame P = l.requestFrame P := by
  simp [Link.requestFrame,Link.requestData,ephX25519Pub,ephEd25519Pub,h.destination,
    h.ephX25519Prv,h.ephEd25519Prv,h.localMtu]

theorem proofData {l l' : Link} (h : l.Later l') (hs : l.status ≠ .handshake) (id : Identity)
    (k : Ed25519PrivateKey) (hasMtu : Bool) :
    l'.proofData P id k hasMtu = l.proofData P id k hasMtu := by
  simp [Link.proofData,ephX25519Pub,h.ephX25519Prv,h.hash,(h.settled hs).2.1]

end Link.Later

abbrev Does (P : Platform) (o : Op) (t : Node) (env : Env) : Node → Node → Prop :=
  Reentrant.Does (Update P o t) env

section
variable {U : Node → Node → Prop} {env : Env}

theorem tell_does {n : Node} {e : Event} (h : U n (n.note e)) :
    Reentrant.Does U env n (n.tell env e) := .call e (.single h)

/-- A broadcast transmits one frame again and again, while some `Inv` keeps the update
allowed. -/
theorem broadcast_does {raw : Bytes} {skip : Option Nat} {origin : Origin} {n : Node}
    (Inv : Node → Prop)
    (hkeep : ∀ {m} i, Inv m → Inv (m.tell env (.sendOutgoing i raw origin)))
    (hU : ∀ {m} i, Inv m → U m (m.note (.sendOutgoing i raw origin))) (hn : Inv n) :
    Reentrant.Does U env n (n.broadcast env raw skip origin) := by
  have hfold : ∀ (is : List Nat) (m : Node), Inv m → Reentrant.Does U env m (is.foldl
      (fun n i => if skip = some i then n else n.tell env (.sendOutgoing i raw origin)) m) := by
    intro is
    induction is with
    | nil => exact fun m _ => .refl m
    | cons i is ih =>
      intro m hm
      rw [List.foldl_cons]
      split
      · exact ih m hm
      · exact (tell_does (hU i hm)).trans (ih _ (hkeep i hm))
  exact hfold n.interfaces n hn

end

section
variable {P : Platform} {o : Op} {t : Node} {env : Env}

theorem registerLink_does (a : Nat) (n : Node) : Does P o t env n (n.registerLink a) := by
  obtain ⟨links,h,hs,he⟩ := Node.registerLink_eq a n
  rw [h]
  exact .single (.tables ⟨rfl,rfl,rfl,rfl,rfl,rfl,hs,he,.inl rfl⟩)

theorem rng_does (r : Rng) (n : Node) : Does P o t env n { n with rng := r } :=
  .single (.tables ⟨rfl,rfl,rfl,rfl,rfl,rfl,fun _ h => h,fun _ _ h => .inl h,.inl rfl⟩)

theorem receive_does {d : Destination} {pt : Bytes} {packet : Packet} (n : Node)
    (h : d.decrypt P packet.data = .ok pt) (hne : pt ≠ []) :
    Does P o t env n (n.receive env d pt packet) := by
  unfold Node.receive
  split
  · exact .refl _
  · exact tell_does (.received h hne)

variable (henv : ∀ (e : Event) (m : Node), m.LinksLater (env e m).2)
include henv

theorem tell_linksLater (e : Event) (n : Node) : n.LinksLater (n.tell env e) :=
  (Node.LinksLater.of_link? fun _ => rfl).trans (henv e (n.note e))

theorem broadcast_link_does {raw : Bytes} {skip : Option Nat} {origin : Origin} {n : Node}
    {a : Nat} {l : Link} (hl : n.link? a = some l)
    (hU : ∀ {m l'} i, m.link? a = some l' → l.Later l' →
      Update P o t m (m.note (.sendOutgoing i raw origin))) :
    Does P o t env n (n.broadcast env raw skip origin) := by
  refine broadcast_does (fun m => ∃ l', m.link? a = some l' ∧ l.Later l') ?_ ?_
    ⟨l,hl,.refl l⟩
  · rintro m i ⟨l',hl',hlater⟩
    obtain ⟨l'',hl'',hlater'⟩ := tell_linksLater henv _ _ _ _ hl'
    exact ⟨l'',hl'',hlater.trans hlater'⟩
  · rintro m i ⟨l',hl',hlater⟩
    exact hU i hl' hlater

theorem request_does {d : Destination} {oe op : Option Nat} {mtu : UInt32} {u : Node}
    {a : Nat} (ho : o = .request d oe op mtu) (h : t.request P env d oe op mtu = .ok (a,u)) :
    Does P o t env t u := by
  obtain ⟨l,r,hl,hreq⟩ := Link.request_ok (P := P) d oe op mtu t.rng
  simp only [Node.request,hl,ok_bind,pure_eq_ok,Except.ok.injEq,Prod.mk.injEq] at h
  obtain ⟨rfl,rfl⟩ := h
  refine (Reentrant.Does.single (.requested ho hl hreq)).trans (broadcast_link_does henv
    (a := t.linkHeap.length) (l := l) (by simp [Node.link?_newLink]) ?_)
  intro m l' i hl' hlater
  rw [← hlater.requestFrame (P := P)]
  exact .requestSent hl' (hlater.initiator.trans hreq.initiator)

theorem validateRequest_does {owner : Destination} {data : Bytes} {packet : Packet} {n u : Node}
    {res : Option Nat} (hn : t.Starts n) (ho : o.Requests P t owner data packet)
    (h : n.validateRequest P env owner data packet = .ok (res,u)) : Does P o t env n u := by
  by_cases hlen : data.length ≠ 64 ∧ data.length ≠ 67
  · simp only [Node.validateRequest,Link.validateRequest_bad hlen,ok_bind,pure_eq_ok,
      Except.ok.injEq,Prod.mk.injEq] at h
    obtain ⟨rfl,rfl⟩ := h
    exact rng_does _ _
  have hgood : data.length = 64 ∨ data.length = 67 := by omega
  generalize hl : Link.validating P owner data packet n.rng = l
  have hv : l.Validated P owner data packet := hl ▸ Link.validating_validated _ _ _ _
  simp only [Node.validateRequest,Link.validateRequest_eq hgood,hl] at h
  cases hid : owner.identity with
  | none => simp [hid] at h
  | some id =>
    cases hk : id.sigPrv with
    | none => simp [hid,hk] at h
    | some k =>
      simp only [hid,hk,ok_bind,pure_eq_ok,Except.ok.injEq,Prod.mk.injEq] at h
      obtain ⟨rfl,rfl⟩ := h
      refine (Reentrant.Does.single (.validated hn ho hgood hv)).trans (broadcast_link_does henv
        (a := n.linkHeap.length) (l := l) (by simp [Node.link?_newLink]) ?_)
      intro m l' i hl' hlater
      rw [← hlater.hash,← hlater.proofData (by simp [hv.status])]
      exact .proofSent hl' ho hv hlater

omit henv in
theorem onProof_does {a : Nat} {packet : Packet} {n u : Node} (hn : t.Starts n)
    (ho : o.Proves P t a packet) (h : n.onProof P env a packet = .ok u) : Does P o t env n u := by
  unfold Node.onProof at h
  cases hl : n.link? a with
  | none =>
    simp only [hl,Except.ok.injEq] at h
    exact h ▸ .refl n
  | some l =>
    simp only [hl] at h
    split at h
    · cases h
      exact .single (.plain trivial)
    rename_i hstatus
    have hhs : l.status = .handshake := by_contra fun hc => hstatus (.inl hc)
    have hin : l.initiator = true := by
      cases hi : l.initiator with
      | true => rfl
      | false => exact absurd (.inr hi) hstatus
    by_cases hlen : packet.data.length ≠ 96 ∧ packet.data.length ≠ 99
    · rw [Link.onProof_bad hlen] at h
      simp only [ok_bind,hhs,pure_eq_ok,Except.ok.injEq] at h
      have hsame : (n.note (.onProof a packet)).setLink a l = n.note (.onProof a packet) := by
        obtain ⟨hlt,rfl⟩ := List.getElem?_eq_some_iff.mp hl
        simp [Node.setLink,Node.note]
      rw [hsame] at h
      exact h ▸ .single (.plain trivial)
    have hgood : packet.data.length = 96 ∨ packet.data.length = 99 := by omega
    rw [Link.onProof_eq hgood] at h
    cases hid : l.destination.identity with
    | none => simp [hid] at h
    | some id =>
      simp only [hid,ok_bind] at h
      by_cases hp : l.Proven P id packet.data
      · have hu := Update.proved hn ho hl hhs hin hgood hid hp
        simp only [if_pos hp,pure_eq_ok] at h
        have hoe : (l.proving P packet.data).onEstablished = l.onEstablished := rfl
        unfold Node.noteEstablished at hu
        cases hcb : l.onEstablished with
        | none =>
          simp only [hoe,hcb,Except.ok.injEq] at h hu
          exact h ▸ .single hu
        | some cb =>
          simp only [hoe,hcb,Except.ok.injEq] at h hu
          exact h ▸ .call _ (.single hu)
      · simp only [if_neg hp,pure_eq_ok,Except.ok.injEq] at h
        exact h ▸ .single (.refused ho hl hhs hin hp)

theorem sendWithContext_does {a : Nat} {pt : Bytes} {ctx : Context} {n u : Node}
    (h : n.sendWithContext P env a pt ctx = .ok u) : Does P o t env n u := by
  unfold Node.sendWithContext at h
  cases hl : n.link? a with
  | none =>
    simp only [hl,Except.ok.injEq] at h
    exact h ▸ .refl n
  | some l =>
    simp only [hl] at h
    split at h
    · rename_i token hs ht
      simp only [Token.encrypt_eq,ok_bind,pure_eq_ok,Except.ok.injEq] at h
      rw [← h]
      refine (rng_does _ n).trans (broadcast_link_does henv (a := a) (l := l) hl ?_)
      intro m l' i hl' hlater
      rw [← hlater.hash]
      exact .linkSent hl' (hlater.active hs)
    · cases h
      exact .refl n

theorem handleRequest_does {a : Nat} {l : Link} {pt : Bytes} {packet : Packet} {n u : Node}
    (hl : n.link? a = some l) (hs : l.status = .active) (ho : o.Receives P t n a packet)
    (hpt : l.Opens P packet.data pt) (h : n.handleRequest P env a l pt packet = .ok u) :
    Does P o t env n u := by
  unfold Node.handleRequest at h
  obtain ⟨res,-,h⟩ := bind_eq_ok.mp h
  cases res with
  | none => cases h; exact .refl n
  | some request =>
    simp only at h
    split at h
    · cases h; exact .refl n
    · rename_i handler _
      have hcall : Does P o t env n (n.callOut env (.generate a handler.generator handler.path
          request.data (truncatedHash P packet.getHashablePart) l.hash request.requestedAt)).2 :=
        tell_does (.delivered hl hs ho rfl ⟨pt,hpt⟩)
      split at h
      · cases h; exact hcall
      · exact hcall.trans (sendWithContext_does henv h)

theorem onInbound_does {a : Nat} {packet : Packet} {n u : Node}
    (ho : o.Receives P t n a packet) (h : n.onInbound P env a packet = .ok u) :
    Does P o t env n u := by
  unfold Node.onInbound at h
  cases hl : n.link? a with
  | none =>
    simp only [hl,Except.ok.injEq] at h
    exact h ▸ .refl n
  | some l =>
    simp only [hl] at h
    split at h
    · rename_i token hs ht
      split at h
      · cases h; exact .refl n
      obtain ⟨pt,hdec,h⟩ := bind_eq_ok.mp h
      have hpt : l.Opens P packet.data pt := ⟨token,ht,hdec⟩
      split at h
      · cases h; exact .refl n
      split at h
      · exact handleRequest_does henv hl hs ho hpt h
      split at h
      · cases h; exact .refl n
      · cases h
        exact tell_does (.delivered hl hs ho rfl hpt)
    · cases h; exact .refl n

omit henv in
theorem announce_does {d : Destination} {appData : Bytes} {send : Bool} {n u : Node}
    (ho : o = .announce d appData send) (h : n.announce P env d appData send = .ok u) :
    Does P o t env n u := by
  obtain ⟨⟨raw,r⟩,hraw,h⟩ := bind_eq_ok.mp h
  simp only [pure_eq_ok] at h
  split at h
  · cases h
    refine (rng_does r n).trans (broadcast_does (fun _ => True) (fun _ _ => trivial) ?_ trivial)
    exact fun i _ => .sent (.inr ⟨d,appData,send,n.rng,r,ho,hraw⟩)
  · cases h
    exact rng_does r n

end

namespace Node

def hear (packet : Packet) (n : Node) : Node :=
  { n with seenAnnounces := insert packet.packetHash n.seenAnnounces }

def believe (packet : Packet) (a : Announce) (via : Option Nat) (n : Node) : Node :=
  let known : KnownDestination := ⟨packet.packetHash,a.publicKey,a.appData⟩
  { n.hear packet with
    knownDestinations := n.knownDestinations.insert packet.destinationHash known }.insertPath
      packet via

theorem processAnnounce_eq (P : Platform) (env : Env) (packet : Packet) (via : Option Nat)
    (n : Node) : n.processAnnounce P env packet via = .ok
      (if packet.packetHash ∈ n.seenAnnounces then n
      else match Announce.check P packet with
        | none => n.hear packet
        | some a => (n.believe packet a via).relayAnnounce env packet a via) := by
  unfold processAnnounce
  split
  · rfl
  · cases hc : Announce.check P packet with
    | none => rfl
    | some a =>
      have hlen : ¬ a.publicKey.length ≠ 64 :=
        not_not.mpr (Announce.check_iff.mp hc).publicKey_length
      simp only [remember,if_neg hlen]
      rfl

end Node

/-- One update made by `process_announce`, started in the state `s`. -/
inductive Heard (P : Platform) (packet : Packet) (via : Option Nat) (s : Node) :
    Node → Node → Prop where
  | heard : packet.packetHash ∉ s.seenAnnounces → Heard P packet via s s (s.hear packet)
  | believed {a : Announce} : packet.packetHash ∉ s.seenAnnounces → a.Genuine P packet →
      Heard P packet via s s (s.believe packet a via)
  | announced {n : Node} {cb : Nat} {a : Announce} : a.Genuine P packet →
      Heard P packet via s n
        (n.note (.announce cb packet.destinationHash a.identity a.appData packet))
  | relayed {n : Node} : packet.hops < pathfinderM →
      Heard P packet via s n (n.note (.relay packet))
  | relaySent {n : Node} {i : Nat} : packet.hops < pathfinderM → Heard P packet via s n
      (n.note (.sendOutgoing i (withHops packet.raw packet.hops) (.announceRelay packet)))

theorem relayAnnounce_does {P : Platform} {env : Env} {packet : Packet} {a : Announce}
    {via : Option Nat} (s n : Node) (ha : a.Genuine P packet) :
    Reentrant.Does (Heard P packet via s) env n (n.relayAnnounce env packet a via) := by
  have hcall : Reentrant.Does (Heard P packet via s) env n (n.tellAnnounce env packet a) := by
    unfold Node.tellAnnounce
    split
    · exact .refl n
    · exact tell_does (.announced ha)
  unfold Node.relayAnnounce
  simp only
  split
  · rename_i hhops
    exact (hcall.trans (.single (.relayed hhops))).trans
      (broadcast_does (fun _ => True) (fun _ _ => trivial) (fun _ _ => .relaySent hhops) trivial)
  · exact hcall

theorem processAnnounce_does {P : Platform} {env : Env} {packet : Packet} {via : Option Nat}
    {n u : Node} (h : n.processAnnounce P env packet via = .ok u) :
    Reentrant.Does (Heard P packet via n) env n u := by
  rw [Node.processAnnounce_eq,Except.ok.injEq] at h
  subst h
  split
  · exact .refl n
  · rename_i hnew
    cases hc : Announce.check P packet with
    | none => exact .single (.heard hnew)
    | some a =>
      have ha := Announce.check_iff.mp hc
      exact (Reentrant.Does.single (.believed hnew ha)).trans (relayAnnounce_does n _ ha)

/-- A frame handled by `inbound`: an announce, or updates and call-outs. -/
theorem inbound_cases {P : Platform} {env : Env} {raw : Bytes} {iface : Option Nat}
    {n u : Node} (henv : ∀ (e : Event) (m : Node), m.LinksLater (env e m).2)
    (h : n.inbound P env raw iface = .ok u) :
    (∃ packet, Packet.unpack P raw = some packet ∧ packet.packetType = .announce ∧
      (n.note (.rx raw iface)).processAnnounce P env packet iface = .ok u) ∨
    Does P (.inbound raw iface) n env n u := by
  have hrx : Does P (.inbound raw iface) n env n (n.note (.rx raw iface)) :=
    .single (.plain trivial)
  simp only [Node.inbound] at h
  cases hp : Packet.unpack P raw with
  | none =>
    simp only [hp,Except.ok.injEq] at h
    exact .inr (h ▸ hrx)
  | some pkt =>
    simp only [hp] at h
    cases ht : pkt.packetType with
    | announce =>
      simp only [ht] at h
      exact .inl ⟨pkt,rfl,ht,h⟩
    | linkRequest =>
      refine .inr (hrx.trans ?_)
      simp only [ht] at h
      split at h
      · rename_i dest handler hd hh
        obtain ⟨⟨res,m⟩,hm,h⟩ := bind_eq_ok.mp h
        have hdoes : Does P (.inbound raw iface) n env (n.note (.rx raw iface)) m := by
          cases handler with
          | validateRequest =>
            exact validateRequest_does henv (.inr ⟨_,_,rfl⟩)
              (.inr ⟨raw,iface,rfl,hp,ht,rfl,hd,hh⟩) hm
          | user k =>
            cases hm
            exact tell_does (.plain trivial)
        cases h
        cases res with
        | none => exact hdoes
        | some a => exact hdoes.trans (registerLink_does a m)
      · cases h; exact .refl _
    | proof =>
      refine .inr (hrx.trans ?_)
      simp only [ht] at h
      split at h
      · rename_i hctx
        split at h
        · cases h; exact .refl _
        · rename_i a ha
          exact onProof_does (.inr ⟨_,_,rfl⟩) (.inr ⟨raw,iface,rfl,hp,ht,hctx,ha⟩) h
      · cases h; exact .refl _
    | data =>
      simp only [ht] at h
      split at h
      · refine .inr (hrx.trans ?_)
        obtain ⟨pt,hpt,h⟩ := bind_eq_ok.mp h
        split at h
        · cases h; exact .refl _
        · rename_i hne
          cases h
          exact receive_does _ hpt (by simpa using hne)
      · rename_i hd
        split at h
        · rename_i a ha
          exact .inr (hrx.trans (onInbound_does henv (.inr ⟨raw,iface,rfl,rfl,hp,ht,ha⟩) h))
        · rename_i hl
          split at h
          · rename_i nextHop hops via hpath
            cases h
            exact .inr (.call _ (.single (.forwarded rfl ⟨hp,ht,hd,hl,_,_,hpath⟩)))
          · cases h; exact .inr hrx

/-- A run of one operation: `reset`, an announce received, or updates and call-outs. -/
theorem exec_cases {P : Platform} {env : Env} {o : Op} {n u : Node}
    (henv : ∀ (e : Event) (m : Node), m.LinksLater (env e m).2) (h : exec P env o n = .ok u) :
    (o = .reset ∧ u = n.reset) ∨
    (∃ raw iface packet, o = .inbound raw iface ∧ Packet.unpack P raw = some packet ∧
      packet.packetType = .announce ∧
      (n.note (.rx raw iface)).processAnnounce P env packet iface = .ok u) ∨
    Does P o n env n u := by
  have tables : ∀ {m : Node}, n.SameCore o m → Does P o n env n m :=
    fun hm => .single (.tables hm)
  cases o with
  | reset => exact .inl ⟨rfl,by cases h; rfl⟩
  | inbound raw iface =>
    obtain ⟨packet,hp,ht,hu⟩ | hdoes := inbound_cases henv h
    · exact .inr (.inl ⟨raw,iface,packet,rfl,hp,ht,hu⟩)
    · exact .inr (.inr hdoes)
  | registerInterface i => cases h; exact .inr (.inr (.single (.joined rfl)))
  | deregisterInterface i => cases h; exact .inr (.inr (.single (.left rfl)))
  | registerLink a => cases h; exact .inr (.inr (registerLink_does a n))
  | deregisterLink a => cases h; exact .inr (.inr (.single (.unlinked rfl)))
  | clearPaths => cases h; exact .inr (.inr (.single (.cleared rfl)))
  | setLinkRequestHandler hd =>
    cases h
    exact .inr (.inr (tables ⟨rfl,rfl,rfl,rfl,rfl,rfl,fun _ h => h,fun _ _ h => .inl h,.inr rfl⟩))
  | broadcast raw skip =>
    cases h
    exact .inr (.inr (broadcast_does (fun _ => True) (fun _ _ => trivial)
      (fun i _ => .sent (.inl ⟨skip,rfl⟩)) trivial))
  | announce d appData send => exact .inr (.inr (announce_does rfl h))
  | request d oe op mtu =>
    obtain ⟨⟨a,m⟩,hm,h⟩ := bind_eq_ok.mp h
    cases h
    exact .inr (.inr (request_does henv rfl hm))
  | validateRequest d data pkt =>
    obtain ⟨⟨a,m⟩,hm,h⟩ := bind_eq_ok.mp h
    cases h
    exact .inr (.inr (validateRequest_does henv (.inl rfl) (.inl rfl) hm))
  | onProof a pkt => exact .inr (.inr (onProof_does (.inl rfl) (.inl rfl) h))
  | onInbound a pkt => exact .inr (.inr (onInbound_does henv (.inl ⟨rfl,rfl⟩) h))
  | send a pt => exact .inr (.inr (sendWithContext_does henv h))
  | sendWithContext a pt ctx => exact .inr (.inr (sendWithContext_does henv h))
  | setLinkPacketCallback a cb =>
    cases h
    simp only [Node.setPacketCallback]
    split
    · exact .inr (.inr (.refl n))
    · rename_i l hl
      have hu : Update P (.setLinkPacketCallback a cb) n n (n.setLink a
        { l with onEstablished := l.onEstablished, onPacket := cb }) := .callbacks hl
      exact .inr (.inr (.single hu))
  | setEstablishedCallback a cb =>
    cases h
    simp only [Node.setEstablishedCallback]
    split
    · exact .inr (.inr (.refl n))
    · rename_i l hl
      have hu : Update P (.setEstablishedCallback a cb) n n (n.setLink a
        { l with onEstablished := cb, onPacket := l.onPacket }) := .callbacks hl
      exact .inr (.inr (.single hu))
  | registerDestination _ | deregisterDestination _ | onAnnounce _ | setPacketCallback _ _
  | registerRequestHandler _ _ _ | random _ =>
    cases h
    exact .inr (.inr (tables ⟨rfl,rfl,rfl,rfl,rfl,rfl,fun _ h => h,fun _ _ h => .inl h,.inl rfl⟩))

section
variable {P : Platform} {o : Op} {t : Node}

theorem Update.linksLater {n m : Node} (h : Update P o t n m) : n.LinksLater m := by
  have same : ∀ {n m : Node}, m.linkHeap = n.linkHeap → n.LinksLater m :=
    fun h => .of_link? fun a => by rw [Node.link?,h]; rfl
  have made : ∀ (n : Node) (l : Link) (r : Rng),
      n.LinksLater ((n.newLink l r).registerLink n.linkHeap.length) := fun n l r =>
    (Node.LinksLater.newLink n l r).trans (.of_link? fun _ => by simp)
  cases h with
  | tables h => exact .of_link? h.link?
  | unlinked _ =>
    unfold Node.deregisterLink
    split <;> exact same rfl
  | joined _ | left _ | cleared _ | plain _ | received _ _ | sent _ | requestSent _ _
  | proofSent _ _ _ _
  | linkSent _ _ | delivered _ _ _ _ _ | forwarded _ _ => exact same rfl
  | requested _ _ _ => exact made _ _ _
  | validated _ _ _ _ => exact made _ _ _
  | @proved n a l _ packet _ _ hl hs hi _ _ _ =>
    have hset : n.LinksLater ((n.note (.onProof a packet)).setLink a
        { l.proving P packet.data with status := .active }) :=
      .setLink (n := n.note _) hl ⟨rfl,rfl,rfl,rfl,rfl,rfl,.inr ⟨hs,hi,.inl rfl⟩⟩
    refine hset.trans ?_
    unfold Node.noteEstablished
    split <;> exact same rfl
  | refused _ hl hs hi _ =>
    exact .setLink (n := Node.note _ _) hl ⟨rfl,rfl,rfl,rfl,rfl,rfl,.inr ⟨hs,hi,.inr rfl⟩⟩
  | callbacks hl => exact .setLink hl ⟨rfl,rfl,rfl,rfl,rfl,rfl,.inl ⟨rfl,rfl,rfl,rfl,rfl⟩⟩

theorem Heard.linksLater {packet : Packet} {via : Option Nat} {s n m : Node}
    (h : Heard P packet via s n m) : n.LinksLater m := by
  cases h <;> exact .of_link? fun _ => rfl

theorem Runs.linksLater {guard : Op → Node → Prop} {n m : Node} (h : Runs P guard n m) :
    n.LinksLater m := by
  refine h.lift Node.LinksLater .refl .trans fun _ henv _ hx => ?_
  rcases exec_cases henv hx with ⟨-,rfl⟩ | ⟨raw,iface,packet,-,-,-,hu⟩ | hdoes
  · exact .of_link? fun _ => rfl
  · exact .trans (.of_link? fun _ => rfl)
      ((processAnnounce_does hu).lift _ .refl .trans Heard.linksLater henv)
  · exact hdoes.lift _ .refl .trans Update.linksLater henv

theorem Runs.lift {guard : Op → Node → Prop} (R : Node → Node → Prop) (hrefl : ∀ n, R n n)
    (htrans : ∀ {n m k}, R n m → R m k → R n k)
    (hreset : ∀ n, guard .reset n → R n n.reset)
    (hrx : ∀ {raw iface n}, guard (.inbound raw iface) n → R n (n.note (.rx raw iface)))
    (hheard : ∀ {raw iface packet t n m}, guard (.inbound raw iface) t →
      Packet.unpack P raw = some packet → packet.packetType = .announce →
      Heard P packet iface (t.note (.rx raw iface)) n m → R n m)
    (hupd : ∀ {o t n m}, guard o t → Update P o t n m → R n m)
    {n m : Node} (h : Runs P guard n m) : R n m := by
  refine Reentrant.Run.lift R hrefl htrans (fun hruns henv hg hx => ?_) h
  rcases exec_cases (fun e m => Runs.linksLater (hruns e m)) hx with
    ⟨rfl,rfl⟩ | ⟨raw,iface,packet,rfl,hp,ht,hu⟩ | hdoes
  · exact hreset _ hg
  · exact htrans (hrx hg)
      ((processAnnounce_does hu).lift R hrefl htrans (hheard hg hp ht) henv)
  · exact hdoes.lift R hrefl htrans (hupd hg) henv

theorem Runs.invariant {guard : Op → Node → Prop} (I : Node → Prop)
    (hreset : ∀ n, guard .reset n → I n → I n.reset)
    (hrx : ∀ {raw iface n}, guard (.inbound raw iface) n → I n → I (n.note (.rx raw iface)))
    (hheard : ∀ {raw iface packet t n m}, guard (.inbound raw iface) t →
      Packet.unpack P raw = some packet → packet.packetType = .announce →
      Heard P packet iface (t.note (.rx raw iface)) n m → I n → I m)
    (hupd : ∀ {o t n m}, guard o t → I t → Update P o t n m → I n → I m)
    {n m : Node} (h : Runs P guard n m) : I n → I m := by
  refine Reentrant.Run.invariant I (fun {env o t u} hruns henv hg ht hx => ?_) h
  have lift : ∀ {U : Node → Node → Prop} {n m : Node}, (∀ {n m}, U n m → I n → I m) →
      Reentrant.Does U env n m → I n → I m := fun hU hd =>
    hd.lift (fun n m => I n → I m) (fun _ => id) (fun h k i => k (h i)) hU henv
  rcases exec_cases (fun e m => Runs.linksLater (hruns e m)) hx with
    ⟨rfl,rfl⟩ | ⟨raw,iface,packet,rfl,hp,ht',hu⟩ | hdoes
  · exact hreset _ hg ht
  · exact lift (hheard hg hp ht') (processAnnounce_does hu) (hrx hg ht)
  · exact lift (hupd hg ht) hdoes ht

/-- What an event says of the operation it is logged under, whatever state it is logged
in. -/
def Event.From (P : Platform) (o : Op) (t : Node) : Event → Prop
  | .receive _ d pt packet => d.decrypt P packet.data = .ok pt ∧ pt ≠ []
  | .sendOutgoing via raw (.forward packet) => ∃ received iface, o = .inbound received iface ∧
      t.Forwards P received packet via ∧ raw = withHops received packet.hops
  | .sendOutgoing _ raw (.announceRelay packet) => ∃ received iface, o = .inbound received iface ∧
      Packet.unpack P received = some packet ∧ packet.packetType = .announce ∧
      raw = withHops received packet.hops ∧ packet.hops < pathfinderM
  | _ => True

theorem Update.events {n m : Node} (h : Update P o t n m) :
    ∃ new, m.log = new ++ n.log ∧ ∀ e ∈ new, e.From P o t := by
  have none : ∀ {n m : Node}, m.log = n.log →
      ∃ new, m.log = new ++ n.log ∧ ∀ e ∈ new, e.From P o t := fun h => ⟨[],h,by simp⟩
  have one : ∀ {n m : Node} {e : Event}, m.log = e :: n.log → e.From P o t →
      ∃ new, m.log = new ++ n.log ∧ ∀ e ∈ new, e.From P o t :=
    fun h he => ⟨[_],h,by simpa using he⟩
  cases h with
  | tables h => exact none h.log
  | unlinked _ =>
    unfold Node.deregisterLink
    split <;> exact none rfl
  | joined _ | left _ | cleared _ | callbacks _ => exact none rfl
  | @plain _ e he => exact one rfl (by cases e <;> trivial)
  | received hd hne => exact one rfl ⟨hd,hne⟩
  | sent _ | requestSent _ _ | proofSent _ _ _ _ | linkSent _ _ => exact one rfl trivial
  | @delivered _ _ _ _ e _ _ _ he _ => exact one rfl (by cases e <;> trivial)
  | requested _ _ _ | validated _ _ _ _ => exact none (Node.registerLink_log _ _)
  | proved _ _ _ _ _ _ _ _ =>
    unfold Node.noteEstablished
    split
    · exact one rfl trivial
    · exact ⟨[_,_],rfl,by simp [Event.From]⟩
  | refused _ _ _ _ _ => exact one rfl trivial
  | forwarded ho hf => exact ⟨[_,_],rfl,by simpa [Event.From] using ⟨_,⟨_,ho⟩,hf,rfl⟩⟩

theorem Heard.events {raw : Bytes} {iface : Option Nat} {packet : Packet} {s n m : Node}
    (hp : Packet.unpack P raw = some packet) (ht : packet.packetType = .announce)
    (h : Heard P packet iface s n m) :
    ∃ new, m.log = new ++ n.log ∧ ∀ e ∈ new, e.From P (.inbound raw iface) t := by
  cases h with
  | heard _ => exact ⟨[],rfl,by simp⟩
  | believed _ _ => exact ⟨[],rfl,by simp⟩
  | announced _ | relayed _ => exact ⟨[_],rfl,by simp [Event.From]⟩
  | relaySent hhops =>
    refine ⟨[_],rfl,?_⟩
    rw [(Packet.unpack_some hp).1]
    simp only [List.mem_singleton,forall_eq,Event.From]
    exact ⟨raw,iface,rfl,hp,ht,rfl,hhops⟩

theorem Runs.events {guard : Op → Node → Prop} {Q : Event → Prop}
    (hQ : ∀ {o t e}, guard o t → e.From P o t → Q e) {n m : Node} (h : Runs P guard n m)
    (hn : ∀ e ∈ n.log, Q e) : ∀ e ∈ m.log, Q e := by
  have grow : ∀ {o : Op} {t k m : Node}, guard o t →
      (∃ new, m.log = new ++ k.log ∧ ∀ e ∈ new, e.From P o t) →
      (∀ e ∈ k.log, Q e) → ∀ e ∈ m.log, Q e := by
    rintro o t k m hg ⟨new,hlog,hnew⟩ hk e he
    rw [hlog,List.mem_append] at he
    exact he.elim (fun he => hQ hg (hnew e he)) (hk e)
  refine Runs.invariant (fun n => ∀ e ∈ n.log, Q e) (fun _ _ hn => hn) (fun hg => ?_)
    (fun hg hp ht hu => grow hg (hu.events hp ht)) (fun hg _ hu => grow hg hu.events) h hn
  exact grow hg ⟨[_],rfl,by simp [Event.From]⟩

end

end RNS
