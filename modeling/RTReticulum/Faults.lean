import RTReticulum.Simulation
import RTReticulum.Updates

/-! When `inbound` returns: every path through it that ends in an exception or in a null
identity, and what a frame must meet there. -/
set_option autoImplicit false

namespace RNS

section
variable {P : Platform} {env : Env}

theorem Destination.decrypt_returns {d : Destination} {c : Bytes} :
    (∃ pt, d.decrypt P c = .ok pt) ↔
      (d.type = .single → ∀ id, d.identity = some id → id.prv.isSome) := by
  unfold Destination.decrypt
  cases hi : d.identity with
  | none => cases d.type <;> simp
  | some id =>
    cases ht : d.type with
    | single =>
      simp only [Option.some.injEq,forall_eq',forall_const]
      refine ⟨fun ⟨pt,h⟩ => ?_,fun h => Identity.decrypt_isOk h c⟩
      cases hk : id.prv with
      | none => simp [Identity.decrypt,hk] at h
      | some _ => rfl
    | group | plain | link => simp

namespace Node

theorem validateRequest_returns {n : Node} {owner : Destination} {data : Bytes}
    {packet : Packet} : (∃ x, n.validateRequest P env owner data packet = .ok x) ↔
      (data.length = 64 ∨ data.length = 67 →
        ∃ id, owner.identity = some id ∧ id.sigPrv.isSome) := by
  by_cases hlen : data.length = 64 ∨ data.length = 67
  · simp only [validateRequest,Link.validateRequest_eq hlen,hlen,forall_const]
    cases owner.identity with
    | none => simp
    | some id => cases hk : id.sigPrv <;> simp [hk]
  · have hbad : data.length ≠ 64 ∧ data.length ≠ 67 := by omega
    simp [validateRequest,Link.validateRequest_bad hbad,hlen]

theorem onProof_returns {n : Node} {a : Nat} {packet : Packet} :
    (∃ u, n.onProof P env a packet = .ok u) ↔
      (∀ l, n.link? a = some l → l.status = .handshake → l.initiator = true →
        packet.data.length = 96 ∨ packet.data.length = 99 → l.destination.identity.isSome) := by
  unfold onProof
  cases hl : n.link? a with
  | none => simp
  | some l =>
    simp only [Option.some.injEq,forall_eq']
    by_cases hs : l.status ≠ .handshake ∨ l.initiator = false
    · simp only [if_pos hs]
      refine ⟨fun _ h hi => ?_,fun _ => ⟨_,rfl⟩⟩
      rcases hs with hs | hs
      · exact absurd h hs
      · simp [hi] at hs
    obtain ⟨hh,hi⟩ := not_or.mp hs
    simp only [not_not.mp hh,Bool.not_eq_false _ ▸ hi,forall_const]
    by_cases hlen : packet.data.length = 96 ∨ packet.data.length = 99
    · simp only [Link.onProof_eq hlen,hlen,forall_const]
      cases l.destination.identity with
      | none => simp
      | some id =>
        simp only [ok_bind,Option.isSome_some,iff_true]
        by_cases hp : l.Proven P id packet.data
        · simp only [if_pos hp]
          cases (l.proving P packet.data).onEstablished <;> exact ⟨_,rfl⟩
        · simp only [if_neg hp]
          exact ⟨_,rfl⟩
    · have hbad : packet.data.length ≠ 96 ∧ packet.data.length ≠ 99 := by omega
      simp only [Link.onProof_bad hbad,hlen,ok_bind,false_implies,iff_true,not_not.mp hh]
      exact ⟨_,rfl⟩

theorem sendWithContext_returns (n : Node) (a : Nat) (pt : Bytes) (ctx : Context) :
    ∃ u, n.sendWithContext P env a pt ctx = .ok u := by
  unfold sendWithContext
  split
  · exact ⟨_,rfl⟩
  · split
    · simp [Token.encrypt_eq]
    · exact ⟨_,rfl⟩

theorem handleRequest_returns {n : Node} {a : Nat} {l : Link} {pt : Bytes} {packet : Packet} :
    (∃ u, n.handleRequest P env a l pt packet = .ok u) ↔
      ¬ MsgPack.RequestWraps P.sizeBits pt := by
  rw [← MsgPack.readRequest_isOk]
  unfold handleRequest
  cases MsgPack.readRequest P.sizeBits pt with
  | error e => simp
  | ok res =>
    simp only [ok_bind,Except.ok.injEq,exists_eq',iff_true]
    cases res with
    | none => exact ⟨_,rfl⟩
    | some request =>
      simp only
      split
      · exact ⟨_,rfl⟩
      · split
        · exact ⟨_,rfl⟩
        · exact sendWithContext_returns _ _ _ _

def LinkAccepts (P : Platform) (n : Node) (a : Nat) (packet : Packet) : Prop :=
  ∀ l token, n.link? a = some l → l.status = .active → l.token = some token →
    packet.packetType = .data → ∃ pt, token.Opens P packet.data pt ∧
      (pt ≠ [] → packet.context = Context.request → ¬ MsgPack.RequestWraps P.sizeBits pt)

theorem onInbound_returns {n : Node} {a : Nat} {packet : Packet} :
    (∃ u, n.onInbound P env a packet = .ok u) ↔ n.LinkAccepts P a packet := by
  unfold onInbound LinkAccepts
  cases hl : n.link? a with
  | none => simp
  | some l =>
    simp only [Option.some.injEq]
    split
    · rename_i token hs ht
      by_cases hd : packet.packetType = .data
      · cases hdec : token.decrypt P packet.data with
        | error e =>
          have hnot : ∀ pt, ¬ token.Opens P packet.data pt := fun pt h => by
            rw [Token.decrypt_iff.mpr h] at hdec; cases hdec
          simp [hd,hs,ht,hnot]
        | ok pt =>
          have hopen := Token.decrypt_iff.mp hdec
          have huniq : ∀ pt', token.Opens P packet.data pt' → pt' = pt := fun pt' h => by
            rw [Token.decrypt_iff.mpr h] at hdec; cases hdec; rfl
          have hright : (∀ l' token', l = l' → l'.status = .active → l'.token = some token' →
              packet.packetType = .data → ∃ pt, token'.Opens P packet.data pt ∧
                (pt ≠ [] → packet.context = Context.request →
                  ¬ MsgPack.RequestWraps P.sizeBits pt)) ↔
              (pt ≠ [] → packet.context = Context.request →
                ¬ MsgPack.RequestWraps P.sizeBits pt) := by
            constructor
            · intro h
              obtain ⟨pt',hpt,hrest⟩ := h l token rfl hs ht hd
              exact huniq pt' hpt ▸ hrest
            · rintro h l' token' rfl - ht' -
              rw [ht] at ht'; cases ht'
              exact ⟨pt,hopen,h⟩
          rw [hright]
          simp only [hd,not_true_eq_false,ne_eq,if_false,ok_bind,List.isEmpty_iff]
          by_cases hempty : pt = []
          · simp [hempty]
          simp only [hempty,if_false,not_false_eq_true,forall_const]
          by_cases hctx : packet.context = Context.request
          · simp only [hctx,if_true,forall_const]
            exact handleRequest_returns
          · simp only [hctx,if_false,false_implies,iff_true]
            split <;> exact ⟨_,rfl⟩
      · simp [hd]
    · rename_i hno
      refine ⟨fun _ l' token hl' hs ht _ => ?_,fun _ => ⟨_,rfl⟩⟩
      subst hl'
      exact absurd ht (hno token hs)

/-- What a node needs of a frame, path by path: keys on the identities it will use, a
token its link can open, and no length that wraps in a request. -/
def Accepts (P : Platform) (n : Node) (packet : Packet) : Prop :=
  match packet.packetType with
  | .announce => True
  | .linkRequest => ∀ owner, n.destinations.lookup packet.destinationHash = some owner →
      n.onLinkRequest = some .validateRequest →
      packet.data.length = 64 ∨ packet.data.length = 67 →
      ∃ id, owner.identity = some id ∧ id.sigPrv.isSome
  | .proof => packet.context = Context.lrproof →
      ∀ a l, n.links.lookup packet.destinationHash = some a → n.link? a = some l →
        l.status = .handshake → l.initiator = true →
        packet.data.length = 96 ∨ packet.data.length = 99 → l.destination.identity.isSome
  | .data =>
    match n.destinations.lookup packet.destinationHash with
    | some d => d.type = .single → ∀ id, d.identity = some id → id.prv.isSome
    | none => ∀ a, n.links.lookup packet.destinationHash = some a → n.LinkAccepts P a packet

end Node

theorem inbound_returns_iff (P : Platform) (env : Env) (n : Node) (raw : Bytes)
    (iface : Option Nat) : (∃ u, n.inbound P env raw iface = .ok u) ↔
      ∀ packet, Packet.unpack P raw = some packet → n.Accepts P packet := by
  unfold Node.inbound
  cases hp : Packet.unpack P raw with
  | none => simp
  | some pkt =>
    simp only [Option.some.injEq,forall_eq']
    unfold Node.Accepts
    cases ht : pkt.packetType with
    | announce => simp [Node.processAnnounce_eq]
    | linkRequest =>
      simp only
      have hd' : (n.note (.rx raw iface)).destinations = n.destinations := rfl
      have hh' : (n.note (.rx raw iface)).onLinkRequest = n.onLinkRequest := rfl
      rw [hd',hh']
      cases hd : n.destinations.lookup pkt.destinationHash with
      | none => simp
      | some owner =>
        cases hh : n.onLinkRequest with
        | none => simp
        | some handler =>
          have hret : ∀ x : Except Fault (Option Nat × Node),
              (∃ u, (x >>= fun y => .ok (y.2.storeLink y.1)) = .ok u) ↔ ∃ y, x = .ok y := by
            rintro (e | y) <;> simp
          simp only [Option.some.injEq,forall_eq']
          refine (hret _).trans ?_
          cases handler with
          | validateRequest =>
            simp only [Node.linkRequest,forall_const]
            exact Node.validateRequest_returns
          | user k => simp [Node.linkRequest]
    | proof =>
      simp only
      by_cases hctx : pkt.context = Context.lrproof
      · simp only [hctx,if_true,forall_const]
        have hl' : (n.note (.rx raw iface)).links = n.links := rfl
        rw [hl']
        cases ha : n.links.lookup pkt.destinationHash with
        | none => simp
        | some a =>
          simp only [Option.some.injEq]
          rw [Node.onProof_returns]
          exact ⟨fun h b l hb hl => h l (hb ▸ hl),fun h l => h a l rfl⟩
      · simp [hctx]
    | data =>
      simp only
      have hd' : (n.note (.rx raw iface)).destinations = n.destinations := rfl
      have hl' : (n.note (.rx raw iface)).links = n.links := rfl
      rw [hd',hl']
      cases n.destinations.lookup pkt.destinationHash with
      | some d =>
        simp only
        rw [← Destination.decrypt_returns (c := pkt.data)]
        cases d.decrypt P pkt.data with
        | error e => simp
        | ok pt =>
          simp only [ok_bind,Except.ok.injEq,exists_eq',iff_true]
          split <;> exact ⟨_,rfl⟩
      | none =>
        simp only
        cases n.links.lookup pkt.destinationHash with
        | none =>
          simp only [reduceCtorEq,false_implies,forall_const,iff_true]
          split <;> exact ⟨_,rfl⟩
        | some a =>
          simp only [Option.some.injEq,forall_eq']
          exact Node.onInbound_returns

/-- Frames received one after another; what happens in the call-outs of each is given by
its environment. -/
def Node.receiveAll (P : Platform) : List (Env × Bytes × Option Nat) → Node → Except Fault Node
  | [], n => .ok n
  | (env,raw,iface) :: fs, n => do
    let n ← n.inbound P env raw iface
    n.receiveAll P fs

def Node.AcceptsAll (P : Platform) : List (Env × Bytes × Option Nat) → Node → Prop
  | [], _ => True
  | (env,raw,iface) :: fs, n =>
    (∀ packet, Packet.unpack P raw = some packet → n.Accepts P packet) ∧
      ∀ u, n.inbound P env raw iface = .ok u → u.AcceptsAll P fs

/-- From any state, a sequence of frames is handled to the end if and only if each of
them is accepted where it arrives. -/
theorem receiveAll_returns_iff (P : Platform) (fs : List (Env × Bytes × Option Nat)) (n : Node) :
    (∃ u, n.receiveAll P fs = .ok u) ↔ n.AcceptsAll P fs := by
  induction fs generalizing n with
  | nil => simp [Node.receiveAll,Node.AcceptsAll]
  | cons f fs ih =>
    obtain ⟨env,raw,iface⟩ := f
    simp only [Node.receiveAll,Node.AcceptsAll,← inbound_returns_iff P env n raw iface]
    cases n.inbound P env raw iface with
    | error e => simp
    | ok u => simp [ih]

end

def faultOf (x : Except Fault Node) : Option Fault :=
  match x with
  | .ok _ => none
  | .error e => some e

theorem eq_error_of_faultOf {x : Except Fault Node} {e : Fault} (h : faultOf x = some e) :
    x = .error e := by
  cases x with
  | ok _ => cases h
  | error _ => cases h; rfl

/-- One short frame to an established link, from anyone who has seen its id, throws out
of `inbound`: `Identity::decrypt` catches what `Link::on_inbound` does not. -/
theorem inbound_throws : ∃ n raw, Reachable Sample.platform n ∧
    n.onLinkRequest = some .validateRequest ∧ n.inbound Sample.platform quiet raw none =
      .error (.invalidArgument "Cannot decrypt token of only 0 bytes") := by
  obtain ⟨n,hn,hq⟩ := reachable_of_endsIn Sample.platform
    (Sample.responder ++ [.inbound (Sample.requestFrame 0) (some 0)]) (Sample.rng 3)
    (fun n => n.onLinkRequest = some .validateRequest ∧
      faultOf (n.inbound Sample.platform quiet
        (linkFrame .data Sample.linkId Context.none []) none) =
          some (.invalidArgument "Cannot decrypt token of only 0 bytes"))
    (by decide +kernel)
  obtain ⟨hh,hf⟩ := of_decide_eq_true hq
  exact ⟨n,_,hn,hh,eq_error_of_faultOf hf⟩

end RNS
