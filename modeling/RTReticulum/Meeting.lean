import RTReticulum.Delivery
import RTReticulum.Pages

/-! Two boards that find each other: the announce of the one, the link that the other asks for, and
its hello. -/
set_option autoImplicit false

namespace HeltecV3.Main
open RNS NomadnetNode

section
variable {P : Platform} {a : App}

theorem broadcast_sends {env : Env} (henv : ∀ i raw o m, (env (.sendOutgoing i raw o) m).2 = m)
    (n : Node) (raw : Bytes) (origin : Origin) {i : Nat} (hi : i ∈ n.interfaces) :
    .sendOutgoing i raw origin ∈ (n.broadcast env raw none origin).log := by
  rw [Node.broadcast_queued henv,Node.copies_all]
  exact List.mem_append_left _ (List.mem_reverse.mpr (List.mem_map.mpr ⟨i,hi,rfl⟩))

theorem onAnnounce_requests {dh : Bytes} {peer : Identity} {m : Node} (hdh : dh ≠ a.dest.hash)
    (hpeer : peer.hash ≠ a.identity.hash) (hout : outLink m = none) :
    ∃ d l r, Destination.ofName P 2 (some peer) .dirOut .single (text "rtreticulum")
        (some (text "heltec_v3")) m.rng = .ok (d,m.rng) ∧ l.Requested P d none none 0 ∧
      a.onAnnounce P dh peer m = ((m.newLink l r).registerLink m.linkHeap.length).broadcast quiet
        (l.requestFrame P) none (.request m.linkHeap.length) := by
  have hdot : Destination.dot ∉ text "rtreticulum" := by decide
  obtain ⟨d,hd⟩ : ∃ d, Destination.ofName P 2 (some peer) .dirOut .single (text "rtreticulum")
      (some (text "heltec_v3")) m.rng = .ok (d,m.rng) := by
    simp only [Destination.ofName,if_neg hdot,Destination.hashOf,Destination.nameHashOf_eq hdot,
      ok_bind]
    exact ⟨_,rfl⟩
  obtain ⟨l,r,hreq,hl⟩ := Link.request_ok (P := P) d none none 0 m.rng
  refine ⟨d,l,r,hd,hl,?_⟩
  unfold App.onAnnounce
  rw [if_neg hdh,if_neg hpeer,hout]
  simp only [Option.isSome_none,Bool.false_eq_true,if_false,hd,Node.request,hreq,ok_bind,
    pure_eq_ok]

theorem announce_answered {m : Node} (hm : m.onAnnounce = some 0) {raw : Bytes} {packet : Packet}
    (hp : Packet.unpack P raw = some packet) (ht : packet.packetType = .announce)
    {ann : Announce} (hann : ann.Genuine P packet) (hnew : packet.packetHash ∉ m.seenAnnounces)
    (hdest : packet.destinationHash ≠ a.dest.hash) (hpeer : ann.identity.hash ≠ a.identity.hash)
    (hout : outLink m = none) (iface : Option Nat) :
    ∃ d l u, Destination.ofName P 2 (some ann.identity) .dirOut .single (text "rtreticulum")
        (some (text "heltec_v3")) m.rng = .ok (d,m.rng) ∧ l.Requested P d none none 0 ∧
      m.inbound P (a.env P) raw iface = .ok u ∧ u.Awaits m.linkHeap.length l l ∧
      ∀ j ∈ m.interfaces,
        .sendOutgoing j (l.requestFrame P) (.request m.linkHeap.length) ∈ u.log := by
  let heard := ((m.note (.rx raw iface)).believe packet ann iface).note
    (.announce 0 packet.destinationHash ann.identity ann.appData packet)
  obtain ⟨d,l,r,hd,hl,hask⟩ := onAnnounce_requests (P := P) (m := heard) hdest hpeer hout
  let asked := (heard.newLink l r).registerLink m.linkHeap.length
  have hlink : (heard.newLink l r).link? m.linkHeap.length = some l := by
    rw [Node.link?_newLink]
    exact if_pos rfl
  have hifaces : asked.interfaces = m.interfaces :=
    (Node.registerLink_interfaces _ _).trans rfl
  have hasked : asked.Awaits m.linkHeap.length l l :=
    ⟨by rw [Node.link?_registerLink,hlink],.refl l,hl.status,Node.registerLink_lookup hlink⟩
  have htell : ((m.note (.rx raw iface)).believe packet ann iface).tellAnnounce (a.env P) packet
      ann = asked.broadcast quiet (l.requestFrame P) none (.request m.linkHeap.length) := by
    have hcb : ((m.note (.rx raw iface)).believe packet ann iface).onAnnounce = some 0 := hm
    simp only [Node.tellAnnounce,hcb]
    exact hask
  have hsent (j : Nat) (hj : j ∈ m.interfaces) := broadcast_sends quiet_queues asked
    (l.requestFrame P) (.request m.linkHeap.length) (hifaces ▸ hj)
  have hqueued := Node.broadcast_queued quiet_queues asked (l.requestFrame P) none
    (.request m.linkHeap.length)
  have hin := inbound_announce hp ht hann hnew (a.env P) iface
  simp only [Node.relayAnnounce,htell] at hin
  split at hin
  · have hrelayed := Node.broadcast_queued (env_queues (P := P) a) ((asked.broadcast quiet
      (l.requestFrame P) none (.request m.linkHeap.length)).note (.relay packet))
      (withHops packet.raw packet.hops) iface (.announceRelay packet)
    refine ⟨d,l,_,hd,hl,hin,?_,fun j hj => ?_⟩
    · rw [hrelayed,hqueued]
      exact ⟨hasked.link,hasked.later,hasked.handshake,hasked.registered⟩
    · rw [hrelayed]
      exact List.mem_append_right _ (List.mem_cons_of_mem _ (hsent j hj))
  · refine ⟨d,l,_,hd,hl,hin,?_,hsent⟩
    rw [hqueued]
    exact ⟨hasked.link,hasked.later,hasked.handshake,hasked.registered⟩

theorem setPacketCallback_log (n : Node) (i : Nat) (cb : Option Nat) :
    (n.setPacketCallback i cb).log = n.log := by
  unfold Node.setPacketCallback
  split <;> rfl

theorem request_served {m : Node} {handler : Nat}
    (hm : m.onLinkRequest = some (.user handler)) {d out : Destination} {id : Identity}
    (hreg : m.destinations.lookup d.hash = some d) (hid : d.identity = some id)
    (hkeyed : id.Keyed P) (hlen : d.hash.length = 16) (houthash : out.hash = d.hash) {l : Link}
    (hl : l.Requested P out none none 0) {raw : Bytes}
    (hraw : Packet.Rewritten (l.requestFrame P) raw) (iface : Option Nat) :
    ∃ (rl : Link) (k : Ed25519PrivateKey) (v : Node), id.sigPrv = some k ∧ rl.Answers P l ∧
      m.inbound P (a.env P) raw iface = .ok v ∧ v.InSession m.linkHeap.length rl ∧
      ∀ j ∈ m.interfaces, .sendOutgoing j (linkFrame .proof rl.hash Context.lrproof
        (rl.proofData P id k (l.localMtu ≠ 0))) (.proof m.linkHeap.length) ∈ v.log := by
  obtain ⟨k,hk,-⟩ := hkeyed.sigPrv
  have hdest : l.destination.hash = d.hash := by rw [hl.destination,houthash]
  obtain ⟨packet,hunpack,hcar⟩ := unpack_requestFrame (by rw [hdest,hlen]) hraw
  have hsize := l.requestData_length (P := P)
  rw [← hcar.data] at hsize
  let told := (m.note (.rx raw iface)).note (.linkRequest handler d packet.data packet)
  let rl := Link.validating P d packet.data packet m.rng
  have hrl : rl.Validated P d packet.data packet :=
    Link.validating_validated d packet.data packet m.rng
  let made := (told.newLink rl (Link.create d false m.rng).2).registerLink m.linkHeap.length
  have hlink : made.link? m.linkHeap.length = some rl := by
    rw [Node.link?_registerLink,Node.link?_newLink]
    exact if_pos rfl
  have hifaces : made.interfaces = m.interfaces := (Node.registerLink_interfaces _ _).trans rfl
  let frame := linkFrame .proof rl.hash Context.lrproof (rl.proofData P id k (l.localMtu ≠ 0))
  let proved := made.broadcast quiet frame none (.proof m.linkHeap.length)
  have hproved : proved.InSession m.linkHeap.length rl := by
    refine ⟨rl,?_,hrl.status,rfl,rfl,rfl⟩
    rw [show proved = _ from Node.broadcast_queued quiet_queues _ _ _ _]
    exact hlink
  -- The handler of `app_main` sets a packet callback on top.
  let answered := if handler = appHandler then proved.setPacketCallback m.linkHeap.length (some 0)
    else proved
  have hanswered : answered.InSession m.linkHeap.length rl ∧ answered.log = proved.log := by
    by_cases happ : handler = appHandler
    · have hruns : Runs P (fun _ _ => True) proved (proved.setPacketCallback m.linkHeap.length
          (some 0)) := runs_single (o := .setLinkPacketCallback m.linkHeap.length (some 0))
        (quiet_wellbehaved P _) trivial rfl
      rw [show answered = _ from if_pos happ]
      exact ⟨hproved.later hruns.linksLater,setPacketCallback_log _ _ _⟩
    · rw [show answered = _ from if_neg happ]
      exact ⟨hproved,rfl⟩
  refine ⟨rl,k,answered.registerLink m.linkHeap.length,hk,hrl.answers hl.hash hcar,?_,
    hanswered.1.later (.of_link? fun _ => Node.link?_registerLink _ _ _),fun j hj => ?_⟩
  · have hd' : (m.note (.rx raw iface)).destinations.lookup packet.destinationHash = some d := by
      rw [hcar.destinationHash,hdest]
      exact hreg
    have hm' : (m.note (.rx raw iface)).onLinkRequest = some (.user handler) := hm
    have hvalid : told.validateRequest P quiet d packet.data packet =
        .ok (some m.linkHeap.length,proved) := by
      have hhas : decide (packet.data.length = 67) = decide (l.localMtu ≠ 0) := by
        rw [hcar.data]
        simp only [l.requestData_length_iff]
      simp only [Node.validateRequest,Link.validateRequest_eq hsize,hid,hk,ok_bind,pure_eq_ok,hhas]
      rfl
    have hcall : (m.note (.rx raw iface)).callOut (a.env P) (.linkRequest handler d packet.data
        packet) = (⟨[],some m.linkHeap.length⟩,answered) := by
      show App.onLinkRequest P handler d packet.data packet told = _
      rw [App.onLinkRequest,hvalid]
    have ht := hcar.packetType.trans (Packet.packFlags_packetType _ _)
    simp only [Node.inbound,hunpack,ht,hd',hm',Node.linkRequest,hcall,ok_bind,pure_eq_ok]
    rfl
  · rw [Node.registerLink_log,hanswered.2]
    exact broadcast_sends quiet_queues made frame (.proof m.linkHeap.length) (hifaces ▸ hj)

theorem opens_agreed {k l : Link} (hk : k.Keyed) (hl : l.Keyed)
    (hkey : k.sharedSessionKey = l.sharedSessionKey) {c pt : Bytes} (h : l.Opens P c pt) :
    k.Opens P c pt := by
  obtain ⟨hlen,htoken⟩ := hk
  obtain ⟨hlen',htoken'⟩ := hl
  obtain ⟨token,ht,hopens⟩ := h
  cases htoken'.symm.trans ht
  refine ⟨_,htoken,?_⟩
  simp only [hkey]
  exact hopens

theorem hello_sent (hc : P.CbcInverts) {b : Board} {i : Nat} {l : Link}
    (hout : outLink b.node = some i) (hl : b.node.link? i = some l) (hs : l.status = .active)
    (hk : l.Keyed) : (a.hello P b).helloSent = true := by
  obtain ⟨c,r,-,hsend⟩ := sendWithContext_eq hc hl hs hk (helloText a) Context.none
  have hfound : ((outLink b.node).bind fun i => (b.node.link? i).map fun l => (i,l)) =
      some (i,l) := by
    rw [hout]
    simp [hl]
  unfold App.hello
  rw [hfound]
  dsimp only
  split
  · simp only [Node.send,hsend]
  · rename_i hready
    simpa [hs] using hready

/-- Whatever a peer announces, and whichever copy of it a board hears first, it asks for a link to
the destination of `app_main`, as long as it has asked for none. -/
theorem announce_requests (hv : P.VerifiesOwn) {b : App} {ida idb : Identity} {tcp : Bool}
    {readings : List Event → Readings} {impl : Nat → InterfaceImpl} {r r₀ r₁ r₀' r₁' : Rng}
    {m : Node} (hb : boot P idb tcp readings impl r = .ok (b,m)) (hkeyed : ida.Keyed P)
    (hne : ida.hash ≠ idb.hash) {dest : Destination} (hdest : Destination.ofName P 0 (some ida)
      .dirIn .single (text "rtreticulum") (some (text "heltec_v3")) r₀ = .ok (dest,r₁))
    {obj : Nat} {name : Bytes} {aspects : Option Bytes} {d : Destination}
    (hd : Destination.ofName P obj (some ida) .dirIn .single name aspects r₀' = .ok (d,r₁'))
    (hforeign : d.hash ≠ b.dest.hash) {app : Bytes} (happ : app.length ≤ 316) (rng : Rng) :
    ∃ frame rng', announceFrame P d app rng = .ok (frame,rng') ∧
      ∀ raw, Packet.Rewritten frame raw → ∃ packet, Packet.unpack P raw = some packet ∧
      ∀ B, b.Run P m B → outLink B.node = none → packet.packetHash ∉ B.node.seenAnnounces →
      ∀ iface, ∃ (out : Destination) (peer : Identity) (l : Link) (u : Node),
        l.Requested P out none none 0 ∧ out.hash = dest.hash ∧ out.identity = some peer ∧
        peer.Holds P ida.getPublicKey ∧ B.node.inbound P (b.env P) raw iface = .ok u ∧
        u.Awaits B.node.linkHeap.length l l ∧ ∀ j ∈ B.node.interfaces,
          .sendOutgoing j (l.requestFrame P) (.request B.node.linkHeap.length) ∈ u.log := by
  obtain ⟨hm,-⟩ := boot_started hb
  obtain ⟨htype,hdir,hid,hnh,hhash⟩ := Destination.ofName_supplied hd
  obtain ⟨data,rng',ann,hframe,-,hkey,-,hgen⟩ :=
    Announce.announceFrame_genuine hv htype hdir hid hkeyed hnh hhash happ rng
  refine ⟨_,rng',hframe,fun raw hraw => ?_⟩
  rw [Packet.frame_cons] at hraw
  obtain ⟨header,hunpack,hcar⟩ := Packet.Rewritten.unpack (P := P) rfl (by rw [hhash]; simp) hraw
  have hgenuine := hgen _ hcar.destinationHash hcar.data
  have hholds : ann.identity.Holds P ida.getPublicKey := by
    have hpk : (Announce.ofData P (Packet.parsed P header raw).data).publicKey =
      ida.getPublicKey := by rw [← hgenuine.fields,hkey]
    rw [hgenuine.fields,← hpk]
    exact Identity.loadPublicKey_holds _ _
  have hpeer : ann.identity.hash = ida.hash := by rw [hholds.hash,hkeyed.hash]
  refine ⟨_,hunpack,fun B hB hout hnew iface => ?_⟩
  obtain ⟨out,l,u,hofName,hl,hin,hawaits,hsent⟩ := announce_answered (a := b) (P := P)
    (run_installed hb hB).onAnnounce hunpack (hcar.packetType.trans rfl) hgenuine hnew
    (by rw [hcar.destinationHash]; exact hforeign) (by rw [hpeer,hm.identity]; exact hne) hout iface
  obtain ⟨-,-,houtid,-,houthash⟩ := Destination.ofName_supplied hofName
  obtain ⟨-,-,-,-,hdesthash⟩ := Destination.ofName_supplied hdest
  have hname : out.nameHash = dest.nameHash :=
    (Destination.ofName_eq hofName).2.2.1.trans (Destination.ofName_eq hdest).2.2.1.symm
  exact ⟨out,ann.identity,l,u,hl,by rw [houthash,hname,hpeer,hdesthash],houtid,hholds,hin,hawaits,
    hsent⟩

/-- The proof makes the session, and whatever comes in between, the hello goes out in it. -/
theorem proof_greets (hx : P.ExchangeCommutes) (hv : P.VerifiesOwn) (hc : P.CbcInverts) {b : App}
    {idb : Identity} {tcp : Bool} {readings : List Event → Readings} {impl : Nat → InterfaceImpl}
    {r : Rng} {m : Node} (hb : boot P idb tcp readings impl r = .ok (b,m)) {out : Destination}
    {id peer : Identity} {l rl : Link} {k : Ed25519PrivateKey} (hl : l.Requested P out none none 0)
    (hout : out.identity = some peer) (hpeer : peer.Holds P id.getPublicKey) (hkeyed : id.Keyed P)
    (hk : id.sigPrv = some k) (hr : rl.Answers P l) {raw : Bytes}
    (hraw : Packet.Rewritten (linkFrame .proof rl.hash Context.lrproof
      (rl.proofData P id k (l.localMtu ≠ 0))) raw) {B : Board} (hB : b.Run P m B) {i : Nat}
    {l' : Link} (hB' : B.node.Awaits i l l') (iface : Option Nat) :
    ∃ w, B.node.inbound P (b.env P) raw iface = .ok w ∧
      ∀ B', Relation.ReflTransGen (App.Step P b) { B with node := w } B' →
      ∃ c, (∀ j ∈ B'.node.interfaces, .sendOutgoing j (linkFrame .data l.hash Context.none c)
          (.link i) ∈ (b.hello P B').node.log) ∧
        ∀ k' : Link, k'.Keyed → k'.sharedSessionKey = rl.sharedSessionKey →
          k'.Opens P c (helloText b) := by
  obtain ⟨w,hin,hw⟩ : ∃ w, B.node.inbound P (b.env P) raw iface = .ok w ∧ w.InSession i rl := by
    obtain ⟨u,packet,hu,-,hsome,hnone⟩ := proof_accepted hx hv hl hout hpeer hkeyed hk hr hraw hB'
      (b.env P) iface
    cases hcb : l'.onEstablished with
    | none => exact ⟨u,hnone hcb,hu⟩
    | some cb => exact ⟨_,hsome cb hcb,hu.later (.of_link? fun _ => rfl)⟩
  refine ⟨w,hin,fun B' hlater => ?_⟩
  have hrun : b.Run P m B' := (hB.tail (.inbound hin)).trans hlater
  obtain ⟨hkept,htx⟩ := run_kept hc (boot_kept hb) hrun
  obtain ⟨l₁,hl₁,hlater₁⟩ := (steps_runs (hlater.head (.inbound hin))).linksLater i l' hB'.link
  obtain ⟨l₁',hl₁',hactive,hagrees⟩ := hw.later (steps_runs hlater).linksLater
  cases hl₁.symm.trans hl₁'
  have hsound := (board_reachable hb hrun).linksSound
  have hinit : l₁.initiator = true :=
    hlater₁.initiator.trans (hB'.later.initiator.trans hl.initiator)
  -- The hello is due, or it is on its way already.
  have hsent := hello_sent (a := b) hc (hkept.outbound hl₁ hinit).1 hl₁ hactive
    (hsound.keyed hl₁ hactive)
  obtain ⟨hkept',-⟩ := hello_kept (a := b) hc hkept htx
  obtain ⟨j,l₂,c,hj,hl₂,hactive₂,hopens,hgreeted⟩ := hkept'.greeted hsent
  obtain ⟨l₃,hl₃,hlater₃⟩ := (hello_runs (P := P) (a := b) B').linksLater i l₁ hl₁
  cases (hkept'.outbound hl₃ (hlater₃.initiator.trans hinit)).1.symm.trans hj
  cases hl₃.symm.trans hl₂
  have hhash : l₂.hash = l.hash := hlater₃.hash.trans (hlater₁.hash.trans hB'.later.hash)
  rw [hhash,← hkept.interfaces] at hgreeted
  refine ⟨c,hgreeted,fun k' hk' hkey => ?_⟩
  have hsound' := (hello_runs (P := P) (a := b) B').linksSound hsound
  exact opens_agreed hk' (hsound'.keyed hl₂ hactive₂)
    (hkey.trans (hagrees.later hactive hlater₃).key.symm) hopens

theorem App.destinations_lookup (hown : a.dest.hash ≠ a.gDest.hash) (p : Phase) :
    (a.destinations p).lookup a.dest.hash = some a.dest := by
  cases p with
  | registerDestination => exact Finmap.lookup_insert _
  | _ => exact (Finmap.lookup_insert_of_ne _ hown).trans (Finmap.lookup_insert _)

/-- Two boards that find each other. The one that hears an announce of the other asks for a link on
every interface; the other answers with a proof on every interface; and when the proof arrives while
the link still waits for it, the hello goes out on every interface and opens at the other end.
Relays may rewrite every frame, and in between both boards run on. -/
theorem boards_meet (hx : P.ExchangeCommutes) (hv : P.VerifiesOwn) (hc : P.CbcInverts)
    {a b : App} {ida idb : Identity} {tcp tcp' : Bool} {readings readings' : List Event → Readings}
    {impl impl' : Nat → InterfaceImpl} {r r' : Rng} {n m : Node}
    (ha : boot P ida tcp readings impl r = .ok (a,n))
    (hb : boot P idb tcp' readings' impl' r' = .ok (b,m)) (hkeyed : ida.Keyed P)
    (hne : ida.hash ≠ idb.hash) (hown : a.dest.hash ≠ a.gDest.hash) {d : Destination}
    (hd : d = a.dest ∨ d = a.gDest) (hforeign : d.hash ≠ b.dest.hash) {app : Bytes}
    (happ : app.length ≤ 316) (rng : Rng) :
    ∃ frame rng', announceFrame P d app rng = .ok (frame,rng') ∧
      ∀ raw, Packet.Rewritten frame raw → ∃ packet, Packet.unpack P raw = some packet ∧
      ∀ B, b.Run P m B → outLink B.node = none → packet.packetHash ∉ B.node.seenAnnounces →
      ∀ iface, ∃ (l : Link) (u : Node), B.node.inbound P (b.env P) raw iface = .ok u ∧
        u.Awaits B.node.linkHeap.length l l ∧
        (∀ j ∈ B.node.interfaces,
          .sendOutgoing j (l.requestFrame P) (.request B.node.linkHeap.length) ∈ u.log) ∧
        ∀ raw', Packet.Rewritten (l.requestFrame P) raw' → ∀ A, a.Run P n A → ∀ iface',
        ∃ (proof : Bytes) (v : Node), A.node.inbound P (a.env P) raw' iface' = .ok v ∧
          (∀ j ∈ A.node.interfaces, .sendOutgoing j proof (.proof A.node.linkHeap.length) ∈ v.log) ∧
          ∀ raw'', Packet.Rewritten proof raw'' → ∀ (B' : Board) (l' : Link),
          Relation.ReflTransGen (App.Step P b) { B with node := u } B' →
          B'.node.Awaits B.node.linkHeap.length l l' → ∀ iface'',
          ∃ w, B'.node.inbound P (b.env P) raw'' iface'' = .ok w ∧
            ∀ B'', Relation.ReflTransGen (App.Step P b) { B' with node := w } B'' →
            ∃ c, (∀ j ∈ B''.node.interfaces, .sendOutgoing j (linkFrame .data l.hash Context.none c)
                (.link B.node.linkHeap.length) ∈ (b.hello P B'').node.log) ∧
              ∀ A', Relation.ReflTransGen (App.Step P a) { A with node := v } A' →
              ∃ k, A'.node.link? A.node.linkHeap.length = some k ∧ k.status = .active ∧
                k.hash = l.hash ∧ k.Opens P c (helloText b) := by
  obtain ⟨hn,-⟩ := boot_started ha
  obtain ⟨r₀,r₁,hdest⟩ := hn.dest
  obtain ⟨-,-,hid,-,hhash⟩ := Destination.ofName_supplied hdest
  obtain ⟨obj,name,aspects,r₀'',r₁'',hmade⟩ : ∃ obj name aspects r₀ r₁, Destination.ofName P obj
      (some ida) .dirIn .single name aspects r₀ = .ok (d,r₁) := by
    rcases hd with rfl | rfl
    · exact ⟨_,_,_,_,_,hdest⟩
    · obtain ⟨r₀',r₁',hgDest⟩ := hn.gDest
      exact ⟨_,_,_,_,_,hgDest⟩
  obtain ⟨frame,rng',hframe,hheard⟩ := announce_requests hv hb hkeyed hne hdest hmade hforeign happ
    rng
  refine ⟨frame,rng',hframe,fun raw hraw => ?_⟩
  obtain ⟨packet,hp,hasks⟩ := hheard raw hraw
  refine ⟨packet,hp,fun B hB hout hnew iface => ?_⟩
  obtain ⟨out,peer,l,u,hl,houthash,hpeer,hholds,hin,hawaits,hsent⟩ := hasks B hB hout hnew iface
  refine ⟨l,u,hin,hawaits,hsent,fun raw' hraw' A hA iface' => ?_⟩
  have hA' := run_installed ha hA
  have hlookup : A.node.destinations.lookup a.dest.hash = some a.dest := by
    rw [hA'.destinations]
    exact App.destinations_lookup hown A.phase
  obtain ⟨rl,k,v,hk,hanswers,hin',hsession,hproof⟩ := request_served (a := a) hA'.handler hlookup
    hid hkeyed (by rw [hhash]; simp) houthash hl hraw' iface'
  refine ⟨_,v,hin',hproof,fun raw'' hraw'' B' l' hlater hB' iface'' => ?_⟩
  obtain ⟨w,hin'',hgreets⟩ := proof_greets hx hv hc hb hl hpeer hholds hkeyed hk hanswers hraw''
    ((hB.tail (.inbound hin)).trans hlater) hB' iface''
  refine ⟨w,hin'',fun B'' hlater' => ?_⟩
  obtain ⟨c,hgreeted,hopens⟩ := hgreets B'' hlater'
  refine ⟨c,hgreeted,fun A' hA' => ?_⟩
  obtain ⟨k',hk',hactive,hagrees⟩ := hsession.later (steps_runs hA').linksLater
  have hsound := (board_reachable ha ((hA.tail (.inbound hin')).trans hA')).linksSound
  exact ⟨k',hk',hactive,hagrees.hash.trans hanswers.hash,
    hopens k' (hsound.keyed hk' hactive) hagrees.key⟩

end

theorem exists_strangers : ∃ (a b : App) (n m : Node) (B : Board),
    Sample.booted 9 8 = .ok (a,n) ∧ Sample.booted 7 6 = .ok (b,m) ∧
    b.Run Sample.platform m B ∧ B.phase = .hello ∧ (Sample.identity 9).Keyed Sample.platform ∧
    (Sample.identity 9).hash ≠ (Sample.identity 7).hash ∧ a.dest.hash ≠ a.gDest.hash ∧
    a.dest.hash ≠ b.dest.hash ∧ n.linkHeap = [] ∧ B.node.linkHeap = [] ∧
    B.node.seenAnnounces = ∅ := by
  obtain ⟨⟨a,n⟩,ha,hq⟩ := ok_of_any (x := Sample.booted 9 8)
    (q := fun x : App × Node => (Sample.booted 7 6).toOption.any fun y : App × Node =>
        (y.1.turns Sample.platform [none,none,none,none] (Board.start y.2)).any fun B : Board =>
        decide ((Sample.identity 9).hash ≠ (Sample.identity 7).hash ∧
          x.1.dest.hash ≠ x.1.gDest.hash ∧ x.1.dest.hash ≠ y.1.dest.hash) &&
        decide (B.phase = .hello ∧ B.node.linkHeap.isEmpty ∧ B.node.seenAnnounces = ∅))
      (by decide +kernel)
  obtain ⟨⟨b,m⟩,hb,hq⟩ := ok_of_any hq
  obtain ⟨B,hB,hq⟩ := (Option.any_eq_true _ _).mp hq
  obtain ⟨hq,hq'⟩ := (Bool.and_eq_true _ _).mp hq
  obtain ⟨hne,hown,hforeign⟩ := of_decide_eq_true hq
  obtain ⟨hphase,hlinks,hseen⟩ := of_decide_eq_true hq'
  exact ⟨a,b,n,m,B,ha,hb,turns_run hB,hphase,Identity.createKeys_keyed _ _,hne,hown,hforeign,
    (boot_started ha).1.linkHeap,List.isEmpty_iff.mp hlinks,hseen⟩

theorem boards_meet_strangers : ∃ (a b : App) (n m : Node) (A B : Board) (k : Link) (c : Bytes),
    a.Run Sample.platform n A ∧ A.phase = .registerDestination ∧ b.Run Sample.platform m B ∧
    A.node.link? 0 = some k ∧ k.status = .active ∧
    .sendOutgoing 0 (linkFrame .data k.hash Context.none c) (.link 0) ∈ B.node.log ∧
    k.Opens Sample.platform c (helloText b) := by
  obtain ⟨a,b,n,m,B,ha,hb,hB,hphase,hkeyed,hne,hown,hforeign,hn,hlinks,hseen⟩ :=
    exists_strangers
  obtain ⟨frame,rng',-,hheard⟩ := boards_meet Sample.exchangeCommutes Sample.verifiesOwn
    Sample.cbcInverts ha hb hkeyed hne hown (.inl rfl) hforeign
    (show (text "hello from heltec v3").length ≤ 316 by decide) (Sample.rng 4)
  obtain ⟨packet,-,hasks⟩ := hheard frame (.same _)
  have hout : outLink B.node = none := by rw [outLink,hlinks,List.findIdx?_nil]
  obtain ⟨l,u,hinu,hawaits,-,hanswers⟩ := hasks B hB hout
    (by rw [hseen]; exact Finset.notMem_empty _) (some 0)
  obtain ⟨proof,v,hinv,-,hproves⟩ := hanswers _ (.hops _ _ 1 _) (Board.start n) .refl (some 0)
  obtain ⟨w,hinw,hgreets⟩ := hproves proof (.same _) _ l .refl hawaits (some 0)
  obtain ⟨c,hsent,hopens⟩ := hgreets _ .refl
  obtain ⟨k,hk,hactive,hhash,hopens⟩ := hopens _ .refl
  have hrun : b.Run Sample.platform m { B with node := w } :=
    (hB.tail (.inbound hinu)).tail (.inbound hinw)
  have hifaces : w.interfaces = [0] :=
    (run_kept Sample.cbcInverts (boot_kept hb) hrun).1.interfaces
  have hnone : (Board.start n).node.linkHeap = [] := hn
  simp only [hnone,hlinks,List.length_nil] at hk hsent
  rw [← hhash] at hsent
  exact ⟨a,b,n,m,_,_,k,c,.single (.inbound hinv),rfl,hrun.tail (.hello hphase),hk,hactive,
    hsent 0 (by rw [hifaces]; exact List.mem_singleton_self 0),hopens⟩

end HeltecV3.Main
