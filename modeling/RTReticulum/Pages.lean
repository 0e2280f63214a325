import RTReticulum.Handlers

/-! The page that the firmware serves over a link. -/
set_option autoImplicit false

namespace HeltecV3.Main
open RNS NomadnetNode

section
variable {P : Platform} {a : App}

theorem fillPage_text_ne (r : Readings) (impl : Nat → InterfaceImpl) (gDest : Destination)
    (node : Node) :
    (((fillPage r impl gDest node).calls.map Call.text).flatten).take 2047 ≠ [] := by
  have hfooter : text "-\n\nServed live by RTReticulum on ESP32-S3\n" ≠ [] := by decide +kernel
  rw [fillPage_eq,Page.snprintf_calls]
  simp [hfooter]

theorem Phase.pages_eq {p : Phase} (hdest : p ≠ .registerDestination)
    (hpage : p ≠ .registerRequestHandler) : p.pages = [(indexPath,0)] := by
  cases p with
  | registerDestination => exact absurd rfl hdest
  | registerRequestHandler => exact absurd rfl hpage
  | _ => rfl

/-- Once the page is registered, one who holds the other end of a link to the page server asks for
it: whatever became of the board since the stack started, and whatever relays do to the frames,
the board answers on every interface, and the answer is read back as the page that it makes up at
that moment. This holds of a page whose offset stays in its buffer. -/
theorem page_served (hc : P.CbcInverts) (hP : 32 ≤ P.sizeBits) {identity : Identity} {tcp : Bool}
    {readings : List Event → Readings} {impl : Nat → InterfaceImpl} {r : Rng} {n : Node}
    (hboot : boot P identity tcp readings impl r = .ok (a,n)) {b : Board} (h : a.Run P n b)
    (hdest : b.phase ≠ .registerDestination) (hpage : b.phase ≠ .registerRequestHandler)
    {i : Nat} {k : Link} (hk : b.node.Up i k) (hobj : k.destination.obj = a.gDest.obj)
    {m : Node} {j : Nat} {l : Link} (hm : Reachable P m) (hl : m.Up j l) (hhash : l.hash = k.hash)
    (hkey : l.sharedSessionKey = k.sharedSessionKey) (requestedAt : UInt64) {data : Option Bytes}
    (hdata : ∀ d ∈ data, d.length < 2^32)
    (hsize : (MsgPack.packRequest requestedAt (truncatedHash P indexPath) data).length <
      2^P.sizeBits) :
    ∃ c r₁, (∀ env, ∃ u, m.sendWithContext P env j
        (MsgPack.packRequest requestedAt (truncatedHash P indexPath) data) Context.request = .ok u ∧
        { m with rng := r₁ }.CallsOut env (m.interfaces.map fun iface =>
          .sendOutgoing iface (linkFrame .data l.hash Context.request c) (.link j)) u) ∧
      ∀ raw, Packet.Rewritten (linkFrame .data l.hash Context.request c) raw → ∀ iface,
      ∃ packet, Packet.unpack P raw = some packet ∧
        let requestId := truncatedHash P packet.getHashablePart
        let asked := { b.node with
          log := .generate i 0 indexPath (data.getD []) requestId k.hash requestedAt ::
            .rx raw iface :: b.node.log }
        let page := fillPage (readings asked.log) impl a.gDest asked
        let text := ((page.calls.map Call.text).flatten).take 2047
        let response := MsgPack.packResponse requestId text
        Within page.calls → serveIndex (readings asked.log) impl a.gDest asked = text ∧
          text ≠ [] ∧ ∃ frame r₂, b.node.inbound P (a.env P) raw iface = .ok { asked with
            rng := r₂
            log := (b.node.interfaces.map fun iface =>
              .sendOutgoing iface frame (.link i)).reverse ++ asked.log } ∧
          ∀ (m' : Node) (j' : Nat) (l' : Link) (cb : Nat), Reachable P m' → m'.Up j' l' →
            l'.hash = k.hash → l'.sharedSessionKey = k.sharedSessionKey → l'.onPacket = some cb →
            ∀ raw', Packet.Rewritten frame raw' → ∀ env' iface', (∃ v,
                m'.inbound P env' raw' iface' = .ok v ∧
                { m' with log := .rx raw' iface' :: m'.log }.CallsOut env'
                  [.linkPacket cb response j'] v) ∧
              MsgPack.Value.Reads P.sizeBits (.array [.bin requestId,.bin text]) ⟨response,0⟩
                ⟨response,response.length⟩ := by
  have hb := board_reachable hboot h
  obtain ⟨hn,rfl,rfl⟩ := boot_started hboot
  obtain ⟨r₀,r₁,hgDest⟩ := hn.gDest
  obtain ⟨c,r₁,hopens,hsend⟩ := sendWithContext_eq hc hl.link hl.active
    (hm.linksSound.keyed hl.link hl.active)
    (MsgPack.packRequest requestedAt (truncatedHash P indexPath) data) Context.request
  refine ⟨c,r₁,fun env => ⟨_,hsend env,Node.broadcast_callsOut _ _ _ _⟩,fun raw hraw iface => ?_⟩
  obtain ⟨packet,hp,hcar⟩ := unpack_linkFrame (P := P) (hm.linksSound.hash hl.link) hraw
  refine ⟨packet,hp,?_⟩
  intro requestId asked page text response hwithin
  have htable : b.node.requestHandlers k.destination.obj =
      requestTable P ([] ++ (indexPath,0) :: []) := by
    rw [hobj,(ofName_rng hgDest).1,(run_installed hboot h).requestHandlers,
      Phase.pages_eq hdest hpage]
    rfl
  have hopened : k.Opens P packet.data
      (MsgPack.packRequest requestedAt (truncatedHash P indexPath) data) := by
    rw [hcar.data]
    exact hopens k (hb.linksSound.keyed hk.link hk.active) hkey.symm
  have hserved : b.node.Serves P i k raw packet 0 indexPath (data.getD []) requestedAt :=
    hk.serves hc hb.linksSound htable List.not_mem_nil (fun _ h => absurd h List.not_mem_nil) hp
      (hcar.packetType.trans (Packet.packFlags_packetType _ _))
      (hcar.destinationHash.trans hhash) hcar.context hdata hsize hopened
  have hserve : serveIndex (a.readings asked.log) a.impl a.gDest asked = text :=
    serveIndex_eq hwithin
  have hlen : text.length ≤ 2047 := List.length_take_le _ _
  have hid : requestId.length = 16 := truncatedHash_length P _
  have hpacked : response.length < 2^P.sizeBits := by
    have hidle := MsgPack.packBin_length_le requestId
    have htextle := MsgPack.packBin_length_le text
    have hresponse : response.length = 1 + (MsgPack.packBin requestId).length +
        (MsgPack.packBin text).length := by
      simp [response,MsgPack.packResponse,MsgPack.packArrayHeader]
      omega
    have hpow : 2^32 ≤ 2^P.sizeBits := Nat.pow_le_pow_right (by decide) hP
    omega
  have hcall : a.env P (.generate i 0 indexPath (data.getD []) requestId k.hash requestedAt)
      asked = (⟨text,none⟩,asked) := by
    rw [← hserve]
    rfl
  have hne : text ≠ [] := fillPage_text_ne (a.readings asked.log) a.impl a.gDest asked
  have hanswer := (hserved (a.env P) iface fun e m => (env_wellbehaved a e m).mono
    fun _ _ _ => trivial).2
  dsimp only at hanswer
  rw [hcall] at hanswer
  obtain ⟨frame,r₂,u,hin,hcalls,hreply⟩ := hanswer hne
  -- The interfaces only queue the answer.
  have hqueued : u = { asked with
      rng := r₂
      log := (b.node.interfaces.map fun iface =>
        .sendOutgoing iface frame (.link i)).reverse ++ asked.log } := by
    rw [hcalls.1,Node.calls_quiet]
    intro e he n
    obtain ⟨iface,-,rfl⟩ := List.mem_map.mp he
    exact env_queues a iface frame (.link i) n
  rw [hqueued] at hin
  refine ⟨hserve,hne,frame,r₂,hin,fun m' j' l' cb hm' hl' hhash' hkey' hcb raw' hraw' env' iface' =>
    ⟨?_,?_⟩⟩
  · exact hreply m' j' l' cb hm' hl' hhash' hkey' hcb raw' hraw' env' iface'
  · exact MsgPack.reads_packResponse (by omega) (by omega) hpacked

end

theorem exists_serving : ∃ (a : App) (n : Node) (b : Board) (m : Node) (l k : Link),
    Sample.booted 9 8 = .ok (a,n) ∧ a.Run Sample.platform n b ∧ b.phase = .hello ∧
    Reachable Sample.platform m ∧ b.node.Up 0 k ∧ m.Up 0 l ∧
    k.destination.obj = a.gDest.obj ∧ l.hash = k.hash ∧
    l.sharedSessionKey = k.sharedSessionKey ∧ l.onPacket = some 9 ∧
    b.node.pathsInOrder = [] ∧
    total (headTexts Sample.readings Sample.impl b.node) ≤ 2048 := by
  obtain ⟨⟨a,n⟩,hboot,hq⟩ := ok_of_any (x := Sample.booted 9 8)
    (q := fun x => endsIn Sample.platform (fun _ _ => true)
      [.registerInterface 0,.request { x.1.gDest with
        direction := .dirOut
        identity := some (.loadPublicKey Sample.platform .blank x.1.identity.getPublicKey) }
        none (some 9) 600] (Node.boot (Sample.rng 2)) fun m₁ =>
      (x.1.turns Sample.platform [none,none,none,none,some (lastSent m₁)]
        (Board.start x.2)).any fun b : Board =>
      (m₁.inbound Sample.platform quiet (lastSent b.node) (some 0)).toOption.any fun m₂ =>
      (m₂.link? 0).any fun l => (b.node.link? 0).any fun k =>
        decide (l.status = .active ∧ m₂.links.lookup l.hash = some 0 ∧
          (m₂.destinations.lookup l.hash).isNone ∧ l.onPacket = some 9 ∧ k.status = .active ∧
          b.node.links.lookup k.hash = some 0 ∧ (b.node.destinations.lookup k.hash).isNone) &&
        decide (b.phase = .hello ∧ k.destination.obj = x.1.gDest.obj ∧ l.hash = k.hash ∧
          l.sharedSessionKey = k.sharedSessionKey ∧ b.node.pathsInOrder.isEmpty ∧
          total (headTexts Sample.readings Sample.impl b.node) ≤ 2048)) (by decide +kernel)
  obtain ⟨m₁,hm₁,hq⟩ := reachable_of_endsIn _ _ _ _ hq
  obtain ⟨b,hb,hq⟩ := (Option.any_eq_true _ _).mp hq
  obtain ⟨m₂,hm₂,hq⟩ := ok_of_any hq
  obtain ⟨l,hl,hq⟩ := (Option.any_eq_true _ _).mp hq
  obtain ⟨k,hk,hq⟩ := (Option.any_eq_true _ _).mp hq
  obtain ⟨hup,hq⟩ := (Bool.and_eq_true _ _).mp hq
  obtain ⟨hls,hlreg,hldest,hcb,hks,hkreg,hkdest⟩ := of_decide_eq_true hup
  obtain ⟨hphase,hobj,hhash,hkey,hpaths,htotal⟩ := of_decide_eq_true hq
  obtain ⟨r,hr⟩ := hm₁
  have hm : Reachable Sample.platform m₂ := ⟨r,hr.trans (runs_single
    (o := .inbound _ _) (quiet_wellbehaved _ _) trivial hm₂)⟩
  exact ⟨a,n,b,m₂,l,k,hboot,turns_run hb,hphase,hm,
    ⟨hk,hks,hkreg,Option.isNone_iff_eq_none.mp hkdest⟩,
    ⟨hl,hls,hlreg,Option.isNone_iff_eq_none.mp hldest⟩,hobj,hhash,hkey,hcb,
    List.isEmpty_iff.mp hpaths,htotal⟩

theorem page_served_read : ∃ (a : App) (b : Board) (m v : Node) (raw frame page : Bytes)
    (packet : Packet) (u : Node), Packet.unpack Sample.platform raw = some packet ∧
    b.node.inbound Sample.platform (a.env Sample.platform) raw (some 0) = .ok u ∧
    .sendOutgoing 0 frame (.link 0) ∈ u.log ∧ page ≠ [] ∧
    m.inbound Sample.platform quiet frame (some 0) = .ok v ∧
    .linkPacket 9 (MsgPack.packResponse
      (truncatedHash Sample.platform packet.getHashablePart) page) 0 ∈ v.log := by
  obtain ⟨a,n,b,m,l,k,hboot,hrun,hphase,hm,hk,hl,hobj,hhash,hkey,hcb,hpaths,htotal⟩ :=
    exists_serving
  obtain ⟨c,r₁,-,hserved⟩ := page_served Sample.cbcInverts (by decide) hboot hrun
    (by rw [hphase]; decide) (by rw [hphase]; decide) hk hobj hm hl
    hhash hkey 7 (show ∀ d ∈ (none : Option Bytes), d.length < 2^32 from fun _ h => nomatch h)
    (by decide +kernel)
  let raw := linkFrame .data l.hash Context.request c
  obtain ⟨packet,hp,hpage⟩ := hserved raw (.same _) (some 0)
  have hwithin (node : Node) (hi : node.interfaces = b.node.interfaces)
      (hn : node.pathsInOrder = b.node.pathsInOrder) :
      Within (fillPage Sample.readings Sample.impl a.gDest node).calls := by
    have hhead : headTexts Sample.readings Sample.impl node =
        headTexts Sample.readings Sample.impl b.node := by
      rw [headTexts,headTexts,hi,hn]
    rw [fillPage_eq,Page.snprintf_within,bodyPage_sound,hhead,hn,hpaths]
    exact ⟨htotal,fun _ h => absurd h (Nat.not_lt_zero _)⟩
  obtain ⟨-,hne,frame,r₂,hin,hread⟩ := hpage (hwithin _ rfl rfl)
  obtain ⟨⟨v,hv,hcalls⟩,-⟩ := hread m 0 l 9 hm hl hhash hkey hcb frame (.same _) quiet (some 0)
  have hifaces : b.node.interfaces = [0] :=
    (run_kept Sample.cbcInverts (boot_kept hboot) hrun).1.interfaces
  refine ⟨a,b,m,v,raw,frame,_,packet,_,hp,hin,?_,hne,hv,?_⟩
  · rw [hifaces]
    exact List.mem_cons_self
  · rw [hcalls.2 fun _ _ => rfl]
    exact List.mem_cons_self

end HeltecV3.Main
