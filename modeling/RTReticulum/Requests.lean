import RTReticulum.Sessions
import RTReticulum.Values

/-! Requests over a link: the generator that is called, and the response the other end
gets. -/
set_option autoImplicit false

namespace RNS
namespace MsgPack

def packRequest (requestedAt : UInt64) (pathHash : Bytes) (data : Option Bytes) : Bytes :=
  packArrayHeader 3 ++ packFloat64 requestedAt ++ packBin pathHash ++ data.elim packNil packBin

def packResponse (requestId response : Bytes) : Bytes :=
  packArrayHeader 2 ++ packBin requestId ++ packBin response

def binHeader (len : Nat) : Nat := if len ≤ 0xFF then 2 else if len ≤ 0xFFFF then 3 else 5

theorem packBin_length (b : Bytes) : (packBin b).length = binHeader b.length + b.length := by
  unfold packBin binHeader
  split_ifs <;> simp <;> omega

theorem packBin_length_le (b : Bytes) : (packBin b).length ≤ 5 + b.length := by
  rw [packBin_length,binHeader]
  split_ifs <;> omega

theorem Reader.readNil_packBin {r : Reader} {b s : Bytes} (h : r.Rest (packBin b ++ s))
    (hb : b.length < 2^32) : r.readNil = (false,r) := by
  obtain ⟨tag,k,hp,-,htag⟩ := packBin_cases hb
  rw [hp,List.cons_append] at h
  rw [readNil,peek_cons h,if_neg (by rcases htag with ⟨rfl,-⟩ | ⟨rfl,-⟩ | ⟨rfl,-⟩ <;> decide)]

theorem readRequest_packRequest {sizeBits : Nat} (requestedAt : UInt64) {pathHash : Bytes}
    {data : Option Bytes} (hpath : pathHash.length < 2^32) (hdata : ∀ d ∈ data, d.length < 2^32)
    (hsize : (packRequest requestedAt pathHash data).length < 2^sizeBits) :
    readRequest sizeBits (packRequest requestedAt pathHash data) =
      .ok (some ⟨requestedAt,pathHash,data.getD []⟩) := by
  let r : Reader := ⟨packRequest requestedAt pathHash data,0⟩
  have h0 : r.Rest (packArrayHeader 3 ++ (packFloat64 requestedAt ++ (packBin pathHash ++
      (data.elim packNil packBin ++ [])))) := by
    simp only [Reader.Rest,r,List.drop_zero,packRequest,List.append_assoc,List.append_nil]
  have h1 := h0.append
  have h2 := h1.append
  have h3 := h2.append
  have hfloat : (packFloat64 requestedAt).length = 9 := by simp [packFloat64]
  rw [hfloat] at h2 h3
  simp only [readRequest]
  rw [Reader.readArrayHeader_packArrayHeader h0 (by decide)]
  simp only [Nat.lt_irrefl,if_false]
  rw [Reader.readFloat64_packFloat64 h1]
  simp only
  rw [Reader.readBin_packBin h2 hpath hsize]
  simp only [ok_bind]
  cases data with
  | none =>
    rw [Reader.readNil_packNil h3]; rfl
  | some d =>
    have hd := hdata d rfl
    rw [Reader.readNil_packBin h3 hd]
    simp only [Bool.false_eq_true,if_false]
    rw [Reader.readBin_packBin h3 hd hsize]
    rfl

theorem readRequest_short {sizeBits : Nat} {plaintext : Bytes}
    (h : (Reader.readArrayHeader ⟨plaintext,0⟩).1 < 3) :
    readRequest sizeBits plaintext = .ok none := by
  simp [readRequest,h]

theorem reads_packResponse {sizeBits : Nat} {requestId response : Bytes}
    (hid : requestId.length < 2^32) (hresponse : response.length < 2^32)
    (hsize : (packResponse requestId response).length < 2^sizeBits) :
    Value.Reads sizeBits (.array [.bin requestId,.bin response])
      ⟨packResponse requestId response,0⟩
      ⟨packResponse requestId response,(packResponse requestId response).length⟩ := by
  have hpack : (Value.array [.bin requestId,.bin response]).pack =
      packResponse requestId response := by
    simp [Value.pack,Value.packAll,packResponse]
  have h := Value.reads_pack (.array [.bin requestId,.bin response])
    (r := ⟨packResponse requestId response,0⟩) (s := [])
    ⟨(by decide : 2 < 2^32),hid,hresponse,trivial⟩
    (by rw [hpack]; simp [Reader.Rest]) hsize
  rw [hpack] at h
  simpa [Reader.advance] using h

/-- The length of 2^32 bytes is packed as 0, so that none of them is read. -/
theorem Reader.readBin_wraps {sizeBits : Nat} {r : Reader} {b s : Bytes}
    (h : r.Rest (packBin b ++ s)) (hb : b.length = 2^32) (hsize : r.data.length < 2^sizeBits) :
    ∃ r', r.readBin sizeBits = .ok ([],r') := by
  have hp : packBin b = 0xC6 :: (bigEndian 4 0 ++ b) := by
    rw [packBin,hb]; rfl
  rw [hp,List.cons_append,List.append_assoc] at h
  have hint := nextInt_bigEndian 4 0 0 h.cons
  have hbin : binLength 0xC6 (r.advance 1) = some (0,(r.advance 1).advance 4) :=
    congrArg some hint
  have hpos : ¬ r.pos + 1 + 4 + 0 > r.data.length := by
    have := h.length
    simp at this; omega
  have hmod : ¬ (r.pos + 1 + 4 + 0) % 2^sizeBits > r.data.length := by
    rwa [Nat.mod_eq_of_lt (by omega)]
  simp only [readBin,next_cons h,hbin]
  exact ⟨_,(if_neg hmod).trans ((if_neg hpos).trans rfl)⟩

theorem not_reads_packResponse {sizeBits : Nat} {requestId response : Bytes}
    (hid : requestId.length < 2^32) (hresponse : response.length = 2^32)
    (hsize : (packResponse requestId response).length < 2^sizeBits) (r' : Reader) :
    ¬ Value.Reads sizeBits (.array [.bin requestId,.bin response])
      ⟨packResponse requestId response,0⟩ r' := by
  have h0 : Reader.Rest ⟨packResponse requestId response,0⟩
      (packArrayHeader 2 ++ (packBin requestId ++ (packBin response ++ []))) := by
    simp only [Reader.Rest,List.drop_zero,packResponse,List.append_assoc,List.append_nil]
  intro h
  cases h with
  | array hhead hs =>
    rw [Reader.readArrayHeader_packArrayHeader h0 (by decide)] at hhead
    cases hhead
    cases hs with
    | cons h hs =>
      cases h with
      | bin hread =>
        rw [Reader.readBin_packBin h0.append hid hsize] at hread
        cases hread
        cases hs with
        | cons h hs =>
          cases h with
          | bin hread =>
            obtain ⟨r,hwraps⟩ := Reader.readBin_wraps h0.append.append hresponse hsize
            rw [hwraps] at hread
            cases hread
            cases hresponse

end MsgPack

section
variable (P : Platform)

/-- The request handlers of a destination after some registrations of a path and a
generator, the last one last. -/
def requestTable (regs : List (Bytes × Nat)) : Table RequestHandler :=
  regs.foldl (fun handlers reg =>
    handlers.insert (truncatedHash P reg.1) (Destination.requestHandler P reg.1 reg.2)) ∅

variable {P}

theorem requestTable_concat (regs : List (Bytes × Nat)) (path : Bytes) (g : Nat) :
    requestTable P (regs ++ [(path,g)]) = (requestTable P regs).insert (truncatedHash P path)
      (Destination.requestHandler P path g) := by
  simp [requestTable]

theorem exec_registerRequestHandler {n : Node} {obj : Nat} {regs : List (Bytes × Nat)}
    (h : n.requestHandlers obj = requestTable P regs) (env : Env) (path : Bytes) (g : Nat) :
    ∃ m, exec P env (.registerRequestHandler obj path g) n = .ok m ∧
      m.requestHandlers obj = requestTable P (regs ++ [(path,g)]) := by
  refine ⟨_,rfl,?_⟩
  rw [requestTable_concat,← h]
  exact Function.update_self _ _ _

theorem requestTable_lookup_none {regs : List (Bytes × Nat)} {hash : Bytes}
    (h : ∀ reg ∈ regs, truncatedHash P reg.1 ≠ hash) :
    (requestTable P regs).lookup hash = none := by
  induction regs using List.reverseRecOn with
  | nil => exact Finmap.lookup_empty _
  | append_singleton regs reg ih =>
    obtain ⟨path,g⟩ := reg
    have hne : truncatedHash P path ≠ hash := h (path,g) (by simp)
    rw [requestTable_concat,Finmap.lookup_insert_of_ne _ hne.symm]
    exact ih fun reg hreg => h reg (List.mem_append_left _ hreg)

/-- The last registration of a path counts, if no other path has its hash. -/
theorem requestTable_lookup {before after : List (Bytes × Nat)} {path : Bytes} {g : Nat}
    (hlast : path ∉ after.map Prod.fst) (hinj : ∀ reg ∈ after,
      truncatedHash P reg.1 = truncatedHash P path → reg.1 = path) :
    (requestTable P (before ++ (path,g) :: after)).lookup (truncatedHash P path) =
      some (Destination.requestHandler P path g) := by
  induction after using List.reverseRecOn with
  | nil => rw [requestTable_concat]; exact Finmap.lookup_insert _
  | append_singleton after reg ih =>
    obtain ⟨path',g'⟩ := reg
    have hne : truncatedHash P path ≠ truncatedHash P path' := by
      intro heq
      have hpath : path' = path := hinj (path',g') (by simp) heq.symm
      exact hlast (by rw [List.map_append]; simp [hpath])
    rw [← List.cons_append,← List.append_assoc,requestTable_concat,Finmap.lookup_insert_of_ne _ hne]
    exact ih (fun h => hlast (by rw [List.map_append]; exact List.mem_append_left _ h))
      fun reg hreg => hinj reg (List.mem_append_left _ hreg)

theorem handleRequest_eq {n : Node} {b : Nat} {k : Link} {pt : Bytes} {packet : Packet}
    {request : MsgPack.Request} {handler : RequestHandler}
    (hread : MsgPack.readRequest P.sizeBits pt = .ok (some request))
    (hlookup : (n.requestHandlers k.destination.obj).lookup request.pathHash = some handler)
    (env : Env) :
    let answered := n.callOut env (.generate b handler.generator handler.path request.data
      (truncatedHash P packet.getHashablePart) k.hash request.requestedAt)
    (answered.1.response = [] → n.handleRequest P env b k pt packet = .ok answered.2) ∧
    (answered.1.response ≠ [] → n.handleRequest P env b k pt packet =
      answered.2.sendWithContext P env b (MsgPack.packResponse
        (truncatedHash P packet.getHashablePart) answered.1.response) Context.response) := by
  intro answered
  constructor
  · intro hempty
    simp only [Node.handleRequest,hread,ok_bind,hlookup]
    exact if_pos (by simpa using hempty)
  · intro hne
    simp only [Node.handleRequest,hread,ok_bind,hlookup]
    exact if_neg (by simpa using hne)

theorem handleRequest_ignored {n : Node} {b : Nat} {k : Link} {pt : Bytes} {packet : Packet}
    (h : ∀ request, MsgPack.readRequest P.sizeBits pt = .ok (some request) →
      (n.requestHandlers k.destination.obj).lookup request.pathHash = none) (env : Env) :
    n.handleRequest P env b k pt packet = (MsgPack.readRequest P.sizeBits pt).map fun _ => n := by
  simp only [Node.handleRequest]
  cases hread : MsgPack.readRequest P.sizeBits pt with
  | error e => rfl
  | ok res =>
    cases res with
    | none => rfl
    | some request => simp only [ok_bind,h request hread]; rfl

theorem Node.Up.inbound_request {m : Node} {b : Nat} {k : Link} (h : m.Up b k) {raw pt : Bytes}
    {packet : Packet} (hp : Packet.unpack P raw = some packet) (ht : packet.packetType = .data)
    (hdest : packet.destinationHash = k.hash) (hctx : packet.context = Context.request)
    (hopens : k.Opens P packet.data pt) (hne : pt ≠ []) (env : Env) (iface : Option Nat) :
    m.inbound P env raw iface = (m.note (.rx raw iface)).handleRequest P env b k pt packet :=
  (inbound_link hp ht (hdest ▸ h.notLocal) (hdest ▸ h.registered) h.link h.active hopens hne env
    iface).trans (if_pos hctx)

theorem Node.Up.inbound_empty {m : Node} {b : Nat} {k : Link} (h : m.Up b k) {raw : Bytes}
    {packet : Packet} (hp : Packet.unpack P raw = some packet) (ht : packet.packetType = .data)
    (hdest : packet.destinationHash = k.hash) (hopens : k.Opens P packet.data []) (env : Env)
    (iface : Option Nat) : m.inbound P env raw iface = .ok (m.note (.rx raw iface)) := by
  obtain ⟨token,htoken,hdec⟩ := hopens
  have hd : (m.note (.rx raw iface)).destinations.lookup packet.destinationHash = none :=
    hdest ▸ h.notLocal
  have hb : (m.note (.rx raw iface)).links.lookup packet.destinationHash = some b :=
    hdest ▸ h.registered
  have hl : (m.note (.rx raw iface)).link? b = some k := h.link
  simp only [Node.inbound,hp,ht,hd,hb,Node.onInbound,hl,h.active,htoken,hdec,ok_bind]
  rfl

/-- What is sent on a link after a call-out still reaches the other end. -/
theorem Node.Up.answers (hc : P.CbcInverts) {m m' : Node} {b : Nat} {k : Link} (h : m.Up b k)
    (hm : m.LinksSound) (hlater : m.LinksLater m') (pt : Bytes) :
    ∃ c r, (∀ l : Link, l.Keyed → l.sharedSessionKey = k.sharedSessionKey → l.Opens P c pt) ∧
      ∀ env, m'.sendWithContext P env b pt Context.response =
        .ok ({ m' with rng := r }.broadcast env (linkFrame .data k.hash Context.response c) none
          (.link b)) := by
  obtain ⟨k',hk',hlater'⟩ := hlater b k h.link
  obtain ⟨hs,-,-,hkey,-⟩ := hlater'.settled (by simp [h.active])
  obtain ⟨c,r,hopens,hsend⟩ := sendWithContext_eq hc hk' (hs.trans h.active)
    (hlater'.keyed h.active (hm.keyed h.link h.active)) pt Context.response
  exact ⟨c,r,fun l hl heq => hopens l hl (heq.trans hkey.symm),by rw [← hlater'.hash]; exact hsend⟩

theorem Node.Up.sends (hc : P.CbcInverts) {n : Node} {a : Nat} {l : Link} (h : n.Up a l)
    (hn : n.LinksSound) (pt : Bytes) (ctx : Context) : ∃ raw packet,
      Packet.unpack P raw = some packet ∧ packet.packetType = .data ∧
      packet.destinationHash = l.hash ∧ packet.context = ctx ∧
      ∀ k : Link, k.Keyed → k.sharedSessionKey = l.sharedSessionKey → k.Opens P packet.data pt := by
  obtain ⟨c,r,hopens,-⟩ :=
    sendWithContext_eq hc h.link h.active (hn.keyed h.link h.active) pt ctx
  obtain ⟨packet,hp,hcar⟩ := unpack_linkFrame (P := P) (hn.hash h.link)
    (.same (linkFrame .data l.hash ctx c))
  exact ⟨_,packet,hp,hcar.packetType.trans (Packet.packFlags_packetType _ _),
    hcar.destinationHash,hcar.context,hcar.data ▸ hopens⟩

/-- The request `packet` holds is answered: the generator `g` of `path` is called, and what
it returns, if anything, goes out on every interface and reaches whoever holds the other end
of the link. -/
def Node.Serves (P : Platform) (m : Node) (b : Nat) (k : Link) (raw : Bytes) (packet : Packet)
    (g : Nat) (path data : Bytes) (requestedAt : UInt64) : Prop :=
  ∀ env iface, env.Wellbehaved P (fun _ _ => True) →
    let requestId := truncatedHash P packet.getHashablePart
    let asked : Event := .generate b g path data requestId k.hash requestedAt
    let answered := env asked { m with log := asked :: .rx raw iface :: m.log }
    (answered.1.response = [] → m.inbound P env raw iface = .ok answered.2) ∧
    (answered.1.response ≠ [] → ∃ frame r u, m.inbound P env raw iface = .ok u ∧
      { answered.2 with rng := r }.CallsOut env
        (answered.2.interfaces.map fun i => .sendOutgoing i frame (.link b)) u ∧
      ∀ (n : Node) (a : Nat) (l : Link) (cb : Nat), Reachable P n → n.Up a l → l.hash = k.hash →
        l.sharedSessionKey = k.sharedSessionKey → l.onPacket = some cb →
        ∀ raw', Packet.Rewritten frame raw' → ∀ env' iface', ∃ v,
          n.inbound P env' raw' iface' = .ok v ∧
          { n with log := .rx raw' iface' :: n.log }.CallsOut env'
            [.linkPacket cb (MsgPack.packResponse requestId answered.1.response) a] v)

theorem Node.Up.serves (hc : P.CbcInverts) {m : Node} {b : Nat} {k : Link} (hup : m.Up b k)
    (hm : m.LinksSound) {before after : List (Bytes × Nat)} {path : Bytes} {g : Nat}
    (hregs : m.requestHandlers k.destination.obj = requestTable P (before ++ (path,g) :: after))
    (hlast : path ∉ after.map Prod.fst)
    (hinj : ∀ reg ∈ after, truncatedHash P reg.1 = truncatedHash P path → reg.1 = path)
    {raw : Bytes} {packet : Packet} (hp : Packet.unpack P raw = some packet)
    (ht : packet.packetType = .data) (hdest : packet.destinationHash = k.hash)
    (hctx : packet.context = Context.request) {requestedAt : UInt64} {data : Option Bytes}
    (hdata : ∀ d ∈ data, d.length < 2^32)
    (hsize : (MsgPack.packRequest requestedAt (truncatedHash P path) data).length < 2^P.sizeBits)
    (hopens : k.Opens P packet.data (MsgPack.packRequest requestedAt (truncatedHash P path) data)) :
    m.Serves P b k raw packet g path (data.getD []) requestedAt := by
  intro env iface henv requestId asked answered
  have hread := MsgPack.readRequest_packRequest requestedAt
    (by rw [truncatedHash_length]; decide) hdata hsize
  have hlookup : ((m.note (.rx raw iface)).requestHandlers k.destination.obj).lookup
      (truncatedHash P path) = some (Destination.requestHandler P path g) := by
    rw [← requestTable_lookup hlast hinj,← hregs]; rfl
  obtain ⟨hempty,hresponse⟩ :=
    @handleRequest_eq P (m.note (.rx raw iface)) b k _ packet _ _ hread hlookup env
  have hne : MsgPack.packRequest requestedAt (truncatedHash P path) data ≠ [] := by
    simp [MsgPack.packRequest,MsgPack.packArrayHeader]
  have hin := hup.inbound_request hp ht hdest hctx hopens hne env iface
  refine ⟨fun h => hin.trans (hempty h),fun h => ?_⟩
  have hlater : m.LinksLater answered.2 := Node.LinksLater.trans (.of_link? fun _ => rfl)
    (tell_linksLater henv.linksLater (.generate b g path (data.getD []) requestId k.hash
      requestedAt) (m.note (.rx raw iface)))
  obtain ⟨c,r,hopens',hsend⟩ := hup.answers hc hm hlater
    (MsgPack.packResponse requestId answered.1.response)
  refine ⟨_,r,_,hin.trans ((hresponse h).trans (hsend env)),Node.broadcast_callsOut _ _ _ _,?_⟩
  intro n a l cb hn hl hhash hkey hcb raw' hraw' env' iface'
  rw [← hhash] at hraw'
  refine ⟨_,?_,Node.callsOut _ _ _⟩
  exact hl.inbound (hn.linksSound.hash hl.link)
    (hopens' l (hn.linksSound.keyed hl.link hl.active) hkey)
    (by simp [MsgPack.packResponse,MsgPack.packArrayHeader]) (by decide) hcb hraw' env' iface'

/-- A request for a registered path is served by the generator registered last for it; its
response, below 2^32 bytes, is read back by who asked; and a plaintext that is too short or
names no registered path has no effect. -/
theorem requests_served (hc : P.CbcInverts) {m : Node} (hm : Reachable P m) {b : Nat} {k : Link}
    (hup : m.Up b k) {regs : List (Bytes × Nat)}
    (hregs : m.requestHandlers k.destination.obj = requestTable P regs)
    (hinj : Set.InjOn (truncatedHash P) {path | path ∈ regs.map Prod.fst}) {raw pt : Bytes}
    {packet : Packet} (hp : Packet.unpack P raw = some packet) (ht : packet.packetType = .data)
    (hdest : packet.destinationHash = k.hash) (hctx : packet.context = Context.request)
    (hopens : k.Opens P packet.data pt) :
    (∀ before path g after requestedAt data, regs = before ++ (path,g) :: after →
      path ∉ after.map Prod.fst → (∀ d ∈ data, d.length < 2^32) →
      pt = MsgPack.packRequest requestedAt (truncatedHash P path) data →
      pt.length < 2^P.sizeBits →
      m.Serves P b k raw packet g path (data.getD []) requestedAt) ∧
    (∀ response : Bytes, response.length < 2^32 →
      let requestId := truncatedHash P packet.getHashablePart
      let packed := MsgPack.packResponse requestId response
      packed.length < 2^P.sizeBits → MsgPack.Value.Reads P.sizeBits
        (.array [.bin requestId,.bin response]) ⟨packed,0⟩ ⟨packed,packed.length⟩) ∧
    (((MsgPack.Reader.readArrayHeader ⟨pt,0⟩).1 < 3 ∨
        ∀ request, MsgPack.readRequest P.sizeBits pt = .ok (some request) →
          ∀ reg ∈ regs, truncatedHash P reg.1 ≠ request.pathHash) →
      ∀ env iface, m.inbound P env raw iface =
        (MsgPack.readRequest P.sizeBits pt).map fun _ => m.note (.rx raw iface)) := by
  refine ⟨?_,?_,?_⟩
  · rintro before path g after requestedAt data rfl hlast hdata rfl hsize
    refine hup.serves hc hm.linksSound hregs hlast (fun reg hreg heq => ?_) hp ht hdest hctx hdata
      hsize hopens
    exact hinj (by simp; exact .inr (.inr ⟨reg.2,hreg⟩)) (by simp) heq
  · intro response hlen requestId packed hsize
    exact MsgPack.reads_packResponse (by rw [truncatedHash_length]; decide) hlen hsize
  · intro hignored env iface
    have hnone : ∀ request, MsgPack.readRequest P.sizeBits pt = .ok (some request) →
        ((m.note (.rx raw iface)).requestHandlers k.destination.obj).lookup request.pathHash =
          none := by
      intro request hread
      have hlong : ¬ (MsgPack.Reader.readArrayHeader ⟨pt,0⟩).1 < 3 := by
        intro hshort
        rw [MsgPack.readRequest_short hshort] at hread
        cases hread
      show (m.requestHandlers k.destination.obj).lookup request.pathHash = none
      rw [hregs]
      exact requestTable_lookup_none (hignored.resolve_left hlong request hread)
    by_cases hne : pt = []
    · subst hne
      exact hup.inbound_empty hp ht hdest hopens env iface
    · exact (hup.inbound_request hp ht hdest hctx hopens hne env iface).trans
        (handleRequest_ignored hnone env)

end

theorem requests_served_ends : ∃ (n m : Node) (l k : Link), Reachable Sample.platform n ∧
    Reachable Sample.platform m ∧ n.Up 0 l ∧ m.Up 0 k ∧ l.hash = k.hash ∧
    l.sharedSessionKey = k.sharedSessionKey ∧ l.onPacket = some 9 ∧
    m.requestHandlers k.destination.obj = requestTable Sample.platform [([0x2F],4)] ∧
    m.interfaces = [0] := by
  obtain ⟨n,hn,hq⟩ := reachable_of_endsIn Sample.platform
    [.registerInterface 0,.request Sample.destination none (some 9) 600,
      .inbound (Sample.proofFrame 600) (some 0)] (Sample.rng 2)
    (fun n => endsIn Sample.platform (fun _ _ => true) (Sample.responder ++
        [.inbound (Sample.requestFrame 600) (some 0),.registerRequestHandler 0 [0x2F] 4])
      (Node.boot (Sample.rng 3)) fun m => (n.link? 0).any fun l => (m.link? 0).any fun k =>
        l.status = .active ∧ n.links.lookup l.hash = some 0 ∧ n.destinations.lookup l.hash = none ∧
        l.onPacket = some 9 ∧ k.status = .active ∧ m.links.lookup k.hash = some 0 ∧
        m.destinations.lookup k.hash = none ∧ l.hash = k.hash ∧
        l.sharedSessionKey = k.sharedSessionKey ∧
        m.requestHandlers k.destination.obj = requestTable Sample.platform [([0x2F],4)] ∧
        m.interfaces = [0])
    (by decide +kernel)
  obtain ⟨m,hm,hq⟩ := runs_of_endsIn _ _ _ _ _ hq
  obtain ⟨l,hl,hq⟩ := (Option.any_eq_true _ _).mp hq
  obtain ⟨k,hk,hq⟩ := (Option.any_eq_true _ _).mp hq
  obtain ⟨hs,hreg,hdest,hcb,hks,hkreg,hkdest,hhash,hkey,hregs,hifaces⟩ := of_decide_eq_true hq
  exact ⟨n,m,l,k,hn,⟨_,hm.mono fun _ _ _ => trivial⟩,⟨hl,hs,hreg,hdest⟩,⟨hk,hks,hkreg,hkdest⟩,
    hhash,hkey,hcb,hregs,hifaces⟩

theorem requests_served_sample : ∃ (m : Node) (k : Link) (raw : Bytes) (packet : Packet),
    m.Up 0 k ∧ m.Serves Sample.platform 0 k raw packet 4 [0x2F] [1,2] 7 := by
  obtain ⟨n,m,l,k,hn,hm,hl,hk,hhash,hkey,-,hregs,-⟩ := requests_served_ends
  obtain ⟨raw,packet,hp,ht,hdest,hctx,hopens⟩ := hl.sends Sample.cbcInverts hn.linksSound
    (MsgPack.packRequest 7 (truncatedHash Sample.platform [0x2F]) (some [1,2]))
    Context.request
  have hsize : (MsgPack.packRequest 7 (truncatedHash Sample.platform [0x2F])
      (some [1,2])).length < 2^Sample.platform.sizeBits := by decide +kernel
  exact ⟨m,k,raw,packet,hk,(requests_served Sample.cbcInverts hm hk hregs (by simp) hp ht
    (hdest.trans hhash) hctx (hopens k (hm.linksSound.keyed hk.link hk.active) hkey.symm)).1
    [] [0x2F] 4 [] 7 (some [1,2]) rfl (by simp) (by simp) rfl hsize⟩

/-- The generator returns 2^32 bytes: the response reaches the initiator, which cannot read
it. -/
theorem response_unreadable : ∃ (n m n' m' : Node) (k : Link) (packet : Packet) (env : Env)
    (raw frame response pt : Bytes), Reachable Sample.platform n ∧ Reachable Sample.platform m ∧
    m.Up 0 k ∧ Packet.unpack Sample.platform raw = some packet ∧
    (∀ e u, (env e u).1.response = response) ∧ response ≠ [] ∧
    m.inbound Sample.platform env raw none = .ok m' ∧
    .sendOutgoing 0 frame (.link 0) ∈ m'.log ∧
    n.inbound Sample.platform quiet frame none = .ok n' ∧ .linkPacket 9 pt 0 ∈ n'.log ∧
    ∀ r', ¬ MsgPack.Value.Reads Sample.platform.sizeBits (.array
      [.bin (truncatedHash Sample.platform packet.getHashablePart),.bin response]) ⟨pt,0⟩ r' := by
  obtain ⟨n,m,l,k,hn,hm,hl,hk,hhash,hkey,hcb,hregs,hifaces⟩ := requests_served_ends
  obtain ⟨raw,packet,hp,ht,hdest,hctx,hopens⟩ := hl.sends Sample.cbcInverts hn.linksSound
    (MsgPack.packRequest 7 (truncatedHash Sample.platform [0x2F]) none) Context.request
  have hserves : m.Serves Sample.platform 0 k raw packet 4 [0x2F] [] 7 :=
    hk.serves Sample.cbcInverts hm.linksSound
      (hregs.trans (congrArg _ (List.nil_append _).symm)) (by simp)
      (by simp) hp ht (hdest.trans hhash) hctx (by simp) (by decide +kernel)
      (hopens k (hm.linksSound.keyed hk.link hk.active) hkey.symm)
  have hlen : (List.replicate (2^32) (0 : UInt8)).length = 2^32 := List.length_replicate
  generalize List.replicate (2^32) (0 : UInt8) = response at hlen
  have hne : response ≠ [] := by rintro rfl; cases hlen
  let env : Env := fun _ u => (⟨response,none⟩,u)
  obtain ⟨-,h⟩ := hserves env none fun _ u => .refl u
  obtain ⟨frame,r,m',hin,⟨-,hsent⟩,h⟩ := h hne
  obtain ⟨n',hin',-,hread⟩ := h n 0 l 9 hn hl hhash hkey hcb frame (.same frame) quiet none
  have hheard : .linkPacket 9 (MsgPack.packResponse
      (truncatedHash Sample.platform packet.getHashablePart) response) 0 ∈ n'.log := by
    rw [hread fun _ _ => rfl]
    exact List.mem_cons_self
  refine ⟨n,m,n',m',k,packet,env,raw,frame,response,_,hn,hm,hk,hp,fun _ _ => rfl,hne,hin,?_,hin',
    hheard,?_⟩
  · rw [hsent fun _ _ => rfl]
    show _ ∈ ((m.interfaces.map _).reverse ++ _)
    rw [hifaces]
    exact List.mem_cons_self
  · refine MsgPack.not_reads_packResponse (by rw [truncatedHash_length]; decide) hlen ?_
    have hid := MsgPack.packBin_length_le (truncatedHash Sample.platform packet.getHashablePart)
    have hresponse := MsgPack.packBin_length_le response
    rw [truncatedHash_length] at hid
    have hsize : Sample.platform.sizeBits = 64 := rfl
    simp only [MsgPack.packResponse,MsgPack.packArrayHeader,List.length_append,hsize]
    simp
    omega

end RNS
