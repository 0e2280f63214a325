import RTReticulum.Requests
import RTReticulum.Transfers

/-! How long the frames are that packets and links put on the wire, and when they keep to the
MTU. -/
set_option autoImplicit false

namespace RNS

namespace Packet
variable {P : Platform}

def Encrypted (d : Destination) (t : PacketType) : Prop :=
  t = .data ∧ d.type = .single ∧ d.identity.isSome

instance (d : Destination) (t : PacketType) : Decidable (Encrypted d t) :=
  inferInstanceAs (Decidable (_ ∧ _))

/-- The payload of a packed frame: as it was cut, or what `len` bytes are encrypted to. -/
def packedLength (d : Destination) (t : PacketType) (len : Nat) : Nat :=
  if Encrypted d t then 80+16*(min len Reticulum.mdu/16+1) else min len Reticulum.mdu

theorem encrypt_length {d : Destination} {data c : Bytes} {r r' : Rng}
    (h : d.encrypt P data r = .ok (c,r')) : c.length =
      if d.type = .single ∧ d.identity.isSome then 80+16*(data.length/16+1)
      else data.length := by
  unfold Destination.encrypt at h
  split at h
  · rename_i htype hid
    rw [if_pos ⟨htype,by simp [hid]⟩]
    exact Identity.encrypt_length h
  · rename_i hnone
    cases h
    rw [if_neg]
    rintro ⟨htype,hid⟩
    obtain ⟨id,hid⟩ := Option.isSome_iff_exists.mp hid
    exact hnone id htype hid

theorem pack_raw {p q : Packet} {d : Destination} {r r' : Rng} (hd : p.destination = some d)
    (h : p.pack P r = .ok (q,r')) : ∃ c,
      (if p.packetType = .data then d.encrypt P p.data r else .ok (p.data,r)) = .ok (c,r') ∧
      q.raw = frame p.flags p.hops d.hash p.context c := by
  simp only [pack,hd] at h
  split at h
  · rename_i ht
    obtain ⟨⟨c,r₁⟩,hc,h⟩ := bind_eq_ok.mp h
    cases h
    exact ⟨c,by rw [if_pos ht,hc],rfl⟩
  · rename_i ht
    cases h
    exact ⟨_,if_neg ht,rfl⟩

theorem pack_length {d : Destination} {data : Bytes} {t : PacketType} {ctx : Context}
    {tt : TransportType} {r r' : Rng} {p : Packet}
    (h : (ofDestination d data t ctx tt).pack P r = .ok (p,r')) :
    p.raw.length = d.hash.length+3+packedLength d t data.length := by
  have hcut : (ofDestination d data t ctx tt).data.length = min data.length Reticulum.mdu := by
    rw [ofDestination_data,List.length_take,Nat.min_comm]
  obtain ⟨c,hc,hraw⟩ := pack_raw rfl h
  rw [hraw,frame_length,packedLength]
  congr 1
  split at hc
  · rename_i ht
    have ht : t = .data := ht
    rw [encrypt_length hc,hcut]
    simp only [Encrypted,ht,true_and]
  · rename_i ht
    cases hc
    rw [if_neg fun h => ht h.1,hcut]

end Packet

/-- A packed frame keeps to the MTU exactly when address, header and payload do. Behind an
address of 16 bytes only the encrypted ones from 400 bytes on do not. -/
theorem packed_fits_iff {P : Platform} {d : Destination} {data : Bytes} {t : PacketType}
    {ctx : Context} {tt : TransportType} {r r' : Rng} {p : Packet}
    (h : (Packet.ofDestination d data t ctx tt).pack P r = .ok (p,r')) :
    (p.raw.length ≤ Reticulum.mtu ↔
      d.hash.length+3+Packet.packedLength d t data.length ≤ Reticulum.mtu) ∧
    (d.hash.length = 16 →
      (p.raw.length ≤ Reticulum.mtu ↔ (Packet.Encrypted d t → data.length < 400))) := by
  have hlen := Packet.pack_length h
  refine ⟨by rw [hlen],fun hhash => ?_⟩
  rw [hlen,hhash,Packet.packedLength]
  show _ ≤ 500 ↔ _
  have hmdu : Reticulum.mdu = 464 := rfl
  rw [hmdu]
  split
  · rename_i henc
    simp only [henc,true_implies]
    omega
  · rename_i henc
    simp only [henc,false_implies,iff_true]
    omega

theorem packed_fits_short : ∃ x, (Packet.ofDestination Sample.outDestination [1,2,3] .data
    Context.none .broadcast).pack Sample.platform (Sample.rng 5) = .ok x ∧
    x.1.raw.length ≤ Reticulum.mtu := by
  obtain ⟨x,hx,-⟩ := ok_of_any (x := (Packet.ofDestination Sample.outDestination [1,2,3] .data
    Context.none .broadcast).pack Sample.platform (Sample.rng 5)) (q := fun _ => true)
    (by decide +kernel)
  exact ⟨x,hx,((packed_fits_iff hx).2 (truncatedHash_length _ _)).mpr fun _ => by decide⟩

/-- 400 bytes pass the check of the plaintext and make a frame of 515. -/
theorem packed_oversized : ∃ x, (Packet.ofDestination Sample.outDestination (List.replicate 400 0)
    .data Context.none .broadcast).pack Sample.platform (Sample.rng 5) = .ok x ∧
    Reticulum.mtu < x.1.raw.length := by
  obtain ⟨x,hx,hq⟩ := ok_of_any (x := (Packet.ofDestination Sample.outDestination
    (List.replicate 400 0) .data Context.none .broadcast).pack Sample.platform (Sample.rng 5))
    (q := fun x => x.1.raw.length = 515) (by decide +kernel)
  have hlen : x.1.raw.length = 515 := of_decide_eq_true hq
  exact ⟨x,hx,by rw [hlen]; decide⟩

def Node.frame? (P : Platform) (a : Nat) (plaintext : Bytes) (context : Context) (n : Node) :
    Option Bytes :=
  match n.link? a with
  | none => none
  | some l =>
    match l.status, l.token with
    | .active, some token =>
      match token.encrypt P plaintext n.rng with
      | .ok (ciphertext,_) => some (linkFrame .data l.hash context ciphertext)
      | .error _ => none
    | _, _ => none

def Node.transmit (env : Env) (a : Nat) (f : Bytes) (n : Node) : Node :=
  { n with rng := (n.rng.random 16).2 }.broadcast env f none (.link a)

section
variable {P : Platform} {guard : Op → Node → Prop}

theorem transmit_linksLater {env : Env} (henv : ∀ e m, Node.LinksLater m (env e m).2) (a : Nat)
    (f : Bytes) (n : Node) : n.LinksLater (n.transmit env a f) :=
  (Node.LinksLater.of_link? fun _ => rfl).trans
    (broadcast_linksLater henv f none (.link a) { n with rng := (n.rng.random 16).2 })

theorem sendWithContext_frame (n : Node) (a : Nat) (pt : Bytes) (ctx : Context) (env : Env) :
    n.sendWithContext P env a pt ctx =
      .ok ((n.frame? P a pt ctx).elim n fun f => n.transmit env a f) := by
  unfold Node.sendWithContext Node.frame?
  cases n.link? a with
  | none => rfl
  | some l =>
    dsimp only
    cases l.status with
    | active =>
      cases l.token with
      | none => rfl
      | some token =>
        simp only [Token.encrypt_eq]
        rfl
    | pending | handshake | closed => rfl

/-- Header, IV, padded blocks and MAC: the frame of `len` bytes on a link. -/
def linkFrameLength (len : Nat) : Nat := 67+16*(len/16+1)

def plaintextRoom (mtu : Nat) : Nat := 16*((mtu-67)/16)

theorem linkFrameLength_le_iff {len mtu : Nat} :
    linkFrameLength len ≤ mtu ↔ len < plaintextRoom mtu := by
  unfold linkFrameLength plaintextRoom
  omega

theorem frame?_length {n : Node} {a : Nat} {l : Link} (hl : n.link? a = some l)
    (hs : l.status = .active) (hhash : l.hash.length = 16) (hk : l.Keyed) (pt : Bytes)
    (ctx : Context) :
    ∃ f, n.frame? P a pt ctx = some f ∧ f.length = linkFrameLength pt.length := by
  obtain ⟨hlen,htoken⟩ := hk
  have henc := (Token.ofKey64 l.sharedSessionKey hlen).encrypt_eq (P := P) pt n.rng
  have hc := Token.encrypt_length henc
  refine ⟨_,by simp only [Node.frame?,hl,hs,htoken,henc]; rfl,?_⟩
  rw [linkFrame,Packet.frame_length,hhash,hc,linkFrameLength]
  omega

theorem frame?_later {n m : Node} (hn : n.LinksSound) (h : n.LinksLater m) {a : Nat} {l : Link}
    (hl : n.link? a = some l) (hs : l.status = .active) (pt : Bytes) (ctx : Context) :
    ∃ f, m.frame? P a pt ctx = some f ∧ f.length = linkFrameLength pt.length := by
  obtain ⟨l',hl',hlater⟩ := h a l hl
  refine frame?_length hl' (hlater.active hs) ?_ (hlater.keyed hs (hn.keyed hl hs)) pt ctx
  rw [hlater.hash]
  exact hn.hash hl

end

namespace Resource
section
variable {id payload : Bytes}

theorem headChunk_length (hid : id.length = idBytes) (k : Nat) (payload : Bytes) :
    (headChunk id k payload).length = 29 + min payload.length k := by
  have hpart : (if payload.length < k then payload.length else k) = min payload.length k := by
    split <;> omega
  have hid : id.length = 16 := hid
  simp only [headChunk,hpart,List.length_cons,List.length_append,hid,putU32_length,
    List.length_take]
  omega

theorem bodyChunk_length (hid : id.length = idBytes) (k : Nat) (payload : Bytes) (i : Nat) :
    (bodyChunk id k payload i).length ≤ 21 + k := by
  have hid : id.length = 16 := hid
  dsimp only [bodyChunk]
  generalize hlen : (if i*k + k > payload.length then payload.length - i*k else k) = len
  have hle : len ≤ k := by
    rw [← hlen]
    split <;> omega
  have htake : (Bytes.mid payload (i*k) len).length ≤ len := List.length_take_le _ _
  simp only [List.length_cons,List.length_append,hid,putU32_length]
  omega

theorem full_of_chunkCount {k : Nat} (hk : 0 < k) (h : 1 < chunkCountOf k payload) :
    k < payload.length := by
  unfold chunkCountOf at h
  split at h
  · omega
  · have htwo : 2*k ≤ payload.length+k-1 := (Nat.le_div_iff_mul_le hk).mp h
    omega

/-- Above an MTU of 100 the headroom is what is left, up to the cap. -/
theorem chunkSize_eq {mtu : UInt32} (h : 100 < mtu) :
    chunkSize mtu = min (mtu.toNat-100) chunkPayload := by
  have hlt : (100 : UInt32).toNat < mtu.toNat := UInt32.lt_iff_toNat_lt.mp h
  have hsub : (mtu-100).toNat = mtu.toNat-100 :=
    UInt32.toNat_sub_of_le _ _ (UInt32.le_iff_toNat_le.mpr hlt.le)
  have hpos : mtu > 0 := UInt32.lt_iff_toNat_lt.mpr (Nat.zero_lt_of_lt hlt)
  unfold chunkSize
  by_cases hcap : mtu.toNat < chunkPayload+100
  · rw [if_pos ⟨hpos,hcap⟩,if_pos h,hsub]
    omega
  · rw [if_neg fun hs => hcap hs.2]
    omega

theorem chunks_fit_iff (hid : id.length = idBytes) {mtu : UInt32} (h : 100 < mtu) :
    (∀ chunk ∈ chunksOf id mtu payload, linkFrameLength chunk.length ≤ mtu.toNat) ↔
      356 ≤ mtu.toNat ∨ 29 + min payload.length (mtu.toNat-100) < plaintextRoom mtu.toNat := by
  have hk := chunkSize_pos mtu
  have hsize := chunkSize_eq h
  have hlt : 100 < mtu.toNat := UInt32.lt_iff_toNat_lt.mp h
  have hhead : (chunkAt id mtu payload 0).length =
      29 + min payload.length (chunkSize mtu) := headChunk_length hid _ payload
  have hcap : chunkPayload = 256 := rfl
  have hiff : linkFrameLength (29 + min payload.length (chunkSize mtu)) ≤ mtu.toNat ↔
      356 ≤ mtu.toNat ∨ 29 + min payload.length (mtu.toNat-100) < plaintextRoom mtu.toNat := by
    rw [hsize,hcap,← linkFrameLength_le_iff]
    simp only [linkFrameLength]
    omega
  rw [← hiff]
  constructor
  · intro hall
    have hfirst := hall (chunkAt id mtu payload 0) (mem_chunksOf.mpr ⟨0,by omega,rfl⟩)
    rwa [hhead] at hfirst
  · intro hfits chunk hchunk
    obtain ⟨i,hi,rfl⟩ := mem_chunksOf.mp hchunk
    by_cases hzero : i = 0
    · rwa [hzero,hhead]
    · -- a body chunk stands behind a full head chunk, and is shorter
      have hfull := full_of_chunkCount hk (show 1 < chunkCountOf (chunkSize mtu) payload by omega)
      have hbody : (chunkAt id mtu payload i).length ≤ 21 + chunkSize mtu := by
        rw [chunkAt,if_neg hzero]
        exact bodyChunk_length hid _ payload i
      simp only [linkFrameLength] at hfits ⊢
      omega

theorem chunksOf_length (id : Bytes) (mtu : UInt32) (payload : Bytes) :
    (chunksOf id mtu payload).length = max (chunkCountOf (chunkSize mtu) payload) 1 := by
  rw [chunksOf_eq,List.length_cons,List.length_map,List.length_range']
  omega

end

variable (P : Platform) (env : Env) (a : Nat)

def frames : List Bytes → Node → List Bytes
  | [], _ => []
  | chunk :: chunks, n =>
    (n.frame? P a chunk Context.none).toList ++ match n.send P env a chunk with
      | .ok n => frames chunks n
      | .error _ => []

def sentFrames (payload : Bytes) (n : Node) : List Bytes :=
  match n.link? a with
  | none => []
  | some l =>
    if l.status ≠ .active then []
    else
      let (id,rng) := n.rng.random idBytes
      frames P env a (chunksOf id l.mtu payload) { n with rng := rng }

variable {P env a}

theorem frames_sent {n : Node} (hn : n.LinksSound) {l : Link} (hl : n.link? a = some l)
    (hs : l.status = .active) (henv : ∀ e m, Node.LinksLater m (env e m).2)
    (chunks : List Bytes) (m : Node) (hm : n.LinksLater m) :
    (frames P env a chunks m).map List.length =
        chunks.map (fun chunk => linkFrameLength chunk.length) ∧
      chunks.foldlM (fun n chunk => n.send P env a chunk) m =
        .ok ((frames P env a chunks m).foldl (fun n f => n.transmit env a f) m) := by
  induction chunks generalizing m with
  | nil => exact ⟨rfl,rfl⟩
  | cons chunk chunks ih =>
    obtain ⟨f,hf,hlen⟩ := frame?_later (P := P) hn hm hl hs chunk Context.none
    have hsend : m.send P env a chunk = .ok (m.transmit env a f) := by
      rw [Node.send,sendWithContext_frame,hf]
      rfl
    obtain ⟨hmap,hfold⟩ := ih _ (hm.trans (transmit_linksLater henv a f m))
    have hframes : frames P env a (chunk :: chunks) m =
        f :: frames P env a chunks (m.transmit env a f) := by
      simp only [frames,hf,hsend,Option.toList_some,List.singleton_append]
    rw [hframes]
    constructor
    · rw [List.map_cons,List.map_cons,hmap,hlen]
    · rw [List.foldlM_cons,hsend,List.foldl_cons,← hfold]
      rfl

/-- `Resource::send` returns, its frames are those that are broadcast, and they are as long as
its chunks make them. -/
theorem send_frames {n : Node} (hn : n.LinksSound) {l : Link} (hl : n.link? a = some l)
    (hs : l.status = .active) (henv : ∀ e m, Node.LinksLater m (env e m).2) (payload : Bytes) :
    (sentFrames P env a payload n).map List.length =
        (chunksOf (n.rng.random idBytes).1 l.mtu payload).map
          (fun chunk => linkFrameLength chunk.length) ∧
      ∃ res, send P env a payload n = .ok (res,(sentFrames P env a payload n).foldl
        (fun n f => n.transmit env a f) { n with rng := (n.rng.random idBytes).2 }) := by
  obtain ⟨hmap,hfold⟩ := frames_sent (P := P) hn hl hs henv
    (chunksOf (n.rng.random idBytes).1 l.mtu payload)
    { n with rng := (n.rng.random idBytes).2 } (.of_link? fun _ => rfl)
  have hsent : sentFrames P env a payload n = frames P env a
      (chunksOf (n.rng.random idBytes).1 l.mtu payload)
      { n with rng := (n.rng.random idBytes).2 } := by
    simp [sentFrames,hl,hs]
  rw [hsent]
  refine ⟨hmap,?_⟩
  simp only [send,hl,hs,ne_eq,not_true_eq_false,if_false,hfold,ok_bind]
  exact ⟨_,rfl⟩

end Resource

/-- A payload goes out chunk by chunk, and every frame of it keeps to the MTU of the link exactly
when the MTU is at least 356 or the header chunk of the payload happens to fit. -/
theorem resource_frames_fit_iff {P : Platform} {guard : Op → Node → Prop} {n : Node}
    (hn : Reachable P n) {a : Nat} {l : Link} (hl : n.link? a = some l) (hs : l.status = .active)
    (hmtu : 100 < l.mtu) {env : Env} (henv : env.Wellbehaved P guard) (payload : Bytes) :
    (∃ res, Resource.send P env a payload n =
      .ok (res,(Resource.sentFrames P env a payload n).foldl (fun n f => n.transmit env a f)
        { n with rng := (n.rng.random idBytes).2 })) ∧
    (Resource.sentFrames P env a payload n).length =
      max (Resource.chunkCountOf (Resource.chunkSize l.mtu) payload) 1 ∧
    ((∀ f ∈ Resource.sentFrames P env a payload n, f.length ≤ l.mtu.toNat) ↔
      356 ≤ l.mtu.toNat ∨
        29 + min payload.length (l.mtu.toNat-100) < plaintextRoom l.mtu.toNat) := by
  obtain ⟨hmap,hsend⟩ := Resource.send_frames (P := P) hn.linksSound hl hs henv.linksLater
    payload
  refine ⟨hsend,?_,?_⟩
  · have hcount := congrArg List.length hmap
    rwa [List.length_map,List.length_map,Resource.chunksOf_length] at hcount
  · rw [← Resource.chunks_fit_iff (n.rng.random_length idBytes) hmtu]
    generalize Resource.sentFrames P env a payload n = fs at hmap ⊢
    have hlen : (∀ f ∈ fs, f.length ≤ l.mtu.toNat) ↔
        ∀ k ∈ fs.map List.length, k ≤ l.mtu.toNat := by simp
    rw [hlen,hmap]
    simp

theorem narrow_link : ∃ n l, Reachable Sample.platform n ∧ n.link? 0 = some l ∧
    l.status = .active ∧ l.mtu = 200 ∧ n.interfaces = [0] ∧
    n.requestHandlers l.destination.obj = requestTable Sample.platform [([0x2F],4)] := by
  obtain ⟨n,hn,hq⟩ := reachable_of_endsIn Sample.platform (Sample.responder ++
      [.inbound (Sample.requestFrame 200) (some 0),.registerRequestHandler 0 [0x2F] 4])
    (Sample.rng 3) (fun n => (n.link? 0).any fun l => l.status = .active ∧ l.mtu = 200 ∧
      n.interfaces = [0] ∧
      n.requestHandlers l.destination.obj = requestTable Sample.platform [([0x2F],4)])
    (by decide +kernel)
  obtain ⟨l,hl,hq⟩ := (Option.any_eq_true _ _).mp hq
  obtain ⟨hs,hmtu,hifaces,hregs⟩ := of_decide_eq_true hq
  exact ⟨n,l,hn,hl,hs,hmtu,hifaces,hregs⟩

theorem resource_frames_fit_narrow : ∃ n l, Reachable Sample.platform n ∧
    n.link? 0 = some l ∧ l.mtu = 200 ∧
    (∀ f ∈ Resource.sentFrames Sample.platform quiet 0 [1,2,3] n, f.length ≤ l.mtu.toNat) ∧
    ¬ ∀ f ∈ Resource.sentFrames Sample.platform quiet 0 (List.replicate 500 0) n,
      f.length ≤ l.mtu.toNat := by
  obtain ⟨n,l,hn,hl,hs,hmtu,-⟩ := narrow_link
  have hgt : 100 < l.mtu := by rw [hmtu]; decide
  have hquiet := quiet_runs Sample.platform fun _ _ => True
  refine ⟨n,l,hn,hl,hmtu,?_,?_⟩
  · refine (resource_frames_fit_iff hn hl hs hgt hquiet [1,2,3]).2.2.mpr (.inr ?_)
    rw [hmtu]
    decide
  · rw [(resource_frames_fit_iff hn hl hs hgt hquiet (List.replicate 500 0)).2.2,hmtu,
      List.length_replicate]
    decide

/-- At an MTU of 200 the first 100 bytes of a payload make a frame of 211. -/
theorem resource_frame_oversized : ∃ n l f, Reachable Sample.platform n ∧
    n.link? 0 = some l ∧ l.status = .active ∧ l.mtu = 200 ∧
    f ∈ Resource.sentFrames Sample.platform quiet 0 (List.replicate 500 0) n ∧
    l.mtu.toNat < f.length := by
  obtain ⟨n,l,hn,hl,hs,hmtu,-⟩ := narrow_link
  obtain ⟨hmap,-⟩ := Resource.send_frames (P := Sample.platform) hn.linksSound hl hs
    (Env.Wellbehaved.linksLater (quiet_runs Sample.platform fun _ _ => True))
    (List.replicate 500 0)
  generalize hid : (n.rng.random idBytes).1 = id at hmap
  have hidl : id.length = idBytes := hid ▸ n.rng.random_length idBytes
  have hhead : (Resource.chunkAt id l.mtu (List.replicate 500 0) 0).length = 129 := by
    rw [Resource.chunkAt,if_pos rfl,Resource.headChunk_length hidl,hmtu,List.length_replicate]
    rfl
  have hmem : 211 ∈ (Resource.sentFrames Sample.platform quiet 0 (List.replicate 500 0) n).map
      List.length := by
    rw [hmap]
    refine List.mem_map.mpr ⟨_,Resource.mem_chunksOf.mpr ⟨0,by omega,rfl⟩,?_⟩
    rw [hhead]
    rfl
  obtain ⟨f,hf,hlen⟩ := List.mem_map.mp hmem
  exact ⟨n,l,f,hn,hl,hs,hmtu,hf,by rw [hlen,hmtu]; decide⟩

/-- Nothing is refused: every plaintext becomes a frame that is broadcast, and the frame keeps to
the MTU of the link exactly when the plaintext is below its room. So does the response to a
request, packed behind its id. -/
theorem link_frames_fit_iff {P : Platform} {guard : Op → Node → Prop} {n : Node}
    (hn : Reachable P n) {a : Nat} {l : Link} (hl : n.link? a = some l)
    (hs : l.status = .active) :
    (∀ pt ctx, ∃ f, n.frame? P a pt ctx = some f ∧
      (∀ env, n.sendWithContext P env a pt ctx = .ok (n.transmit env a f)) ∧
      (f.length ≤ l.mtu.toNat ↔ pt.length < plaintextRoom l.mtu.toNat)) ∧
    ∀ env, env.Wellbehaved P guard → ∀ pt packet request handler,
      MsgPack.readRequest P.sizeBits pt = .ok (some request) →
      (n.requestHandlers l.destination.obj).lookup request.pathHash = some handler →
      let answered := n.callOut env (.generate a handler.generator handler.path request.data
        (truncatedHash P packet.getHashablePart) l.hash request.requestedAt)
      answered.1.response ≠ [] → ∃ f,
        n.handleRequest P env a l pt packet = .ok (answered.2.transmit env a f) ∧
        (f.length ≤ l.mtu.toNat ↔ 19 + MsgPack.binHeader answered.1.response.length +
          answered.1.response.length < plaintextRoom l.mtu.toNat) := by
  constructor
  · intro pt ctx
    obtain ⟨f,hf,hlen⟩ := frame?_later (P := P) hn.linksSound (.refl n) hl hs pt ctx
    refine ⟨f,hf,fun env => ?_,by rw [hlen,linkFrameLength_le_iff]⟩
    rw [sendWithContext_frame,hf]
    rfl
  · intro env henv pt packet request handler hread hlookup answered hne
    obtain ⟨-,hresponse⟩ := @handleRequest_eq P n a l pt packet request handler hread hlookup env
    have hlater : n.LinksLater answered.2 := Node.LinksLater.trans (.of_link? fun _ => rfl)
      (tell_linksLater henv.linksLater (.generate a handler.generator handler.path request.data
        (truncatedHash P packet.getHashablePart) l.hash request.requestedAt) n)
    obtain ⟨f,hf,hlen⟩ := frame?_later (P := P) hn.linksSound hlater hl hs
      (MsgPack.packResponse (truncatedHash P packet.getHashablePart) answered.1.response)
      Context.response
    refine ⟨f,?_,?_⟩
    · rw [hresponse hne,sendWithContext_frame,hf]
      rfl
    · have hpacked : (MsgPack.packResponse (truncatedHash P packet.getHashablePart)
          answered.1.response).length =
            19 + MsgPack.binHeader answered.1.response.length + answered.1.response.length := by
        simp [MsgPack.packResponse,MsgPack.packArrayHeader,MsgPack.packBin_length,
          MsgPack.binHeader]
        omega
      rw [hlen,linkFrameLength_le_iff,hpacked]

/-- 127 bytes fit an MTU of 200; a response of 107 bytes does not. -/
theorem link_frames_fit_narrow : ∃ (n answered : Node) (l : Link) (env : Env)
    (f f' response : Bytes) (packet : Packet),
    Reachable Sample.platform n ∧ n.link? 0 = some l ∧ l.mtu = 200 ∧
    n.frame? Sample.platform 0 (List.replicate 127 0) Context.none = some f ∧
    f.length ≤ l.mtu.toNat ∧ (∀ e u, (env e u).1.response = response) ∧ response.length = 107 ∧
    n.handleRequest Sample.platform env 0 l (MsgPack.packRequest 7
      (truncatedHash Sample.platform [0x2F]) none) packet =
        .ok (answered.transmit env 0 f') ∧
    ¬ f'.length ≤ l.mtu.toNat := by
  obtain ⟨n,l,hn,hl,hs,hmtu,-,hregs⟩ := narrow_link
  obtain ⟨hsend,hrequest⟩ := @link_frames_fit_iff _ (fun _ _ => True) _ hn _ _ hl hs
  obtain ⟨f,hf,-,hfits⟩ := hsend (List.replicate 127 0) Context.none
  let env : Env := fun _ u => (⟨List.replicate 107 0,none⟩,u)
  have hread : MsgPack.readRequest Sample.platform.sizeBits (MsgPack.packRequest 7
      (truncatedHash Sample.platform [0x2F]) none) =
        .ok (some ⟨7,truncatedHash Sample.platform [0x2F],[]⟩) :=
    MsgPack.readRequest_packRequest 7 (by rw [truncatedHash_length]; decide) (by simp)
      (by decide +kernel)
  have hlookup : (n.requestHandlers l.destination.obj).lookup
      (truncatedHash Sample.platform [0x2F]) =
        some (Destination.requestHandler Sample.platform [0x2F] 4) := by
    rw [hregs]
    exact @requestTable_lookup _ [] [] _ _ (by simp) (by simp)
  obtain ⟨f',hhandle,hfits'⟩ := hrequest env (fun _ u => .refl u) _
    (Packet.parsed Sample.platform .header1 []) _ _ hread hlookup (List.cons_ne_nil _ _)
  refine ⟨n,_,l,env,f,f',List.replicate 107 0,_,hn,hl,hmtu,hf,hfits.mpr ?_,fun _ _ => rfl,
    List.length_replicate,hhandle,fun h => ?_⟩
  · rw [hmtu,List.length_replicate]
    decide
  · have hroom : 19 + MsgPack.binHeader (List.replicate 107 (0 : UInt8)).length +
        (List.replicate 107 (0 : UInt8)).length < plaintextRoom l.mtu.toNat := hfits'.mp h
    rw [hmtu,List.length_replicate] at hroom
    exact absurd hroom (by decide)

/-- At an MTU of 200 a plaintext of 128 bytes is put on the wire in a frame of 211. -/
theorem link_frame_oversized : ∃ n l f m, Reachable Sample.platform n ∧ n.link? 0 = some l ∧
    l.status = .active ∧ l.mtu = 200 ∧
    n.send Sample.platform quiet 0 (List.replicate 128 0) = .ok m ∧
    .sendOutgoing 0 f (.link 0) ∈ m.log ∧ l.mtu.toNat < f.length := by
  obtain ⟨n,l,hn,hl,hs,hmtu,hifaces,-⟩ := narrow_link
  obtain ⟨f,hf,hlen⟩ := frame?_later (P := Sample.platform) hn.linksSound (.refl n) hl hs
    (List.replicate 128 0) Context.none
  have hsend : n.send Sample.platform quiet 0 (List.replicate 128 0) =
      .ok (n.transmit quiet 0 f) := by
    rw [Node.send,sendWithContext_frame,hf]
    rfl
  refine ⟨n,l,f,_,hn,hl,hs,hmtu,hsend,?_,?_⟩
  · show _ ∈ Node.log (List.foldl _ _ n.interfaces)
    rw [hifaces]
    exact List.mem_cons_self
  · rw [hlen,hmtu,List.length_replicate]
    decide

end RNS
