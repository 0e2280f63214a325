import RTReticulum.Link
import RTReticulum.Simulation

/-! The frame format: what `pack` writes and `unpack` reads, and what the hash of a packet
says of it. -/
set_option autoImplicit false

namespace RNS
namespace Packet

def slice (raw : Bytes) (offset len : Nat) : Option Bytes :=
  if offset+len ≤ raw.length then some (Bytes.mid raw offset len) else none

/-- `unpack` once more, with each of its reads checked against the buffer; `none` is a read
outside. -/
def unpackChecked (P : Platform) (raw : Bytes) : Option (Option Packet) :=
  if raw.length < 19 then some none
  else do
    let flags ← raw[0]?
    let hops ← raw[1]?
    let headerType := HeaderType.ofByte ((flags &&& 0x40) >>> 6)
    if headerType = .header2 ∧ raw.length < 35 then some none
    else
      let transportId ← if headerType = .header2 then slice raw 2 16 else some []
      let destinationHash ← slice raw (hashOffset headerType) 16
      let context ← raw[hashOffset headerType+16]?
      let data ← slice raw (hashOffset headerType+17) (raw.length - (hashOffset headerType+17))
      return some
        { headerType := headerType
          transportType := TransportType.ofByte ((flags &&& 0x10) >>> 4)
          destinationType := DestinationType.ofByte ((flags &&& 0x0C) >>> 2)
          packetType := PacketType.ofByte (flags &&& 0x03)
          context := context
          contextFlag := ContextFlag.ofByte ((flags &&& 0x20) >>> 5)
          flags := flags, hops := hops, destination := none
          destinationHash := destinationHash, transportId := transportId, data := data, raw := raw
          packetHash := fullHash P (hashablePart headerType raw) }

def wire (p : Packet) : Bytes :=
  [p.flags,p.hops] ++ p.transportId ++ p.destinationHash ++ [p.context] ++ p.data

section
variable {P : Platform}

theorem unpack_isSome {raw : Bytes} : (unpack P raw).isSome ↔
    19 ≤ raw.length ∧ (raw.getD 0 0 &&& 0x40 ≠ 0 → 35 ≤ raw.length) := by
  by_cases hf : raw.getD 0 0 &&& 0x40 = 0
  · simp only [unpack,headerType_of_header1 hf,hashOffset]
    split
    · exact iff_of_false Bool.false_ne_true fun h => by omega
    · exact iff_of_true rfl ⟨by omega,fun h => absurd hf h⟩
  · simp only [unpack,headerType_of_header2 hf,hashOffset]
    split
    · exact iff_of_false Bool.false_ne_true fun h => by have := h.2 hf; omega
    · exact iff_of_true rfl ⟨by omega,fun _ => by omega⟩

theorem split_at {raw : Bytes} {n : Nat} (h : n+17 ≤ raw.length) :
    ∃ pre dest ctx data, raw = pre ++ (dest ++ ctx :: data) ∧ pre.length = n ∧
      dest.length = 16 := by
  obtain ⟨ctx,data,hrest⟩ : ∃ ctx data, raw.drop (n+16) = ctx :: data := by
    cases hd : raw.drop (n+16) with
    | nil =>
      have := congrArg List.length hd
      simp at this; omega
    | cons ctx data => exact ⟨ctx,data,rfl⟩
  refine ⟨raw.take n,(raw.drop n).take 16,ctx,data,?_,by simp; omega,by simp; omega⟩
  rw [← hrest,← List.drop_drop,List.take_append_drop,List.take_append_drop]

theorem unpack_fields {raw : Bytes} {p : Packet} (h : unpack P raw = some p) :
    p.wire = raw ∧ p.destinationHash.length = 16 ∧
      p.getHashablePart = (p.flags &&& 0x0F) :: (p.destinationHash ++ p.context :: p.data) ∧
      p.packetHash = fullHash P p.getHashablePart := by
  obtain ⟨hlen,hlen2⟩ := unpack_isSome.mp (Option.isSome_iff_exists.mpr ⟨p,h⟩)
  by_cases hf : raw.getD 0 0 &&& 0x40 = 0
  · obtain ⟨pre,dest,ctx,data,rfl,hpre,hd⟩ := split_at (n := 2) hlen
    obtain ⟨flags,hops,rfl⟩ := List.length_eq_two.mp hpre
    have hc := @parsed_header1 P flags hops dest data ctx hd
    have hf' : flags &&& 0x40 = 0 := hf
    have hu : unpack P (flags :: hops :: (dest ++ ctx :: data)) = _ := unpack_header1 hf' hd
    cases hu.symm.trans h
    exact ⟨by simp [wire,hc.destinationHash,hc.context,hc.data]; exact ⟨rfl,rfl,rfl⟩,
      by rw [hc.destinationHash,hd],by rw [hc.hashable,hc.destinationHash,hc.context,hc.data]; rfl,
      rfl⟩
  · obtain ⟨pre,dest,ctx,data,rfl,hpre,hd⟩ := split_at (n := 18) (hlen2 hf)
    obtain ⟨flags,hops,tid,rfl,ht⟩ : ∃ flags hops tid, pre = flags :: hops :: tid ∧
        tid.length = 16 := by
      match pre, hpre with
      | flags :: hops :: tid, hpre => exact ⟨flags,hops,tid,rfl,by simpa using hpre⟩
    have hc := @parsed_header2 P flags hops tid dest data ctx ht hd
    have hf' : flags &&& 0x40 ≠ 0 := hf
    have hu : unpack P (flags :: hops :: (tid ++ (dest ++ ctx :: data))) = _ :=
      unpack_header2 hf' ht hd
    cases hu.symm.trans h
    have htid : (parsed P .header2 (flags :: hops :: (tid ++ (dest ++ ctx :: data)))).transportId
        = tid := by simp [parsed,Bytes.mid,ht]
    exact ⟨by simp [wire,htid,hc.destinationHash,hc.context,hc.data]; exact ⟨rfl,rfl⟩,
      by rw [hc.destinationHash,hd],by rw [hc.hashable,hc.destinationHash,hc.context,hc.data]; rfl,
      rfl⟩

theorem getElem?_of_lt {raw : Bytes} {i : Nat} (h : i < raw.length) :
    raw[i]? = some (raw.getD i 0) := by
  rw [List.getD_eq_getElem?_getD,List.getElem?_eq_getElem h]; rfl

theorem slice_of_le {raw : Bytes} {offset len : Nat} (h : offset+len ≤ raw.length) :
    slice raw offset len = some (Bytes.mid raw offset len) := if_pos h

theorem slice_rest {raw : Bytes} {offset : Nat} (h : offset ≤ raw.length) :
    slice raw offset (raw.length-offset) = some (Bytes.midFrom raw offset) := by
  rw [slice_of_le (by omega),Bytes.mid,List.take_of_length_le (by simp)]

/-- No read of `unpack` is outside the buffer. -/
theorem unpackChecked_eq (raw : Bytes) : unpackChecked P raw = some (unpack P raw) := by
  by_cases hshort : raw.length < 19
  · simp [unpackChecked,unpack,hshort]
  have hlen : 19 ≤ raw.length := by omega
  simp only [unpackChecked,if_neg hshort,getElem?_of_lt (show 0 < raw.length by omega),
    getElem?_of_lt (show 1 < raw.length by omega),Option.bind_eq_bind,Option.bind_some]
  by_cases hf : raw.getD 0 0 &&& 0x40 = 0
  · simp only [headerType_of_header1 hf,false_and,if_false,reduceCtorEq,hashOffset,Option.bind_some,
      slice_of_le (show 2+16 ≤ raw.length by omega),
      getElem?_of_lt (show 2+16 < raw.length by omega),
      slice_rest (show 2+17 ≤ raw.length by omega)]
    have hok : ¬ (raw.length < 19 ∨ raw.length < 2+17) := by omega
    simp only [unpack,headerType_of_header1 hf,hashOffset,if_neg hok]
    rfl
  · simp only [headerType_of_header2 hf,true_and]
    by_cases h35 : raw.length < 35
    · simp only [if_pos h35,unpack,headerType_of_header2 hf,hashOffset]
      rw [if_pos (by omega)]
    · simp only [if_neg h35,if_true,hashOffset,Option.bind_some,
        slice_of_le (show 2+16 ≤ raw.length by omega),
        slice_of_le (show 18+16 ≤ raw.length by omega),
        getElem?_of_lt (show 18+16 < raw.length by omega),
        slice_rest (show 18+17 ≤ raw.length by omega)]
      have hok : ¬ (raw.length < 19 ∨ raw.length < 18+17) := by omega
      simp only [unpack,headerType_of_header2 hf,hashOffset,if_neg hok]
      rfl

theorem pack_ofDestination_frame {d : Destination} {data : Bytes} {t : PacketType}
    {ctx : Context} {tt : TransportType} {r r' : Rng} {p : Packet}
    (h : (ofDestination d data t ctx tt).pack P r = .ok (p,r')) : ∃ c,
      p.raw = frame (packFlags .header1 .unset tt d.type t) 0 d.hash ctx c ∧
      p.packetHash = fullHash P (hashablePart .header1 p.raw) ∧
      (t ≠ .data → c = data.take 464) ∧
      (t = .data → d.encrypt P (data.take 464) r = .ok (c,r')) := by
  have hcut : (ofDestination d data t ctx tt).data = data.take 464 := by
    simp only [ofDestination]
    split
    · rename_i hlen
      exact Bytes.resize_of_le (Nat.le_of_lt hlen)
    · rename_i hlen
      exact (List.take_of_length_le (Nat.not_lt.mp hlen)).symm
  have hdest : (ofDestination d data t ctx tt).destination = some d := rfl
  have htype : (ofDestination d data t ctx tt).packetType = t := rfl
  simp only [pack,hdest,htype,hcut] at h
  by_cases ht : t = .data
  · simp only [if_pos ht] at h
    obtain ⟨⟨c,r₁⟩,hc,hp⟩ := bind_eq_ok.mp h
    cases hp
    exact ⟨c,rfl,rfl,fun hne => absurd ht hne,fun _ => hc⟩
  · simp only [if_neg ht] at h
    cases h
    exact ⟨_,rfl,rfl,fun _ => rfl,fun h => absurd h ht⟩

theorem packFlags_transport (d : DestinationType) (t : PacketType) {tt : TransportType}
    (h : tt = .broadcast ∨ tt = .transport) :
    packFlags .header1 .unset tt d t &&& 0x40 = 0 ∧
      PacketType.ofByte (packFlags .header1 .unset tt d t &&& 0x03) = t := by
  rcases h with rfl | rfl <;> cases d <;> cases t <;> exact ⟨rfl,rfl⟩

/-- What is packed is unpacked again, and what is unpacked is all of the frame. -/
theorem frame_roundtrip :
    (∀ (d : Destination) (data : Bytes) (t : PacketType) (ctx : Context) (tt : TransportType)
      (r r' : Rng) (p : Packet), d.hash.length = 16 → tt = .broadcast ∨ tt = .transport →
      (ofDestination d data t ctx tt).pack P r = .ok (p,r') →
      ∃ q, unpack P p.raw = some q ∧ q.headerType = .header1 ∧ q.packetType = t ∧
        q.context = ctx ∧ q.destinationHash = d.hash ∧ q.hops = 0 ∧
        q.packetHash = p.packetHash ∧ (t ≠ .data → q.data = data.take 464) ∧
        (t = .data → d.encrypt P (data.take 464) r = .ok (q.data,r'))) ∧
    ∀ raw : Bytes,
      ((unpack P raw).isSome ↔ 19 ≤ raw.length ∧ (raw.getD 0 0 &&& 0x40 ≠ 0 → 35 ≤ raw.length)) ∧
      unpackChecked P raw = some (unpack P raw) ∧
      ∀ p, unpack P raw = some p →
        p.transportId.length = (if p.headerType = .header2 then 16 else 0) ∧
        p.destinationHash.length = 16 ∧ p.wire = raw := by
  refine ⟨?_,fun raw => ⟨unpack_isSome,unpackChecked_eq raw,fun p hp => ?_⟩⟩
  · intro d data t ctx tt r r' p hd htt h
    obtain ⟨c,hraw,hhash,hother,hdata⟩ := pack_ofDestination_frame h
    obtain ⟨hflag,htype⟩ := packFlags_transport d.type t htt
    rw [frame_cons] at hraw
    have hc := @parsed_header1 P (packFlags .header1 .unset tt d.type t) 0 d.hash c ctx hd
    refine ⟨_,by rw [hraw]; exact unpack_header1 hflag hd,rfl,hc.packetType.trans htype,hc.context,
      hc.destinationHash,rfl,by rw [hhash,hraw]; rfl,fun ht => ?_,fun ht => ?_⟩
    · rw [hc.data]; exact hother ht
    · rw [hc.data]; exact hdata ht
  · obtain ⟨hwire,hlen,-⟩ := unpack_fields hp
    refine ⟨?_,hlen,hwire⟩
    simp only [unpack] at hp
    split at hp
    · cases hp
    · rename_i h
      cases hp
      by_cases hf : raw.getD 0 0 &&& 0x40 = 0
      · simp only [parsed,headerType_of_header1 hf,reduceCtorEq,if_false,List.length_nil]
      · simp only [headerType_of_header2 hf,hashOffset] at h
        simp only [parsed,headerType_of_header2 hf,if_true,Bytes.mid,List.length_take,
          List.length_drop]
        omega

/-- Two packets hash the same part if and only if they say the same. -/
theorem hashablePart_iff {f g : Bytes} {p q : Packet} (hp : unpack P f = some p)
    (hq : unpack P g = some q) :
    p.getHashablePart = q.getHashablePart ↔ p.flags &&& 0x0F = q.flags &&& 0x0F ∧
      p.destinationHash = q.destinationHash ∧ p.context = q.context ∧ p.data = q.data := by
  obtain ⟨-,hpl,hpart,-⟩ := unpack_fields hp
  obtain ⟨-,hql,hqart,-⟩ := unpack_fields hq
  rw [hpart,hqart,List.cons.injEq]
  constructor
  · rintro ⟨hlow,h⟩
    obtain ⟨hd,h⟩ := List.append_inj h (hpl.trans hql.symm)
    obtain ⟨hc,hdata⟩ := List.cons.inj h
    exact ⟨hlow,hd,hc,hdata⟩
  · rintro ⟨hlow,hd,hc,hdata⟩
    rw [hd,hc,hdata]
    exact ⟨hlow,rfl⟩

end

theorem frame_roundtrip_sample : ∃ p r' q,
    (ofDestination Sample.outDestination [1,2,3] .data Context.request .transport).pack
      Sample.platform (Sample.rng 6) = .ok (p,r') ∧ unpack Sample.platform p.raw = some q ∧
    q.context = Context.request ∧ q.packetHash = p.packetHash ∧ q.wire = p.raw := by
  have hpub : Sample.outDestination.encrypt Sample.platform [1,2,3] (Sample.rng 6) =
      (Identity.loadPublicKey Sample.platform .blank Sample.identity.getPublicKey).encrypt
        Sample.platform [1,2,3] (Sample.rng 6) := rfl
  obtain ⟨c,r',henc⟩ := Identity.encrypt_ok (P := Sample.platform)
    (show (Identity.loadPublicKey Sample.platform .blank Sample.identity.getPublicKey).pub.isSome
      from rfl) (by rw [(Sample.identity_keyed.holds (Identity.loadPublicKey_holds _ _)).1,
        Sample.identity_keyed.pubBytes_length]) [1,2,3] (Sample.rng 6)
  obtain ⟨p,hp,-⟩ := pack_data (hpub.trans henc) Context.request .transport (by decide)
  obtain ⟨hround,hwire⟩ := frame_roundtrip (P := Sample.platform)
  obtain ⟨q,hq,-,-,hctx,-,-,hhash,-⟩ := hround _ _ _ _ _ _ _ _ (truncatedHash_length _ _)
    (.inr rfl) hp
  exact ⟨p,r',q,hp,hq,hctx,hhash,((hwire p.raw).2.2 q hq).2.2⟩

end Packet

/-- The hash of a packet covers what its sender said and nothing a relay may change; the id
of a link, moreover, only the keys of the request. -/
theorem hash_covers {P : Platform} {f g : Bytes} {p q : Packet}
    (hp : Packet.unpack P f = some p) (hq : Packet.unpack P g = some q) :
    (p.getHashablePart = q.getHashablePart ↔ p.flags &&& 0x0F = q.flags &&& 0x0F ∧
      p.destinationHash = q.destinationHash ∧ p.context = q.context ∧ p.data = q.data) ∧
    (Packet.Rewritten f g → p.getHashablePart = q.getHashablePart ∧ p.packetHash = q.packetHash) ∧
    (p.packetType = .linkRequest → p.flags &&& 0x0F = q.flags &&& 0x0F →
      p.destinationHash = q.destinationHash → p.context = q.context →
      64 ≤ p.data.length → 64 ≤ q.data.length → p.data.take 64 = q.data.take 64 →
      Link.linkIdFromLrPacket P p p.data.length = Link.linkIdFromLrPacket P q q.data.length) := by
  refine ⟨Packet.hashablePart_iff hp hq,fun h => ?_,fun _ hlow hd hc hp64 hq64 hkeys => ?_⟩
  · exact ⟨(h.getHashablePart hp hq).symm,(h.packetHash hp hq).symm⟩
  · have id : ∀ {f : Bytes} {p : Packet}, Packet.unpack P f = some p → 64 ≤ p.data.length →
        Link.linkIdFromLrPacket P p p.data.length = truncatedHash P
          ((p.flags &&& 0x0F) :: (p.destinationHash ++ p.context :: p.data.take 64)) := by
      intro f p hp h64
      obtain ⟨-,-,hpart,-⟩ := Packet.unpack_fields hp
      rw [← List.take_append_drop 64 p.data] at hpart
      have h := Link.linkIdFromLrPacket_eq (P := P) hpart (by simpa using h64)
      rwa [List.take_append_drop] at h
    rw [id hp hp64,id hq hq64,hlow,hd,hc,hkeys]

theorem hash_covers_sample : ∃ p q,
    Packet.unpack Sample.platform (0x02 :: 0 :: (List.replicate 16 7 ++ [0,9])) = some p ∧
    Packet.unpack Sample.platform
      (0x52 :: 3 :: (List.replicate 16 1 ++ (List.replicate 16 7 ++ [0,9]))) = some q ∧
    p.headerType ≠ q.headerType ∧ p.packetHash = q.packetHash := by
  have hp : Packet.unpack Sample.platform (0x02 :: 0 :: (List.replicate 16 7 ++ [0,9])) = _ :=
    Packet.unpack_header1 rfl rfl
  have hq : Packet.unpack Sample.platform
      (0x52 :: 3 :: (List.replicate 16 1 ++ (List.replicate 16 7 ++ [0,9]))) = _ :=
    Packet.unpack_header2 (by decide) rfl rfl
  exact ⟨_,_,hp,hq,nofun,((hash_covers hp hq).2.1
    (.header2 0x02 0 0x52 3 _ _ rfl (by decide) rfl rfl)).2⟩

end RNS
