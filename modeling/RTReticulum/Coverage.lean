import RTReticulum.Discovery
import RTReticulum.Flood
import RTReticulum.Frames
import RTReticulum.Interfaces
import RTReticulum.Routes
import RTReticulum.Upkeep

/-! How far an announce spreads in a network: once all its copies have arrived, every node that
is joined to the owner knows a path. -/
set_option autoImplicit false

namespace RNS

section
variable {P : Platform}

def Node.Heeds (P : Platform) (n : Node) : Prop :=
  ∀ raw iface p, .rx raw iface ∈ n.log → Packet.unpack P raw = some p →
    p.packetType = .announce → p.packetHash ∈ n.seenAnnounces

namespace Node.Heeds
variable {n : Node}

theorem grow (h : n.Heeds P) {m : Node} (hlog : m.log = n.log)
    (hseen : n.seenAnnounces ⊆ m.seenAnnounces) : m.Heeds P := by
  intro raw iface p hrx hp ht
  rw [hlog] at hrx
  exact hseen (h raw iface p hrx hp ht)

theorem note (h : n.Heeds P) {e : Event} (he : ∀ raw iface, e ≠ .rx raw iface) :
    (n.note e).Heeds P := by
  intro raw iface p hrx hp ht
  rcases List.mem_cons.mp hrx with hrx | hrx
  · exact absurd hrx.symm (he raw iface)
  · exact h raw iface p hrx hp ht

theorem rx (h : n.Heeds P) {raw : Bytes} {iface : Option Nat}
    (hraw : ∀ p, Packet.unpack P raw = some p → p.packetType = .announce →
      p.packetHash ∈ n.seenAnnounces) : (n.note (.rx raw iface)).Heeds P := by
  intro raw' iface' p hrx hp ht
  rcases List.mem_cons.mp hrx with hrx | hrx
  · cases hrx
    exact hraw p hp ht
  · exact h raw' iface' p hrx hp ht

variable {env : Env} (henv : ∀ (e : Event) (m : Node), m.Heeds P → (env e m).2.Heeds P)
include henv

theorem upkeep : Upkeep env (Node.Heeds P) where
  tables := fun _ _ _ _ hseen hn => hn.grow rfl hseen
  relay := fun _ hn => hn.note fun _ _ h => by cases h
  onProof := fun _ _ hn => hn.note fun _ _ h => by cases h
  call := fun {n e} hn he => by
    refine henv e _ (hn.note fun raw iface heq => ?_)
    subst heq
    exact he
  registerLink := fun {n} a hn => hn.grow (registerLink_log a n)
    (by rw [registerLink_seenAnnounces])
  proof := fun hn _ _ => hn.grow rfl subset_rfl

theorem inbound (h : n.Heeds P) {raw : Bytes} {iface : Option Nat} {u : Node}
    (hu : n.inbound P env raw iface = .ok u) : u.Heeds P := by
  by_cases hraw : ∃ p, Packet.unpack P raw = some p ∧ p.packetType = .announce
  · obtain ⟨p,hp,ht⟩ := hraw
    -- no call is made between the log entry and the insertion of the hash
    simp only [Node.inbound,hp,ht,processAnnounce_eq,Except.ok.injEq] at hu
    subst hu
    have hrx {m : Node} (hlog : m.log = (n.note (.rx raw iface)).log)
        (hseen : insert p.packetHash n.seenAnnounces ⊆ m.seenAnnounces) : m.Heeds P := by
      intro raw' iface' q hrx hq hqt
      rw [hlog] at hrx
      rcases List.mem_cons.mp hrx with hrx | hrx
      · cases hrx
        cases hp.symm.trans hq
        exact hseen (Finset.mem_insert_self _ _)
      · exact hseen (Finset.mem_insert_of_mem (h raw' iface' q hrx hq hqt))
    split
    · rename_i hmem
      exact hrx rfl (Finset.insert_subset hmem subset_rfl)
    split
    · exact hrx rfl subset_rfl
    · rename_i a _
      exact (upkeep henv).relayAnnounce
        (hrx (m := (n.note (.rx raw iface)).believe p a iface) rfl subset_rfl)
  · have hrx : (n.note (.rx raw iface)).Heeds P :=
      h.rx fun p hp ht => absurd ⟨p,hp,ht⟩ hraw
    refine (upkeep henv).inbound hrx (fun _ _ _ _ _ _ _ => hrx.grow rfl subset_rfl) ?_ hu
    intro packet a _ _ _ l cb pt _ _ _ _ _ _ _
    exact henv _ _ (hrx.note fun _ _ h => by cases h)

theorem exec (h : n.Heeds P) {o : Op} (ho : o ≠ .reset) {u : Node}
    (hu : RNS.exec P env o n = .ok u) : u.Heeds P := by
  have same {m : Node} (hlog : m.log = n.log) (hseen : m.seenAnnounces = n.seenAnnounces) :
      m.Heeds P := h.grow hlog (by rw [hseen])
  refine (upkeep henv).exec h (fun _ _ => same rfl rfl)
    (fun cb pt a => henv _ _ (h.note fun _ _ h => by cases h))
    (fun raw iface hu => h.inbound henv hu) (fun hdirect => ?_) hu
  cases o with
  | reset => exact absurd rfl ho
  | deregisterLink a =>
    cases hu
    unfold Node.deregisterLink
    split <;> exact same rfl rfl
  | setLinkPacketCallback a c =>
    cases hu
    unfold Node.setPacketCallback
    split <;> exact same rfl rfl
  | setEstablishedCallback a c =>
    cases hu
    unfold Node.setEstablishedCallback
    split <;> exact same rfl rfl
  | broadcast _ _ | inbound _ _ | announce _ _ _ | request _ _ _ _ | validateRequest _ _ _
  | onProof _ _ | onInbound _ _ | send _ _ | sendWithContext _ _ _ | registerLink _
  | random _ => exact hdirect.elim
  | _ =>
    cases hu
    exact same rfl rfl

end Node.Heeds

/-- The part that one node has in the spreading of an announce: its destination and hash, the
interfaces that are to carry it on, whether the node made it, the hops it comes with at most,
and what else is known of how it comes. -/
structure Spreading where
  dest : Bytes
  hash : Bytes
  wired : Nat → Prop
  owns : Prop
  hops : Nat
  air : Bytes → Option Nat → Prop

structure Announce.Copies (P : Platform) (dest x raw : Bytes) (p : Packet) : Prop where
  unpacked : Packet.unpack P raw = some p
  packetType : p.packetType = .announce
  destinationHash : p.destinationHash = dest
  packetHash : p.packetHash = x

/-- An operation that does not get in the way. -/
structure Op.Spreads (P : Platform) (s : Spreading) (o : Op) : Prop where
  kept : o ≠ .reset ∧ o ≠ .clearPaths
  frames : ∀ raw skip, o = .broadcast raw skip → frameType raw ≠ .announce
  stays : ∀ i, o = .deregisterInterface i → ¬ s.wired i
  announces : ¬ s.owns → ∀ d app send, o = .announce d app send →
    d.hash.length = 16 ∧ d.hash ≠ s.dest
  arrives : ∀ raw iface p, o = .inbound raw iface → Announce.Copies P s.dest s.hash raw p →
    p.hops.toNat ≤ s.hops ∧ s.air raw iface

structure Node.Grows (s : Spreading) (n m : Node) : Prop where
  wired : (∀ i, s.wired i → i ∈ n.interfaces) → ∀ i, s.wired i → i ∈ m.interfaces
  log : n.log ⊆ m.log
  seen : n.seenAnnounces ⊆ m.seenAnnounces
  path : (n.pathTable.lookup s.dest).isSome → (m.pathTable.lookup s.dest).isSome
  known : (n.knownDestinations.lookup s.dest).isSome → (m.knownDestinations.lookup s.dest).isSome

namespace Node.Grows
variable {s : Spreading} {n m : Node}

theorem refl (n : Node) : n.Grows s n := ⟨id,List.Subset.refl _,subset_rfl,id,id⟩

theorem congr {s' : Spreading} (h : n.Grows s m) (hdest : s'.dest = s.dest)
    (hwired : s'.wired = s.wired) : n.Grows s' m :=
  ⟨hwired ▸ h.wired,h.log,h.seen,hdest ▸ h.path,hdest ▸ h.known⟩

theorem trans {k : Node} (h : n.Grows s m) (h' : m.Grows s k) : n.Grows s k :=
  ⟨h'.wired ∘ h.wired,List.Subset.trans h.log h'.log,h.seen.trans h'.seen,h'.path ∘ h.path,
    h'.known ∘ h.known⟩

theorem same (hi : m.interfaces = n.interfaces) (hlog : n.log ⊆ m.log)
    (hseen : m.seenAnnounces = n.seenAnnounces) (hpath : m.pathTable = n.pathTable)
    (hknown : m.knownDestinations = n.knownDestinations) : n.Grows s m :=
  ⟨by rw [hi]; exact id,hlog,by rw [hseen],by rw [hpath]; exact id,by rw [hknown]; exact id⟩

theorem note (e : Event) : n.Grows s (n.note e) :=
  same rfl (List.subset_cons_self _ _) rfl rfl rfl

end Node.Grows

theorem Update.grows {s : Spreading} {o : Op} {t n m : Node} (ho : o.Spreads P s)
    (h : Update P o t n m) : n.Grows s m := by
  have hlog := h.log_subset
  have hknown := h.knownDestinations
  cases h with
  | tables h => exact .same h.interfaces hlog h.seenAnnounces h.pathTable hknown
  | unlinked _ =>
    unfold Node.deregisterLink at *
    split <;> exact .same rfl (List.Subset.refl _) rfl rfl rfl
  | cleared hc => exact absurd hc ho.kept.2
  | joined _ =>
    exact ⟨fun h i hi => List.mem_append_left _ (h i hi),List.Subset.refl _,subset_rfl,id,id⟩
  | @left _ i hi =>
    refine ⟨fun h j hj => List.mem_filter.mpr ⟨h j hj,?_⟩,List.Subset.refl _,subset_rfl,id,id⟩
    simpa using fun hji : j = i => ho.stays i hi (hji ▸ hj)
  | requested _ _ _ | validated _ _ _ _ =>
    exact .same (Node.registerLink_interfaces _ _) hlog (Node.registerLink_seenAnnounces _ _)
      (Node.registerLink_pathTable _ _) hknown
  | proved _ _ _ _ _ _ _ _ =>
    unfold Node.noteEstablished at *
    split at hlog <;> exact .same rfl hlog rfl rfl rfl
  | _ => exact .same rfl hlog rfl rfl rfl

theorem Update.seenAnnounces {o : Op} {t n m : Node} (h : Update P o t n m) :
    m.seenAnnounces = n.seenAnnounces := by
  cases h with
  | tables h => exact h.seenAnnounces
  | unlinked _ =>
    unfold Node.deregisterLink
    split <;> rfl
  | requested _ _ _ | validated _ _ _ _ => exact Node.registerLink_seenAnnounces _ _
  | proved _ _ _ _ _ _ _ _ =>
    unfold Node.noteEstablished
    split <;> rfl
  | _ => rfl

theorem isSome_lookup_insert {α : Type} {tbl : Table α} {k k' : Bytes} {v : α}
    (h : (tbl.lookup k).isSome) : ((tbl.insert k' v).lookup k).isSome := by
  by_cases hk : k = k'
  · rw [hk,Finmap.lookup_insert]
    rfl
  · rwa [Finmap.lookup_insert_of_ne _ hk]

theorem Heard.grows {s : Spreading} {packet : Packet} {via : Option Nat} {t n m : Node}
    (h : Heard P packet via t n m) : n.Grows s m := by
  cases h with
  | heard _ =>
    exact ⟨id,List.Subset.refl _,Finset.subset_insert _ _,id,id⟩
  | believed _ _ =>
    exact ⟨id,List.Subset.refl _,Finset.subset_insert _ _,isSome_lookup_insert,
      isSome_lookup_insert⟩
  | announced _ | relayed _ | relaySent _ => exact .note _

def Node.Sends (P : Platform) (s : Spreading) (Q : UInt8 → Prop) (n m : Node) : Prop :=
  ∀ i raw origin p, .sendOutgoing i raw origin ∈ m.log → Announce.Copies P s.dest s.hash raw p →
    .sendOutgoing i raw origin ∈ n.log ∨ Q p.hops

namespace Node.Sends
variable {s : Spreading} {Q : UInt8 → Prop} {n m : Node}

theorem same (hlog : m.log = n.log) : n.Sends P s Q m := by
  intro i raw origin p h _
  exact .inl (hlog ▸ h)

theorem trans {k : Node} (h : n.Sends P s Q m) (h' : m.Sends P s Q k) : n.Sends P s Q k := by
  intro i raw origin p hk hp
  exact (h' i raw origin p hk hp).elim (fun hm => h i raw origin p hm hp) .inr

theorem mono (h : n.Sends P s Q m) {Q' : UInt8 → Prop} (hQ : ∀ hops, Q hops → Q' hops) :
    n.Sends P s Q' m := by
  intro i raw origin p hm hp
  exact (h i raw origin p hm hp).imp_right (hQ p.hops)

theorem note {e : Event} (he : ∀ i raw origin p, e = .sendOutgoing i raw origin →
    Announce.Copies P s.dest s.hash raw p → Q p.hops) : n.Sends P s Q (n.note e) := by
  intro i raw origin p h hp
  rcases List.mem_cons.mp h with h | h
  · exact .inr (he i raw origin p h.symm hp)
  · exact .inl h

theorem silent {e : Event} (he : ∀ i raw origin, e = .sendOutgoing i raw origin →
    frameType raw ≠ .announce) : n.Sends P s Q (n.note e) := by
  refine note fun i raw origin p heq hp => absurd hp.packetType ?_
  rw [frameType_of_unpack hp.unpacked]
  exact he i raw origin heq

end Node.Sends

theorem Update.sends {s : Spreading} {o : Op} {t n m : Node} (ho : o.Spreads P s)
    (h : Update P o t n m) : n.Sends P s (fun hops => s.owns ∧ hops = 0) m := by
  cases h with
  | tables h => exact .same h.log
  | unlinked _ =>
    unfold Node.deregisterLink
    split <;> exact .same rfl
  | joined _ | left _ | cleared _ | callbacks _ => exact .same rfl
  | @plain _ e he => exact .silent (by rintro _ _ _ rfl; exact he.elim)
  | received _ _ => exact .silent (by rintro _ _ _ ⟨⟩)
  | @sent _ j frame hs =>
    refine .note fun i raw origin p heq hp => ?_
    cases heq
    obtain ⟨skip,hs⟩ | ⟨d,app,send,r,r',hs,hframe⟩ := hs
    · exact absurd ((frameType_of_unpack hp.unpacked).symm.trans hp.packetType)
        (ho.frames _ skip hs)
    by_cases howns : s.owns
    · refine ⟨howns,?_⟩
      obtain ⟨data,rfl⟩ := announceFrame_eq hframe
      exact (Packet.unpack_some hp.unpacked).2.1
    · obtain ⟨hlen,hd⟩ := ho.announces howns d app send hs
      have hsilent : (Event.sendOutgoing j frame .own).Silent P s.dest :=
        announceFrame_silent hframe hlen hd
      exact absurd hp.destinationHash (hsilent j frame .own p rfl hp.unpacked hp.packetType)
  | requested _ _ _ | validated _ _ _ _ => exact .same (Node.registerLink_log _ _)
  | requestSent _ _ =>
    refine .silent ?_
    rintro _ _ _ ⟨⟩
    rw [frameType_requestFrame]
    decide
  | proofSent _ _ _ _ | linkSent _ _ =>
    refine .silent ?_
    rintro _ _ _ ⟨⟩
    rw [frameType_linkFrame]
    decide
  | @proved _ a l id packet _ _ _ _ _ _ _ _ =>
    have hset : n.Sends P s (fun hops => s.owns ∧ hops = 0) ((n.note (.onProof a packet)).setLink a
        { l.proving P packet.data with status := .active }) :=
      (Node.Sends.silent (e := .onProof a packet) (by rintro _ _ _ ⟨⟩)).trans (.same rfl)
    unfold Node.noteEstablished
    split
    · exact hset
    · exact hset.trans (.silent (by rintro _ _ _ ⟨⟩))
  | @refused _ a _ _ packet _ _ _ _ _ =>
    exact (Node.Sends.silent (e := .onProof a packet) (by rintro _ _ _ ⟨⟩)).trans (.same rfl)
  | @delivered _ _ _ _ e _ _ _ he _ => exact .silent (by rintro _ _ _ rfl; exact he.elim)
  | @forwarded raw iface packet via _ hfwd =>
    refine (Node.Sends.silent (e := .rx raw iface) (by rintro _ _ _ ⟨⟩)).trans (.silent ?_)
    rintro _ _ _ ⟨⟩
    rw [hfwd.frameType]
    decide

theorem Heard.sends {s : Spreading} {raw : Bytes} {packet : Packet} {via : Option Nat}
    {t n m : Node} (hp : Packet.unpack P raw = some packet)
    (hhops : Announce.Copies P s.dest s.hash raw packet → packet.hops.toNat ≤ s.hops)
    (h : Heard P packet via t n m) : n.Sends P s (fun hops => hops.toNat ≤ s.hops+1) m := by
  cases h with
  | heard _ | believed _ _ => exact .same rfl
  | announced _ | relayed _ => exact .silent (by rintro _ _ _ ⟨⟩)
  | relaySent hlt =>
    refine .note fun i raw' origin p heq hcopy => ?_
    cases heq
    obtain ⟨hraw,-,-⟩ := Packet.unpack_some hp
    obtain ⟨q,hq,hqhops,hqtype,hqdest,-,hqhash⟩ := unpack_withHops hp packet.hops
    rw [hraw] at hcopy
    cases hq.symm.trans hcopy.unpacked
    rw [hqhops,(toNat_succ_of_lt hlt).1]
    have := hhops ⟨hp,hqtype.symm.trans hcopy.packetType,hqdest.symm.trans hcopy.destinationHash,
      hqhash.symm.trans hcopy.packetHash⟩
    omega

/-- The node took up a copy that came with so many hops, and passed it on. -/
def Node.Spread (P : Platform) (s : Spreading) (n : Node) : Prop :=
  ∃ raw iface p, .rx raw iface ∈ n.log ∧ Packet.unpack P raw = some p ∧
    p.packetType = .announce ∧ p.packetHash = s.hash ∧
    ((∃ a : Announce, a.Genuine P p) → p.destinationHash = s.dest →
      p.hops.toNat ≤ s.hops ∧ s.air raw iface ∧ (n.pathTable.lookup s.dest).isSome ∧
      (n.knownDestinations.lookup s.dest).isSome ∧
      (p.hops < pathfinderM → ∀ i, s.wired i → iface ≠ some i →
        .sendOutgoing i (withHops raw p.hops) (.announceRelay p) ∈ n.log))

theorem Node.Spread.mono {s : Spreading} {n m : Node} (h : n.Spread P s) (hg : n.Grows s m) :
    m.Spread P s := by
  obtain ⟨raw,iface,p,hrx,hp,ht,hx,h⟩ := h
  refine ⟨raw,iface,p,hg.log hrx,hp,ht,hx,fun ha hd => ?_⟩
  obtain ⟨hhops,hair,hpath,hknown,hrelay⟩ := h ha hd
  exact ⟨hhops,hair,hg.path hpath,hg.known hknown,fun hlt i hi hne => hg.log (hrelay hlt i hi hne)⟩

structure Node.Spreads (P : Platform) (s : Spreading) (n m : Node) : Prop where
  grows : n.Grows s m
  sends : n.Sends P s (fun hops => s.owns ∧ hops = 0 ∨
    hops.toNat ≤ s.hops+1 ∧ s.hash ∉ n.seenAnnounces ∧ s.hash ∈ m.seenAnnounces) m
  spread : (∀ i, s.wired i → i ∈ n.interfaces) → s.hash ∈ m.seenAnnounces →
    s.hash ∈ n.seenAnnounces ∨ m.Spread P s

namespace Node.Spreads
variable {s : Spreading} {n m : Node}

theorem refl (n : Node) : n.Spreads P s n := ⟨.refl n,.same rfl,fun _ h => .inl h⟩

theorem trans {k : Node} (h : n.Spreads P s m) (h' : m.Spreads P s k) : n.Spreads P s k where
  grows := h.grows.trans h'.grows
  sends := by
    refine (h.sends.mono fun hops hQ => ?_).trans (h'.sends.mono fun hops hQ => ?_)
    · exact hQ.imp_right fun ⟨hle,hn,hm⟩ => ⟨hle,hn,h'.grows.seen hm⟩
    · exact hQ.imp_right fun ⟨hle,hm,hk⟩ => ⟨hle,fun hn => hm (h.grows.seen hn),hk⟩
  spread := fun hi hk => by
    rcases h'.spread (h.grows.wired hi) hk with hm | hk
    · exact (h.spread hi hm).imp_right fun hm => hm.mono h'.grows
    · exact .inr hk

theorem aside (hg : n.Grows s m) (hs : n.Sends P s (fun hops => s.owns ∧ hops = 0) m)
    (hseen : s.hash ∈ m.seenAnnounces → s.hash ∈ n.seenAnnounces) : n.Spreads P s m :=
  ⟨hg,hs.mono fun _ => .inl,fun _ h => .inl (hseen h)⟩

end Node.Spreads

theorem Node.mem_calls {env : Env} (henv : ∀ (e : Event) (m : Node), m.log ⊆ (env e m).2.log)
    {es : List Event} {n : Node} {e : Event} (h : e ∈ es ∨ e ∈ n.log) :
    e ∈ (n.calls env es).log := by
  induction es generalizing n with
  | nil => exact h.resolve_left List.not_mem_nil
  | cons e' es ih =>
    rw [Node.calls_cons]
    have htell : (n.note e').log ⊆ (n.tell env e').log := henv e' (n.note e')
    refine ih ?_
    rcases h with h | h
    · rcases List.mem_cons.mp h with rfl | h
      · exact .inr (htell List.mem_cons_self)
      · exact .inl h
    · exact .inr (htell (List.mem_cons_of_mem _ h))

theorem Node.relayAnnounce_sends {s : Spreading} {env : Env}
    (henv : ∀ (e : Event) (m : Node), m.Grows s (env e m).2) {packet : Packet} {a : Announce}
    {via : Option Nat} {n : Node} (hlt : packet.hops < pathfinderM)
    (hwired : ∀ i, s.wired i → i ∈ n.interfaces) {i : Nat} (hi : s.wired i) (hne : via ≠ some i) :
    .sendOutgoing i (withHops packet.raw packet.hops) (.announceRelay packet) ∈
      (n.relayAnnounce env packet a via).log := by
  have htell : n.Grows s (n.tellAnnounce env packet a) := by
    unfold Node.tellAnnounce
    split
    · exact .refl n
    · exact (Node.Grows.note _).trans (henv _ _)
  have hmem := htell.wired hwired i hi
  simp only [Node.relayAnnounce,if_pos hlt,Node.broadcast_eq]
  refine Node.mem_calls (fun e m => (henv e m).log) (.inl (List.mem_map.mpr ⟨i,?_,rfl⟩))
  exact List.mem_filter.mpr ⟨hmem,by simpa using hne⟩

theorem processAnnounce_spreads {s : Spreading} {env : Env}
    (henv : ∀ (e : Event) (m : Node), m.Spreads P s (env e m).2) {raw : Bytes}
    {iface : Option Nat} {packet : Packet} {n u : Node} (hp : Packet.unpack P raw = some packet)
    (ht : packet.packetType = .announce)
    (harr : Announce.Copies P s.dest s.hash raw packet →
      packet.hops.toNat ≤ s.hops ∧ s.air raw iface)
    (hrx : .rx raw iface ∈ n.log)
    (h : n.processAnnounce P env packet iface = .ok u) : n.Spreads P s u := by
  have hdoes := processAnnounce_does h
  by_cases hx : packet.packetHash = s.hash
  swap
  · refine hdoes.lift (Node.Spreads P s) .refl .trans (fun {n m} hstep => ?_) henv
    have hother : ¬ Announce.Copies P s.dest s.hash raw packet := fun hcopy => hx hcopy.packetHash
    refine .aside hstep.grows ?_ ?_
    · cases hstep with
      | heard _ | believed _ _ => exact .same rfl
      | announced _ | relayed _ => exact .silent (by rintro _ _ _ ⟨⟩)
      | relaySent hlt =>
        refine .note fun i raw' origin p heq hcopy => ?_
        cases heq
        obtain ⟨hraw,-,-⟩ := Packet.unpack_some hp
        obtain ⟨q,hq,-,-,-,-,hqhash⟩ := unpack_withHops hp packet.hops
        rw [hraw] at hcopy
        cases hq.symm.trans hcopy.unpacked
        exact absurd (hqhash.symm.trans hcopy.packetHash) hx
    · intro hm
      cases hstep with
      | heard _ | believed _ _ => exact (Finset.mem_insert.mp hm).resolve_left (Ne.symm hx)
      | announced _ | relayed _ | relaySent _ => exact hm
  rw [Node.processAnnounce_eq,Except.ok.injEq] at h
  by_cases hnew : packet.packetHash ∈ n.seenAnnounces
  · rw [if_pos hnew] at h
    exact h ▸ .refl n
  rw [if_neg hnew] at h
  have hgrows : n.Grows s u := hdoes.lift _ .refl .trans Heard.grows fun e m => (henv e m).grows
  have hsends : n.Sends P s (fun hops => hops.toNat ≤ s.hops+1) u := by
    refine hdoes.lift _ (fun _ => .same rfl) .trans (Heard.sends hp fun hcopy => (harr hcopy).1)
      fun e m => ?_
    refine (henv e m).sends.mono fun hops hQ => ?_
    rcases hQ with ⟨-,rfl⟩ | ⟨hle,-⟩
    · exact Nat.zero_le _
    · exact hle
  have hseen : s.hash ∈ u.seenAnnounces := by
    have hin : s.hash ∈ insert packet.packetHash n.seenAnnounces :=
      hx ▸ Finset.mem_insert_self _ _
    cases hc : Announce.check P packet with
    | none =>
      rw [hc] at h
      exact h ▸ hin
    | some a =>
      rw [hc] at h
      have hrelay : (n.believe packet a iface).Grows s u := h ▸ (relayAnnounce_does n _
        (Announce.check_iff.mp hc)).lift _ .refl .trans Heard.grows fun e m => (henv e m).grows
      exact hrelay.seen hin
  refine ⟨hgrows,hsends.mono fun hops hle => .inr ⟨hle,hx ▸ hnew,hseen⟩,fun hwired _ => .inr ?_⟩
  refine ⟨raw,iface,packet,hgrows.log hrx,hp,ht,hx,fun ⟨a',ha'⟩ hd => ?_⟩
  have hc := Announce.check_iff.mpr ha'
  rw [hc] at h
  have hrelay : (n.believe packet a' iface).Grows s u := h ▸ (relayAnnounce_does n _ ha').lift _
    .refl .trans Heard.grows fun e m => (henv e m).grows
  obtain ⟨hhops,hair⟩ := harr ⟨hp,ht,hd,hx⟩
  refine ⟨hhops,hair,hrelay.path ?_,hrelay.known ?_,fun hlt i hi hne => ?_⟩
  · rw [← hd]
    show ((Finmap.insert packet.destinationHash _ n.pathTable).lookup _).isSome
    rw [Finmap.lookup_insert]
    rfl
  · rw [← hd]
    show ((Finmap.insert packet.destinationHash _ n.knownDestinations).lookup _).isSome
    rw [Finmap.lookup_insert]
    rfl
  · rw [← h,← (Packet.unpack_some hp).1]
    exact Node.relayAnnounce_sends (fun e m => (henv e m).grows) hlt
      (n := n.believe packet a' iface) hwired hi hne

theorem Runs.spreads {s : Spreading} {guard : Op → Node → Prop}
    (hguard : ∀ o u, guard o u → o.Spreads P s) {n m : Node} (h : Runs P guard n m) :
    n.Spreads P s m := by
  refine Reentrant.Run.lift (Node.Spreads P s) .refl .trans (fun hruns henv hg hx => ?_) h
  have ho := hguard _ _ hg
  rcases exec_cases (fun e m => Runs.linksLater (hruns e m)) hx with
    ⟨rfl,-⟩ | ⟨raw,iface,packet,rfl,hp,ht,hu⟩ | hdoes
  · exact absurd rfl ho.kept.1
  · refine .trans (.aside (.note (.rx raw iface)) (.silent (by rintro _ _ _ ⟨⟩)) id) ?_
    exact processAnnounce_spreads henv hp ht (ho.arrives raw iface packet rfl) List.mem_cons_self hu
  · refine hdoes.lift _ .refl .trans (fun hu => ?_) henv
    exact .aside (hu.grows ho) (hu.sends ho) (by rw [hu.seenAnnounces]; exact id)

theorem Node.Spread.weaken {s s' : Spreading} {n : Node} (h : n.Spread P s)
    (hdest : s'.dest = s.dest) (hhash : s'.hash = s.hash)
    (hwired : ∀ i, s'.wired i → s.wired i) (hhops : s.hops ≤ s'.hops)
    (hair : ∀ raw iface, s.air raw iface → s'.air raw iface) : n.Spread P s' := by
  obtain ⟨raw,iface,p,hrx,hp,ht,hx,h⟩ := h
  refine ⟨raw,iface,p,hrx,hp,ht,hx.trans hhash.symm,fun ha hd => ?_⟩
  obtain ⟨hle,hcame,hpath,hknown,hrelay⟩ := h ha (hd.trans hdest)
  exact ⟨hle.trans hhops,hair raw iface hcame,hdest ▸ hpath,hdest ▸ hknown,fun hlt i hi =>
    hrelay hlt i (hwired i hi)⟩

theorem Node.recall_isSome {n : Node} {dest : Bytes}
    (h : (n.knownDestinations.lookup dest).isSome) : (n.recall P dest).isSome := by
  obtain ⟨known,hk⟩ := Option.isSome_iff_exists.mp h
  unfold Node.recall
  rw [hk]
  rfl

end

namespace Network
variable {P : Platform} {ι : Type} {net : Network ι} {owner : ι} {dest x : Bytes}

def part (net : Network ι) (owner : ι) (dest x : Bytes) (wired : Nat → Prop) (hops : Nat)
    (t : ι → Node) (n : ι) : Spreading where
  dest := dest
  hash := x
  wired := wired
  owns := n = owner
  hops := hops
  air raw iface := ∃ i m j origin, iface = some i ∧ net.peer n i = some (m,j) ∧
    .sendOutgoing j raw origin ∈ (t m).log

def Joined (net : Network ι) (n m : ι) : Prop := ∃ i j, net.peer n i = some (m,j)

def Stays (net : Network ι) (n : ι) (o : Op) : Prop :=
  ∀ i, o = .deregisterInterface i → net.peer n i = none

variable [Fintype ι]

def heard (x : Bytes) (t : ι → Node) : Finset ι := Finset.univ.filter fun n =>
  x ∈ (t n).seenAnnounces

/-- A copy on the air counts no more hops than there are nodes that have heard the announce; and
but for the owner only these send copies. -/
structure Counts (P : Platform) (owner : ι) (dest x : Bytes) (t : ι → Node) : Prop where
  hops : ∀ n i raw origin p, .sendOutgoing i raw origin ∈ (t n).log →
    Announce.Copies P dest x raw p → p.hops.toNat ≤ (heard x t).card
  sender : ∀ n ≠ owner, ∀ i raw origin p, .sendOutgoing i raw origin ∈ (t n).log →
    Announce.Copies P dest x raw p → n ∈ heard x t

theorem mem_heard {t : ι → Node} {n : ι} : n ∈ heard x t ↔ x ∈ (t n).seenAnnounces := by
  simp [heard]

theorem Counts.boot (r : ι → Rng) : Counts P owner dest x fun n => Node.boot (r n) where
  hops := by rintro n i raw origin p ⟨⟩
  sender := by rintro n - i raw origin p ⟨⟩

theorem Counts.spreads {t : ι → Node} (h : Counts P owner dest x t) {n : ι} {u : Node}
    (wired : Nat → Prop) {guard : Op → Node → Prop}
    (hguard : ∀ o u, guard o u → net.Step owner dest n t o ∧
      ∀ i, o = .deregisterInterface i → ¬ wired i) (hu : Runs P guard (t n) u) :
    (t n).Spreads P (net.part owner dest x wired (heard x t).card t n) u := by
  refine hu.spreads fun o v hg => ?_
  obtain ⟨hstep,hstays⟩ := hguard o v hg
  refine ⟨hstep.kept,hstep.frames,hstays,hstep.announces,fun raw iface p ho hp => ?_⟩
  obtain ⟨i,m,j,origin,hi,hpeer,hsent⟩ := hstep.arrives raw iface ho
  exact ⟨h.hops m j raw origin p hsent hp,i,m,j,origin,hi,hpeer,hsent⟩

variable [DecidableEq ι]

theorem heard_update {t : ι → Node} {n : ι} {u : Node}
    (h : (t n).seenAnnounces ⊆ u.seenAnnounces) : heard x t ⊆ heard x (Function.update t n u) := by
  intro m hm
  rw [mem_heard] at hm ⊢
  by_cases hmn : m = n
  · subst hmn
    rw [Function.update_self]
    exact h hm
  · rwa [Function.update_of_ne hmn]

theorem heard_card_lt {t : ι → Node} {n : ι} {u : Node}
    (h : (t n).seenAnnounces ⊆ u.seenAnnounces) (hn : x ∉ (t n).seenAnnounces)
    (hu : x ∈ u.seenAnnounces) :
    (heard x t).card < (heard x (Function.update t n u)).card := by
  refine Finset.card_lt_card (Finset.ssubset_iff_of_subset (heard_update h) |>.mpr ⟨n,?_,?_⟩)
  · rw [mem_heard,Function.update_self]
    exact hu
  · rw [mem_heard]
    exact hn

theorem Counts.step {t : ι → Node} (h : Counts P owner dest x t) {n : ι} {u : Node}
    {wired : Nat → Prop}
    (hu : (t n).Spreads P (net.part owner dest x wired (heard x t).card t n) u) :
    Counts P owner dest x (Function.update t n u) := by
  have hgrow := heard_update (x := x) hu.grows.seen
  constructor
  · intro m i raw origin p hsent hp
    by_cases hmn : m = n
    · subst hmn
      rw [Function.update_self] at hsent
      rcases hu.sends i raw origin p hsent hp with hold | ⟨-,hzero⟩ | ⟨hle,hn,hm⟩
      · exact (h.hops m i raw origin p hold hp).trans (Finset.card_le_card hgrow)
      · rw [hzero]
        exact Nat.zero_le _
      · exact hle.trans (heard_card_lt hu.grows.seen hn hm)
    · rw [Function.update_of_ne hmn] at hsent
      exact (h.hops m i raw origin p hsent hp).trans (Finset.card_le_card hgrow)
  · intro m hm i raw origin p hsent hp
    by_cases hmn : m = n
    · subst hmn
      rw [Function.update_self] at hsent
      rcases hu.sends i raw origin p hsent hp with hold | ⟨howns,-⟩ | ⟨-,-,hseen⟩
      · exact hgrow (h.sender m hm i raw origin p hold hp)
      · exact absurd howns hm
      · rw [mem_heard,Function.update_self]
        exact hseen
    · rw [Function.update_of_ne hmn] at hsent
      exact hgrow (h.sender m hm i raw origin p hsent hp)

structure Spread (net : Network ι) (P : Platform) (owner : ι) (dest x : Bytes) (t : ι → Node) :
    Prop where
  counts : Counts P owner dest x t
  wired : ∀ n i, (net.peer n i).isSome → i ∈ (t n).interfaces
  spread : ∀ n ∈ heard x t, (t n).Spread P (net.part owner dest x
    (fun i => (net.peer n i).isSome) (Fintype.card ι-1) t n)

theorem Spread.step {t : ι → Node} (h : net.Spread P owner dest x t) {n : ι} {u : Node}
    (hu : Runs P (fun o _ => net.Step owner dest n t o ∧ net.Stays n o) (t n) u) :
    net.Spread P owner dest x (Function.update t n u) := by
  have hspreads := h.counts.spreads (fun i => (net.peer n i).isSome)
    (fun o _ hg => ⟨hg.1,fun i hi => by simp [hg.2 i hi]⟩) hu
  have hlog (m : ι) : (t m).log ⊆ (Function.update t n u m).log := by
    by_cases hmn : m = n
    · subst hmn
      rw [Function.update_self]
      exact hspreads.grows.log
    · rw [Function.update_of_ne hmn]
      exact List.Subset.refl _
  have hair (m : ι) {wired : Nat → Prop} {hops hops' : Nat} (raw : Bytes) (iface : Option Nat) :
      (net.part owner dest x wired hops t m).air raw iface →
      (net.part owner dest x wired hops' (Function.update t n u) m).air raw iface := by
    rintro ⟨i,k,j,origin,hi,hpeer,hsent⟩
    exact ⟨i,k,j,origin,hi,hpeer,hlog k hsent⟩
  refine ⟨h.counts.step hspreads,fun m i hi => ?_,fun m hm => ?_⟩
  · by_cases hmn : m = n
    · subst hmn
      rw [Function.update_self]
      exact hspreads.grows.wired (h.wired m) i hi
    · rw [Function.update_of_ne hmn]
      exact h.wired m i hi
  · rw [mem_heard] at hm
    by_cases hmn : m = n
    · subst hmn
      rw [Function.update_self] at hm ⊢
      by_cases hold : x ∈ (t m).seenAnnounces
      · exact ((h.spread m (mem_heard.mpr hold)).mono (hspreads.grows.congr rfl rfl)).weaken rfl rfl
          (fun _ => id) le_rfl (hair m)
      · refine ((hspreads.spread (h.wired m) hm).resolve_left hold).weaken rfl rfl (fun _ => id)
          ?_ (hair m)
        have hlt : (heard x t).card < Fintype.card ι :=
          Finset.card_lt_univ_of_notMem (x := m) (by rw [mem_heard]; exact hold)
        exact Nat.le_sub_one_of_lt hlt
    · rw [Function.update_of_ne hmn] at hm ⊢
      exact (h.spread m (mem_heard.mpr hm)).weaken rfl rfl (fun _ => id) le_rfl (hair m)

/-- The copies of the announce that were sent where a wire is have arrived. -/
def Settled (net : Network ι) (P : Platform) (dest x : Bytes) (t : ι → Node) : Prop :=
  ∀ n i m j, net.peer n i = some (m,j) → ∀ raw origin p,
    .sendOutgoing i raw origin ∈ (t n).log → Announce.Copies P dest x raw p →
    .rx raw (some j) ∈ (t m).log

/-- A frame other than `p` came with the packet hash of `p`. -/
def Confused (P : Platform) (p : Packet) (t : ι → Node) : Prop :=
  ∃ n raw iface q, .rx raw iface ∈ (t n).log ∧ Packet.unpack P raw = some q ∧
    q.packetHash = p.packetHash ∧ q.getHashablePart ≠ p.getHashablePart

omit [DecidableEq ι] in
theorem Spread.took {t : ι → Node} (h : net.Spread P owner dest x t) {raw : Bytes} {p : Packet}
    (hcopy : Announce.Copies P dest x raw p) {a : Announce} (ha : a.Genuine P p)
    (hconf : ¬ Confused P p t) {n : ι} (hn : n ∈ heard x t) :
    ((t n).pathTable.lookup dest).isSome ∧ ((t n).knownDestinations.lookup dest).isSome ∧
    ∃ raw' iface q, Announce.Copies P dest x raw' q ∧ q.hops.toNat ≤ Fintype.card ι-1 ∧
      (∃ i m j origin, iface = some i ∧ net.peer n i = some (m,j) ∧
        .sendOutgoing j raw' origin ∈ (t m).log) ∧
      (q.hops < pathfinderM → ∀ i, (net.peer n i).isSome → iface ≠ some i →
        .sendOutgoing i (withHops raw' q.hops) (.announceRelay q) ∈ (t n).log) := by
  obtain ⟨raw',iface,q,hrx,hq,hqt,hqx,htook⟩ := h.spread n hn
  have hpart : q.getHashablePart = p.getHashablePart := by
    by_contra hne
    exact hconf ⟨n,raw',iface,q,hrx,hq,hqx.trans hcopy.packetHash.symm,hne⟩
  obtain ⟨-,hdest,-,hdata⟩ := (Packet.hashablePart_iff hq hcopy.unpacked).mp hpart
  have hqd : q.destinationHash = dest := hdest.trans hcopy.destinationHash
  obtain ⟨hhops,hair,hpath,hknown,hrelay⟩ := htook ⟨a,ha.congr hdest hdata⟩ hqd
  exact ⟨hpath,hknown,raw',iface,q,⟨hq,hqt,hqd,hqx⟩,hhops,hair,hrelay⟩

omit [DecidableEq ι] in
/-- The announce comes over every wire, one way or the other. -/
theorem Spread.next {t : ι → Node} (h : net.Spread P owner dest x t)
    (hcard : Fintype.card ι ≤ pathfinderM.toNat) (hheeds : ∀ n, (t n).Heeds P)
    (hsettled : net.Settled P dest x t) {raw : Bytes} {p : Packet}
    (hcopy : Announce.Copies P dest x raw p) {a : Announce} (ha : a.Genuine P p)
    (hconf : ¬ Confused P p t) {n m : ι} {i j : Nat} (hpeer : net.peer n i = some (m,j))
    (hn : n ∈ heard x t) (hm : m ≠ owner) : m ∈ heard x t := by
  obtain ⟨-,-,raw',iface,q,hq,hhops,⟨i',m',j',origin,hi',hpeer',hsent⟩,hrelay⟩ :=
    h.took hcopy ha hconf hn
  by_cases hback : i' = i
  · -- the copy came from `m`
    subst hback
    cases hpeer.symm.trans hpeer'
    exact h.counts.sender m hm j raw' origin q hsent hq
  · have hpos : 0 < Fintype.card ι := Fintype.card_pos_iff.mpr ⟨n⟩
    have hlt : q.hops < pathfinderM := by
      rw [UInt8.lt_iff_toNat_lt]
      omega
    have hout := hrelay hlt i (by rw [hpeer]; rfl) (by simpa [hi'] using hback)
    obtain ⟨q',hq',-,hqtype,hqdest,-,hqhash⟩ := unpack_withHops hq.unpacked q.hops
    have hcopy' : Announce.Copies P dest x (withHops raw' q.hops) q' :=
      ⟨hq',hqtype.trans hq.packetType,hqdest.trans hq.destinationHash,hqhash.trans hq.packetHash⟩
    have hrx := hsettled n i m j hpeer _ _ q' hout hcopy'
    rw [mem_heard,← hcopy'.packetHash]
    exact hheeds m _ _ q' hrx hq' hcopy'.packetType

theorem Spread.start {r : ι → Rng} {t : ι → Node}
    (h : Interleaving.Run (exec P) (fun n t o _ => net.Step owner dest n t o)
      (fun n => Node.boot (r n)) t)
    (hwired : ∀ n i, (net.peer n i).isSome → i ∈ (t n).interfaces)
    (hnew : ∀ n, x ∉ (t n).seenAnnounces) : net.Spread P owner dest x t where
  counts := Interleaving.Run.invariant (Counts P owner dest x)
    (fun hc hu => hc.step (hc.spreads (fun _ => False) (fun _ _ hg => ⟨hg,fun _ _ => id⟩)
      hu)) h (.boot r)
  wired := hwired
  spread := fun n hn => absurd (mem_heard.mp hn) (hnew n)

omit [DecidableEq ι] in
/-- The announce gets as far as the wires go. -/
theorem Spread.covers {t : ι → Node} (h : net.Spread P owner dest x t)
    (hcard : Fintype.card ι ≤ pathfinderM.toNat) (hheeds : ∀ n, (t n).Heeds P)
    (hsettled : net.Settled P dest x t) {raw : Bytes} {p : Packet}
    (hcopy : Announce.Copies P dest x raw p) {a : Announce} (ha : a.Genuine P p)
    (hmade : ∀ i, (net.peer owner i).isSome →
      ∃ origin, .sendOutgoing i raw origin ∈ (t owner).log)
    (hconf : ¬ Confused P p t) {n : ι} (hjoined : Relation.ReflTransGen net.Joined owner n)
    (hn : n ≠ owner) : n ∈ heard x t := by
  induction hjoined with
  | refl => exact absurd rfl hn
  | @tail k m _ hkm ih =>
    obtain ⟨i,j,hpeer⟩ := hkm
    by_cases hk : k = owner
    · subst hk
      obtain ⟨origin,hsent⟩ := hmade i (by rw [hpeer]; rfl)
      have hrx := hsettled k i m j hpeer raw origin p hsent hcopy
      rw [mem_heard,← hcopy.packetHash]
      exact hheeds m raw _ p hrx hcopy.unpacked hcopy.packetType
    · exact h.next hcard hheeds hsettled hcopy ha hconf hpeer (ih hk) hn

omit [Fintype ι] in
theorem Step.heeds {r : ι → Rng} {t : ι → Node}
    (h : Interleaving.Run (exec P) (fun n t o _ => net.Step owner dest n t o)
      (fun n => Node.boot (r n)) t) (n : ι) : (t n).Heeds P := by
  have hrun := h.proj (g := fun _ o _ => o ≠ .reset) (fun _ _ _ _ hg => hg.kept.1) n
  refine Reentrant.Run.invariant (Node.Heeds P)
    (fun _ hkeeps ho hn hu => hn.exec hkeeps ho hu) hrun ?_
  rintro raw iface p ⟨⟩

end Network

section
variable {P : Platform} {ι : Type} [Fintype ι] [DecidableEq ι] {net : Network ι} {owner : ι}
  {dest x : Bytes}

/-- In a network of at most 128 nodes whose interfaces stay, an announce that its owner has sent
over every wire, and whose copies have all arrived, has given every node that is joined to the
owner a path and an identity to recall; or a frame came that is not the announce and has its
packet hash. -/
theorem announce_spreads (hcard : Fintype.card ι ≤ 128) (r : ι → Rng) {t₀ t : ι → Node}
    (h₀ : Interleaving.Run (exec P) (fun n t o _ => net.Step owner dest n t o)
      (fun n => Node.boot (r n)) t₀)
    (hwired : ∀ n i, (net.peer n i).isSome → i ∈ (t₀ n).interfaces)
    (hnew : ∀ n, x ∉ (t₀ n).seenAnnounces)
    (h : Interleaving.Run (exec P) (fun n t o _ => net.Step owner dest n t o ∧ net.Stays n o)
      t₀ t)
    {raw : Bytes} {p : Packet} (hcopy : Announce.Copies P dest x raw p) {a : Announce}
    (ha : a.Genuine P p)
    (hmade : ∀ i, (net.peer owner i).isSome →
      ∃ origin, .sendOutgoing i raw origin ∈ (t owner).log)
    (hsettled : net.Settled P dest x t) :
    Network.Confused P p t ∨ ∀ n ≠ owner, Relation.ReflTransGen net.Joined owner n →
      ((t n).pathTable.lookup dest).isSome ∧ ((t n).recall P dest).isSome := by
  by_cases hconf : Network.Confused P p t
  · exact .inl hconf
  have hspread : net.Spread P owner dest x t := Interleaving.Run.invariant
    (net.Spread P owner dest x) (fun hs hu => hs.step hu) h (.start h₀ hwired hnew)
  have hheeds := Network.Step.heeds (h₀.trans (h.mono fun _ _ _ _ hg => hg.1))
  refine .inr fun n hn hjoined => ?_
  have hheard := hspread.covers hcard hheeds hsettled hcopy ha hmade hconf hjoined hn
  obtain ⟨hpath,hknown,-⟩ := hspread.took hcopy ha hconf hheard
  exact ⟨hpath,Node.recall_isSome hknown⟩

/-- Then, if every node heard the announces of the destination in one order: whatever a joined
node packs for the identity it recalls and sends over a wire is carried to the owner, whose
callback gets the plaintext in one call; unless the node has received an announce that shows a
collision, or a frame came that is not the announce and has its packet hash. -/
theorem announced_reachable (hx : P.ExchangeCommutes) (hc : P.CbcInverts)
    (hcard : Fintype.card ι ≤ 128) (r : ι → Rng) (stamp : Bytes → Nat) {t₀ t : ι → Node}
    {d : Destination} {id : Identity} (htype : d.type = .single) (hid : d.identity = some id)
    (hkeyed : id.Keyed P) (hnh : d.nameHash.length = 10)
    (hhash : d.hash = truncatedHash P (d.nameHash ++ id.hash))
    (h₀ : Interleaving.Run (exec P) (fun n t o u => net.Step owner d.hash n t o ∧
      (n ≠ owner → o.InOrder P d.hash stamp u)) (fun n => Node.boot (r n)) t₀)
    (hwired : ∀ n i, (net.peer n i).isSome → i ∈ (t₀ n).interfaces)
    (hnew : ∀ n, x ∉ (t₀ n).seenAnnounces)
    (h : Interleaving.Run (exec P) (fun n t o u => (net.Step owner d.hash n t o ∧
      (n ≠ owner → o.InOrder P d.hash stamp u)) ∧ net.Stays n o) t₀ t)
    {raw : Bytes} {p : Packet} (hcopy : Announce.Copies P d.hash x raw p) {a : Announce}
    (ha : a.Genuine P p)
    (hmade : ∀ i, (net.peer owner i).isSome →
      ∃ origin, .sendOutgoing i raw origin ∈ (t owner).log)
    (hsettled : net.Settled P d.hash x t)
    (hother : ∀ n ≠ owner, (t n).destinations.lookup d.hash = none ∧
      (t n).links.lookup d.hash = none)
    (hreg : (t owner).destinations.lookup d.hash = some d) {cb : Nat}
    (hcb : (t owner).packetCallback d.obj = some cb) :
    Network.Confused P p t ∨ ∀ n ≠ owner, Relation.ReflTransGen net.Joined owner n →
      ∃ rid, (t n).recall P d.hash = some rid ∧
        ((∃ via q b, (t n).Heard P via d.hash q b ∧
          (Collision P (b.nameHash ++ truncatedHash P b.publicKey) (d.nameHash ++ id.hash) ∨
            Collision P b.publicKey id.getPublicKey)) ∨
        ∀ obj out, Destination.ofHash P obj (some rid) .dirOut .single d.hash = .ok out →
        ∀ (pt : Bytes) (r : Rng), 1 ≤ pt.length → pt.length ≤ 464 → ∃ q r',
          (Packet.ofDestination out pt .data Context.none .broadcast).pack P r = .ok (q,r') ∧
          ∀ i k j, net.peer n i = some (k,j) → ∃ raw' packet,
            net.Carries P t k q.raw owner raw' ∧ ∀ env iface, ∃ u,
              (t owner).inbound P env raw' iface = .ok u ∧ Node.CallsOut env
                [.receive cb d pt packet]
                { t owner with log := .rx raw' iface :: (t owner).log } u) := by
  by_cases hconf : Network.Confused P p t
  · exact .inl hconf
  have h₀' := h₀.mono fun _ _ _ _ hg => hg.1
  have h' := h.mono fun _ _ _ _ hg => And.intro hg.1.1 hg.2
  have hspread : net.Spread P owner d.hash x t := Interleaving.Run.invariant
    (net.Spread P owner d.hash x) (fun hs hu => hs.step hu) h' (.start h₀' hwired hnew)
  have hrun := h₀'.trans (h'.mono fun _ _ _ _ hg => hg.1)
  have hheeds := Network.Step.heeds hrun
  obtain ⟨acc,hroutes⟩ : ∃ acc, net.Routes P owner d.hash stamp acc t :=
    Interleaving.Run.invariant (fun t => ∃ acc, net.Routes P owner d.hash stamp acc t)
      (fun ⟨_,ht⟩ hu => ht.step hu)
      (h₀.trans (h.mono fun _ _ _ _ hg => hg.1))
      ⟨fun _ _ => none,fun n _ => .boot (r n)⟩
  have htook {n : ι} (hn : n ≠ owner) (hjoined : Relation.ReflTransGen net.Joined owner n) :=
    hspread.took hcopy ha hconf
      (hspread.covers hcard hheeds hsettled hcopy ha hmade hconf hjoined hn)
  refine .inr fun n hn hjoined => ?_
  obtain ⟨-,hknown,-⟩ := htook hn hjoined
  obtain ⟨rid,hrec⟩ := Option.isSome_iff_exists.mp (Node.recall_isSome (P := P) hknown)
  refine ⟨rid,hrec,?_⟩
  have hgenuine : (t n).KnownGenuine P := Runs.knownGenuine (hrun.proj (g := fun _ _ _ => True)
    (fun _ _ _ _ _ => trivial) n) fun _ _ h => nomatch (Finmap.lookup_empty _).symm.trans h
  obtain ⟨via,q,b,hheard,hsender,-⟩ := hgenuine.recall hrec
  rcases hheard.genuine.key hnh hkeyed hhash hheard.destinationHash with hkey | hcoll
  swap
  · exact .inl ⟨via,q,b,hheard,hcoll⟩
  refine .inr fun obj out hout pt r hpos hle => ?_
  rw [hkey] at hsender
  obtain ⟨hot,hoh,hoi⟩ := Destination.ofHash_fields hout
  have hlen : d.hash.length = 16 := by rw [hhash]; exact truncatedHash_length P _
  obtain ⟨sent,r',hpack,hreach⟩ := packed_decrypts hx hc htype hid hkeyed hlen hot hoh hoi hsender
    hle r
  obtain ⟨packet,hunpack,ht,hdest,hdec⟩ := hreach sent.raw (.same _)
  have hne : pt ≠ [] := List.length_pos_iff.mp hpos
  refine ⟨sent,r',hpack,fun i k j hpeer => ?_⟩
  -- a neighbour that is not the owner has a path as well
  obtain ⟨raw',packet',hcarries,hp',ht',hd',hdata⟩ : ∃ raw' packet',
      net.Carries P t k sent.raw owner raw' ∧ Packet.unpack P raw' = some packet' ∧
      packet'.packetType = .data ∧ packet'.destinationHash = d.hash ∧
      packet'.data = packet.data := by
    by_cases hk : k = owner
    · subst hk
      exact ⟨_,packet,.here _ _,hunpack,ht,hdest,rfl⟩
    · obtain ⟨hpath,-⟩ := htook hk (hjoined.tail ⟨i,j,hpeer⟩)
      exact hroutes.carries hother hk hpath hunpack ht hdest
  refine ⟨raw',packet',hcarries,fun env iface => ?_⟩
  have hin := inbound_received hp' ht' (hd' ▸ hreg) (hdata ▸ hdec) hne env iface
  rwa [hcb] at hin

end

deriving instance DecidableEq for X25519PrivateKey, Ed25519PrivateKey, Identity, Destination

namespace Sample

def settles (n : Fin 3) (t : Fin 3 → Node) (o : Op) (u : Node) : Bool :=
  match o with
  | .setPacketCallback _ _ => true
  | .inbound raw _ => walks n t o && (first o u || match Packet.unpack platform raw with
    | some p => p.packetHash ∈ u.seenAnnounces
    | none => false)
  | _ => walks n t o

theorem settles_step {n : Fin 3} {t : Fin 3 → Node} {o : Op} {u : Node}
    (h : settles n t o u = true) : (triangle.Step 0 destination.hash n t o ∧
      (n ≠ 0 → o.InOrder platform destination.hash (fun _ => 0) u)) ∧ triangle.Stays n o := by
  by_cases hcb : ∃ obj cb, o = .setPacketCallback obj cb
  · obtain ⟨obj,cb,rfl⟩ := hcb
    refine ⟨⟨⟨⟨by rintro ⟨⟩,by rintro ⟨⟩⟩,by rintro _ _ ⟨⟩,by rintro _ _ _ _ ⟨⟩,
      by rintro _ _ ⟨⟩⟩,?_⟩,by rintro _ ⟨⟩⟩
    rintro - raw iface p a ⟨⟩
  have hwalks : walks n t o = true := by
    unfold settles at h
    split at h
    · exact absurd ⟨_,_,rfl⟩ hcb
    · exact ((Bool.and_eq_true _ _).mp h).1
    · exact h
  refine ⟨⟨walks_step hwalks,fun _ => ?_⟩,?_⟩
  · rintro raw iface p a rfl hp ht hd ha hnew
    simp only [settles,hp,Bool.and_eq_true,Bool.or_eq_true,decide_eq_true_eq] at h
    exact first_inOrder (h.2.resolve_right hnew) (fun _ => 0) raw iface p a rfl hp ht hd ha hnew
  · rintro i rfl
    cases hwalks

def made (n : Node) : Bool :=
  [1,2].all fun i => n.log.any fun e =>
    match e with
    | .sendOutgoing j raw _ => j == i && raw == announceFrame 4 []
    | _ => false

theorem made_sent {n : Node} (h : made n = true) (i : Nat)
    (hi : (triangle.peer 0 i).isSome) :
    ∃ origin, .sendOutgoing i (announceFrame 4 []) origin ∈ n.log := by
  have hi : i ∈ [1,2] := by
    simp only [triangle] at hi
    split at hi
    · simp
      omega
    · cases hi
  obtain ⟨e,he,h⟩ := List.any_eq_true.mp (List.all_eq_true.mp h i hi)
  split at h
  · simp only [Bool.and_eq_true,beq_iff_eq] at h
    obtain ⟨rfl,rfl⟩ := h
    exact ⟨_,he⟩
  · cases h

def settled (t : Fin 3 → Node) : Bool :=
  (List.finRange 3).all fun n => (t n).log.all fun e =>
    match e with
    | .sendOutgoing i raw _ => match triangle.peer n i with
      | some (m,j) => (t m).log.any fun e' =>
        match e' with
        | .rx raw' (some k) => raw' == raw && k == j
        | _ => false
      | none => true
    | _ => true

theorem settled_iff {t : Fin 3 → Node} (h : settled t = true) (x : Bytes) :
    triangle.Settled platform destination.hash x t := by
  intro n i m j hpeer raw origin p hsent hp
  have hn := List.all_eq_true.mp h n (List.mem_finRange n)
  have he := List.all_eq_true.mp hn _ hsent
  simp only [hpeer] at he
  obtain ⟨e',he',h⟩ := List.any_eq_true.mp he
  split at h
  · simp only [Bool.and_eq_true,beq_iff_eq] at h
    obtain ⟨rfl,rfl⟩ := h
    exact he'
  · cases h

def unconfused (p : Packet) (t : Fin 3 → Node) : Bool :=
  (List.finRange 3).all fun n => (t n).log.all fun e =>
    match e with
    | .rx raw _ => (Packet.unpack platform raw).all fun q =>
      decide (q.getHashablePart = p.getHashablePart)
    | _ => true

theorem unconfused_part {p q : Packet} {t : Fin 3 → Node} (h : unconfused p t = true) {n : Fin 3}
    {raw : Bytes} {iface : Option Nat} (hrx : .rx raw iface ∈ (t n).log)
    (hq : Packet.unpack platform raw = some q) : q.getHashablePart = p.getHashablePart := by
  have hn := List.all_eq_true.mp h n (List.mem_finRange n)
  have he := List.all_eq_true.mp hn _ hrx
  simp only [hq,Option.all_some] at he
  exact of_decide_eq_true he

theorem not_confused {p : Packet} {t : Fin 3 → Node} (h : unconfused p t = true) :
    ¬ Network.Confused platform p t := by
  rintro ⟨n,raw,iface,q,hrx,hq,-,hne⟩
  exact hne (unconfused_part h hrx hq)

/-- The interfaces of all three nodes come up, then node 0 announces, and nodes 1 and 2 relay the
announce to each other. -/
theorem triangle_settles : ∃ (t₀ t : Fin 3 → Node) (p : Packet),
    Interleaving.Run (exec platform) (fun n t o u => settles n t o u = true) nodes t₀ ∧
    Interleaving.Run (exec platform) (fun n t o u => settles n t o u = true) t₀ t ∧
    (∀ n, ∀ i : Fin 3, i ≠ n → i.val ∈ (t₀ n).interfaces) ∧
    (∀ n, (t₀ n).seenAnnounces = ∅) ∧
    Packet.unpack platform (announceFrame 4 []) = some p ∧
    (p.packetType = .announce ∧ p.destinationHash = destination.hash) ∧
    (∃ a : Announce, a.Genuine platform p ∧ a.publicKey = identity.getPublicKey ∧
      a.nameHash = destination.nameHash) ∧
    made (t 0) = true ∧ settled t = true ∧ unconfused p t = true ∧
    (∀ n ≠ 0, (t n).destinations.lookup destination.hash = none ∧
      (t n).links.lookup destination.hash = none) ∧
    (t 0).destinations.lookup destination.hash = some destination ∧
    (t 0).packetCallback destination.obj = some 5 := by
  obtain ⟨t₀,ht₀,hq⟩ := (Option.any_eq_true (fun t₀ : Fin 3 → Node =>
      decide (∀ n i : Fin 3, i ≠ n → i.val ∈ (t₀ n).interfaces) &&
      (decide (∀ n : Fin 3, (t₀ n).seenAnnounces = ∅) &&
      (runNet platform settles [(0,[.registerDestination destination,.setPacketCallback 0 (some 5),
          .announce destination [] true]),
        (1,[.inbound (announceFrame 4 []) (some 0)]),
        (2,[.inbound (announceFrame 4 []) (some 0),
          .inbound (withHops (announceFrame 4 []) 0) (some 1)]),
        (1,[.inbound (withHops (announceFrame 4 []) 0) (some 2)])] t₀).any fun t : Fin 3 → Node =>
      (Packet.unpack platform (announceFrame 4 [])).any fun p : Packet =>
        decide (p.packetType = .announce ∧ p.destinationHash = destination.hash) &&
        (((Announce.check platform p).any fun a : Announce => decide
          (a.publicKey = identity.getPublicKey ∧ a.nameHash = destination.nameHash)) &&
        (made (t 0) && (settled t && (unconfused p t && (decide (∀ n : Fin 3, n ≠ 0 →
          ((t n).destinations.lookup destination.hash).isNone ∧
            ((t n).links.lookup destination.hash).isNone) &&
        decide ((t 0).destinations.lookup destination.hash = some destination ∧
          (t 0).packetCallback destination.obj = some 5))))))))
    (runNet platform settles [(0,[.registerInterface 1,.registerInterface 2]),
      (1,[.registerInterface 0,.registerInterface 2]),
      (2,[.registerInterface 0,.registerInterface 1])] nodes)).mp (by decide +kernel)
  obtain ⟨hwired,hq⟩ := (Bool.and_eq_true _ _).mp hq
  obtain ⟨hnew,hq⟩ := (Bool.and_eq_true _ _).mp hq
  obtain ⟨t,ht,hq⟩ := (Option.any_eq_true _ _).mp hq
  obtain ⟨p,hp,hq⟩ := (Option.any_eq_true _ _).mp hq
  obtain ⟨hcopy,hq⟩ := (Bool.and_eq_true _ _).mp hq
  obtain ⟨hkey,hq⟩ := (Bool.and_eq_true _ _).mp hq
  obtain ⟨hmade,hq⟩ := (Bool.and_eq_true _ _).mp hq
  obtain ⟨hsettled,hq⟩ := (Bool.and_eq_true _ _).mp hq
  obtain ⟨hconf,hq⟩ := (Bool.and_eq_true _ _).mp hq
  obtain ⟨hother,hq⟩ := (Bool.and_eq_true _ _).mp hq
  obtain ⟨a,ha,hkey⟩ := (Option.any_eq_true _ _).mp hkey
  refine ⟨t₀,t,p,runNet_runs ht₀,runNet_runs ht,of_decide_eq_true hwired,of_decide_eq_true hnew,hp,
    of_decide_eq_true hcopy,⟨a,Announce.check_iff.mp ha,of_decide_eq_true hkey⟩,hmade,hsettled,
    hconf,fun n hn => ?_,of_decide_eq_true hq⟩
  obtain ⟨hd,hl⟩ := of_decide_eq_true hother n hn
  exact ⟨Option.isNone_iff_eq_none.mp hd,Option.isNone_iff_eq_none.mp hl⟩

theorem triangle_wired {t : Fin 3 → Node} (h : ∀ n, ∀ i : Fin 3, i ≠ n → i.val ∈ (t n).interfaces)
    (n : Fin 3) (i : Nat) (hi : (triangle.peer n i).isSome) : i ∈ (t n).interfaces := by
  simp only [triangle] at hi
  split at hi
  · rename_i hin
    exact h n ⟨i,hin.1⟩ fun heq => hin.2 (congrArg Fin.val heq)
  · cases hi

end Sample

theorem announce_spreads_sample : ∃ t : Fin 3 → Node, ∀ n ≠ 0,
    ((t n).pathTable.lookup Sample.destination.hash).isSome ∧
    ((t n).recall Sample.platform Sample.destination.hash).isSome := by
  obtain ⟨t₀,t,p,h₀,h,hwired,hnew,hp,⟨ht,hd⟩,⟨a,ha,-⟩,hmade,hsettled,hconf,-⟩ :=
    Sample.triangle_settles
  have hcopy : Announce.Copies Sample.platform Sample.destination.hash p.packetHash _ p :=
    ⟨hp,ht,hd,rfl⟩
  have hspread := announce_spreads (by simp) (fun n : Fin 3 => Sample.rng (4+n.val))
    (h₀.mono fun n t o u hg => (Sample.settles_step hg).1.1)
    (Sample.triangle_wired hwired) (fun n => by rw [hnew n]; exact Finset.notMem_empty _)
    (h.mono fun n t o u hg => ⟨(Sample.settles_step hg).1.1,(Sample.settles_step hg).2⟩)
    hcopy ha (Sample.made_sent hmade) (Sample.settled_iff hsettled _)
  refine ⟨t,fun n hn => (hspread.resolve_left (Sample.not_confused hconf)) n hn ?_⟩
  have hwire : Sample.triangle.peer 0 n.val = some (n,0) :=
    dif_pos ⟨n.isLt,fun h => hn (Fin.ext h)⟩
  exact Relation.ReflTransGen.single ⟨n.val,0,hwire⟩

theorem announced_reachable_sample : ∃ (t : Fin 3 → Node) (rid : Identity) (out : Destination)
    (q : Packet) (r' : Rng), (t 2).recall Sample.platform Sample.destination.hash = some rid ∧
    out.identity = some rid ∧
    (Packet.ofDestination out [0x2A] .data Context.none .broadcast).pack Sample.platform
      (Sample.rng 6) = .ok (q,r') ∧
    ∀ k ≠ 2, ∃ raw' packet, Sample.triangle.Carries Sample.platform t k q.raw 0 raw' ∧
      ∀ env iface, ∃ u, (t 0).inbound Sample.platform env raw' iface = .ok u ∧
        Node.CallsOut env [.receive 5 Sample.destination [0x2A] packet]
          { t 0 with log := .rx raw' iface :: (t 0).log } u := by
  obtain ⟨t₀,t,p,h₀,h,hwired,hnew,hp,⟨ht,hd⟩,⟨a,ha,hkey,hname⟩,hmade,hsettled,hconf,hother,hreg,
    hcb⟩ := Sample.triangle_settles
  have hhash : Sample.destination.hash = truncatedHash Sample.platform
      (Sample.destination.nameHash ++ Sample.identity.hash) := by
    unfold Sample.destination
    exact Eq.refl (truncatedHash _ _)
  have hcopy : Announce.Copies Sample.platform Sample.destination.hash p.packetHash _ p :=
    ⟨hp,ht,hd,rfl⟩
  have hreach := announced_reachable Sample.exchangeCommutes Sample.cbcInverts
    (by simp) (fun n : Fin 3 => Sample.rng (4+n.val)) (fun _ => 0) rfl rfl
    Sample.identity_keyed (by simp [Sample.destination,Sample.hash_length]) hhash
    (h₀.mono fun n t o u hg => (Sample.settles_step hg).1)
    (Sample.triangle_wired hwired) (fun n => by rw [hnew n]; exact Finset.notMem_empty _)
    (h.mono fun n t o u hg => Sample.settles_step hg) hcopy ha
    (Sample.made_sent hmade) (Sample.settled_iff hsettled _) hother hreg hcb
  have hjoined : Relation.ReflTransGen Sample.triangle.Joined 0 2 := .single ⟨2,0,rfl⟩
  obtain ⟨rid,hrec,hreach⟩ := (hreach.resolve_left (Sample.not_confused hconf)) 2
    (by decide) hjoined
  rcases hreach with ⟨via,q,b,hheard,hcoll⟩ | hreach
  · -- all that node 2 has received are copies of the one announce
    obtain ⟨raw,hrx,hq⟩ := hheard.received
    obtain ⟨-,hdest,-,hdata⟩ := (Packet.hashablePart_iff hp hq).mp
      (Sample.unconfused_part hconf hrx hq).symm
    have hb := Announce.check_iff.mpr (hheard.genuine.congr hdest hdata)
    cases hb.symm.trans (Announce.check_iff.mpr ha)
    rw [hkey,hname,Sample.identity_keyed.hash] at hcoll
    rcases hcoll with ⟨hne,-⟩ | ⟨hne,-⟩
    · exact absurd rfl hne
    · exact absurd rfl hne
  obtain ⟨out,hout⟩ : ∃ out, Destination.ofHash Sample.platform 1 (some rid) .dirOut .single
      Sample.destination.hash = .ok out := ⟨_,rfl⟩
  obtain ⟨q,r',hq,hcarries⟩ := hreach 1 out hout [0x2A] (Sample.rng 6) (by decide) (by decide)
  refine ⟨t,rid,out,q,r',hrec,(Destination.ofHash_fields hout).2.2,hq,fun k hk => ?_⟩
  exact hcarries k.val k 2 (dif_pos ⟨k.isLt,fun h => hk (Fin.ext h)⟩)

end RNS
