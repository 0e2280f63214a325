import RTReticulum.Delivery
import RTReticulum.Frames
import RTReticulum.Library.Interleaving

/-! Threads that pass announces to one node: what is left does not depend on their order. -/
set_option autoImplicit false

namespace RNS

def Event.announced? : Event → Option (Bytes × Bytes × Bytes)
  | .announce _ destinationHash announced appData _ =>
    some (destinationHash,announced.getPublicKey,appData)
  | _ => none

def Node.announces (n : Node) : List (Bytes × Bytes × Bytes) := n.log.filterMap Event.announced?

/-- What received frames read and write of a node, and the callbacks it has made. -/
structure Node.SameTransport (n m : Node) : Prop where
  destinations : m.destinations = n.destinations
  pathTable : m.pathTable = n.pathTable
  links : m.links = n.links
  seenAnnounces : m.seenAnnounces = n.seenAnnounces
  onAnnounce : m.onAnnounce = n.onAnnounce
  onLinkRequest : m.onLinkRequest = n.onLinkRequest
  knownDestinations : m.knownDestinations = n.knownDestinations
  announces : m.announces = n.announces

theorem Node.SameTransport.refl (n : Node) : n.SameTransport n :=
  ⟨rfl,rfl,rfl,rfl,rfl,rfl,rfl,rfl⟩

theorem Node.SameTransport.trans {n m k : Node} (h : n.SameTransport m) (h' : m.SameTransport k) :
    n.SameTransport k where
  destinations := h'.destinations.trans h.destinations
  pathTable := h'.pathTable.trans h.pathTable
  links := h'.links.trans h.links
  seenAnnounces := h'.seenAnnounces.trans h.seenAnnounces
  onAnnounce := h'.onAnnounce.trans h.onAnnounce
  onLinkRequest := h'.onLinkRequest.trans h.onLinkRequest
  knownDestinations := h'.knownDestinations.trans h.knownDestinations
  announces := h'.announces.trans h.announces

def Env.LeavesTransport (env : Env) : Prop := ∀ e (n : Node), n.SameTransport (env e n).2

def Node.inboundAll (P : Platform) (env : Env) :
    List (Bytes × Option Nat) → Node → Except Fault Node
  | [], n => .ok n
  | call :: calls, n => do Node.inboundAll P env calls (← n.inbound P env call.1 call.2)

section
variable (P : Platform)

def validAnnounce (raw : Bytes) : Option Packet :=
  (Packet.unpack P raw).filter fun p => p.packetType = .announce ∧ (Announce.check P p).isSome

/-- The valid announces of some calls; copies that differ in their relayed header count as
one. -/
def announced (calls : List (Bytes × Option Nat)) : Finset Bytes :=
  (calls.filterMap fun call => (validAnnounce P call.1).map (·.getHashablePart)).toFinset

def partDestination (part : Bytes) : Bytes := Bytes.mid part 1 16

def partRecord (part : Bytes) : Bytes × Bytes × Bytes :=
  let a := Announce.ofData P (Bytes.midFrom part 18)
  (partDestination part,a.identity.getPublicKey,a.appData)

def CollisionFree (calls : Set (Bytes × Option Nat)) : Prop :=
  ∀ c ∈ calls, ∀ c' ∈ calls, ∀ p p', Packet.unpack P c.1 = some p → Packet.unpack P c'.1 = some p' →
    p.packetHash = p'.packetHash → p.getHashablePart = p'.getHashablePart

variable {P}

theorem validAnnounce_eq_some {raw : Bytes} {p : Packet} : validAnnounce P raw = some p ↔
    Packet.unpack P raw = some p ∧ p.packetType = .announce ∧ ∃ a, Announce.Genuine P p a := by
  rw [validAnnounce,Option.filter_eq_some_iff]
  simp only [decide_eq_true_eq,Option.isSome_iff_exists,Announce.check_iff]

theorem mem_announced {calls : List (Bytes × Option Nat)} {part : Bytes} :
    part ∈ announced P calls ↔
      ∃ c ∈ calls, ∃ p, validAnnounce P c.1 = some p ∧ p.getHashablePart = part := by
  simp [announced]

theorem announced_concat (calls : List (Bytes × Option Nat)) (call : Bytes × Option Nat) :
    announced P (calls ++ [call]) = announced P calls ∪
      ((validAnnounce P call.1).map (·.getHashablePart)).toFinset := by
  ext part
  rw [Finset.mem_union,mem_announced,mem_announced]
  cases h : validAnnounce P call.1 <;> simp [or_and_right,exists_or,h,eq_comm]

theorem part_fields {raw : Bytes} {p : Packet} (h : Packet.unpack P raw = some p) :
    partDestination p.getHashablePart = p.destinationHash ∧
      Bytes.midFrom p.getHashablePart 18 = p.data := by
  obtain ⟨-,hdest,hpart,-⟩ := Packet.unpack_fields h
  rw [hpart]
  refine ⟨List.take_left' hdest,?_⟩
  have hsplit : (p.flags &&& 0x0F) :: (p.destinationHash ++ p.context :: p.data) =
      ((p.flags &&& 0x0F) :: (p.destinationHash ++ [p.context])) ++ p.data := by simp
  rw [hsplit]
  exact List.drop_left' (by simp [hdest])

theorem partRecord_eq {raw : Bytes} {p : Packet} {a : Announce}
    (h : Packet.unpack P raw = some p) (ha : a.Genuine P p) :
    partRecord P p.getHashablePart = (p.destinationHash,a.identity.getPublicKey,a.appData) := by
  obtain ⟨hdest,hdata⟩ := part_fields h
  rw [partRecord,hdest,hdata,← ha.fields]

section
variable {env : Env} (henv : env.LeavesTransport)
include henv

theorem Env.LeavesTransport.tell {e : Event} (he : e.announced? = none) (n : Node) :
    n.SameTransport (n.tell env e) := by
  have hnote : n.SameTransport (n.note e) :=
    ⟨rfl,rfl,rfl,rfl,rfl,rfl,rfl,by simp [Node.announces,he]⟩
  exact hnote.trans (henv e (n.note e))

theorem Env.LeavesTransport.broadcast (raw : Bytes) (skip : Option Nat) (origin : Origin)
    (n : Node) : n.SameTransport (n.broadcast env raw skip origin) := by
  refine (broadcast_does (U := Node.SameTransport) (fun _ => True) (fun _ _ => trivial) ?_
    trivial).lift Node.SameTransport .refl .trans id henv
  exact fun i _ => ⟨rfl,rfl,rfl,rfl,rfl,rfl,rfl,rfl⟩

theorem Env.LeavesTransport.relayAnnounce {n : Node} {cb : Nat} (hcb : n.onAnnounce = some cb)
    (packet : Packet) (a : Announce) (via : Option Nat) :
    Node.SameTransport (n.note (.announce cb packet.destinationHash a.identity a.appData packet))
      (n.relayAnnounce env packet a via) := by
  have htell : Node.SameTransport
      (n.note (.announce cb packet.destinationHash a.identity a.appData packet))
      (n.tellAnnounce env packet a) := by
    simp only [Node.tellAnnounce,hcb]
    exact henv _ _
  simp only [Node.relayAnnounce]
  split
  · refine htell.trans (.trans (m := (n.tellAnnounce env packet a).note (.relay packet)) ?_
      (henv.broadcast _ _ _ _))
    exact ⟨rfl,rfl,rfl,rfl,rfl,rfl,rfl,rfl⟩
  · exact htell

end

/-- What a node holds after some calls, whatever their order: `m` is where it started. -/
structure Collected (P : Platform) (m : Node) (cb : Nat) (calls : List (Bytes × Option Nat))
    (n : Node) : Prop where
  destinations : n.destinations = ∅
  links : n.links = ∅
  onAnnounce : n.onAnnounce = some cb
  seen : ∀ hash, hash ∈ n.seenAnnounces ↔ ∃ c ∈ calls, ∃ p, Packet.unpack P c.1 = some p ∧
    p.packetType = .announce ∧ p.packetHash = hash
  paths : n.pathTable.keys = (announced P calls).image partDestination
  known : n.knownDestinations.keys =
    m.knownDestinations.keys ∪ (announced P calls).image partDestination
  callbacks : ∃ new, n.announces = new ++ m.announces ∧
    (new : Multiset (Bytes × Bytes × Bytes)) = (announced P calls).val.map (partRecord P)

theorem Collected.same {m n n' : Node} {cb : Nat} {calls : List (Bytes × Option Nat)}
    (h : Collected P m cb calls n) (hs : n.SameTransport n') : Collected P m cb calls n' where
  destinations := hs.destinations.trans h.destinations
  links := hs.links.trans h.links
  onAnnounce := hs.onAnnounce.trans h.onAnnounce
  seen := by rw [hs.seenAnnounces]; exact h.seen
  paths := by rw [hs.pathTable]; exact h.paths
  known := by rw [hs.knownDestinations]; exact h.known
  callbacks := by rw [hs.announces]; exact h.callbacks

theorem Collected.more {m n : Node} {cb : Nat} {calls : List (Bytes × Option Nat)}
    (h : Collected P m cb calls n) {call : Bytes × Option Nat}
    (hann : announced P (calls ++ [call]) = announced P calls)
    (hseen : ∀ p, Packet.unpack P call.1 = some p → p.packetType = .announce →
      p.packetHash ∈ n.seenAnnounces) : Collected P m cb (calls ++ [call]) n where
  destinations := h.destinations
  links := h.links
  onAnnounce := h.onAnnounce
  seen := by
    intro hash
    constructor
    · intro hh
      obtain ⟨c,hc,hrest⟩ := (h.seen hash).mp hh
      exact ⟨c,List.mem_append_left _ hc,hrest⟩
    · rintro ⟨c,hc,p,hp,ht,rfl⟩
      rcases List.mem_append.mp hc with hc | hc
      · exact (h.seen _).mpr ⟨c,hc,p,hp,ht,rfl⟩
      · cases List.mem_singleton.mp hc
        exact hseen p hp ht
  paths := by rw [hann]; exact h.paths
  known := by rw [hann]; exact h.known
  callbacks := by rw [hann]; exact h.callbacks

theorem note_rx_same (raw : Bytes) (iface : Option Nat) (n : Node) :
    n.SameTransport (n.note (.rx raw iface)) := ⟨rfl,rfl,rfl,rfl,rfl,rfl,rfl,rfl⟩

theorem announced_concat_none {call : Bytes × Option Nat} (h : validAnnounce P call.1 = none)
    (calls : List (Bytes × Option Nat)) :
    announced P (calls ++ [call]) = announced P calls := by
  rw [announced_concat,h]; simp

theorem Collected.other {env : Env} (henv : env.LeavesTransport) {m n : Node} {cb : Nat}
    {calls : List (Bytes × Option Nat)} (h : Collected P m cb calls n) {raw : Bytes} {p : Packet}
    (hp : Packet.unpack P raw = some p) (ht : p.packetType ≠ .announce) (iface : Option Nat) :
    ∃ u, n.inbound P env raw iface = .ok u ∧ n.SameTransport u := by
  have hrx := note_rx_same raw iface n
  have hdest : ∀ k, (n.note (.rx raw iface)).destinations.lookup k = none := fun k => by
    rw [hrx.destinations,h.destinations]; exact Finmap.lookup_empty k
  have hlink : ∀ k, (n.note (.rx raw iface)).links.lookup k = none := fun k => by
    rw [hrx.links,h.links]; exact Finmap.lookup_empty k
  simp only [Node.inbound,hp]
  cases hpt : p.packetType with
  | announce => exact absurd hpt ht
  | linkRequest =>
    simp only [hdest]
    exact ⟨_,rfl,hrx⟩
  | proof =>
    simp only [hlink]
    split <;> exact ⟨_,rfl,hrx⟩
  | data =>
    simp only [hdest,hlink]
    split
    · exact ⟨_,rfl,hrx.trans (henv.tell rfl _)⟩
    · exact ⟨_,rfl,hrx⟩

/-- A second copy of a valid announce is an announce that was counted. -/
theorem mem_announced_of_hash {calls : List (Bytes × Option Nat)} {call : Bytes × Option Nat}
    (hfree : CollisionFree P {c | c ∈ calls ++ [call]}) {p : Packet} {a : Announce}
    (hp : Packet.unpack P call.1 = some p) (ha : a.Genuine P p)
    (hseen : ∃ c ∈ calls, ∃ q, Packet.unpack P c.1 = some q ∧ q.packetType = .announce ∧
      q.packetHash = p.packetHash) : p.getHashablePart ∈ announced P calls := by
  obtain ⟨c,hc,q,hq,hqt,hhash⟩ := hseen
  have hpart := hfree c (List.mem_append_left _ hc) call
    (List.mem_append_right _ List.mem_cons_self) q p hq hp hhash
  have hpf := part_fields hp
  have hqf := part_fields hq
  rw [hpart] at hqf
  have haq := ha.congr (hqf.1.symm.trans hpf.1) (hqf.2.symm.trans hpf.2)
  exact mem_announced.mpr ⟨c,hc,q,validAnnounce_eq_some.mpr ⟨hq,hqt,a,haq⟩,hpart⟩

theorem Collected.seen_insert {m n : Node} {cb : Nat} {calls : List (Bytes × Option Nat)}
    (h : Collected P m cb calls n) {call : Bytes × Option Nat} {p : Packet}
    (hp : Packet.unpack P call.1 = some p) (ht : p.packetType = .announce) (hash : Bytes) :
    hash ∈ insert p.packetHash n.seenAnnounces ↔ ∃ c ∈ calls ++ [call], ∃ q,
      Packet.unpack P c.1 = some q ∧ q.packetType = .announce ∧ q.packetHash = hash := by
  rw [Finset.mem_insert,h.seen]
  constructor
  · rintro (rfl | ⟨c,hc,hrest⟩)
    · exact ⟨call,List.mem_append_right _ List.mem_cons_self,p,hp,ht,rfl⟩
    · exact ⟨c,List.mem_append_left _ hc,hrest⟩
  · rintro ⟨c,hc,q,hq,hqt,rfl⟩
    rcases List.mem_append.mp hc with hc | hc
    · exact .inr ⟨c,hc,q,hq,hqt,rfl⟩
    · cases List.mem_singleton.mp hc
      cases hp.symm.trans hq
      exact .inl rfl

theorem Collected.believe {env : Env} (henv : env.LeavesTransport) {m n : Node} {cb : Nat}
    {calls : List (Bytes × Option Nat)} (h : Collected P m cb calls n)
    {call : Bytes × Option Nat} {p : Packet} {a : Announce}
    (hp : Packet.unpack P call.1 = some p) (ht : p.packetType = .announce)
    (ha : a.Genuine P p) (hnew : p.packetHash ∉ n.seenAnnounces) :
    Collected P m cb (calls ++ [call]) ((n.believe p a call.2).relayAnnounce env p a call.2) := by
  have hvalid : validAnnounce P call.1 = some p := validAnnounce_eq_some.mpr ⟨hp,ht,a,ha⟩
  have hann : announced P (calls ++ [call]) = insert p.getHashablePart (announced P calls) := by
    rw [announced_concat,hvalid]
    ext part
    simp [or_comm]
  have hfresh : p.getHashablePart ∉ announced P calls := by
    intro hmem
    obtain ⟨c,hc,q,hq,hpart⟩ := mem_announced.mp hmem
    obtain ⟨hq,hqt,-⟩ := validAnnounce_eq_some.mp hq
    refine hnew ((h.seen _).mpr ⟨c,hc,q,hq,hqt,?_⟩)
    rw [(Packet.unpack_fields hq).2.2.2,(Packet.unpack_fields hp).2.2.2,hpart]
  have hdest := (part_fields hp).1
  have hrelay := henv.relayAnnounce (n := n.believe p a call.2) h.onAnnounce p a call.2
  refine Collected.same (n := (n.believe p a call.2).note _) ?_ hrelay
  refine ⟨h.destinations,h.links,h.onAnnounce,?_,?_,?_,?_⟩
  · exact h.seen_insert hp ht
  · show (n.pathTable.insert p.destinationHash _).keys = _
    rw [hann,Finset.image_insert,hdest,← h.paths]
    ext k
    simp [Finmap.mem_keys,Finmap.mem_insert]
  · show (n.knownDestinations.insert p.destinationHash _).keys = _
    rw [hann,Finset.image_insert,hdest,Finset.union_insert,← h.known]
    ext k
    simp [Finmap.mem_keys,Finmap.mem_insert]
  · obtain ⟨new,hnew',hmap⟩ := h.callbacks
    refine ⟨(p.destinationHash,a.identity.getPublicKey,a.appData) :: new,?_,?_⟩
    · show (p.destinationHash,a.identity.getPublicKey,a.appData) :: n.announces = _
      rw [hnew',List.cons_append]
    · rw [hann,Finset.insert_val_of_notMem hfresh,Multiset.map_cons,partRecord_eq hp ha,← hmap,
        Multiset.cons_coe]

theorem Collected.step {env : Env} (henv : env.LeavesTransport) {m n : Node} {cb : Nat}
    {calls : List (Bytes × Option Nat)} (h : Collected P m cb calls n)
    (call : Bytes × Option Nat) (hfree : CollisionFree P {c | c ∈ calls ++ [call]}) :
    ∃ u, n.inbound P env call.1 call.2 = .ok u ∧ Collected P m cb (calls ++ [call]) u := by
  have hrx := note_rx_same call.1 call.2 n
  cases hp : Packet.unpack P call.1 with
  | none =>
    have hvalid : validAnnounce P call.1 = none := by rw [validAnnounce,hp]; rfl
    have hann := announced_concat_none hvalid calls
    refine ⟨n.note (.rx call.1 call.2),by simp only [Node.inbound,hp],?_⟩
    exact (h.more hann fun p hp' => by cases hp.symm.trans hp').same hrx
  | some p =>
    by_cases ht : p.packetType = .announce
    · have hin : n.inbound P env call.1 call.2 =
          (n.note (.rx call.1 call.2)).processAnnounce P env p call.2 := by
        simp only [Node.inbound,hp,ht]
      have h' := h.same hrx
      rw [hin,Node.processAnnounce_eq]
      refine ⟨_,rfl,?_⟩
      split
      · rename_i hseen
        refine h'.more ?_ fun q hq _ => by cases hp.symm.trans hq; exact hseen
        rw [announced_concat]
        cases hvalid : validAnnounce P call.1 with
        | none => simp
        | some q =>
          obtain ⟨hq,-,a,ha⟩ := validAnnounce_eq_some.mp hvalid
          cases hp.symm.trans hq
          simpa using mem_announced_of_hash hfree hp ha ((h'.seen _).mp hseen)
      · rename_i hnew
        cases hc : Announce.check P p with
        | some a => exact h'.believe henv hp ht (Announce.check_iff.mp hc) hnew
        | none =>
          have hvalid : validAnnounce P call.1 = none := by simp [validAnnounce,hp,hc]
          have hann := announced_concat_none hvalid calls
          exact ⟨h'.destinations,h'.links,h'.onAnnounce,h'.seen_insert hp ht,
            by rw [hann]; exact h'.paths,
            by rw [hann]; exact h'.known,by rw [hann]; exact h'.callbacks⟩
    · have hvalid : validAnnounce P call.1 = none := by simp [validAnnounce,hp,ht]
      obtain ⟨u,hu,hsame⟩ := h.other henv hp ht call.2
      refine ⟨u,hu,(h.more (announced_concat_none hvalid calls) fun q hq hqt => ?_).same hsame⟩
      cases hp.symm.trans hq
      exact absurd hqt ht

theorem Collected.all {env : Env} (henv : env.LeavesTransport) {m n : Node} {cb : Nat}
    {done : List (Bytes × Option Nat)} (h : Collected P m cb done n)
    (calls : List (Bytes × Option Nat)) (hfree : CollisionFree P {c | c ∈ done ++ calls}) :
    ∃ u, Node.inboundAll P env calls n = .ok u ∧ Collected P m cb (done ++ calls) u := by
  induction calls generalizing done n with
  | nil => exact ⟨n,rfl,by rwa [List.append_nil]⟩
  | cons call calls ih =>
    have hsplit : done ++ call :: calls = done ++ [call] ++ calls := by simp
    rw [hsplit] at hfree ⊢
    obtain ⟨k,hk,hstep⟩ := h.step henv call fun c hc c' hc' =>
      hfree c (List.mem_append_left _ hc) c' (List.mem_append_left _ hc')
    obtain ⟨u,hu,hall⟩ := ih hstep hfree
    exact ⟨u,by rw [Node.inboundAll,hk]; exact hu,hall⟩

def Node.fresh (interfaces : List Nat) (cb : Nat) (m : Node) : Node :=
  { m.reset with interfaces := interfaces, onAnnounce := some cb }

theorem collected_fresh (interfaces : List Nat) (cb : Nat) (m : Node) :
    Collected P m cb [] (m.fresh interfaces cb) where
  destinations := rfl
  links := rfl
  onAnnounce := rfl
  seen := by simp [Node.fresh,Node.reset]
  paths := rfl
  known := by simp [announced]; rfl
  callbacks := ⟨[],rfl,rfl⟩

/-- Threads that pass frames to a fresh node: whatever the order, there is a path for each
destination of a valid announce among the frames, its identity is remembered, and each valid
announce was reported once. -/
theorem announces_order_free {ι : Type} [Fintype ι] [DecidableEq ι]
    (threads : ι → List (Bytes × Option Nat))
    (hfree : CollisionFree P {c | ∃ i, c ∈ threads i}) {env : Env} (henv : env.LeavesTransport)
    (interfaces : List Nat) (cb : Nat) (m : Node) :
    let valid := Finset.univ.biUnion fun i => announced P (threads i)
    ∀ calls, Interleaving.Merge threads calls →
      ∃ u, Node.inboundAll P env calls (m.fresh interfaces cb) = .ok u ∧
        u.pathTable.keys = valid.image partDestination ∧
        u.knownDestinations.keys = m.knownDestinations.keys ∪ valid.image partDestination ∧
        ∃ new, u.announces = new ++ m.announces ∧
          (new : Multiset (Bytes × Bytes × Bytes)) = valid.val.map (partRecord P) := by
  intro valid calls hmerge
  have hmem := hmerge.mem_iff
  obtain ⟨u,hu,hall⟩ := (collected_fresh (P := P) interfaces cb m).all henv calls
    fun c hc c' hc' => hfree c ((hmem c).mp hc) c' ((hmem c').mp hc')
  have hvalid : announced P calls = valid := by
    ext part
    simp only [valid,Finset.mem_biUnion,Finset.mem_univ,true_and,mem_announced,hmem]
    constructor
    · rintro ⟨c,⟨i,hi⟩,hrest⟩
      exact ⟨i,c,hi,hrest⟩
    · rintro ⟨i,c,hi,hrest⟩
      exact ⟨c,⟨i,hi⟩,hrest⟩
  rw [List.nil_append] at hall
  refine ⟨u,hu,?_,?_,?_⟩
  · rw [← hvalid]; exact hall.paths
  · rw [← hvalid]; exact hall.known
  · rw [← hvalid]; exact hall.callbacks

end

/-- Two threads share an announce, which one of them has from a relay, and a second one. -/
theorem announces_order_free_sample :
    let threads : Fin 2 → List (Bytes × Option Nat) :=
      ![[(Sample.announceFrame 4 [],some 1),(Sample.announceFrame 6 [7],none)],
        [(withHops (Sample.announceFrame 4 []) 2,none)]]
    let valid := Finset.univ.biUnion fun i => announced Sample.platform (threads i)
    valid.card = 2 ∧ ∀ calls, Interleaving.Merge threads calls →
      ∃ u, Node.inboundAll Sample.platform quiet calls
          ((Node.boot (Sample.rng 5)).fresh [1] 3) = .ok u ∧
        u.pathTable.keys = valid.image partDestination ∧
        (u.announces : Multiset (Bytes × Bytes × Bytes)) =
          valid.val.map (partRecord Sample.platform) := by
  intro threads valid
  have hquiet : Env.LeavesTransport quiet := fun _ n => .refl n
  have hfree : ∀ i, ∀ c ∈ threads i, ∀ j, ∀ c' ∈ threads j,
      (Packet.unpack Sample.platform c.1).all fun p => (Packet.unpack Sample.platform c'.1).all
        fun p' => p.packetHash = p'.packetHash → p.getHashablePart = p'.getHashablePart := by
    decide +kernel
  refine ⟨by decide +kernel,fun calls hcalls => ?_⟩
  obtain ⟨u,hu,hpaths,-,new,hnew,hrecords⟩ := announces_order_free threads
    (fun c ⟨i,hc⟩ c' ⟨j,hc'⟩ p p' hp hp' => by
      have h := hfree i c hc j c' hc'
      rw [hp,hp'] at h
      exact of_decide_eq_true h)
    hquiet [1] 3 (Node.boot (Sample.rng 5)) calls hcalls
  exact ⟨u,hu,hpaths,by rw [hnew,← hrecords]; simp [Node.announces,Node.boot]⟩

end RNS
