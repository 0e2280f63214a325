import RTReticulum.Relays

/-! Which interfaces a node transmits on: the copies of one broadcast, what an announce
received on one of them does, and what is left behind by an interface that is gone. -/
set_option autoImplicit false

namespace RNS
namespace Node

/-- `process_announce` with what it returns, which `inbound` does not use. -/
def processAnnounceReturning (P : Platform) (env : Env) (packet : Packet) (via : Option Nat)
    (n : Node) : Except Fault (Bool × Node) :=
  if packet.packetHash ∈ n.seenAnnounces then .ok (false,n)
  else
    let n := { n with seenAnnounces := insert packet.packetHash n.seenAnnounces }
    match Announce.check P packet with
    | none => .ok (false,n)
    | some a => do
      let n ← n.remember packet.packetHash packet.destinationHash a.publicKey a.appData
      return (true,(n.insertPath packet via).relayAnnounce env packet a via)

theorem processAnnounceReturning_refused {P : Platform} {packet : Packet} {n : Node}
    (env : Env) (via : Option Nat) (hseen : packet.packetHash ∉ n.seenAnnounces)
    (hc : Announce.check P packet = none) :
    n.processAnnounceReturning P env packet via = .ok (false,n.hear packet) := by
  simp only [processAnnounceReturning,if_neg hseen,hc]
  rfl

theorem processAnnounceReturning_believed {P : Platform} {packet : Packet} {n : Node}
    {a : Announce} (env : Env) (via : Option Nat)
    (hseen : packet.packetHash ∉ n.seenAnnounces) (hc : Announce.check P packet = some a) :
    n.processAnnounceReturning P env packet via =
      .ok (true,(n.believe packet a via).relayAnnounce env packet a via) := by
  have hlen : ¬ a.publicKey.length ≠ 64 :=
    not_not.mpr (Announce.check_iff.mp hc).publicKey_length
  simp only [processAnnounceReturning,if_neg hseen,hc,remember,if_neg hlen]
  rfl

/-- The two readings of `process_announce` leave the same node. -/
theorem processAnnounce_of_returning {P : Platform} {env : Env} {packet : Packet}
    {via : Option Nat} {n u : Node} {accepted : Bool}
    (h : n.processAnnounceReturning P env packet via = .ok (accepted,u)) :
    n.processAnnounce P env packet via = .ok u := by
  rw [processAnnounce_eq]
  by_cases hseen : packet.packetHash ∈ n.seenAnnounces
  · rw [processAnnounceReturning,if_pos hseen] at h
    cases h
    rw [if_pos hseen]
  · rw [if_neg hseen]
    cases hc : Announce.check P packet with
    | none =>
      rw [processAnnounceReturning_refused env via hseen hc] at h
      cases h
      rfl
    | some a =>
      rw [processAnnounceReturning_believed env via hseen hc] at h
      cases h
      rfl

end Node

theorem Announce.exists_check_iff {P : Platform} {p : Packet} {a : Announce}
    (ha : a = ofData P p.data) : (∃ b, check P p = some b) ↔ 148 ≤ p.data.length ∧
      ed25519Verify P (Bytes.midFrom a.publicKey 32) a.signature (p.destinationHash ++
        a.publicKey ++ a.nameHash ++ a.randomHash ++ a.appData) = true ∧
      p.destinationHash = truncatedHash P (a.nameHash ++ truncatedHash P a.publicKey) := by
  constructor
  · intro h
    obtain ⟨b,hb⟩ := h
    obtain ⟨hf,hl,hs,hd⟩ := check_iff.mp hb
    cases hf.trans ha.symm
    exact ⟨hl,hs,hd⟩
  · intro h
    obtain ⟨hl,hs,hd⟩ := h
    exact ⟨a,check_iff.mpr ⟨ha,hl,hs,hd⟩⟩

/-- What `process_announce` does with the packet of a frame: when it accepts, what is left
of the node when it does not, and what it writes, calls and transmits when it does. -/
theorem process_announce_spec (P : Platform) (env : Env) {raw : Bytes} {packet : Packet}
    (iface : Option Nat) (n : Node) (hp : Packet.unpack P raw = some packet)
    (ht : packet.packetType = .announce) :
    let a := Announce.ofData P packet.data
    let m : Node := { n with
      seenAnnounces := insert packet.packetHash n.seenAnnounces
      knownDestinations := n.knownDestinations.insert packet.destinationHash
        ⟨packet.packetHash,a.publicKey,a.appData⟩
      pathTable := n.pathTable.insert packet.destinationHash
        ⟨packet.destinationHash,raw.getD 1 0,iface⟩ }
    let heard := m.calls env (m.announceCalls packet a)
    let relay := raw.set 1 (raw.getD 1 0+1)
    ∃ accepted u, n.processAnnounceReturning P env packet iface = .ok (accepted,u) ∧
      (∀ t : Node, n = t.note (.rx raw iface) → t.inbound P env raw iface = .ok u) ∧
      (accepted = true ↔ packet.packetHash ∉ n.seenAnnounces ∧ 148 ≤ packet.data.length ∧
        ed25519Verify P (Bytes.midFrom a.publicKey 32) a.signature (packet.destinationHash ++
          a.publicKey ++ a.nameHash ++ a.randomHash ++ a.appData) = true ∧
        packet.destinationHash = truncatedHash P (a.nameHash ++ truncatedHash P a.publicKey)) ∧
      (accepted = false →
        u = { n with seenAnnounces := insert packet.packetHash n.seenAnnounces }) ∧
      (accepted = true → u = if raw.getD 1 0 < 128 then
          (heard.note (.relay packet)).calls env
            (heard.copies relay iface (.announceRelay packet))
        else heard) ∧
      (accepted = true → (∀ e k, (env e k).2 = k) → u = { m with
        log := (if raw.getD 1 0 < 128 then
            (n.copies relay iface (.announceRelay packet)).reverse ++ [.relay packet]
          else []) ++ (n.announceCalls packet a).reverse ++ n.log }) := by
  obtain ⟨hraw,hhops,hlen⟩ := Packet.unpack_some hp
  intro a m heard relay
  have hinbound : ∀ {b u}, n.processAnnounceReturning P env packet iface = .ok (b,u) →
      ∀ t : Node, n = t.note (.rx raw iface) → t.inbound P env raw iface = .ok u := by
    intro b u hu t hn
    simp only [Node.inbound,hp,ht,← hn]
    exact Node.processAnnounce_of_returning hu
  have hgenuine := Announce.exists_check_iff (show a = Announce.ofData P packet.data from rfl)
  by_cases hseen : packet.packetHash ∈ n.seenAnnounces
  · have hu : n.processAnnounceReturning P env packet iface = .ok (false,n) := if_pos hseen
    refine ⟨false,n,hu,hinbound hu,?_,?_,?_,?_⟩
    · simp [hseen]
    · intro _
      rw [Finset.insert_eq_of_mem hseen]
    · intro h; cases h
    · intro h; cases h
  · cases hc : Announce.check P packet with
    | none =>
      have hu := Node.processAnnounceReturning_refused env iface hseen hc
      refine ⟨false,n.hear packet,hu,hinbound hu,?_,fun _ => rfl,?_,?_⟩
      · rw [← hgenuine,hc]
        simp
      · intro h; cases h
      · intro h; cases h
    | some b =>
      have hb : b = a := (Announce.check_iff.mp hc).fields
      subst hb
      have hm : n.believe packet a iface = m := by
        simp only [m,← hhops]
        rfl
      have hu := Node.processAnnounceReturning_believed env iface hseen hc
      rw [hm] at hu
      have hbytes : 2 ≤ packet.raw.length := by rw [hraw]; omega
      refine ⟨true,_,hu,hinbound hu,?_,?_,?_,?_⟩
      · rw [← hgenuine,hc]
        simp [hseen]
      · intro h; cases h
      · intro _
        rw [Node.relayAnnounce_eq env packet a iface m hbytes,hraw,hhops]
      · intro _ henv
        rw [Node.relayAnnounce_quiet henv packet a iface m hbytes,hraw,hhops]
        rfl

theorem process_announce_spec_relayed :
    let n : Node := { Node.boot (Sample.rng 5) with
      interfaces := [7,8,8], onAnnounce := some 0 }
    ∃ packet, ∃ a : Announce, ∃ u,
      n.processAnnounceReturning Sample.platform quiet packet (some 7) =
        .ok (true,u) ∧
      u.log = [.sendOutgoing 8 ((Sample.announceFrame 4 []).set 1 1) (.announceRelay packet),
        .sendOutgoing 8 ((Sample.announceFrame 4 []).set 1 1) (.announceRelay packet),
        .relay packet,.announce 0 packet.destinationHash a.identity a.appData packet] := by
  intro n
  have hcheck : (Packet.unpack Sample.platform (Sample.announceFrame 4 [])).any (fun p =>
      p.packetType = .announce && (Announce.check Sample.platform p).isSome) = true ∧
      (Sample.announceFrame 4 []).getD 1 0 = 0 := by decide +kernel
  obtain ⟨packet,hp,hq⟩ := (Option.any_eq_true _ _).mp hcheck.1
  obtain ⟨ht,hc⟩ := Bool.and_eq_true_iff.mp hq
  obtain ⟨a,ha⟩ := Option.isSome_iff_exists.mp hc
  obtain ⟨hf,hl,hs,hd⟩ := Announce.check_iff.mp ha
  subst hf
  obtain ⟨accepted,u,hu,-,hiff,-,-,hlog⟩ := process_announce_spec Sample.platform quiet
    (some 7) n hp (of_decide_eq_true ht)
  have hacc : accepted = true := hiff.mpr ⟨Finset.notMem_empty _,hl,hs,hd⟩
  have hu' := hlog hacc fun _ _ => rfl
  rw [hcheck.2] at hu'
  subst hacc
  exact ⟨packet,_,u,hu,congrArg Node.log hu'⟩

namespace Node

def PathsRegistered (n : Node) : Prop :=
  ∀ hash entry i, n.pathTable.lookup hash = some entry → entry.viaInterface = some i →
    i ∈ n.interfaces

structure Without (gone : Set Nat) (n : Node) : Prop where
  paths : n.PathsRegistered
  interfaces : ∀ i ∈ gone, i ∉ n.interfaces

def Silent (gone : Set Nat) (n m : Node) : Prop :=
  n.Without gone → m.Without gone ∧ ∃ new, m.log = new ++ n.log ∧
    ∀ i ∈ gone, ∀ raw origin, .sendOutgoing i raw origin ∉ new

namespace Silent
variable {gone : Set Nat} {n m k : Node}

theorem refl (n : Node) : Silent gone n n := fun h => ⟨h,[],rfl,by simp⟩

theorem trans (h : Silent gone n m) (h' : Silent gone m k) : Silent gone n k := by
  intro hn
  obtain ⟨hm,new,hlog,hnew⟩ := h hn
  obtain ⟨hk,new',hlog',hnew'⟩ := h' hm
  refine ⟨hk,new' ++ new,by rw [hlog',hlog,List.append_assoc],?_⟩
  intro i hi raw origin he
  rcases List.mem_append.mp he with he | he
  · exact hnew' i hi raw origin he
  · exact hnew i hi raw origin he

theorem of_tables (new : List Event) (hi : ∀ i ∈ m.interfaces, i ∈ n.interfaces)
    (hp : n.PathsRegistered → m.PathsRegistered) (hl : m.log = new ++ n.log)
    (hnew : ∀ i ∈ gone, ∀ raw origin, .sendOutgoing i raw origin ∉ new) : Silent gone n m :=
  fun hn => ⟨⟨hp hn.paths,fun i hg hm => hn.interfaces i hg (hi i hm)⟩,new,hl,hnew⟩

theorem of_same (hi : m.interfaces = n.interfaces) (hp : m.pathTable = n.pathTable)
    (hl : m.log = n.log) : Silent gone n m :=
  of_tables [] (by simp [hi]) (by simp [PathsRegistered,hi,hp]) hl (by simp)

theorem note {e : Event} (he : ∀ i ∈ gone, ∀ raw origin, e ≠ .sendOutgoing i raw origin) :
    Silent gone n (n.note e) :=
  of_tables [e] (fun _ h => h) id rfl fun i hi raw origin h =>
    he i hi raw origin (List.mem_singleton.mp h).symm

theorem newLink (l : Link) (r : Rng) (a : Nat) :
    Silent gone n ((n.newLink l r).registerLink a) :=
  of_same (registerLink_interfaces a _) (registerLink_pathTable a _) (registerLink_log a _)

theorem rng (r : Rng) : Silent gone n { n with rng := r } := of_same rfl rfl rfl

end Silent

end Node

section
variable {P : Platform} {gone : Set Nat} {env : Env}
variable (henv : ∀ (e : Event) (m : Node), Node.Silent gone m (env e m).2)
include henv

theorem tell_silent {e : Event} (n : Node)
    (he : ∀ i ∈ gone, ∀ raw origin, e ≠ .sendOutgoing i raw origin) :
    Node.Silent gone n (n.tell env e) :=
  (Node.Silent.note he).trans (henv e (n.note e))

theorem calls_silent {es : List Event} (n : Node)
    (hes : ∀ e ∈ es, ∀ i ∈ gone, ∀ raw origin, e ≠ .sendOutgoing i raw origin) :
    Node.Silent gone n (n.calls env es) := by
  induction es generalizing n with
  | nil => exact .refl n
  | cons e es ih =>
    rw [Node.calls_cons]
    exact (tell_silent henv n (hes e List.mem_cons_self)).trans
      (ih _ fun e he => hes e (List.mem_cons_of_mem _ he))

theorem broadcast_silent {raw : Bytes} {skip : Option Nat} {origin : Origin} (n : Node) :
    Node.Silent gone n (n.broadcast env raw skip origin) := by
  intro hn
  rw [Node.broadcast_eq]
  refine calls_silent henv n ?_ hn
  intro e he i hi raw' origin' heq
  obtain ⟨j,hj,rfl⟩ := List.mem_map.mp he
  cases heq
  exact hn.interfaces i hi (List.mem_of_mem_filter hj)

theorem request_silent {d : Destination} {oe op : Option Nat} {mtu : UInt32} {n u : Node}
    {a : Nat} (h : n.request P env d oe op mtu = .ok (a,u)) : Node.Silent gone n u := by
  obtain ⟨⟨⟨l,raw⟩,r⟩,-,h⟩ := bind_eq_ok.mp h
  cases h
  exact (Node.Silent.newLink l r _).trans (broadcast_silent henv _)

theorem validateRequest_silent {owner : Destination} {data : Bytes} {packet : Packet}
    {n u : Node} {res : Option Nat}
    (h : n.validateRequest P env owner data packet = .ok (res,u)) : Node.Silent gone n u := by
  obtain ⟨⟨res',r⟩,-,h⟩ := bind_eq_ok.mp h
  cases res' with
  | none =>
    cases h
    exact .rng r
  | some made =>
    cases h
    exact (Node.Silent.newLink made.1 r _).trans (broadcast_silent henv _)

theorem onProof_silent {a : Nat} {packet : Packet} {n u : Node}
    (h : n.onProof P env a packet = .ok u) : Node.Silent gone n u := by
  unfold Node.onProof at h
  have hnote : Node.Silent gone n (n.note (.onProof a packet)) := .note (by simp)
  cases hl : n.link? a with
  | none =>
    simp only [hl,Except.ok.injEq] at h
    exact h ▸ .refl n
  | some l =>
    simp only [hl] at h
    split at h
    · cases h
      exact hnote
    · obtain ⟨l',-,h⟩ := bind_eq_ok.mp h
      have hset : Node.Silent gone n ((n.note (.onProof a packet)).setLink a l') :=
        hnote.trans (.of_same rfl rfl rfl)
      split at h
      · cases h
        exact hset.trans (tell_silent henv _ (by simp))
      · cases h
        exact hset

theorem sendWithContext_silent {a : Nat} {plaintext : Bytes} {ctx : Context} {n u : Node}
    (h : n.sendWithContext P env a plaintext ctx = .ok u) : Node.Silent gone n u := by
  unfold Node.sendWithContext at h
  split at h
  · cases h; exact .refl n
  · split at h
    · obtain ⟨⟨c,r⟩,-,h⟩ := bind_eq_ok.mp h
      cases h
      exact (Node.Silent.rng r).trans (broadcast_silent henv _)
    · cases h; exact .refl n

theorem handleRequest_silent {a : Nat} {l : Link} {plaintext : Bytes} {packet : Packet}
    {n u : Node} (h : n.handleRequest P env a l plaintext packet = .ok u) :
    Node.Silent gone n u := by
  unfold Node.handleRequest at h
  obtain ⟨res,-,h⟩ := bind_eq_ok.mp h
  cases res with
  | none => cases h; exact .refl n
  | some request =>
    simp only at h
    split at h
    · cases h; exact .refl n
    · rename_i handler _
      have hcall : Node.Silent gone n (n.callOut env (.generate a handler.generator handler.path
          request.data (truncatedHash P packet.getHashablePart) l.hash request.requestedAt)).2 :=
        tell_silent henv n (by simp)
      split at h
      · cases h; exact hcall
      · exact hcall.trans (sendWithContext_silent henv h)

theorem onInbound_silent {a : Nat} {packet : Packet} {n u : Node}
    (h : n.onInbound P env a packet = .ok u) : Node.Silent gone n u := by
  unfold Node.onInbound at h
  split at h
  · cases h; exact .refl n
  · split at h
    · split at h
      · cases h; exact .refl n
      · obtain ⟨plaintext,-,h⟩ := bind_eq_ok.mp h
        split at h
        · cases h; exact .refl n
        · split at h
          · exact handleRequest_silent henv h
          · split at h
            · cases h; exact .refl n
            · cases h; exact tell_silent henv n (by simp)
    · cases h; exact .refl n

theorem announce_silent {d : Destination} {appData : Bytes} {send : Bool} {n u : Node}
    (h : n.announce P env d appData send = .ok u) : Node.Silent gone n u := by
  obtain ⟨⟨raw,r⟩,-,h⟩ := bind_eq_ok.mp h
  simp only [pure_eq_ok] at h
  have hr : Node.Silent gone n { n with rng := r } := .rng r
  split at h
  · cases h; exact hr.trans (broadcast_silent henv _)
  · cases h; exact hr

theorem processAnnounce_silent {packet : Packet} {via : Option Nat} {n u : Node}
    (hvia : ∀ i, via = some i → i ∈ n.interfaces)
    (h : n.processAnnounce P env packet via = .ok u) : Node.Silent gone n u := by
  rw [Node.processAnnounce_eq,Except.ok.injEq] at h
  subst h
  split
  · exact .refl n
  · cases Announce.check P packet with
    | none => exact .of_same rfl rfl rfl
    | some a =>
      have hbelieve : Node.Silent gone n (n.believe packet a via) := by
        refine .of_tables [] (fun _ h => h) ?_ rfl (by simp)
        intro hn hash entry i he hi
        by_cases hh : hash = packet.destinationHash
        · subst hh
          have hins := Finmap.lookup_insert (a := packet.destinationHash)
            (b := (⟨packet.destinationHash,packet.hops,via⟩ : PathEntry)) n.pathTable
          cases hins.symm.trans he
          exact hvia i hi
        · exact hn hash entry i ((Finmap.lookup_insert_of_ne _ hh).symm.trans he) hi
      have htell : Node.Silent gone (n.believe packet a via)
          ((n.believe packet a via).tellAnnounce env packet a) := by
        unfold Node.tellAnnounce
        split
        · exact .refl _
        · exact tell_silent henv _ (by simp)
      refine hbelieve.trans (htell.trans ?_)
      simp only [Node.relayAnnounce]
      split
      · exact (Node.Silent.note (by simp)).trans (broadcast_silent henv _)
      · exact .refl _

theorem inbound_silent {raw : Bytes} {iface : Option Nat} {n u : Node}
    (hann : ∀ i packet, iface = some i → Packet.unpack P raw = some packet →
      packet.packetType = .announce → i ∈ n.interfaces)
    (h : n.inbound P env raw iface = .ok u) : Node.Silent gone n u := by
  have hrx : Node.Silent gone n (n.note (.rx raw iface)) := .note (by simp)
  simp only [Node.inbound] at h
  cases hp : Packet.unpack P raw with
  | none =>
    simp only [hp,Except.ok.injEq] at h
    exact h ▸ hrx
  | some pkt =>
    simp only [hp] at h
    cases ht : pkt.packetType with
    | announce =>
      simp only [ht] at h
      exact hrx.trans (processAnnounce_silent henv (fun i hi => hann i pkt hi hp ht) h)
    | linkRequest =>
      simp only [ht] at h
      split at h
      · rename_i dest handler _ _
        obtain ⟨⟨res,m⟩,hm,h⟩ := bind_eq_ok.mp h
        have hreq : Node.Silent gone (n.note (.rx raw iface)) m := by
          cases handler with
          | validateRequest => exact validateRequest_silent henv hm
          | user k =>
            cases hm
            exact tell_silent henv _ (by simp)
        cases h
        cases res with
        | none => exact hrx.trans hreq
        | some a => exact (hrx.trans hreq).trans (.of_same (Node.registerLink_interfaces a m)
            (Node.registerLink_pathTable a m) (Node.registerLink_log a m))
      · cases h; exact hrx
    | proof =>
      simp only [ht] at h
      split at h
      · split at h
        · cases h; exact hrx
        · exact hrx.trans (onProof_silent henv h)
      · cases h; exact hrx
    | data =>
      simp only [ht] at h
      split at h
      · obtain ⟨plaintext,-,h⟩ := bind_eq_ok.mp h
        split at h
        · cases h; exact hrx
        · cases h
          refine hrx.trans ?_
          unfold Node.receive
          split
          · exact .refl _
          · exact tell_silent henv _ (by simp)
      · split at h
        · exact hrx.trans (onInbound_silent henv h)
        · split at h
          · rename_i nextHop hops via hpath
            cases h
            -- the path leads through a registered interface, so none of those that are gone
            intro hn
            refine hrx.trans (tell_silent henv _ ?_) hn
            intro i hi raw' origin' heq
            cases heq
            exact hn.interfaces via hi (hn.paths _ _ via hpath rfl)
          · cases h; exact hrx

end

def AnnouncesRegistered (P : Platform) (o : Op) (n : Node) : Prop :=
  ∀ raw i packet, o = .inbound raw (some i) → Packet.unpack P raw = some packet →
    packet.packetType = .announce → i ∈ n.interfaces

def LeavesNoPath (o : Op) (n : Node) : Prop :=
  ∀ i hash entry, o = .deregisterInterface i → n.pathTable.lookup hash = some entry →
    entry.viaInterface ≠ some i

section
variable {P : Platform} {gone : Set Nat}

theorem exec_silent {env : Env} {o : Op} {n u : Node}
    (henv : ∀ (e : Event) (m : Node), Node.Silent gone m (env e m).2)
    (hann : AnnouncesRegistered P o n) (hleave : LeavesNoPath o n)
    (hjoin : ∀ i, o = .registerInterface i → i ∉ gone) (h : exec P env o n = .ok u) :
    Node.Silent gone n u := by
  cases o with
  | registerInterface j =>
    cases h
    intro hn
    refine ⟨⟨fun hash entry i he hi => List.mem_append_left _ (hn.paths hash entry i he hi),?_⟩,
      [],rfl,by simp⟩
    intro i hi hmem
    rcases List.mem_append.mp hmem with hmem | hmem
    · exact hn.interfaces i hi hmem
    · exact hjoin j rfl (List.mem_singleton.mp hmem ▸ hi)
  | deregisterInterface j =>
    cases h
    refine .of_tables [] (fun i hi => List.mem_of_mem_filter hi) ?_ rfl (by simp)
    intro hn hash entry i he hi
    have hne : i ≠ j := fun hij => hleave j hash entry rfl he (hij ▸ hi)
    exact List.mem_filter.mpr ⟨hn hash entry i he hi,by simpa using hne⟩
  | clearPaths =>
    cases h
    exact .of_tables [] (fun _ h => h) (fun _ _ _ _ he => (by cases he)) rfl (by simp)
  | reset =>
    cases h
    exact .of_tables [] (by simp [Node.reset]) (fun _ _ _ _ he => (by cases he)) rfl
      (by simp)
  | registerLink a =>
    cases h
    exact .of_same (Node.registerLink_interfaces a n) (Node.registerLink_pathTable a n)
      (Node.registerLink_log a n)
  | deregisterLink a =>
    cases h
    unfold Node.deregisterLink
    split
    · exact .refl n
    · exact .of_same rfl rfl rfl
  | broadcast raw skip =>
    cases h
    exact broadcast_silent henv n
  | inbound raw iface =>
    exact inbound_silent henv (fun i packet hi => hann raw i packet (hi ▸ rfl)) h
  | announce d appData send => exact announce_silent henv h
  | request d oe op mtu =>
    obtain ⟨⟨a,m⟩,hm,h⟩ := bind_eq_ok.mp h
    cases h
    exact request_silent henv hm
  | validateRequest d data pkt =>
    obtain ⟨⟨a,m⟩,hm,h⟩ := bind_eq_ok.mp h
    cases h
    exact validateRequest_silent henv hm
  | onProof a pkt => exact onProof_silent henv h
  | onInbound a pkt => exact onInbound_silent henv h
  | send a pt => exact sendWithContext_silent henv h
  | sendWithContext a pt ctx => exact sendWithContext_silent henv h
  | setLinkPacketCallback a cb =>
    cases h
    unfold Node.setPacketCallback
    split
    · exact .refl n
    · exact .of_same rfl rfl rfl
  | setEstablishedCallback a cb =>
    cases h
    unfold Node.setEstablishedCallback
    split
    · exact .refl n
    · exact .of_same rfl rfl rfl
  | registerDestination _ | deregisterDestination _ | setLinkRequestHandler _ | onAnnounce _
  | setPacketCallback _ _ | registerRequestHandler _ _ _ | random _ =>
    cases h
    exact .of_same rfl rfl rfl

/-- A run in which announces arrive on registered interfaces, in which an interface is
deregistered when no path leads through it, and in which none of those in `gone` comes
back. -/
def Detached (P : Platform) (gone : Set Nat) (o : Op) (n : Node) : Prop :=
  AnnouncesRegistered P o n ∧ LeavesNoPath o n ∧ ∀ i, o = .registerInterface i → i ∉ gone

theorem Runs.silent {n m : Node} (h : Runs P (Detached P gone) n m) : Node.Silent gone n m :=
  Reentrant.Run.lift (Node.Silent gone) .refl .trans
    (fun _ henv hg hx => exec_silent henv hg.1 hg.2.1 hg.2.2 hx) h

/-- As long as announces arrive on registered interfaces and no interface is deregistered
while a path leads through it, every path leads through a registered interface; and on an
interface that is not registered nothing is transmitted, until it is registered again. -/
theorem deregistered_silent {r : Rng} {n : Node}
    (h : Runs P (fun o t => AnnouncesRegistered P o t ∧ LeavesNoPath o t) (Node.boot r) n) :
    n.PathsRegistered ∧ ∀ i, i ∉ n.interfaces → ∀ m,
      Runs P (fun o t => (AnnouncesRegistered P o t ∧ LeavesNoPath o t) ∧
        o ≠ .registerInterface i) n m →
      i ∉ m.interfaces ∧ ∃ new, m.log = new ++ n.log ∧
        ∀ raw origin, .sendOutgoing i raw origin ∉ new := by
  have hrun : Runs P (Detached P ∅) (Node.boot r) n :=
    h.mono fun o t hg => ⟨hg.1,hg.2,fun i _ hi => hi⟩
  have hboot : (Node.boot r).Without ∅ :=
    ⟨fun _ _ _ he => (by cases he),fun _ hi => (by cases hi)⟩
  have hpaths := (hrun.silent hboot).1.paths
  refine ⟨hpaths,fun i hi m hm => ?_⟩
  have hrun' : Runs P (Detached P {i}) n m :=
    hm.mono fun o t hg => ⟨hg.1.1,hg.1.2,fun j hj hji => hg.2 (hji ▸ hj)⟩
  obtain ⟨hw,new,hlog,hnew⟩ := hrun'.silent ⟨hpaths,fun j hj => hj ▸ hi⟩
  exact ⟨hw.interfaces i rfl,new,hlog,hnew i rfl⟩

end

def announcesOk (o : Op) (n : Node) : Bool :=
  match o with
  | .inbound _ (some i) => n.interfaces.contains i
  | _ => true

def leavesOk (o : Op) (n : Node) : Bool :=
  match o with
  | .deregisterInterface _ => n.pathTable = ∅
  | _ => true

theorem announcesOk_registered {P : Platform} {o : Op} {n : Node}
    (h : announcesOk o n = true) : AnnouncesRegistered P o n := by
  intro raw i packet ho _ _
  subst ho
  exact List.contains_iff_mem.mp h

theorem detached_of_ok {P : Platform} {o : Op} {n : Node}
    (h : (announcesOk o n && leavesOk o n) = true) :
    AnnouncesRegistered P o n ∧ LeavesNoPath o n := by
  obtain ⟨ha,hl⟩ := Bool.and_eq_true_iff.mp h
  refine ⟨announcesOk_registered ha,?_⟩
  intro i hash entry ho he
  subst ho
  rw [of_decide_eq_true hl] at he
  cases he

def awayOk (i : Nat) (o : Op) : Bool :=
  match o with
  | .registerInterface j => j != i
  | _ => true

theorem away_of_ok {P : Platform} {i : Nat} {o : Op} {n : Node}
    (h : (announcesOk o n && leavesOk o n && awayOk i o) = true) :
    (AnnouncesRegistered P o n ∧ LeavesNoPath o n) ∧ o ≠ .registerInterface i := by
  obtain ⟨hd,hj⟩ := Bool.and_eq_true_iff.mp h
  refine ⟨detached_of_ok hd,?_⟩
  intro ho
  subst ho
  simp [awayOk] at hj

/-- An interface goes after the paths were cleared; the announce that is relayed then does
not reach it. -/
theorem deregistered_silent_cleared : ∃ n m : Node, m.log.length = 3 + n.log.length ∧
    7 ∉ m.interfaces ∧ ∃ new, m.log = new ++ n.log ∧
      ∀ raw origin, .sendOutgoing 7 raw origin ∉ new := by
  obtain ⟨n,hn,hq⟩ := runs_of_endsIn Sample.platform
    (fun o n => announcesOk o n && leavesOk o n)
    [.registerInterface 7,.registerInterface 8,.registerInterface 9,
      .inbound (Sample.announceFrame 4 []) (some 7),.clearPaths,.deregisterInterface 7]
    (Node.boot (Sample.rng 5))
    (fun n => n.interfaces = [8,9] ∧ endsIn Sample.platform
      (fun o n => announcesOk o n && leavesOk o n && awayOk 7 o)
      [.inbound (Sample.announceFrame 6 []) (some 8)] n
      (fun m => m.log.length = 3 + n.log.length))
    (by decide +kernel)
  obtain ⟨hi,hends⟩ := of_decide_eq_true hq
  obtain ⟨m,hm,hlen⟩ := runs_of_endsIn _ _ _ _ _ hends
  have h := deregistered_silent (hn.mono fun _ _ => detached_of_ok)
  exact ⟨n,m,of_decide_eq_true hlen,h.2 7 (by simp [hi]) m (hm.mono fun _ _ => away_of_ok)⟩

/-- An interface goes while a path leads through it: the path stays, and the next DATA frame
on it is transmitted there. -/
theorem deregistered_transmits : ∃ n raw raw' packet u,
    Runs Sample.platform (AnnouncesRegistered Sample.platform) (Node.boot (Sample.rng 5)) n ∧
    7 ∉ n.interfaces ∧ ¬ n.PathsRegistered ∧
    exec Sample.platform quiet (.inbound raw none) n = .ok u ∧
    u.log = .sendOutgoing 7 raw' (.forward packet) :: .rx raw none :: n.log := by
  obtain ⟨n,hn,hq⟩ := runs_of_endsIn Sample.platform announcesOk
    [.registerInterface 7,.inbound (Sample.announceFrame 4 []) (some 7),.deregisterInterface 7]
    (Node.boot (Sample.rng 5))
    (fun n => n.interfaces = [] ∧
      n.pathTable.lookup Sample.destination.hash = some ⟨Sample.destination.hash,0,some 7⟩ ∧
      (n.destinations.lookup Sample.destination.hash).isNone ∧
      (n.links.lookup Sample.destination.hash).isNone)
    (by decide +kernel)
  obtain ⟨hi,hpath,hd,hl⟩ := of_decide_eq_true hq
  obtain ⟨raw,packet,hp,hc⟩ := Sample.emptyData
  have hdest := hc.destinationHash
  have hf : n.Forwards Sample.platform raw packet 7 :=
    ⟨hp,hc.packetType.trans rfl,hdest ▸ Option.isNone_iff_eq_none.mp hd,
      hdest ▸ Option.isNone_iff_eq_none.mp hl,_,_,hdest ▸ hpath⟩
  refine ⟨n,raw,_,_,_,hn.mono ?_,by simp [hi],?_,inbound_forwards hf quiet none,rfl⟩
  · exact fun _ _ => announcesOk_registered
  · intro hreg
    have := hreg _ _ 7 hpath rfl
    simp [hi] at this

end RNS
