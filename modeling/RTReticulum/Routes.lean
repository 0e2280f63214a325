import RTReticulum.Delivery
import RTReticulum.Paths

/-! The paths to one destination in a network of point-to-point interfaces: when they lead to
its owner, and not round. -/
set_option autoImplicit false

namespace RNS

theorem unpack_withHops {P : Platform} {raw : Bytes} {p : Packet} (h : Packet.unpack P raw = some p)
    (hops : UInt8) : ∃ p', Packet.unpack P (withHops raw hops) = some p' ∧ p'.hops = hops+1 ∧
      p'.packetType = p.packetType ∧ p'.destinationHash = p.destinationHash ∧ p'.data = p.data ∧
      p'.packetHash = p.packetHash := by
  obtain ⟨-,-,hlen⟩ := Packet.unpack_some h
  have hraw : Packet.Rewritten raw (withHops raw hops) := withHops_rewritten (by omega) hops
  obtain ⟨flags,hop,rest,rfl⟩ : ∃ flags hop rest, raw = flags :: hop :: rest := by
    match raw, hlen with
    | flags :: hop :: rest, _ => exact ⟨flags,hop,rest,rfl⟩
  have hset : withHops (flags :: hop :: rest) hops = flags :: (hops+1) :: rest := by
    simp [withHops]
  rw [hset] at hraw ⊢
  simp only [Packet.unpack] at h
  split at h
  · cases h
  · rename_i hlong
    cases h
    have hp : Packet.unpack P (flags :: hop :: rest) = some (Packet.parsed P
        (.ofByte ((flags &&& 0x40) >>> 6)) (flags :: hop :: rest)) := if_neg hlong
    have hp' : Packet.unpack P (flags :: (hops+1) :: rest) = some (Packet.parsed P
        (.ofByte ((flags &&& 0x40) >>> 6)) (flags :: (hops+1) :: rest)) := if_neg hlong
    have hsame : ∀ type, (Packet.parsed P type (flags :: (hops+1) :: rest)).destinationHash =
          (Packet.parsed P type (flags :: hop :: rest)).destinationHash ∧
        (Packet.parsed P type (flags :: (hops+1) :: rest)).data =
          (Packet.parsed P type (flags :: hop :: rest)).data := by
      intro type
      cases type <;> exact ⟨rfl,rfl⟩
    exact ⟨_,hp',rfl,rfl,(hsame _).1,(hsame _).2,hraw.packetHash hp hp'⟩

section
variable {P : Platform} {dest : Bytes} {stamp : Bytes → Nat}

def Event.Silent (P : Platform) (dest : Bytes) (e : Event) : Prop :=
  ∀ i raw origin p, e = .sendOutgoing i raw origin → Packet.unpack P raw = some p →
    p.packetType = .announce → p.destinationHash ≠ dest

theorem Event.silent_of_frameType {i : Nat} {raw : Bytes} {origin : Origin}
    (h : frameType raw ≠ .announce) : (Event.sendOutgoing i raw origin).Silent P dest := by
  rintro _ _ _ p ⟨⟩ hp ht
  exact absurd ((frameType_of_unpack hp).symm.trans ht) h

structure Node.Unrouted (P : Platform) (dest : Bytes) (n m : Node) : Prop where
  pathTable : m.pathTable = n.pathTable
  seenAnnounces : m.seenAnnounces = n.seenAnnounces
  log : ∃ new, m.log = new ++ n.log ∧ ∀ e ∈ new, e.Silent P dest

namespace Node.Unrouted
variable {n m : Node}

theorem quiet (hpath : m.pathTable = n.pathTable) (hseen : m.seenAnnounces = n.seenAnnounces)
    (hlog : m.log = n.log) : n.Unrouted P dest m := ⟨hpath,hseen,[],hlog,by simp⟩

theorem note {e : Event} (he : e.Silent P dest) : n.Unrouted P dest (n.note e) :=
  ⟨rfl,rfl,[e],rfl,by simpa using he⟩

theorem trans {k : Node} (h : n.Unrouted P dest m) (h' : m.Unrouted P dest k) :
    n.Unrouted P dest k := by
  obtain ⟨new,hlog,hnew⟩ := h.log
  obtain ⟨new',hlog',hnew'⟩ := h'.log
  refine ⟨h'.pathTable.trans h.pathTable,h'.seenAnnounces.trans h.seenAnnounces,new' ++ new,
    by rw [hlog',hlog,List.append_assoc],fun e he => ?_⟩
  exact (List.mem_append.mp he).elim (hnew' e) (hnew e)

end Node.Unrouted

/-- Operations that keep the paths and put no announce of `dest` on the air. -/
structure Op.Keeps (dest : Bytes) (o : Op) : Prop where
  kept : o ≠ .reset ∧ o ≠ .clearPaths
  frames : ∀ raw skip, o = .broadcast raw skip → frameType raw ≠ .announce
  announces : ∀ d app send, o = .announce d app send → d.hash.length = 16 ∧ d.hash ≠ dest

theorem announceFrame_silent {d : Destination} {app raw : Bytes} {r r' : Rng} {i : Nat}
    {origin : Origin} (h : announceFrame P d app r = .ok (raw,r')) (hlen : d.hash.length = 16)
    (hd : d.hash ≠ dest) : (Event.sendOutgoing i raw origin).Silent P dest := by
  rintro _ _ _ p ⟨⟩ hp -
  obtain ⟨data,rfl⟩ := announceFrame_eq h
  rw [Packet.frame_cons] at hp
  obtain ⟨header,hp',hcar⟩ := Packet.Rewritten.unpack (P := P) (Packet.packFlags_header1 _ _) hlen
    (.same _)
  cases hp.symm.trans hp'
  rw [hcar.destinationHash]
  exact hd

theorem Update.unrouted {o : Op} {t n m : Node} (ho : o.Keeps dest) (h : Update P o t n m) :
    n.Unrouted P dest m := by
  cases h with
  | tables h => exact .quiet h.pathTable h.seenAnnounces h.log
  | unlinked _ =>
    unfold Node.deregisterLink
    split <;> exact .quiet rfl rfl rfl
  | cleared hc => exact absurd hc ho.kept.2
  | joined _ | left _ | callbacks _ => exact .quiet rfl rfl rfl
  | @plain _ e he => exact .note (by rintro _ _ _ _ rfl; exact he.elim)
  | received _ _ => exact .note (by rintro _ _ _ _ ⟨⟩)
  | sent hs =>
    refine .note ?_
    obtain ⟨skip,hs⟩ | ⟨d,app,send,r,r',hs,hframe⟩ := hs
    · exact Event.silent_of_frameType (ho.frames _ skip hs)
    · obtain ⟨hlen,hd⟩ := ho.announces d app send hs
      exact announceFrame_silent hframe hlen hd
  | requested _ _ _ | validated _ _ _ _ =>
    exact .quiet (Node.registerLink_pathTable _ _) (Node.registerLink_seenAnnounces _ _)
      (Node.registerLink_log _ _)
  | requestSent _ _ =>
    exact .note (Event.silent_of_frameType (by rw [frameType_requestFrame]; decide))
  | proofSent _ _ _ _ | linkSent _ _ =>
    exact .note (Event.silent_of_frameType (by rw [frameType_linkFrame]; decide))
  | @proved _ a l id packet _ _ _ _ _ _ _ _ =>
    have hset : n.Unrouted P dest ((n.note (.onProof a packet)).setLink a
        { l.proving P packet.data with status := .active }) :=
      (Node.Unrouted.note (e := .onProof a packet) (by rintro _ _ _ _ ⟨⟩)).trans
        (.quiet rfl rfl rfl)
    unfold Node.noteEstablished
    split
    · exact hset
    · exact hset.trans (.note (by rintro _ _ _ _ ⟨⟩))
  | @refused _ a _ _ packet _ _ _ _ _ =>
    exact (Node.Unrouted.note (e := .onProof a packet) (by rintro _ _ _ _ ⟨⟩)).trans
      (.quiet rfl rfl rfl)
  | @delivered _ _ _ _ e _ _ _ he _ => exact .note (by rintro _ _ _ _ rfl; exact he.elim)
  | @forwarded raw iface packet via _ hfwd =>
    refine (Node.Unrouted.note (e := .rx raw iface) (by rintro _ _ _ _ ⟨⟩)).trans (.note ?_)
    exact Event.silent_of_frameType (by rw [hfwd.frameType]; decide)

/-- What a node has accepted of `dest`: the hop count an announce came with and the interface
it came on, by its hash. -/
abbrev Accepted := Bytes → Option (UInt8 × Nat)

def Accepted.Grows (acc acc' : Accepted) : Prop := ∀ x r, acc x = some r → acc' x = some r

/-- The paths and relays of a node are those of the announces it has accepted, the last of
them, by `stamp`, in the path table; `air` is what is known of how they came. -/
structure Routed (P : Platform) (dest : Bytes) (stamp : Bytes → Nat)
    (air : Bytes → UInt8 → Nat → Prop) (acc : Accepted) (n : Node) : Prop where
  seen : ∀ {x r}, acc x = some r → x ∈ n.seenAnnounces
  heard : ∀ {x r}, acc x = some r → ∃ via q b, n.Heard P via dest q b ∧ q.packetHash = x
  origin : ∀ {x h i}, acc x = some (h,i) → air x h i
  path : ∀ {e}, n.pathTable.lookup dest = some e → ∃ x i, e.viaInterface = some i ∧
    acc x = some (e.hops,i) ∧ ∀ y r, acc y = some r → y = x ∨ stamp y < stamp x
  kept : ∀ {x r}, acc x = some r → (n.pathTable.lookup dest).isSome
  sent : ∀ {i raw origin p}, .sendOutgoing i raw origin ∈ n.log → Packet.unpack P raw = some p →
    p.packetType = .announce → p.destinationHash = dest →
    ∃ h j, acc p.packetHash = some (h,j) ∧ p.hops.toNat = h.toNat+1

namespace Routed
variable {air : Bytes → UInt8 → Nat → Prop} {acc : Accepted} {n m : Node}

theorem boot (r : Rng) : Routed P dest stamp air (fun _ => none) (Node.boot r) where
  seen := by rintro x r ⟨⟩
  heard := by rintro x r ⟨⟩
  origin := by rintro x h i ⟨⟩
  path := fun he => nomatch (Finmap.lookup_empty _).symm.trans he
  kept := by rintro x r ⟨⟩
  sent := by rintro i raw origin p ⟨⟩

theorem unrouted (h : Routed P dest stamp air acc n) (hu : n.Unrouted P dest m) :
    Routed P dest stamp air acc m where
  seen := fun hx => by rw [hu.seenAnnounces]; exact h.seen hx
  heard := fun hx => by
    obtain ⟨via,q,b,hq,hx⟩ := h.heard hx
    obtain ⟨new,hlog,-⟩ := hu.log
    exact ⟨via,q,b,hq.mono (by rw [hlog]; exact List.subset_append_right _ _),hx⟩
  origin := h.origin
  path := fun he => h.path (by rwa [← hu.pathTable])
  kept := fun hx => by rw [hu.pathTable]; exact h.kept hx
  sent := fun {i raw origin p} he hp ht hd => by
    obtain ⟨new,hlog,hnew⟩ := hu.log
    rw [hlog,List.mem_append] at he
    rcases he with he | he
    · exact absurd hd (hnew _ he i raw origin p rfl hp ht)
    · exact h.sent he hp ht hd

theorem hear (h : Routed P dest stamp air acc n) (packet : Packet) :
    Routed P dest stamp air acc (n.hear packet) where
  seen := fun hx => Finset.mem_insert_of_mem (h.seen hx)
  heard := fun hx => by
    obtain ⟨via,q,b,hq,hx⟩ := h.heard hx
    exact ⟨via,q,b,hq.mono fun _ he => he,hx⟩
  origin := h.origin
  path := h.path
  kept := h.kept
  sent := h.sent

theorem believe_other (h : Routed P dest stamp air acc n) {packet : Packet} (a : Announce)
    (via : Option Nat) (hd : packet.destinationHash ≠ dest) :
    Routed P dest stamp air acc (n.believe packet a via) := by
  have hpath : (n.believe packet a via).pathTable.lookup dest = n.pathTable.lookup dest :=
    Finmap.lookup_insert_of_ne _ hd.symm
  have hheard := h.hear packet
  exact ⟨hheard.seen,fun hx => by
    obtain ⟨via,q,b,hq,hx⟩ := h.heard hx
    exact ⟨via,q,b,hq.mono fun _ he => he,hx⟩,h.origin,fun he => h.path (hpath ▸ he),
    fun hx => by rw [hpath]; exact h.kept hx,h.sent⟩

theorem believe (h : Routed P dest stamp air acc n) {packet : Packet} {a : Announce} {i : Nat}
    (hd : packet.destinationHash = dest) (hnew : packet.packetHash ∉ n.seenAnnounces)
    (hheard : n.Heard P (some i) dest packet a) (hair : air packet.packetHash packet.hops i)
    (hlast : ∀ via q b, n.Heard P via dest q b → q.packetHash = packet.packetHash ∨
      stamp q.packetHash < stamp packet.packetHash) :
    Accepted.Grows acc (Function.update acc packet.packetHash (some (packet.hops,i))) ∧
    Routed P dest stamp air (Function.update acc packet.packetHash (some (packet.hops,i)))
      (n.believe packet a (some i)) := by
  have hnone : acc packet.packetHash = none := by
    by_contra hsome
    obtain ⟨r,hr⟩ := Option.ne_none_iff_exists'.mp hsome
    exact hnew (h.seen hr)
  have old : ∀ {x r}, acc x = some r → x ≠ packet.packetHash := by
    rintro x r hx rfl
    rw [hnone] at hx
    cases hx
  have updated : ∀ {x r}, Function.update acc packet.packetHash (some (packet.hops,i)) x = some r →
      (x = packet.packetHash ∧ r = (packet.hops,i)) ∨ acc x = some r := by
    intro x r hx
    by_cases hxp : x = packet.packetHash
    · subst hxp
      rw [Function.update_self] at hx
      exact .inl ⟨rfl,(Option.some.inj hx).symm⟩
    · rw [Function.update_of_ne hxp] at hx
      exact .inr hx
  have grows : Accepted.Grows acc (Function.update acc packet.packetHash (some (packet.hops,i))) :=
    fun x r hx => by rw [Function.update_of_ne (old hx)]; exact hx
  have hpath : (n.believe packet a (some i)).pathTable.lookup dest =
      some ⟨packet.destinationHash,packet.hops,some i⟩ := by
    rw [← hd]
    exact Finmap.lookup_insert _
  refine ⟨grows,?_,?_,?_,?_,?_,?_⟩
  · intro x r hx
    rcases updated hx with ⟨rfl,-⟩ | hx
    · exact Finset.mem_insert_self _ _
    · exact Finset.mem_insert_of_mem (h.seen hx)
  · intro x r hx
    rcases updated hx with ⟨rfl,-⟩ | hx
    · exact ⟨some i,packet,a,hheard.mono fun _ he => he,rfl⟩
    · obtain ⟨via,q,b,hq,hx⟩ := h.heard hx
      exact ⟨via,q,b,hq.mono fun _ he => he,hx⟩
  · intro x hops j hx
    rcases updated hx with ⟨rfl,hr⟩ | hx
    · cases hr
      exact hair
    · exact h.origin hx
  · intro e he
    cases hpath.symm.trans he
    refine ⟨packet.packetHash,i,rfl,Function.update_self _ _ _,fun y r hy => ?_⟩
    rcases updated hy with ⟨rfl,-⟩ | hy
    · exact .inl rfl
    · obtain ⟨via,q,b,hq,rfl⟩ := h.heard hy
      exact hlast via q b hq
  · intro x r _
    rw [hpath]
    rfl
  · intro j raw origin p he hp ht hd
    obtain ⟨hops,k,hacc,hhops⟩ := h.sent he hp ht hd
    exact ⟨hops,k,grows _ _ hacc,hhops⟩

theorem relaySent (h : Routed P dest stamp air acc n) {raw : Bytes} {packet : Packet} {i j : Nat}
    (hp : Packet.unpack P raw = some packet) (hops : packet.hops < pathfinderM)
    (hacc : packet.destinationHash = dest → acc packet.packetHash = some (packet.hops,i)) :
    Routed P dest stamp air acc (n.note (.sendOutgoing j (withHops packet.raw packet.hops)
      (.announceRelay packet))) where
  seen := h.seen
  heard := fun hx => by
    obtain ⟨via,q,b,hq,hx⟩ := h.heard hx
    exact ⟨via,q,b,hq.mono (List.subset_cons_self _ _),hx⟩
  origin := h.origin
  path := h.path
  kept := h.kept
  sent := fun {k raw' origin p} he hp' ht hd => by
    rcases List.mem_cons.mp he with he | he
    · cases he
      rw [(Packet.unpack_some hp).1] at hp'
      obtain ⟨q,hq,hqhops,-,hqdest,-,hqhash⟩ := unpack_withHops hp packet.hops
      cases hp'.symm.trans hq
      refine ⟨packet.hops,i,by rw [hqhash]; exact hacc (hqdest.symm.trans hd),?_⟩
      rw [hqhops,(toNat_succ_of_lt hops).1]
    · exact h.sent he hp' ht hd

end Routed

theorem Accepted.Grows.trans {acc acc' acc'' : Accepted} (h : acc.Grows acc')
    (h' : acc'.Grows acc'') : acc.Grows acc'' := fun x r hx => h' x r (h x r hx)

/-- An operation keeps the paths to `dest`, hears only of announces that `air` vouches for, and
believes a new one only if it comes after all that were heard. -/
structure Op.Hears (P : Platform) (dest : Bytes) (stamp : Bytes → Nat)
    (air : Bytes → UInt8 → Nat → Prop) (o : Op) (u : Node) : Prop where
  keeps : o.Keeps dest
  arrives : ∀ raw iface p, o = .inbound raw iface → Packet.unpack P raw = some p →
    p.packetType = .announce → p.destinationHash = dest →
    ∃ i, iface = some i ∧ air p.packetHash p.hops i
  inOrder : ∀ raw iface p (a : Announce), o = .inbound raw iface →
    Packet.unpack P raw = some p → p.packetType = .announce → p.destinationHash = dest →
    a.Genuine P p → p.packetHash ∉ u.seenAnnounces → ∀ via q b, u.Heard P via dest q b →
    stamp q.packetHash < stamp p.packetHash

section
variable {air : Bytes → UInt8 → Nat → Prop} {env : Env}

def Node.RoutedOn (P : Platform) (dest : Bytes) (stamp : Bytes → Nat)
    (air : Bytes → UInt8 → Nat → Prop) (n m : Node) : Prop :=
  ∀ acc, Routed P dest stamp air acc n →
    ∃ acc', Accepted.Grows acc acc' ∧ Routed P dest stamp air acc' m

theorem Node.RoutedOn.trans {n m k : Node} (h : n.RoutedOn P dest stamp air m)
    (h' : m.RoutedOn P dest stamp air k) : n.RoutedOn P dest stamp air k := by
  intro acc hacc
  obtain ⟨acc',hgrows,hacc'⟩ := h acc hacc
  obtain ⟨acc'',hgrows',hacc''⟩ := h' acc' hacc'
  exact ⟨acc'',hgrows.trans hgrows',hacc''⟩

theorem Node.Unrouted.routedOn {n m : Node} (h : n.Unrouted P dest m) :
    n.RoutedOn P dest stamp air m := fun acc hacc => ⟨acc,fun _ _ hx => hx,hacc.unrouted h⟩

theorem relayAnnounce_routed (henv : ∀ e m, Node.RoutedOn P dest stamp air m (env e m).2)
    {raw : Bytes} {packet : Packet} {a : Announce} (ha : a.Genuine P packet)
    (hp : Packet.unpack P raw = some packet) {n : Node} (hn : packet.packetHash ∈ n.seenAnnounces)
    {acc : Accepted} {i : Nat} (via : Option Nat)
    (hacc : packet.destinationHash = dest → acc packet.packetHash = some (packet.hops,i))
    (h : Routed P dest stamp air acc n) : ∃ acc', Accepted.Grows acc acc' ∧
      Routed P dest stamp air acc' (n.relayAnnounce env packet a via) := by
  -- Call-outs may accept more, but this announce stays as it was accepted.
  let R : Node → Node → Prop := fun n m => ∀ acc : Accepted,
    (packet.destinationHash = dest → acc packet.packetHash = some (packet.hops,i)) →
    Routed P dest stamp air acc n →
    ∃ acc', Accepted.Grows acc acc' ∧ Routed P dest stamp air acc' m
  have hdoes : R n (n.relayAnnounce env packet a via) := by
    refine (relayAnnounce_does n n ha).lift R (fun n acc _ h => ⟨acc,fun _ _ hx => hx,h⟩) ?_ ?_
      fun e m acc _ h => henv e m acc h
    · intro s t u h h' acc hacc hs
      obtain ⟨acc',hgrows,ht⟩ := h acc hacc hs
      obtain ⟨acc'',hgrows',hu⟩ := h' acc' (fun hd => hgrows _ _ (hacc hd)) ht
      exact ⟨acc'',hgrows.trans hgrows',hu⟩
    · intro s t hst acc hacc hs
      refine ⟨acc,fun _ _ hx => hx,?_⟩
      cases hst with
      | heard hnew | believed hnew _ => exact absurd hn hnew
      | announced _ | relayed _ => exact hs.unrouted (.note (by rintro _ _ _ _ ⟨⟩))
      | relaySent hops => exact hs.relaySent hp hops hacc
  exact hdoes acc hacc h

theorem processAnnounce_routed (henv : ∀ e m, Node.RoutedOn P dest stamp air m (env e m).2)
    {raw : Bytes} {iface : Option Nat} {packet : Packet} {n u : Node}
    (hg : (Op.inbound raw iface).Hears P dest stamp air n)
    (hp : Packet.unpack P raw = some packet) (ht : packet.packetType = .announce)
    (h : (n.note (.rx raw iface)).processAnnounce P env packet iface = .ok u) :
    n.RoutedOn P dest stamp air u := by
  intro acc hacc
  have hs := hacc.unrouted (m := n.note (.rx raw iface)) (.note (by rintro _ _ _ _ ⟨⟩))
  rw [Node.processAnnounce_eq,Except.ok.injEq] at h
  subst h
  split
  · exact ⟨acc,fun _ _ hx => hx,hs⟩
  · rename_i hnew
    cases hc : Announce.check P packet with
    | none => exact ⟨acc,fun _ _ hx => hx,hs.hear packet⟩
    | some a =>
      have ha := Announce.check_iff.mp hc
      have hseen : packet.packetHash ∈
          ((n.note (.rx raw iface)).believe packet a iface).seenAnnounces :=
        Finset.mem_insert_self _ _
      by_cases hd : packet.destinationHash = dest
      · obtain ⟨i,rfl,hair⟩ := hg.arrives raw iface packet rfl hp ht hd
        obtain ⟨hgrows,hbelieved⟩ := hs.believe hd hnew
          ⟨⟨raw,List.mem_cons_self,hp⟩,ht,hd,ha⟩ hair fun via q b hq => by
            obtain ⟨raw',hraw',hq'⟩ := hq.received
            rcases List.mem_cons.mp hraw' with hraw' | hraw'
            · cases hraw'
              cases hp.symm.trans hq'
              exact .inl rfl
            · exact .inr (hg.inOrder raw (some i) packet a rfl hp ht hd ha hnew via q b
                ⟨⟨raw',hraw',hq'⟩,hq.packetType,hq.destinationHash,hq.genuine⟩)
        obtain ⟨acc',hgrows',hrelayed⟩ := relayAnnounce_routed henv ha hp hseen (some i)
          (fun _ => Function.update_self _ _ _) hbelieved
        exact ⟨acc',hgrows.trans hgrows',hrelayed⟩
      · exact relayAnnounce_routed (i := 0) henv ha hp hseen iface (fun h => absurd h hd)
          (hs.believe_other a iface hd)

theorem Runs.routed {n m : Node} (h : Runs P (fun o u => o.Hears P dest stamp air u) n m) :
    n.RoutedOn P dest stamp air m := by
  have refl : ∀ n : Node, n.RoutedOn P dest stamp air n := fun n acc h => ⟨acc,fun _ _ hx => hx,h⟩
  refine Reentrant.Run.lift (Node.RoutedOn P dest stamp air) refl (fun h h' => h.trans h')
    (fun {env o t u} hruns henv hg hx => ?_) h
  rcases exec_cases (fun e m => Runs.linksLater (hruns e m)) hx with
    ⟨rfl,-⟩ | ⟨raw,iface,packet,rfl,hp,ht,hu⟩ | hdoes
  · exact absurd rfl hg.keeps.kept.1
  · exact processAnnounce_routed henv hg hp ht hu
  · exact hdoes.lift _ refl (fun h h' => h.trans h') (fun hu => (hu.unrouted hg.keeps).routedOn)
      henv

end

end

/-- Nodes joined by point-to-point interfaces: what `n` sends on `i` arrives at `m` on `j`, and
the other way. -/
structure Network (ι : Type) where
  peer : ι → Nat → Option (ι × Nat)
  symm : ∀ {n i m j}, peer n i = some (m,j) → peer m j = some (n,i)
  apart : ∀ {n i m j}, peer n i = some (m,j) → m ≠ n

namespace Network
variable {ι : Type} (net : Network ι)

/-- What a node does, other than drop its paths or broadcast an announce made by hand: frames
arrive, late or not at all, from the other end of an interface, and only the owner announces
`dest`. -/
structure Step (owner : ι) (dest : Bytes) (n : ι) (t : ι → Node) (o : Op) : Prop where
  kept : o ≠ .reset ∧ o ≠ .clearPaths
  frames : ∀ raw skip, o = .broadcast raw skip → frameType raw ≠ .announce
  announces : n ≠ owner → ∀ d app send, o = .announce d app send →
    d.hash.length = 16 ∧ d.hash ≠ dest
  arrives : ∀ raw iface, o = .inbound raw iface → ∃ i m j origin, iface = some i ∧
    net.peer n i = some (m,j) ∧ .sendOutgoing j raw origin ∈ (t m).log

def Leads (t : ι → Node) (dest : Bytes) (n m : ι) : Prop :=
  ∃ e i j, (t n).pathTable.lookup dest = some e ∧ e.viaInterface = some i ∧
    net.peer n i = some (m,j)

/-- DATA that arrives at `n` as `raw` is passed on from node to node, each time in one frame, and
arrives at `m` as `raw'`. -/
inductive Carries (P : Platform) (t : ι → Node) : ι → Bytes → ι → Bytes → Prop where
  | here (n : ι) (raw : Bytes) : Carries P t n raw n raw
  | hop {n m k : ι} {raw raw' raw'' : Bytes} {packet : Packet} {i j : Nat} :
      (∀ env iface, ∃ u, (t n).inbound P env raw iface = .ok u ∧
        Node.CallsOut env [.sendOutgoing i raw' (.forward packet)]
          { t n with log := .rx raw iface :: (t n).log } u) →
      net.peer n i = some (m,j) → Carries P t m raw' k raw'' → Carries P t n raw k raw''

/-- How an announce comes to `n`: from the owner, or from a node that accepted it one hop
before. -/
def Air (owner : ι) (acc : ι → Accepted) (n : ι) (x : Bytes) (h : UInt8) (i : Nat) : Prop :=
  ∃ m j, net.peer n i = some (m,j) ∧
    (m ≠ owner → ∃ h' k, acc m x = some (h',k) ∧ h.toNat = h'.toNat+1)

end Network

def Op.InOrder (P : Platform) (dest : Bytes) (stamp : Bytes → Nat) (o : Op) (u : Node) : Prop :=
  ∀ raw iface p (a : Announce), o = .inbound raw iface → Packet.unpack P raw = some p →
    p.packetType = .announce → p.destinationHash = dest → a.Genuine P p →
    p.packetHash ∉ u.seenAnnounces → ∀ via q b, u.Heard P via dest q b →
    stamp q.packetHash < stamp p.packetHash

section
variable {P : Platform} {dest : Bytes} {stamp : Bytes → Nat} {ι : Type} {net : Network ι}
  {owner : ι}

theorem Routed.mono {air air' : Bytes → UInt8 → Nat → Prop} {acc : Accepted} {n : Node}
    (h : Routed P dest stamp air acc n) (hair : ∀ x h i, air x h i → air' x h i) :
    Routed P dest stamp air' acc n :=
  ⟨h.seen,h.heard,fun hx => hair _ _ _ (h.origin hx),h.path,h.kept,h.sent⟩

def Network.Routes (net : Network ι) (P : Platform) (owner : ι) (dest : Bytes)
    (stamp : Bytes → Nat) (acc : ι → Accepted) (t : ι → Node) : Prop :=
  ∀ n ≠ owner, Routed P dest stamp (net.Air owner acc n) (acc n) (t n)

variable [DecidableEq ι]

theorem Network.Routes.step {t : ι → Node} {n : ι} {u : Node} {acc : ι → Accepted}
    (h : net.Routes P owner dest stamp acc t)
    (hu : Runs P (fun o u => net.Step owner dest n t o ∧
      (n ≠ owner → o.InOrder P dest stamp u)) (t n) u) :
    ∃ acc', net.Routes P owner dest stamp acc' (Function.update t n u) := by
  by_cases hn : n = owner
  · refine ⟨acc,fun m hm => ?_⟩
    rw [Function.update_of_ne (by rintro rfl; exact hm hn)]
    exact h m hm
  have hruns : Runs P (fun o u => o.Hears P dest stamp (net.Air owner acc n) u) (t n) u := by
    refine hu.mono fun o u ⟨hstep,horder⟩ =>
      ⟨⟨hstep.kept,hstep.frames,hstep.announces hn⟩,?_,horder hn⟩
    intro raw iface p ho hp ht hd
    obtain ⟨i,m,j,origin,hi,hpeer,hsent⟩ := hstep.arrives raw iface ho
    refine ⟨i,hi,m,j,hpeer,fun hm => ?_⟩
    exact (h m hm).sent hsent hp ht hd
  obtain ⟨acc',hgrows,hacc'⟩ := hruns.routed (acc n) (h n hn)
  refine ⟨Function.update acc n acc',fun m hm => ?_⟩
  have grows : ∀ k, (acc k).Grows (Function.update acc n acc' k) := by
    intro k
    by_cases hk : k = n
    · subst hk
      rw [Function.update_self]
      exact hgrows
    · rw [Function.update_of_ne hk]
      exact fun _ _ hx => hx
  have hair : ∀ x h i, net.Air owner acc m x h i →
      net.Air owner (Function.update acc n acc') m x h i := by
    rintro x h i ⟨k,j,hpeer,hk⟩
    refine ⟨k,j,hpeer,fun hne => ?_⟩
    obtain ⟨h',l,hx,hh⟩ := hk hne
    exact ⟨h',l,grows k _ _ hx,hh⟩
  by_cases hmn : m = n
  · subst hmn
    rw [Function.update_self,Function.update_self]
    exact hacc'.mono hair
  · rw [Function.update_of_ne hmn,Function.update_of_ne hmn]
    exact (h m hm).mono hair

omit [DecidableEq ι]

def Stands (dest : Bytes) (stamp : Bytes → Nat) (acc : ι → Accepted) (t : ι → Node) (n : ι)
    (x : Bytes) (h : UInt8) : Prop :=
  ∃ e i, (t n).pathTable.lookup dest = some e ∧ e.viaInterface = some i ∧ e.hops = h ∧
    acc n x = some (h,i) ∧ ∀ y r, acc n y = some r → y = x ∨ stamp y < stamp x

theorem Stands.unique {acc : ι → Accepted} {t : ι → Node} {n : ι} {x x' : Bytes} {h h' : UInt8}
    (hx : Stands dest stamp acc t n x h) (hx' : Stands dest stamp acc t n x' h') :
    x = x' ∧ h = h' := by
  obtain ⟨e,i,he,-,rfl,hacc,hlast⟩ := hx
  obtain ⟨e',i',he',-,rfl,hacc',hlast'⟩ := hx'
  cases he.symm.trans he'
  refine ⟨?_,rfl⟩
  rcases hlast x' _ hacc' with heq | hlt
  · exact heq.symm
  · rcases hlast' x _ hacc with heq | hlt'
    · exact heq
    · omega

/-- The path of `m` is by a later announce than that of `n`, or by the same, nearer to the
owner. -/
def Nearer (dest : Bytes) (stamp : Bytes → Nat) (acc : ι → Accepted) (t : ι → Node)
    (n m : ι) : Prop :=
  ∃ x h x' h', Stands dest stamp acc t n x h ∧ Stands dest stamp acc t m x' h' ∧
    (stamp x < stamp x' ∨ x = x' ∧ h'.toNat < h.toNat)

theorem Nearer.trans {acc : ι → Accepted} {t : ι → Node} {n m k : ι}
    (h : Nearer dest stamp acc t n m) (h' : Nearer dest stamp acc t m k) :
    Nearer dest stamp acc t n k := by
  obtain ⟨x,h₁,y,h₂,hn,hm,hlt⟩ := h
  obtain ⟨y',h₂',z,h₃,hm',hk,hlt'⟩ := h'
  obtain ⟨rfl,rfl⟩ := hm.unique hm'
  refine ⟨x,h₁,z,h₃,hn,hk,?_⟩
  rcases hlt with hlt | ⟨rfl,hlt⟩
  · rcases hlt' with hlt' | ⟨rfl,-⟩
    · exact .inl (hlt.trans hlt')
    · exact .inl hlt
  · exact hlt'.imp_right fun ⟨hx,hh⟩ => ⟨hx,hh.trans hlt⟩

theorem Nearer.irrefl {acc : ι → Accepted} {t : ι → Node} (n : ι) :
    ¬ Nearer dest stamp acc t n n := by
  rintro ⟨x,h,x',h',hx,hx',hlt⟩
  obtain ⟨rfl,rfl⟩ := hx.unique hx'
  omega

/-- A node that a path leads to has a path of its own, and is nearer. -/
theorem Network.Leads.nearer {acc : ι → Accepted} {t : ι → Node}
    (hr : net.Routes P owner dest stamp acc t) {n m : ι} (hn : n ≠ owner) (hm : m ≠ owner)
    (h : net.Leads t dest n m) : Nearer dest stamp acc t n m := by
  obtain ⟨e,i,j,he,hvia,hpeer⟩ := h
  obtain ⟨x,i',hvia',hacc,hlast⟩ := (hr n hn).path he
  cases hvia.symm.trans hvia'
  obtain ⟨m',j',hpeer',hair⟩ := (hr n hn).origin hacc
  cases hpeer.symm.trans hpeer'
  obtain ⟨h',k,hx,hhops⟩ := hair hm
  obtain ⟨e',he'⟩ := Option.isSome_iff_exists.mp ((hr m hm).kept hx)
  obtain ⟨x',i₁,hvia₁,hacc₁,hlast₁⟩ := (hr m hm).path he'
  refine ⟨x,e.hops,x',e'.hops,⟨e,i,he,hvia,rfl,hacc,hlast⟩,⟨e',i₁,he',hvia₁,rfl,hacc₁,hlast₁⟩,?_⟩
  rcases hlast₁ x _ hx with rfl | hlt
  · cases hacc₁.symm.trans hx
    exact .inr ⟨rfl,by omega⟩
  · exact .inl hlt

theorem Network.Routes.carries [Finite ι] {acc : ι → Accepted} {t : ι → Node}
    (hr : net.Routes P owner dest stamp acc t)
    (hother : ∀ n ≠ owner, (t n).destinations.lookup dest = none ∧ (t n).links.lookup dest = none)
    {n : ι} (hn : n ≠ owner) (hpath : ((t n).pathTable.lookup dest).isSome) {raw : Bytes}
    {packet : Packet} (hp : Packet.unpack P raw = some packet) (ht : packet.packetType = .data)
    (hd : packet.destinationHash = dest) : ∃ raw' packet', net.Carries P t n raw owner raw' ∧
      Packet.unpack P raw' = some packet' ∧ packet'.packetType = .data ∧
      packet'.destinationHash = dest ∧ packet'.data = packet.data := by
  let r : ι → ι → Prop := fun m n => Nearer dest stamp acc t n m
  have : IsTrans ι r := ⟨fun _ _ _ h h' => h'.trans h⟩
  have : Std.Irrefl r := ⟨Nearer.irrefl⟩
  have hwf : WellFounded r := Finite.wellFounded_of_trans_of_irrefl r
  induction n using hwf.induction generalizing raw packet with
  | _ n ih =>
    obtain ⟨e,he⟩ := Option.isSome_iff_exists.mp hpath
    obtain ⟨x,i,hvia,hacc,-⟩ := (hr n hn).path he
    obtain ⟨m,j,hpeer,hair⟩ := (hr n hn).origin hacc
    obtain ⟨nextHop,hops,via⟩ := e
    cases hvia
    obtain ⟨hlocal,hlink⟩ := hother n hn
    have hforward : (t n).Forwards P raw packet i :=
      ⟨hp,ht,by rw [hd]; exact hlocal,by rw [hd]; exact hlink,nextHop,hops,by rw [hd]; exact he⟩
    obtain ⟨q,hq,-,hqtype,hqdest,hqdata,-⟩ := unpack_withHops hp packet.hops
    have hqt := hqtype.trans ht
    have hqd := hqdest.trans hd
    have hstep (env : Env) (iface : Option Nat) : ∃ u, (t n).inbound P env raw iface = .ok u ∧
        Node.CallsOut env [.sendOutgoing i (withHops raw packet.hops) (.forward packet)]
          { t n with log := .rx raw iface :: (t n).log } u :=
      ⟨_,inbound_forwards hforward env iface,Node.callsOut _ _ _⟩
    by_cases hm : m = owner
    · subst hm
      exact ⟨_,q,.hop hstep hpeer (.here _ _),hq,hqt,hqd,hqdata⟩
    · have hlead : net.Leads t dest n m := ⟨_,i,j,he,rfl,hpeer⟩
      have hnear := hlead.nearer hr hn hm
      have hpath' : ((t m).pathTable.lookup dest).isSome := by
        obtain ⟨-,-,x',h',-,⟨e',-,he',-⟩,-⟩ := hnear
        rw [he']
        rfl
      obtain ⟨raw',packet',hcarries,hp',ht',hd',hdata'⟩ := ih m hnear hm hpath' hq hqt hqd
      exact ⟨raw',packet',.hop hstep hpeer hcarries,hp',ht',hd',hdata'.trans hqdata⟩

/-- As long as every node believes the announces of `dest` in one order, say that in which they
were made: the paths of the nodes other than the owner never lead round, and DATA that follows
them arrives at the owner, which decrypts it. -/
theorem paths_lead_home [Finite ι] [DecidableEq ι] (r : ι → Rng) {t : ι → Node}
    (h : Interleaving.Run (exec P) (fun n t o u => net.Step owner dest n t o ∧
      (n ≠ owner → o.InOrder P dest stamp u)) (fun n => Node.boot (r n)) t) :
    (∀ n, ¬ Relation.TransGen
      (fun n m => n ≠ owner ∧ m ≠ owner ∧ net.Leads t dest n m) n n) ∧
    ((∀ n ≠ owner, (t n).destinations.lookup dest = none ∧ (t n).links.lookup dest = none) →
      ∀ n ≠ owner, ((t n).pathTable.lookup dest).isSome → ∀ raw packet,
      Packet.unpack P raw = some packet → packet.packetType = .data →
      packet.destinationHash = dest → ∃ raw' packet', net.Carries P t n raw owner raw' ∧
        Packet.unpack P raw' = some packet' ∧ packet'.data = packet.data ∧
        ∀ d pt, (t owner).destinations.lookup dest = some d → d.decrypt P packet.data = .ok pt →
          pt ≠ [] → ∀ env iface, ∃ u, (t owner).inbound P env raw' iface = .ok u ∧
            Node.CallsOut env
              (((t owner).packetCallback d.obj).toList.map fun cb => .receive cb d pt packet')
              { t owner with log := .rx raw' iface :: (t owner).log } u) := by
  obtain ⟨acc,hr⟩ : ∃ acc, net.Routes P owner dest stamp acc t :=
    Interleaving.Run.invariant (fun t => ∃ acc, net.Routes P owner dest stamp acc t)
      (fun ⟨_,ht⟩ hu => ht.step hu) h ⟨fun _ _ => none,fun n _ => .boot (r n)⟩
  refine ⟨fun n hcycle => ?_,fun hother n hn hpath raw packet hp ht hd => ?_⟩
  · have hnearer : ∀ {n m : ι}, Relation.TransGen
        (fun n m => n ≠ owner ∧ m ≠ owner ∧ net.Leads t dest n m) n m →
        Nearer dest stamp acc t n m := by
      intro n m h
      induction h with
      | single h => exact h.2.2.nearer hr h.1 h.2.1
      | tail _ h ih => exact ih.trans (h.2.2.nearer hr h.1 h.2.1)
    exact Nearer.irrefl n (hnearer hcycle)
  · obtain ⟨raw',packet',hcarries,hp',ht',hd',hdata⟩ := hr.carries hother hn hpath hp ht hd
    refine ⟨raw',packet',hcarries,hp',hdata,fun d pt hlocal hdec hne env iface => ?_⟩
    exact inbound_received hp' ht' (by rw [hd',hlocal]) (by rw [hdata,hdec]) hne env iface

end

section
variable {P : Platform} {ι : Type} [DecidableEq ι]

def runNet (P : Platform) (guard : ι → (ι → Node) → Op → Node → Bool) :
    List (ι × List Op) → (ι → Node) → Option (ι → Node)
  | [], t => some t
  | (n,os) :: turns, t =>
    (runOps P (guard n t) os (t n)).bind fun u => runNet P guard turns (Function.update t n u)

theorem runNet_runs {guard : ι → (ι → Node) → Op → Node → Bool} {turns : List (ι × List Op)}
    {t t' : ι → Node} (h : runNet P guard turns t = some t') :
    Interleaving.Run (exec P) (fun n t o u => guard n t o u = true) t t' := by
  induction turns generalizing t with
  | nil => cases h; exact .refl _
  | cons turn turns ih =>
    obtain ⟨u,hu,h⟩ := Option.bind_eq_some_iff.mp h
    exact ((Interleaving.Run.refl t).step (runOps_runs hu)).trans (ih h)

end

namespace Sample

/-- Three nodes, each joined to the other two; an interface has the number of the node at its
other end. -/
def triangle : Network (Fin 3) where
  peer n i := if h : i < 3 ∧ i ≠ n.val then some (⟨i,h.1⟩,n.val) else none
  symm := by
    intro n i m j h
    split at h
    · rename_i hi
      cases h
      exact dif_pos ⟨n.isLt,Ne.symm hi.2⟩
    · cases h
  apart := by
    intro n i m j h
    split at h
    · rename_i hi
      cases h
      exact fun heq => hi.2 (congrArg Fin.val heq)
    · cases h

def nodes (n : Fin 3) : Node := Node.boot (rng (4+n.val))

def walks (n : Fin 3) (t : Fin 3 → Node) : Op → Bool
  | .registerInterface _ | .registerDestination _ => true
  | .announce _ _ _ => n = 0
  | .inbound raw (some i) =>
    match triangle.peer n i with
    | some (m,j) => (t m).log.any fun e =>
      match e with
      | .sendOutgoing k sent _ => k == j && sent == raw
      | _ => false
    | none => false
  | _ => false

theorem walks_step {n : Fin 3} {t : Fin 3 → Node} {o : Op} (h : walks n t o = true) :
    triangle.Step 0 destination.hash n t o := by
  refine ⟨⟨?_,?_⟩,?_,?_,?_⟩
  · rintro rfl
    cases h
  · rintro rfl
    cases h
  · rintro raw skip rfl
    cases h
  · rintro hn d app send rfl
    exact absurd (of_decide_eq_true h) hn
  · rintro raw iface rfl
    cases iface with
    | none => cases h
    | some i =>
      simp only [walks] at h
      split at h
      · rename_i m j hpeer
        obtain ⟨e,he,h⟩ := List.any_eq_true.mp h
        split at h
        · rename_i k sent origin
          simp only [Bool.and_eq_true,beq_iff_eq] at h
          obtain ⟨rfl,rfl⟩ := h
          exact ⟨i,m,k,origin,rfl,hpeer,he⟩
        · cases h
      · cases h

def first (o : Op) (u : Node) : Bool :=
  match o with
  | .inbound _ _ => u.log.all fun e =>
    match e with
    | .rx _ _ => false
    | _ => true
  | _ => true

theorem first_inOrder {o : Op} {u : Node} (h : first o u = true) (stamp : Bytes → Nat) :
    o.InOrder platform destination.hash stamp u := by
  rintro raw iface p a rfl - - - - - via q b hq
  obtain ⟨raw',hrx,-⟩ := hq.received
  have := List.all_eq_true.mp h _ hrx
  cases this

def secondAnnounce : Bytes :=
  match RNS.announceFrame platform destination [] (rng 4) with
  | .ok (_,r) =>
    match RNS.announceFrame platform destination [] r with
    | .ok (raw,_) => raw
    | .error _ => []
  | .error _ => []

end Sample

/-- Two announces that cross: node 2 believes the first and then the second, node 1 the second
and then the first, each by way of the other. -/
theorem paths_lead_round : ∃ t : Fin 3 → Node,
    Interleaving.Run (exec Sample.platform)
      (fun n t o _ => Sample.triangle.Step 0 Sample.destination.hash n t o) Sample.nodes t ∧
    ∃ n, Relation.TransGen (fun n m => n ≠ 0 ∧ m ≠ 0 ∧
      Sample.triangle.Leads t Sample.destination.hash n m) n n := by
  obtain ⟨t,ht,hq⟩ := (Option.any_eq_true (fun t : Fin 3 → Node =>
      decide ((t 1).pathTable.lookup Sample.destination.hash =
          some ⟨Sample.destination.hash,1,some 2⟩ ∧
        (t 2).pathTable.lookup Sample.destination.hash =
          some ⟨Sample.destination.hash,1,some 1⟩))
    (runNet Sample.platform (fun n t o _ => Sample.walks n t o)
      [(0,[.registerInterface 1,.registerInterface 2,.announce Sample.destination [] true,
          .announce Sample.destination [] true]),
        (2,[.registerInterface 0,.registerInterface 1,
          .inbound (Sample.announceFrame 4 []) (some 0)]),
        (1,[.registerInterface 0,.registerInterface 2,.inbound Sample.secondAnnounce (some 0),
          .inbound (withHops (Sample.announceFrame 4 []) 0) (some 2)]),
        (2,[.inbound (withHops Sample.secondAnnounce 0) (some 1)])] Sample.nodes)).mp
    (by decide +kernel)
  obtain ⟨h₁,h₂⟩ := of_decide_eq_true hq
  refine ⟨t,(runNet_runs ht).mono fun _ _ _ _ => Sample.walks_step,1,?_⟩
  have hto : Sample.triangle.Leads t Sample.destination.hash 1 2 := ⟨_,2,1,h₁,rfl,rfl⟩
  have hback : Sample.triangle.Leads t Sample.destination.hash 2 1 := ⟨_,1,2,h₂,rfl,rfl⟩
  exact (Relation.TransGen.single ⟨by decide,by decide,hto⟩).tail ⟨by decide,by decide,hback⟩

theorem paths_lead_home_sample : ∃ (t : Fin 3 → Node) (raw raw' : Bytes),
    (t 2).pathTable.lookup Sample.destination.hash =
      some ⟨Sample.destination.hash,1,some 1⟩ ∧
    Sample.triangle.Carries Sample.platform t 2 raw 0 raw' := by
  obtain ⟨t,ht,hq⟩ := (Option.any_eq_true (fun t : Fin 3 → Node =>
      decide ((t 2).pathTable.lookup Sample.destination.hash =
          some ⟨Sample.destination.hash,1,some 1⟩ ∧
        ∀ n ≠ 0, ((t n).destinations.lookup Sample.destination.hash).isNone ∧
          ((t n).links.lookup Sample.destination.hash).isNone))
    (runNet Sample.platform (fun n t o u => Sample.walks n t o && Sample.first o u)
      [(0,[.registerInterface 1,.registerInterface 2,.registerDestination Sample.destination,
          .announce Sample.destination [] true]),
        (1,[.registerInterface 0,.registerInterface 2,
          .inbound (Sample.announceFrame 4 []) (some 0)]),
        (2,[.registerInterface 0,.registerInterface 1,
          .inbound (withHops (Sample.announceFrame 4 []) 0) (some 1)])] Sample.nodes)).mp
    (by decide +kernel)
  obtain ⟨hpath,hother⟩ := of_decide_eq_true hq
  obtain ⟨raw,packet,hp,hc⟩ := Sample.emptyData
  have hrun : Interleaving.Run (exec Sample.platform) (fun n t o u =>
      Sample.triangle.Step 0 Sample.destination.hash n t o ∧ (n ≠ 0 →
        o.InOrder Sample.platform Sample.destination.hash (fun _ => 0) u)) Sample.nodes t := by
    refine (runNet_runs ht).mono fun n t o u hg => ?_
    obtain ⟨hwalks,hfirst⟩ := (Bool.and_eq_true _ _).mp hg
    exact ⟨Sample.walks_step hwalks,fun _ => Sample.first_inOrder hfirst _⟩
  obtain ⟨-,hcarries⟩ := paths_lead_home (fun n : Fin 3 => Sample.rng (4+n.val)) hrun
  obtain ⟨raw',packet',h,-⟩ := hcarries (fun n hn => by
    obtain ⟨hd,hl⟩ := hother n hn
    exact ⟨Option.isNone_iff_eq_none.mp hd,Option.isNone_iff_eq_none.mp hl⟩) 2 (by decide)
    (by rw [hpath]; rfl) raw packet hp (hc.packetType.trans rfl) hc.destinationHash
  exact ⟨t,raw,raw',hpath,h⟩

end RNS
