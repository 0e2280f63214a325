import RTReticulum.Simulation
import RTReticulum.Updates

/-! Where the entries of the path table and of the known destinations come from. -/
set_option autoImplicit false

namespace RNS

structure Node.Heard (P : Platform) (n : Node) (iface : Option Nat) (hash : Bytes)
    (packet : Packet) (a : Announce) : Prop where
  received : ∃ raw, .rx raw iface ∈ n.log ∧ Packet.unpack P raw = some packet
  packetType : packet.packetType = .announce
  destinationHash : packet.destinationHash = hash
  genuine : a.Genuine P packet

/-- A path entry and the known destination beside it, from one announce. -/
def Node.PathFrom (P : Platform) (n : Node) (hash : Bytes) (entry : PathEntry) : Prop :=
  ∃ packet a, n.Heard P entry.viaInterface hash packet a ∧
    entry.nextHop = hash ∧ entry.hops = packet.hops ∧
    n.knownDestinations.lookup hash = some ⟨packet.packetHash,a.publicKey,a.appData⟩

def Node.PathsGenuine (P : Platform) (n : Node) : Prop :=
  ∀ hash entry, n.pathTable.lookup hash = some entry → n.PathFrom P hash entry

section
variable {P : Platform} {guard : Op → Node → Prop}

theorem Node.Heard.mono {n m : Node} {iface : Option Nat} {hash : Bytes} {packet : Packet}
    {a : Announce} (h : n.Heard P iface hash packet a) (hlog : n.log ⊆ m.log) :
    m.Heard P iface hash packet a := by
  obtain ⟨raw,hraw,hp⟩ := h.received
  exact ⟨⟨raw,hlog hraw,hp⟩,h.packetType,h.destinationHash,h.genuine⟩

theorem Node.PathsGenuine.mono {n m : Node} (h : n.PathsGenuine P)
    (hpath : m.pathTable = n.pathTable ∨ m.pathTable = ∅)
    (hknown : m.knownDestinations = n.knownDestinations) (hlog : n.log ⊆ m.log) :
    m.PathsGenuine P := by
  intro hash entry he
  rcases hpath with hp | hp
  · rw [hp] at he
    obtain ⟨packet,a,hh,hrest⟩ := h hash entry he
    exact ⟨packet,a,hh.mono hlog,by rwa [hknown]⟩
  · rw [hp] at he; cases he

theorem Node.PathsGenuine.believe {n : Node} {packet : Packet} {a : Announce}
    {iface : Option Nat} (h : n.PathsGenuine P)
    (hheard : n.Heard P iface packet.destinationHash packet a) :
    (n.believe packet a iface).PathsGenuine P := by
  intro hash entry he
  by_cases hh : hash = packet.destinationHash
  · subst hh
    have hentry : entry = ⟨packet.destinationHash,packet.hops,iface⟩ := by
      have hins := Finmap.lookup_insert (a := packet.destinationHash)
        (b := (⟨packet.destinationHash,packet.hops,iface⟩ : PathEntry)) n.pathTable
      exact (Option.some.inj (hins.symm.trans he)).symm
    subst hentry
    exact ⟨packet,a,hheard.mono fun _ h => h,rfl,rfl,
      Finmap.lookup_insert n.knownDestinations⟩
  · have he' : n.pathTable.lookup hash = some entry := by
      rw [← he]; exact (Finmap.lookup_insert_of_ne _ hh).symm
    obtain ⟨q,b,hq,hnext,hhops,hknown⟩ := h hash entry he'
    refine ⟨q,b,hq.mono fun _ h => h,hnext,hhops,?_⟩
    rw [← hknown]
    exact Finmap.lookup_insert_of_ne _ hh

theorem Update.pathsGenuine {o : Op} {t n m : Node} (h : Update P o t n m)
    (hn : n.PathsGenuine P) : m.PathsGenuine P := by
  cases h with
  | tables h => exact hn.mono (.inl h.pathTable) h.knownDestinations (by rw [h.log]; simp)
  | unlinked _ =>
    unfold Node.deregisterLink
    split <;> exact hn.mono (.inl rfl) rfl fun _ h => h
  | cleared _ => exact hn.mono (.inr rfl) rfl fun _ h => h
  | joined _ | left _ | callbacks _ => exact hn.mono (.inl rfl) rfl fun _ h => h
  | plain _ | received _ _ | sent _ | requestSent _ _ | proofSent _ _ _ _ | refused _ _ _ _ _
  | linkSent _ _
  | delivered _ _ _ _ _ => exact hn.mono (.inl rfl) rfl fun _ h => List.mem_cons_of_mem _ h
  | requested _ _ _ | validated _ _ _ _ =>
    exact hn.mono (.inl (Node.registerLink_pathTable _ _)) (Node.registerLink_knownDestinations _ _)
      (by rw [Node.registerLink_log]; exact fun _ h => h)
  | proved _ _ _ _ _ _ _ _ =>
    unfold Node.noteEstablished
    split
    · exact hn.mono (.inl rfl) rfl fun _ h => List.mem_cons_of_mem _ h
    · exact hn.mono (.inl rfl) rfl fun _ h =>
        List.mem_cons_of_mem _ (List.mem_cons_of_mem _ h)
  | forwarded _ _ =>
    exact hn.mono (.inl rfl) rfl fun _ h => List.mem_cons_of_mem _ (List.mem_cons_of_mem _ h)

theorem Heard.pathsGenuine {raw : Bytes} {iface : Option Nat} {packet : Packet}
    {t n m : Node} (hp : Packet.unpack P raw = some packet) (ht : packet.packetType = .announce)
    (h : Heard P packet iface (t.note (.rx raw iface)) n m) (hn : n.PathsGenuine P) :
    m.PathsGenuine P := by
  cases h with
  | heard _ => exact hn.mono (.inl rfl) rfl fun _ h => h
  | believed _ ha => exact hn.believe ⟨⟨raw,List.mem_cons_self,hp⟩,ht,rfl,ha⟩
  | announced _ | relayed _ | relaySent _ =>
    exact hn.mono (.inl rfl) rfl fun _ h => List.mem_cons_of_mem _ h

theorem Runs.pathsGenuine {n m : Node} (h : Runs P guard n m) :
    n.PathsGenuine P → m.PathsGenuine P :=
  Runs.invariant (Node.PathsGenuine P) (fun _ _ h => h.mono (.inr rfl) rfl fun _ h => h)
    (fun _ h => h.mono (.inl rfl) rfl fun _ h => List.mem_cons_of_mem _ h)
    (fun _ hp ht h => h.pathsGenuine hp ht) (fun _ _ h => h.pathsGenuine) h

/-- Every path was written by an announce that was received on its interface and holds
together, and the known destination is that announce's. -/
theorem path_genuine {n : Node} (hn : Reachable P n) {hash : Bytes} {entry : PathEntry}
    (he : n.pathTable.lookup hash = some entry) :
    ∃ raw packet a, .rx raw entry.viaInterface ∈ n.log ∧
      Packet.unpack P raw = some packet ∧ packet.packetType = .announce ∧
      packet.destinationHash = hash ∧ a = Announce.ofData P packet.data ∧
      a.publicKey.length = 64 ∧
      ed25519Verify P (Bytes.midFrom a.publicKey 32) a.signature
        (hash ++ a.publicKey ++ a.nameHash ++ a.randomHash ++ a.appData) = true ∧
      hash = truncatedHash P (a.nameHash ++ truncatedHash P a.publicKey) ∧
      entry = ⟨hash,packet.hops,entry.viaInterface⟩ ∧
      n.knownDestinations.lookup hash = some ⟨packet.packetHash,a.publicKey,a.appData⟩ := by
  obtain ⟨r,hrun⟩ := hn
  have hboot : (Node.boot r).PathsGenuine P := fun _ _ he => nomatch he
  obtain ⟨packet,a,hh,hnext,hhops,hknown⟩ := hrun.pathsGenuine hboot hash entry he
  obtain ⟨raw,hraw,hp⟩ := hh.received
  have hd := hh.destinationHash
  refine ⟨raw,packet,a,hraw,hp,hh.packetType,hd,hh.genuine.fields,hh.genuine.publicKey_length,
    ?_,?_,?_,hknown⟩
  · have hs := hh.genuine.signed
    rwa [hd] at hs
  · exact hd.symm.trans hh.genuine.bound
  · obtain ⟨next,hops,via⟩ := entry
    subst hnext hhops
    rfl

end

theorem path_genuine_announced : ∃ n entry raw packet, Reachable Sample.platform n ∧
    n.pathTable.lookup Sample.destination.hash = some entry ∧ .rx raw (some 7) ∈ n.log ∧
    Packet.unpack Sample.platform raw = some packet ∧
    entry = ⟨Sample.destination.hash,packet.hops,some 7⟩ := by
  obtain ⟨n,hn,hq⟩ := reachable_of_endsIn Sample.platform
    [.inbound (Sample.announceFrame 4 [0x2A]) (some 7)] (Sample.rng 5)
    (fun n => n.pathTable.lookup Sample.destination.hash =
      some ⟨Sample.destination.hash,0,some 7⟩)
    (by decide +kernel)
  have he := of_decide_eq_true hq
  obtain ⟨raw,packet,_,hrx,hp,_,_,_,_,_,_,hentry,_⟩ := path_genuine hn he
  exact ⟨n,_,raw,packet,hn,he,hrx,hp,hentry⟩

end RNS
