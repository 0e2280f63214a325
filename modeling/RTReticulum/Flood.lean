import RTReticulum.Relays

/-! How often a node hears and relays one announce, and what that bounds in a network. -/
set_option autoImplicit false

namespace RNS

/-- What an event counts for, for one announce: callbacks, relay broadcasts, and
transmissions of a relay. -/
def Event.weight (hash : Bytes) : Event → Nat × Nat × Nat
  | .announce _ _ _ _ p => if p.packetHash = hash then (1,0,0) else 0
  | .relay p => if p.packetHash = hash then (0,1,0) else 0
  | .sendOutgoing _ _ (.announceRelay p) => if p.packetHash = hash then (0,0,1) else 0
  | _ => 0

namespace Node

def tally (hash : Bytes) (n : Node) : Nat × Nat × Nat := (n.log.map (Event.weight hash)).sum

@[simp] theorem tally_note (hash : Bytes) (e : Event) (n : Node) :
    (n.note e).tally hash = e.weight hash + n.tally hash := by simp [tally]

theorem tally_eq {hash : Bytes} {n m : Node} (h : m.log = n.log) :
    m.tally hash = n.tally hash := by rw [tally,h]; rfl

/-- Between `n` and `m` an announce is counted only if it was first heard there, and then
at most once as a callback and a relay, and once for each interface as a transmission. -/
structure CountsOnce (hash : Bytes) (cap : Nat) (n m : Node) : Prop where
  interfaces : n.interfaces.length ≤ cap → m.interfaces.length ≤ cap
  seen : hash ∈ n.seenAnnounces → hash ∈ m.seenAnnounces
  same : hash ∈ n.seenAnnounces ∨ hash ∉ m.seenAnnounces → m.tally hash = n.tally hash
  bound : n.interfaces.length ≤ cap → m.tally hash ≤ (1,1,cap) + n.tally hash

namespace CountsOnce
variable {hash : Bytes} {cap : Nat} {n m k : Node}

theorem of_tally (hi : n.interfaces.length ≤ cap → m.interfaces.length ≤ cap)
    (hs : hash ∈ n.seenAnnounces → hash ∈ m.seenAnnounces) (ht : m.tally hash = n.tally hash) :
    CountsOnce hash cap n m :=
  ⟨hi,hs,fun _ => ht,fun _ => by rw [ht]; exact le_add_of_nonneg_left zero_le⟩

theorem refl (n : Node) : CountsOnce hash cap n n := of_tally id id rfl

theorem trans (h : CountsOnce hash cap n m) (h' : CountsOnce hash cap m k) :
    CountsOnce hash cap n k where
  interfaces := fun hi => h'.interfaces (h.interfaces hi)
  seen := fun hs => h'.seen (h.seen hs)
  same := by
    rintro (hs | hs)
    · rw [h'.same (.inl (h.seen hs)),h.same (.inl hs)]
    · rw [h'.same (.inr hs),h.same (.inr fun hm => hs (h'.seen hm))]
  bound := fun hi => by
    by_cases hm : hash ∈ m.seenAnnounces
    · rw [h'.same (.inl hm)]; exact h.bound hi
    · rw [← h.same (.inr hm)]; exact h'.bound (h.interfaces hi)

theorem note {e : Event} (h : e.weight hash = 0) : CountsOnce hash cap n (n.note e) :=
  of_tally id id (by simp [h])

end CountsOnce
end Node

def FloodGuard (cap : Nat) (o : Op) (n : Node) : Prop :=
  o ≠ .reset ∧ ∀ i, o = .registerInterface i → n.interfaces.length < cap

section
variable {P : Platform} {hash : Bytes} {cap : Nat}

theorem Update.countsOnce {o : Op} {t n m : Node} (hg : FloodGuard cap o t)
    (h : Update P o t n m) : Node.CountsOnce hash cap n m := by
  have quietly : ∀ {n m : Node}, m.interfaces = n.interfaces →
      m.seenAnnounces = n.seenAnnounces → m.log = n.log → Node.CountsOnce hash cap n m :=
    fun hi hs hl => .of_tally (by rw [hi]; exact id) (by rw [hs]; exact id) (Node.tally_eq hl)
  cases h with
  | tables h => exact quietly h.interfaces h.seenAnnounces h.log
  | unlinked _ =>
    unfold Node.deregisterLink
    split <;> exact quietly rfl rfl rfl
  | @joined i ho =>
    refine .of_tally (fun _ => ?_) id rfl
    have := hg.2 i ho
    simp only [List.length_append,List.length_singleton]; omega
  | left _ => exact .of_tally (fun h => (List.length_filter_le _ _).trans h) id rfl
  | cleared _ | callbacks _ => exact quietly rfl rfl rfl
  | @plain _ e he => exact .note (by cases e <;> first | rfl | exact he.elim)
  | received _ _ | sent _ | requestSent _ _ | proofSent _ _ _ _ | linkSent _ _ => exact .note rfl
  | @delivered _ _ _ _ e _ _ _ he _ => exact .note (by cases e <;> first | rfl | exact he.elim)
  | requested _ _ _ | validated _ _ _ _ =>
    exact quietly (Node.registerLink_interfaces _ _) (Node.registerLink_seenAnnounces _ _)
      (Node.registerLink_log _ _)
  | @proved _ a l id packet _ _ _ _ _ _ _ _ =>
    have hset : Node.CountsOnce hash cap n ((n.note (.onProof a packet)).setLink a
        { l.proving P packet.data with status := .active }) :=
      (Node.CountsOnce.note (e := .onProof a packet) rfl).trans (quietly rfl rfl rfl)
    unfold Node.noteEstablished
    split
    · exact hset
    · exact hset.trans (.note rfl)
  | @refused _ a _ _ packet _ _ _ _ _ =>
    exact (Node.CountsOnce.note (e := .onProof a packet) rfl).trans (quietly rfl rfl rfl)
  | @forwarded raw iface _ _ _ _ =>
    exact (Node.CountsOnce.note (e := .rx raw iface) rfl).trans (.note rfl)

/-- While an announce is known, a broadcast counts what it transmits and no more. -/
theorem broadcast_tally {env : Env} (henv : ∀ e m, Node.CountsOnce hash cap m (env e m).2)
    {raw : Bytes} {skip : Option Nat} {origin : Origin} {w : Nat × Nat × Nat}
    (hw : ∀ i, (Event.sendOutgoing i raw origin).weight hash = w) {n : Node}
    (hn : hash ∈ n.seenAnnounces) :
    (n.broadcast env raw skip origin).tally hash ≤ n.interfaces.length • w + n.tally hash ∧
      hash ∈ (n.broadcast env raw skip origin).seenAnnounces := by
  have hfold : ∀ (is : List Nat) (m : Node), hash ∈ m.seenAnnounces →
      (is.foldl (fun n i => if skip = some i then n
        else n.tell env (.sendOutgoing i raw origin)) m).tally hash ≤
          is.length • w + m.tally hash ∧
      hash ∈ (is.foldl (fun n i => if skip = some i then n
        else n.tell env (.sendOutgoing i raw origin)) m).seenAnnounces := by
    intro is
    induction is with
    | nil => intro m hm; simp [hm]
    | cons i is ih =>
      intro m hm
      rw [List.foldl_cons]
      split
      · obtain ⟨hle,hs⟩ := ih m hm
        refine ⟨hle.trans ?_,hs⟩
        rw [List.length_cons,succ_nsmul]
        gcongr
        exact le_add_of_nonneg_right zero_le
      · have hcall := henv (.sendOutgoing i raw origin) (m.note (.sendOutgoing i raw origin))
        obtain ⟨hle,hs⟩ := ih _ (hcall.seen hm)
        refine ⟨hle.trans (le_of_eq ?_),hs⟩
        rw [hcall.same (.inl hm),Node.tally_note,hw,List.length_cons,succ_nsmul,add_assoc]
  exact hfold n.interfaces n hn

theorem tellAnnounce_tally {env : Env} (henv : ∀ e m, Node.CountsOnce hash cap m (env e m).2)
    {packet : Packet} {a : Announce} {n : Node} (hp : packet.packetHash = hash)
    (hn : hash ∈ n.seenAnnounces) (hcap : n.interfaces.length ≤ cap) :
    hash ∈ (n.tellAnnounce env packet a).seenAnnounces ∧
      (n.tellAnnounce env packet a).interfaces.length ≤ cap ∧
      (n.tellAnnounce env packet a).tally hash ≤ (1,0,0) + n.tally hash := by
  unfold Node.tellAnnounce
  split
  · exact ⟨hn,hcap,le_add_of_nonneg_left zero_le⟩
  · rename_i cb _
    generalize he : Event.announce cb packet.destinationHash a.identity a.appData packet = e
    have hcall := henv e (n.note e)
    have hsame : (n.tell env e).tally hash = _ := hcall.same (.inl hn)
    refine ⟨hcall.seen hn,hcall.interfaces hcap,le_of_eq ?_⟩
    rw [hsame,Node.tally_note,← he]
    simp [Event.weight,hp]

theorem relayAnnounce_tally {env : Env} (henv : ∀ e m, Node.CountsOnce hash cap m (env e m).2)
    {packet : Packet} {a : Announce} {via : Option Nat} {n : Node}
    (hp : packet.packetHash = hash) (hn : hash ∈ n.seenAnnounces)
    (hcap : n.interfaces.length ≤ cap) :
    (n.relayAnnounce env packet a via).tally hash ≤ (1,1,cap) + n.tally hash := by
  obtain ⟨hms,hmi,hmt⟩ := tellAnnounce_tally henv (a := a) hp hn hcap
  generalize hm : n.tellAnnounce env packet a = m at hms hmi hmt
  simp only [Node.relayAnnounce,hm]
  split
  · have hsend : ∀ i, (Event.sendOutgoing i (withHops packet.raw packet.hops)
        (.announceRelay packet)).weight hash = (0,0,1) := fun i => by simp [Event.weight,hp]
    have hnote : hash ∈ (m.note (.relay packet)).seenAnnounces := hms
    refine (broadcast_tally henv hsend hnote).1.trans ?_
    have hw : (Event.relay packet).weight hash = (0,1,0) := by simp [Event.weight,hp]
    have hlen : (m.note (.relay packet)).interfaces.length • ((0,0,1) : Nat × Nat × Nat) ≤
        (0,0,cap) := by
      simp only [Prod.smul_mk,smul_eq_mul,mul_zero,mul_one,Prod.mk_le_mk,le_refl,true_and]
      exact hmi
    rw [Node.tally_note,hw]
    calc _ ≤ (0,0,cap) + ((0,1,0) + ((1,0,0) + n.tally hash)) := by gcongr
      _ = (1,1,cap) + n.tally hash := by simp [← add_assoc]
  · exact hmt.trans (add_le_add ⟨le_rfl,Nat.zero_le 1,Nat.zero_le cap⟩ le_rfl)

theorem Heard.countsOnce {packet : Packet} {via : Option Nat} {s n m : Node}
    (hp : packet.packetHash ≠ hash) (h : Heard P packet via s n m) :
    Node.CountsOnce hash cap n m := by
  cases h with
  | heard _ | believed _ _ => exact .of_tally id (Finset.mem_insert_of_mem ·) rfl
  | announced _ | relayed _ | relaySent _ => exact .note (by simp [Event.weight,hp])

theorem Heard.kept {packet : Packet} {via : Option Nat} {s n m : Node}
    (h : Heard P packet via s n m) : m.interfaces = n.interfaces ∧
      n.seenAnnounces ⊆ m.seenAnnounces := by
  cases h with
  | heard _ => exact ⟨rfl,Finset.subset_insert _ _⟩
  | believed _ _ => exact ⟨rfl,Finset.subset_insert _ _⟩
  | announced _ | relayed _ | relaySent _ => exact ⟨rfl,subset_rfl⟩

theorem processAnnounce_countsOnce {env : Env}
    (henv : ∀ e m, Node.CountsOnce hash cap m (env e m).2) {packet : Packet}
    {via : Option Nat} {n u : Node} (h : n.processAnnounce P env packet via = .ok u) :
    Node.CountsOnce hash cap n u := by
  have hdoes := processAnnounce_does h
  by_cases hp : packet.packetHash = hash
  swap
  · exact hdoes.lift _ .refl .trans (Heard.countsOnce hp) henv
  have hkept := hdoes.lift
    (fun n m => (n.interfaces.length ≤ cap → m.interfaces.length ≤ cap) ∧
      (hash ∈ n.seenAnnounces → hash ∈ m.seenAnnounces))
    (fun _ => ⟨id,id⟩) (fun h k => ⟨k.1 ∘ h.1,k.2 ∘ h.2⟩)
    (fun h => ⟨by rw [h.kept.1]; exact id,fun hs => h.kept.2 hs⟩)
    (fun e m => ⟨(henv e m).interfaces,(henv e m).seen⟩)
  rw [Node.processAnnounce_eq,Except.ok.injEq] at h
  split at h
  · exact h ▸ .refl n
  rename_i hnew
  rw [hp] at hnew
  cases hc : Announce.check P packet with
  | none =>
    rw [hc] at h
    exact h ▸ .of_tally id (Finset.mem_insert_of_mem ·) rfl
  | some a =>
    rw [hc] at h
    have hseen : hash ∈ (n.believe packet a via).seenAnnounces := hp ▸ Finset.mem_insert_self _ _
    have hu : hash ∈ u.seenAnnounces := by
      rw [← h]
      exact (relayAnnounce_does n _ (Announce.check_iff.mp hc)).lift
        (fun n m => hash ∈ n.seenAnnounces → hash ∈ m.seenAnnounces) (fun _ => id)
        (fun h k => k ∘ h) (fun h hs => h.kept.2 hs) (fun e m => (henv e m).seen) hseen
    refine ⟨hkept.1,hkept.2,?_,fun hi => ?_⟩
    · rintro (hs | hs)
      · exact absurd hs hnew
      · exact absurd hu hs
    · exact h ▸ relayAnnounce_tally (n := n.believe packet a via) henv hp hseen hi

theorem Runs.countsOnce {n m : Node} (h : Runs P (FloodGuard cap) n m) :
    Node.CountsOnce hash cap n m := by
  refine Reentrant.Run.lift (Node.CountsOnce hash cap) .refl .trans
    (fun hruns henv hg hx => ?_) h
  rcases exec_cases (fun e m => Runs.linksLater (hruns e m)) hx with
    ⟨rfl,-⟩ | ⟨raw,iface,packet,-,-,-,hu⟩ | hdoes
  · exact absurd rfl hg.1
  · exact (Node.CountsOnce.note rfl).trans (processAnnounce_countsOnce henv hu)
  · exact hdoes.lift _ .refl .trans (Update.countsOnce hg) henv

/-- The callbacks, relay broadcasts and relay transmissions of one announce at one node. -/
theorem flood_node {r : Rng} {n : Node} (h : Runs P (FloodGuard cap) (Node.boot r) n) :
    n.tally hash ≤ (1,1,cap) := by
  have hb : n.tally hash ≤ (1,1,cap) + (Node.boot r).tally hash :=
    (Runs.countsOnce h).bound (Nat.zero_le cap)
  simpa [Node.boot,Node.tally] using hb

end

/-- In a network of any topology, whatever frames arrive in whatever order and however
often: a node hears and relays each announce at most once, every relayed copy carries
between 1 and 128 hops, one announce is transmitted as a relay at most once for every
interface entry in the network, and no relay changes the hash that decides this. -/
theorem flood_bounded {P : Platform} {ι : Type} [Fintype ι] [DecidableEq ι] {cap : ι → Nat}
    {r : ι → Rng}
    {net : ι → Node} (h : Interleaving.Run (exec P) (fun i _ => FloodGuard (cap i))
      (fun i => Node.boot (r i)) net) :
    (∀ i hash, ((net i).tally hash).1 ≤ 1 ∧ ((net i).tally hash).2.1 ≤ 1 ∧
      ((net i).tally hash).2.2 ≤ cap i) ∧
    (∀ i iface raw packet, .sendOutgoing iface raw (.announceRelay packet) ∈ (net i).log →
      1 ≤ (hopByte raw).toNat ∧ (hopByte raw).toNat ≤ 128) ∧
    (∀ hash, ∑ i, ((net i).tally hash).2.2 ≤ ∑ i, cap i) ∧
    (∀ raw raw' packet packet', Packet.Rewritten raw raw' → Packet.unpack P raw = some packet →
      Packet.unpack P raw' = some packet' → packet'.packetHash = packet.packetHash) := by
  have hrun : ∀ i, Runs P (FloodGuard (cap i)) (Node.boot (r i)) (net i) :=
    fun i => h.proj (g := fun i => FloodGuard (cap i)) (fun _ _ _ _ hg => hg) i
  have hone : ∀ i hash, (net i).tally hash ≤ (1,1,cap i) := fun i hash => flood_node (hrun i)
  refine ⟨fun i hash => ⟨(hone i hash).1,(hone i hash).2.1,(hone i hash).2.2⟩,?_,?_,?_⟩
  · intro i iface raw packet hi
    obtain ⟨hlen,rfl,hlt⟩ := (hrun i).announceHops hi
    rw [hopByte_withHops hlen,(toNat_succ_of_lt hlt).1]
    have := (toNat_succ_of_lt hlt).2
    omega
  · exact fun hash => Finset.sum_le_sum fun i _ => (hone i hash).2.2
  · exact fun raw raw' packet packet' hr hp hp' => hr.packetHash hp hp'

def floodOk (cap : Nat) (o : Op) (n : Node) : Bool :=
  match o with
  | .reset => false
  | .registerInterface _ => n.interfaces.length < cap
  | _ => true

theorem floodOk_floodGuard {cap : Nat} {o : Op} {n : Node} (h : floodOk cap o n = true) :
    FloodGuard cap o n := by
  refine ⟨?_,?_⟩
  · rintro rfl; cases h
  · rintro i rfl; exact of_decide_eq_true h

theorem flood_bounded_copies : ∃ net : Fin 2 → Node,
    (net 0).tally (Sample.announceHash 4) = (1,1,1) ∧
    ∑ i, ((net i).tally (Sample.announceHash 4)).2.2 ≤ ∑ _i : Fin 2, 1 := by
  obtain ⟨n,hn,hq⟩ := runs_of_endsIn Sample.platform (floodOk 1)
    [.registerInterface 8,.onAnnounce (some 0),.inbound (Sample.announceFrame 4 []) (some 7),
      .inbound (withHops (Sample.announceFrame 4 []) 2) (some 9)]
    (Node.boot (Sample.rng 5)) (fun n => n.tally (Sample.announceHash 4) = (1,1,1))
    (by decide +kernel)
  have hrun : Runs Sample.platform (FloodGuard 1) _ n := hn.mono fun _ _ => floodOk_floodGuard
  have hnet : Interleaving.Run (exec Sample.platform) (fun _ _ => FloodGuard 1)
      (fun _ : Fin 2 => Node.boot (Sample.rng 5)) _ := .step (i := 0) (.refl _) hrun
  refine ⟨_,?_,(flood_bounded hnet).2.2.1 _⟩
  rw [Function.update_self]
  exact of_decide_eq_true hq

end RNS
