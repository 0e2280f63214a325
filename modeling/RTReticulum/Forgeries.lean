import RTReticulum.Handshake

/-! Proofs that do not validate, and what they do to the link that waits for a genuine one. -/
set_option autoImplicit false

namespace RNS

section
variable {P : Platform}

variable (P) in
def Link.Validates (l : Link) (d : Bytes) : Prop :=
  (d.length = 96 ∨ d.length = 99) ∧ ∃ id ∈ l.destination.identity, l.Proven P id d

instance (l : Link) (d : Bytes) : Decidable (l.Validates P d) :=
  inferInstanceAs (Decidable (_ ∧ _))

theorem Link.validates_iff {l : Link} {id : Identity} (hid : l.destination.identity = some id)
    {d : Bytes} : l.Validates P d ↔ (d.length = 96 ∨ d.length = 99) ∧ l.Proven P id d := by
  simp [Validates,hid]

variable (P) in
/-- Calls of `on_proof` on the link at `a`, one after the other, each with what its callback
does. -/
def Node.onProofs (a : Nat) : List (Env × Packet) → Node → Except Fault Node
  | [], n => .ok n
  | (env,packet) :: ps, n => do
    let n ← n.onProof P env a packet
    n.onProofs a ps

variable {n : Node} {a : Nat} {l : Link} {id : Identity}

theorem onProof_keeps (hl : n.link? a = some l) {packet : Packet}
    (h : l.status ≠ .handshake ∨ packet.data.length ≠ 96 ∧ packet.data.length ≠ 99) (env : Env) :
    ∃ m, n.onProof P env a packet = .ok m ∧ m.link? a = some l := by
  have hl' : (n.note (.onProof a packet)).link? a = some l := hl
  by_cases hgo : l.status ≠ .handshake ∨ l.initiator = false
  · exact ⟨_,by simp only [Node.onProof,hl,if_pos hgo],hl'⟩
  · have hs : l.status = .handshake := by
      by_contra hs
      exact hgo (.inl hs)
    have hbad := Link.onProof_bad (P := P) (l := l) (h.resolve_left fun hne => hne hs)
    refine ⟨(n.note (.onProof a packet)).setLink a l,?_,?_⟩
    · simp only [Node.onProof,hl,if_neg hgo,hbad,ok_bind]
      rw [hs]
      rfl
    · rw [Node.link?_setLink hl',if_pos rfl]

theorem onProof_decides (hl : n.link? a = some l) (hs : l.status = .handshake)
    (hi : l.initiator = true) (hid : l.destination.identity = some id) {packet : Packet}
    (hlen : packet.data.length = 96 ∨ packet.data.length = 99) {env : Env}
    (henv : ∀ e m, Node.LinksLater m (env e m).2) :
    ∃ m l', n.onProof P env a packet = .ok m ∧ m.link? a = some l' ∧
      l'.status = if l.Proven P id packet.data then .active else .closed := by
  have hgo : ¬ (l.status ≠ .handshake ∨ l.initiator = false) := by simp [hs,hi]
  have hl' : (n.note (.onProof a packet)).link? a = some l := hl
  by_cases hv : l.Proven P id packet.data
  · let k : Link := { l.proving P packet.data with status := .active }
    let u := (n.note (.onProof a packet)).setLink a k
    have hu : u.link? a = some k := by rw [Node.link?_setLink hl',if_pos rfl]
    obtain ⟨hsome,hnone⟩ := onProof_proven hl hs hi hlen hid hv env
    simp only [if_pos hv]
    cases hcb : l.onEstablished with
    | none => exact ⟨u,k,hnone hcb,hu,rfl⟩
    | some cb =>
      obtain ⟨k',hlink,hlater⟩ := tell_linksLater henv (.established cb a) u a k hu
      exact ⟨u.tell env (.established cb a),k',hsome cb hcb,hlink,hlater.active rfl⟩
  · let k : Link := { l.proving P packet.data with status := .closed }
    have hu : ((n.note (.onProof a packet)).setLink a k).link? a = some k := by
      rw [Node.link?_setLink hl',if_pos rfl]
    refine ⟨_,k,?_,hu,by rw [if_neg hv]⟩
    simp only [Node.onProof,hl,if_neg hgo,Link.onProof_eq hlen,hid,ok_bind,if_neg hv,pure_eq_ok,k]

theorem onProof_keeps_iff (hl : n.link? a = some l) (hs : l.status = .handshake)
    (hi : l.initiator = true) {packet : Packet} {env : Env}
    (henv : ∀ e m, Node.LinksLater m (env e m).2) (hforged : ¬ l.Validates P packet.data) :
    (∃ m, n.onProof P env a packet = .ok m ∧ m.link? a = some l) ↔
      packet.data.length ≠ 96 ∧ packet.data.length ≠ 99 := by
  constructor
  · rintro ⟨m,hm,hml⟩
    by_contra hsize
    have hlen : packet.data.length = 96 ∨ packet.data.length = 99 := by omega
    cases hid : l.destination.identity with
    | none =>
      have hgo : ¬ (l.status ≠ .handshake ∨ l.initiator = false) := by simp [hs,hi]
      simp only [Node.onProof,hl,if_neg hgo,Link.onProof_eq hlen,hid] at hm
      cases hm
    | some id =>
      obtain ⟨u,k,hu,hk,hks⟩ := onProof_decides (P := P) hl hs hi hid hlen henv
      rw [if_neg fun hv => hforged ((Link.validates_iff hid).mpr ⟨hlen,hv⟩)] at hks
      cases hm.symm.trans hu
      cases hml.symm.trans hk
      simp [hs] at hks
  · intro hsize
    exact onProof_keeps hl (.inr hsize) env

theorem onProofs_keeps (hl : n.link? a = some l) (ps : List (Env × Packet))
    (h : ∀ p ∈ ps, l.status ≠ .handshake ∨ p.2.data.length ≠ 96 ∧ p.2.data.length ≠ 99) :
    ∃ m, n.onProofs P a ps = .ok m ∧ m.link? a = some l := by
  induction ps generalizing n with
  | nil => exact ⟨n,rfl,hl⟩
  | cons p ps ih =>
    obtain ⟨m,hm,hml⟩ := onProof_keeps (P := P) hl (h p (.head _)) p.1
    obtain ⟨u,hu,hul⟩ := ih hml fun q hq => h q (.tail _ hq)
    refine ⟨u,?_,hul⟩
    simp only [Node.onProofs,hm,ok_bind,hu]

theorem onProofs_append (a : Nat) (ps qs : List (Env × Packet)) (n : Node) :
    n.onProofs P a (ps ++ qs) = n.onProofs P a ps >>= Node.onProofs P a qs := by
  induction ps generalizing n with
  | nil => rfl
  | cons p ps ih =>
    simp only [List.cons_append,Node.onProofs]
    cases n.onProof P p.1 a p.2 with
    | error e => rfl
    | ok m => simp only [ok_bind,ih]

/-- Once a forged proof of a right size has come, the link is closed for good. -/
theorem onProofs_closes (hl : n.link? a = some l) (hs : l.status = .handshake)
    (hi : l.initiator = true) (hid : l.destination.identity = some id)
    {ps : List (Env × Packet)} (henv : ∀ p ∈ ps, ∀ e m, Node.LinksLater m (p.1 e m).2)
    (hforged : ∀ p ∈ ps, ¬ l.Validates P p.2.data)
    (hsize : ∃ p ∈ ps, p.2.data.length = 96 ∨ p.2.data.length = 99) :
    ∃ m l', n.onProofs P a ps = .ok m ∧ m.link? a = some l' ∧ l'.status = .closed := by
  induction ps generalizing n with
  | nil => simp at hsize
  | cons p ps ih =>
    by_cases hlen : p.2.data.length = 96 ∨ p.2.data.length = 99
    · obtain ⟨m,k,hm,hk,hks⟩ := onProof_decides (P := P) hl hs hi hid hlen (henv p (.head _))
      have hnot : ¬ l.Proven P id p.2.data := fun hv =>
        hforged p (.head _) ((Link.validates_iff hid).mpr ⟨hlen,hv⟩)
      rw [if_neg hnot] at hks
      obtain ⟨u,hu,hul⟩ := onProofs_keeps (P := P) hk ps fun _ _ => .inl (by simp [hks])
      refine ⟨u,k,?_,hul,hks⟩
      simp only [Node.onProofs,hm,ok_bind,hu]
    · have hwrong : p.2.data.length ≠ 96 ∧ p.2.data.length ≠ 99 := by omega
      obtain ⟨m,hm,hml⟩ := onProof_keeps (P := P) hl (.inr hwrong) p.1
      have hrest : ∃ q ∈ ps, q.2.data.length = 96 ∨ q.2.data.length = 99 := by
        obtain ⟨q,hq,hqlen⟩ := hsize
        rcases List.mem_cons.mp hq with rfl | hq
        · exact absurd hqlen hlen
        · exact ⟨q,hq,hqlen⟩
      obtain ⟨u,k,hu,hk,hks⟩ := ih hml (fun q hq => henv q (.tail _ hq))
        (fun q hq => hforged q (.tail _ hq)) hrest
      refine ⟨u,k,?_,hk,hks⟩
      simp only [Node.onProofs,hm,ok_bind,hu]

/-- Until then the genuine proof still establishes it, and what comes after that changes nothing. -/
theorem onProofs_opens (hl : n.link? a = some l) (hs : l.status = .handshake)
    (hi : l.initiator = true) {before after : List (Env × Packet)} {genuine : Env × Packet}
    (henv : ∀ e m, Node.LinksLater m (genuine.1 e m).2)
    (hsize : ∀ p ∈ before, p.2.data.length ≠ 96 ∧ p.2.data.length ≠ 99)
    (hgen : l.Validates P genuine.2.data) :
    ∃ m l', n.onProofs P a (before ++ genuine :: after) = .ok m ∧ m.link? a = some l' ∧
      l'.status = .active := by
  obtain ⟨id,hid,-⟩ := hgen.2
  obtain ⟨hlen,hproven⟩ := (Link.validates_iff hid).mp hgen
  obtain ⟨m,hm,hml⟩ := onProofs_keeps (P := P) hl before fun p hp => .inr (hsize p hp)
  obtain ⟨u,k,hu,hk,hks⟩ := onProof_decides (P := P) hml hs hi hid hlen henv
  rw [if_pos hproven] at hks
  obtain ⟨w,hw,hwk⟩ := onProofs_keeps (P := P) hk after fun _ _ => .inl (by simp [hks])
  refine ⟨w,k,?_,hwk,hks⟩
  rw [onProofs_append,hm,ok_bind]
  simp only [Node.onProofs,hu,ok_bind,hw]

end

/-- A proof that does not validate leaves the link as it was just when its size is wrong; and
among forged proofs the genuine one establishes the link just when none of those before it has
a right size. -/
theorem forged_proofs_iff {P : Platform} {n : Node} {a : Nat} {l : Link}
    (hl : n.link? a = some l) (hs : l.status = .handshake) (hi : l.initiator = true) :
    (∀ (env : Env) (packet : Packet), (∀ e m, Node.LinksLater m (env e m).2) →
      ¬ l.Validates P packet.data →
      ((∃ m, n.onProof P env a packet = .ok m ∧ m.link? a = some l) ↔
        packet.data.length ≠ 96 ∧ packet.data.length ≠ 99)) ∧
    (∀ (env : Env) (raw : Bytes) (iface : Option Nat) (packet : Packet),
      (∀ e m, Node.LinksLater m (env e m).2) → Packet.unpack P raw = some packet →
      packet.packetType = .proof → packet.context = Context.lrproof →
      n.links.lookup packet.destinationHash = some a → ¬ l.Validates P packet.data →
      ((∃ m, n.inbound P env raw iface = .ok m ∧ m.link? a = some l) ↔
        packet.data.length ≠ 96 ∧ packet.data.length ≠ 99)) ∧
    (∀ (before after : List (Env × Packet)) (genuine : Env × Packet),
      (∀ p ∈ before ++ genuine :: after, ∀ e m, Node.LinksLater m (p.1 e m).2) →
      (∀ p ∈ before ++ after, ¬ l.Validates P p.2.data) →
      l.Validates P genuine.2.data →
      ((∃ m l', n.onProofs P a (before ++ genuine :: after) = .ok m ∧ m.link? a = some l' ∧
          l'.status = .active) ↔
        ∀ p ∈ before, p.2.data.length ≠ 96 ∧ p.2.data.length ≠ 99)) := by
  refine ⟨fun env packet henv hforged => onProof_keeps_iff hl hs hi henv hforged,?_,?_⟩
  · intro env raw iface packet henv hp ht hctx ha hforged
    have hnote : (n.note (.rx raw iface)).link? a = some l := hl
    rw [inbound_lrproof hp ht hctx ha]
    exact onProof_keeps_iff hnote hs hi henv hforged
  · intro before after genuine henv hforged hgen
    refine ⟨fun h => ?_,fun hsize => onProofs_opens hl hs hi
      (henv genuine (List.mem_append_right _ (.head _))) hsize hgen⟩
    by_contra hsize
    have hone : ∃ p ∈ before, p.2.data.length = 96 ∨ p.2.data.length = 99 := by
      by_contra hnone
      refine hsize fun p hp => ?_
      have hp' : ¬ (p.2.data.length = 96 ∨ p.2.data.length = 99) := fun hlen => hnone ⟨p,hp,hlen⟩
      omega
    obtain ⟨id,hid,-⟩ := hgen.2
    obtain ⟨m,k,hm,hk,hks⟩ := onProofs_closes (P := P) hl hs hi hid
      (fun p hp => henv p (List.mem_append_left _ hp))
      (fun p hp => hforged p (List.mem_append_left _ hp)) hone
    obtain ⟨u,hu,huk⟩ := onProofs_keeps (P := P) hk (genuine :: after)
      fun _ _ => .inl (by simp [hks])
    obtain ⟨m',l',hm',hl',hact⟩ := h
    rw [onProofs_append,hm,ok_bind,hu] at hm'
    cases hm'
    rw [huk] at hl'
    cases hl'
    rw [hks] at hact
    cases hact

theorem forged_proofs_short : ∃ (n m : Node) (l l' : Link)
    (forged genuine : Packet), Reachable Sample.platform n ∧ n.link? 0 = some l ∧
    ¬ l.Validates Sample.platform forged.data ∧
    l.Validates Sample.platform genuine.data ∧
    n.onProofs Sample.platform 0 [(quiet,forged),(quiet,genuine)] = .ok m ∧
    m.link? 0 = some l' ∧ l'.status = .active := by
  obtain ⟨n,hn,hq⟩ := reachable_of_endsIn Sample.platform
    [.registerInterface 0,.request Sample.outDestination none none 0] (Sample.rng 2)
    (fun n => (n.link? 0).any fun l =>
      (Packet.unpack Sample.platform (linkFrame .proof Sample.linkId Context.lrproof
        (List.replicate 95 0))).any fun forged =>
      (Packet.unpack Sample.platform (Sample.proofFrame 0)).any fun genuine =>
        l.status = .handshake ∧ l.initiator = true ∧ forged.data.length = 95 ∧
        l.Validates Sample.platform genuine.data)
    (by decide +kernel)
  obtain ⟨l,hl,hq⟩ := (Option.any_eq_true _ _).mp hq
  obtain ⟨forged,-,hq⟩ := (Option.any_eq_true _ _).mp hq
  obtain ⟨genuine,-,hq⟩ := (Option.any_eq_true _ _).mp hq
  obtain ⟨hs,hi,hlen,hgen⟩ := of_decide_eq_true hq
  have hforged : ¬ l.Validates Sample.platform forged.data := fun h => by
    have hsize := h.1
    omega
  obtain ⟨m,l',hm,hl',hact⟩ := ((forged_proofs_iff hl hs hi).2.2 [(quiet,forged)] []
    (quiet,genuine) (fun p hp e u => by
      have hp : p.1 = quiet := by
        simp only [List.mem_append,List.mem_cons,List.not_mem_nil,or_false] at hp
        rcases hp with rfl | rfl <;> rfl
      rw [hp]
      exact .refl u)
    (by simpa using hforged) hgen).mpr (by simp [hlen])
  exact ⟨n,m,l,l',forged,genuine,hn,hl,hforged,hgen,hm,hl',hact⟩

/-- An initiator that has asked for a link. 96 zeros for its proof close it, and the proof of
the responder, which alone makes it ACTIVE, then comes too late. -/
theorem forged_proof_closes : ∃ (n m k : Node) (l : Link)
    (forged genuine : Packet), Reachable Sample.platform n ∧ n.link? 0 = some l ∧
    l.status = .handshake ∧ l.initiator = true ∧
    n.links.lookup forged.destinationHash = some 0 ∧
    n.links.lookup genuine.destinationHash = some 0 ∧
    ¬ l.Validates Sample.platform forged.data ∧
    l.Validates Sample.platform genuine.data ∧
    n.onProofs Sample.platform 0 [(quiet,genuine),(quiet,forged)] = .ok m ∧
    (m.link? 0).any (·.status = .active) = true ∧
    n.onProofs Sample.platform 0 [(quiet,forged),(quiet,genuine)] = .ok k ∧
    (k.link? 0).any (·.status = .closed) = true := by
  obtain ⟨n,hn,hq⟩ := reachable_of_endsIn Sample.platform
    [.registerInterface 0,.request Sample.outDestination none none 0] (Sample.rng 2)
    (fun n => (n.link? 0).any fun l =>
      (Packet.unpack Sample.platform (linkFrame .proof Sample.linkId Context.lrproof
        (List.replicate 96 0))).any fun forged =>
      (Packet.unpack Sample.platform (Sample.proofFrame 0)).any fun genuine =>
      (n.onProofs Sample.platform 0 [(quiet,genuine),(quiet,forged)]).toOption.any fun m =>
      (n.onProofs Sample.platform 0 [(quiet,forged),(quiet,genuine)]).toOption.any fun k =>
        l.status = .handshake ∧ l.initiator = true ∧
        n.links.lookup forged.destinationHash = some 0 ∧
        n.links.lookup genuine.destinationHash = some 0 ∧
        ¬ l.Validates Sample.platform forged.data ∧
        l.Validates Sample.platform genuine.data ∧
        (m.link? 0).any (·.status = .active) = true ∧
        (k.link? 0).any (·.status = .closed) = true)
    (by decide +kernel)
  obtain ⟨l,hl,hq⟩ := (Option.any_eq_true _ _).mp hq
  obtain ⟨forged,-,hq⟩ := (Option.any_eq_true _ _).mp hq
  obtain ⟨genuine,-,hq⟩ := (Option.any_eq_true _ _).mp hq
  obtain ⟨m,hm,hq⟩ := ok_of_any hq
  obtain ⟨k,hk,hq⟩ := ok_of_any hq
  obtain ⟨hs,hi,hreg,hreg',hforged,hgen,hact,hclosed⟩ := of_decide_eq_true hq
  exact ⟨n,m,k,l,forged,genuine,hn,hl,hs,hi,hreg,hreg',hforged,hgen,hm,hact,hk,hclosed⟩

end RNS
