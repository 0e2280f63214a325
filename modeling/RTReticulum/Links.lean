import RTReticulum.Simulation
import RTReticulum.Updates

/-! The life of a link, over every run: what makes it ACTIVE, and what it keeps silent
about until then. -/
set_option autoImplicit false

namespace RNS

def Event.Talks (a : Nat) : Event → Prop
  | .sendOutgoing _ _ (.link b) => b = a
  | e => e.Delivers a

def Event.isEstablished (a : Nat) : Event → Bool
  | .established _ b => b == a
  | _ => false

def Event.Idle (e : Event) : Prop := ∀ a, ¬ e.Talks a ∧ e.isEstablished a = false

theorem Event.Plain.idle {e : Event} (h : e.Plain) : e.Idle := by
  intro a
  cases e <;> simp [Plain,Talks,Delivers,isEstablished] at h ⊢

namespace Node

def Active (n : Node) (a : Nat) : Prop := ∃ l, n.link? a = some l ∧ l.status = .active

/-- A link that is not ACTIVE has not spoken, and no link is established twice. -/
def Discreet (n : Node) : Prop := ∀ a, n.log.countP (Event.isEstablished a) ≤ 1 ∧
  (¬ n.Active a → ∀ e ∈ n.log, ¬ e.Talks a ∧ e.isEstablished a = false)

theorem LinksLater.active {n m : Node} (h : n.LinksLater m) {a : Nat} (ha : n.Active a) :
    m.Active a := by
  obtain ⟨l,hl,hs⟩ := ha
  obtain ⟨l',hl',hlater⟩ := h a l hl
  exact ⟨l',hl',hlater.active hs⟩

theorem boot_discreet (r : Rng) : (boot r).Discreet := fun _ =>
  ⟨Nat.zero_le 1,fun _ _ he => nomatch he⟩

theorem Discreet.of_log_eq {n m : Node} (h : n.Discreet) (hlog : m.log = n.log)
    (hl : n.LinksLater m) : m.Discreet := by
  intro a
  rw [hlog]
  exact ⟨(h a).1,fun ha => (h a).2 fun hn => ha (hl.active hn)⟩

theorem Discreet.note {n m : Node} {e : Event} (h : n.Discreet) (hlog : m.log = e :: n.log)
    (hl : n.LinksLater m) (he : e.Idle) : m.Discreet := by
  intro a
  rw [hlog]
  refine ⟨?_,fun ha e' he' => ?_⟩
  · rw [List.countP_cons_of_neg (by simp [(he a).2])]
    exact (h a).1
  · rcases List.mem_cons.mp he' with rfl | he'
    · exact he a
    · exact (h a).2 (fun hn => ha (hl.active hn)) e' he'

theorem Discreet.talk {n : Node} {e : Event} {a : Nat} (h : n.Discreet) (ha : n.Active a)
    (he : ∀ b, b ≠ a → ¬ e.Talks b) (hest : ∀ b, e.isEstablished b = false) :
    (n.note e).Discreet := by
  intro b
  refine ⟨?_,fun hb e' he' => ?_⟩
  · rw [note_log,List.countP_cons_of_neg (by simp [hest b])]
    exact (h b).1
  · have hne : b ≠ a := by rintro rfl; exact hb ha
    rcases List.mem_cons.mp he' with rfl | he'
    · exact ⟨he b hne,hest b⟩
    · exact (h b).2 hb e' he'

/-- A link that becomes ACTIVE may have its callback called. -/
theorem Discreet.establish {n m : Node} {cb a : Nat} (h : n.Discreet)
    (hlog : m.log = .established cb a :: n.log) (hl : n.LinksLater m) (hn : ¬ n.Active a)
    (hm : m.Active a) : m.Discreet := by
  intro b
  rw [hlog]
  by_cases hb : b = a
  · subst hb
    refine ⟨?_,fun h => absurd hm h⟩
    have hzero : n.log.countP (Event.isEstablished b) = 0 :=
      List.countP_eq_zero.mpr fun e he => by simp [((h b).2 hn e he).2]
    rw [List.countP_cons,hzero]
    split <;> simp
  · have hne : Event.isEstablished b (.established cb a) = false := by
      simp [Event.isEstablished,Ne.symm hb]
    refine ⟨?_,fun hba e he => ?_⟩
    · rw [List.countP_cons_of_neg (by simp [hne])]
      exact (h b).1
    · rcases List.mem_cons.mp he with rfl | he
      · exact ⟨fun ht => ht,hne⟩
      · exact (h b).2 (fun hn => hba (hl.active hn)) e he

end Node

section
variable {P : Platform} {guard : Op → Node → Prop}

theorem Update.discreet {o : Op} {t n m : Node} (h : Update P o t n m) (hn : n.Discreet) :
    m.Discreet := by
  have hl := h.linksLater
  cases h with
  | tables h => exact hn.of_log_eq h.log hl
  | unlinked _ =>
    refine hn.of_log_eq ?_ hl
    unfold Node.deregisterLink
    split <;> rfl
  | joined _ | left _ | cleared _ | callbacks _ => exact hn.of_log_eq rfl hl
  | plain he => exact hn.note rfl hl he.idle
  | received _ _ | sent _ | requestSent _ _ | proofSent _ _ _ _ =>
    exact hn.note rfl hl fun _ => ⟨not_false,rfl⟩
  | requested _ _ _ | validated _ _ _ _ =>
    exact hn.of_log_eq (Node.registerLink_log _ _) hl
  | @proved _ a l id packet _ ho hla hs hi hlen hid hp =>
    have hnot : ¬ n.Active a := by
      rintro ⟨k,hk,hks⟩
      rw [hla] at hk; cases hk
      simp [hs] at hks
    generalize hm : (n.note (.onProof a packet)).setLink a
      { l.proving P packet.data with status := .active } = m at hl ⊢
    have hmlog : m.log = .onProof a packet :: n.log := by rw [← hm]; rfl
    have hset : n.LinksLater m := by
      rw [← hm]
      exact .setLink (n := n.note _) hla ⟨rfl,rfl,rfl,rfl,rfl,rfl,.inr ⟨hs,hi,.inl rfl⟩⟩
    have hact : m.Active a := by
      refine ⟨{ l.proving P packet.data with status := .active },?_,rfl⟩
      rw [← hm,Node.link?_setLink (n := n.note _) hla,if_pos rfl]
    have hd := hn.note (e := .onProof a packet) (m := n.note (.onProof a packet)) rfl
      (.of_link? fun _ => rfl) fun _ => ⟨not_false,rfl⟩
    unfold Node.noteEstablished at hl ⊢
    split
    · exact hd.of_log_eq hmlog hset
    · exact hd.establish (by rw [Node.note_log,hmlog]; rfl) (hset.trans (.of_link? fun _ => rfl))
        hnot hact
  | refused _ _ _ _ _ => exact hn.note rfl hl fun _ => ⟨not_false,rfl⟩
  | linkSent hla hs =>
    exact hn.talk ⟨_,hla,hs⟩ (fun b hb ht => hb ht.symm) fun _ => rfl
  | @delivered _ a l _ e hla hs _ he _ =>
    cases e with
    | linkPacket _ _ c =>
      exact hn.talk ⟨_,hla,hs⟩ (fun b hb (ht : c = b) => hb (ht.symm.trans he)) fun _ => rfl
    | generate c _ _ _ _ _ _ =>
      exact hn.talk ⟨_,hla,hs⟩ (fun b hb (ht : c = b) => hb (ht.symm.trans he)) fun _ => rfl
    | _ => exact he.elim
  | @forwarded raw iface _ _ _ _ =>
    have hrx := hn.note (e := .rx raw iface) (m := t.note (.rx raw iface)) rfl
      (.of_link? fun _ => rfl) fun _ => ⟨not_false,rfl⟩
    exact hrx.note rfl (.of_link? fun _ => rfl) fun _ => ⟨not_false,rfl⟩

theorem Heard.discreet {packet : Packet} {via : Option Nat} {s n m : Node}
    (h : Heard P packet via s n m) (hn : n.Discreet) : m.Discreet := by
  have hl := h.linksLater
  cases h with
  | heard _ => exact hn.of_log_eq rfl hl
  | believed _ _ => exact hn.of_log_eq rfl hl
  | announced _ | relayed _ | relaySent _ => exact hn.note rfl hl fun _ => ⟨not_false,rfl⟩

theorem Runs.discreet {n m : Node} (h : Runs P guard n m) : n.Discreet → m.Discreet :=
  Runs.invariant Node.Discreet (fun _ _ h => h.of_log_eq rfl (.of_link? fun _ => rfl))
    (fun _ h => h.note rfl (.of_link? fun _ => rfl) fun _ => ⟨not_false,rfl⟩)
    (fun _ _ _ h => h.discreet) (fun _ _ h => h.discreet) h

end

/-- An initiator that has its session from a proof: the signature covers the id of the
link and the key and the MTU the session is made of. -/
structure Link.ProvenBy (P : Platform) (l : Link) (packet : Packet) : Prop where
  length : packet.data.length = 96 ∨ packet.data.length = 99
  signed : ∃ id, l.destination.identity = some id ∧ l.Proven P id packet.data
  peer : l.peerX25519Pub = Bytes.mid packet.data 64 32
  key : l.sharedSessionKey = l.sessionKey P (Bytes.mid packet.data 64 32)
  mtu : packet.data.length = 99 → l.mtu = decodeMtu (Bytes.midFrom packet.data 96)

theorem Link.ProvenBy.later {P : Platform} {l l' : Link} {packet : Packet}
    (h : l.ProvenBy P packet) (hl : l.Later l') (hs : l.status = .active) :
    l'.ProvenBy P packet := by
  obtain ⟨-,hmtu,hpeer,hkey,-⟩ := hl.settled (by simp [hs])
  refine ⟨h.length,?_,hpeer.trans h.peer,hkey.trans ?_,fun h3 => hmtu.trans (h.mtu h3)⟩
  · obtain ⟨id,hid,hp⟩ := h.signed
    exact ⟨id,by rw [hl.destination,hid],by rwa [Link.Proven,hl.hash]⟩
  · rw [h.key,Link.sessionKey,Link.sessionKey,hl.ephX25519Prv,hl.hash]

def Node.Activates (P : Platform) (n m : Node) : Prop :=
  n.LinksLater m ∧ ∃ new, m.log = new ++ n.log ∧
    ∀ a l, m.link? a = some l → l.initiator = true → l.status = .active →
      n.Active a ∨ ∃ packet, .onProof a packet ∈ new ∧ l.ProvenBy P packet

namespace Node.Activates
variable {P : Platform}

theorem refl (n : Node) : n.Activates P n :=
  ⟨.refl n,[],rfl,fun _ l hl _ hs => .inl ⟨l,hl,hs⟩⟩

theorem trans {n m k : Node} (h : n.Activates P m) (h' : m.Activates P k) :
    n.Activates P k := by
  obtain ⟨hl,new,hlog,hact⟩ := h
  obtain ⟨hl',new',hlog',hact'⟩ := h'
  refine ⟨hl.trans hl',new' ++ new,by rw [hlog',hlog,List.append_assoc],?_⟩
  intro a l hla hi hs
  rcases hact' a l hla hi hs with ⟨l',hla',hs'⟩ | ⟨packet,hp,hby⟩
  · -- ACTIVE in between: the proof that made it so still stands.
    obtain ⟨l'',hl'',hlater⟩ := hl' a l' hla'
    rw [hla] at hl''; cases hl''
    rcases hact a l' hla' (hlater.initiator.symm.trans hi) hs' with h | ⟨packet,hp,hby⟩
    · exact .inl h
    · exact .inr ⟨packet,List.mem_append_right _ hp,hby.later hlater hs'⟩
  · exact .inr ⟨packet,List.mem_append_left _ hp,hby⟩

theorem of_back {n m : Node} (hl : n.LinksLater m) (new : List Event)
    (hlog : m.log = new ++ n.log)
    (hback : ∀ a l, m.link? a = some l → l.initiator = true → l.status = .active → n.Active a) :
    n.Activates P m :=
  ⟨hl,new,hlog,fun a l hla hi hs => .inl (hback a l hla hi hs)⟩

theorem of_link? {n m : Node} (h : ∀ a, m.link? a = n.link? a) (new : List Event)
    (hlog : m.log = new ++ n.log) : n.Activates P m :=
  of_back (.of_link? h) new hlog fun a l hla _ hs => ⟨l,h a ▸ hla,hs⟩

theorem made {n : Node} {l : Link} {r : Rng} (hnew : l.initiator = true → l.status ≠ .active) :
    n.Activates P ((n.newLink l r).registerLink n.linkHeap.length) := by
  obtain ⟨links,hreg,-⟩ := Node.registerLink_eq n.linkHeap.length (n.newLink l r)
  refine of_back ?_ [] (by rw [hreg]; rfl) fun a k hk hi hs => ?_
  · exact (Node.LinksLater.newLink n l r).trans (.of_link? fun _ => by simp)
  · rw [link?_registerLink,link?_newLink] at hk
    split at hk
    · cases hk; exact absurd hs (hnew hi)
    · exact ⟨k,hk,hs⟩

end Node.Activates

section
variable {P : Platform} {guard : Op → Node → Prop}

theorem Update.activates {o : Op} {t n m : Node} (h : Update P o t n m) :
    n.Activates P m := by
  have hl := h.linksLater
  cases h with
  | tables h => exact .of_link? h.link? [] h.log
  | unlinked _ =>
    refine .of_link? (fun _ => ?_) [] ?_ <;> unfold Node.deregisterLink <;> split <;> rfl
  | joined _ | left _ | cleared _ => exact .of_link? (fun _ => rfl) [] rfl
  | plain _ | received _ _ | sent _ | requestSent _ _ | proofSent _ _ _ _ | linkSent _ _
  | delivered _ _ _ _ _ =>
    exact .of_link? (fun _ => rfl) [_] rfl
  | requested _ _ hr => exact .made (by simp [hr.status])
  | validated _ _ _ hv => exact .made (by simp [hv.initiator])
  | @proved _ a l id packet _ _ hla hs hi hlen hid hp =>
    generalize hm : (n.note (.onProof a packet)).setLink a
      { l.proving P packet.data with status := .active } = m at hl ⊢
    have hset : n.Activates P m := by
      subst hm
      refine ⟨.setLink (n := n.note _) hla ⟨rfl,rfl,rfl,rfl,rfl,rfl,.inr ⟨hs,hi,.inl rfl⟩⟩,
        [.onProof a packet],rfl,fun b k hk hki hks => ?_⟩
      rw [Node.link?_setLink (n := n.note _) hla] at hk
      split at hk
      · subst b; cases hk
        exact .inr ⟨packet,List.mem_cons_self,hlen,⟨id,hid,hp⟩,rfl,rfl,
          fun h99 => by simp [Link.proving,Link.opened,h99]⟩
      · exact .inl ⟨k,hk,hks⟩
    refine hset.trans ?_
    unfold Node.noteEstablished
    split
    · exact .refl m
    · exact .of_link? (fun _ => rfl) [_] rfl
  | @refused _ a l _ packet _ hla _ _ _ =>
    refine .of_back hl [.onProof a packet] rfl fun b k hk hki hks => ?_
    rw [Node.link?_setLink (n := n.note _) hla] at hk
    split at hk
    · cases hk; cases hks
    · exact ⟨k,hk,hks⟩
  | @callbacks _ a l oe op hla =>
    refine .of_back hl [] rfl fun b k hk hki hks => ?_
    rw [Node.link?_setLink hla] at hk
    split at hk
    · subst b; cases hk; exact ⟨l,hla,hks⟩
    · exact ⟨k,hk,hks⟩
  | forwarded _ _ => exact .of_link? (fun _ => rfl) [_,_] rfl

theorem Heard.activates {packet : Packet} {via : Option Nat} {s n m : Node}
    (h : Heard P packet via s n m) : n.Activates P m := by
  cases h with
  | heard _ => exact .of_link? (fun _ => rfl) [] rfl
  | believed _ _ => exact .of_link? (fun _ => rfl) [] rfl
  | announced _ | relayed _ | relaySent _ => exact .of_link? (fun _ => rfl) [_] rfl

theorem Runs.activates {n m : Node} (h : Runs P guard n m) : n.Activates P m :=
  Runs.lift (Node.Activates P) .refl .trans (fun _ _ => .of_link? (fun _ => rfl) [] rfl)
    (fun _ => .of_link? (fun _ => rfl) [_] rfl) (fun _ _ _ h => h.activates)
    (fun _ h => h.activates) h

theorem inactive_silent {n : Node} {a : Nat} {l : Link} (hl : n.link? a = some l)
    (hs : l.status ≠ .active) (env : Env) :
    (∀ pt, n.send P env a pt = .ok n) ∧
      (∀ pt ctx, n.sendWithContext P env a pt ctx = .ok n) ∧
      ∀ packet, n.onInbound P env a packet = .ok n := by
  have hsend : ∀ pt ctx, n.sendWithContext P env a pt ctx = .ok n := by
    intro pt ctx
    simp only [Node.sendWithContext,hl]
    split
    · exact absurd ‹_› hs
    · rfl
  refine ⟨fun pt => hsend pt _,hsend,fun packet => ?_⟩
  simp only [Node.onInbound,hl]
  split
  · exact absurd ‹_› hs
  · rfl

/-- The life of a link, from any state a node reaches to any later one. -/
theorem link_life {n m : Node} (hn : Reachable P n) (h : Runs P (fun _ _ => True) n m)
    {a : Nat} {l : Link} (hl : n.link? a = some l) :
    ∃ l', m.link? a = some l' ∧
      (l'.status = l.status ∨
        (l.status = .handshake ∧ (l'.status = .active ∨ l'.status = .closed))) ∧
      (l.initiator = true → l.status ≠ .active → l'.status = .active →
        ∃ new, m.log = new ++ n.log ∧ ∃ packet, .onProof a packet ∈ new ∧
          l'.ProvenBy P packet) ∧
      (l.status = .active →
        l'.hash = l.hash ∧ l'.sharedSessionKey = l.sharedSessionKey ∧ l'.mtu = l.mtu) ∧
      m.log.countP (Event.isEstablished a) ≤ 1 ∧
      (l'.status ≠ .active → (∀ e ∈ m.log, ¬ e.Talks a) ∧ ∀ env,
        (∀ pt, m.send P env a pt = .ok m) ∧
        (∀ pt ctx, m.sendWithContext P env a pt ctx = .ok m) ∧
        ∀ packet, m.onInbound P env a packet = .ok m) := by
  obtain ⟨hlater,new,hlog,hact⟩ := h.activates
  obtain ⟨l',hl',hll⟩ := hlater a l hl
  obtain ⟨r,hboot⟩ := hn
  have hdis := h.discreet (hboot.discreet (Node.boot_discreet r))
  refine ⟨l',hl',?_,fun hi hs hs' => ?_,fun hs => ?_,(hdis a).1,fun hs' => ⟨?_,?_⟩⟩
  · rcases hll.session with h | h
    · exact .inl h.1
    · exact .inr ⟨h.1,h.2.2⟩
  · refine ⟨new,hlog,?_⟩
    rcases hact a l' hl' (hll.initiator.trans hi) hs' with ⟨k,hk,hks⟩ | h
    · rw [hl] at hk; cases hk
      exact absurd hks hs
    · exact h
  · obtain ⟨-,hmtu,-,hkey,-⟩ := hll.settled (by simp [hs])
    exact ⟨hll.hash,hkey,hmtu⟩
  · refine fun e he => ((hdis a).2 ?_ e he).1
    rintro ⟨k,hk,hks⟩
    rw [hl'] at hk; cases hk
    exact hs' hks
  · exact inactive_silent hl' hs'

theorem link_life_established : ∃ n m l l', Reachable Sample.platform n ∧
    Runs Sample.platform (fun _ _ => True) n m ∧ n.link? 0 = some l ∧ l.status = .handshake ∧
    m.link? 0 = some l' ∧ l'.status = .active ∧
    ∃ packet, .onProof 0 packet ∈ m.log ∧ l'.ProvenBy Sample.platform packet := by
  obtain ⟨n,hn,hq⟩ := reachable_of_endsIn Sample.platform
    [.registerInterface 0,.request Sample.destination none none 600] (Sample.rng 2)
    (fun n => (n.link? 0).any (fun l => l.initiator && l.status == .handshake) &&
      endsIn Sample.platform (fun _ _ => true) [.inbound (Sample.proofFrame 600) (some 0)] n
        fun m => (m.link? 0).any (·.status == .active))
    (by decide +kernel)
  obtain ⟨hl,hm⟩ := Bool.and_eq_true_iff.mp hq
  obtain ⟨m,hm,hl'⟩ := runs_of_endsIn _ _ _ _ _ hm
  obtain ⟨l,hl,hs⟩ := (Option.any_eq_true _ _).mp hl
  obtain ⟨k,hk,hks⟩ := (Option.any_eq_true _ _).mp hl'
  obtain ⟨hi,hs⟩ := Bool.and_eq_true_iff.mp hs
  have hs := eq_of_beq hs
  have hks := eq_of_beq hks
  have hrun : Runs Sample.platform (fun _ _ => True) n m := hm.mono fun _ _ _ => trivial
  obtain ⟨l',hl',-,hact,-⟩ := link_life hn hrun hl
  rw [hk] at hl'; cases hl'
  obtain ⟨new,hlog,packet,hp,hby⟩ := hact hi (by simp [hs]) hks
  exact ⟨n,m,l,k,hn,hrun,hl,hs,hk,hks,packet,hlog ▸ List.mem_append_left _ hp,hby⟩

end

end RNS
