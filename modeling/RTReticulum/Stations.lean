import RTReticulum.Forwarding

/-! `lora_interface.cpp`: stations on one frequency. A frame goes the way of the queue, or that of
`send_raw` in bridge mode, over the air to whoever listens, and through `poll`. -/
set_option autoImplicit false

namespace HeltecV3
open RNS

namespace LoraInterface

/-- What is handed to `transmit` for `data`: a header byte of a random half, and as much as fits. -/
def frame (random : UInt8) (data : Bytes) : Bytes := (random &&& 0xF0) :: data.take (maxFrame-1)

end LoraInterface

def PollPc.taken : PollPc → List Bytes
  | .standby item | .transmit item => [item]
  | _ => []

def RxPacket.Good (p : RxPacket) : Prop :=
  p.ok = true ∧ 1 < p.data.length ∧ p.data.length ≤ maxFrame

instance (p : RxPacket) : Decidable p.Good := inferInstanceAs (Decidable (_ ∧ _))

namespace LoraInterface

def outgoing (s : LoraInterface) : List Bytes := s.transmitted ++ (s.pc.taken ++ s.txQueue)

structure Sound (s : LoraInterface) : Prop where
  kept : (s.read ++ s.radio).Subperm s.received
  delivered : s.delivered = (s.read.filter RxPacket.Good).map (·.data.tail)
  picked : ∀ p, s.pc = .readData p →
    p ∈ s.radio ∧ ¬ (p.data.length = 0 ∨ maxFrame < p.data.length)

variable {s t : LoraInterface}

theorem started_sound : started.Sound :=
  ⟨List.Subperm.refl _,rfl,fun _ h => by cases h⟩

theorem Sound.onDio1 (h : s.Sound) (p : RxPacket) : (s.onDio1 p).Sound where
  kept := by
    have hkept := h.kept
    rw [← List.subperm_append_right [p],List.append_assoc] at hkept
    exact hkept
  delivered := h.delivered
  picked q hq := ⟨List.mem_append_left _ (h.picked q hq).1,(h.picked q hq).2⟩

theorem Sound.goto (h : s.Sound) {pc : PollPc} {pending : Bool} {items sent : List Bytes}
    (hread : ∀ p, pc ≠ .readData p) :
    ({ s with pending := pending, txQueue := items, pc := pc, transmitted := sent } :
      LoraInterface).Sound :=
  ⟨h.kept,h.delivered,fun p hp => absurd hp (hread p)⟩

theorem Sound.silence (h : s.Sound) {pc : PollPc} {pending : Bool} {sent : List Bytes}
    (hread : ∀ p, pc ≠ .readData p) :
    ({ s with pending := pending, radio := [], pc := pc, transmitted := sent } :
      LoraInterface).Sound where
  kept := (List.Sublist.append (List.Sublist.refl _) (List.nil_sublist _)).subperm.trans h.kept
  delivered := h.delivered
  picked p hp := absurd hp (hread p)

theorem Sound.lastRead (h : s.Sound) {p : RxPacket} (hp : p ∈ s.radio) {delivered : List Bytes}
    (hdelivered : delivered = ((s.read ++ [p]).filter RxPacket.Good).map (·.data.tail)) :
    ({ s with radio := s.radio.erase p, read := s.read ++ [p], delivered := delivered,
              pc := .restart } : LoraInterface).Sound where
  kept := by
    have hsplit : (s.read ++ s.radio).Perm (s.read ++ [p] ++ s.radio.erase p) := by
      rw [List.append_assoc]
      exact (List.perm_cons_erase hp).append_left s.read
    exact hsplit.symm.subperm.trans h.kept
  delivered := hdelivered
  picked q hq := by cases hq

theorem stmt_sound (h : s.Sound) (hst : Stmt s t) : t.Sound := by
  cases hst with
  | call hpc => exact h.goto fun p hp => by cases hp
  | queueReceive hpc hq => exact h.goto fun p hp => by cases hp
  | drained hpc hq => exact h.goto fun p hp => by cases hp
  | standby hpc => exact h.silence fun p hp => by cases hp
  | transmit done hpc => exact h.silence fun p hp => by cases hp
  | clearSent hpc => exact h.goto fun p hp => by cases hp
  | restartSent hpc => exact h.goto fun p hp => by cases hp
  | checkUnset hpc hp => exact h.goto fun p hp => by cases hp
  | check hpc hp => exact h.goto fun p hp => by cases hp
  | clear hpc => exact h.goto fun p hp => by cases hp
  | noPacket hpc hr => exact h.goto fun p hp => by cases hp
  | @badLength p hpc hp hlen =>
    refine h.lastRead hp ?_
    have hbad : ¬ p.Good := fun hgood => by
      obtain ⟨-,htwo,hmax⟩ := hgood
      omega
    simp [h.delivered,hbad]
  | @getPacketLength p hpc hp hlen =>
    refine ⟨h.kept,h.delivered,fun q hq => ?_⟩
    cases hq
    exact ⟨hp,hlen⟩
  | @readData p hpc =>
    obtain ⟨hp,hlen⟩ := h.picked p hpc
    refine h.lastRead hp ?_
    have hmax : p.data.length ≤ maxFrame := by omega
    by_cases hok : p.ok = true ∧ 1 < p.data.length
    · have hgood : p.Good := ⟨hok.1,hok.2,hmax⟩
      simp [h.delivered,hok,hgood]
    · have hbad : ¬ p.Good := fun hgood => hok ⟨hgood.1,hgood.2.1⟩
      rw [if_neg hok]
      simp [h.delivered,hbad]
  | restart hpc => exact h.goto fun p hp => by cases hp

theorem stmt_outgoing (hst : Stmt s t) : t.outgoing = s.outgoing := by
  cases hst <;> simp_all [outgoing,PollPc.taken,finishRead]

theorem stmt_received (hst : Stmt s t) : t.received = s.received := by
  cases hst <;> rfl

theorem stmt_txQueue (hst : Stmt s t) : t.txQueue.length ≤ s.txQueue.length := by
  cases hst with
  | queueReceive hpc hq =>
    rw [hq]
    exact Nat.le_succ _
  | _ => exact Nat.le_refl _

theorem stmt_transmitted (hst : Stmt s t) (hpc : ∀ item, s.pc ≠ .transmit item) :
    t.transmitted = s.transmitted := by
  cases hst with
  | transmit done hpc' => exact absurd hpc' (hpc _)
  | _ => rfl

theorem transmit_transmitted (hst : Stmt s t) {item : Bytes} (hpc : s.pc = .transmit item) :
    t.transmitted = s.transmitted ++ [item] := by
  cases hst <;> simp_all

@[simp] theorem outgoing_onDio1 (s : LoraInterface) (p : RxPacket) :
    (s.onDio1 p).outgoing = s.outgoing := rfl

theorem sendOutgoing_room (random : UInt8) (data : Bytes) (h : s.txQueue.length < 8) :
    s.sendOutgoing random data = { s with txQueue := s.txQueue ++ [frame random data] } := if_pos h

theorem sendOutgoing_full (random : UInt8) (data : Bytes) (h : ¬ s.txQueue.length < 8) :
    s.sendOutgoing random data = s := if_neg h

end LoraInterface

/-- The stations, what each was given to send and took (with the random byte drawn for it), and
what was handed to RadioLib's `transmit`, by station: when that fails, nobody hears it. -/
structure Band (ι : Type) where
  station : ι → LoraInterface
  accepted : ι → List (UInt8 × Bytes)
  air : List (ι × Bytes)

namespace Band
open LoraInterface
variable {ι : Type} [DecidableEq ι]

def started : Band ι := ⟨fun _ => .started,fun _ => [],[]⟩

def put (b : Band ι) (i : ι) (s : LoraInterface) : Band ι :=
  { b with station := Function.update b.station i s }

def accept (b : Band ι) (i : ι) (random : UInt8) (data : Bytes) : Band ι :=
  { b with accepted := Function.update b.accepted i (b.accepted i ++ [(random,data)]) }

def sendOutgoing (b : Band ι) (i : ι) (random : UInt8) (data : Bytes) : Band ι :=
  let b' := b.put i ((b.station i).sendOutgoing random data)
  if (b.station i).txQueue.length < 8 then b'.accept i random data else b'

def broadcast (b : Band ι) (i : ι) (s : LoraInterface) (item : Bytes) (heard : ι → Bool) :
    Band ι where
  station j := if j = i then s else
    if heard j then (b.station j).onDio1 ⟨item,true⟩ else b.station j
  accepted := b.accepted
  air := b.air ++ [(i,item)]

/-- Some stations are bridges of a host, which send at once; the others are polled. A packet
without a CRC error is one that was transmitted; what collides or is cut comes in as noise. -/
inductive Step (guard : LoraInterface → Prop) (bridge : ι → Prop) : Band ι → Band ι → Prop where
  | sendOutgoing {b : Band ι} (i : ι) (random : UInt8) (data : Bytes) : ¬ bridge i →
      Step guard bridge b (b.sendOutgoing i random data)
  | poll {b : Band ι} (i : ι) {t : LoraInterface} : ¬ bridge i → guard (b.station i) →
      (∀ item, (b.station i).pc ≠ .transmit item) → Stmt (b.station i) t →
      Step guard bridge b (b.put i t)
  | transmit {b : Band ι} (i : ι) {item : Bytes} {t : LoraInterface} (heard : ι → Bool) :
      ¬ bridge i → guard (b.station i) → (b.station i).pc = .transmit item →
      Stmt (b.station i) t → (∀ j, heard j = true → ¬ (b.station j).pc.Sending) →
      Step guard bridge b (b.broadcast i t item heard)
  | sendRaw {b : Band ι} (i : ι) (random : UInt8) (data : Bytes) (heard : ι → Bool) :
      bridge i → (∀ j, heard j = true → ¬ (b.station j).pc.Sending) →
      Step guard bridge b ((b.accept i random data).broadcast i
        ((b.station i).sendRaw true random data) (frame random data) heard)
  | noise {b : Band ι} (i : ι) (p : RxPacket) : p.ok = false → ¬ (b.station i).pc.Sending →
      Step guard bridge b (b.put i ((b.station i).onDio1 p))

abbrev Run (guard : LoraInterface → Prop) (bridge : ι → Prop) (b : Band ι) : Prop :=
  Relation.ReflTransGen (Step guard bridge) started b

def others (air : List (ι × Bytes)) (i : ι) : List Bytes := (air.filter (·.1 ≠ i)).map (·.2)

structure Tallies (bridge : Prop) (i : ι) (accepted : List (UInt8 × Bytes))
    (air : List (ι × Bytes)) (s : LoraInterface) : Prop where
  sound : s.Sound
  outgoing : s.outgoing = accepted.map fun x => frame x.1 x.2
  room : s.txQueue.length ≤ 8
  sent : (air.filter (·.1 = i)).map (·.2) = s.transmitted
  heard : ((s.received.filter (·.ok)).map (·.data)).Sublist (others air i)
  still : bridge → s.pc = .idle ∧ s.txQueue = []

namespace Tallies
variable {bridge : Prop} {i j : ι} {accepted : List (UInt8 × Bytes)} {air : List (ι × Bytes)}
  {s t : LoraInterface}

theorem started : Tallies bridge i [] [] LoraInterface.started :=
  ⟨started_sound,rfl,Nat.zero_le _,rfl,List.Sublist.refl _,fun _ => ⟨rfl,rfl⟩⟩

theorem sendOutgoing (h : Tallies bridge i accepted air s) (hb : ¬ bridge) (random : UInt8)
    (data : Bytes) (hroom : s.txQueue.length < 8) :
    Tallies bridge i (accepted ++ [(random,data)]) air (s.sendOutgoing random data) := by
  rw [sendOutgoing_room random data hroom]
  refine ⟨⟨h.sound.kept,h.sound.delivered,h.sound.picked⟩,?_,?_,h.sent,h.heard,
    fun hbridge => absurd hbridge hb⟩
  · have hout := congrArg (· ++ [frame random data]) h.outgoing
    simpa [LoraInterface.outgoing] using hout
  · simp only [List.length_append,List.length_singleton]
    omega

theorem poll (h : Tallies bridge i accepted air s) (hb : ¬ bridge)
    (hpc : ∀ item, s.pc ≠ .transmit item) (hst : Stmt s t) : Tallies bridge i accepted air t where
  sound := stmt_sound h.sound hst
  outgoing := (stmt_outgoing hst).trans h.outgoing
  room := (stmt_txQueue hst).trans h.room
  sent := h.sent.trans (stmt_transmitted hst hpc).symm
  heard := by
    rw [stmt_received hst]
    exact h.heard
  still hbridge := absurd hbridge hb

theorem transmit (h : Tallies bridge i accepted air s) (hb : ¬ bridge) {item : Bytes}
    (hpc : s.pc = .transmit item) (hst : Stmt s t) :
    Tallies bridge i accepted (air ++ [(i,item)]) t where
  sound := stmt_sound h.sound hst
  outgoing := (stmt_outgoing hst).trans h.outgoing
  room := (stmt_txQueue hst).trans h.room
  sent := by
    rw [transmit_transmitted hst hpc,← h.sent]
    simp
  heard := by
    rw [stmt_received hst]
    simpa [others] using h.heard
  still hbridge := absurd hbridge hb

theorem sendRaw (h : Tallies bridge i accepted air s) (hb : bridge) (random : UInt8)
    (data : Bytes) : Tallies bridge i (accepted ++ [(random,data)])
      (air ++ [(i,frame random data)]) (s.sendRaw true random data) := by
  obtain ⟨hpc,hqueue⟩ := h.still hb
  have hread : ∀ p, s.pc ≠ .readData p := fun p hp => by
    rw [hpc] at hp
    cases hp
  refine ⟨h.sound.silence hread,?_,h.room,?_,?_,fun _ => ⟨hpc,hqueue⟩⟩
  · have hout := congrArg (· ++ [frame random data]) h.outgoing
    simp only [LoraInterface.outgoing,hpc,hqueue,PollPc.taken,List.append_nil] at hout
    simp only [LoraInterface.outgoing,LoraInterface.sendRaw,if_pos,hpc,hqueue,PollPc.taken,
      List.append_nil,List.map_append]
    exact hout
  · have hsent := congrArg (· ++ [frame random data]) h.sent
    simpa [LoraInterface.sendRaw,frame] using hsent
  · simpa [others,LoraInterface.sendRaw] using h.heard

theorem hears (h : Tallies bridge i accepted air s) (hij : j ≠ i) (item : Bytes) :
    Tallies bridge i accepted (air ++ [(j,item)]) (s.onDio1 ⟨item,true⟩) where
  sound := h.sound.onDio1 _
  outgoing := h.outgoing
  room := h.room
  sent := by simpa [hij,LoraInterface.onDio1] using h.sent
  heard := by
    have hheard := h.heard.append_right [item]
    simpa [others,hij,LoraInterface.onDio1] using hheard
  still := h.still

theorem overhears (h : Tallies bridge i accepted air s) (hij : j ≠ i) (item : Bytes) :
    Tallies bridge i accepted (air ++ [(j,item)]) s where
  sound := h.sound
  outgoing := h.outgoing
  room := h.room
  sent := by simpa [hij] using h.sent
  heard := by
    have hheard := h.heard.trans (List.sublist_append_left _ [item])
    simpa [others,hij] using hheard
  still := h.still

theorem noise (h : Tallies bridge i accepted air s) {p : RxPacket} (hp : p.ok = false) :
    Tallies bridge i accepted air (s.onDio1 p) where
  sound := h.sound.onDio1 p
  outgoing := h.outgoing
  room := h.room
  sent := h.sent
  heard := by simpa [LoraInterface.onDio1,hp] using h.heard
  still := h.still

theorem subperm_map {α β : Type} (f : α → β) {xs ys : List α} (h : xs.Subperm ys) :
    (xs.map f).Subperm (ys.map f) := by
  obtain ⟨zs,hperm,hsub⟩ := h
  exact ⟨zs.map f,hperm.map f,hsub.map f⟩

theorem delivered (h : Tallies bridge i accepted air s) :
    s.delivered.Subperm ((others air i).map List.tail) := by
  have hsub : ((s.read.filter RxPacket.Good).map (·.data)).Subperm
      ((s.received.filter (·.ok)).map (·.data)) := by
    have hread : s.read.Subperm s.received :=
      (List.sublist_append_left _ _).subperm.trans h.sound.kept
    have hfilter : s.read.filter RxPacket.Good = (s.read.filter (·.ok)).filter RxPacket.Good := by
      rw [List.filter_filter]
      refine List.filter_congr fun p _ => ?_
      by_cases hok : p.ok <;> simp [RxPacket.Good,hok]
    rw [hfilter]
    exact subperm_map _ (List.filter_sublist.subperm.trans (hread.filter _))
  rw [h.sound.delivered]
  have hmap := subperm_map List.tail (hsub.trans h.heard.subperm)
  rwa [List.map_map] at hmap

end Tallies

variable {guard : LoraInterface → Prop} {bridge : ι → Prop} {b c : Band ι}

def Inv (bridge : ι → Prop) (b : Band ι) : Prop :=
  ∀ i, Tallies (bridge i) i (b.accepted i) b.air (b.station i)

theorem Inv.put (h : b.Inv bridge) {i : ι} {s : LoraInterface}
    (hs : Tallies (bridge i) i (b.accepted i) b.air s) : (b.put i s).Inv bridge := by
  intro j
  by_cases hij : j = i
  · subst hij
    simpa [Band.put] using hs
  · simpa [Band.put,Function.update_of_ne hij] using h j

theorem Inv.broadcast (h : b.Inv bridge) {i : ι} {s : LoraInterface} {item : Bytes}
    {xs : List (UInt8 × Bytes)} (heard : ι → Bool)
    (hs : Tallies (bridge i) i xs (b.air ++ [(i,item)]) s) :
    ({ b with accepted := Function.update b.accepted i xs }.broadcast i s item heard).Inv
      bridge := by
  intro j
  by_cases hij : j = i
  · subst hij
    simpa [Band.broadcast] using hs
  · by_cases hheard : heard j = true
    · simpa [Band.broadcast,hij,hheard] using (h j).hears (Ne.symm hij) item
    · simpa [Band.broadcast,hij,hheard] using (h j).overhears (Ne.symm hij) item

theorem step_inv (h : b.Inv bridge) (hst : Step guard bridge b c) : c.Inv bridge := by
  cases hst with
  | sendOutgoing i random data hb =>
    unfold Band.sendOutgoing
    dsimp only
    split
    · rename_i hroom
      intro j
      by_cases hij : j = i
      · subst hij
        simpa [accept,Band.put] using (h j).sendOutgoing hb random data hroom
      · simpa [accept,Band.put,Function.update_of_ne hij] using h j
    · rename_i hfull
      rw [sendOutgoing_full random data hfull]
      exact h.put (h i)
  | poll i hb hg hpc hst => exact h.put ((h i).poll hb hpc hst)
  | transmit i heard hb hg hpc hst hlisten =>
    have hb := h.broadcast heard ((h i).transmit hb hpc hst)
    rwa [Function.update_eq_self] at hb
  | sendRaw i random data heard hb hlisten =>
    exact h.broadcast heard ((h i).sendRaw hb random data)
  | noise i p hp hlisten => exact h.put ((h i).noise hp)

theorem run_inv (h : Run guard bridge b) : b.Inv bridge := by
  induction h with
  | refl => exact fun i => .started
  | tail _ hst ih => exact step_inv ih hst

theorem mem_outgoing (h : b.Inv bridge) {j : ι} {item : Bytes} (hair : (j,item) ∈ b.air) :
    ∃ x ∈ b.accepted j, item = frame x.1 x.2 := by
  have hsent : item ∈ (b.station j).transmitted := by
    rw [← (h j).sent]
    exact List.mem_map.mpr ⟨(j,item),List.mem_filter.mpr ⟨hair,by simp⟩,rfl⟩
  have hout : item ∈ (b.station j).outgoing := List.mem_append_left _ hsent
  rw [(h j).outgoing] at hout
  obtain ⟨x,hx,rfl⟩ := List.mem_map.mp hout
  exact ⟨x,hx,rfl⟩

theorem mem_others (h : b.Inv bridge) {i : ι} {item : Bytes} (hitem : item ∈ others b.air i) :
    ∃ j, j ≠ i ∧ ∃ x ∈ b.accepted j, item = frame x.1 x.2 := by
  obtain ⟨⟨j,item'⟩,hmem,rfl⟩ := List.mem_map.mp hitem
  obtain ⟨hair,hne⟩ := List.mem_filter.mp hmem
  exact ⟨j,of_decide_eq_true hne,mem_outgoing h hair⟩

/-- Whatever the order of what the stations do, and whatever is lost, cut or made up on the way:
each station hands what it took to `transmit`, in order, and what it hands up comes from another,
whole but for what is past 531 bytes, and no more often. -/
theorem stations_exchange (h : Run guard bridge b) (i : ι) :
    (b.station i).transmitted ++ ((b.station i).pc.taken ++ (b.station i).txQueue) =
        (b.accepted i).map (fun x => frame x.1 x.2) ∧
      (b.air.filter (·.1 = i)).map (·.2) = (b.station i).transmitted ∧
      (b.station i).txQueue.length ≤ 8 ∧
      (b.station i).delivered.Subperm ((others b.air i).map List.tail) ∧
      ∀ data ∈ (b.station i).delivered, data ≠ [] ∧
        ∃ j, j ≠ i ∧ ∃ x ∈ b.accepted j, data = x.2.take (maxFrame-1) := by
  have hinv := run_inv h
  refine ⟨(hinv i).outgoing,(hinv i).sent,(hinv i).room,(hinv i).delivered,fun data hdata => ?_⟩
  constructor
  · rw [(hinv i).sound.delivered] at hdata
    obtain ⟨p,hp,rfl⟩ := List.mem_map.mp hdata
    obtain ⟨-,htwo,-⟩ := of_decide_eq_true (List.mem_filter.mp hp).2
    rintro hnil
    have hlen := congrArg List.length hnil
    rw [List.length_tail,List.length_nil] at hlen
    omega
  · obtain ⟨item,hitem,rfl⟩ := List.mem_map.mp ((hinv i).delivered.subset hdata)
    obtain ⟨j,hj,x,hx,rfl⟩ := mem_others hinv hitem
    exact ⟨j,hj,x,hx,rfl⟩

theorem run_station (h : Run guard bridge b) {i : ι} (hi : ¬ bridge i) :
    LoraInterface.Run guard (b.station i) := by
  induction h with
  | refl => exact .refl
  | @tail b c _ hst ih =>
    have hput (j : ι) (s : LoraInterface) (hs : j = i → LoraInterface.Run guard s) :
        LoraInterface.Run guard ((b.put j s).station i) := by
      by_cases hij : i = j
      · subst hij
        simpa [Band.put] using hs rfl
      · simpa [Band.put,Function.update_of_ne hij] using ih
    have hbroadcast (j : ι) (s : LoraInterface) (item : Bytes) (heard : ι → Bool)
        (xs : ι → List (UInt8 × Bytes)) (hs : j = i → LoraInterface.Run guard s)
        (hlisten : heard i = true → ¬ (b.station i).pc.Sending) : LoraInterface.Run guard
          (({ b with accepted := xs }.broadcast j s item heard).station i) := by
      by_cases hij : i = j
      · subst hij
        simpa [Band.broadcast] using hs rfl
      · by_cases hheard : heard i = true
        · simpa [Band.broadcast,hij,hheard] using ih.tail (.onDio1 ⟨item,true⟩ (hlisten hheard))
        · simpa [Band.broadcast,hij,hheard] using ih
    cases hst with
    | sendOutgoing j random data hb =>
      have hstation := hput j _ fun hij => hij ▸ ih.tail (.sendOutgoing random data)
      unfold Band.sendOutgoing
      dsimp only
      split
      · exact hstation
      · exact hstation
    | poll j hb hg hpc hst =>
      exact hput j _ fun hij => by
        subst hij
        exact ih.tail (.poll hg hst)
    | transmit j heard hb hg hpc hst hlisten =>
      refine hbroadcast j _ _ heard b.accepted (fun hij => ?_) (hlisten i)
      subst hij
      exact ih.tail (.poll hg hst)
    | sendRaw j random data heard hb hlisten =>
      exact hbroadcast j _ _ heard _ (fun hij => absurd (hij ▸ hb) hi) (hlisten i)
    | noise j p hp hlisten =>
      exact hput j _ fun hij => by
        subst hij
        exact ih.tail (.onDio1 p hlisten)

/-- An intact packet is cut to what fits, so that it is handed up unless it is empty. -/
theorem good_iff (h : b.Inv bridge) {i : ι} {p : RxPacket} (hp : p ∈ (b.station i).received) :
    p.Good ↔ p.ok = true ∧ p.data.tail ≠ [] := by
  constructor
  · rintro ⟨hok,htwo,-⟩
    refine ⟨hok,fun hnil => ?_⟩
    have hlen := congrArg List.length hnil
    rw [List.length_tail,List.length_nil] at hlen
    omega
  · rintro ⟨hok,hne⟩
    have hmem : p.data ∈ ((b.station i).received.filter (·.ok)).map (·.data) :=
      List.mem_map.mpr ⟨p,List.mem_filter.mpr ⟨hp,hok⟩,rfl⟩
    obtain ⟨j,-,x,-,hdata⟩ := mem_others h ((h i).heard.subset hmem)
    have hlen : p.data.length = (x.2.take (maxFrame-1)).length+1 := by
      rw [hdata,frame,List.length_cons]
    have hcut := List.length_take_le (maxFrame-1) x.2
    have hpos := List.length_pos_iff.mpr hne
    rw [List.length_tail] at hpos
    have hmax : maxFrame = 532 := rfl
    exact ⟨hok,by omega,by omega⟩

/-- As long as every statement of `poll` is done with care, a station that has nothing to do has
handed up all the intact packets it heard but the empty ones, and heard what was on the air in
order. -/
theorem stations_hear (h : Run Careful bridge b) {i : ι} (hi : ¬ bridge i)
    (hpc : (b.station i).pc = .idle) (hpending : (b.station i).pending = false) :
    ∃ heard, heard.Sublist (others b.air i) ∧
      heard = ((b.station i).received.filter (·.ok)).map (·.data) ∧
      (b.station i).delivered.Perm ((heard.map List.tail).filter (· ≠ [])) := by
  have hinv := run_inv h
  refine ⟨_,(hinv i).heard,rfl,?_⟩
  have hintact := (LoraInterface.run_inv (run_station h hi)).intact
  have hread := hintact.kept.symm
  rw [hintact.unflagged (hpc ▸ id) hpending,List.append_nil] at hread
  rw [(hinv i).sound.delivered]
  refine ((hread.filter _).map _).trans (.of_eq ?_)
  rw [List.map_map,List.filter_map,List.filter_filter]
  refine congrArg (List.map _) (List.filter_congr fun p hp => ?_)
  rw [Bool.eq_iff_iff]
  simpa [and_comm] using good_iff hinv hp

theorem exists_heard : ∃ b : Band Bool, Run Careful (· = false) b ∧
    (b.station true).delivered = [[0x41]] ∧ (b.station true).pc = .idle ∧
    (b.station true).pending = false := by
  have hpoll (pc : PollPc) {b : Band Bool} {t : LoraInterface} (h : Run Careful (· = false) b)
      (hst : Stmt (b.station true) t) (hpc : (b.station true).pc = pc)
      (hradio : (b.station true).radio.length ≤ 1)
      (hne : ∀ item, pc ≠ .standby item ∧ pc ≠ .transmit item) :
      Run Careful (· = false) (b.put true t) := by
    subst hpc
    exact h.tail (.poll true Bool.noConfusion
      ⟨fun item hpc => absurd hpc (hne item).1,fun _ => hradio⟩ (fun item => (hne item).2) hst)
  have h : Run Careful (· = false) _ := .single (.sendRaw (b := started) false 0x25 [0x41]
    (fun j => j) rfl fun j _ hsending => hsending)
  have h := hpoll .idle h (.call rfl) rfl (by decide) (by simp)
  have h := hpoll .queueReceive h (.drained rfl rfl) rfl (by decide) (by simp)
  have h := hpoll .check h (.check rfl rfl) rfl (by decide) (by simp)
  have h := hpoll .clear h (.clear rfl) rfl (by decide) (by simp)
  have h := hpoll .getPacketLength h (.getPacketLength rfl (.head _) (by decide)) rfl (by decide)
    (by simp)
  have h := hpoll (.readData ⟨[0x20,0x41],true⟩) h (.readData rfl) rfl (by decide) (by simp)
  have h := hpoll .restart h (.restart rfl) rfl (by decide) (by simp)
  exact ⟨_,h,rfl,rfl,rfl⟩

theorem stations_exchange_raw : ∃ b : Band Bool, Run Careful (· = false) b ∧
    (b.station true).delivered = [[0x41]] ∧
    (b.station true).delivered.Subperm ((others b.air true).map List.tail) := by
  obtain ⟨b,h,hdelivered,-⟩ := exists_heard
  exact ⟨b,h,hdelivered,(stations_exchange h true).2.2.2.1⟩

theorem stations_hear_raw : ∃ (b : Band Bool) (heard : List Bytes),
    Run Careful (· = false) b ∧ (b.station true).delivered = [[0x41]] ∧
    heard.Sublist (others b.air true) ∧
    (b.station true).delivered.Perm ((heard.map List.tail).filter (· ≠ [])) := by
  obtain ⟨b,h,hdelivered,hpc,hpending⟩ := exists_heard
  obtain ⟨heard,hsub,-,hperm⟩ := stations_hear h (i := true) Bool.noConfusion hpc hpending
  exact ⟨b,heard,h,hdelivered,hsub,hperm⟩

end Band

end HeltecV3
