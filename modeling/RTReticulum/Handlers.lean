import RTReticulum.Board

/-! What the firmware has registered by when, and which of its links have a packet callback. -/
set_option autoImplicit false

namespace HeltecV3.Main
open RNS NomadnetNode

def Steady (o : Op) (_ : Node) : Prop :=
  match o with
  | .reset | .registerDestination _ | .deregisterDestination _ | .onAnnounce _
  | .setLinkRequestHandler _ | .registerRequestHandler .. => False
  | _ => True

structure Registered (n u : Node) : Prop where
  destinations : u.destinations = n.destinations
  onAnnounce : u.onAnnounce = n.onAnnounce
  onLinkRequest : u.onLinkRequest = n.onLinkRequest
  requestHandlers : u.requestHandlers = n.requestHandlers

section
variable {P : Platform} {a : App} {guard : Op → Node → Prop}

theorem steady_registered {n u : Node} (h : Runs P Steady n u) : Registered n u := by
  have trans {n m k : Node} (h : Registered n m) (h' : Registered m k) : Registered n k :=
    ⟨h'.destinations.trans h.destinations,h'.onAnnounce.trans h.onAnnounce,
      h'.onLinkRequest.trans h.onLinkRequest,h'.requestHandlers.trans h.requestHandlers⟩
  refine Reentrant.Run.lift Registered (fun _ => ⟨rfl,rfl,rfl,rfl⟩) trans
    (fun {env o t u} _ henv ho hu => ?_) h
  have hregister (i : Nat) (m : Node) : Registered m (m.registerLink i) := by
    obtain ⟨links,heq,-,-⟩ := Node.registerLink_eq i m
    rw [heq]
    exact ⟨rfl,rfl,rfl,rfl⟩
  have hcall (e : Event) (m : Node) (hm : Registered t m) : Registered t (m.tell env e) :=
    trans hm (trans (m := m.note e) ⟨rfl,rfl,rfl,rfl⟩ (henv _ _))
  have hup : Upkeep env (Registered t) := {
    tables := fun _ _ _ _ _ h => trans h ⟨rfl,rfl,rfl,rfl⟩
    relay := fun _ h => trans h ⟨rfl,rfl,rfl,rfl⟩
    onProof := fun _ _ h => trans h ⟨rfl,rfl,rfl,rfl⟩
    call := fun h _ => hcall _ _ h
    registerLink := fun i h => trans h (hregister i _)
    proof := fun h _ _ => trans h ⟨rfl,rfl,rfl,rfl⟩ }
  refine hup.exec (n := t) ⟨rfl,rfl,rfl,rfl⟩ (fun _ _ => ⟨rfl,rfl,rfl,rfl⟩)
    (fun cb pt i => hcall _ t ⟨rfl,rfl,rfl,rfl⟩)
    (fun raw iface hu => hup.inbound ⟨rfl,rfl,rfl,rfl⟩
      (fun _ _ _ _ _ _ _ => ⟨rfl,rfl,rfl,rfl⟩)
      (fun _ i _ _ _ l cb pt _ _ _ _ _ _ _ => hcall _ _ ⟨rfl,rfl,rfl,rfl⟩) hu)
    (fun hdirect => ?_) hu
  cases o with
  | reset | registerDestination _ | deregisterDestination _ | onAnnounce _
  | setLinkRequestHandler _ | registerRequestHandler _ _ _ => exact ho.elim
  | deregisterLink i =>
    cases hu
    unfold Node.deregisterLink
    split <;> exact ⟨rfl,rfl,rfl,rfl⟩
  | setLinkPacketCallback i c =>
    cases hu
    unfold Node.setPacketCallback
    split <;> exact ⟨rfl,rfl,rfl,rfl⟩
  | setEstablishedCallback i c =>
    cases hu
    unfold Node.setEstablishedCallback
    split <;> exact ⟨rfl,rfl,rfl,rfl⟩
  | broadcast _ _ | inbound _ _ | announce _ _ _ | request _ _ _ _ | validateRequest _ _ _
  | onProof _ _ | onInbound _ _ | send _ _ | sendWithContext _ _ _ | registerLink _
  | random _ => exact hdirect.elim
  | _ => cases hu; exact ⟨rfl,rfl,rfl,rfl⟩

/-- The callbacks only use operations of the stack. -/
theorem env_wellbehaved (a : App) : (a.env P).Wellbehaved P Steady := by
  have hquiet := quiet_wellbehaved P Steady
  intro e n
  cases e with
  | announce cb dh peer appData packet =>
    show Runs P _ n (a.onAnnounce P dh peer n)
    unfold App.onAnnounce
    split
    · exact .refl n
    split
    · exact .refl n
    split
    · exact .refl n
    split
    · exact .refl n
    rename_i d r hd
    cases (ofName_rng hd).2
    split
    · exact .refl n
    · rename_i x u hu
      refine runs_single (o := .request d none none 0) hquiet
        trivial ?_
      simp only [exec,hu,ok_bind,pure_eq_ok]
  | linkRequest handler owner data packet =>
    show Runs P _ n (App.onLinkRequest P handler owner data packet n).2
    have hexec {link : Option Nat} {u : Node}
        (hu : n.validateRequest P quiet owner data packet = .ok (link,u)) : Runs P Steady n u := by
      refine runs_single (o := .validateRequest owner data packet) hquiet
        trivial ?_
      simp only [exec,hu,ok_bind,pure_eq_ok]
    unfold App.onLinkRequest
    split
    · exact .refl n
    · rename_i hu
      exact hexec hu
    · rename_i link u hu
      dsimp only
      split
      · exact (hexec hu).trans (runs_single (o := .setLinkPacketCallback link (some 0)) hquiet
          trivial rfl)
      · exact hexec hu
  | _ => exact .refl n

theorem hello_runs (b : Board) : Runs P Steady b.node (a.hello P b).node := by
  unfold App.hello
  split
  · exact .refl _
  rename_i i l _
  split
  · split
    · rename_i hn
      exact runs_single (o := .send i (helloText a)) (env_wellbehaved a) trivial hn
    · exact .refl _
  · exact .refl _

theorem announced_runs {n u : Node} {d : Destination} {app : Bytes}
    (h : n.announce P (a.env P) d app true = .ok u) : Runs P Steady n u :=
  runs_single (o := .announce d app true) (env_wellbehaved a) trivial h

theorem announce_runs (random : UInt32) (b : Board) :
    Runs P Steady b.node (a.announce P random b).node := by
  unfold App.announce
  split
  · dsimp only
    split
    · exact .refl _
    · rename_i hn
      exact announced_runs hn
  · exact .refl _

theorem announceNode_runs (b : Board) : Runs P Steady b.node (a.announceNode P b).node := by
  unfold App.announceNode
  dsimp only
  split
  · exact .refl _
  · rename_i hn
    exact announced_runs hn

theorem inbound_runs {n u : Node} {raw : Bytes} {iface : Option Nat}
    (h : n.inbound P (a.env P) raw iface = .ok u) : Runs P Steady n u :=
  runs_single (o := .inbound raw iface) (env_wellbehaved a) trivial h

theorem step_runs {b c : Board} (h : App.Step P a b c) :
    Runs P (fun _ _ => True) b.node c.node := by
  have any {n u : Node} (h : Runs P Steady n u) : Runs P (fun _ _ => True) n u :=
    h.mono fun _ _ _ => trivial
  cases h with
  | inbound hu => exact any (inbound_runs hu)
  | start _ hu =>
    exact runs_single (fun e m => any (env_wellbehaved a e m)) trivial hu
  | hello _ => exact any (hello_runs b)
  | announce random _ => exact any (announce_runs random b)
  | announceNode _ => exact any (announceNode_runs b)
  | tick _ => exact .refl _

theorem steps_runs {b c : Board} (h : Relation.ReflTransGen (App.Step P a) b c) :
    Runs P (fun _ _ => True) b.node c.node := by
  induction h with
  | refl => exact .refl b.node
  | tail _ hstep ih => exact ih.trans (step_runs hstep)

/-- Whatever holds of the stack in every state that it reaches holds of it in the firmware. -/
theorem board_reachable {identity : Identity} {tcp : Bool} {readings : List Event → Readings}
    {impl : Nat → InterfaceImpl} {r : Rng} {n : Node}
    (hboot : boot P identity tcp readings impl r = .ok (a,n)) {b : Board} (h : a.Run P n b) :
    Reachable P b.node :=
  ⟨r,(boot_started hboot).1.runs.trans (steps_runs h)⟩

end

/-- The handler for link requests, the pages and the destinations, by the place of `app_main`. -/
def Phase.handler : Phase → Nat
  | .registerDestination | .registerRequestHandler | .setLinkRequestHandler => appHandler
  | _ => nomadHandler

def Phase.pages : Phase → List (Bytes × Nat)
  | .registerDestination | .registerRequestHandler => []
  | _ => [(indexPath,0)]

def App.destinations (a : App) : Phase → Table Destination
  | .registerDestination => (∅ : Table Destination).insert a.dest.hash a.dest
  | _ => ((∅ : Table Destination).insert a.dest.hash a.dest).insert a.gDest.hash a.gDest

structure Installed (P : Platform) (a : App) (p : Phase) (n : Node) : Prop where
  destinations : n.destinations = a.destinations p
  onAnnounce : n.onAnnounce = some 0
  handler : n.onLinkRequest = some (.user p.handler)
  requestHandlers : n.requestHandlers 1 = requestTable P p.pages

section
variable {P : Platform} {a : App}

theorem Installed.registered {p q : Phase} {n u : Node} (h : Installed P a p n)
    (hu : Registered n u) (hd : a.destinations q = a.destinations p) (hh : q.handler = p.handler)
    (hp : q.pages = p.pages) : Installed P a q u :=
  ⟨by rw [hu.destinations,h.destinations,hd],by rw [hu.onAnnounce,h.onAnnounce],
    by rw [hu.onLinkRequest,h.handler,hh],by rw [hu.requestHandlers,h.requestHandlers,hp]⟩

theorem Installed.start {p q : Phase} {o : Op} {n u : Node} (h : Installed P a p n)
    (ho : a.start p = some (o,q)) (hu : exec P (a.env P) o n = .ok u) : Installed P a q u := by
  cases p with
  | registerDestination =>
    cases ho
    cases hu
    refine ⟨?_,h.onAnnounce,h.handler,h.requestHandlers⟩
    show Finmap.insert a.gDest.hash a.gDest n.destinations = _
    rw [h.destinations]
    rfl
  | registerRequestHandler =>
    cases ho
    obtain ⟨u',hu',hregs⟩ := exec_registerRequestHandler h.requestHandlers (a.env P) indexPath 0
    cases hu.symm.trans hu'
    cases hu
    exact ⟨h.destinations,h.onAnnounce,h.handler,hregs⟩
  | setLinkRequestHandler =>
    cases ho
    cases hu
    exact ⟨h.destinations,h.onAnnounce,rfl,h.requestHandlers⟩
  | firstAnnounce =>
    cases ho
    exact h.registered (steady_registered (announced_runs hu)) rfl rfl rfl
  | _ => cases ho

theorem announce_phase (random : UInt32) (b : Board) :
    (a.announce P random b).phase = .announceNode ∨ (a.announce P random b).phase = .rest := by
  unfold App.announce
  split
  · dsimp only
    split
    · exact .inr rfl
    · exact .inl rfl
  · exact .inr rfl

theorem announceNode_phase (b : Board) : (a.announceNode P b).phase = .rest := by
  unfold App.announceNode
  dsimp only
  split <;> rfl

theorem installed_step {b c : Board} (h : App.Step P a b c) (hb : Installed P a b.phase b.node) :
    Installed P a c.phase c.node := by
  cases h with
  | inbound hu => exact hb.registered (steady_registered (inbound_runs hu)) rfl rfl rfl
  | start ho hu => exact hb.start ho hu
  | hello hp =>
    rw [hp] at hb
    exact hb.registered (steady_registered (hello_runs b)) rfl rfl rfl
  | announce random hp =>
    rw [hp] at hb
    have hregs := steady_registered (announce_runs (P := P) (a := a) random b)
    rcases announce_phase (P := P) (a := a) random b with hq | hq <;> rw [hq] <;>
      exact hb.registered hregs rfl rfl rfl
  | announceNode hp =>
    rw [hp] at hb
    rw [announceNode_phase]
    exact hb.registered (steady_registered (announceNode_runs b)) rfl rfl rfl
  | tick hp =>
    rw [hp] at hb
    exact hb.registered ⟨rfl,rfl,rfl,rfl⟩ rfl rfl rfl

theorem run_installed {identity : Identity} {tcp : Bool} {readings : List Event → Readings}
    {impl : Nat → InterfaceImpl} {r : Rng} {n : Node}
    (hboot : boot P identity tcp readings impl r = .ok (a,n)) {b : Board} (h : a.Run P n b) :
    Installed P a b.phase b.node := by
  obtain ⟨hn,-⟩ := boot_started hboot
  induction h with
  | refl => exact ⟨hn.destinations,hn.onAnnounce,hn.handler,hn.requestHandlers⟩
  | tail _ hstep ih => exact installed_step hstep ih

end

/-- Which links have a packet callback, by their place and by whether the firmware asked for
them: the one that counts; and only to it was anything handed. -/
structure Ears (handler : Nat) (ear : Nat → Bool → Bool) (n : Node) : Prop where
  onLinkRequest : n.onLinkRequest = some (.user handler)
  callback : ∀ {i l}, n.link? i = some l →
    l.onPacket = if ear i l.initiator then some 0 else none
  fresh : ∀ {i}, n.linkHeap.length ≤ i →
    ear i true = false ∧ ear i false = decide (handler = appHandler)
  heard : ∀ {cb pt i}, .linkPacket cb pt i ∈ n.log →
    cb = 0 ∧ ∃ l, n.link? i = some l ∧ l.onPacket = some 0

namespace Ears
variable {P : Platform} {a : App} {handler : Nat} {ear : Nat → Bool → Bool} {n m : Node}

theorem grow (h : Ears handler ear n) (hset : m.onLinkRequest = n.onLinkRequest)
    (hl : m.linkHeap = n.linkHeap)
    (hlog : ∀ cb pt i, .linkPacket cb pt i ∈ m.log → .linkPacket cb pt i ∈ n.log) :
    Ears handler ear m := by
  have hlink (i : Nat) : m.link? i = n.link? i := by rw [Node.link?,hl]; rfl
  refine ⟨hset.trans h.onLinkRequest,fun hk => h.callback (hlink _ ▸ hk),
    fun hi => h.fresh (hl ▸ hi),fun hmem => ?_⟩
  obtain ⟨hcb,l,hk,hl⟩ := h.heard (hlog _ _ _ hmem)
  exact ⟨hcb,l,(hlink _).trans hk,hl⟩

theorem note (h : Ears handler ear n) {e : Event} (he : ∀ cb pt i, e ≠ .linkPacket cb pt i) :
    Ears handler ear (n.note e) :=
  h.grow rfl rfl fun cb pt i hmem => (List.mem_cons.mp hmem).resolve_left (he cb pt i).symm

theorem hands (h : Ears handler ear n) {i cb : Nat} {l : Link} (hl : n.link? i = some l)
    (hcb : l.onPacket = some cb) (pt : Bytes) :
    Ears handler ear (n.note (.linkPacket cb pt i)) := by
  refine ⟨h.onLinkRequest,h.callback,h.fresh,fun hmem => ?_⟩
  rcases List.mem_cons.mp hmem with heq | hmem
  · cases heq
    have hear := h.callback hl
    rw [hcb] at hear
    split at hear
    · cases hear
      exact ⟨rfl,l,hl,hcb⟩
    · cases hear
  · exact h.heard hmem

theorem setLink (h : Ears handler ear n) {i : Nat} {l l' : Link} (hl : n.link? i = some l)
    (hinit : l'.initiator = l.initiator) (hcb : l'.onPacket = l.onPacket) :
    Ears handler ear (n.setLink i l') := by
  refine ⟨h.onLinkRequest,fun {j k} hk => ?_,fun {j} hj => h.fresh ?_,fun {cb pt j} hmem => ?_⟩
  · rw [Node.link?_setLink hl] at hk
    split at hk
    · subst j
      cases hk
      rw [hcb,hinit]
      exact h.callback hl
    · exact h.callback hk
  · simpa [Node.setLink] using hj
  · obtain ⟨hzero,k,hk,hear⟩ := h.heard hmem
    refine ⟨hzero,?_⟩
    rw [Node.link?_setLink hl]
    by_cases hj : j = i
    · subst hj
      cases hl.symm.trans hk
      exact ⟨l',if_pos rfl,hcb.trans hear⟩
    · exact ⟨k,(if_neg hj).trans hk,hear⟩

theorem join (h : Ears handler ear n) {l : Link} (hset : m.onLinkRequest = n.onLinkRequest)
    (hheap : m.linkHeap = n.linkHeap ++ [l])
    (hlog : ∀ cb pt i, .linkPacket cb pt i ∈ m.log → .linkPacket cb pt i ∈ n.log)
    (hear : l.onPacket = if ear n.linkHeap.length l.initiator then some 0 else none) :
    Ears handler ear m := by
  have hold {i : Nat} {k : Link} (hk : n.link? i = some k) : m.link? i = some k := by
    rw [Node.link?,hheap,List.getElem?_append_left (Node.link?_lt hk)]
    exact hk
  refine ⟨hset.trans h.onLinkRequest,fun {i k} hk => ?_,fun {i} hi => h.fresh ?_,fun hmem => ?_⟩
  · rw [Node.link?,hheap,List.getElem?_append] at hk
    split at hk
    · exact h.callback hk
    · rename_i hi
      rw [List.getElem?_singleton] at hk
      split at hk
      · cases hk
        have heq : i = n.linkHeap.length := by omega
        rw [heq,hear]
      · cases hk
  · rw [hheap,List.length_append] at hi
    omega
  · obtain ⟨hcb,k,hk,hk0⟩ := h.heard (hlog _ _ _ hmem)
    exact ⟨hcb,k,hold hk,hk0⟩

theorem upkeep_of {env : Env}
    (hcall : ∀ {n : Node} {e : Event}, Ears handler ear n → n.Calls e →
      Ears handler ear (n.tell env e)) : Upkeep env (Ears handler ear) where
  tables := fun _ _ _ _ _ h => h.grow rfl rfl fun _ _ _ hmem => hmem
  relay := fun _ h => h.note fun _ _ _ heq => nomatch heq
  onProof := fun _ _ h => h.note fun _ _ _ heq => nomatch heq
  call := hcall
  registerLink := fun {n} i h => by
    obtain ⟨links,heq,-,-⟩ := Node.registerLink_eq i n
    rw [heq]
    exact h.grow rfl rfl fun _ _ _ hmem => hmem
  proof := fun h hl hl' => h.setLink hl hl'.initiator hl'.onPacket

theorem calls_note (h : Ears handler ear n) {e : Event} (he : n.Calls e) :
    Ears handler ear (n.note e) :=
  h.note fun cb pt i heq => by
    subst heq
    exact he

theorem upkeep_quiet : Upkeep quiet (Ears handler ear) := upkeep_of fun h he => h.calls_note he

theorem onAnnounce (h : Ears handler ear n) (dh : Bytes) (peer : Identity) :
    Ears handler ear (a.onAnnounce P dh peer n) := by
  unfold App.onAnnounce
  split
  · exact h
  split
  · exact h
  split
  · exact h
  split
  · exact h
  rename_i d r _
  have hrng : Ears handler ear { n with rng := r } := upkeep_quiet.rng h r
  split
  · exact h
  · rename_i hu
    refine upkeep_quiet.request (fun l raw r' hreq => ?_) hu
    obtain ⟨l₀,r₀,hok,hl⟩ := Link.request_ok (P := P) d none none 0 r
    cases hok.symm.trans hreq
    refine hrng.join rfl rfl (fun _ _ _ hmem => hmem) ?_
    rw [hl.onPacket,hl.initiator,(h.fresh le_rfl).1]
    rfl

theorem onLinkRequest_ears (h : Ears handler ear n) (owner : Destination) (data : Bytes)
    (packet : Packet) :
    Ears handler ear (App.onLinkRequest P handler owner data packet n).2 := by
  unfold App.onLinkRequest
  split
  · exact h
  · rename_i hu
    obtain ⟨r,-,rfl⟩ | ⟨r,raw,hres,-⟩ := validateRequest_ok hu
    · exact upkeep_quiet.rng h r
    · cases hres
  · rename_i link u hu
    obtain ⟨r,hres,-⟩ | ⟨r,raw,hres,rfl⟩ := validateRequest_ok hu
    · cases hres
    cases hres
    let l := Link.validating P owner data packet n.rng
    obtain ⟨links,heq,-,-⟩ := Node.registerLink_eq n.linkHeap.length (n.newLink l r)
    rw [heq,Node.broadcast_queued quiet_queues]
    generalize hu : ({ n.newLink l r with
      links := links
      log := _ } : Node) = u
    have hset : u.onLinkRequest = n.onLinkRequest := by rw [← hu]; rfl
    have hheap : u.linkHeap = n.linkHeap ++ [l] := by rw [← hu]; rfl
    have hlog (cb : Nat) (pt : Bytes) (i : Nat) (hmem : .linkPacket cb pt i ∈ u.log) :
        .linkPacket cb pt i ∈ n.log := by
      rw [← hu] at hmem
      refine (List.mem_append.mp hmem).resolve_left fun hmem => ?_
      obtain ⟨j,-,heq⟩ := List.mem_map.mp (List.mem_reverse.mp hmem)
      cases heq
    have hear := (h.fresh le_rfl).2
    dsimp only
    split
    · rename_i happ
      have hlink : u.link? n.linkHeap.length = some l := by
        rw [Node.link?,hheap]
        simp
      simp only [Node.setPacketCallback,hlink]
      refine h.join (l := { l with onPacket := some 0 }) hset ?_ hlog ?_
      · simp [Node.setLink,hheap]
      · show some 0 = if ear _ false then _ else _
        rw [hear,decide_eq_true happ]
        rfl
    · rename_i happ
      refine h.join (l := l) hset hheap hlog ?_
      show none = if ear _ false then _ else _
      rw [hear,decide_eq_false happ]
      rfl

theorem upkeep : Upkeep (a.env P) (Ears handler ear) := by
  refine upkeep_of fun {n e} h he => ?_
  have hnote := h.calls_note he
  cases e with
  | announce cb dh peer appData packet => exact hnote.onAnnounce dh peer
  | linkRequest g owner data packet =>
    cases h.onLinkRequest.symm.trans he
    exact hnote.onLinkRequest_ears owner data packet
  | _ => exact hnote

theorem inbound (h : Ears handler ear n) {raw : Bytes} {iface : Option Nat} {u : Node}
    (hu : n.inbound P (a.env P) raw iface = .ok u) : Ears handler ear u := by
  have hrx : Ears handler ear (n.note (.rx raw iface)) := h.note fun _ _ _ heq => nomatch heq
  exact upkeep.inbound hrx (fun hset => nomatch h.onLinkRequest.symm.trans hset)
    (fun _ _ _ _ _ _ _ _ hl _ _ _ _ _ hcb => hrx.hands hl hcb _) hu

end Ears

section
variable {P : Platform} {a : App} {ear : Nat → Bool → Bool}

/-- `app_main` goes on under the same handler for link requests, or replaces it. -/
theorem step_handler {b c : Board} (h : App.Step P a b c) :
    c.phase.handler = b.phase.handler ∨ b.phase = .setLinkRequestHandler ∧
      c = { b with
        node := { b.node with onLinkRequest := some (.user nomadHandler) }
        phase := .firstAnnounce } := by
  cases h with
  | inbound _ => exact .inl rfl
  | start ho hu =>
    cases hp : b.phase <;> rw [hp] at ho <;> cases ho
    case start.setLinkRequestHandler.refl =>
      cases hu
      exact .inr ⟨rfl,rfl⟩
    all_goals exact .inl rfl
  | hello hp => rw [hp]; exact .inl rfl
  | announce random hp =>
    rcases announce_phase (P := P) (a := a) random b with hq | hq <;> rw [hp,hq] <;> exact .inl rfl
  | announceNode hp => rw [hp,announceNode_phase]; exact .inl rfl
  | tick hp => rw [hp]; exact .inl rfl

theorem step_ears {b c : Board} (h : App.Step P a b c) (hb : Ears b.phase.handler ear b.node)
    (hsame : c.phase.handler = b.phase.handler) : Ears c.phase.handler ear c.node := by
  rw [hsame]
  have announced {n u : Node} {d : Destination} {app : Bytes}
      (hn : Ears b.phase.handler ear n) (hu : n.announce P (a.env P) d app true = .ok u) :
      Ears b.phase.handler ear u := Ears.upkeep.announce hn hu
  cases h with
  | inbound hu => exact hb.inbound hu
  | start ho hu =>
    cases hp : b.phase <;> rw [hp] at ho hsame hb <;> cases ho
    case start.setLinkRequestHandler.refl => cases hsame
    case start.firstAnnounce.refl => exact Ears.upkeep.announce hb hu
    all_goals
      cases hu
      exact hb.grow rfl rfl fun _ _ _ hmem => hmem
  | hello _ =>
    show Ears _ ear (a.hello P b).node
    unfold App.hello
    split
    · exact hb
    split
    · split
      · rename_i hsend
        exact Ears.upkeep.sendWithContext hb hsend
      · exact hb
    · exact hb
  | announce random _ =>
    unfold App.announce
    split
    · dsimp only
      split
      · exact hb
      · rename_i hu
        exact announced hb hu
    · exact hb
  | announceNode _ =>
    unfold App.announceNode
    dsimp only
    split
    · exact hb
    · rename_i hu
      exact announced hb hu
  | tick _ => exact hb

theorem Ears.replaced {n : Node} (h : Ears appHandler ear n) :
    Ears nomadHandler (fun i own => decide (i < n.linkHeap.length) && ear i own)
      { n with onLinkRequest := some (.user nomadHandler) } where
  onLinkRequest := rfl
  callback := fun {i l} hl => by
    have hlt : i < n.linkHeap.length := Node.link?_lt hl
    rw [decide_eq_true hlt,Bool.true_and]
    exact h.callback hl
  fresh := fun {i} hi => by
    have hge : ¬ i < n.linkHeap.length := Nat.not_lt.mpr hi
    rw [decide_eq_false hge,Bool.false_and,Bool.false_and]
    exact ⟨rfl,rfl⟩
  heard := h.heard

/-- The links that others asked for have the callback of `app_main`. -/
theorem Started.ears {id : Identity} {tcp : Bool} {r : Rng} {n : Node}
    (h : Started P id tcp r a n) : Ears appHandler (fun _ own => !own) n where
  onLinkRequest := h.handler
  callback := fun hl => by
    rw [Node.link?,h.linkHeap] at hl
    cases hl
  fresh := fun _ => ⟨rfl,rfl⟩
  heard := fun hmem => by
    rw [h.log] at hmem
    cases hmem

theorem run_ears {identity : Identity} {tcp : Bool} {readings : List Event → Readings}
    {impl : Nat → InterfaceImpl} {r : Rng} {n : Node}
    (hboot : boot P identity tcp readings impl r = .ok (a,n)) {b : Board} (h : a.Run P n b) :
    ∃ ear, Ears b.phase.handler ear b.node ∧
      (b.phase.handler = appHandler → ear = fun _ own => !own) := by
  obtain ⟨hn,-⟩ := boot_started hboot
  induction h with
  | refl => exact ⟨_,hn.ears,fun _ => rfl⟩
  | @tail b c _ hstep ih =>
    obtain ⟨ear,hears,hfirst⟩ := ih
    rcases step_handler hstep with hsame | ⟨hp,rfl⟩
    · exact ⟨ear,step_ears hstep hears hsame,fun happ => hfirst (hsame.symm.trans happ)⟩
    · rw [hp] at hears
      refine ⟨_,hears.replaced,fun happ => ?_⟩
      cases happ

theorem steps_ears {b c : Board} (h : Relation.ReflTransGen (App.Step P a) b c)
    (hb : Ears b.phase.handler ear b.node) (hnomad : b.phase.handler = nomadHandler) :
    c.phase.handler = nomadHandler ∧ Ears c.phase.handler ear c.node := by
  induction h with
  | refl => exact ⟨hnomad,hb⟩
  | tail _ hstep ih =>
    obtain ⟨hhandler,hears⟩ := ih
    rcases step_handler hstep with hsame | ⟨hp,-⟩
    · exact ⟨hsame.trans hhandler,step_ears hstep hears hsame⟩
    · rw [hp] at hhandler
      cases hhandler

/-- The handler of `app_main` gives the links that it accepts a packet callback, which counts; the
one that `NomadnetNode::start` puts in its place gives none. Links keep what they have, those
that the firmware asks for have none, and an intact payload on a link that is up is handed to the
callback, once, or dropped. -/
theorem payloads_counted {identity : Identity} {tcp : Bool} {readings : List Event → Readings}
    {impl : Nat → InterfaceImpl} {r : Rng} {n : Node}
    (hboot : boot P identity tcp readings impl r = .ok (a,n)) {b : Board} (h : a.Run P n b) :
    (b.node.onLinkRequest = some (.user appHandler) ∧
        (∃ call, a.start b.phase = some call) ∧
        (∀ i l, b.node.link? i = some l → l.onPacket = if l.initiator then none else some 0) ∨
      b.node.onLinkRequest = some (.user nomadHandler) ∧
        ∀ c, Relation.ReflTransGen (App.Step P a) b c →
          c.node.onLinkRequest = some (.user nomadHandler) ∧
          ∀ i l, c.node.link? i = some l →
            l.onPacket = (b.node.link? i).bind (·.onPacket)) ∧
    (∀ cb pt i, .linkPacket cb pt i ∈ b.node.log →
      cb = 0 ∧ ∃ l, b.node.link? i = some l ∧ l.onPacket = some 0) ∧
    ∀ i k raw pt iface, b.node.Up i k → k.plaintext? P raw = some pt →
      b.node.inbound P (a.env P) raw iface = .ok { b.node with
        log := (k.onPacket.toList.map fun cb => .linkPacket cb pt i) ++
          .rx raw iface :: b.node.log } := by
  obtain ⟨ear,hears,hfirst⟩ := run_ears hboot h
  refine ⟨?_,fun cb pt i hmem => hears.heard hmem,fun i k raw pt iface hk hpt => ?_⟩
  · have hcases : b.phase.handler = appHandler ∨ b.phase.handler = nomadHandler := by
      cases b.phase <;> simp [Phase.handler]
    rcases hcases with happ | hnomad
    · refine .inl ⟨happ ▸ hears.onLinkRequest,?_,fun i l hl => ?_⟩
      · cases hp : b.phase <;> rw [hp] at happ <;>
          first
            | exact ⟨_,rfl⟩
            | cases happ
      · rw [hears.callback hl,hfirst happ]
        cases l.initiator <;> rfl
    · refine .inr ⟨hnomad ▸ hears.onLinkRequest,fun c hc => ?_⟩
      obtain ⟨hlater,hears'⟩ := steps_ears hc hears hnomad
      refine ⟨hlater ▸ hears'.onLinkRequest,fun i l hl => ?_⟩
      rw [hears'.callback hl]
      cases hold : b.node.link? i with
      | none =>
        have hge : b.node.linkHeap.length ≤ i := List.getElem?_eq_none_iff.mp hold
        obtain ⟨htrue,hfalse⟩ := hears.fresh hge
        have hear : ear i l.initiator = false := by
          cases l.initiator
          · rw [hfalse,hnomad]
            rfl
          · exact htrue
        rw [hear]
        rfl
      | some k =>
        obtain ⟨l',hl',hk⟩ := (steps_runs hc).linksLater i k hold
        cases hl.symm.trans hl'
        rw [Option.bind_some,hears.callback hold,hk.initiator]
  · obtain ⟨packet,hp,ht,hd,hctx,hne,hopens⟩ := Link.plaintext?_eq_some.mp hpt
    rw [inbound_link hp ht (hd ▸ hk.notLocal) (hd ▸ hk.registered) hk.link hk.active hopens hne,
      if_neg hctx]
    cases k.onPacket <;> rfl

end

theorem payloads_counted_met : ∃ (A : Board) (pt : Bytes), A.node.linkHeap.length = 2 ∧
    .linkPacket 0 pt 0 ∈ A.node.log ∧ ∃ l, A.node.link? 0 = some l ∧ l.onPacket = some 0 := by
  obtain ⟨a,b,n,-,A,-,ha,-,hA,-,-,hlinks,hheard⟩ := exists_met
  obtain ⟨-,hcounted,-⟩ := payloads_counted ha hA
  have hmem : helloText b ∈ A.node.log.filterMap (Event.handed 0 0) := by
    rw [hheard]
    exact List.mem_singleton_self _
  obtain ⟨e,he,hhanded⟩ := List.mem_filterMap.mp hmem
  have heq : e = .linkPacket 0 (helloText b) 0 := by
    cases e <;> simp [Event.handed] at hhanded
    obtain ⟨⟨rfl,rfl⟩,rfl⟩ := hhanded
    rfl
  subst heq
  exact ⟨A,helloText b,hlinks,he,(hcounted 0 _ 0 he).2⟩

end HeltecV3.Main
