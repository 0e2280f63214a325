import RTReticulum.App
import RTReticulum.Arrivals

/-! The firmware at work: the callbacks of `app_main` and of the NomadNet node on one stack, and
`app_main` next to the frames that arrive. -/
set_option autoImplicit false

namespace HeltecV3.Main
open RNS NomadnetNode

/-- The handlers that `app_main` and `NomadnetNode::start` set for link requests, by number. -/
abbrev appHandler : Nat := 0
abbrev nomadHandler : Nat := 1

/-- What the callbacks capture: the identity, both destinations, and what a page shows of the
device. -/
structure App where
  identity : Identity
  dest : Destination
  gDest : Destination
  readings : List Event → Readings
  impl : Nat → InterfaceImpl

/-- `g_out_link`: the only caller of `Link::request` is the announce callback, which sets it to
the link that it gets and does nothing once it is set. -/
def outLink (n : Node) : Option Nat := n.linkHeap.findIdx? (·.initiator)

section
variable (P : Platform)

/-- The callback for announces. The interfaces queue what is sent. -/
def App.onAnnounce (a : App) (dh : Bytes) (peer : Identity) (n : Node) : Node :=
  if dh = a.dest.hash then n
  else if peer.hash = a.identity.hash then n
  else if (outLink n).isSome then n
  else
    match Destination.ofName P 2 (some peer) .dirOut .single (text "rtreticulum")
      (some (text "heltec_v3")) n.rng with
    | .error _ => n
    | .ok (peerDest,r) =>
      match { n with rng := r }.request P quiet peerDest none none 0 with
      | .error _ => n
      | .ok (_,n) => n

/-- Both handlers validate the request; that of `app_main` then sets a packet callback, which
counts. -/
def App.onLinkRequest (handler : Nat) (owner : Destination) (data : Bytes) (packet : Packet)
    (n : Node) : Answer × Node :=
  match n.validateRequest P quiet owner data packet with
  | .error _ => (⟨[],none⟩,n)
  | .ok (none,n) => (⟨[],none⟩,n)
  | .ok (some link,n) =>
    (⟨[],some link⟩,if handler = appHandler then n.setPacketCallback link (some 0) else n)

def App.env (a : App) : Env := fun e n =>
  match e with
  | .announce _ dh peer _ _ => (⟨[],none⟩,a.onAnnounce P dh peer n)
  | .linkRequest handler owner data packet => App.onLinkRequest P handler owner data packet n
  | .generate .. => (⟨serveIndex (a.readings n.log) a.impl a.gDest n,none⟩,n)
  | _ => (⟨[],none⟩,n)

/-- `app_main` up to `Reticulum::start`. LoRa is interface 0, the TCP connection is 1 where there
is one. `NomadnetNode::start` makes the second destination, of the identity alone. -/
def boot (identity : Identity) (tcp : Bool) (readings : List Event → Readings)
    (impl : Nat → InterfaceImpl) (r : Rng) : Except Fault (App × Node) := do
  let n ← (if tcp then [0,1] else [0]).foldlM
    (fun n i => exec P quiet (.registerInterface i) n) (Node.boot r)
  let (dest,r) ← Destination.ofName P 0 (some identity) .dirIn .single (text "rtreticulum")
    (some (text "heltec_v3")) n.rng
  let n ← exec P quiet (.registerDestination dest) { n with rng := r }
  let n ← exec P quiet (.setLinkRequestHandler (some (.user appHandler))) n
  let n ← exec P quiet (.onAnnounce (some 0)) n
  let (gDest,_) ← Destination.ofName P 1 (some identity) .dirIn .single (text "nomadnetwork")
    (some (text "node")) n.rng
  return (⟨identity,dest,gDest,readings,impl⟩,n)

/-- Where `app_main` is: before one of the four calls that `NomadnetNode::start` makes of the
stack, or in its loop before the hello, before either announce, and at the end. -/
inductive Phase where
  | registerDestination | registerRequestHandler | setLinkRequestHandler | firstAnnounce
  | hello | announce | announceNode | rest
  deriving DecidableEq

def indexPath : Bytes := text "/page/index.mu"

def App.start (a : App) : Phase → Option (Op × Phase)
  | .registerDestination => some (.registerDestination a.gDest,.registerRequestHandler)
  | .registerRequestHandler =>
    some (.registerRequestHandler 1 indexPath 0,.setLinkRequestHandler)
  | .setLinkRequestHandler =>
    some (.setLinkRequestHandler (some (.user nomadHandler)),.firstAnnounce)
  | .firstAnnounce => some (.announce a.gDest (text "RTReticulum Heltec V3") true,.hello)
  | _ => none

structure Board where
  node : Node
  phase : Phase
  /-- `g_hello_sent`, `g_link_tx`, `g_announce_count`. -/
  helloSent : Bool
  linkTx : UInt32
  announceCount : UInt32
  tick : UInt32
  nextAnnounce : UInt32

def helloText (a : App) : Bytes := text "hello from " ++ (Bytes.toHex a.identity.hash).take 8

def App.hello (a : App) (b : Board) : Board :=
  match (outLink b.node).bind fun i => (b.node.link? i).map fun l => (i,l) with
  | none => b
  | some (i,l) =>
    if b.helloSent = false ∧ l.status = .active then
      match b.node.send P (a.env P) i (helloText a) with
      | .ok n => { b with node := n, linkTx := b.linkTx+1, helloSent := true }
      | .error _ => b
    else b

/-- The announce of its own destination, at the start and when it is due; an exception also
leaves out the announce of the NomadNet node. -/
def App.announce (a : App) (random : UInt32) (b : Board) : Board :=
  if b.tick = 0 ∨ b.nextAnnounce ≤ b.tick then
    let b := { b with nextAnnounce := b.tick + 270 + random % 60, phase := .rest }
    match b.node.announce P (a.env P) a.dest (text "hello from heltec v3") true with
    | .error _ => b
    | .ok n => { b with node := n, phase := .announceNode }
  else { b with phase := .rest }

def App.announceNode (a : App) (b : Board) : Board :=
  let b := { b with phase := .rest }
  match b.node.announce P (a.env P) a.gDest (text "RTReticulum Heltec V3") true with
  | .error _ => b
  | .ok n => { b with node := n, announceCount := b.announceCount+1 }

/-- `app_main` from `Reticulum::start` on, and frames that an interface hands over at any time. -/
inductive App.Step (a : App) : Board → Board → Prop where
  | inbound {b : Board} {raw : Bytes} {iface : Option Nat} {n : Node} :
      b.node.inbound P (a.env P) raw iface = .ok n → Step a b { b with node := n }
  | start {b : Board} {o : Op} {p : Phase} {n : Node} : a.start b.phase = some (o,p) →
      exec P (a.env P) o b.node = .ok n → Step a b { b with node := n, phase := p }
  | hello {b : Board} : b.phase = .hello → Step a b { a.hello P b with phase := .announce }
  | announce {b : Board} (random : UInt32) : b.phase = .announce →
      Step a b (a.announce P random b)
  | announceNode {b : Board} : b.phase = .announceNode → Step a b (a.announceNode P b)
  | tick {b : Board} : b.phase = .rest →
      Step a b { b with phase := .hello, tick := b.tick+1 }

def Board.start (n : Node) : Board := ⟨n,.registerDestination,false,0,0,0,0⟩

def App.Run (a : App) (n : Node) : Board → Prop :=
  Relation.ReflTransGen (App.Step P a) (Board.start n)

end

theorem outLink_setLink {n : Node} {i : Nat} {l l' : Link} (hl : n.link? i = some l)
    (h : l'.initiator = l.initiator) : outLink (n.setLink i l') = outLink n := by
  have hmap : (n.setLink i l').linkHeap.map (·.initiator) = n.linkHeap.map (·.initiator) := by
    obtain ⟨hlt,rfl⟩ := List.getElem?_eq_some_iff.mp hl
    rw [Node.setLink,List.map_set,h]
    refine List.ext_getElem (by simp) fun j hj hj' => ?_
    rw [List.getElem_set]
    split
    · rename_i hij
      subst hij
      rw [List.getElem_map]
    · rfl
  have key (n : Node) : outLink n = (n.linkHeap.map (·.initiator)).findIdx? id := by
    rw [List.findIdx?_map]
    rfl
  rw [key,key,hmap]

theorem outLink_newLink (n : Node) (l : Link) (r : Rng) : outLink (n.newLink l r) =
    (outLink n).or (if l.initiator then some n.linkHeap.length else none) := by
  have hsingle : ([l].findIdx? (·.initiator)).map (· + n.linkHeap.length) =
      if l.initiator then some n.linkHeap.length else none := by
    rw [List.findIdx?_singleton]
    cases l.initiator <;> simp
  rw [outLink,Node.newLink,List.findIdx?_append,hsingle]
  rfl

/-- What the callbacks of the firmware keep. `sent` says that the hello went out. -/
structure Kept (P : Platform) (a : App) (ifaces : List Nat) (sent : Bool) (n : Node) : Prop where
  interfaces : n.interfaces = ifaces
  token : ∀ {i l}, n.link? i = some l → l.status = .active → l.token.isSome
  outbound : ∀ {i l}, n.link? i = some l → l.initiator = true → outLink n = some i ∧
    ∃ peer, l.destination.identity = some peer ∧ peer.hash ≠ a.identity.hash ∧
      ∃ cb dh appData packet, .announce cb dh peer appData packet ∈ n.log ∧ dh ≠ a.dest.hash
  greeted : sent = true → ∃ i l c, outLink n = some i ∧ n.link? i = some l ∧
    l.status = .active ∧ l.Opens P c (helloText a) ∧ ∀ iface ∈ ifaces,
      .sendOutgoing iface (linkFrame .data l.hash Context.none c) (.link i) ∈ n.log

namespace Kept
variable {P : Platform} {a : App} {ifaces : List Nat} {sent : Bool} {n : Node}

theorem grow (h : Kept P a ifaces sent n) {m : Node} (hi : m.interfaces = n.interfaces)
    (hl : m.linkHeap = n.linkHeap) (hlog : n.log ⊆ m.log) : Kept P a ifaces sent m := by
  have hlink (i : Nat) : m.link? i = n.link? i := by rw [Node.link?,hl]; rfl
  have hout : outLink m = outLink n := by rw [outLink,hl]; rfl
  refine ⟨hi.trans h.interfaces,fun hk => h.token (hlink _ ▸ hk),fun hk hinit => ?_,fun hs => ?_⟩
  · obtain ⟨hfirst,peer,hid,hne,cb,dh,appData,packet,hmem,hdh⟩ := h.outbound (hlink _ ▸ hk) hinit
    exact ⟨hout.trans hfirst,peer,hid,hne,cb,dh,appData,packet,hlog hmem,hdh⟩
  · obtain ⟨i,l,c,hfirst,hk,hactive,hopens,hsent⟩ := h.greeted hs
    exact ⟨i,l,c,hout.trans hfirst,(hlink i).trans hk,hactive,hopens,
      fun iface hi => hlog (hsent iface hi)⟩

theorem note (h : Kept P a ifaces sent n) (e : Event) : Kept P a ifaces sent (n.note e) :=
  h.grow rfl rfl (List.subset_cons_self _ _)

theorem registerLink (h : Kept P a ifaces sent n) (i : Nat) :
    Kept P a ifaces sent (n.registerLink i) := by
  obtain ⟨links,heq,-,-⟩ := Node.registerLink_eq i n
  rw [heq]
  exact h.grow rfl rfl (List.Subset.refl _)

theorem setLink (h : Kept P a ifaces sent n) {i : Nat} {l l' : Link} (hl : n.link? i = some l)
    (hinit : l'.initiator = l.initiator) (hdest : l'.destination = l.destination)
    (htoken : l'.status = .active → l'.token.isSome) (hup : l.status = .active →
      l'.status = .active ∧ l'.token = l.token ∧ l'.hash = l.hash) :
    Kept P a ifaces sent (n.setLink i l') := by
  have hout := outLink_setLink hl hinit
  refine ⟨h.interfaces,fun {j k} hk hs => ?_,fun {j k} hk hi => ?_,fun hs => ?_⟩
  · rw [Node.link?_setLink hl] at hk
    split at hk
    · cases hk
      exact htoken hs
    · exact h.token hk hs
  · rw [hout]
    rw [Node.link?_setLink hl] at hk
    split at hk
    · rename_i hj
      cases hk
      rw [hj,hdest]
      exact h.outbound hl (hinit.symm.trans hi)
    · exact h.outbound hk hi
  · obtain ⟨j,k,c,hfirst,hk,hactive,⟨token,ht,hdec⟩,hsent⟩ := h.greeted hs
    by_cases hj : j = i
    · subst hj
      cases hl.symm.trans hk
      obtain ⟨hactive',ht',hhash⟩ := hup hactive
      exact ⟨j,l',c,hout.trans hfirst,by rw [Node.link?_setLink hl,if_pos rfl],hactive',
        ⟨token,ht'.trans ht,hdec⟩,hhash ▸ hsent⟩
    · exact ⟨j,k,c,hout.trans hfirst,by rw [Node.link?_setLink hl,if_neg hj,hk],hactive,
        ⟨token,ht,hdec⟩,hsent⟩

theorem newLink (h : Kept P a ifaces sent n) {l : Link} (r : Rng)
    (htoken : l.status = .active → l.token.isSome) (hown : l.initiator = true →
      outLink n = none ∧ ∃ peer, l.destination.identity = some peer ∧
        peer.hash ≠ a.identity.hash ∧ ∃ cb dh appData packet,
          .announce cb dh peer appData packet ∈ n.log ∧ dh ≠ a.dest.hash) :
    Kept P a ifaces sent (n.newLink l r) := by
  have hold {i : Nat} (hi : outLink n = some i) : outLink (n.newLink l r) = some i := by
    rw [outLink_newLink,hi]
    rfl
  refine ⟨h.interfaces,fun {j k} hk hs => ?_,fun {j k} hk hi => ?_,fun hs => ?_⟩
  · rw [Node.link?_newLink] at hk
    split at hk
    · cases hk
      exact htoken hs
    · exact h.token hk hs
  · rw [Node.link?_newLink] at hk
    split at hk
    · rename_i hj
      cases hk
      obtain ⟨hnone,hpeer⟩ := hown hi
      refine ⟨?_,hpeer⟩
      rw [outLink_newLink,hnone,hi,hj]
      rfl
    · obtain ⟨hfirst,hpeer⟩ := h.outbound hk hi
      exact ⟨hold hfirst,hpeer⟩
  · obtain ⟨j,k,c,hfirst,hk,hactive,hopens,hsent⟩ := h.greeted hs
    have hj : j ≠ n.linkHeap.length := Nat.ne_of_lt (Node.link?_lt hk)
    exact ⟨j,k,c,hold hfirst,by rw [Node.link?_newLink,if_neg hj,hk],hactive,hopens,hsent⟩

theorem validated (h : Kept P a ifaces sent n) {l : Link} (r : Rng) (hi : l.initiator = false)
    (ht : l.token.isSome) : Kept P a ifaces sent (n.newLink l r) :=
  h.newLink r (fun _ => ht) fun hown => nomatch hi.symm.trans hown

theorem upkeep_of {env : Env}
    (hcall : ∀ {n : Node} {e : Event}, Kept P a ifaces sent n → n.Calls e →
      Kept P a ifaces sent (n.tell env e)) : Upkeep env (Kept P a ifaces sent) where
  tables := fun _ _ _ _ _ h => h.grow rfl rfl (List.Subset.refl _)
  relay := fun _ h => h.note _
  onProof := fun _ _ h => h.note _
  call := hcall
  registerLink := fun i h => h.registerLink i
  proof := fun h hl hl' => h.setLink hl hl'.initiator hl'.destination hl'.token fun hs =>
    nomatch hl'.status.symm.trans hs

theorem upkeep_quiet : Upkeep quiet (Kept P a ifaces sent) := upkeep_of fun h _ => h.note _

theorem onAnnounce (h : Kept P a ifaces sent n) {cb : Nat} {dh appData : Bytes} {peer : Identity}
    {packet : Packet} (hmem : .announce cb dh peer appData packet ∈ n.log) :
    Kept P a ifaces sent (a.onAnnounce P dh peer n) := by
  unfold App.onAnnounce
  by_cases hdh : dh = a.dest.hash
  · rw [if_pos hdh]; exact h
  rw [if_neg hdh]
  by_cases hpeer : peer.hash = a.identity.hash
  · rw [if_pos hpeer]; exact h
  rw [if_neg hpeer]
  cases hout : outLink n with
  | some i => exact h
  | none =>
    simp only [Option.isSome_none,Bool.false_eq_true,if_false]
    split
    · exact h
    rename_i d r hd
    obtain ⟨-,-,hid,-⟩ := Destination.ofName_supplied hd
    have hrng : Kept P a ifaces sent { n with rng := r } := upkeep_quiet.rng h r
    split
    · exact h
    · rename_i u hu
      refine upkeep_quiet.request (fun l raw r' hreq => ?_) hu
      obtain ⟨l₀,r₀,hok,hl⟩ := Link.request_ok (P := P) d none none 0 r
      cases hok.symm.trans hreq
      refine hrng.newLink r' (fun hs => nomatch hl.status.symm.trans hs) fun _ => ?_
      exact ⟨hout,peer,by rw [hl.destination,hid],hpeer,cb,dh,appData,packet,hmem,hdh⟩

theorem onLinkRequest (h : Kept P a ifaces sent n) (handler : Nat) (owner : Destination)
    (data : Bytes) (packet : Packet) :
    Kept P a ifaces sent (App.onLinkRequest P handler owner data packet n).2 := by
  unfold App.onLinkRequest
  have hnew (r : Rng) : Kept P a ifaces sent
      (n.newLink (Link.validating P owner data packet n.rng) r) := h.validated r rfl rfl
  split
  · exact h
  · rename_i hu
    exact upkeep_quiet.validateRequest h hnew hu
  · rename_i link u hu
    have hu' := upkeep_quiet.validateRequest h hnew hu
    dsimp only
    split
    · unfold Node.setPacketCallback
      split
      · exact hu'
      · rename_i l hl
        have htoken : l.status = .active → l.token.isSome := hu'.token hl
        exact hu'.setLink hl rfl rfl htoken fun hs => ⟨hs,rfl,rfl⟩
    · exact hu'

theorem upkeep : Upkeep (a.env P) (Kept P a ifaces sent) := by
  refine upkeep_of fun {n e} h he => ?_
  have hnote := h.note e
  cases e with
  | announce cb dh peer appData packet => exact hnote.onAnnounce List.mem_cons_self
  | linkRequest handler owner data packet => exact hnote.onLinkRequest handler owner data packet
  | _ => exact hnote

theorem inbound (h : Kept P a ifaces sent n) {raw : Bytes} {iface : Option Nat} {u : Node}
    (hu : n.inbound P (a.env P) raw iface = .ok u) : Kept P a ifaces sent u := by
  have hrx := h.note (.rx raw iface)
  exact upkeep.inbound hrx (fun _ packet owner r _ _ _ => hrx.validated r rfl rfl)
    (fun _ _ _ _ _ _ _ _ _ _ _ _ _ _ _ => hrx.note _) hu

theorem greet (h : Kept P a ifaces sent n) {i : Nat} {l : Link} {c : Bytes}
    (hout : outLink n = some i) (hl : n.link? i = some l) (hs : l.status = .active)
    (hopens : l.Opens P c (helloText a)) (r : Rng) : Kept P a ifaces true { n with
      rng := r
      log := (n.copies (linkFrame .data l.hash Context.none c) none (.link i)).reverse ++
        n.log } := by
  have hgrown := h.grow (m := { n with
    rng := r
    log := (n.copies (linkFrame .data l.hash Context.none c) none (.link i)).reverse ++ n.log })
    rfl rfl (List.subset_append_right _ _)
  refine ⟨hgrown.interfaces,hgrown.token,hgrown.outbound,fun _ => ⟨i,l,c,hout,hl,hs,hopens,?_⟩⟩
  intro iface hi
  refine List.mem_append_left _ (List.mem_reverse.mpr ?_)
  rw [Node.copies_all]
  exact List.mem_map.mpr ⟨iface,h.interfaces ▸ hi,rfl⟩

end Kept

theorem env_queues {P : Platform} (a : App) (i : Nat) (raw : Bytes) (o : Origin) (m : Node) :
    (a.env P (.sendOutgoing i raw o) m).2 = m := rfl

section
variable {P : Platform} {a : App} {ifaces : List Nat}

/-- The hello goes out on every interface, under the session of the outbound link. -/
theorem hello_kept (hc : P.CbcInverts) {b : Board} (h : Kept P a ifaces b.helloSent b.node)
    (htx : b.linkTx = if b.helloSent then 1 else 0) :
    Kept P a ifaces (a.hello P b).helloSent (a.hello P b).node ∧
      (a.hello P b).linkTx = if (a.hello P b).helloSent then 1 else 0 := by
  unfold App.hello
  split
  · exact ⟨h,htx⟩
  rename_i i l hout
  obtain ⟨j,hj,hout⟩ := Option.bind_eq_some_iff.mp hout
  obtain ⟨l',hl,heq⟩ := Option.map_eq_some_iff.mp hout
  cases heq
  split
  · rename_i hready
    obtain ⟨hunsent,hs⟩ := hready
    split
    · rename_i n hsend
      obtain ⟨token,htoken⟩ := Option.isSome_iff_exists.mp (h.token hl hs)
      obtain ⟨c,r,henc⟩ : ∃ c r, token.encrypt P (helloText a) b.node.rng = .ok (c,r) :=
        ⟨_,_,token.encrypt_eq (helloText a) b.node.rng⟩
      have hopens := Token.decrypt_iff.mpr (Token.opens_encrypt hc henc)
      simp only [Node.send,Node.sendWithContext,hl,hs,htoken,henc,ok_bind,pure_eq_ok,
        Node.broadcast_queued (env_queues a),Except.ok.injEq] at hsend
      subst hsend
      refine ⟨h.greet hj hl hs ⟨token,htoken,hopens⟩ r,?_⟩
      rw [htx,hunsent]
      rfl
    · exact ⟨h,htx⟩
  · exact ⟨h,htx⟩

theorem announce_kept {b : Board} (h : Kept P a ifaces b.helloSent b.node) (random : UInt32) :
    Kept P a ifaces (a.announce P random b).helloSent (a.announce P random b).node ∧
      (a.announce P random b).helloSent = b.helloSent ∧
      (a.announce P random b).linkTx = b.linkTx := by
  unfold App.announce
  split
  · dsimp only
    split
    · exact ⟨h,rfl,rfl⟩
    · rename_i n hn
      exact ⟨Kept.upkeep.announce h hn,rfl,rfl⟩
  · exact ⟨h,rfl,rfl⟩

theorem announceNode_kept {b : Board} (h : Kept P a ifaces b.helloSent b.node) :
    Kept P a ifaces (a.announceNode P b).helloSent (a.announceNode P b).node ∧
      (a.announceNode P b).helloSent = b.helloSent ∧
      (a.announceNode P b).linkTx = b.linkTx := by
  unfold App.announceNode
  dsimp only
  split
  · exact ⟨h,rfl,rfl⟩
  · rename_i n hn
    exact ⟨Kept.upkeep.announce h hn,rfl,rfl⟩

theorem start_kept {sent : Bool} {n u : Node} (h : Kept P a ifaces sent n) {p q : Phase} {o : Op}
    (ho : a.start p = some (o,q)) (hu : exec P (a.env P) o n = .ok u) :
    Kept P a ifaces sent u := by
  cases p with
  | firstAnnounce =>
    cases ho
    exact Kept.upkeep.announce h hu
  | registerDestination | registerRequestHandler | setLinkRequestHandler =>
    cases ho
    cases hu
    exact h.grow rfl rfl (List.Subset.refl _)
  | _ => cases ho

theorem ofName_rng {obj : Nat} {id : Identity} {direction : Direction} {type : DestinationType}
    {appName : Bytes} {aspects : Option Bytes} {r r' : Rng} {d : Destination}
    (h : Destination.ofName P obj (some id) direction type appName aspects r = .ok (d,r')) :
    d.obj = obj ∧ r' = r := by
  unfold Destination.ofName at h
  split at h
  · cases h
  simp only [Option.isNone_some,Bool.false_eq_true,false_and,if_false] at h
  split at h
  · cases h
  obtain ⟨hash,-,h⟩ := bind_eq_ok.mp h
  obtain ⟨nameHash,-,h⟩ := bind_eq_ok.mp h
  cases h
  exact ⟨rfl,rfl⟩

theorem runs_single {guard : Op → Node → Prop} {env : Env} {o : Op} {n u : Node}
    (henv : env.Wellbehaved P guard) (ho : guard o n) (h : exec P env o n = .ok u) :
    Runs P guard n u :=
  .step (.refl n) henv ho h

structure Started (P : Platform) (id : Identity) (tcp : Bool) (r : Rng) (a : App) (n : Node) :
    Prop where
  runs : Runs P (fun _ _ => True) (Node.boot r) n
  identity : a.identity = id
  dest : ∃ r₀ r₁, Destination.ofName P 0 (some id) .dirIn .single (text "rtreticulum")
    (some (text "heltec_v3")) r₀ = .ok (a.dest,r₁)
  gDest : ∃ r₀ r₁, Destination.ofName P 1 (some id) .dirIn .single (text "nomadnetwork")
    (some (text "node")) r₀ = .ok (a.gDest,r₁)
  interfaces : n.interfaces = if tcp then [0,1] else [0]
  destinations : n.destinations = (∅ : Table Destination).insert a.dest.hash a.dest
  onAnnounce : n.onAnnounce = some 0
  handler : n.onLinkRequest = some (.user appHandler)
  requestHandlers : n.requestHandlers 1 = requestTable P []
  linkHeap : n.linkHeap = []
  log : n.log = []

theorem boot_started {identity : Identity} {tcp : Bool} {readings : List Event → Readings}
    {impl : Nat → InterfaceImpl} {r : Rng} {n : Node}
    (h : boot P identity tcp readings impl r = .ok (a,n)) :
    Started P identity tcp r a n ∧ a.readings = readings ∧ a.impl = impl := by
  have hquiet := quiet_wellbehaved P fun _ _ => True
  obtain ⟨n₁,h₁,h⟩ := bind_eq_ok.mp h
  obtain ⟨⟨dest,r₁⟩,hdest,h⟩ := bind_eq_ok.mp h
  obtain ⟨n₂,h₂,h⟩ := bind_eq_ok.mp h
  obtain ⟨n₃,h₃,h⟩ := bind_eq_ok.mp h
  obtain ⟨n₄,h₄,h⟩ := bind_eq_ok.mp h
  obtain ⟨⟨gDest,r₂⟩,hgDest,h⟩ := bind_eq_ok.mp h
  cases h
  obtain ⟨-,rfl⟩ := ofName_rng hdest
  have hifaces : Runs P (fun _ _ => True) (Node.boot r) n₁ := by
    cases tcp with
    | false =>
      refine runs_single (o := .registerInterface 0) hquiet trivial ?_
      cases h₁
      rfl
    | true =>
      refine (runs_single (o := .registerInterface 0) hquiet trivial rfl).trans
        (runs_single (o := .registerInterface 1) hquiet trivial ?_)
      cases h₁
      rfl
  have hsetup : Runs P (fun _ _ => True) n₁ n := (runs_single hquiet trivial h₂).trans
    ((runs_single hquiet trivial h₃).trans (runs_single hquiet trivial h₄))
  have hfields : n₁.interfaces = (if tcp then [0,1] else [0]) ∧ n₁.destinations = ∅ ∧
      n₁.requestHandlers 1 = requestTable P [] ∧ n₁.linkHeap = [] ∧ n₁.log = [] := by
    cases tcp <;> cases h₁ <;> exact ⟨rfl,rfl,rfl,rfl,rfl⟩
  obtain ⟨hifs,hdests,hempty,hheap,hlog⟩ := hfields
  cases h₂
  cases h₃
  cases h₄
  refine ⟨⟨hifaces.trans hsetup,rfl,⟨_,_,hdest⟩,⟨_,_,hgDest⟩,hifs,?_,rfl,rfl,hempty,hheap,hlog⟩,
    rfl,rfl⟩
  show Finmap.insert dest.hash dest n₁.destinations = _
  rw [hdests]

theorem boot_kept {identity : Identity} {tcp : Bool} {readings : List Event → Readings}
    {impl : Nat → InterfaceImpl} {r : Rng} {n : Node}
    (h : boot P identity tcp readings impl r = .ok (a,n)) :
    Kept P a (if tcp then [0,1] else [0]) false n := by
  obtain ⟨hn,-⟩ := boot_started h
  have hempty {i : Nat} {l : Link} (hl : n.linkHeap[i]? = some l) : False := by
    rw [hn.linkHeap] at hl
    cases hl
  exact ⟨hn.interfaces,fun hl => (hempty hl).elim,fun hl => (hempty hl).elim,
    fun hs => nomatch hs⟩

theorem run_kept (hc : P.CbcInverts) {n : Node} (hn : Kept P a ifaces false n) {b : Board}
    (h : a.Run P n b) : Kept P a ifaces b.helloSent b.node ∧
      b.linkTx = if b.helloSent then 1 else 0 := by
  induction h with
  | refl => exact ⟨hn,rfl⟩
  | tail _ hstep ih =>
    cases hstep with
    | inbound hu => exact ⟨ih.1.inbound hu,ih.2⟩
    | start ho hu => exact ⟨start_kept ih.1 ho hu,ih.2⟩
    | hello _ => exact hello_kept hc ih.1 ih.2
    | announce random _ =>
      obtain ⟨hkept,hsent,htx⟩ := announce_kept (P := P) ih.1 random
      refine ⟨hkept,htx.trans ?_⟩
      rw [ih.2,← hsent]
    | announceNode _ =>
      obtain ⟨hkept,hsent,htx⟩ := announceNode_kept (P := P) ih.1
      refine ⟨hkept,htx.trans ?_⟩
      rw [ih.2,← hsent]
    | tick _ => exact ih

/-- Whatever arrives once the stack has started, in whatever order with `app_main`: the firmware
requests one link at most, never one to its own identity, and only where it heard an announce; it
sends its hello once at most, when that link is active, on every interface and under the session
of the link. -/
theorem one_outbound_link (hc : P.CbcInverts) {identity : Identity} {tcp : Bool}
    {readings : List Event → Readings} {impl : Nat → InterfaceImpl} {r : Rng} {n : Node}
    (hboot : boot P identity tcp readings impl r = .ok (a,n)) {b : Board} (h : a.Run P n b) :
    (∀ i l, b.node.link? i = some l → l.initiator = true → outLink b.node = some i ∧
      ∃ peer, l.destination.identity = some peer ∧ peer.hash ≠ a.identity.hash ∧
        ∃ cb dh appData packet, .announce cb dh peer appData packet ∈ b.node.log ∧
          dh ≠ a.dest.hash) ∧
    b.linkTx = (if b.helloSent then 1 else 0) ∧
    (b.helloSent = true → ∃ i l c, outLink b.node = some i ∧ b.node.link? i = some l ∧
      l.status = .active ∧ l.Opens P c (helloText a) ∧ ∀ iface ∈ b.node.interfaces,
        .sendOutgoing iface (linkFrame .data l.hash Context.none c) (.link i) ∈ b.node.log) := by
  obtain ⟨hkept,htx⟩ := run_kept hc (boot_kept hboot) h
  refine ⟨fun i l hl hi => hkept.outbound hl hi,htx,fun hs => ?_⟩
  rw [hkept.interfaces]
  exact hkept.greeted hs

end

def App.turn (P : Platform) (a : App) (b : Board) : Option Bytes → Option Board
  | some raw => (b.node.inbound P (a.env P) raw (some 0)).toOption.map fun n =>
    { b with node := n }
  | none =>
    match b.phase with
    | .hello => some { a.hello P b with phase := .announce }
    | .announce => some (a.announce P 0 b)
    | .announceNode => some (a.announceNode P b)
    | .rest => some { b with phase := .hello, tick := b.tick+1 }
    | p => (a.start p).bind fun call => (exec P (a.env P) call.1 b.node).toOption.map fun n =>
      { b with node := n, phase := call.2 }

theorem turn_step {P : Platform} {a : App} {b c : Board} {frame : Option Bytes}
    (h : a.turn P b frame = some c) : App.Step P a b c := by
  have toOption {n : Node} {x : Except Fault Node} (hx : x.toOption = some n) : x = .ok n := by
    cases x <;> cases hx
    rfl
  cases frame with
  | some raw =>
    obtain ⟨n,hn,rfl⟩ := Option.map_eq_some_iff.mp h
    exact .inbound (toOption hn)
  | none =>
    have hstart (h : ((a.start b.phase).bind fun call =>
        (exec P (a.env P) call.1 b.node).toOption.map fun n =>
          { b with node := n, phase := call.2 }) = some c) : App.Step P a b c := by
      obtain ⟨call,hcall,hn⟩ := Option.bind_eq_some_iff.mp h
      obtain ⟨u,hu,rfl⟩ := Option.map_eq_some_iff.mp hn
      exact .start hcall (toOption hu)
    cases hp : b.phase <;> simp only [App.turn,hp,Option.some.injEq] at h
    case hello => exact h ▸ .hello hp
    case announce => exact h ▸ .announce 0 hp
    case announceNode => exact h ▸ .announceNode hp
    case rest => exact h ▸ .tick hp
    all_goals exact hstart (hp ▸ h)

def App.turns (P : Platform) (a : App) (frames : List (Option Bytes)) (b : Board) :
    Option Board := frames.foldlM (a.turn P) b

theorem turns_run {P : Platform} {a : App} {frames : List (Option Bytes)} {b c : Board}
    (h : a.turns P frames b = some c) : Relation.ReflTransGen (App.Step P a) b c := by
  induction frames generalizing b with
  | nil => cases h; exact .refl
  | cons frame frames ih =>
    obtain ⟨b',hb',h⟩ := Option.bind_eq_some_iff.mp h
    exact .head (turn_step hb') (ih h)

def lastSent (n : Node) : Bytes := (n.log.findSome? Event.sent?).getD []

namespace Sample

def identity (seed : Nat) : Identity :=
  (Identity.createKeys RNS.Sample.platform .blank (RNS.Sample.rng seed)).1

def readings : Readings :=
  ⟨93784,120,100,-60,3987,fun _ => 0,List.replicate 2048 0,List.length_replicate⟩

def impl : Nat → InterfaceImpl := fun _ => ⟨[],false,0,0⟩

def booted (key seed : Nat) : Except Fault (App × Node) :=
  boot RNS.Sample.platform (identity key) false (fun _ => readings) impl (RNS.Sample.rng seed)

end Sample

/-- Two boards. The first is asked for a link before `NomadnetNode::start` and once more after it;
the second hears the first before it gets there itself, and sends its hello. -/
theorem exists_met : ∃ (a b : App) (n m : Node) (A B : Board),
    Sample.booted 9 8 = .ok (a,n) ∧ Sample.booted 7 6 = .ok (b,m) ∧
    a.Run Sample.platform n A ∧ b.Run Sample.platform m B ∧
    (B.helloSent = true ∧ outLink B.node = some 0) ∧ A.node.linkHeap.length = 2 ∧
    A.node.log.filterMap (Event.handed 0 0) = [helloText b] := by
  obtain ⟨⟨a,n⟩,ha,hq⟩ := ok_of_any (x := Sample.booted 9 8)
    (q := fun x : App × Node => (Sample.booted 7 6).toOption.any fun y : App × Node =>
        (RNS.announceFrame Sample.platform x.1.dest [] (Sample.rng 4)).toOption.any
          fun announce : Bytes × Rng =>
        (y.1.turns Sample.platform [some announce.1] (Board.start y.2)).any fun B₁ : Board =>
        (x.1.turns Sample.platform [some (lastSent B₁.node)] (Board.start x.2)).any
          fun A₁ : Board =>
        (y.1.turns Sample.platform [some (lastSent A₁.node),none,none,none,none,none] B₁).any
          fun B : Board =>
        (x.1.turns Sample.platform [some (lastSent B.node),none,none,none,none,
          some (lastSent B₁.node)] A₁).any fun A : Board =>
        decide ((B.helloSent = true ∧ outLink B.node = some 0) ∧ A.node.linkHeap.length = 2 ∧
          A.node.log.filterMap (Event.handed 0 0) = [helloText y.1])) (by decide +kernel)
  obtain ⟨⟨b,m⟩,hb,hq⟩ := ok_of_any hq
  obtain ⟨announce,-,hq⟩ := ok_of_any hq
  obtain ⟨B₁,hB₁,hq⟩ := (Option.any_eq_true _ _).mp hq
  obtain ⟨A₁,hA₁,hq⟩ := (Option.any_eq_true _ _).mp hq
  obtain ⟨B,hB,hq⟩ := (Option.any_eq_true _ _).mp hq
  obtain ⟨A,hA,hq⟩ := (Option.any_eq_true _ _).mp hq
  obtain ⟨hhello,hlinks,hheard⟩ := of_decide_eq_true hq
  exact ⟨a,b,n,m,A,B,ha,hb,(turns_run hA₁).trans (turns_run hA),
    (turns_run hB₁).trans (turns_run hB),hhello,hlinks,hheard⟩

theorem one_outbound_link_met : ∃ (b : App) (B : Board) (l : Link) (c : Bytes),
    B.helloSent = true ∧ B.linkTx = 1 ∧ B.node.link? 0 = some l ∧
    l.Opens Sample.platform c (helloText b) ∧ ∀ iface ∈ B.node.interfaces,
      .sendOutgoing iface (linkFrame .data l.hash Context.none c) (.link 0) ∈ B.node.log := by
  obtain ⟨-,b,-,m,-,B,-,hb,-,hB,⟨hsent,hout⟩,-⟩ := exists_met
  obtain ⟨-,htx,hgreeted⟩ := one_outbound_link Sample.cbcInverts hb hB
  obtain ⟨i,l,c,hi,hl,-,hopens,hgreeted⟩ := hgreeted hsent
  cases hout.symm.trans hi
  exact ⟨b,B,l,c,hsent,htx.trans (by rw [hsent]; rfl),hl,hopens,hgreeted⟩

end HeltecV3.Main
