import RTReticulum.Ble
import RTReticulum.Modem
import Mathlib.Data.List.Forall2

/-! `rnode_ble_bridge.cpp`: the connection of a central, the notifications it gets, and the main
loop. The events of the Bluetooth host come at any time, also between two notifications. -/
set_option autoImplicit false

namespace HeltecV3.RNodeBleBridge
open RNS RNodeKiss Stuffing List Mealy

def wire (x : UInt8 × Bytes) : Bytes := (Effect.frame x.1 x.2).wire

/-- What is left of a frame that is cut: its command, and a first part of its payload. -/
def Cut (x y : UInt8 × Bytes) : Prop := x.1 = y.1 ∧ x.2 <+: y.2

/-- A parser that has read some start of a frame takes it for a frame at the next FEND. -/
theorem feed_cut (f : Frame) {a : Bytes} (h : a <+: f.opening ++ [fend]) (p : Parser) :
    ∃ r, (p.feed a).2 ++ (p.feed a).1.handled = p.handled ++ r ∧
      (r = [] ∨ ∃ data, r = [(f.cmd,data)] ∧ data <+: f.payload) := by
  by_cases hwhole : a = f.opening ++ [fend]
  · refine ⟨[(f.cmd,f.payload)],?_,.inr ⟨_,rfl,List.prefix_refl _⟩⟩
    rw [hwhole,Parser.feed_append,f.feed_opening]
    simp [Parser.feed,Parser.feedByte_fend,f.handled_eq]
  cases a with
  | nil => exact ⟨[],by simp [Parser.feed],.inl rfl⟩
  | cons b a =>
    obtain ⟨rfl,ha⟩ := List.cons_prefix_cons.mp h
    cases a with
    | nil =>
      refine ⟨[],?_,.inl rfl⟩
      simp [Parser.feed,Parser.feedByte_fend]
    | cons b w =>
      obtain ⟨rfl,hw⟩ := List.cons_prefix_cons.mp ha
      have hw : w <+: code.stuff f.payload := by
        rcases List.prefix_concat_iff.mp hw with rfl | hw
        · exact absurd rfl hwhole
        · exact hw
      obtain ⟨part,rest,rfl,hpart,hrest⟩ := code.prefix_stuff hw
      have hfend : fend ∉ code.stuff part ++ rest := fun hmem =>
        code.flag_not_mem_stuff f.payload (hw.subset hmem)
      have hle : part.length ≤ frameMax := hpart.length_le.trans f.payload_le
      have hfeed := Parser.feed_payload f.cmd_ne_unknown _ hfend ⟨false,[]⟩
      have hbuf : ((code.stuff part ++ rest).foldl (code.accept frameMax) ⟨false,[]⟩).buf =
          part := by
        rw [List.foldl_append,code.foldl_accept_stuff part (Nat.zero_le _),List.nil_append,
          List.take_of_length_le hle]
        rcases hrest with rfl | rfl
        · rfl
        · simp [Code.accept]
      refine ⟨[(f.cmd,part)],?_,.inr ⟨part,rfl,hpart⟩⟩
      simp only [Parser.feed,Parser.feedByte_fend,Parser.feedByte_cmd f.cmd_ne_fend,hfeed,hbuf,
        List.append_nil,Parser.handled]
      simp [f.cmd_ne_unknown]

theorem wire_frame (f : Frame) : wire (f.cmd,f.payload) = f.opening ++ [fend] := by
  simp [wire,Effect.wire,f.sendFrame]

theorem exists_frame {x : UInt8 × Bytes} (h : (Effect.frame x.1 x.2).Fits) :
    ∃ f : Frame, (f.cmd,f.payload) = x := ⟨⟨x.1,x.2,h.1,h.2.1,h.2.2⟩,rfl⟩

theorem wire_tail {x : UInt8 × Bytes} (h : (Effect.frame x.1 x.2).Fits) :
    ∃ body, wire x = fend :: (body ++ [fend]) ∧ fend ∉ body := by
  obtain ⟨f,rfl⟩ := exists_frame h
  refine ⟨f.cmd :: code.stuff f.payload,wire_frame f,fun hmem => ?_⟩
  rcases List.mem_cons.mp hmem with hcmd | hstuff
  · exact f.cmd_ne_fend hcmd.symm
  · exact code.flag_not_mem_stuff f.payload hstuff

theorem feed_cuts {cuts : List ((UInt8 × Bytes) × Bytes)}
    (h : ∀ c ∈ cuts, (Effect.frame c.1.1 c.1.2).Fits ∧ c.2 <+: wire c.1) (p : Parser) :
    ∃ r, (p.feed (cuts.flatMap Prod.snd)).2 ++ (p.feed (cuts.flatMap Prod.snd)).1.handled =
        p.handled ++ r ∧ SublistForall₂ Cut r (cuts.map Prod.fst) := by
  induction cuts generalizing p with
  | nil => exact ⟨[],by simp [Parser.feed],.nil⟩
  | cons c cuts ih =>
    obtain ⟨hfits,hcut⟩ := h c List.mem_cons_self
    obtain ⟨f,hf⟩ := exists_frame hfits
    rw [← hf,wire_frame] at hcut
    obtain ⟨r,hr,hshape⟩ := feed_cut f hcut p
    obtain ⟨r',hr',hsub⟩ := ih (fun d hd => h d (List.mem_cons_of_mem c hd)) (p.feed c.2).1
    refine ⟨r ++ r',?_,?_⟩
    · rw [List.flatMap_cons,Parser.feed_append]
      dsimp only
      rw [List.append_assoc,hr',← List.append_assoc,hr,List.append_assoc]
    · rw [List.map_cons,← hf]
      rcases hshape with rfl | ⟨data,rfl,hdata⟩
      · exact .cons_right hsub
      · exact .cons ⟨rfl,hdata⟩ hsub

theorem feed_wholes {xs : List (UInt8 × Bytes)} (h : ∀ x ∈ xs, (Effect.frame x.1 x.2).Fits) :
    (Parser.boot.feed (xs.flatMap wire)).2 = xs := by
  have hfits : ∀ e ∈ xs.map fun x => Effect.frame x.1 x.2, e.Fits := by
    rintro e he
    obtain ⟨x,hx,rfl⟩ := List.mem_map.mp he
    exact h x hx
  have hframes := hostFrames_eq hfits
  rw [hostFrames,List.flatMap_map,List.filterMap_map] at hframes
  refine hframes.trans ?_
  exact List.filterMap_some

/-- The rest of a frame whose start went to another central. -/
theorem feed_rest {bs : Bytes} (h : fend ∉ bs.dropLast) :
    (Parser.boot.feed bs).2 = [] ∧ (Parser.boot.feed bs).1.handled = [] := by
  have hboot {bs : Bytes} (h : fend ∉ bs) : Parser.boot.feed bs = (Parser.boot,[]) := by
    induction bs with
    | nil => rfl
    | cons b bs ih =>
      have hb : b ≠ fend := fun heq => h (heq ▸ List.mem_cons_self)
      have hbyte : Parser.boot.feedByte b = (Parser.boot,[]) := by
        rw [Parser.feedByte,if_neg hb]
        rfl
      rw [Parser.feed,hbyte,ih fun hmem => h (List.mem_cons_of_mem b hmem)]
      rfl
  cases bs using List.reverseRecOn with
  | nil => exact ⟨rfl,rfl⟩
  | append_singleton bs b =>
    rw [List.dropLast_concat] at h
    rw [Parser.feed_append,hboot h]
    by_cases hb : b = fend
    · subst hb
      exact ⟨rfl,rfl⟩
    · have hclean : fend ∉ [b] := by simpa using Ne.symm hb
      rw [hboot hclean]
      exact ⟨rfl,rfl⟩

inductive Action where
  | feedByte (x : Input)
  /-- `indicate_ready`, for a central that has subscribed. -/
  | ready
  deriving DecidableEq

def Action.input : Action → Option Input
  | .feedByte x => some x
  | .ready => none

def act : Machine Bridge Action Effect := fun s a =>
  match a with
  | .feedByte x => s.feedByte true x
  | .ready => (s,[indicateReady])

def replies (acts : List Action) : List (UInt8 × Bytes) :=
  (run act .boot acts).2.filterMap Effect.sent

/-- The bridge over Bluetooth: the ring, the core, what the events of the Bluetooth host set, the
frames that are still to be sent for the last action, and the one that `ble_tx_sink` is at with
what is left of it. The last five are what has happened so far: the actions, the frames handed to
`g_tx`, and, since the central connected, the bytes it was notified, the frames begun, and whether
all of these went out whole. -/
structure BleBridge where
  ring : RxRing
  core : Bridge
  connHandle : Option Nat
  notifyMtu : Nat
  pendingReady : Bool
  advertising : Bool
  outgoing : List (UInt8 × Bytes)
  sink : Option ((UInt8 × Bytes) × Bytes)
  acts : List Action
  handed : List (UInt8 × Bytes)
  session : Bytes
  since : List (UInt8 × Bytes)
  whole : Bool

namespace BleBridge

/-- After `on_sync`, which advertises. -/
def boot : BleBridge where
  ring := .boot
  core := .boot
  connHandle := none
  notifyMtu := 20
  pendingReady := false
  advertising := true
  outgoing := []
  sink := none
  acts := []
  handed := []
  session := []
  since := []
  whole := true

def Still (s : BleBridge) : Prop := s.outgoing = [] ∧ s.sink = none

inductive Step : BleBridge → BleBridge → Prop where
  /-- `BLE_GAP_EVENT_CONNECT`: the connection ends the advertising, and a failed one restarts
  it. A frame that is being sent goes on to the new central. -/
  | connect {s : BleBridge} (handle : Nat) : s.advertising = true →
      Step s { s with
        connHandle := some handle, notifyMtu := 20, advertising := false
        session := [], since := s.sink.toList.map Prod.fst, whole := s.sink.isNone }
  | connectFailed {s : BleBridge} : s.advertising = true → Step s s
  | disconnect {s : BleBridge} : s.connHandle.isSome →
      Step s { s with connHandle := none, notifyMtu := 20, advertising := true }
  | mtu {s : BleBridge} (value : Nat) : s.connHandle.isSome →
      Step s { s with notifyMtu := if value > 3 then value-3 else s.notifyMtu }
  | subscribe {s : BleBridge} (curNotify : Bool) : s.connHandle.isSome →
      Step s { s with pendingReady := s.pendingReady || curNotify }
  /-- `nus_access_cb`. -/
  | access {s : BleBridge} {r : RxRing} : RxRing.Step s.ring r → r.consumer = s.ring.consumer →
      Step s { s with ring := r }
  | ready {s : BleBridge} : s.Still → s.ring.consumer = .away → s.pendingReady = true →
      s.connHandle.isSome →
      Step s { s with
        pendingReady := false, outgoing := [(cmdReady,[0x01])], acts := s.acts ++ [.ready] }
  /-- A statement of the loop that drains the ring, but for the call of `feed_byte`. -/
  | drain {s : BleBridge} {r : RxRing} : s.Still → RxRing.Step s.ring r →
      (∀ b, r.consumer ≠ .feedByte b) → Step s { s with ring := r }
  | feedByte {s : BleBridge} {r : RxRing} (x : Input) : s.Still → RxRing.Step s.ring r →
      r.consumer = .feedByte x.byte → r.handed = s.ring.handed ++ [x.byte] →
      Step s { s with
        ring := r, core := (s.core.feedByte true x).1
        outgoing := (s.core.feedByte true x).2.filterMap Effect.sent
        acts := s.acts ++ [.feedByte x] }
  /-- `ble_tx_sink` is called; without a connection it returns at once. -/
  | unheard {s : BleBridge} {x : UInt8 × Bytes} {xs : List (UInt8 × Bytes)} : s.sink = none →
      s.outgoing = x :: xs → s.connHandle = none →
      Step s { s with outgoing := xs, handed := s.handed ++ [x] }
  | sink {s : BleBridge} {x : UInt8 × Bytes} {xs : List (UInt8 × Bytes)} : s.sink = none →
      s.outgoing = x :: xs → s.connHandle.isSome →
      Step s { s with
        outgoing := xs, sink := some (x,wire x), handed := s.handed ++ [x]
        since := s.since ++ [x] }
  | notify {s : BleBridge} {x : UInt8 × Bytes} {rest : Bytes} : s.sink = some (x,rest) →
      rest ≠ [] → s.connHandle.isSome →
      Step s { s with
        sink := some (x,rest.drop s.notifyMtu), session := s.session ++ rest.take s.notifyMtu }
  | notifyFailed {s : BleBridge} {x : UInt8 × Bytes} {rest : Bytes} : s.sink = some (x,rest) →
      rest ≠ [] → Step s { s with sink := none, whole := false }
  | sunk {s : BleBridge} {x : UInt8 × Bytes} : s.sink = some (x,[]) →
      Step s { s with sink := none }

abbrev Run (s : BleBridge) : Prop := Relation.ReflTransGen Step boot s

/-- What the central was notified, in parts: the rest of a frame whose start went to another, and
the frames begun since. -/
structure Parts (s : BleBridge) (front : Bytes) (cuts : List ((UInt8 × Bytes) × Bytes)) : Prop where
  session : s.session = front ++ cuts.flatMap Prod.snd
  since : cuts.map Prod.fst <:+ s.since
  cut : ∀ c ∈ cuts, c.2 <+: wire c.1
  clean : fend ∉ front.dropLast
  whole : s.whole = true → front = [] ∧ cuts.map Prod.fst = s.since
  all : s.whole = true → s.sink = none → ∀ c ∈ cuts, c.2 = wire c.1
  /-- The last one is being sent, or the rest is. -/
  sink : ∀ x rest, s.sink = some (x,rest) →
    (∃ cs a, cuts = cs ++ [(x,a)] ∧ a ++ rest = wire x ∧
      (s.whole = true → ∀ c ∈ cs, c.2 = wire c.1)) ∨
    (cuts = [] ∧ s.whole = false ∧ fend ∉ (front ++ rest).dropLast)

structure Inv (s : BleBridge) : Prop where
  ring : s.ring.Inv
  core : (run act .boot s.acts).1 = s.core
  fed : (s.acts.filterMap Action.input).map Input.byte = s.ring.handed
  frames : s.handed ++ s.outgoing = replies s.acts
  since : s.since.Sublist s.handed
  last : ∀ x rest, s.sink = some (x,rest) → [x] <:+ s.handed
  found : s.advertising = true ↔ s.connHandle = none
  mtu : 1 ≤ s.notifyMtu
  parts : ∃ front cuts, s.Parts front cuts

variable {s t : BleBridge}

theorem boot_inv : boot.Inv where
  ring := RxRing.boot_inv
  core := rfl
  fed := rfl
  frames := rfl
  since := List.Sublist.refl _
  last x rest h := by cases h
  found := ⟨fun _ => rfl,fun _ => rfl⟩
  mtu := by decide
  parts := ⟨[],[],rfl,List.suffix_refl _,fun c hc => (by cases hc),by decide,
    fun _ => ⟨rfl,rfl⟩,fun _ _ c hc => (by cases hc),fun x rest h => by cases h⟩

theorem act_fits (s : Bridge) (a : Action) : ∀ e ∈ (act s a).2, e.Fits := by
  cases a with
  | feedByte x => exact Bridge.handleAll_fits true x _ _
  | ready =>
    intro e he
    rw [List.mem_singleton.mp he]
    exact ⟨by decide,by decide,show 1 ≤ 600 by decide⟩

theorem replies_fits (acts : List Action) :
    ∀ x ∈ replies acts, (Effect.frame x.1 x.2).Fits := by
  intro x hx
  obtain ⟨e,he,hsent⟩ := List.mem_filterMap.mp hx
  have hfits := run_emits act_fits .boot acts e he
  cases e with
  | frame cmd data =>
    cases hsent
    exact hfits
  | set y accepted => cases hsent
  | sendRaw random data => cases hsent

theorem replies_concat (acts : List Action) (a : Action) : replies (acts ++ [a]) =
    replies acts ++ (act (run act .boot acts).1 a).2.filterMap Effect.sent := by
  simp [replies,run_append,List.filterMap_append]

theorem Inv.handed_fits (h : s.Inv) : ∀ x ∈ s.handed, (Effect.frame x.1 x.2).Fits :=
  fun x hx => replies_fits s.acts x (h.frames ▸ List.mem_append_left _ hx)

theorem not_mem_dropLast_left {a b : Bytes} (h : fend ∉ (a ++ b).dropLast) :
    fend ∉ a.dropLast := by
  cases b with
  | nil => simpa using h
  | cons x b =>
    rw [List.dropLast_append_of_ne_nil (List.cons_ne_nil x b)] at h
    exact fun hmem => h (List.mem_append_left _ (List.dropLast_subset a hmem))

theorem not_mem_dropLast_right {a b : Bytes} (h : fend ∉ (a ++ b).dropLast) :
    fend ∉ b.dropLast := by
  cases b with
  | nil => simp
  | cons x b =>
    rw [List.dropLast_append_of_ne_nil (List.cons_ne_nil x b)] at h
    exact fun hmem => h (List.mem_append_right _ hmem)

theorem Parts.connect {x : UInt8 × Bytes} {rest front : Bytes}
    {cuts : List ((UInt8 × Bytes) × Bytes)} (h : s.Parts front cuts)
    (hfits : (Effect.frame x.1 x.2).Fits) (hsink : s.sink = some (x,rest)) (handle : Nat) :
    ∃ front cuts, ({ s with
      connHandle := some handle, notifyMtu := 20, advertising := false
      session := [], since := [x], whole := false } : BleBridge).Parts front cuts := by
  have hrest (hrest : fend ∉ rest.dropLast) : ({ s with
      connHandle := some handle, notifyMtu := 20, advertising := false
      session := [], since := [x], whole := false } : BleBridge).Parts [] [] := by
    refine ⟨rfl,List.nil_suffix,fun c hc => (by cases hc),by simp,fun h => (by cases h),
      fun h => (by cases h),fun y r hy => .inr ⟨rfl,rfl,?_⟩⟩
    cases hsink.symm.trans hy
    exact hrest
  rcases h.sink x rest hsink with ⟨cs,a,rfl,ha,-⟩ | ⟨rfl,-,htail⟩
  · cases a with
    | nil =>
      refine ⟨[],[(x,[])],rfl,List.suffix_refl _,?_,by simp,fun h => (by cases h),
        fun h => (by cases h),fun y r hy => .inl ⟨[],[],?_,?_,fun h => by cases h⟩⟩
      · intro c hc
        rw [List.mem_singleton.mp hc]
        exact List.nil_prefix
      · cases hsink.symm.trans hy
        rfl
      · cases hsink.symm.trans hy
        exact ha
    | cons b a =>
      obtain ⟨body,hwire,hbody⟩ := wire_tail hfits
      rw [hwire] at ha
      have ha : a ++ rest = body ++ [fend] := (List.cons.inj ha).2
      refine ⟨[],[],hrest (not_mem_dropLast_right (a := a) ?_)⟩
      rwa [ha,List.dropLast_concat]
  · exact ⟨[],[],hrest (not_mem_dropLast_right htail)⟩

theorem Parts.congr {front : Bytes} {cuts : List ((UInt8 × Bytes) × Bytes)}
    (h : s.Parts front cuts) (hsession : t.session = s.session) (hsince : t.since = s.since)
    (hwhole : t.whole = s.whole) (hsink : t.sink = s.sink) : t.Parts front cuts where
  session := hsession.trans h.session
  since := hsince ▸ h.since
  cut := h.cut
  clean := h.clean
  whole ht := by
    rw [hsince]
    exact h.whole (hwhole ▸ ht)
  all ht hs := h.all (hwhole ▸ ht) (hsink ▸ hs)
  sink x rest hs := by
    rw [hwhole]
    exact h.sink x rest (hsink ▸ hs)

theorem Parts.begin {front : Bytes} {cuts : List ((UInt8 × Bytes) × Bytes)} (h : s.Parts front cuts)
    (hsink : s.sink = none) (x : UInt8 × Bytes) (xs : List (UInt8 × Bytes)) :
    ({ s with
      outgoing := xs, sink := some (x,wire x), handed := s.handed ++ [x]
      since := s.since ++ [x] } : BleBridge).Parts front (cuts ++ [(x,[])]) where
  session := by simpa using h.session
  since := by
    obtain ⟨before,hbefore⟩ := h.since
    exact ⟨before,by simp [← hbefore]⟩
  cut c hc := by
    rcases List.mem_append.mp hc with hc | hc
    · exact h.cut c hc
    · rw [List.mem_singleton.mp hc]
      exact List.nil_prefix
  clean := h.clean
  whole hw := ⟨(h.whole hw).1,by simp [(h.whole hw).2]⟩
  all _ hs := by cases hs
  sink y rest hs := by
    cases hs
    exact .inl ⟨cuts,[],rfl,rfl,fun hw => h.all hw hsink⟩

theorem Parts.notify {front rest : Bytes} {cuts : List ((UInt8 × Bytes) × Bytes)}
    {x : UInt8 × Bytes} (h : s.Parts front cuts) (hsink : s.sink = some (x,rest)) (n : Nat) :
    ∃ front cuts, ({ s with
      sink := some (x,rest.drop n), session := s.session ++ rest.take n } :
        BleBridge).Parts front cuts := by
  rcases h.sink x rest hsink with ⟨cs,a,rfl,ha,hcs⟩ | ⟨rfl,hw,htail⟩
  · have ha : a ++ rest.take n ++ rest.drop n = wire x := by
      rw [List.append_assoc,List.take_append_drop,ha]
    refine ⟨front,cs ++ [(x,a ++ rest.take n)],?_,?_,fun c hc => ?_,h.clean,fun hw => ?_,
      fun _ hs => (by cases hs),fun y r hs => ?_⟩
    · simp [h.session]
    · simpa using h.since
    · rcases List.mem_append.mp hc with hc | hc
      · exact h.cut c (List.mem_append_left _ hc)
      · rw [List.mem_singleton.mp hc,← ha]
        exact List.prefix_append _ _
    · exact ⟨(h.whole hw).1,by simpa using (h.whole hw).2⟩
    · cases hs
      exact .inl ⟨cs,_,rfl,ha,hcs⟩
  · have htail' : fend ∉ (front ++ rest.take n ++ rest.drop n).dropLast := by
      rwa [List.append_assoc,List.take_append_drop]
    refine ⟨front ++ rest.take n,[],?_,h.since,fun c hc => (by cases hc),
      not_mem_dropLast_left htail',fun h => ?_,fun _ hs => (by cases hs),fun y r hs => ?_⟩
    · simp [h.session]
    · exact absurd (hw.symm.trans h) Bool.false_ne_true
    · cases hs
      exact .inr ⟨rfl,hw,htail'⟩

theorem Parts.failed {front : Bytes} {cuts : List ((UInt8 × Bytes) × Bytes)}
    (h : s.Parts front cuts) :
    ({ s with sink := none, whole := false } : BleBridge).Parts front cuts :=
  ⟨h.session,h.since,h.cut,h.clean,fun h => (by cases h),fun h => (by cases h),
    fun x rest h => by cases h⟩

theorem Parts.sunk {front : Bytes} {cuts : List ((UInt8 × Bytes) × Bytes)} {x : UInt8 × Bytes}
    (h : s.Parts front cuts) (hsink : s.sink = some (x,[])) :
    ({ s with sink := none } : BleBridge).Parts front cuts where
  session := h.session
  since := h.since
  cut := h.cut
  clean := h.clean
  whole := h.whole
  all hw _ c hc := by
    rcases h.sink x [] hsink with ⟨cs,a,rfl,ha,hcs⟩ | ⟨-,hf,-⟩
    · rcases List.mem_append.mp hc with hc | hc
      · exact hcs hw c hc
      · rw [List.mem_singleton.mp hc,← ha,List.append_nil]
    · exact absurd (hf.symm.trans hw) Bool.false_ne_true
  sink x rest h := by cases h

theorem Inv.acted (h : s.Inv) (hstill : s.Still) {r : RxRing} (hr : r.Inv) (a : Action)
    (pending : Bool) (hfed : r.handed = s.ring.handed ++ a.input.toList.map Input.byte) :
    ({ s with
      ring := r, core := (act s.core a).1, pendingReady := pending
      outgoing := (act s.core a).2.filterMap Effect.sent, acts := s.acts ++ [a] } :
        BleBridge).Inv where
  ring := hr
  core := by rw [run_append,h.core,run_singleton]
  fed := by
    rw [hfed,← h.fed,List.filterMap_append,List.map_append]
    cases a <;> rfl
  frames := by
    have hframes := h.frames
    rw [hstill.1,List.append_nil] at hframes
    rw [replies_concat,h.core,hframes]
  since := h.since
  last := h.last
  found := h.found
  mtu := h.mtu
  parts := by
    obtain ⟨front,cuts,hparts⟩ := h.parts
    exact ⟨front,cuts,hparts.congr rfl rfl rfl rfl⟩

theorem step_inv (h : s.Inv) (hst : Step s t) : t.Inv := by
  obtain ⟨front,cuts,hparts⟩ := h.parts
  cases hst with
  | connect handle hadv =>
    refine ⟨h.ring,h.core,h.fed,h.frames,?_,h.last,⟨fun h => (by cases h),fun h => by cases h⟩,
      show 1 ≤ 20 by decide,?_⟩
    · cases hsink : s.sink with
      | none => exact List.nil_sublist _
      | some q => exact (h.last q.1 q.2 hsink).sublist
    · cases hsink : s.sink with
      | none =>
        exact ⟨[],[],rfl,List.suffix_refl _,fun c hc => (by cases hc),by simp,
          fun _ => ⟨rfl,rfl⟩,fun _ _ c hc => (by cases hc),fun x rest hx => by cases hx⟩
      | some q =>
        obtain ⟨hs,hhanded⟩ := h.last q.1 q.2 hsink
        have hfits := h.handed_fits q.1 (hhanded ▸ List.mem_append_right _ List.mem_cons_self)
        have hconnect := hparts.connect hfits hsink handle
        rw [hsink] at hconnect
        exact hconnect
  | connectFailed hadv => exact h
  | disconnect hconn =>
    exact ⟨h.ring,h.core,h.fed,h.frames,h.since,h.last,⟨fun _ => rfl,fun _ => rfl⟩,
      show 1 ≤ 20 by decide,front,cuts,hparts.congr rfl rfl rfl rfl⟩
  | mtu value hconn =>
    refine ⟨h.ring,h.core,h.fed,h.frames,h.since,h.last,h.found,?_,front,cuts,
      hparts.congr rfl rfl rfl rfl⟩
    have hmtu := h.mtu
    show 1 ≤ if value > 3 then value-3 else s.notifyMtu
    split <;> omega
  | subscribe curNotify hconn =>
    exact ⟨h.ring,h.core,h.fed,h.frames,h.since,h.last,h.found,h.mtu,front,cuts,
      hparts.congr rfl rfl rfl rfl⟩
  | access hr hsame =>
    refine ⟨RxRing.step_inv h.ring hr,h.core,h.fed.trans ?_,h.frames,h.since,h.last,h.found,
      h.mtu,front,cuts,hparts.congr rfl rfl rfl rfl⟩
    cases hr <;> simp_all
  | ready hstill haway hpending hconn =>
    exact h.acted hstill h.ring .ready false (by simp [Action.input])
  | drain hstill hr hne =>
    refine ⟨RxRing.step_inv h.ring hr,h.core,h.fed.trans ?_,h.frames,h.since,h.last,h.found,
      h.mtu,front,cuts,hparts.congr rfl rfl rfl rfl⟩
    cases hr <;> simp_all
  | feedByte x hstill hr hfeed hhanded =>
    exact h.acted hstill (RxRing.step_inv h.ring hr) (.feedByte x) s.pendingReady hhanded
  | @unheard x xs hsink hout hconn =>
    refine ⟨h.ring,h.core,h.fed,?_,h.since.trans (List.sublist_append_left _ _),
      fun y rest hy => ?_,h.found,h.mtu,front,cuts,hparts.congr rfl rfl rfl rfl⟩
    · rw [← h.frames,hout]
      exact List.append_assoc _ _ _
    · cases hsink.symm.trans hy
  | @sink x xs hsink hout hconn =>
    refine ⟨h.ring,h.core,h.fed,?_,h.since.append_right [x],fun y rest hy => ?_,h.found,h.mtu,
      front,_,hparts.begin hsink x xs⟩
    · rw [← h.frames,hout]
      exact List.append_assoc _ _ _
    · cases hy
      exact List.suffix_append _ _
  | @notify x rest hsink hne hconn =>
    refine ⟨h.ring,h.core,h.fed,h.frames,h.since,fun y r hy => ?_,h.found,h.mtu,
      hparts.notify hsink s.notifyMtu⟩
    cases hy
    exact h.last x rest hsink
  | notifyFailed hsink hne =>
    exact ⟨h.ring,h.core,h.fed,h.frames,h.since,fun y r hy => (by cases hy),h.found,h.mtu,front,
      cuts,hparts.failed⟩
  | sunk hsink =>
    exact ⟨h.ring,h.core,h.fed,h.frames,h.since,fun y r hy => (by cases hy),h.found,h.mtu,front,
      cuts,hparts.sunk hsink⟩

theorem run_inv (h : Run s) : s.Inv := by
  induction h with
  | refl => exact boot_inv
  | tail _ hst ih => exact step_inv ih hst

theorem sublistForall₂_of_append {R : UInt8 × Bytes → UInt8 × Bytes → Prop}
    {a b l : List (UInt8 × Bytes)} (h : SublistForall₂ R (a ++ b) l) : SublistForall₂ R a l := by
  induction l generalizing a with
  | nil =>
    cases a with
    | nil => exact .nil
    | cons x a => cases h
  | cons y l ih =>
    cases a with
    | nil => exact .nil
    | cons x a =>
      cases h with
      | cons hxy h => exact .cons hxy (ih h)
      | cons_right h => exact .cons_right (ih h)

theorem sublistForall₂_of_sublist {R : UInt8 × Bytes → UInt8 × Bytes → Prop}
    {a l l' : List (UInt8 × Bytes)} (h : SublistForall₂ R a l) (hsub : l.Sublist l') :
    SublistForall₂ R a l' := by
  rw [sublistForall₂_iff] at h ⊢
  obtain ⟨k,hk,hkl⟩ := h
  exact ⟨k,hk,hkl.trans hsub⟩

/-- Whatever connects, drops, and fails in between: the frames handed to the sink are the replies
to the first bytes accepted from the ring, and to the subscriptions; and since it connected, the
central reads of those begun each at most once, in order, none made up, cut at most at its end,
and all of them as they are if none was in progress then and no notification has failed. -/
theorem central_reads (h : Run s) :
    s.handed ++ s.outgoing = replies s.acts ∧
      (s.acts.filterMap Action.input).map Input.byte <+: s.ring.accepted ∧
      s.since.Sublist s.handed ∧
      SublistForall₂ Cut (Parser.boot.feed s.session).2 s.since ∧
      (s.whole = true → s.sink = none → (Parser.boot.feed s.session).2 = s.since) := by
  have hinv := run_inv h
  obtain ⟨front,cuts,hparts⟩ := hinv.parts
  have hfits (x : UInt8 × Bytes) (hx : x ∈ cuts.map Prod.fst) : (Effect.frame x.1 x.2).Fits :=
    hinv.handed_fits x (hinv.since.subset (hparts.since.subset hx))
  refine ⟨hinv.frames,?_,hinv.since,?_,fun hwhole hsink => ?_⟩
  · rw [hinv.fed,hinv.ring.fifo]
    exact List.prefix_append _ _
  · obtain ⟨hnone,hleft⟩ := feed_rest hparts.clean
    have hcuts (c : (UInt8 × Bytes) × Bytes) (hc : c ∈ cuts) :
        (Effect.frame c.1.1 c.1.2).Fits ∧ c.2 <+: wire c.1 :=
      ⟨hfits _ (List.mem_map_of_mem hc),hparts.cut c hc⟩
    obtain ⟨r,hr,hsub⟩ := feed_cuts hcuts (Parser.boot.feed front).1
    rw [hleft,List.nil_append] at hr
    rw [hparts.session,Parser.feed_append,hnone,List.nil_append]
    rw [← hr] at hsub
    exact sublistForall₂_of_sublist (sublistForall₂_of_append hsub) hparts.since.sublist
  · obtain ⟨rfl,hsince⟩ := hparts.whole hwhole
    have hwires : cuts.flatMap Prod.snd = (cuts.map Prod.fst).flatMap wire := by
      rw [List.flatMap_map]
      exact List.flatMap_congr (hparts.all hwhole hsink)
    rw [hparts.session,List.nil_append,hwires,feed_wholes hfits,hsince]

theorem exists_subscribed : ∃ s : BleBridge, Run s ∧ s.session = [0xC0,0x0F,0x01,0xC0] ∧
    s.whole = true ∧ s.sink = none ∧ s.pendingReady = false ∧
    ∃ t, Run t ∧ Relation.ReflTransGen Step t s ∧ t.pendingReady = true := by
  have h : Run _ := .single (.connect 1 rfl)
  have h := h.tail (.subscribe true rfl)
  have k : Relation.ReflTransGen Step _ _ := .single (.ready (s := { boot with
    connHandle := some 1, advertising := false, pendingReady := true }) ⟨rfl,rfl⟩ rfl rfl rfl)
  have k := k.tail (.sink rfl rfl rfl)
  have k := k.tail (.notify rfl (by decide) rfl)
  have k := k.tail (.sunk rfl)
  exact ⟨_,h.trans k,rfl,rfl,rfl,rfl,_,h,k,rfl⟩

theorem central_reads_ready : ∃ s : BleBridge, Run s ∧
    (Parser.boot.feed s.session).2 = [(0x0F,[0x01])] ∧
    (Parser.boot.feed s.session).2 = s.since := by
  obtain ⟨s,h,hsession,hwhole,hsink,-⟩ := exists_subscribed
  exact ⟨s,h,by rw [hsession]; rfl,(central_reads h).2.2.2.2 hwhole hsink⟩

/-- A bridge without a central advertises, and only then; a notification takes at least one byte
of a frame, so that the loop of the sink ends; and a subscription is not forgotten: it stays
pending until it is answered by READY. -/
theorem central_found (h : Run s) :
    (s.advertising = true ↔ s.connHandle = none) ∧
      (∀ x rest, s.sink = some (x,rest) → rest ≠ [] →
        (rest.drop s.notifyMtu).length < rest.length) ∧
      ∀ t, Relation.ReflTransGen Step s t → ∃ acts, t.acts = s.acts ++ acts ∧
        (s.pendingReady = true → t.pendingReady = true ∨ .ready ∈ acts) := by
  have hinv := run_inv h
  refine ⟨hinv.found,fun x rest _ hne => ?_,fun t ht => ?_⟩
  · have hmtu := hinv.mtu
    have hlen := List.length_pos_iff.mpr hne
    rw [List.length_drop]
    omega
  · induction ht with
    | refl => exact ⟨[],(List.append_nil _).symm,.inl⟩
    | @tail t u _ hst ih =>
      obtain ⟨acts,hacts,hready⟩ := ih
      cases hst with
      | ready hstill haway hpending hconn =>
        exact ⟨acts ++ [.ready],by simp [hacts],fun _ => .inr (by simp)⟩
      | feedByte x hstill hr hfeed hhanded =>
        refine ⟨acts ++ [.feedByte x],by simp [hacts],fun hs => ?_⟩
        exact (hready hs).imp_right fun hmem => List.mem_append_left _ hmem
      | subscribe curNotify hconn =>
        refine ⟨acts,hacts,fun hs => (hready hs).imp_left fun hp => ?_⟩
        simp [hp]
      | _ => exact ⟨acts,hacts,hready⟩

theorem central_found_ready : ∃ s t : BleBridge, Run s ∧ s.pendingReady = true ∧
    Relation.ReflTransGen Step s t ∧ t.pendingReady = false ∧ ∃ acts, t.acts = s.acts ++ acts ∧
      .ready ∈ acts := by
  obtain ⟨t,-,-,-,-,hanswered,s,hs,ht,hpending⟩ := exists_subscribed
  obtain ⟨acts,hacts,hready⟩ := (central_found hs).2.2 t ht
  refine ⟨s,t,hs,hpending,ht,hanswered,acts,hacts,(hready hpending).resolve_left ?_⟩
  rw [hanswered]
  exact Bool.false_ne_true

end BleBridge

end HeltecV3.RNodeBleBridge
