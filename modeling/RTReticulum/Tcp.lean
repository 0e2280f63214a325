import RTReticulum.Library.Stuffing
import RTReticulum.Types

/-! `tcp_interface.cpp`: HDLC frames over the connections an interface makes one after the
other. -/
set_option autoImplicit false

namespace HeltecV3
open RNS Stuffing

abbrev hdlcFlag : UInt8 := 0x7E
abbrev hdlcEsc : UInt8 := 0x7D
abbrev hdlcEscMask : UInt8 := 0x20

def hdlc : Code UInt8 where
  flag := hdlcFlag
  esc := hdlcEsc
  mark b := b ^^^ hdlcEscMask
  unmark b := b ^^^ hdlcEscMask
  flag_ne_esc := by decide
  mark_plain := by
    intro b h
    cases h <;> subst b <;> decide
  unmark_mark := by
    intro b _
    simp

abbrev rxBytes : Nat := 600
abbrev txBytes : Nat := 1400

/-- "HDLC parser state for the TCP rx path"; of the buffer, the first `_rx_len` bytes. -/
structure HdlcParser where
  inFrame : Bool
  escape : Bool
  rxBuf : Bytes
  deriving DecidableEq

namespace HdlcParser

def fresh : HdlcParser := ⟨false,false,[]⟩

def ended (p : HdlcParser) : Option Bytes :=
  if p.inFrame ∧ p.rxBuf ≠ [] then some p.rxBuf else none

def recv (p : HdlcParser) (b : UInt8) : HdlcParser :=
  if b = hdlcFlag then ⟨true,false,[]⟩
  else if p.inFrame = false then p
  else if b = hdlcEsc then { p with escape := true }
  else
    let b := if p.escape then b ^^^ hdlcEscMask else b
    { p with
      escape := false
      rxBuf := if p.rxBuf.length < rxBytes then p.rxBuf ++ [b] else p.rxBuf }

def feed (p : HdlcParser) : Bytes → HdlcParser × List Bytes
  | [] => (p,[])
  | b :: bs =>
    let q := (p.recv b).feed bs
    (q.1,(if b = hdlcFlag then p.ended.toList else []) ++ q.2)

theorem feed_append (p : HdlcParser) (a b : Bytes) : p.feed (a ++ b) =
    (((p.feed a).1.feed b).1,(p.feed a).2 ++ ((p.feed a).1.feed b).2) := by
  induction a generalizing p with
  | nil => simp [feed]
  | cons x a ih => simp [feed,ih]

theorem feed_ne_nil (p : HdlcParser) (bs : Bytes) : ∀ f ∈ (p.feed bs).2, f ≠ [] := by
  induction bs generalizing p with
  | nil => simp [feed]
  | cons b bs ih =>
    intro f hf
    rcases List.mem_append.mp hf with h | h
    · split at h
      · rw [Option.mem_toList,ended] at h
        split at h
        · rename_i hp
          cases h
          exact hp.2
        · cases h
      · cases h
    · exact ih _ f h

def opened : HdlcParser := ⟨true,false,[]⟩

@[simp] theorem recv_flag (p : HdlcParser) : p.recv hdlcFlag = opened := if_pos rfl

@[simp] theorem ended_opened : opened.ended = none := rfl

theorem feed_flag (p : HdlcParser) (bs : Bytes) : p.feed (hdlcFlag :: bs) =
    ((opened.feed bs).1,p.ended.toList ++ (opened.feed bs).2) := by
  simp [feed]

/-- Between two flags the parser is the receiver of the code. -/
theorem recv_payload {b : UInt8} (hb : b ≠ hdlcFlag) (s : Receiver UInt8) :
    (⟨true,s.escaped,s.buf⟩ : HdlcParser).recv b =
      ⟨true,(hdlc.accept rxBytes s b).escaped,(hdlc.accept rxBytes s b).buf⟩ := by
  by_cases he : b = hdlcEsc
  · have hne : hdlcEsc ≠ hdlcFlag := by decide
    simp [recv,Code.accept,hdlc,he,hne]
  · simp [recv,hb,Code.accept,hdlc,he]

theorem feed_payload (bs : Bytes) (hbs : hdlcFlag ∉ bs) (s : Receiver UInt8) :
    (⟨true,s.escaped,s.buf⟩ : HdlcParser).feed bs =
      (⟨true,(bs.foldl (hdlc.accept rxBytes) s).escaped,
        (bs.foldl (hdlc.accept rxBytes) s).buf⟩,[]) := by
  induction bs generalizing s with
  | nil => rfl
  | cons b bs ih =>
    have hb : b ≠ hdlcFlag := fun h => hbs (h ▸ List.mem_cons_self)
    have hrest : hdlcFlag ∉ bs := fun h => hbs (List.mem_cons_of_mem b h)
    simp only [feed,if_neg hb,recv_payload hb,ih hrest,List.foldl_cons,List.nil_append]

theorem feed_stuff (data : Bytes) : opened.feed (hdlc.stuff data) =
    (⟨true,false,data.take rxBytes⟩,[]) := by
  have h := feed_payload (hdlc.stuff data) (hdlc.flag_not_mem_stuff data) ⟨false,[]⟩
  rwa [hdlc.foldl_accept_stuff data (show ([] : Bytes).length ≤ rxBytes from Nat.zero_le _),
    List.nil_append] at h

/-- Of the frames of a stream, what is handed on: nothing for an empty frame. -/
def handed (frames : List Bytes) : List Bytes :=
  (frames.map (·.take rxBytes)).filter (· ≠ [])

theorem handed_cons (data : Bytes) (frames : List Bytes) :
    handed (data :: frames) = handed [data] ++ handed frames := by
  simp only [handed,List.map_cons,List.map_nil,← List.filter_append]
  rfl

theorem handed_eq {frames : List Bytes} (h : ∀ f ∈ frames, f.length ≤ rxBytes) :
    handed frames = frames.filter (· ≠ []) := by
  rw [handed,List.map_congr_left fun f hf => List.take_of_length_le (h f hf),List.map_id']

theorem handed_length (frames : List Bytes) :
    (handed frames).length = (frames.filter (· ≠ [])).length := by
  have htake : (fun f : Bytes => decide (f ≠ [])) ∘ (·.take rxBytes) =
      fun f : Bytes => decide (f ≠ []) := by
    funext f
    cases f <;> rfl
  rw [handed,List.filter_map,List.length_map,htake]

theorem ended_take (e : Bool) (data : Bytes) :
    (⟨true,e,data.take rxBytes⟩ : HdlcParser).ended.toList = handed [data] := by
  by_cases h : data.take rxBytes = []
  · simp only [ended,handed,List.map_cons,List.map_nil,h]; rfl
  · simp [ended,handed,h]

theorem feed_wire (p : HdlcParser) (frames : List Bytes) : p.feed (hdlc.wire frames) =
    if frames = [] then (p,[])
    else (opened,p.ended.toList ++ handed frames) := by
  induction frames generalizing p with
  | nil => rfl
  | cons data frames ih =>
    have hframe : p.feed (hdlc.frame data) =
        (opened,p.ended.toList ++ handed [data]) := by
      rw [Code.frame]
      show p.feed (hdlcFlag :: (hdlc.stuff data ++ [hdlcFlag])) = _
      rw [feed_flag,feed_append,feed_stuff,feed_flag,ended_take]
      simp [feed]
    rw [hdlc.wire_cons,feed_append,hframe,if_neg (List.cons_ne_nil _ _),handed_cons data frames]
    dsimp only
    rw [ih]
    by_cases hf : frames = []
    · subst hf; simp [handed]
    · simp [hf]

theorem feed_cut (p : HdlcParser) (frames : List Bytes) {part rest : Bytes}
    (hrest : rest = [] ∨ rest = [hdlcEsc]) :
    (p.feed (hdlc.wire frames ++ hdlcFlag :: (hdlc.stuff part ++ rest))).1.ended =
        (if part = [] then none else some (part.take rxBytes)) ∧
      (p.feed (hdlc.wire frames ++ hdlcFlag :: (hdlc.stuff part ++ rest))).2 =
        p.ended.toList ++ handed frames := by
  have hpart : (opened.feed (hdlc.stuff part ++ rest)).1.ended =
      (if part = [] then none else some (part.take rxBytes)) ∧
      (opened.feed (hdlc.stuff part ++ rest)).2 = [] := by
    rw [feed_append,feed_stuff]
    cases hrest with
    | inl h => subst h; by_cases hp : part = [] <;> simp [feed,ended,hp]
    | inr h =>
      subst h
      have hne : hdlcEsc ≠ hdlcFlag := by decide
      by_cases hp : part = [] <;> simp [feed,recv,ended,hp,hne]
  rw [feed_append,feed_wire,feed_flag]
  refine ⟨hpart.1,?_⟩
  rw [hpart.2]
  by_cases hf : frames = []
  · subst hf; simp [handed]
  · simp [hf]

end HdlcParser

/-- What a property of an interface may speak of, in order: a connection made, a byte that
`recv` returned, a frame handed to `handle_incoming`, a buffer handed to `send`. -/
inductive TcpEvent where
  | connected
  | received (b : UInt8)
  | incoming (frame : Bytes)
  | sent (buf : Bytes)
  deriving DecidableEq

/-- How `try_connect` ends: before it has touched `_sock`, after, or with a connection. -/
inductive Connect where
  | unresolved | failed | connected
  deriving DecidableEq

/-- How a loop over `recv` ends: nothing more to read for now, the peer closed the
connection, or an error. -/
inductive RecvEnd where
  | again | closed | error
  deriving DecidableEq

structure Outgoing where
  data : Bytes
  taken : Bool

/-- The bytes one call of `loop` can read. While a frame is handled, the transport may
transmit on the interface it came from; these calls stand beside the byte that ends it. -/
structure Incoming where
  bytes : List (UInt8 × List Outgoing)
  ending : RecvEnd

/-- `_sock` by whether it is open. The name of the host and its port are left out. -/
structure TcpInterface where
  online : Bool
  rxb : Nat
  txb : Nat
  sock : Bool
  connected : Bool
  reconnectAt : UInt64
  parser : HdlcParser

namespace TcpInterface

def create : TcpInterface where
  online := false
  rxb := 0
  txb := 0
  sock := false
  connected := false
  reconnectAt := 0
  parser := .fresh

def tryConnect (c : Connect) (t : TcpInterface) : Bool × TcpInterface :=
  match c with
  | .unresolved => (false,t)
  | .failed => (false,{ t with sock := false })
  | .connected => (true,{ t with sock := true, connected := true })

def disconnect (t : TcpInterface) : TcpInterface := { t with sock := false, connected := false }

def connectEvents (c : Connect) : List TcpEvent := if c = .connected then [.connected] else []

def start (c : Connect) (t : TcpInterface) : TcpInterface × List TcpEvent :=
  ({ (t.tryConnect c).2 with online := true },connectEvents c)

def stop (t : TcpInterface) : TcpInterface := { t.disconnect with online := false }

/-- The buffer of `send_outgoing`; `none` is a write past it. -/
def encode (data : Bytes) : Option Bytes := do
  let buf ← put txBytes [] hdlcFlag
  let buf ← hdlc.stuffInto txBytes buf data
  put txBytes buf hdlcFlag

def sendOutgoing (o : Outgoing) (t : TcpInterface) : TcpInterface × List TcpEvent :=
  if t.connected = false ∨ t.sock = false then (t,[])
  else
    let t := { t with txb := t.txb+o.data.length }
    match encode o.data with
    | none => (t,[])
    | some buf => (if o.taken then t else t.disconnect,[.sent buf])

def sendAll : List Outgoing → TcpInterface → TcpInterface × List TcpEvent
  | [], t => (t,[])
  | o :: os, t =>
    let (t₁,es) := t.sendOutgoing o
    let (t₂,es') := t₁.sendAll os
    (t₂,es ++ es')

def handleIncoming (frame : Bytes) (reaction : List Outgoing) (t : TcpInterface) :
    TcpInterface × List TcpEvent :=
  let (t,es) := { t with rxb := t.rxb+frame.length }.sendAll reaction
  (t,.incoming frame :: es)

def recvByte (b : UInt8) (reaction : List Outgoing) (t : TcpInterface) :
    TcpInterface × List TcpEvent :=
  let (u,es) := match if b = hdlcFlag then t.parser.ended else none with
    | none => (t,[])
    | some frame => t.handleIncoming frame reaction
  ({ u with parser := t.parser.recv b },.received b :: es)

/-- The receive loop, and what follows it. A socket that is closed meanwhile is an error. -/
def drain (ending : RecvEnd) : List (UInt8 × List Outgoing) → TcpInterface →
    TcpInterface × List TcpEvent
  | [], t => (if t.sock ∧ ending = .again then t else t.disconnect,[])
  | (b,reaction) :: rest, t =>
    if t.sock = false then (t.disconnect,[])
    else
      let (t₁,es) := t.recvByte b reaction
      let (t₂,es') := t₁.drain ending rest
      (t₂,es ++ es')

def loop (now : UInt64) (c : Connect) (incoming : Incoming) (t : TcpInterface) :
    TcpInterface × List TcpEvent :=
  if t.connected = false then
    if now < t.reconnectAt then (t,[])
    else
      let (done,t) := t.tryConnect c
      (if done then t else { t with reconnectAt := now+5000 },connectEvents c)
  else t.drain incoming.ending incoming.bytes

end TcpInterface

inductive TcpOp where
  | start (c : Connect)
  | stop
  | sendOutgoing (o : Outgoing)
  | loop (now : UInt64) (c : Connect) (incoming : Incoming)

namespace TcpInterface

def step (t : TcpInterface) : TcpOp → TcpInterface × List TcpEvent
  | .start c => t.start c
  | .stop => (t.stop,[])
  | .sendOutgoing o => t.sendOutgoing o
  | .loop now c incoming => t.loop now c incoming

def run (t : TcpInterface) : List TcpOp → TcpInterface × List TcpEvent
  | [] => (t,[])
  | op :: ops =>
    let (t₁,es) := t.step op
    let (t₂,es') := t₁.run ops
    (t₂,es ++ es')

end TcpInterface

def received (es : List TcpEvent) : Bytes :=
  es.filterMap fun
    | .received b => some b
    | _ => none

def incoming (es : List TcpEvent) : List Bytes :=
  es.filterMap fun
    | .incoming frame => some frame
    | _ => none

def written (es : List TcpEvent) : Bytes :=
  es.flatMap fun
    | .sent buf => buf
    | _ => []

inductive Trace : Bool → HdlcParser → List TcpEvent → Bool → HdlcParser → Prop where
  | nil {s s' : Bool} {p : HdlcParser} : (s' = true → s = true) → Trace s p [] s' p
  | connected {s s' : Bool} {p q : HdlcParser} {es : List TcpEvent} : Trace true p es s' q →
      Trace s p (.connected :: es) s' q
  | sent {s s' : Bool} {p q : HdlcParser} {buf : Bytes} {es : List TcpEvent} :
      Trace s p es s' q → Trace s p (.sent buf :: es) s' q
  | byte {s' : Bool} {p q : HdlcParser} {b : UInt8} {es : List TcpEvent} :
      (b = hdlcFlag → p.ended = none) → Trace true (p.recv b) es s' q →
      Trace true p (.received b :: es) s' q
  | frame {s' : Bool} {p q : HdlcParser} {f : Bytes} {es : List TcpEvent} : p.ended = some f →
      Trace true (p.recv hdlcFlag) es s' q →
      Trace true p (.received hdlcFlag :: .incoming f :: es) s' q

namespace Trace

theorem closed {s : Bool} {p : HdlcParser} : Trace s p [] false p := .nil fun h => by cases h

theorem mono {s s' t : Bool} {p q : HdlcParser} {es : List TcpEvent} (h : Trace s p es s' q)
    (ht : s = true → t = true) : Trace t p es s' q := by
  induction h with
  | nil hs => exact .nil fun h => ht (hs h)
  | connected h _ => exact .connected h
  | sent _ ih => exact .sent (ih ht)
  | byte hb h _ => exact ht rfl ▸ .byte hb h
  | frame hf h _ => exact ht rfl ▸ .frame hf h

theorem append {s s' s'' : Bool} {p q r : HdlcParser} {es es' : List TcpEvent}
    (h : Trace s p es s' q) (k : Trace s' q es' s'' r) : Trace s p (es ++ es') s'' r := by
  induction h with
  | nil hs => exact k.mono hs
  | connected _ ih => exact .connected (ih k)
  | sent _ ih => exact .sent (ih k)
  | byte hb _ ih => exact .byte hb (ih k)
  | frame hf _ ih => exact .frame hf (ih k)

theorem feed {s s' : Bool} {p q : HdlcParser} {es : List TcpEvent} (h : Trace s p es s' q) :
    p.feed (received es) = (q,incoming es) := by
  induction h with
  | nil => rfl
  | connected _ ih => exact ih
  | sent _ ih => exact ih
  | @byte s' p q b es hb _ ih =>
    show p.feed (b :: received es) = (q,incoming es)
    simp only [HdlcParser.feed,ih]
    by_cases he : b = hdlcFlag
    · simp [hb he]
    · simp [he]
  | @frame s' p q f es hf _ ih =>
    show p.feed (hdlcFlag :: received es) = (q,f :: incoming es)
    simp only [HdlcParser.feed,ih,hf,if_true,Option.toList_some,List.singleton_append]

end Trace

namespace TcpInterface
variable (t : TcpInterface)

theorem sendOutgoing_trace (o : Outgoing) (p : HdlcParser) :
    (t.sendOutgoing o).1.parser = t.parser ∧
      Trace t.sock p (t.sendOutgoing o).2 (t.sendOutgoing o).1.sock p := by
  unfold sendOutgoing
  split
  · exact ⟨rfl,.nil id⟩
  · dsimp only
    cases encode o.data with
    | none => exact ⟨rfl,.nil id⟩
    | some buf =>
      dsimp only
      split
      · exact ⟨rfl,.sent (.nil id)⟩
      · exact ⟨rfl,.sent .closed⟩

theorem sendAll_trace (os : List Outgoing) (p : HdlcParser) :
    (t.sendAll os).1.parser = t.parser ∧
      Trace t.sock p (t.sendAll os).2 (t.sendAll os).1.sock p := by
  induction os generalizing t with
  | nil => exact ⟨rfl,.nil id⟩
  | cons o os ih =>
    obtain ⟨hp,ht⟩ := t.sendOutgoing_trace o p
    obtain ⟨hp',ht'⟩ := ih (t.sendOutgoing o).1
    exact ⟨hp'.trans hp,ht.append ht'⟩

theorem recvByte_trace (b : UInt8) (reaction : List Outgoing) (h : t.sock = true) :
    (t.recvByte b reaction).1.parser = t.parser.recv b ∧
      Trace t.sock t.parser (t.recvByte b reaction).2 (t.recvByte b reaction).1.sock
        (t.parser.recv b) := by
  rw [h]
  cases hout : (if b = hdlcFlag then t.parser.ended else none) with
  | none =>
    have hb : b = hdlcFlag → t.parser.ended = none := fun hb => by rwa [if_pos hb] at hout
    simp only [recvByte,hout]
    exact ⟨trivial,.byte hb (.nil fun _ => rfl)⟩
  | some frame =>
    have hb : b = hdlcFlag := by
      by_contra hb
      rw [if_neg hb] at hout
      cases hout
    subst hb
    rw [if_pos rfl] at hout
    obtain ⟨-,ht⟩ := { t with rxb := t.rxb+frame.length }.sendAll_trace reaction
      (t.parser.recv hdlcFlag)
    simp only [recvByte,handleIncoming,hout]
    exact ⟨trivial,.frame hout (h ▸ ht)⟩

theorem drain_trace (ending : RecvEnd) (bytes : List (UInt8 × List Outgoing)) :
    Trace t.sock t.parser (t.drain ending bytes).2 (t.drain ending bytes).1.sock
      (t.drain ending bytes).1.parser := by
  induction bytes generalizing t with
  | nil =>
    unfold drain
    dsimp only
    split
    · exact .nil id
    · exact .closed
  | cons x rest ih =>
    obtain ⟨b,reaction⟩ := x
    by_cases hs : t.sock = false
    · simp only [drain,if_pos hs]
      exact .closed
    · simp only [drain,if_neg hs]
      obtain ⟨hp,ht⟩ := t.recvByte_trace b reaction (by simpa using hs)
      exact ht.append (hp ▸ ih _)

theorem tryConnect_trace (c : Connect) : (t.tryConnect c).2.parser = t.parser ∧
    Trace t.sock t.parser (connectEvents c) (t.tryConnect c).2.sock t.parser := by
  cases c with
  | unresolved => exact ⟨rfl,.nil id⟩
  | failed =>
    exact ⟨rfl,.closed⟩
  | connected => exact ⟨rfl,.connected (.nil fun _ => rfl)⟩

theorem step_trace (op : TcpOp) :
    Trace t.sock t.parser (t.step op).2 (t.step op).1.sock (t.step op).1.parser := by
  cases op with
  | start c =>
    obtain ⟨hp,ht⟩ := t.tryConnect_trace c
    exact hp ▸ ht
  | stop =>
    exact .closed
  | sendOutgoing o =>
    obtain ⟨hp,ht⟩ := t.sendOutgoing_trace o t.parser
    exact hp ▸ ht
  | loop now c incoming =>
    simp only [step,loop]
    split
    · split
      · exact .nil id
      · obtain ⟨hp,ht⟩ := t.tryConnect_trace c
        split
        · exact hp ▸ ht
        · exact hp ▸ ht
    · exact t.drain_trace _ _

theorem run_trace (ops : List TcpOp) :
    Trace t.sock t.parser (t.run ops).2 (t.run ops).1.sock (t.run ops).1.parser := by
  induction ops generalizing t with
  | nil => exact .nil id
  | cons op ops ih => exact (t.step_trace op).append (ih (t.step op).1)

structure Up : Prop where
  connected : t.connected = true
  sock : t.sock = true

end TcpInterface

theorem received_append (es es' : List TcpEvent) :
    received (es ++ es') = received es ++ received es' := List.filterMap_append

theorem written_append (es es' : List TcpEvent) :
    written (es ++ es') = written es ++ written es' := List.flatMap_append

/-- The buffer of `send_outgoing` is a frame of the data, or of the start of it that there is
room for. -/
theorem encode_cut (data : Bytes) :
    ∃ k, TcpInterface.encode data = some (hdlc.frame (data.take k)) ∧
      (data.take k = data ↔ (hdlc.stuff data.dropLast).length + 3 < txBytes) := by
  have h0 : put txBytes [] hdlcFlag = some [hdlcFlag] := put_eq _ (by decide)
  have hroom : [hdlcFlag].length < txBytes := by decide
  obtain ⟨k,hk,hlt,hall⟩ := hdlc.stuffInto_cut data hroom
  refine ⟨k,?_,?_⟩
  · simp only [TcpInterface.encode,h0,Option.bind_eq_bind,Option.bind_some,hk,put_eq _ hlt]
    rfl
  · have hsize : txBytes = 1400 := rfl
    rw [hall,hsize,List.length_singleton]
    constructor
    · rintro (rfl | h)
      · decide
      · omega
    · intro h
      exact .inr (by omega)

theorem encode_eq {data : Bytes} (h : data.length ≤ rxBytes) :
    TcpInterface.encode data = some (hdlc.frame data) := by
  obtain ⟨k,hk,hall⟩ := encode_cut data
  have hlen := hdlc.stuff_length_le data.dropLast
  have hfit : (hdlc.stuff data.dropLast).length + 3 < txBytes := by
    have hdata : data.length ≤ 600 := h
    rw [List.length_dropLast] at hlen
    show _ < 1400
    omega
  rw [hk,hall.mpr hfit]

namespace TcpInterface
variable {t : TcpInterface}

theorem Up.sendOutgoing (h : t.Up) {o : Outgoing} (ho : o.taken = true) :
    (t.sendOutgoing o).1.Up ∧ received (t.sendOutgoing o).2 = [] := by
  have hup : ¬ (t.connected = false ∨ t.sock = false) := by simp [h.connected,h.sock]
  simp only [TcpInterface.sendOutgoing,if_neg hup,ho,if_true]
  cases encode o.data with
  | none => exact ⟨⟨h.connected,h.sock⟩,rfl⟩
  | some buf => exact ⟨⟨h.connected,h.sock⟩,rfl⟩

theorem Up.sendAll (h : t.Up) {os : List Outgoing} (hos : ∀ o ∈ os, o.taken = true) :
    (t.sendAll os).1.Up ∧ received (t.sendAll os).2 = [] := by
  induction os generalizing t with
  | nil => exact ⟨h,rfl⟩
  | cons o os ih =>
    obtain ⟨hup,hr⟩ := h.sendOutgoing (hos o List.mem_cons_self)
    obtain ⟨hup',hr'⟩ := ih hup fun o ho => hos o (List.mem_cons_of_mem _ ho)
    refine ⟨hup',?_⟩
    simp only [TcpInterface.sendAll,received_append,hr,hr',List.append_nil]

theorem Up.recvByte (h : t.Up) (b : UInt8) {reaction : List Outgoing}
    (hr : ∀ o ∈ reaction, o.taken = true) :
    (t.recvByte b reaction).1.Up ∧ received (t.recvByte b reaction).2 = [b] := by
  unfold TcpInterface.recvByte
  cases (if b = hdlcFlag then t.parser.ended else none) with
  | none => exact ⟨⟨h.connected,h.sock⟩,rfl⟩
  | some frame =>
    have hup : { t with rxb := t.rxb+frame.length }.Up := ⟨h.connected,h.sock⟩
    obtain ⟨hup',hrec⟩ := hup.sendAll hr
    exact ⟨⟨hup'.connected,hup'.sock⟩,congrArg (b :: ·) hrec⟩

theorem Up.drain (h : t.Up) {bytes : List (UInt8 × List Outgoing)}
    (hr : ∀ x ∈ bytes, ∀ o ∈ x.2, o.taken = true) :
    (t.drain .again bytes).1.Up ∧ received (t.drain .again bytes).2 = bytes.map Prod.fst := by
  induction bytes generalizing t with
  | nil =>
    simp only [TcpInterface.drain,h.sock,and_self,if_true]
    exact ⟨h,rfl⟩
  | cons x bytes ih =>
    obtain ⟨b,reaction⟩ := x
    obtain ⟨hup,hrec⟩ := h.recvByte b (hr (b,reaction) List.mem_cons_self)
    obtain ⟨hup',hrec'⟩ := ih hup fun x hx => hr x (List.mem_cons_of_mem _ hx)
    have hsock : ¬ t.sock = false := by simp [h.sock]
    simp only [TcpInterface.drain,if_neg hsock,received_append,hrec,hrec']
    exact ⟨hup',rfl⟩

end TcpInterface

namespace TcpOp

/-- The call goes on with the connection there is: nothing that is sent fails, and `recv`
reports neither the end of the connection nor an error. -/
def Keeps : TcpOp → Prop
  | .sendOutgoing o => o.taken = true
  | .loop _ _ i => i.ending = .again ∧ ∀ x ∈ i.bytes, ∀ o ∈ x.2, o.taken = true
  | _ => False

instance (op : TcpOp) : Decidable op.Keeps :=
  match op with
  | .sendOutgoing o => inferInstanceAs (Decidable (o.taken = true))
  | .loop _ _ i =>
    inferInstanceAs (Decidable (i.ending = .again ∧ ∀ x ∈ i.bytes, ∀ o ∈ x.2, o.taken = true))
  | .start _ | .stop => inferInstanceAs (Decidable False)

def bytes : TcpOp → Bytes
  | .loop _ _ i => i.bytes.map Prod.fst
  | _ => []

end TcpOp

namespace TcpInterface
variable {t : TcpInterface}

theorem Up.step (h : t.Up) {op : TcpOp} (hop : op.Keeps) :
    (t.step op).1.Up ∧ received (t.step op).2 = op.bytes := by
  cases op with
  | start c => cases hop
  | stop => cases hop
  | sendOutgoing o => exact h.sendOutgoing hop
  | loop now c i =>
    obtain ⟨hagain,hr⟩ := hop
    have hconn : ¬ t.connected = false := by simp [h.connected]
    simp only [TcpInterface.step,TcpInterface.loop,if_neg hconn,hagain]
    exact h.drain hr

theorem Up.run (h : t.Up) {ops : List TcpOp} (hops : ∀ op ∈ ops, op.Keeps) :
    (t.run ops).1.Up ∧ received (t.run ops).2 = ops.flatMap TcpOp.bytes := by
  induction ops generalizing t with
  | nil => exact ⟨h,rfl⟩
  | cons op ops ih =>
    obtain ⟨hup,hrec⟩ := h.step (hops op List.mem_cons_self)
    obtain ⟨hup',hrec'⟩ := ih hup fun op h => hops op (List.mem_cons_of_mem _ h)
    refine ⟨hup',?_⟩
    simp only [TcpInterface.run,received_append,hrec,hrec',List.flatMap_cons]

theorem Up.written (h : t.Up) {frames : List Bytes} (hf : ∀ f ∈ frames, f.length ≤ rxBytes) :
    written (t.run (frames.map fun f => .sendOutgoing ⟨f,true⟩)).2 = hdlc.wire frames := by
  induction frames generalizing t with
  | nil => rfl
  | cons f frames ih =>
    have hup : ¬ (t.connected = false ∨ t.sock = false) := by simp [h.connected,h.sock]
    have hsent : HeltecV3.written (t.sendOutgoing ⟨f,true⟩).2 = hdlc.frame f := by
      simp [TcpInterface.sendOutgoing,hup,encode_eq (hf f List.mem_cons_self),
        HeltecV3.written]
    have hrest := ih (h.sendOutgoing (o := ⟨f,true⟩) rfl).1 fun f h =>
      hf f (List.mem_cons_of_mem _ h)
    simp only [List.map_cons,TcpInterface.run,written_append,TcpInterface.step,hsent,hrest]
    rfl

/-- One interface writes frames, another reads them, in any portions and over any number of
calls on one connection: it hands on exactly these frames, in order, after at most one that
its parser was left in. -/
theorem hdlc_roundtrip {s t : TcpInterface} (hs : s.Up) (ht : t.Up) {frames : List Bytes}
    (hframes : ∀ f ∈ frames, f ≠ [] ∧ f.length ≤ rxBytes) {ops : List TcpOp}
    (hops : ∀ op ∈ ops, op.Keeps)
    (hbytes : ops.flatMap TcpOp.bytes =
      HeltecV3.written (s.run (frames.map fun f => .sendOutgoing ⟨f,true⟩)).2) :
    ∃ left : List Bytes, left.length ≤ 1 ∧
      (left ≠ [] → t.parser.inFrame = true ∧ left = [t.parser.rxBuf]) ∧
      incoming (t.run ops).2 = left ++ frames := by
  have hlen : ∀ f ∈ frames, f.length ≤ rxBytes := fun f hf => (hframes f hf).2
  have hfeed := (t.run_trace ops).feed
  rw [(ht.run hops).2,hbytes,hs.written hlen,HdlcParser.feed_wire] at hfeed
  have hall : HdlcParser.handed frames = frames := by
    rw [HdlcParser.handed_eq hlen,List.filter_eq_self]
    exact fun f hf => decide_eq_true (hframes f hf).1
  by_cases hnil : frames = []
  · rw [if_pos hnil] at hfeed
    refine ⟨[],by simp,fun h => absurd rfl h,?_⟩
    rw [hnil]
    exact (congrArg Prod.snd hfeed).symm
  · rw [if_neg hnil,hall] at hfeed
    refine ⟨t.parser.ended.toList,?_,?_,(congrArg Prod.snd hfeed).symm⟩
    · cases t.parser.ended <;> simp
    · intro hleft
      by_cases hp : t.parser.inFrame = true ∧ t.parser.rxBuf ≠ []
      · exact ⟨hp.1,by simp [HdlcParser.ended,hp]⟩
      · exact absurd (by simp only [HdlcParser.ended,if_neg hp]; rfl) hleft

/-- Two frames, cut inside an escape, into a parser that is in the middle of a third. -/
theorem hdlc_roundtrip_cut : ∃ left : List Bytes, left.length ≤ 1 ∧
    incoming (TcpInterface.run ⟨true,0,0,true,true,0,⟨true,true,[9]⟩⟩
      [.loop 0 .failed ⟨[(0x7E,[]),(0x7D,[])],.again⟩,
        .loop 1 .failed ⟨[(0x5E,[⟨[1],true⟩]),(0x7E,[]),(0x7E,[])],.again⟩,
        .loop 2 .failed ⟨[(0x01,[]),(0x7E,[⟨[0x7D],true⟩])],.again⟩]).2 =
      left ++ [[0x7E],[0x01]] := by
  have hup : TcpInterface.Up ⟨true,0,0,true,true,0,⟨true,true,[9]⟩⟩ := ⟨rfl,rfl⟩
  obtain ⟨left,hlen,-,h⟩ := @hdlc_roundtrip _ _ hup hup [[0x7E],[0x01]] (by decide)
    [.loop 0 .failed ⟨[(0x7E,[]),(0x7D,[])],.again⟩,
      .loop 1 .failed ⟨[(0x5E,[⟨[1],true⟩]),(0x7E,[]),(0x7E,[])],.again⟩,
      .loop 2 .failed ⟨[(0x01,[]),(0x7E,[⟨[0x7D],true⟩])],.again⟩]
    (by decide) rfl
  exact ⟨left,hlen,h⟩

end TcpInterface

/-! What happens when connections are lost. -/

def segments : List TcpEvent → List TcpEvent × List (List TcpEvent)
  | [] => ([],[])
  | .connected :: es => ([],(segments es).1 :: (segments es).2)
  | e :: es => (e :: (segments es).1,(segments es).2)

def connections (es : List TcpEvent) : List (List TcpEvent) := (segments es).2

/-- The peer sends frames of at most 600 bytes, of which all or a part arrives. -/
def WellFormed (w : Bytes) : Prop :=
  ∃ frames, (∀ f ∈ frames, f.length ≤ rxBytes) ∧ w <+: hdlc.wire frames

def CutOff (w : Bytes) : Prop :=
  ∃ frames part rest, part ≠ [] ∧ (rest = [] ∨ rest = [hdlcEsc]) ∧
    w = hdlc.wire frames ++ hdlcFlag :: (hdlc.stuff part ++ rest)

/-- What was handed on while the connection lasted are frames that arrived on it completely,
each at most once. -/
def WholeFrames (c : List TcpEvent) : Prop :=
  ∃ frames, hdlc.wire frames <+: received c ∧ (incoming c).Sublist frames

def Chained : HdlcParser → List (List TcpEvent) → Prop
  | _, [] => True
  | p, c :: cs =>
    (p.feed (received c)).2 = incoming c ∧ Chained (p.feed (received c)).1 cs

namespace Trace

theorem chained {s s' : Bool} {p q : HdlcParser} {es : List TcpEvent} (h : Trace s p es s' q) :
    (p.feed (received (segments es).1)).2 = incoming (segments es).1 ∧
      Chained (p.feed (received (segments es).1)).1 (connections es) := by
  induction h with
  | nil => exact ⟨rfl,trivial⟩
  | connected _ ih => exact ⟨rfl,ih⟩
  | sent _ ih => exact ih
  | @byte s' p q b es hb _ ih =>
    have hcons : received (segments (.received b :: es)).1 = b :: received (segments es).1 := rfl
    rw [hcons]
    simp only [HdlcParser.feed,ih.1]
    refine ⟨?_,ih.2⟩
    by_cases he : b = hdlcFlag
    · rw [if_pos he,hb he]; rfl
    · rw [if_neg he]; rfl
  | @frame s' p q f es hf _ ih =>
    have hcons : received (segments (.received hdlcFlag :: .incoming f :: es)).1 =
        hdlcFlag :: received (segments es).1 := rfl
    rw [hcons]
    simp only [HdlcParser.feed,ih.1,hf,if_true]
    exact ⟨rfl,ih.2⟩

theorem silent {s s' : Bool} {p q : HdlcParser} {es : List TcpEvent} (h : Trace s p es s' q) :
    s = false → received (segments es).1 = [] ∧ incoming (segments es).1 = [] := by
  induction h with
  | nil | connected => exact fun _ => ⟨rfl,rfl⟩
  | sent _ ih => exact ih
  | byte | frame => intro hs; cases hs

end Trace

/-- Feeding a cut stream: the frames that arrived completely are handed on, and the parser
is left with something just when a frame is cut off. -/
theorem feed_wellFormed {w : Bytes} (h : WellFormed w) (hw : w ≠ []) (p : HdlcParser) :
    ∃ whole, hdlc.wire whole <+: w ∧
      (p.feed w).2 = p.ended.toList ++ whole.filter (· ≠ []) ∧
      ((p.feed w).1.ended.isSome ↔ CutOff w) := by
  obtain ⟨frames,hlen,hpre⟩ := h
  obtain ⟨whole,hwhole,harr⟩ := hdlc.prefix_wire hpre
  have hhand : HdlcParser.handed whole = whole.filter (· ≠ []) :=
    HdlcParser.handed_eq fun f hf => hlen f (hwhole.subset hf)
  have hcut : CutOff w → (p.feed w).1.ended.isSome := by
    rintro ⟨fs,part,rest,hpart,hrest,rfl⟩
    rw [(p.feed_cut fs hrest).1,if_neg hpart]
    rfl
  cases harr with
  | whole =>
    have hne : whole ≠ [] := fun h => hw (by rw [h]; rfl)
    refine ⟨whole,List.prefix_refl _,?_,?_,hcut⟩
    · rw [p.feed_wire,if_neg hne,hhand]
    · intro hs
      rw [p.feed_wire,if_neg hne] at hs
      cases hs
  | cut part rest hrest =>
    obtain ⟨hended,hout⟩ := @HdlcParser.feed_cut p whole part rest hrest
    refine ⟨whole,List.prefix_append _ _,hhand ▸ hout,?_,hcut⟩
    intro hs
    have hs : (p.feed (hdlc.wire whole ++ hdlcFlag :: (hdlc.stuff part ++ rest))).1.ended.isSome :=
      hs
    rw [hended] at hs
    by_cases hpart : part = []
    · rw [if_pos hpart] at hs
      cases hs
    · exact ⟨whole,part,rest,hpart,hrest,rfl⟩

theorem wholeFrames_iff_ended {p : HdlcParser} {c : List TcpEvent}
    (h : WellFormed (received c)) (hne : received c ≠ [])
    (hc : (p.feed (received c)).2 = incoming c) : WholeFrames c ↔ p.ended = none := by
  constructor
  · rintro ⟨frames,⟨w,hw⟩,hsub⟩
    -- what is handed on are the complete frames after what was left, too many by that
    by_cases hf : frames = []
    · obtain ⟨whole,-,hout,-⟩ := feed_wellFormed h hne p
      rw [hf,List.sublist_nil,← hc,hout] at hsub
      cases he : p.ended with
      | none => rfl
      | some f => simp [he] at hsub
    · have hall : ∀ f ∈ incoming c, f ≠ [] := hc ▸ p.feed_ne_nil _
      have hle : (incoming c).length ≤ (HdlcParser.handed frames).length := by
        rw [HdlcParser.handed_length,← List.filter_eq_self.mpr fun f hf =>
          decide_eq_true (hall f hf)]
        exact (hsub.filter _).length_le
      rw [← hc,← hw,p.feed_append,p.feed_wire,if_neg hf] at hle
      cases he : p.ended with
      | none => rfl
      | some f =>
        simp only [he,Option.toList_some,List.length_append,List.length_singleton] at hle
        omega
  · intro hp
    obtain ⟨whole,hwhole,hout,-⟩ := feed_wellFormed h hne p
    refine ⟨whole,hwhole,?_⟩
    rw [← hc,hout,hp]
    exact List.filter_sublist

theorem Chained.wholeFrames_iff {p : HdlcParser} {cs : List (List TcpEvent)}
    (h : Chained p cs) (hwf : ∀ c ∈ cs, WellFormed (received c)) :
    (∀ c ∈ cs, WholeFrames c) ↔
      (p.ended.isSome → ∀ c ∈ cs, received c = []) ∧
        cs.Pairwise fun c c' => CutOff (received c) → received c' = [] := by
  induction cs generalizing p with
  | nil => simp
  | cons c cs ih =>
    obtain ⟨hc,hcs⟩ := h
    have hih := ih hcs fun c hc => hwf c (List.mem_cons_of_mem _ hc)
    have hwfc := hwf c List.mem_cons_self
    rw [List.forall_mem_cons,hih,List.pairwise_cons,List.forall_mem_cons]
    by_cases hne : received c = []
    · -- nothing arrived, nothing changes
      have hin : incoming c = [] := by rw [← hc,hne]; rfl
      have hwhole : WholeFrames c := ⟨[],List.nil_prefix,by rw [hin]⟩
      have hcut : ¬ CutOff (received c) := by
        rintro ⟨frames,part,rest,-,-,hw⟩
        simp [hne] at hw
      have hstill : (p.feed (received c)).1 = p := by rw [hne]; rfl
      rw [hstill]
      constructor
      · rintro ⟨-,hrest,hpairs⟩
        exact ⟨fun hp => ⟨hne,hrest hp⟩,fun _ _ hcut' => absurd hcut' hcut,hpairs⟩
      · rintro ⟨hrest,-,hpairs⟩
        exact ⟨hwhole,fun hp => (hrest hp).2,hpairs⟩
    · obtain ⟨whole,-,-,hcut⟩ := feed_wellFormed hwfc hne p
      have hleft : p.ended = none ↔ ¬ p.ended.isSome := by simp
      rw [wholeFrames_iff_ended hwfc hne hc,hcut,hleft]
      constructor
      · rintro ⟨hp,hrest,hpairs⟩
        exact ⟨fun hp' => absurd hp' hp,fun c' hc' hcut' => hrest hcut' c' hc',hpairs⟩
      · rintro ⟨hp,hrest,hpairs⟩
        exact ⟨fun hp' => hne (hp hp').1,fun hcut' c' hc' => hrest c' hc' hcut',hpairs⟩

/-- What an interface hands on, in any run over any number of connections to a peer that
sends frames: nothing without a connection, and on each connection frames that arrived on
it completely, just when no connection ends inside a frame before another brings bytes. -/
theorem tcp_whole_frames_iff {ops : List TcpOp} {t : TcpInterface} {es : List TcpEvent}
    (h : TcpInterface.create.run ops = (t,es))
    (hwf : ∀ c ∈ connections es, WellFormed (received c)) :
    (incoming (segments es).1 = [] ∧ ∀ c ∈ connections es, WholeFrames c) ↔
      (connections es).Pairwise fun c c' => CutOff (received c) → received c' = [] := by
  have htrace := TcpInterface.create.run_trace ops
  rw [h] at htrace
  obtain ⟨hrec,hin⟩ := htrace.silent rfl
  have hchain := htrace.chained.2
  rw [hrec] at hchain
  have hfresh : TcpInterface.create.parser.ended.isSome = false := rfl
  have hiff := Chained.wholeFrames_iff hchain hwf
  simp only [HdlcParser.feed,hfresh] at hiff
  rw [hiff]
  simp [hin]

/-- A connection that brings a frame and the start of another, of which nothing but an
escape arrives, and one that brings a frame. -/
theorem tcp_whole_frames_twice : ∃ x, TcpInterface.create.run
    [.start .connected,.loop 0 .failed ⟨[(0x7E,[]),(0x01,[]),(0x7E,[]),(0x7E,[]),(0x7D,[])],
        .error⟩,
      .loop 1 .connected ⟨[],.again⟩,
      .loop 2 .failed ⟨[(0x7E,[]),(0x02,[]),(0x7E,[])],.again⟩] = x ∧
    incoming x.2 = [[0x01],[0x02]] ∧ ∀ c ∈ connections x.2, WholeFrames c := by
  let ops : List TcpOp :=
    [.start .connected,.loop 0 .failed ⟨[(0x7E,[]),(0x01,[]),(0x7E,[]),(0x7E,[]),(0x7D,[])],
        .error⟩,
      .loop 1 .connected ⟨[],.again⟩,
      .loop 2 .failed ⟨[(0x7E,[]),(0x02,[]),(0x7E,[])],.again⟩]
  have hconn : connections (TcpInterface.create.run ops).2 =
      [[.received 0x7E,.received 0x01,.received 0x7E,.incoming [0x01],.received 0x7E,
          .received 0x7D],
        [.received 0x7E,.received 0x02,.received 0x7E,.incoming [0x02]]] := by decide
  have hfirst : WellFormed [0x7E,0x01,0x7E,0x7E,0x7D] := ⟨[[0x01],[0x7D]],by decide,by decide⟩
  have hsecond : WellFormed [0x7E,0x02,0x7E] := ⟨[[0x02]],by decide,by decide⟩
  refine ⟨TcpInterface.create.run ops,rfl,by decide,((tcp_whole_frames_iff rfl ?_).mpr ?_).2⟩
  · rw [hconn]
    exact List.forall_mem_cons.mpr ⟨hfirst,List.forall_mem_cons.mpr ⟨hsecond,by simp⟩⟩
  · rw [hconn]
    refine List.pairwise_pair.mpr fun hcut => ?_
    obtain ⟨-,-,-,hleft⟩ := feed_wellFormed hfirst (by decide) .fresh
    exact absurd (hleft.mpr hcut) (by decide)

theorem frame_infix_wire {f : Bytes} {frames : List Bytes} (h : f ∈ frames) :
    hdlc.frame f <:+: hdlc.wire frames := by
  obtain ⟨fs,fs',rfl⟩ := List.append_of_mem h
  refine ⟨hdlc.wire fs,hdlc.wire fs',?_⟩
  simp [Code.wire]

/-- The peer closes the connection inside a frame; when the next connection brings its first
flag, the piece is handed on as a frame. -/
theorem tcp_fragment_delivered : ∃ ops, (∀ c ∈ connections (TcpInterface.create.run ops).2,
      WellFormed (received c)) ∧
    ∃ f ∈ incoming (TcpInterface.create.run ops).2,
      ∀ c ∈ connections (TcpInterface.create.run ops).2, ∀ frames,
        hdlc.wire frames <+: received c → f ∉ frames := by
  let ops : List TcpOp := [.start .connected,
    .loop 0 .failed ⟨[(0x7E,[]),(0x01,[])],.closed⟩,.loop 1 .connected ⟨[],.again⟩,
    .loop 2 .failed ⟨[(0x7E,[]),(0x02,[]),(0x7E,[])],.again⟩]
  have hconn : connections (TcpInterface.create.run ops).2 =
      [[.received 0x7E,.received 0x01],[.received 0x7E,.incoming [0x01],.received 0x02,
        .received 0x7E,.incoming [0x02]]] := by decide
  refine ⟨ops,?_,[0x01],by decide,?_⟩
  · rw [hconn]
    refine List.forall_mem_cons.mpr ⟨⟨[[0x01]],by decide,by decide⟩,?_⟩
    exact List.forall_mem_cons.mpr ⟨⟨[[0x02]],by decide,by decide⟩,by simp⟩
  · rw [hconn]
    have hnot : ∀ {w : Bytes}, ¬ hdlc.frame [0x01] <:+: w → ∀ frames,
        hdlc.wire frames <+: w → [0x01] ∉ frames :=
      fun hw frames hpre hf => hw ((frame_infix_wire hf).trans hpre.isInfix)
    refine List.forall_mem_cons.mpr ⟨hnot (by decide),?_⟩
    exact List.forall_mem_cons.mpr ⟨hnot (by decide),by simp⟩

section
variable {t : TcpInterface}

theorem sent_eq (h : t.Up) (o : Outgoing) :
    ∃ k, written (t.sendOutgoing o).2 = hdlc.frame (o.data.take k) ∧
      (o.data.take k = o.data ↔ (hdlc.stuff o.data.dropLast).length + 3 < txBytes) := by
  obtain ⟨k,hk,hall⟩ := encode_cut o.data
  refine ⟨k,?_,hall⟩
  have hup : ¬ (t.connected = false ∨ t.sock = false) := by simp [h.connected,h.sock]
  simp [TcpInterface.sendOutgoing,if_neg hup,hk,written]

/-- What is written decodes to the data just when it is not cut: when the loop still has room
for the last byte. If the socket takes less than that, no frame is complete, and the
connection is given up. -/
theorem sent_decodes_iff (h : t.Up) (o : Outgoing) :
    ((written (t.sendOutgoing o).2 = [] ∨
        hdlc.decode (written (t.sendOutgoing o).2) = some o.data) ↔
      (hdlc.stuff o.data.dropLast).length + 3 < txBytes) ∧
    (∀ k < (written (t.sendOutgoing o).2).length,
      hdlc.decode ((written (t.sendOutgoing o).2).take k) = none) ∧
    (o.taken = false → (t.sendOutgoing o).1.sock = false) := by
  obtain ⟨k,hk,hall⟩ := sent_eq h o
  refine ⟨?_,?_,?_⟩
  · rw [hk,hdlc.decode_frame,← hall,Option.some_inj]
    simp [Code.frame]
  · intro j hj
    rw [hk] at hj ⊢
    exact hdlc.decode_take hj
  · intro htaken
    have hup : ¬ (t.connected = false ∨ t.sock = false) := by simp [h.connected,h.sock]
    obtain ⟨j,hj,-⟩ := encode_cut o.data
    simp only [TcpInterface.sendOutgoing,if_neg hup,hj,htaken]
    rfl

end

theorem sent_decodes_short : ∃ t, TcpInterface.create.run [.start .connected] = (t,[.connected]) ∧
    hdlc.decode (written (t.sendOutgoing ⟨[0x01,0x7E,0x02],true⟩).2) = some [0x01,0x7E,0x02] := by
  refine ⟨_,rfl,?_⟩
  have h := (sent_decodes_iff (t := (TcpInterface.create.run [.start .connected]).1) ⟨rfl,rfl⟩
    ⟨[0x01,0x7E,0x02],true⟩).1.mpr (by decide)
  exact h.resolve_left (by decide)

theorem stuff_zeros (n : Nat) : (hdlc.stuff (List.replicate n 0)).length = n := by
  have hplain : hdlc.escape 0 = [0] := by decide
  simp [Code.stuff,List.flatMap_replicate,hplain]

/-- Data of 1398 zeros, of which the loop writes all but the last, in a frame like any other. -/
theorem sent_frame_cut : ∃ t d, TcpInterface.create.run [.start .connected] = (t,[.connected]) ∧
    written (t.sendOutgoing ⟨List.replicate 1398 0,true⟩).2 ≠ [] ∧
    hdlc.decode (written (t.sendOutgoing ⟨List.replicate 1398 0,true⟩).2) = some d ∧
    d ≠ List.replicate 1398 0 := by
  obtain ⟨t,ht,hup⟩ : ∃ t, TcpInterface.create.run [.start .connected] = (t,[.connected]) ∧ t.Up :=
    ⟨_,rfl,rfl,rfl⟩
  obtain ⟨k,hk,hall⟩ := sent_eq hup ⟨List.replicate 1398 0,true⟩
  refine ⟨t,(List.replicate 1398 0).take k,ht,?_,?_,fun h => ?_⟩
  · rw [hk]
    exact List.cons_ne_nil _ _
  · rw [hk,hdlc.decode_frame]
  · have hfit := hall.mp h
    rw [List.dropLast_replicate,stuff_zeros] at hfit
    exact absurd hfit (by decide)

end HeltecV3
