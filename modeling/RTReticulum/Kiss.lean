import RTReticulum.Library.Stuffing
import RTReticulum.Types

/-! `rnode_bridge.cpp`: the KISS frames between a host and the modem. -/
set_option autoImplicit false

namespace HeltecV3.RNodeKiss
open RNS Stuffing

abbrev fend : UInt8 := 0xC0
abbrev fesc : UInt8 := 0xDB
abbrev tfend : UInt8 := 0xDC
abbrev tfesc : UInt8 := 0xDD
abbrev cmdUnknown : UInt8 := 0xFE
abbrev frameMax : Nat := 600

def code : Code UInt8 where
  flag := fend
  esc := fesc
  mark b := if b = fend then tfend else tfesc
  unmark b := if b = tfend then fend else if b = tfesc then fesc else b
  flag_ne_esc := by decide
  mark_plain := by
    intro b h
    cases h <;> subst b <;> decide
  unmark_mark := by
    intro b h
    cases h <;> subst b <;> decide

abbrev sendBytes : Nat := frameMax*2+4

/-- `send_frame`: the buffers handed to `g_tx`, if that is set. `none` is a write past the
output buffer. -/
def sendFrame (gTx : Bool) (cmd : UInt8) (data : Bytes) : Option (List Bytes) :=
  if gTx = false then some []
  else do
    let buf ← put sendBytes [] fend
    let buf ← put sendBytes buf cmd
    let buf ← code.stuffInto sendBytes buf data
    let buf ← put sendBytes buf fend
    return [buf]

/-- The static variables of `feed_byte`; of the buffer, the first `frame_len` bytes. -/
structure Parser where
  inFrame : Bool
  escape : Bool
  currentCmd : UInt8
  frameBuf : Bytes
  deriving DecidableEq

namespace Parser

def boot : Parser := ⟨false,false,cmdUnknown,[]⟩

abbrev frameLen (p : Parser) : Nat := p.frameBuf.length

def handled (p : Parser) : List (UInt8 × Bytes) :=
  if p.inFrame ∧ p.currentCmd ≠ cmdUnknown then [(p.currentCmd,p.frameBuf)] else []

def feedByte (p : Parser) (b : UInt8) : Parser × List (UInt8 × Bytes) :=
  if b = fend then (⟨true,false,cmdUnknown,[]⟩,p.handled)
  else if p.inFrame = false then (p,[])
  else if p.currentCmd = cmdUnknown then ({ p with currentCmd := b },[])
  else if b = fesc then ({ p with escape := true },[])
  else
    let b := if p.escape then if b = tfend then fend else if b = tfesc then fesc else b else b
    ({ p with
      escape := false
      frameBuf := if p.frameLen < frameMax then p.frameBuf ++ [b] else p.frameBuf },[])

def feed (p : Parser) : Bytes → Parser × List (UInt8 × Bytes)
  | [] => (p,[])
  | b :: bs =>
    let q := (p.feedByte b).1.feed bs
    (q.1,(p.feedByte b).2 ++ q.2)

theorem feed_append (p : Parser) (a b : Bytes) : p.feed (a ++ b) =
    (((p.feed a).1.feed b).1,(p.feed a).2 ++ ((p.feed a).1.feed b).2) := by
  induction a generalizing p with
  | nil => simp [feed]
  | cons x a ih => simp [feed,ih]

/-- A FEND ends what the parser is in, and opens a frame. -/
def opened : Parser := ⟨true,false,cmdUnknown,[]⟩

theorem feedByte_fend (p : Parser) : p.feedByte fend = (opened,p.handled) := if_pos rfl

@[simp] theorem handled_opened : opened.handled = [] := rfl

theorem feedByte_cmd {cmd : UInt8} (h : cmd ≠ fend) :
    opened.feedByte cmd = (⟨true,false,cmd,[]⟩,[]) := by
  simp [feedByte,opened,h]

/-- Past the command byte the parser is the receiver of the code. -/
theorem feedByte_payload {cmd b : UInt8} (hcmd : cmd ≠ cmdUnknown) (hb : b ≠ fend)
    (s : Receiver UInt8) : (⟨true,s.escaped,cmd,s.buf⟩ : Parser).feedByte b =
      (⟨true,(code.accept frameMax s b).escaped,cmd,(code.accept frameMax s b).buf⟩,[]) := by
  by_cases he : b = fesc
  · have hne : fesc ≠ fend := by decide
    simp [feedByte,hcmd,Code.accept,code,he,hne]
  · simp [feedByte,hb,hcmd,Code.accept,code,he,frameLen]

theorem feed_payload {cmd : UInt8} (hcmd : cmd ≠ cmdUnknown) (bs : Bytes) (hbs : fend ∉ bs)
    (s : Receiver UInt8) : (⟨true,s.escaped,cmd,s.buf⟩ : Parser).feed bs =
      (⟨true,(bs.foldl (code.accept frameMax) s).escaped,cmd,
        (bs.foldl (code.accept frameMax) s).buf⟩,[]) := by
  induction bs generalizing s with
  | nil => rfl
  | cons b bs ih =>
    have hb : b ≠ fend := fun h => hbs (h ▸ List.mem_cons_self)
    have hrest : fend ∉ bs := fun h => hbs (List.mem_cons_of_mem b h)
    rw [feed,feedByte_payload hcmd hb,ih hrest]
    rfl

end Parser

theorem sendFrame_eq {cmd : UInt8} {data out : Bytes}
    (h : code.stuffInto sendBytes [fend,cmd] data = some out) (hlt : out.length < sendBytes) :
    sendFrame true cmd data = some [out ++ [fend]] := by
  have h0 : put sendBytes [] fend = some [fend] := put_eq fend (by decide)
  have h1 : put sendBytes [fend] cmd = some [fend,cmd] := put_eq cmd (by decide)
  have h2 : put sendBytes out fend = some (out ++ [fend]) := put_eq fend hlt
  simp [sendFrame,h0,h1,h,h2]

/-- A frame that fits the buffer, with a command the parser does not take for a delimiter
or for none. -/
structure Frame where
  cmd : UInt8
  payload : Bytes
  cmd_ne_fend : cmd ≠ fend
  cmd_ne_unknown : cmd ≠ cmdUnknown
  payload_le : payload.length ≤ frameMax

namespace Frame

def opening (f : Frame) : Bytes := fend :: f.cmd :: code.stuff f.payload

theorem sendFrame (f : Frame) :
    sendFrame true f.cmd f.payload = some [f.opening ++ [fend]] := by
  have hpayload : f.payload.length ≤ 600 := f.payload_le
  have hlen := code.stuff_length_le f.payload
  have hroom : [fend,f.cmd].length+2*f.payload.length < sendBytes :=
    show 2+2*f.payload.length < 1204 by omega
  refine sendFrame_eq (code.stuffInto_all f.payload hroom) ?_
  show ([fend,f.cmd] ++ code.stuff f.payload).length < 1204
  simp only [List.length_append,List.length_cons,List.length_nil]; omega

theorem feed_opening (f : Frame) (p : Parser) :
    p.feed f.opening = (⟨true,false,f.cmd,f.payload⟩,p.handled) := by
  have hstuff := Parser.feed_payload f.cmd_ne_unknown (code.stuff f.payload)
    (code.flag_not_mem_stuff f.payload) ⟨false,[]⟩
  rw [code.foldl_accept_stuff f.payload (show ([] : Bytes).length ≤ frameMax from Nat.zero_le _),
    List.nil_append,
    List.take_of_length_le f.payload_le] at hstuff
  simp only [opening,Parser.feed,Parser.feedByte_fend,Parser.feedByte_cmd f.cmd_ne_fend,hstuff,
    List.append_nil]

theorem handled_eq (f : Frame) : (⟨true,false,f.cmd,f.payload⟩ : Parser).handled =
    [(f.cmd,f.payload)] := by
  simp [Parser.handled,f.cmd_ne_unknown]

end Frame

/-- What `send_frame` emits for a list of frames; the FEND that closes one frame may be the
one that opens the next. -/
inductive Stream : List Frame → Bytes → Prop where
  | nil : Stream [] []
  | apart {f : Frame} {out : Bytes} {fs : List Frame} {w : Bytes} :
      sendFrame true f.cmd f.payload = some [out] → Stream fs w → Stream (f :: fs) (out ++ w)
  | shared {f g : Frame} {out : Bytes} {fs : List Frame} {w : Bytes} :
      sendFrame true f.cmd f.payload = some [out ++ [fend]] → Stream (g :: fs) w →
      Stream (f :: g :: fs) (out ++ w)

/-- The first FEND of a stream runs what the parser was in, the others run the frames. -/
theorem Stream.feed {fs : List Frame} {w : Bytes} (h : Stream fs w) (p : Parser) :
    (p.feed w).2 = (if fs = [] then [] else p.handled) ++
      fs.map fun f => (f.cmd,f.payload) := by
  induction h generalizing p with
  | nil => rfl
  | @apart f out fs w hf _ ih =>
    rw [f.sendFrame] at hf
    cases hf
    rw [List.append_assoc,Parser.feed_append,f.feed_opening,List.singleton_append,Parser.feed,
      Parser.feedByte_fend,f.handled_eq]
    dsimp only
    rw [ih]
    simp
  | @shared f g out fs w hf _ ih =>
    rw [f.sendFrame] at hf
    have hout : out = f.opening := by simpa using hf.symm
    rw [hout,Parser.feed_append,f.feed_opening]
    dsimp only
    rw [ih,f.handled_eq]
    simp

end HeltecV3.RNodeKiss
