import RTReticulum.Kiss
import RTReticulum.Library.LastWrite

/-! `rnode_bridge.cpp`: what `handle_frame` does with a frame of the host. -/
set_option autoImplicit false

namespace HeltecV3.RNodeKiss
open RNS LastWrite

abbrev cmdData : UInt8 := 0x00
abbrev cmdFrequency : UInt8 := 0x01
abbrev cmdBandwidth : UInt8 := 0x02
abbrev cmdTxpower : UInt8 := 0x03
abbrev cmdSf : UInt8 := 0x04
abbrev cmdCr : UInt8 := 0x05
abbrev cmdRadioState : UInt8 := 0x06
abbrev cmdDetect : UInt8 := 0x08
abbrev cmdReady : UInt8 := 0x0F
abbrev cmdStatRssi : UInt8 := 0x23
abbrev cmdStatSnr : UInt8 := 0x24
abbrev cmdRandom : UInt8 := 0x40
abbrev cmdBoard : UInt8 := 0x47
abbrev cmdPlatform : UInt8 := 0x48
abbrev cmdMcu : UInt8 := 0x49
abbrev cmdFwVersion : UInt8 := 0x50
abbrev cmdError : UInt8 := 0x90
abbrev detectReq : UInt8 := 0x73
abbrev detectResp : UInt8 := 0x46
abbrev radioStateOff : UInt8 := 0x00
abbrev radioStateOn : UInt8 := 0x01
abbrev errorInitradio : UInt8 := 0x01
abbrev majVers : UInt8 := 0x01
abbrev minVers : UInt8 := 0x55
abbrev platformEsp32 : UInt8 := 0x80
abbrev mcuEsp32 : UInt8 := 0x81
abbrev boardHeltecV3 : UInt8 := 0x3A

structure RadioCfg where
  freqHz : UInt32 := 915000000
  bwHz : UInt32 := 125000
  sf : UInt8 := 9
  cr : UInt8 := 7
  txp : Int8 := 14
  state : UInt8 := radioStateOn
  deriving DecidableEq

/-- A call of a setter of the radio. Frequency and bandwidth are passed as a `float`, in MHz and
kHz. -/
inductive Setting where
  | frequencyMhz (hz : UInt32)
  | bandwidthKhz (hz : UInt32)
  | spreadingFactor (sf : UInt8)
  | codingRate (cr : UInt8)
  | txPowerDbm (dbm : Int8)
  | radioOnline (online : Bool)
  deriving DecidableEq

/-- What the bridge does on the outside: `send_frame`, a setter and what it returned, and
`send_raw` with the random byte it draws. -/
inductive Effect where
  | frame (cmd : UInt8) (data : Bytes)
  | set (x : Setting) (accepted : Bool)
  | sendRaw (random : UInt8) (data : Bytes)
  deriving DecidableEq

def sendU8 (cmd value : UInt8) : Effect := .frame cmd [value]

def sendError (code : UInt8) : Effect := sendU8 cmdError code

def splitHz (hz : UInt32) : Bytes :=
  [((hz >>> 24) &&& 0xFF).toUInt8,((hz >>> 16) &&& 0xFF).toUInt8,((hz >>> 8) &&& 0xFF).toUInt8,
    (hz &&& 0xFF).toUInt8]

def joinHz (buf : Bytes) : UInt32 :=
  (buf.getD 0 0).toUInt32 <<< 24 ||| (buf.getD 1 0).toUInt32 <<< 16 |||
    (buf.getD 2 0).toUInt32 <<< 8 ||| (buf.getD 3 0).toUInt32

def sendFreq (cfg : RadioCfg) : Effect := .frame cmdFrequency (splitHz cfg.freqHz)

def sendBw (cfg : RadioCfg) : Effect := .frame cmdBandwidth (splitHz cfg.bwHz)

def indicateReady : Effect := sendU8 cmdReady 0x01

/-- `g_lora && g_lora->set_…(…)`, for what the setter would return. -/
def ask (lora accepted : Bool) (x : Setting) : Bool × List Effect :=
  if lora then (accepted,[.set x accepted]) else (false,[])

/-- What the six commands for a parameter have in common: unless the frame is a query, the
change is asked for and kept or reported as an error; then the parameter is read back. -/
def configure (lora accepted : Bool) (change : Option (Setting × RadioCfg))
    (readback : RadioCfg → Effect) (cfg : RadioCfg) : RadioCfg × List Effect :=
  match change with
  | none => (cfg,[readback cfg])
  | some (x,cfg') =>
    let r := ask lora accepted x
    if r.1 then (cfg',r.2 ++ [readback cfg'])
    else (cfg,r.2 ++ [sendError errorInitradio,readback cfg])

section
variable (lora accepted : Bool) (buf : Bytes) (cfg : RadioCfg)

def handleFrequency : RadioCfg × List Effect :=
  if buf.length = 4 then
    let hz := joinHz buf
    configure lora accepted
      (if hz ≠ 0 then some (.frequencyMhz hz,{ cfg with freqHz := hz }) else none) sendFreq cfg
  else (cfg,[])

def handleBandwidth : RadioCfg × List Effect :=
  if buf.length = 4 then
    let hz := joinHz buf
    configure lora accepted
      (if hz ≠ 0 then some (.bandwidthKhz hz,{ cfg with bwHz := hz }) else none) sendBw cfg
  else (cfg,[])

def handleSf : RadioCfg × List Effect :=
  if buf.length = 1 then
    let b := buf.getD 0 0
    configure lora accepted
      (if b ≠ 0xFF then some (.spreadingFactor b,{ cfg with sf := b }) else none)
      (fun cfg => sendU8 cmdSf cfg.sf) cfg
  else (cfg,[])

def handleCr : RadioCfg × List Effect :=
  if buf.length = 1 then
    let b := buf.getD 0 0
    configure lora accepted
      (if b ≠ 0xFF then some (.codingRate b,{ cfg with cr := b }) else none)
      (fun cfg => sendU8 cmdCr cfg.cr) cfg
  else (cfg,[])

/-- The query byte is also -1 dBm. -/
def handleTxpower : RadioCfg × List Effect :=
  if buf.length = 1 then
    let b := buf.getD 0 0
    let dbm := b.toInt8
    configure lora accepted
      (if b ≠ 0xFF then some (.txPowerDbm dbm,{ cfg with txp := dbm }) else none)
      (fun cfg => sendU8 cmdTxpower cfg.txp.toUInt8) cfg
  else (cfg,[])

/-- Whatever is neither on nor the query byte is off. -/
def handleRadioState : RadioCfg × List Effect :=
  if buf.length = 1 then
    let b := buf.getD 0 0
    let want : Bool := b = radioStateOn
    configure lora accepted
      (if b ≠ 0xFF then
        some (.radioOnline want,{ cfg with state := if want then radioStateOn else radioStateOff })
      else none)
      (fun cfg => sendU8 cmdRadioState cfg.state) cfg
  else (cfg,[])

/-- `handle_frame`, with the byte that `esp_random` would return. -/
def handleFrame (random cmd : UInt8) : RadioCfg × List Effect :=
  if cmd = cmdData then
    (cfg,if buf.length = 0 then [] else if lora then [.sendRaw random buf] else [])
  else if cmd = cmdFrequency then handleFrequency lora accepted buf cfg
  else if cmd = cmdBandwidth then handleBandwidth lora accepted buf cfg
  else if cmd = cmdSf then handleSf lora accepted buf cfg
  else if cmd = cmdCr then handleCr lora accepted buf cfg
  else if cmd = cmdTxpower then handleTxpower lora accepted buf cfg
  else if cmd = cmdRadioState then handleRadioState lora accepted buf cfg
  else if cmd = cmdDetect then
    (cfg,if buf.length = 1 ∧ buf.getD 0 0 = detectReq then [sendU8 cmdDetect detectResp] else [])
  else if cmd = cmdReady then (cfg,[indicateReady])
  else if cmd = cmdFwVersion then (cfg,[.frame cmdFwVersion [majVers,minVers]])
  else if cmd = cmdPlatform then (cfg,[sendU8 cmdPlatform platformEsp32])
  else if cmd = cmdMcu then (cfg,[sendU8 cmdMcu mcuEsp32])
  else if cmd = cmdBoard then (cfg,[sendU8 cmdBoard boardHeltecV3])
  else if cmd = cmdRandom then (cfg,[sendU8 cmdRandom random])
  else (cfg,[])

end

inductive Param where
  | frequency | bandwidth | sf | cr | txpower | radioState
  deriving DecidableEq

namespace Param

def cmd : Param → UInt8
  | .frequency => cmdFrequency
  | .bandwidth => cmdBandwidth
  | .sf => cmdSf
  | .cr => cmdCr
  | .txpower => cmdTxpower
  | .radioState => cmdRadioState

/-- The payload that asks for the value and changes nothing. A well-formed one is as long. -/
def query : Param → Bytes
  | .frequency | .bandwidth => [0,0,0,0]
  | .sf | .cr | .txpower | .radioState => [0xFF]

def setting (buf : Bytes) : Param → Setting
  | .frequency => .frequencyMhz (joinHz buf)
  | .bandwidth => .bandwidthKhz (joinHz buf)
  | .sf => .spreadingFactor (buf.getD 0 0)
  | .cr => .codingRate (buf.getD 0 0)
  | .txpower => .txPowerDbm (buf.getD 0 0).toInt8
  | .radioState => .radioOnline (buf.getD 0 0 = radioStateOn)

def value (cfg : RadioCfg) : Param → Bytes
  | .frequency => splitHz cfg.freqHz
  | .bandwidth => splitHz cfg.bwHz
  | .sf => [cfg.sf]
  | .cr => [cfg.cr]
  | .txpower => [cfg.txp.toUInt8]
  | .radioState => [cfg.state]

end Param

namespace Setting

def param : Setting → Param
  | .frequencyMhz _ => .frequency
  | .bandwidthKhz _ => .bandwidth
  | .spreadingFactor _ => .sf
  | .codingRate _ => .cr
  | .txPowerDbm _ => .txpower
  | .radioOnline _ => .radioState

def bytes : Setting → Bytes
  | .frequencyMhz hz | .bandwidthKhz hz => splitHz hz
  | .spreadingFactor b | .codingRate b => [b]
  | .txPowerDbm dbm => [dbm.toUInt8]
  | .radioOnline online => [if online then radioStateOn else radioStateOff]

def store (cfg : RadioCfg) : Setting → RadioCfg
  | .frequencyMhz hz => { cfg with freqHz := hz }
  | .bandwidthKhz hz => { cfg with bwHz := hz }
  | .spreadingFactor b => { cfg with sf := b }
  | .codingRate b => { cfg with cr := b }
  | .txPowerDbm dbm => { cfg with txp := dbm }
  | .radioOnline online => { cfg with state := if online then radioStateOn else radioStateOff }

end Setting

def Effect.written (p : Param) : Effect → Option Bytes
  | .set x true => if x.param = p then some x.bytes else none
  | _ => none

def Effect.asked : Effect → Option (Setting × Bool)
  | .set x accepted => some (x,accepted)
  | _ => none

def Effect.sent : Effect → Option (UInt8 × Bytes)
  | .frame cmd data => some (cmd,data)
  | _ => none

def Effect.wire : Effect → Bytes
  | .frame cmd data => ((sendFrame true cmd data).getD []).flatten
  | _ => []

/-- What the host reads, with a parser like the one of the modem. -/
def hostFrames (effects : List Effect) : List (UInt8 × Bytes) :=
  (Parser.boot.feed (effects.flatMap Effect.wire)).2

/-- A frame that `send_frame` delimits as it should and does not cut. -/
def Effect.Fits : Effect → Prop
  | .frame cmd data => cmd ≠ fend ∧ cmd ≠ cmdUnknown ∧ data.length ≤ frameMax
  | _ => True

@[simp] theorem written_accepted (x : Setting) (p : Param) :
    (Effect.set x true).written p = if x.param = p then some x.bytes else none := rfl

theorem value_store (cfg : RadioCfg) (x : Setting) (p : Param) :
    p.value (x.store cfg) = if x.param = p then x.bytes else p.value cfg := by
  cases x <;> cases p <;> rfl

@[simp] theorem setting_param (p : Param) (buf : Bytes) : (p.setting buf).param = p := by
  cases p <;> rfl

theorem splitHz_joinHz {buf : Bytes} (h : buf.length = 4) : splitHz (joinHz buf) = buf := by
  obtain ⟨a,b,c,d,rfl⟩ := List.length_eq_four.mp h
  have hmask : ∀ i (hi : i < 8), (255#8)[i] = true := by decide
  simp only [splitHz,joinHz,List.getD_cons_zero,List.getD_cons_succ,List.cons.injEq,and_true]
  refine ⟨?_,?_,?_,?_⟩
  all_goals
    -- Bit by bit, all but one of the four shifts is out of range.
    apply UInt8.eq_of_toBitVec_eq
    apply BitVec.eq_of_getLsbD_eq
    intro i hi
    simp (disch := omega) [hmask,decide_eq_true,decide_eq_false]

section
variable (lora accepted : Bool) (buf : Bytes) (cfg : RadioCfg)

def Param.handle (p : Param) : RadioCfg × List Effect :=
  if buf.length = p.query.length then
    configure lora accepted
      (if buf ≠ p.query then some (p.setting buf,(p.setting buf).store cfg) else none)
      (fun cfg => .frame p.cmd (p.value cfg)) cfg
  else (cfg,[])

variable {lora accepted buf cfg}

/-- The shape of each of the six, whatever way it tells a query. -/
theorem Param.handle_eq (p : Param) {n : Nat} {c : Prop} [Decidable c] (hn : p.query.length = n)
    (hc : buf.length = n → (c ↔ buf ≠ p.query)) :
    (if buf.length = n then
      configure lora accepted (if c then some (p.setting buf,(p.setting buf).store cfg) else none)
        (fun cfg => .frame p.cmd (p.value cfg)) cfg
    else (cfg,[])) = p.handle lora accepted buf cfg := by
  subst hn
  unfold handle
  by_cases h : buf.length = p.query.length
  · rw [if_pos h,if_pos h,if_congr (hc h) rfl rfl]
  · rw [if_neg h,if_neg h]

theorem getD_ne_query (h : buf.length = 1) : buf.getD 0 0 ≠ 0xFF ↔ buf ≠ [0xFF] := by
  obtain ⟨b,rfl⟩ := List.length_eq_one_iff.mp h
  simp

theorem joinHz_ne_zero (h : buf.length = 4) : joinHz buf ≠ 0 ↔ buf ≠ [0,0,0,0] := by
  refine not_congr ⟨fun hz => ?_,fun hbuf => hbuf ▸ rfl⟩
  rw [← splitHz_joinHz h,hz]
  rfl

theorem handleFrame_param (random : UInt8) (p : Param) :
    handleFrame lora accepted buf cfg random p.cmd = p.handle lora accepted buf cfg := by
  cases p with
  | frequency => exact Param.frequency.handle_eq rfl joinHz_ne_zero
  | bandwidth => exact Param.bandwidth.handle_eq rfl joinHz_ne_zero
  | sf => exact Param.sf.handle_eq rfl getD_ne_query
  | cr => exact Param.cr.handle_eq rfl getD_ne_query
  | txpower => exact Param.txpower.handle_eq rfl getD_ne_query
  | radioState => exact Param.radioState.handle_eq rfl getD_ne_query

theorem Effect.written_of_asked {e : Effect} (h : e.asked = none) (p : Param) :
    e.written p = none := by
  cases e with
  | frame cmd data => rfl
  | set x accepted => cases h
  | sendRaw random data => rfl

def Unset (cfg : RadioCfg) (r : RadioCfg × List Effect) : Prop :=
  r.1 = cfg ∧ ∀ e ∈ r.2, e.asked = none ∧ e.Fits

theorem Unset.nothing : Unset cfg (cfg,[]) := ⟨rfl,fun e he => by cases he⟩

theorem Unset.reply {c : UInt8} {data : Bytes} (hc : c ≠ fend ∧ c ≠ cmdUnknown)
    (hdata : data.length ≤ 2) : Unset cfg (cfg,[.frame c data]) := by
  refine ⟨rfl,fun e he => ?_⟩
  rw [List.mem_singleton.mp he]
  exact ⟨rfl,hc.1,hc.2,Nat.le_trans hdata (show 2 ≤ 600 by decide)⟩

theorem Unset.ite {c : Prop} [Decidable c] {r r' : RadioCfg × List Effect} (h : Unset cfg r)
    (h' : Unset cfg r') : Unset cfg (if c then r else r') := by
  split
  · exact h
  · exact h'

theorem Unset.option {c : Prop} [Decidable c] {effects : List Effect}
    (h : Unset cfg (cfg,effects)) : Unset cfg (cfg,if c then effects else []) := by
  split
  · exact h
  · exact nothing

theorem handleFrame_other {random cmd : UInt8} (h : ∀ p : Param, cmd ≠ p.cmd) :
    Unset cfg (handleFrame lora accepted buf cfg random cmd) := by
  have hfrequency : cmd ≠ cmdFrequency := h .frequency
  have hbandwidth : cmd ≠ cmdBandwidth := h .bandwidth
  have hsf : cmd ≠ cmdSf := h .sf
  have hcr : cmd ≠ cmdCr := h .cr
  have htxpower : cmd ≠ cmdTxpower := h .txpower
  have hradioState : cmd ≠ cmdRadioState := h .radioState
  rw [handleFrame,if_neg hfrequency,if_neg hbandwidth,if_neg hsf,if_neg hcr,if_neg htxpower,
    if_neg hradioState]
  refine .ite ?_ (.ite (.option ?_) (.ite ?_ (.ite ?_ (.ite ?_ (.ite ?_ (.ite ?_ (.ite ?_
    .nothing)))))))
  · -- Data for the air; nothing goes back to the host.
    have hraw : Unset cfg (cfg,[.sendRaw random buf]) :=
      ⟨rfl,fun e he => by rw [List.mem_singleton.mp he]; exact ⟨rfl,trivial⟩⟩
    split
    · exact .nothing
    · exact hraw.option
  · exact .reply (by decide) (Nat.le_succ 1)
  · exact .reply (by decide) (Nat.le_succ 1)
  · exact .reply (by decide) (Nat.le_refl 2)
  · exact .reply (by decide) (Nat.le_succ 1)
  · exact .reply (by decide) (Nat.le_succ 1)
  · exact .reply (by decide) (Nat.le_succ 1)
  · exact .reply (by decide) (Nat.le_succ 1)

theorem Param.handle_query (p : Param) :
    p.handle lora accepted p.query cfg = (cfg,[.frame p.cmd (p.value cfg)]) := by
  simp [handle,configure]

theorem Param.handle_change {p : Param} (hlen : buf.length = p.query.length)
    (h : buf ≠ p.query) : p.handle lora accepted buf cfg =
      if lora ∧ accepted then ((p.setting buf).store cfg,
        [.set (p.setting buf) true,.frame p.cmd (p.value ((p.setting buf).store cfg))])
      else (cfg,(if lora then [.set (p.setting buf) accepted] else []) ++
        [sendError errorInitradio,.frame p.cmd (p.value cfg)]) := by
  rw [handle,if_pos hlen,if_pos h]
  cases lora <;> cases accepted <;> rfl

theorem Param.value_length (p : Param) : (p.value cfg).length = p.query.length := by
  cases p <;> rfl

theorem Param.readback_fits (p : Param) (cfg : RadioCfg) :
    (Effect.frame p.cmd (p.value cfg)).Fits := by
  have hlen : (p.value cfg).length ≤ frameMax := by
    rw [p.value_length]
    cases p <;> decide
  exact ⟨by cases p <;> decide,by cases p <;> decide,hlen⟩

theorem sendError_fits (code : UInt8) : (sendError code).Fits :=
  ⟨by decide,by decide,show 1 ≤ 600 by decide⟩

structure Param.Handled (p : Param) (lora accepted : Bool) (buf : Bytes) (cfg : RadioCfg)
    (r : RadioCfg × List Effect) : Prop where
  sent : r.2.filterMap Effect.sent =
    (if buf ≠ p.query ∧ ¬ (lora ∧ accepted) then [(cmdError,[errorInitradio])] else []) ++
      [(p.cmd,p.value r.1)]
  asked : r.2.filterMap Effect.asked =
    if buf ≠ p.query ∧ lora then [(p.setting buf,accepted)] else []
  fits : ∀ e ∈ r.2, e.Fits
  value : ∀ q : Param, q.value r.1 = latest (Effect.written q) (q.value cfg) r.2

theorem Param.handled_query (p : Param) :
    p.Handled lora accepted p.query cfg (p.handle lora accepted p.query cfg) := by
  rw [handle_query]
  refine ⟨?_,?_,List.forall_mem_singleton.mpr (p.readback_fits cfg),fun q => rfl⟩
  · rw [if_neg fun h => h.1 rfl]
    rfl
  · rw [if_neg fun h => h.1 rfl]
    rfl

theorem Param.handled_accepted {p : Param} (hlen : buf.length = p.query.length)
    (h : buf ≠ p.query) : p.Handled true true buf cfg (p.handle true true buf cfg) := by
  have hreadback := p.readback_fits ((p.setting buf).store cfg)
  rw [handle_change hlen h,if_pos ⟨rfl,rfl⟩]
  refine ⟨?_,?_,List.forall_mem_cons.mpr ⟨trivial,List.forall_mem_singleton.mpr hreadback⟩,
    fun q => ?_⟩
  · rw [if_neg fun h => h.2 ⟨rfl,rfl⟩]
    rfl
  · rw [if_pos ⟨h,rfl⟩]
    rfl
  · -- The readback writes nothing, so that the setter is the last to do so.
    show _ = latest _ _ ([_] ++ [_])
    rw [latest_append,latest_singleton,latest_singleton,value_store,written_accepted]
    split <;> rfl

theorem Param.handled_detached {p : Param} (hlen : buf.length = p.query.length)
    (h : buf ≠ p.query) : p.Handled false accepted buf cfg (p.handle false accepted buf cfg) := by
  have hreadback := List.forall_mem_singleton.mpr (p.readback_fits cfg)
  have hno : ¬ (false ∧ accepted) := fun h => Bool.false_ne_true h.1
  have hrefused : buf ≠ p.query ∧ ¬ (false ∧ accepted) := ⟨h,hno⟩
  have hasked : ¬ (buf ≠ p.query ∧ false) := fun h => Bool.false_ne_true h.2
  rw [handle_change hlen h,if_neg hno]
  refine ⟨?_,?_,List.forall_mem_cons.mpr ⟨sendError_fits _,hreadback⟩,fun q => rfl⟩
  · rw [if_pos hrefused]
    rfl
  · rw [if_neg hasked]
    rfl

theorem Param.handled_refused {p : Param} (hlen : buf.length = p.query.length)
    (h : buf ≠ p.query) : p.Handled true false buf cfg (p.handle true false buf cfg) := by
  have hreadback := List.forall_mem_singleton.mpr (p.readback_fits cfg)
  have hno : ¬ (true ∧ false) := fun h => Bool.false_ne_true h.2
  have hrefused : buf ≠ p.query ∧ ¬ (true ∧ false) := ⟨h,hno⟩
  have hasked : buf ≠ p.query ∧ true := ⟨h,rfl⟩
  rw [handle_change hlen h,if_neg hno]
  refine ⟨?_,?_,List.forall_mem_cons.mpr
    ⟨trivial,List.forall_mem_cons.mpr ⟨sendError_fits _,hreadback⟩⟩,fun q => rfl⟩
  · rw [if_pos hrefused]
    rfl
  · rw [if_pos hasked]
    rfl

theorem Param.handled (p : Param) (lora accepted : Bool) (cfg : RadioCfg)
    (hlen : buf.length = p.query.length) :
    p.Handled lora accepted buf cfg (p.handle lora accepted buf cfg) := by
  by_cases h : buf = p.query
  · subst h
    exact p.handled_query
  cases lora with
  | false => exact handled_detached hlen h
  | true =>
    cases accepted with
    | false => exact handled_refused hlen h
    | true => exact handled_accepted hlen h

theorem Param.handle_malformed {p : Param} (h : buf.length ≠ p.query.length) :
    p.handle lora accepted buf cfg = (cfg,[]) := if_neg h

theorem Param.handle_cfg (p : Param) : (p.handle lora accepted buf cfg).1 = cfg ∨
    (p.handle lora accepted buf cfg).1 = (p.setting buf).store cfg := by
  by_cases hlen : buf.length = p.query.length
  · by_cases h : buf = p.query
    · rw [h,handle_query]
      exact .inl rfl
    · rw [handle_change hlen h]
      split
      · exact .inr rfl
      · exact .inl rfl
  · rw [handle_malformed hlen]
    exact .inl rfl

variable {random cmd : UInt8}

/-- The cache follows what the radio accepts. -/
theorem handleFrame_value (q : Param) :
    q.value (handleFrame lora accepted buf cfg random cmd).1 = latest (Effect.written q)
      (q.value cfg) (handleFrame lora accepted buf cfg random cmd).2 := by
  by_cases h : ∀ p : Param, cmd ≠ p.cmd
  · obtain ⟨hcfg,heffects⟩ := handleFrame_other h
    rw [hcfg,latest_silent fun e he => Effect.written_of_asked (heffects e he).1 q]
  · push Not at h
    obtain ⟨p,rfl⟩ := h
    rw [handleFrame_param]
    by_cases hlen : buf.length = p.query.length
    · exact (p.handled lora accepted cfg hlen).value q
    · rw [Param.handle_malformed hlen]
      rfl

theorem handleFrame_fits :
    ∀ e ∈ (handleFrame lora accepted buf cfg random cmd).2, e.Fits := by
  by_cases h : ∀ p : Param, cmd ≠ p.cmd
  · exact fun e he => ((handleFrame_other h).2 e he).2
  · push Not at h
    obtain ⟨p,rfl⟩ := h
    rw [handleFrame_param]
    by_cases hlen : buf.length = p.query.length
    · exact (p.handled lora accepted cfg hlen).fits
    · rw [Param.handle_malformed hlen]
      simp

theorem handleFrame_ne {q : Param} (hq : q.cmd ≠ cmd) :
    q.value (handleFrame lora accepted buf cfg random cmd).1 = q.value cfg := by
  by_cases h : ∀ p : Param, cmd ≠ p.cmd
  · rw [(handleFrame_other h).1]
  · push Not at h
    obtain ⟨p,rfl⟩ := h
    have hne : p ≠ q := fun heq => hq (heq ▸ rfl)
    rw [handleFrame_param]
    rcases p.handle_cfg with hcfg | hcfg
    · rw [hcfg]
    · rw [hcfg,value_store,setting_param,if_neg hne]

end

theorem stream_wire {effects : List Effect} (h : ∀ e ∈ effects, e.Fits) :
    ∃ fs : List Frame, Stream fs (effects.flatMap Effect.wire) ∧
      fs.map (fun f => (f.cmd,f.payload)) = effects.filterMap Effect.sent := by
  induction effects with
  | nil => exact ⟨[],.nil,rfl⟩
  | cons e effects ih =>
    obtain ⟨fs,hfs,hsent⟩ := ih fun e he => h e (List.mem_cons_of_mem _ he)
    cases e with
    | frame cmd data =>
      obtain ⟨hfend,hunknown,hlen⟩ := h _ List.mem_cons_self
      let f : Frame := ⟨cmd,data,hfend,hunknown,hlen⟩
      have hf : sendFrame true cmd data = some [f.opening ++ [fend]] := f.sendFrame
      refine ⟨f :: fs,?_,?_⟩
      · have hwire : (Effect.frame cmd data).wire = f.opening ++ [fend] := by
          simp [Effect.wire,hf]
        rw [List.flatMap_cons,hwire]
        exact .apart f.sendFrame hfs
      · rw [List.map_cons,hsent]
        rfl
    | set x accepted => exact ⟨fs,hfs,hsent⟩
    | sendRaw random data => exact ⟨fs,hfs,hsent⟩

theorem hostFrames_eq {effects : List Effect} (h : ∀ e ∈ effects, e.Fits) :
    hostFrames effects = effects.filterMap Effect.sent := by
  obtain ⟨fs,hfs,hsent⟩ := stream_wire h
  rw [hostFrames,hfs.feed,hsent]
  split <;> rfl

end HeltecV3.RNodeKiss
