import RTReticulum.Forwarding
import RTReticulum.Library.Mealy

/-! `rnode_bridge.cpp`: the way of a packet from the host to the air. What a modem is for is a
machine of two fields; the bridge does what that machine does for the frames of the host. -/
set_option autoImplicit false

namespace HeltecV3.RNodeKiss
open RNS LoraInterface Mealy

structure Command where
  cmd : UInt8
  payload : Bytes
  accepted : Bool
  random : UInt8
  deriving DecidableEq

/-- A modem sends the data it is given while it is online. -/
structure Modem where
  online : Bool
  sent : List Bytes
  deriving DecidableEq

namespace Modem

def started : Modem := ⟨true,[]⟩

def obey (m : Modem) (c : Command) : Modem :=
  if c.cmd = cmdData then
    if m.online ∧ c.payload ≠ [] then { m with sent := m.sent ++ [c.payload.take (maxFrame-1)] }
    else m
  else if c.cmd = cmdRadioState ∧ c.payload.length = 1 ∧ c.payload ≠ [0xFF] ∧ c.accepted then
    { m with online := c.payload = [radioStateOn] }
  else m

def data (cs : List Command) : List Bytes :=
  (cs.filter fun c => c.cmd = cmdData ∧ c.payload ≠ []).map fun c => c.payload.take (maxFrame-1)

theorem obey_online {m : Modem} {c : Command} (hm : m.online = true)
    (hc : c.cmd ≠ cmdRadioState) : m.obey c = { m with sent := m.sent ++ data [c] } := by
  obtain ⟨online,sent⟩ := m
  subst hm
  by_cases hdata : c.cmd = cmdData
  · by_cases hnil : c.payload = [] <;> simp [obey,data,hdata,hnil]
  · simp [obey,data,hdata,hc]

theorem foldl_obey_online {cs : List Command} (h : ∀ c ∈ cs, c.cmd ≠ cmdRadioState)
    {m : Modem} (hm : m.online = true) :
    cs.foldl obey m = { m with sent := m.sent ++ data cs } := by
  induction cs generalizing m with
  | nil => simp [data]
  | cons c cs ih =>
    have hsplit : data (c :: cs) = data [c] ++ data cs := by
      rw [data,← List.singleton_append,List.filter_append,List.map_append]
      rfl
    have hrest := @ih (fun d hd => h d (List.mem_cons_of_mem c hd))
      { m with sent := m.sent ++ data [c] } hm
    rw [List.foldl_cons,obey_online hm (h c List.mem_cons_self),hrest,hsplit,List.append_assoc]

end Modem

def commands : Machine Parser Input Command := fun p x =>
  ((p.feedByte x.byte).1,
    (p.feedByte x.byte).2.map fun run => ⟨run.1,run.2,x.accepted,x.random⟩)

def respond (lora : Bool) : Machine RadioCfg Command Effect := fun cfg c =>
  handleFrame lora c.accepted c.payload cfg c.random c.cmd

theorem handleAll_respond (lora : Bool) (x : Input) (runs : List (UInt8 × Bytes))
    (cfg : RadioCfg) : Bridge.handleAll lora x runs cfg =
      run (respond lora) cfg (runs.map fun run => ⟨run.1,run.2,x.accepted,x.random⟩) := by
  induction runs generalizing cfg with
  | nil => rfl
  | cons r runs ih => rw [List.map_cons,run_cons,Bridge.handleAll,ih]; rfl

/-- `feed_byte` is the parser, then `handle_frame`. -/
theorem feedByte_pipe (lora : Bool) (s : Bridge) (x : Input) : s.feedByte lora x =
    (⟨(pipe commands (respond lora) (s.parser,s.gCfg) x).1.1,
      (pipe commands (respond lora) (s.parser,s.gCfg) x).1.2⟩,
      (pipe commands (respond lora) (s.parser,s.gCfg) x).2) := by
  simp only [Bridge.feedByte,handleAll_respond,pipe,commands]

theorem run_commands (p : Parser) (xs : List Input) :
    (run commands p xs).1 = (p.feed (xs.map Input.byte)).1 ∧
      (run commands p xs).2.map (fun c => (c.cmd,c.payload)) =
        (p.feed (xs.map Input.byte)).2 := by
  induction xs generalizing p with
  | nil => exact ⟨rfl,rfl⟩
  | cons x xs ih =>
    obtain ⟨hstate,hframes⟩ := ih (p.feedByte x.byte).1
    refine ⟨hstate,?_⟩
    rw [run_cons,List.map_append]
    refine congrArg₂ (· ++ ·) ?_ hframes
    rw [commands,List.map_map]
    exact List.map_id _

def Replies (r : RadioCfg × List Effect) : Prop := ∀ e ∈ r.2, ∃ cmd data, e = .frame cmd data

section
variable {accepted : Bool} {buf : Bytes} {cfg : RadioCfg} {random cmd : UInt8}

theorem Replies.nothing : Replies (cfg,[]) := fun _ he => by cases he

theorem Replies.reply (cmd : UInt8) (data : Bytes) : Replies (cfg,[.frame cmd data]) :=
  fun _ he => ⟨cmd,data,List.mem_singleton.mp he⟩

theorem Replies.ite {c : Prop} [Decidable c] {r r' : RadioCfg × List Effect} (h : Replies r)
    (h' : Replies r') : Replies (if c then r else r') := by
  split
  · exact h
  · exact h'

theorem handleFrame_replies (hdata : cmd ≠ cmdData) (hparam : ∀ p : Param, cmd ≠ p.cmd) :
    Replies (handleFrame true accepted buf cfg random cmd) := by
  have hfrequency : cmd ≠ cmdFrequency := hparam .frequency
  have hbandwidth : cmd ≠ cmdBandwidth := hparam .bandwidth
  have hsf : cmd ≠ cmdSf := hparam .sf
  have hcr : cmd ≠ cmdCr := hparam .cr
  have htxpower : cmd ≠ cmdTxpower := hparam .txpower
  have hradioState : cmd ≠ cmdRadioState := hparam .radioState
  rw [handleFrame,if_neg hdata,if_neg hfrequency,if_neg hbandwidth,if_neg hsf,if_neg hcr,
    if_neg htxpower,if_neg hradioState]
  refine .ite ?_ (.ite (.reply _ _) (.ite (.reply _ _) (.ite (.reply _ _) (.ite (.reply _ _)
    (.ite (.reply _ _) (.ite (.reply _ _) .nothing))))))
  split
  · exact .reply _ _
  · exact .nothing

end

namespace Device

def modem (d : Device) : Modem := ⟨d.radioOn,d.lora.transmitted.map List.tail⟩

theorem foldl_perform_replies {r : RadioCfg × List Effect} (h : Replies r) (d : Device) :
    r.2.foldl perform d = d := by
  obtain ⟨cfg,effects⟩ := r
  induction effects with
  | nil => rfl
  | cons e effects ih =>
    obtain ⟨cmd,data,rfl⟩ := h e List.mem_cons_self
    exact ih fun e he => h e (List.mem_cons_of_mem _ he)

@[simp] theorem perform_frame (d : Device) (cmd : UInt8) (data : Bytes) :
    d.perform (.frame cmd data) = d := rfl

theorem perform_set {x : Setting} (hx : x.param ≠ .radioState) (accepted : Bool) (d : Device) :
    d.perform (.set x accepted) = d := by
  cases x <;> first | exact absurd rfl hx | rfl

theorem perform_refused (x : Setting) (d : Device) : d.perform (.set x false) = d := by
  cases x <;> rfl

theorem modem_online (d : Device) (online : Bool) :
    (d.perform (.set (.radioOnline online) true)).modem = { d.modem with online := online } := by
  unfold perform
  dsimp only
  split
  · rename_i heq
    rw [modem,heq]
  · cases online <;> rfl

theorem modem_sendRaw (d : Device) (random : UInt8) (data : Bytes) :
    (d.perform (.sendRaw random data)).modem =
      if d.radioOn then { d.modem with sent := d.modem.sent ++ [data.take (maxFrame-1)] }
      else d.modem := by
  unfold perform LoraInterface.sendRaw
  dsimp only
  split
  · simp [modem]
  · rfl

theorem obey_param (m : Modem) (p : Param) (payload : Bytes) (accepted : Bool) (random : UInt8) :
    m.obey ⟨p.cmd,payload,accepted,random⟩ =
      if p = .radioState ∧ payload.length = 1 ∧ payload ≠ [0xFF] ∧ accepted then
        { m with online := payload = [radioStateOn] }
      else m := by
  cases p with
  | radioState =>
    have hcmd : Param.radioState.cmd ≠ cmdData := by decide
    rw [Modem.obey,if_neg hcmd]
    simp [Param.cmd]
  | _ => rfl

/-- What `handle_frame` does to the radio is what a modem does. -/
theorem respond_obey (cfg : RadioCfg) (c : Command) (d : Device) :
    ((respond true cfg c).2.foldl perform d).modem = d.modem.obey c := by
  obtain ⟨cmd,payload,accepted,random⟩ := c
  by_cases hdata : cmd = cmdData
  · subst hdata
    have heffects : (respond true cfg ⟨cmdData,payload,accepted,random⟩).2 =
        if payload.length = 0 then [] else [.sendRaw random payload] := by
      simp [respond,handleFrame]
    rw [heffects]
    by_cases hnil : payload = []
    · simp [hnil,Modem.obey]
    · rw [if_neg (by simpa using hnil),List.foldl_cons,List.foldl_nil,modem_sendRaw]
      simp [Modem.obey,hnil,modem]
  by_cases hparam : ∀ p : Param, cmd ≠ p.cmd
  · have hstate : cmd ≠ cmdRadioState := hparam .radioState
    rw [respond,foldl_perform_replies (handleFrame_replies hdata hparam)]
    simp [Modem.obey,hdata,hstate]
  push Not at hparam
  obtain ⟨p,rfl⟩ := hparam
  rw [respond]
  dsimp only
  rw [handleFrame_param,obey_param]
  by_cases hlen : payload.length = p.query.length
  · by_cases hquery : payload = p.query
    · rw [hquery,Param.handle_query]
      cases p <;> rfl
    rw [Param.handle_change hlen hquery]
    cases accepted with
    | false =>
      simp [perform_refused,sendError,sendU8]
    | true =>
      rw [if_pos ⟨rfl,rfl⟩]
      dsimp only
      rw [List.foldl_cons,List.foldl_cons,List.foldl_nil,perform_frame]
      by_cases hstate : p = .radioState
      · subst hstate
        obtain ⟨b,rfl⟩ := List.length_eq_one_iff.mp hlen
        rw [if_pos ⟨rfl,hlen,hquery,rfl⟩]
        refine (d.modem_online _).trans ?_
        simp
      · rw [if_neg fun h => hstate h.1,perform_set (by rwa [setting_param])]
  · rw [Param.handle_malformed hlen,if_neg]
    · rfl
    · rintro ⟨rfl,hone,-⟩
      exact hlen hone

theorem run_respond_obey (cs : List Command) (cfg : RadioCfg) (d : Device) :
    ((run (respond true) cfg cs).2.foldl perform d).modem = cs.foldl Modem.obey d.modem := by
  induction cs generalizing cfg d with
  | nil => rfl
  | cons c cs ih => rw [run_cons,List.foldl_append,ih,respond_obey,List.foldl_cons]

structure Follows (d : Device) (xs : List Input) (d' : Device) : Prop where
  parser : d'.bridge.parser = (run commands d.bridge.parser xs).1
  modem : d'.modem = (run commands d.bridge.parser xs).2.foldl Modem.obey d.modem

theorem Follows.refl (d : Device) : d.Follows [] d := ⟨rfl,rfl⟩

theorem Follows.trans {d d' d'' : Device} {xs ys : List Input} (h : d.Follows xs d')
    (h' : d'.Follows ys d'') : d.Follows (xs ++ ys) d'' where
  parser := by rw [h'.parser,h.parser,run_append]
  modem := by rw [h'.modem,h.parser,h.modem,run_append,List.foldl_append]

end Device

def Event.input : Event → Option Input
  | .host x => some x
  | _ => none

def hostInputs (its : List Iteration) : List Input :=
  its.flatMap fun it => it.events.filterMap Event.input

namespace Device

theorem foldl_perform_bridge (effects : List Effect) (d : Device) :
    (effects.foldl perform d).bridge = d.bridge := by
  induction effects generalizing d with
  | nil => rfl
  | cons e effects ih =>
    rw [List.foldl_cons,ih]
    unfold perform
    split
    · split <;> rfl
    · rfl
    · rfl

theorem handle_follows (d : Device) (e : Event) :
    d.Follows e.input.toList (d.handle e).1 := by
  cases e with
  | dio1 p => exact ⟨rfl,rfl⟩
  | ready => exact ⟨rfl,rfl⟩
  | host x =>
    have hfeed := feedByte_pipe true d.bridge x
    have hinput : (Event.host x).input.toList = [x] := rfl
    rw [hinput]
    refine ⟨?_,?_⟩
    · rw [handle,foldl_perform_bridge,hfeed,run_singleton]
      rfl
    · rw [handle,hfeed,run_singleton]
      exact run_respond_obey _ _ _

theorem handleAll_follows (events : List Event) (d : Device) :
    d.Follows (events.filterMap Event.input) (d.handleAll events).1 := by
  induction events generalizing d with
  | nil => exact .refl d
  | cons e events ih =>
    have hall := (d.handle_follows e).trans (ih (d.handle e).1)
    cases e <;> exact hall

def turns (d : Device) (its : List Iteration) : Device :=
  its.foldl (fun d it => (d.iterate it).1) d

theorem turns_follows (its : List Iteration) (d : Device) :
    d.Follows (hostInputs its) (d.turns its) := by
  induction its generalizing d with
  | nil => exact .refl d
  | cons it its ih =>
    have hturn : d.Follows (it.events.filterMap Event.input) (d.iterate it).1 :=
      d.handleAll_follows it.events
    exact hturn.trans (ih _)

end Device

/-- In every run, whatever the radio hears and whatever a setter returns, what the bridge has handed
to `transmit` is what a modem would have for the frames that the host wrote, in order; and if none
of them is about the radio state, that is all their data. -/
theorem host_to_air (its : List Iteration) (fs : List Frame)
    (hwire : Stream fs ((hostInputs its).map Input.byte)) :
    ∃ cs : List Command, cs.map (fun c => (c.cmd,c.payload)) = fs.map (fun f => (f.cmd,f.payload)) ∧
      (Device.boot.turns its).modem = cs.foldl Modem.obey .started ∧
      ((∀ f ∈ fs, f.cmd ≠ cmdRadioState) →
        (Device.boot.turns its).lora.transmitted.map List.tail =
          (fs.filter fun f => f.cmd = cmdData ∧ f.payload ≠ []).map
            fun f => f.payload.take (maxFrame-1)) := by
  have hmodem := (Device.boot.turns_follows its).modem
  obtain ⟨-,hframes⟩ := run_commands Parser.boot (hostInputs its)
  have hfeed := hwire.feed Parser.boot
  have hcs : (run commands Parser.boot (hostInputs its)).2.map (fun c => (c.cmd,c.payload)) =
      fs.map fun f => (f.cmd,f.payload) := by
    rw [hframes,hfeed]
    split <;> rfl
  refine ⟨_,hcs,hmodem,fun hstate => ?_⟩
  have hstate' : ∀ c ∈ (run commands Parser.boot (hostInputs its)).2, c.cmd ≠ cmdRadioState := by
    intro c hc
    have hmem := List.mem_map_of_mem (f := fun c : Command => (c.cmd,c.payload)) hc
    rw [hcs] at hmem
    obtain ⟨f,hf,heq⟩ := List.mem_map.mp hmem
    exact (Prod.mk.inj heq).1 ▸ hstate f hf
  have hsent := congrArg Modem.sent (hmodem.trans (Modem.foldl_obey_online hstate' rfl))
  have hdata := congrArg (fun runs : List (UInt8 × Bytes) =>
    (runs.filter fun run => run.1 = cmdData ∧ run.2 ≠ []).map fun run =>
      run.2.take (maxFrame-1)) hcs
  simp only [List.filter_map,List.map_map] at hdata
  exact hsent.trans hdata

theorem host_to_air_one : ((Device.boot.turns
    [⟨[.host ⟨0xC0,true,0⟩,.host ⟨0x00,true,0⟩,.host ⟨0xDB,true,0⟩],-100,40⟩,
      ⟨[.ready,.host ⟨0xDC,true,0⟩,.host ⟨0xC0,true,0⟩],-100,40⟩]).lora.transmitted.map
        List.tail) = [[0xC0]] := by
  have hwire : Stream [⟨0x00,[0xC0],by decide,by decide,by decide⟩]
      ([0xC0,0x00,0xDB,0xDC,0xC0] ++ []) := .apart rfl .nil
  obtain ⟨cs,-,-,hsent⟩ := host_to_air
    [⟨[.host ⟨0xC0,true,0⟩,.host ⟨0x00,true,0⟩,.host ⟨0xDB,true,0⟩],-100,40⟩,
      ⟨[.ready,.host ⟨0xDC,true,0⟩,.host ⟨0xC0,true,0⟩],-100,40⟩] _ hwire
  exact hsent (by decide)

end HeltecV3.RNodeKiss
