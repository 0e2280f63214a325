import RTReticulum.Commands

/-! `rnode_bridge.cpp`: the bytes of a host through `feed_byte`, and the cache of parameters that
`handle_frame` answers from. -/
set_option autoImplicit false

namespace HeltecV3.RNodeKiss
open RNS LastWrite

structure Bridge where
  parser : Parser
  gCfg : RadioCfg
  deriving DecidableEq

/-- A byte of the host, with what a setter called for it returns and `esp_random` draws. -/
structure Input where
  byte : UInt8
  accepted : Bool
  random : UInt8
  deriving DecidableEq

namespace Bridge

def boot : Bridge := ⟨Parser.boot,{}⟩

def handleAll (lora : Bool) (x : Input) : List (UInt8 × Bytes) → RadioCfg →
    RadioCfg × List Effect
  | [], cfg => (cfg,[])
  | (cmd,buf) :: runs, cfg =>
    let r := handleFrame lora x.accepted buf cfg x.random cmd
    let q := handleAll lora x runs r.1
    (q.1,r.2 ++ q.2)

def feedByte (lora : Bool) (s : Bridge) (x : Input) : Bridge × List Effect :=
  let p := s.parser.feedByte x.byte
  let r := handleAll lora x p.2 s.gCfg
  (⟨p.1,r.1⟩,r.2)

def feed (lora : Bool) (s : Bridge) : List Input → Bridge × List Effect
  | [] => (s,[])
  | x :: xs =>
    let r := s.feedByte lora x
    let q := r.1.feed lora xs
    (q.1,r.2 ++ q.2)

/-- The value of a parameter that the radio accepted last, or the one it boots with. -/
def mostRecent (p : Param) (history : List Effect) : Bytes :=
  latest (Effect.written p) (p.value {}) history

variable (lora : Bool) {s : Bridge} {x : Input}

theorem handleAll_value (q : Param) (runs : List (UInt8 × Bytes)) (cfg : RadioCfg) :
    q.value (handleAll lora x runs cfg).1 =
      latest (Effect.written q) (q.value cfg) (handleAll lora x runs cfg).2 := by
  induction runs generalizing cfg with
  | nil => rfl
  | cons run runs ih =>
    simp only [handleAll]
    rw [latest_append,← handleFrame_value q]
    exact ih _

theorem feedByte_value (q : Param) (s : Bridge) (x : Input) :
    q.value (s.feedByte lora x).1.gCfg =
      latest (Effect.written q) (q.value s.gCfg) (s.feedByte lora x).2 :=
  handleAll_value lora q _ _

theorem feedByte_handled {cmd : UInt8} {payload : Bytes}
    (h : (s.parser.feedByte x.byte).2 = [(cmd,payload)]) :
    (s.feedByte lora x).1.gCfg =
        (handleFrame lora x.accepted payload s.gCfg x.random cmd).1 ∧
      (s.feedByte lora x).2 = (handleFrame lora x.accepted payload s.gCfg x.random cmd).2 := by
  simp [feedByte,h,handleAll]

theorem feedByte_none (h : (s.parser.feedByte x.byte).2 = []) :
    (s.feedByte lora x).1.gCfg = s.gCfg ∧ (s.feedByte lora x).2 = [] := by
  simp [feedByte,h,handleAll]

theorem handleAll_fits (x : Input) (runs : List (UInt8 × Bytes)) (cfg : RadioCfg) :
    ∀ e ∈ (handleAll lora x runs cfg).2, e.Fits := by
  induction runs generalizing cfg with
  | nil => exact fun e he => absurd he List.not_mem_nil
  | cons run runs ih =>
    intro e he
    rcases List.mem_append.mp he with he | he
    · exact handleFrame_fits e he
    · exact ih _ e he

theorem parser_feed (s : Bridge) (xs : List Input) :
    (s.feed lora xs).1.parser = (s.parser.feed (xs.map Input.byte)).1 := by
  induction xs generalizing s with
  | nil => rfl
  | cons x xs ih => exact ih _

theorem feed_value (q : Param) (s : Bridge) (xs : List Input) : q.value (s.feed lora xs).1.gCfg =
    latest (Effect.written q) (q.value s.gCfg) (s.feed lora xs).2 := by
  induction xs generalizing s with
  | nil => rfl
  | cons x xs ih =>
    simp only [feed]
    rw [latest_append,← feedByte_value lora q]
    exact ih _

/-- A frame that the host writes is handled at its closing FEND, whatever came before. -/
theorem handled_of_opening {xs : List Input} {before : Bytes} {f : Frame}
    (h : xs.map Input.byte = before ++ f.opening) (hx : x.byte = fend) :
    ((boot.feed lora xs).1.parser.feedByte x.byte).2 = [(f.cmd,f.payload)] := by
  rw [parser_feed,h,Parser.feed_append,f.feed_opening,hx,Parser.feedByte_fend]
  exact f.handled_eq

variable {lora}

/-- In every run, a well-formed frame for a parameter is answered by exactly one readback, of the
value that the radio accepted last, after an error exactly if a change was asked for and not
accepted; and no frame changes the parameters of other commands. -/
theorem readback_most_recent {xs : List Input} {history : List Effect}
    (h : boot.feed lora xs = (s,history)) (x : Input) :
    (∀ q : Param, q.value s.gCfg = mostRecent q history) ∧
    (∀ (p : Param) payload, (s.parser.feedByte x.byte).2 = [(p.cmd,payload)] →
      payload.length = p.query.length →
      hostFrames (s.feedByte lora x).2 =
        (if payload ≠ p.query ∧ ¬ (lora ∧ x.accepted) then [(cmdError,[errorInitradio])] else []) ++
          [(p.cmd,mostRecent p (history ++ (s.feedByte lora x).2))] ∧
      (s.feedByte lora x).2.filterMap Effect.asked =
        if payload ≠ p.query ∧ lora then [(p.setting payload,x.accepted)] else []) ∧
    (∀ cmd payload, (s.parser.feedByte x.byte).2 = [(cmd,payload)] → ∀ q : Param, q.cmd ≠ cmd →
      q.value (s.feedByte lora x).1.gCfg = q.value s.gCfg) ∧
    ((s.parser.feedByte x.byte).2 = [] →
      (s.feedByte lora x).1.gCfg = s.gCfg ∧ (s.feedByte lora x).2 = []) ∧
    ∀ before (f : Frame), xs.map Input.byte = before ++ f.opening → x.byte = fend →
      (s.parser.feedByte x.byte).2 = [(f.cmd,f.payload)] := by
  have hvalue (q : Param) : q.value s.gCfg = mostRecent q history := by
    have hrun := feed_value lora q boot xs
    rwa [h] at hrun
  refine ⟨hvalue,fun p payload hp hlen => ?_,fun cmd payload hp q hq => ?_,feedByte_none lora,
    fun before f hxs hx => ?_⟩
  · obtain ⟨hcfg,heffects⟩ := feedByte_handled lora hp
    rw [handleFrame_param] at hcfg heffects
    have hhandled := p.handled lora x.accepted s.gCfg hlen
    have hrecent : mostRecent p (history ++ (s.feedByte lora x).2) =
        p.value (s.feedByte lora x).1.gCfg := by
      rw [mostRecent,latest_append,feedByte_value,hvalue]
      rfl
    rw [hrecent,hcfg,heffects]
    exact ⟨(hostFrames_eq hhandled.fits).trans hhandled.sent,hhandled.asked⟩
  · rw [(feedByte_handled lora hp).1]
    exact handleFrame_ne hq
  · have hopened := handled_of_opening lora hxs hx
    rwa [h] at hopened

theorem readback_most_recent_sf :
    hostFrames ((boot.feed true [⟨0xC0,true,0⟩,⟨0x04,true,0⟩,⟨0x0A,true,0⟩]).1.feedByte true
      ⟨0xC0,true,0⟩).2 = [(0x04,[0x0A])] ∧
    hostFrames ((boot.feed true [⟨0xC0,true,0⟩,⟨0x04,true,0⟩,⟨0x0A,true,0⟩]).1.feedByte true
      ⟨0xC0,false,0⟩).2 = [(0x90,[0x01]),(0x04,[0x09])] := by
  obtain ⟨-,haccepted,-⟩ := readback_most_recent rfl ⟨0xC0,true,0⟩
  obtain ⟨-,hrefused,-⟩ := readback_most_recent rfl ⟨0xC0,false,0⟩
  exact ⟨(haccepted .sf [0x0A] rfl rfl).1,(hrefused .sf [0x0A] rfl rfl).1⟩

end Bridge

end HeltecV3.RNodeKiss
