import RTReticulum.Simulation

/-! The landing page of the NomadNet node: a page of 2048 bytes, filled by one `snprintf`
after the other. -/
set_option autoImplicit false

namespace RNS

/-- The path table in the order of `std::map`, that of `Bytes::compare`. -/
def Node.pathsInOrder (n : Node) : List (Bytes × PathEntry) :=
  (n.pathTable.keys.sort fun a b => a ≤ b).filterMap fun hash =>
    (n.pathTable.lookup hash).map fun entry => (hash,entry)

def Node.recallAppData (n : Node) (hash : Bytes) : Bytes :=
  match n.knownDestinations.lookup hash with
  | none => []
  | some known => known.appData

end RNS

namespace HeltecV3.NomadnetNode
open RNS

def text (s : String) : Bytes := s.toList.map fun c => c.toNat.toUInt8

def cStr (b : Bytes) : Bytes := b.takeWhile (· ≠ 0)

structure InterfaceImpl where
  name : Bytes
  online : Bool
  rxb : UInt32
  txb : UInt32

/-- What one call of `serve_index` finds on the device and on its stack. -/
structure Readings where
  /-- Seconds since the start. -/
  secs : UInt64
  freeHeap : UInt32
  minHeap : UInt32
  rssi : Int8
  batMv : UInt32
  /-- Seconds since the path to a destination was written, as an `unsigned`. -/
  age : Bytes → UInt32
  stack : Bytes
  stack_length : stack.length = 2048

/-- The string in a buffer of `len` bytes. -/
def fmtUptime (len : Nat) (secs : UInt64) : Bytes :=
  let d := (secs / 86400).toUInt32
  let h := ((secs % 86400) / 3600).toUInt32
  let m := ((secs % 3600) / 60).toUInt32
  let s := (secs % 60).toUInt32
  (text (if d > 0 then s!"{d}d {h}h {m}m {s}s"
    else if h > 0 then s!"{h}h {m}m {s}s"
    else if m > 0 then s!"{m}m {s}s"
    else s!"{s}s")).take (len-1)

def statusText (r : Readings) : Bytes :=
  let cv := r.batMv % 1000 / 10
  let zero := if cv < 10 then "0" else ""
  text ">RTReticulum\n\nUptime ........ " ++ fmtUptime 32 r.secs ++
    text s!"\n\nBattery ....... {r.batMv / 1000}.{zero}{cv}V\n\n" ++
    text s!"Free heap ..... {r.freeHeap} KB (min {r.minHeap} KB)\n\n" ++
    text s!"WiFi RSSI ..... {r.rssi} dBm\n"

def ifaceLine (iface : InterfaceImpl) : Bytes :=
  let state := if iface.online then "online" else "offline"
  cStr iface.name ++ text s!"  TX {iface.txb}B  RX {iface.rxb}B  {state}\n\n"

def peerLine (r : Readings) (node : Node) (path : Bytes × PathEntry) : Bytes :=
  let hashShort := (Bytes.toHex path.1).take 12
  let name := node.recallAppData path.1
  let rest := text s!"  {path.2.hops} hop  " ++ fmtUptime 32 (r.age path.1).toUInt64 ++
    text " ago\n\n"
  if name ≠ [] then hashShort ++ text "  " ++ cStr name ++ rest else hashShort ++ rest

/-- What `snprintf` writes and returns, for what its format makes of its arguments. It returns
an `int`, and neither takes a size nor returns a length that is too large for one. -/
def snprintf (size : UInt32) (s : Bytes) : Bytes × Int32 :=
  if 2^31 ≤ size.toNat then ([],-1)
  else (if size = 0 then [] else s.take (size.toNat-1) ++ [0],
    if s.length < 2^31 then Int32.ofNat s.length else -1)

structure Call where
  offset : Int32
  size : UInt32
  text : Bytes

structure Page where
  bytes : Bytes
  n : Int32 := 0
  calls : List Call := []

namespace Page

/-- `n += snprintf(page + n, sizeof(page) - n, ..)`. A write at an offset that is not in the
page is not seen in it. -/
def snprintf (p : Page) (s : Bytes) : Page :=
  let size : UInt32 := 2048 - p.n.toUInt32
  let out := NomadnetNode.snprintf size s
  { bytes := if 0 ≤ p.n ∧ p.n ≤ 2048 then
      p.bytes.take p.n.toInt.toNat ++ out.1 ++ p.bytes.drop (p.n.toInt.toNat + out.1.length)
    else p.bytes
    n := p.n + out.2
    calls := p.calls ++ [⟨p.n,size,s⟩] }

def peers (r : Readings) (gDest : Destination) (node : Node) :
    List (Bytes × PathEntry) → Page → Page
  | [], page => page
  | path :: paths, page =>
    if path.1 = gDest.hash then peers r gDest node paths page
    else
      let page := page.snprintf (peerLine r node path)
      if 2048 - 64 ≤ page.n.toUInt32 then page else peers r gDest node paths page

end Page

def fillPage (r : Readings) (impl : Nat → InterfaceImpl) (gDest : Destination) (node : Node) :
    Page :=
  let page : Page := { bytes := r.stack }
  let page := page.snprintf (statusText r)
  let page := page.snprintf (text "\n>Interfaces\n\n")
  let page := node.interfaces.foldl (fun page i => page.snprintf (ifaceLine (impl i))) page
  let paths := node.pathsInOrder
  let page := if paths.isEmpty then page
    else (page.snprintf (text ">Known Peers\n\n")).peers r gDest node paths
  page.snprintf (text "-\n\nServed live by RTReticulum on ESP32-S3\n")

def serveIndex (r : Readings) (impl : Nat → InterfaceImpl) (gDest : Destination) (node : Node) :
    Bytes :=
  let page := fillPage r impl gDest node
  let n := if page.n < 0 ∨ 2048 ≤ page.n.toUInt32 then 2047 else page.n
  page.bytes.take n.toInt.toNat

section
variable {n : Int32} {t k : Nat}

theorem toNat_offset (h : n.toInt = t) : n.toUInt32.toNat = t := by
  have hn : 0 ≤ n := by
    rw [Int32.le_iff_toInt_le,h]
    simp
  rw [Int32.toNat_toUInt32_of_le hn,Int32.toNatClampNeg,h]
  simp

theorem toNat_remaining (h : n.toInt = t) (ht : t ≤ 2048) :
    (2048 - n.toUInt32).toNat = 2048 - t := by
  have hn := toNat_offset h
  have hle : n.toUInt32 ≤ 2048 := by
    rw [UInt32.le_iff_toNat_le,hn]
    exact ht
  rw [UInt32.toNat_sub_of_le _ _ hle,hn]
  rfl

theorem toInt_advance (h : n.toInt = t) (ht : t + k < 2^31) :
    (n + Int32.ofNat k).toInt = (t + k : Nat) := by
  rw [Int32.toInt_add,h,Int32.toInt_ofNat_of_lt (by omega),
    Int.bmod_eq_of_le (by omega) (by omega)]
  simp

end

def total (texts : List Bytes) : Nat := (texts.map List.length).sum

@[simp] theorem total_nil : total [] = 0 := rfl

@[simp] theorem total_cons (s : Bytes) (texts : List Bytes) :
    total (s :: texts) = s.length + total texts := rfl

@[simp] theorem total_append (texts texts' : List Bytes) :
    total (texts ++ texts') = total texts + total texts' := by simp [total]

theorem snprintf_length (size : UInt32) (s : Bytes) : (snprintf size s).1.length ≤ size.toNat := by
  unfold snprintf
  split
  · exact Nat.zero_le _
  · by_cases hzero : size = 0
    · simp [hzero]
    · have hpos : size.toNat ≠ 0 := fun h => hzero (UInt32.toNat_inj.mp h)
      simp only [if_neg hzero,List.length_append,List.length_take,List.length_singleton]
      omega

structure Call.WithinAt (t : Nat) (c : Call) : Prop where
  offset : c.offset.toInt = t
  le : t ≤ 2048
  size : c.size.toNat = 2048 - t
  inside : t + (snprintf c.size c.text).1.length ≤ 2048

def Within (calls : List Call) : Prop :=
  ∀ before c after, calls = before ++ c :: after → c.WithinAt (total (before.map Call.text))

theorem within_nil : Within [] := fun before c after h => by simp at h

theorem within_concat {calls : List Call} {c : Call} :
    Within (calls ++ [c]) ↔ Within calls ∧ c.WithinAt (total (calls.map Call.text)) := by
  constructor
  · intro h
    refine ⟨fun before d after hd => ?_,h calls c [] rfl⟩
    exact h before d (after ++ [c]) (by rw [hd,List.append_assoc,List.cons_append])
  · rintro ⟨h,hc⟩ before d after hd
    rcases List.eq_nil_or_concat after with rfl | ⟨after,e,rfl⟩
    · obtain ⟨rfl,hde⟩ := List.append_inj' hd rfl
      obtain ⟨rfl,-⟩ := List.cons.inj hde
      exact hc
    · rw [List.concat_eq_append,← List.cons_append,← List.append_assoc] at hd
      exact h before d after (List.append_inj' hd rfl).1

namespace Page

def total (p : Page) : Nat := NomadnetNode.total (p.calls.map Call.text)

structure Sound (p : Page) : Prop where
  within : Within p.calls
  offset : p.n.toInt = p.total
  le : p.total ≤ 2048

variable {p : Page} {s : Bytes}

@[simp] theorem snprintf_calls :
    (p.snprintf s).calls = p.calls ++ [⟨p.n,2048 - p.n.toUInt32,s⟩] := rfl

@[simp] theorem snprintf_total : (p.snprintf s).total = p.total + s.length := by
  simp [total]

theorem snprintf_within : Within (p.snprintf s).calls ↔ p.Sound := by
  rw [snprintf_calls,within_concat]
  constructor
  · rintro ⟨h,hc⟩
    exact ⟨h,hc.offset,hc.le⟩
  · intro h
    have hle := h.le
    have hsize := toNat_remaining h.offset hle
    have hwritten := snprintf_length (2048 - p.n.toUInt32) s
    rw [hsize] at hwritten
    have hinside : p.total + (NomadnetNode.snprintf (2048 - p.n.toUInt32) s).1.length ≤ 2048 := by
      omega
    exact ⟨h.within,h.offset,hle,hsize,hinside⟩

theorem snprintf_n (h : p.Sound) (hs : s.length < 2^31) :
    (p.snprintf s).n = p.n + Int32.ofNat s.length := by
  have hsize : ¬ 2^31 ≤ (2048 - p.n.toUInt32).toNat := by
    rw [toNat_remaining h.offset h.le]
    omega
  simp only [snprintf,NomadnetNode.snprintf,if_neg hsize,if_pos hs]

/-- What one call preserves: the offset stays right as long as the text fits. -/
theorem snprintf_sound : (p.snprintf s).Sound ↔ p.Sound ∧ p.total + s.length ≤ 2048 := by
  constructor
  · intro h
    exact ⟨snprintf_within.mp h.within,by simpa using h.le⟩
  · rintro ⟨h,hle⟩
    refine ⟨snprintf_within.mpr h,?_,by simpa using hle⟩
    rw [snprintf_n h (by omega),toInt_advance h.offset (by omega),snprintf_total]

def appends (p : Page) (texts : List Bytes) : Page := texts.foldl snprintf p

theorem appends_total (texts : List Bytes) (p : Page) :
    (p.appends texts).total = p.total + NomadnetNode.total texts := by
  induction texts generalizing p with
  | nil => rfl
  | cons s texts ih =>
    have hcons : p.appends (s :: texts) = (p.snprintf s).appends texts := rfl
    rw [hcons,ih,snprintf_total,total_cons,Nat.add_assoc]

theorem appends_sound (texts : List Bytes) (p : Page) :
    (p.appends texts).Sound ↔ p.Sound ∧ p.total + NomadnetNode.total texts ≤ 2048 := by
  induction texts generalizing p with
  | nil => exact ⟨fun h => ⟨h,h.le⟩,fun h => h.1⟩
  | cons s texts ih =>
    have hcons : p.appends (s :: texts) = (p.snprintf s).appends texts := rfl
    rw [hcons,ih,snprintf_sound,snprintf_total,total_cons]
    constructor
    · rintro ⟨⟨h,-⟩,hle⟩
      exact ⟨h,by omega⟩
    · rintro ⟨h,hle⟩
      exact ⟨⟨h,by omega⟩,by omega⟩

end Page

def peerLines (r : Readings) (gDest : Destination) (node : Node)
    (paths : List (Bytes × PathEntry)) : List Bytes :=
  (paths.filter fun path => path.1 ≠ gDest.hash).map (peerLine r node)

/-- After `t` bytes, the line with which the page first reaches 1984 bytes ends in it, and so
does every line before. -/
def LinesFit (t : Nat) (lines : List Bytes) : Prop :=
  ∀ k < lines.length, k = 0 ∨ t + total (lines.take k) < 1984 →
    t + total (lines.take (k+1)) ≤ 2048

theorem linesFit_cons {t : Nat} {s : Bytes} {lines : List Bytes} :
    LinesFit t (s :: lines) ↔
      t + s.length ≤ 2048 ∧ (t + s.length < 1984 → LinesFit (t + s.length) lines) := by
  constructor
  · intro h
    refine ⟨by simpa using h 0 (by simp) (.inl rfl),fun hlt k hk hk' => ?_⟩
    have hnext := h (k+1) (by simpa using hk) (.inr ?_)
    · simp only [List.take_succ_cons,total_cons] at hnext
      omega
    · simp only [List.take_succ_cons,total_cons]
      rcases hk' with rfl | hk'
      · simpa using hlt
      · omega
  · rintro ⟨hle,h⟩ k hk hk'
    cases k with
    | zero => simpa using hle
    | succ k =>
      have hlt : t + (s.length + total (lines.take k)) < 1984 := by simpa using hk'
      have hnext := h (by omega) k (by simpa using hk) (.inr (by omega))
      simp only [List.take_succ_cons,total_cons]
      omega

namespace Page
variable {r : Readings} {gDest : Destination} {node : Node}

theorem Sound.break_iff {p : Page} (h : p.Sound) :
    2048 - 64 ≤ p.n.toUInt32 ↔ 1984 ≤ p.total := by
  have hsub : (2048 - 64 : UInt32).toNat = 1984 := rfl
  rw [UInt32.le_iff_toNat_le,toNat_offset h.offset,hsub]

theorem peers_sound (paths : List (Bytes × PathEntry)) (p : Page) :
    (p.peers r gDest node paths).Sound ↔
      p.Sound ∧ LinesFit p.total (peerLines r gDest node paths) := by
  induction paths generalizing p with
  | nil => exact ⟨fun h => ⟨h,fun k hk => by simp [peerLines] at hk⟩,fun h => h.1⟩
  | cons path paths ih =>
    by_cases hown : path.1 = gDest.hash
    · have hlines : peerLines r gDest node (path :: paths) = peerLines r gDest node paths := by
        simp [peerLines,hown]
      rw [peers,if_pos hown,ih,hlines]
    · have hlines : peerLines r gDest node (path :: paths) =
          peerLine r node path :: peerLines r gDest node paths := by simp [peerLines,hown]
      have hsound := snprintf_sound (p := p) (s := peerLine r node path)
      rw [peers,if_neg hown,hlines,linesFit_cons,← and_assoc,← hsound]
      dsimp only
      split
      · rename_i hbreak
        refine ⟨fun h => ⟨h,fun hlt => ?_⟩,fun h => h.1⟩
        have hge := h.break_iff.mp hbreak
        rw [snprintf_total] at hge
        omega
      · rename_i hgo
        rw [ih,snprintf_total]
        refine ⟨fun h => ⟨h.1,fun _ => h.2⟩,fun h => ⟨h.1,h.2 ?_⟩⟩
        have hlt := mt h.1.break_iff.mpr hgo
        rw [snprintf_total] at hlt
        omega

end Page

section
variable (r : Readings) (impl : Nat → InterfaceImpl) (gDest : Destination) (node : Node)

def headTexts : List Bytes :=
  statusText r :: text "\n>Interfaces\n\n" :: node.interfaces.map (fun i => ifaceLine (impl i)) ++
    if node.pathsInOrder.isEmpty then [] else [text ">Known Peers\n\n"]

def bodyPage : Page :=
  (Page.appends { bytes := r.stack } (headTexts r impl node)).peers r gDest node
    node.pathsInOrder

theorem fillPage_eq : fillPage r impl gDest node =
    (bodyPage r impl gDest node).snprintf
      (text "-\n\nServed live by RTReticulum on ESP32-S3\n") := by
  have hfold : ∀ (is : List Nat) (p : Page), is.foldl
      (fun page i => page.snprintf (ifaceLine (impl i))) p =
        p.appends (is.map fun i => ifaceLine (impl i)) := by
    intro is p
    rw [Page.appends,List.foldl_map]
  unfold fillPage bodyPage headTexts
  simp only [hfold]
  cases hpaths : node.pathsInOrder with
  | nil => simp [Page.appends,Page.peers]
  | cons path paths => simp [Page.appends]

theorem last_call : ∃ c ∈ (fillPage r impl gDest node).calls,
    c.offset = (bodyPage r impl gDest node).n ∧
    c.size = 2048 - (bodyPage r impl gDest node).n.toUInt32 := by
  rw [fillPage_eq,Page.snprintf_calls]
  exact ⟨_,List.mem_append_right _ (.head _),rfl,rfl⟩

theorem stackPage_sound : ({ bytes := r.stack } : Page).Sound := ⟨within_nil,rfl,Nat.zero_le _⟩

theorem bodyPage_sound : (bodyPage r impl gDest node).Sound ↔
    total (headTexts r impl node) ≤ 2048 ∧ LinesFit (total (headTexts r impl node))
      (peerLines r gDest node node.pathsInOrder) := by
  have hzero : ({ bytes := r.stack } : Page).total = 0 := rfl
  rw [bodyPage,Page.peers_sound,Page.appends_sound,Page.appends_total,hzero,Nat.zero_add]
  simp [stackPage_sound]

end

/-- The running offset stays in the page just when what is written before the first peer does,
and with it the lines of the peers until 1984 bytes are reached. -/
theorem page_within_iff (r : Readings) (impl : Nat → InterfaceImpl) (gDest : Destination)
    (node : Node) : Within (fillPage r impl gDest node).calls ↔
      total (headTexts r impl node) ≤ 2048 ∧ LinesFit (total (headTexts r impl node))
        (peerLines r gDest node node.pathsInOrder) := by
  rw [fillPage_eq,Page.snprintf_within,bodyPage_sound]

/-- A node that has just started, with one interface of a name of 2000 characters: the last
call is given an offset outside the page and a size above that of the page. -/
theorem page_underflows : ∃ (node : Node) (r : Readings) (impl : Nat → InterfaceImpl) (c : Call),
    Reachable Sample.platform node ∧ node.interfaces = [0] ∧
    (impl 0).name = List.replicate 2000 0x41 ∧
    c ∈ (fillPage r impl Sample.destination node).calls ∧ 2048 < c.offset.toInt ∧
    2048 < c.size.toNat ∧ ¬ Within (fillPage r impl Sample.destination node).calls := by
  obtain ⟨node,hnode,hq⟩ := reachable_of_endsIn Sample.platform [.registerInterface 0]
    (Sample.rng 2) (fun n => n.interfaces = [0] ∧ n.pathTable.keys = ∅) (by decide +kernel)
  obtain ⟨hifaces,hkeys⟩ := of_decide_eq_true hq
  let r : Readings := ⟨93784,120,100,-60,3987,fun _ => 0,List.replicate 2048 0,
    List.length_replicate⟩
  let impl : Nat → InterfaceImpl := fun _ => ⟨List.replicate 2000 0x41,true,0,0⟩
  have hpaths : node.pathsInOrder = [] := by simp [Node.pathsInOrder,hkeys]
  have hbody : bodyPage r impl Sample.destination node = Page.appends { bytes := r.stack }
      [statusText r,text "\n>Interfaces\n\n",ifaceLine (impl 0)] := by
    simp [bodyPage,headTexts,hpaths,hifaces,Page.peers]
  have hn : 2048 < (bodyPage r impl Sample.destination node).n.toInt ∧
      2048 < (2048 - (bodyPage r impl Sample.destination node).n.toUInt32).toNat := by
    rw [hbody]
    decide +kernel
  obtain ⟨c,hc,hoffset,hsize⟩ := last_call r impl Sample.destination node
  rw [← hsize,← hoffset] at hn
  refine ⟨node,r,impl,c,hnode,hifaces,rfl,hc,hn.1,hn.2,fun h => ?_⟩
  rw [fillPage_eq,Page.snprintf_within] at h
  have hle := h.le
  have htotal := h.offset
  rw [← hoffset] at htotal
  omega

/-- The bytes of the page so far are the texts so far, but for the last byte of the page. -/
structure Page.Filled (p : Page) : Prop where
  length : p.bytes.length = 2048
  texts : p.bytes.take (min p.total 2047) = (p.calls.map Call.text).flatten.take 2047

theorem Page.Sound.snprintf_bytes {p : Page} (h : p.Sound) (s : Bytes) :
    let w := if p.total = 2048 then [] else s.take (2047 - p.total) ++ [0]
    (p.snprintf s).bytes = p.bytes.take p.total ++ w ++ p.bytes.drop (p.total + w.length) := by
  have hn : 0 ≤ p.n ∧ p.n ≤ 2048 := by
    rw [Int32.le_iff_toInt_le,Int32.le_iff_toInt_le,h.offset]
    exact ⟨Int.natCast_nonneg _,Int.ofNat_le.mpr h.le⟩
  have hsize := toNat_remaining h.offset h.le
  have hzero : 2048 - p.n.toUInt32 = 0 ↔ p.total = 2048 := by
    have hle := h.le
    rw [← UInt32.toNat_inj,hsize]
    simp only [UInt32.toNat_zero]
    omega
  have hbig : ¬ 2^31 ≤ 2048 - p.total := by omega
  have hlast : 2048 - p.total - 1 = 2047 - p.total := by omega
  have htake : p.n.toInt.toNat = p.total := by simp [h.offset]
  simp only [snprintf,NomadnetNode.snprintf,if_pos hn,hsize,if_neg hbig,hzero,hlast,htake]

theorem Page.Sound.filled {p : Page} (h : p.Sound) (hf : p.Filled) (s : Bytes) :
    (p.snprintf s).Filled := by
  have hle := h.le
  have hlen := hf.length
  have hflat : ((p.calls.map Call.text).flatten).length = p.total := by
    simp [total,NomadnetNode.total]
  have hbytes := h.snprintf_bytes s
  by_cases hfull : p.total = 2048
  · -- No byte is left.
    simp only [if_pos hfull,List.append_nil,List.length_nil,Nat.add_zero,
      List.take_append_drop] at hbytes
    refine ⟨hbytes ▸ hlen,?_⟩
    have hmin : min (p.snprintf s).total 2047 = min p.total 2047 := by
      rw [snprintf_total]
      omega
    rw [hbytes,hmin,hf.texts]
    simp only [snprintf_calls,List.map_append,List.flatten_append]
    rw [List.take_append_of_le_length (by omega)]
  · have hmin : min p.total 2047 = p.total := by omega
    have htexts := hf.texts
    rw [hmin,List.take_of_length_le (by omega : _ ≤ 2047)] at htexts
    simp only [if_neg hfull] at hbytes
    refine ⟨?_,?_⟩
    · rw [hbytes]
      simp
      omega
    · have hcalls : ((p.snprintf s).calls.map Call.text).flatten =
          (p.calls.map Call.text).flatten ++ s := by simp
      have hall : ((p.calls.map Call.text).flatten).take 2047 = (p.calls.map Call.text).flatten :=
        List.take_of_length_le (by omega)
      have hcut : min (p.total + s.length) 2047 =
          ((p.calls.map Call.text).flatten ++ s.take (2047 - p.total)).length := by
        rw [List.length_append,List.length_take,hflat]
        omega
      rw [hbytes,htexts,snprintf_total,hcalls,hcut,← List.append_assoc,List.append_assoc _ [0],
        List.take_left' rfl,List.take_append,hflat,hall]

theorem Page.appends_filled {p : Page} (texts : List Bytes) (hf : p.Filled)
    (h : (p.appends texts).Sound) : (p.appends texts).Filled := by
  induction texts generalizing p with
  | nil => exact hf
  | cons s texts ih =>
    have hcons : p.appends (s :: texts) = (p.snprintf s).appends texts := rfl
    rw [hcons] at h ⊢
    have hs := ((appends_sound texts _).mp h).1
    exact ih ((snprintf_sound.mp hs).1.filled hf s) h

theorem Page.peers_filled {r : Readings} {gDest : Destination} {node : Node} {p : Page}
    (paths : List (Bytes × PathEntry)) (hf : p.Filled)
    (h : (p.peers r gDest node paths).Sound) : (p.peers r gDest node paths).Filled := by
  induction paths generalizing p with
  | nil => exact hf
  | cons path paths ih =>
    by_cases hown : path.1 = gDest.hash
    · rw [peers,if_pos hown] at h ⊢
      exact ih hf h
    · rw [peers,if_neg hown] at h ⊢
      dsimp only at h ⊢
      by_cases hbreak : 2048 - 64 ≤ (p.snprintf (peerLine r node path)).n.toUInt32
      · rw [if_pos hbreak] at h ⊢
        exact (snprintf_sound.mp h).1.filled hf _
      · rw [if_neg hbreak] at h ⊢
        have hs := ((peers_sound paths _).mp h).1
        exact ih ((snprintf_sound.mp hs).1.filled hf _) h

/-- The page that is served when the offset stays in it: the texts of all calls, cut at its last
byte. -/
theorem serveIndex_eq {r : Readings} {impl : Nat → InterfaceImpl} {gDest : Destination}
    {node : Node} (h : Within (fillPage r impl gDest node).calls) :
    serveIndex r impl gDest node =
      (((fillPage r impl gDest node).calls.map Call.text).flatten).take 2047 := by
  generalize hfooter : text "-\n\nServed live by RTReticulum on ESP32-S3\n" = footer
  have hlen : footer.length = 42 := by rw [← hfooter]; decide +kernel
  have hfill := fillPage_eq r impl gDest node
  rw [hfooter] at hfill
  rw [hfill,Page.snprintf_within] at h
  have happ := ((Page.peers_sound _ _).mp h).1
  have hstart : ({ bytes := r.stack } : Page).Filled := ⟨r.stack_length,rfl⟩
  have hbody := Page.peers_filled _ (Page.appends_filled _ hstart happ) h
  have hpage := h.filled hbody footer
  rw [← hfill] at hpage
  have hle := h.le
  have htotal : (fillPage r impl gDest node).total = (bodyPage r impl gDest node).total + 42 := by
    rw [hfill,Page.snprintf_total,hlen]
  have hn : (fillPage r impl gDest node).n.toInt = (fillPage r impl gDest node).total := by
    rw [htotal,hfill,Page.snprintf_n h (by omega),hlen,toInt_advance h.offset (by omega)]
  have hneg : ¬ (fillPage r impl gDest node).n < 0 := by
    rw [Int32.lt_iff_toInt_lt,hn]
    simp
  have hend : 2048 ≤ (fillPage r impl gDest node).n.toUInt32 ↔
      2048 ≤ (fillPage r impl gDest node).total := by
    rw [UInt32.le_iff_toNat_le,toNat_offset hn]
    rfl
  have hcut : (if (fillPage r impl gDest node).n < 0 ∨
      2048 ≤ (fillPage r impl gDest node).n.toUInt32 then 2047
      else (fillPage r impl gDest node).n).toInt.toNat =
        min (fillPage r impl gDest node).total 2047 := by
    by_cases hfull : 2048 ≤ (fillPage r impl gDest node).total
    · rw [if_pos (.inr (hend.mpr hfull)),min_eq_right (by omega)]
      rfl
    · rw [if_neg (not_or.mpr ⟨hneg,mt hend.mp hfull⟩),hn,min_eq_left (by omega)]
      rfl
  rw [serveIndex,← hpage.texts,← hcut]

end HeltecV3.NomadnetNode
