import RTReticulum.Node

/-! `resource.cpp`: a payload in chunks over a link, and what the receiver makes of them. -/
set_option autoImplicit false

namespace RNS

abbrev tagHead : UInt8 := 0xA0
abbrev tagBody : UInt8 := 0xA1
abbrev idBytes : Nat := 16
abbrev chunkPayload : Nat := 256
abbrev headHeader : Nat := 1+idBytes+12
abbrev bodyHeader : Nat := 1+idBytes+4

def putU32 (v : UInt32) : Bytes :=
  [((v >>> 24) &&& 0xFF).toUInt8,((v >>> 16) &&& 0xFF).toUInt8,((v >>> 8) &&& 0xFF).toUInt8,
    (v &&& 0xFF).toUInt8]

def getU32 (p : Bytes) : UInt32 :=
  (p.getD 0 0).toUInt32 <<< 24 ||| (p.getD 1 0).toUInt32 <<< 16 ||| (p.getD 2 0).toUInt32 <<< 8 |||
    (p.getD 3 0).toUInt32

@[simp] theorem putU32_length (v : UInt32) : (putU32 v).length = 4 := rfl

@[simp] theorem getU32_putU32 (v : UInt32) (rest : Bytes) : getU32 (putU32 v ++ rest) = v := by
  apply UInt32.eq_of_toBitVec_eq
  apply BitVec.eq_of_getLsbD_eq
  intro i hi
  simp [getU32,putU32,BitVec.mod_256]
  interval_cases i <;> simp

inductive ResourceStatus where
  | idle | sending | receiving | complete | failed
  deriving DecidableEq, Repr

/-- The callbacks are named by numbers; `chunks` is the `std::map` of the receiver. -/
structure Resource where
  id : Bytes
  status : ResourceStatus
  totalSize : Nat
  chunkCount : Nat
  bytesReceived : Nat
  chunks : Finmap fun _ : UInt32 => Bytes
  onComplete : Option Nat
  onProgress : Option Nat

namespace Resource

/-- A call of one of the callbacks. They do not feed chunks to their own resource. -/
inductive Call where
  | progress (callback : Nat) (bytesReceived totalBytes : Nat)
  | complete (callback : Nat) (payload : Bytes)
  deriving DecidableEq

/-- `Resource::receive`, next to the link's packet callback, which is `onChunk`. -/
def receive (onComplete onProgress : Option Nat) : Resource :=
  ⟨[],.receiving,0,0,0,∅,onComplete,onProgress⟩

def chunkSize (mtu : UInt32) : Nat :=
  if mtu > 0 ∧ mtu.toNat < chunkPayload+100 then
    if mtu > 100 then (mtu-100).toNat else 64
  else chunkPayload

def chunkCountOf (chunkSize : Nat) (payload : Bytes) : Nat :=
  if payload.isEmpty then 0 else (payload.length + chunkSize - 1) / chunkSize

def headChunk (id : Bytes) (chunkSize : Nat) (payload : Bytes) : Bytes :=
  tagHead :: (id ++ putU32 (UInt32.ofNat payload.length) ++
    putU32 (UInt32.ofNat (chunkCountOf chunkSize payload)) ++ putU32 0 ++
    payload.take (if payload.length < chunkSize then payload.length else chunkSize))

def bodyChunk (id : Bytes) (chunkSize : Nat) (payload : Bytes) (i : Nat) : Bytes :=
  let off := i*chunkSize
  let len := if off + chunkSize > payload.length then payload.length - off else chunkSize
  tagBody :: (id ++ putU32 (UInt32.ofNat i) ++ Bytes.mid payload off len)

/-- What `send` passes to the link, in its order. An empty payload still sends a header. -/
def chunksOf (id : Bytes) (mtu : UInt32) (payload : Bytes) : List Bytes :=
  let chunkSize := chunkSize mtu
  let chunkCount := chunkCountOf chunkSize payload
  if chunkCount = 0 then [tagHead :: (id ++ putU32 0 ++ putU32 0 ++ putU32 0)]
  else headChunk id chunkSize payload ::
    (List.range' 1 (chunkCount-1)).map (bodyChunk id chunkSize payload)

def send (P : Platform) (env : Env) (a : Nat) (payload : Bytes) (n : Node) :
    Except Fault (Resource × Node) :=
  match n.link? a with
  | none => .error (.runtimeError "Resource::send requires an ACTIVE Link")
  | some l =>
    if l.status ≠ .active then
      .error (.runtimeError "Resource::send requires an ACTIVE Link")
    else do
      let (id,rng) := n.rng.random idBytes
      let count := chunkCountOf (chunkSize l.mtu) payload
      let n ← (chunksOf id l.mtu payload).foldlM (fun n chunk => n.send P env a chunk)
        { n with rng := rng }
      return (⟨id,.complete,payload.length,count,0,∅,none,none⟩,n)

def store (idx : UInt32) (payload : Bytes) (r : Resource) : Resource :=
  { r with
    chunks := r.chunks.insert idx payload, bytesReceived := r.bytesReceived + payload.length }

def assembled (r : Resource) : Option Bytes :=
  (List.range r.chunkCount).foldlM
    (fun acc i => (r.chunks.lookup (UInt32.ofNat i)).map (acc ++ ·)) []

def tellComplete (payload : Bytes) (r : Resource) : List Call :=
  match r.onComplete with
  | none => []
  | some cb => [.complete cb payload]

def tellProgress (r : Resource) : List Call :=
  match r.onProgress with
  | none => []
  | some cb => [.progress cb r.bytesReceived r.totalSize]

def finish (r : Resource) : Resource × List Call :=
  if 0 < r.chunkCount ∧ r.chunks.keys.card = r.chunkCount then
    match r.assembled with
    | none => ({ r with status := .failed },[])
    | some payload =>
      if payload.length ≠ r.totalSize then ({ r with status := .failed },[])
      else ({ r with status := .complete },r.tellComplete payload)
  else if r.chunkCount = 0 ∧ r.totalSize = 0 then
    ({ r with status := .complete },r.tellComplete [])
  else (r,[])

/-- An accepted chunk is reported before it is counted. -/
def accept (r : Resource) : Resource × List Call :=
  (r.finish.1,r.tellProgress ++ r.finish.2)

def onChunk (r : Resource) (chunk : Bytes) : Resource × List Call :=
  if r.status ≠ .receiving then (r,[])
  else if chunk.length < 1+idBytes then (r,[])
  else if chunk.getD 0 0 = tagHead then
    if chunk.length < headHeader then (r,[])
    else
      let id := Bytes.mid chunk 1 idBytes
      if r.id ≠ [] ∧ r.id ≠ id then (r,[])
      else
        let p := Bytes.midFrom chunk (1+idBytes)
        ({ r with
          id := id, totalSize := (getU32 p).toNat
          chunkCount := (getU32 (Bytes.midFrom p 4)).toNat }.store (getU32 (Bytes.midFrom p 8))
            (Bytes.midFrom chunk headHeader)).accept
  else if chunk.getD 0 0 = tagBody then
    if chunk.length < bodyHeader then (r,[])
    else
      let id := Bytes.mid chunk 1 idBytes
      if r.id = [] ∨ r.id ≠ id then (r,[])
      else
        let p := Bytes.midFrom chunk (1+idBytes)
        (r.store (getU32 p) (Bytes.midFrom chunk bodyHeader)).accept
  else (r,[])

def feed (r : Resource) : List Bytes → Resource × List Call
  | [] => (r,[])
  | chunk :: chunks =>
    ((feed (r.onChunk chunk).1 chunks).1,(r.onChunk chunk).2 ++ (feed (r.onChunk chunk).1 chunks).2)

end Resource

end RNS
