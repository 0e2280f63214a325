import RTReticulum.Types

/-! `msgpack.cpp`: the encoders, and the reader that never reports an error. -/
set_option autoImplicit false

namespace RNS
namespace MsgPack

def packBin (b : Bytes) : Bytes :=
  if b.length ≤ 0xFF then 0xC4 :: UInt8.ofNat b.length :: b
  else if b.length ≤ 0xFFFF then
    0xC5 :: UInt8.ofNat (b.length >>> 8) :: UInt8.ofNat b.length :: b
  else
    0xC6 :: UInt8.ofNat (b.length >>> 24) :: UInt8.ofNat (b.length >>> 16) ::
      UInt8.ofNat (b.length >>> 8) :: UInt8.ofNat b.length :: b

def packArrayHeader (count : Nat) : Bytes :=
  if count ≤ 15 then [0x90 ||| UInt8.ofNat count]
  else if count ≤ 0xFFFF then [0xDC,UInt8.ofNat (count >>> 8),UInt8.ofNat count]
  else [0xDD,UInt8.ofNat (count >>> 24),UInt8.ofNat (count >>> 16),
    UInt8.ofNat (count >>> 8),UInt8.ofNat count]

def packNil : Bytes := [0xC0]

def packBool (v : Bool) : Bytes := [if v then 0xC3 else 0xC2]

def bigEndian : Nat → Nat → Bytes
  | 0, _ => []
  | k+1, v => UInt8.ofNat (v >>> (8*k)) :: bigEndian k v

/-- The casts and shifts take the bytes of the two's complement. -/
def packInt (v : Int64) : Bytes :=
  let bits := v.toUInt64.toNat
  if 0 ≤ v.toInt ∧ v.toInt ≤ 127 then [UInt8.ofNat bits]
  else if 0 ≤ v.toInt ∧ v.toInt ≤ 0xFF then [0xCC,UInt8.ofNat bits]
  else if 0 ≤ v.toInt ∧ v.toInt ≤ 0xFFFF then 0xCD :: bigEndian 2 bits
  else if 0 ≤ v.toInt ∧ v.toInt ≤ 0xFFFFFFFF then 0xCE :: bigEndian 4 bits
  else if -32 ≤ v.toInt ∧ v.toInt < 0 then [UInt8.ofNat bits]
  else if -128 ≤ v.toInt ∧ v.toInt < 0 then [0xD0,UInt8.ofNat bits]
  else 0xD3 :: bigEndian 8 bits

/-- A `double` is its bit pattern. -/
def packFloat64 (bits : UInt64) : Bytes := 0xCB :: bigEndian 8 bits.toNat

structure Reader where
  data : Bytes
  pos : Nat

namespace Reader

/-- Past the end both read 0. -/
def peek (r : Reader) : UInt8 := r.data.getD r.pos 0

def next (r : Reader) : UInt8 × Reader :=
  if r.pos < r.data.length then (r.data.getD r.pos 0,{ r with pos := r.pos+1 }) else (0,r)

def nextInt : Nat → Nat → Reader → Nat × Reader
  | 0, v, r => (v,r)
  | k+1, v, r => nextInt k (v <<< 8 ||| r.next.1.toNat) r.next.2

def readNil (r : Reader) : Bool × Reader :=
  if r.peek = 0xC0 then (true,r.next.2) else (false,r)

def widenFloat (bits : Nat) : Nat :=
  let sign := bits >>> 31
  let exponent := bits >>> 23 % 2^8
  let mantissa := bits % 2^23
  let magnitude :=
    if exponent = 0xFF then
      0x7FF <<< 52 ||| (if mantissa = 0 then 0 else mantissa <<< 29 ||| 2^51)
    else if exponent = 0 then
      -- a subnormal single is a normal double
      if mantissa = 0 then 0
      else (Nat.log2 mantissa + 874) <<< 52 ||| (mantissa <<< (52 - Nat.log2 mantissa)) % 2^52
    else (exponent + 896) <<< 52 ||| mantissa <<< 29
  sign <<< 63 ||| magnitude

/-- The bit pattern of the `double`; whatever is not 0xCA is read as 0xCB. -/
def readFloat64 (r : Reader) : UInt64 × Reader :=
  if r.next.1 = 0xCA then
    (UInt64.ofNat (widenFloat (nextInt 4 0 r.next.2).1),(nextInt 4 0 r.next.2).2)
  else (UInt64.ofNat (nextInt 8 0 r.next.2).1,(nextInt 8 0 r.next.2).2)

def binLength (b : UInt8) (r : Reader) : Option (Nat × Reader) :=
  if b = 0xC4 then some (nextInt 1 0 r)
  else if b = 0xC5 then some (nextInt 2 0 r)
  else if b = 0xC6 then some (nextInt 4 0 r)
  else if b &&& 0xE0 = 0xA0 then some ((b &&& 0x1F).toNat,r)
  else if b = 0xD9 then some (nextInt 1 0 r)
  else if b = 0xDA then some (nextInt 2 0 r)
  else if b = 0xDB then some (nextInt 4 0 r)
  else none

/-- `_pos + len` is a `size_t` of `sizeBits` bits. Where it wraps below the size of the
buffer, the copy of `len` bytes asks for more than a vector can hold. -/
def readBin (sizeBits : Nat) (r : Reader) : Except Fault (Bytes × Reader) :=
  match binLength r.next.1 r.next.2 with
  | none => .ok ([],r.next.2)
  | some (len,r) =>
    if (r.pos + len) % 2^sizeBits > r.data.length then .ok ([],r)
    else if r.pos + len > r.data.length then
      .error (.lengthError "vector::reserve")
    else .ok (Bytes.mid r.data r.pos len,{ r with pos := r.pos + len })

def readArrayHeader (r : Reader) : Nat × Reader :=
  if r.next.1 &&& 0xF0 = 0x90 then ((r.next.1 &&& 0x0F).toNat,r.next.2)
  else if r.next.1 = 0xDC then nextInt 2 0 r.next.2
  else if r.next.1 = 0xDD then nextInt 4 0 r.next.2
  else (0,r.next.2)

def readBool (r : Reader) : Bool × Reader := (r.next.1 == 0xC3,r.next.2)

def nextSigned (k : Nat) (r : Reader) : Int × Reader :=
  (Int.bmod (nextInt k 0 r).1 (2^(8*k)),(nextInt k 0 r).2)

def nextUnsigned (k : Nat) (r : Reader) : Int × Reader :=
  ((nextInt k 0 r).1,(nextInt k 0 r).2)

/-- The result is an `int64_t`; 0xCF wraps in the cast. -/
def readInt (r : Reader) : Int × Reader :=
  let b := r.next.1
  let r := r.next.2
  if b ≤ 0x7F then (b.toNat,r)
  else if b ≥ 0xE0 then (Int.bmod b.toNat 256,r)
  else if b = 0xCC then nextUnsigned 1 r
  else if b = 0xCD then nextUnsigned 2 r
  else if b = 0xCE then nextUnsigned 4 r
  else if b = 0xCF then nextSigned 8 r
  else if b = 0xD0 then nextSigned 1 r
  else if b = 0xD1 then nextSigned 2 r
  else if b = 0xD2 then nextSigned 4 r
  else if b = 0xD3 then nextSigned 8 r
  else (0,r)

def times (f : Reader → Except Fault Reader) : Nat → Reader → Except Fault Reader
  | 0, r => .ok r
  | n+1, r => do times f n (← f r)

def skipBin (sizeBits : Nat) (r : Reader) : Except Fault Reader := do
  let (_,r) ← r.readBin sizeBits
  return r

def skipTo (sizeBits : Nat) : Nat → Reader → Except Fault Reader
  | 0, r => .ok r
  | depth+1, r =>
    let b := r.peek
    if b = 0xC0 ∨ b = 0xC2 ∨ b = 0xC3 then .ok r.next.2
    else if b ≤ 0x7F ∨ b ≥ 0xE0 then .ok r.next.2
    else if b &&& 0xE0 = 0xA0 then r.skipBin sizeBits
    else if b ≥ 0xCC ∧ b ≤ 0xD3 then .ok r.readInt.2
    else if b = 0xCA ∨ b = 0xCB then .ok r.readFloat64.2
    else if b ≥ 0xC4 ∧ b ≤ 0xC6 then r.skipBin sizeBits
    else if b = 0xD9 ∨ b = 0xDA ∨ b = 0xDB then r.skipBin sizeBits
    else if b &&& 0xF0 = 0x90 ∨ b = 0xDC ∨ b = 0xDD then
      times (skipTo sizeBits depth) r.readArrayHeader.1 r.readArrayHeader.2
    else .ok r.next.2

/-- An array takes a byte for its header, so what is left of the buffer bounds the depth. -/
def skip (sizeBits : Nat) (r : Reader) : Except Fault Reader :=
  skipTo sizeBits (r.data.length - r.pos + 1) r

/-- Where the bounds check of `readBin` passes only because `_pos + len` wrapped. -/
def Wraps (sizeBits : Nat) (r : Reader) : Prop :=
  ∃ x ∈ binLength r.next.1 r.next.2, x.2.data.length < x.2.pos + x.1 ∧
    (x.2.pos + x.1) % 2^sizeBits ≤ x.2.data.length

theorem readBin_isOk {sizeBits : Nat} {r : Reader} :
    (∃ x, r.readBin sizeBits = .ok x) ↔ ¬ r.Wraps sizeBits := by
  cases h : binLength r.next.1 r.next.2 with
  | none => simp [readBin,Wraps,h]
  | some x =>
    obtain ⟨len,r'⟩ := x
    simp only [readBin,Wraps,h,Option.mem_some_iff,exists_eq_left',not_and,not_le]
    split
    · exact ⟨fun _ _ => ‹_›,fun _ => ⟨_,rfl⟩⟩
    split
    · simp; omega
    · simp; omega

structure Advances (r r' : Reader) : Prop where
  data : r'.data = r.data
  pos_le : r.pos ≤ r'.pos
  bounded : r.pos ≤ r.data.length → r'.pos ≤ r.data.length

theorem Advances.refl (r : Reader) : Advances r r := ⟨rfl,le_rfl,id⟩

theorem Advances.trans {r r' r'' : Reader} (h : Advances r r') (h' : Advances r' r'') :
    Advances r r'' where
  data := h'.data.trans h.data
  pos_le := h.pos_le.trans h'.pos_le
  bounded := fun hr => h.data ▸ h'.bounded (h.data.symm ▸ h.bounded hr)

theorem next_advances (r : Reader) : Advances r r.next.2 := by
  unfold next
  split
  · exact ⟨rfl,Nat.le_succ _,fun _ => by assumption⟩
  · exact .refl r

theorem nextInt_advances (k v : Nat) (r : Reader) : Advances r (nextInt k v r).2 := by
  induction k generalizing v r with
  | zero => exact .refl r
  | succ k ih => exact (next_advances r).trans (ih _ _)

theorem shiftLeft_or_lt {v n : Nat} (hv : v < 2^n) (b : UInt8) :
    v <<< 8 ||| b.toNat < 2^(n+8) := by
  apply Nat.or_lt_two_pow
  · rw [Nat.shiftLeft_eq,pow_add]
    exact Nat.mul_lt_mul_of_pos_right hv (by decide)
  · exact b.toNat_lt.trans_le (Nat.pow_le_pow_right (by decide) (by omega))

theorem nextInt_lt (k : Nat) {v n : Nat} (r : Reader) (hv : v < 2^n) :
    (nextInt k v r).1 < 2^(n+8*k) := by
  induction k generalizing v n r with
  | zero => simpa [nextInt] using hv
  | succ k ih =>
    have h := ih r.next.2 (shiftLeft_or_lt hv r.next.1)
    rwa [show n+8*(k+1) = n+8+8*k by omega]

theorem binLength_spec {b : UInt8} {r : Reader} {x : Nat × Reader}
    (h : binLength b r = some x) : x.1 < 2^32 ∧ Advances r x.2 := by
  have hint : ∀ k ≤ 4, some (nextInt k 0 r) = some x → x.1 < 2^32 ∧ Advances r x.2 := by
    rintro k hk ⟨⟩
    have hlt := nextInt_lt k (v := 0) (n := 0) r (by decide)
    exact ⟨hlt.trans_le (Nat.pow_le_pow_right (by decide) (by omega)),nextInt_advances _ _ _⟩
  unfold binLength at h
  split at h
  · exact hint 1 (by decide) h
  split at h
  · exact hint 2 (by decide) h
  split at h
  · exact hint 4 (by decide) h
  split at h
  · cases h
    exact ⟨(UInt8.toNat_lt _).trans (by decide),.refl _⟩
  split at h
  · exact hint 1 (by decide) h
  split at h
  · exact hint 2 (by decide) h
  split at h
  · exact hint 4 (by decide) h
  · cases h

/-- No check wraps where a `size_t` has room for a length of 32 bits past the buffer. -/
theorem not_wraps {sizeBits : Nat} {r : Reader} (hr : r.pos ≤ r.data.length)
    (hsize : r.data.length + 2^32 ≤ 2^sizeBits) : ¬ r.Wraps sizeBits := by
  intro h
  obtain ⟨x,hx,hlt,hle⟩ := h
  obtain ⟨hlen,hadv⟩ := binLength_spec hx
  have hall := (next_advances r).trans hadv
  have hpos := hall.bounded hr
  rw [hall.data] at hlt hle
  rw [Nat.mod_eq_of_lt (by omega)] at hle
  omega

end Reader

structure Request where
  requestedAt : UInt64
  pathHash : Bytes
  data : Bytes

/-- The reads of `Link::handle_request`; `none` when the array is too short. -/
def readRequest (sizeBits : Nat) (plaintext : Bytes) : Except Fault (Option Request) := do
  let (arr,r) := Reader.readArrayHeader ⟨plaintext,0⟩
  if arr < 3 then return none
  let (requestedAt,r) := r.readFloat64
  let (pathHash,r) ← r.readBin sizeBits
  let (isNil,r) := r.readNil
  if isNil then return some ⟨requestedAt,pathHash,[]⟩
  let (data,_) ← r.readBin sizeBits
  return some ⟨requestedAt,pathHash,data⟩

def RequestWraps (sizeBits : Nat) (plaintext : Bytes) : Prop :=
  let (arr,r) := Reader.readArrayHeader ⟨plaintext,0⟩
  let r := r.readFloat64.2
  3 ≤ arr ∧ (r.Wraps sizeBits ∨
    ∃ x, r.readBin sizeBits = .ok x ∧ x.2.readNil.1 = false ∧ x.2.readNil.2.Wraps sizeBits)

theorem readRequest_isOk {sizeBits : Nat} {plaintext : Bytes} :
    (∃ x, readRequest sizeBits plaintext = .ok x) ↔ ¬ RequestWraps sizeBits plaintext := by
  simp only [readRequest,RequestWraps]
  generalize Reader.readArrayHeader ⟨plaintext,0⟩ = head
  by_cases harr : head.1 < 3
  · simp only [harr,if_true]
    exact ⟨fun _ h => absurd h.1 (by omega),fun _ => ⟨_,rfl⟩⟩
  have h3 : 3 ≤ head.1 := by omega
  simp only [harr,if_false,h3,true_and,not_or]
  rw [← Reader.readBin_isOk]
  generalize head.2.readFloat64.2.readBin sizeBits = path
  cases path with
  | error e => simp
  | ok x =>
    simp only [ok_bind,Except.ok.injEq,exists_eq',true_and,exists_eq_left']
    cases x.2.readNil.1 with
    | true => simp
    | false =>
      simp only [Bool.false_eq_true,if_false,true_and,← Reader.readBin_isOk]
      cases x.2.readNil.2.readBin sizeBits <;> simp

end MsgPack
end RNS
