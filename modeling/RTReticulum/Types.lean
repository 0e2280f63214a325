import Mathlib

/-! Byte strings, the constants of `type.h`, and the ways a call can end badly. -/
set_option autoImplicit false

namespace RNS

/-- The contents of an `RNS::Bytes`; a null buffer and an empty one are both `[]`. -/
abbrev Bytes := List UInt8

namespace Bytes

abbrev left (b : Bytes) (len : Nat) : Bytes := b.take len
abbrev right (b : Bytes) (len : Nat) : Bytes := b.drop (b.length - len)
abbrev mid (b : Bytes) (beginpos len : Nat) : Bytes := (b.drop beginpos).take len
/-- `mid` with one argument: everything from `beginpos` on. -/
abbrev midFrom (b : Bytes) (beginpos : Nat) : Bytes := b.drop beginpos

def resize (b : Bytes) (n : Nat) : Bytes := b.take n ++ List.replicate (n - b.length) 0

theorem resize_of_le {b : Bytes} {n : Nat} (h : n ≤ b.length) : resize b n = b.take n := by
  simp [resize,Nat.sub_eq_zero_of_le h]

def hexDigit (d : UInt8) : UInt8 := if d < 10 then 0x30 + d else 0x61 + (d - 10)

def toHex : Bytes → Bytes
  | [] => []
  | b :: bs => hexDigit ((b &&& 0xF0) >>> 4) :: hexDigit (b &&& 0x0F) :: toHex bs

end Bytes

/-- An exception with its text, or a null identity handle that is dereferenced. -/
inductive Fault where
  | invalidArgument (what : String)
  | runtimeError (what : String)
  | logicError (what : String)
  | lengthError (what : String)
  | nullIdentity
  deriving DecidableEq, Repr

section
variable {α β : Type}

@[simp] theorem ok_bind (a : α) (f : α → Except Fault β) : (Except.ok a >>= f) = f a := rfl

@[simp] theorem error_bind (e : Fault) (f : α → Except Fault β) :
    (Except.error e >>= f) = .error e := rfl

@[simp] theorem pure_eq_ok (a : α) : (pure a : Except Fault α) = .ok a := rfl

theorem bind_eq_ok {x : Except Fault α} {f : α → Except Fault β} {b : β} :
    (x >>= f) = .ok b ↔ ∃ a, x = .ok a ∧ f a = .ok b := by
  cases x <;> simp

end

namespace Reticulum

abbrev mtu : Nat := 500
abbrev truncatedHashBytes : Nat := 16
abbrev headerMaxsize : Nat := 2+1+truncatedHashBytes*2
abbrev ifacMinSize : Nat := 1
abbrev mdu : Nat := mtu - headerMaxsize - ifacMinSize

end Reticulum

abbrev nameHashBytes : Nat := 10
abbrev randomHashBytes : Nat := 10
abbrev derivedKeyLength : Nat := 64

abbrev pathfinderM : UInt8 := 128

inductive DestinationType where
  | single | group | plain | link
  deriving DecidableEq, Repr

def DestinationType.toByte : DestinationType → UInt8
  | .single => 0 | .group => 1 | .plain => 2 | .link => 3

def DestinationType.ofByte (b : UInt8) : DestinationType :=
  if b = 0 then .single else if b = 1 then .group else if b = 2 then .plain else .link

inductive Direction where
  | dirIn | dirOut
  deriving DecidableEq, Repr

inductive PacketType where
  | data | announce | linkRequest | proof
  deriving DecidableEq, Repr

def PacketType.toByte : PacketType → UInt8
  | .data => 0 | .announce => 1 | .linkRequest => 2 | .proof => 3

def PacketType.ofByte (b : UInt8) : PacketType :=
  if b = 0 then .data else if b = 1 then .announce else if b = 2 then .linkRequest else .proof

inductive HeaderType where
  | header1 | header2
  deriving DecidableEq, Repr

def HeaderType.toByte : HeaderType → UInt8
  | .header1 => 0 | .header2 => 1

def HeaderType.ofByte (b : UInt8) : HeaderType := if b = 0 then .header1 else .header2

inductive ContextFlag where
  | unset | set
  deriving DecidableEq, Repr

def ContextFlag.toByte : ContextFlag → UInt8
  | .unset => 0 | .set => 1

def ContextFlag.ofByte (b : UInt8) : ContextFlag := if b = 0 then .unset else .set

inductive TransportType where
  | broadcast | transport | relay | tunnel | none
  deriving DecidableEq, Repr

def TransportType.toByte : TransportType → UInt8
  | .broadcast => 0 | .transport => 1 | .relay => 2 | .tunnel => 3 | .none => 0xFF

/-- One bit of the flags byte, so only the first two types can be read back. -/
def TransportType.ofByte (b : UInt8) : TransportType := if b = 0 then .broadcast else .transport

/-- Any byte of a frame is cast to `context_types`, so a context is a byte. -/
abbrev Context := UInt8

namespace Context

abbrev none : Context := 0x00
abbrev request : Context := 0x09
abbrev response : Context := 0x0A
abbrev lrproof : Context := 0xFF

end Context

end RNS
