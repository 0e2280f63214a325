import RTReticulum.MsgPack

/-! MsgPack values, written and read back. -/
set_option autoImplicit false

namespace RNS
namespace MsgPack
namespace Reader

def Rest (r : Reader) (s : Bytes) : Prop := r.data.drop r.pos = s

def advance (r : Reader) (k : Nat) : Reader := { r with pos := r.pos+k }

@[simp] theorem advance_data (r : Reader) (k : Nat) : (r.advance k).data = r.data := rfl

@[simp] theorem advance_pos (r : Reader) (k : Nat) : (r.advance k).pos = r.pos+k := rfl

@[simp] theorem advance_advance (r : Reader) (j k : Nat) :
    (r.advance j).advance k = r.advance (j+k) := by simp [advance,Nat.add_assoc]

theorem Rest.length {r : Reader} {s : Bytes} (h : r.Rest s) : r.data.length - r.pos = s.length := by
  rw [← h]; simp

theorem Rest.append {r : Reader} {s t : Bytes} (h : r.Rest (s ++ t)) :
    (r.advance s.length).Rest t := by
  unfold Rest at h ⊢
  rw [advance_data,advance_pos,← List.drop_drop,h,List.drop_left]

theorem Rest.cons {r : Reader} {b : UInt8} {s : Bytes} (h : r.Rest (b :: s)) :
    (r.advance 1).Rest s := Rest.append (s := [b]) h

theorem Rest.lt {r : Reader} {b : UInt8} {s : Bytes} (h : r.Rest (b :: s)) :
    r.pos < r.data.length := by
  have := h.length
  rw [List.length_cons] at this; omega

theorem peek_cons {r : Reader} {b : UInt8} {s : Bytes} (h : r.Rest (b :: s)) : r.peek = b := by
  have hget : r.data[r.pos]? = some b := by
    rw [← List.head?_drop,h]; rfl
  simp [peek,List.getD,hget]

theorem next_cons {r : Reader} {b : UInt8} {s : Bytes} (h : r.Rest (b :: s)) :
    r.next = (b,r.advance 1) := by
  have hp : r.data.getD r.pos 0 = b := peek_cons h
  rw [next,if_pos h.lt,hp]; rfl

theorem shift_or_eq (v : Nat) (b : UInt8) : v <<< 8 ||| b.toNat = v*256 + b.toNat := by
  rw [← Nat.shiftLeft_add_eq_or_of_lt b.toNat_lt,Nat.shiftLeft_eq]

theorem nextInt_bigEndian (k v acc : Nat) {r : Reader} {s : Bytes}
    (h : r.Rest (bigEndian k v ++ s)) :
    nextInt k acc r = (acc*2^(8*k) + v % 2^(8*k),r.advance k) := by
  induction k generalizing acc r with
  | zero => simp [nextInt,advance,Nat.mod_one]
  | succ k ih =>
    have hbyte : (UInt8.ofNat (v >>> (8*k))).toNat = v / 2^(8*k) % 256 := by
      rw [UInt8.toNat_ofNat',Nat.shiftRight_eq_div_pow]
    rw [nextInt,next_cons h,shift_or_eq,ih _ h.cons,hbyte,advance_advance,Nat.add_comm 1 k]
    congr 1
    have hpow : 2^(8*(k+1)) = 2^(8*k)*256 := by ring
    rw [hpow,Nat.mod_mul]
    ring

end Reader

@[simp] theorem bigEndian_length (k v : Nat) : (bigEndian k v).length = k := by
  induction k with
  | zero => rfl
  | succ k ih => simp [bigEndian,ih]

namespace Reader
variable {r : Reader} {s : Bytes}

theorem nextUnsigned_bigEndian {k v : Nat} (h : r.Rest (bigEndian k v ++ s)) :
    r.nextUnsigned k = (((v % 2^(8*k) : Nat) : Int),r.advance k) := by
  simp [nextUnsigned,nextInt_bigEndian k v 0 h]

theorem nextSigned_bigEndian {k v : Nat} (h : r.Rest (bigEndian k v ++ s)) :
    r.nextSigned k = (Int.bmod (v % 2^(8*k) : Nat) (2^(8*k)),r.advance k) := by
  simp [nextSigned,nextInt_bigEndian k v 0 h]

theorem readNil_packNil (h : r.Rest (packNil ++ s)) : r.readNil = (true,r.advance 1) := by
  rw [packNil,List.singleton_append] at h
  rw [readNil,if_pos (peek_cons h),next_cons h]

theorem readBool_packBool {v : Bool} (h : r.Rest (packBool v ++ s)) :
    r.readBool = (v,r.advance 1) := by
  rw [packBool,List.singleton_append] at h
  rw [readBool,next_cons h]
  cases v <;> rfl

theorem readFloat64_packFloat64 {bits : UInt64} (h : r.Rest (packFloat64 bits ++ s)) :
    r.readFloat64 = (bits,r.advance 9) := by
  rw [packFloat64,List.cons_append] at h
  have hmod : bits.toNat % 2^(8*8) = bits.toNat := Nat.mod_eq_of_lt bits.toNat_lt
  simp only [readFloat64,next_cons h,nextInt_bigEndian 8 _ 0 h.cons,hmod]
  simp

theorem int64_cases (v : Int64) :
    (v.toInt = v.toUInt64.toNat ∧ v.toUInt64.toNat < 2^63) ∨
      (v.toInt = v.toUInt64.toNat - 2^64 ∧ 2^63 ≤ v.toUInt64.toNat ∧ v.toUInt64.toNat < 2^64) := by
  have hlt : v.toUInt64.toNat < 2^64 := v.toUInt64.toNat_lt
  have hv : v.toInt = Int.bmod v.toUInt64.toNat (2^64) := BitVec.toInt_eq_toNat_bmod v.toBitVec
  rw [hv,Int.bmod_def]
  omega

/-- The forms an integer is packed in: one byte, or a tag and a word, without or with a
sign. -/
theorem packInt_cases (v : Int64) :
    (∃ b, packInt v = [b] ∧
      (b ≤ 0x7F ∧ v.toInt = b.toNat ∨ ¬ b ≤ 0x7F ∧ 0xE0 ≤ b ∧ v.toInt = Int.bmod b.toNat 256)) ∨
    (∃ tag k n, packInt v = tag :: bigEndian k n ∧ v.toInt = (n % 2^(8*k) : Nat) ∧
      (tag = 0xCC ∧ k = 1 ∨ tag = 0xCD ∧ k = 2 ∨ tag = 0xCE ∧ k = 4)) ∨
    (∃ tag k n, packInt v = tag :: bigEndian k n ∧
      v.toInt = Int.bmod (n % 2^(8*k) : Nat) (2^(8*k)) ∧
      (tag = 0xD0 ∧ k = 1 ∨ tag = 0xD3 ∧ k = 8)) := by
  have hv := int64_cases v
  generalize hbits : v.toUInt64.toNat = bits at hv
  have hbyte : (UInt8.ofNat bits).toNat = bits % 256 := UInt8.toNat_ofNat'
  simp only [packInt,hbits]
  split
  · refine .inl ⟨_,rfl,.inl ⟨UInt8.le_iff_toNat_le.mpr ?_,?_⟩⟩
    · rw [hbyte]; simp only [UInt8.reduceToNat]; omega
    · rw [hbyte]; omega
  split
  · exact .inr (.inl ⟨0xCC,1,bits,rfl,by omega,.inl ⟨rfl,rfl⟩⟩)
  split
  · exact .inr (.inl ⟨0xCD,2,bits,rfl,by omega,.inr (.inl ⟨rfl,rfl⟩)⟩)
  split
  · exact .inr (.inl ⟨0xCE,4,bits,rfl,by omega,.inr (.inr ⟨rfl,rfl⟩)⟩)
  split
  · refine .inl ⟨_,rfl,.inr ⟨?_,UInt8.le_iff_toNat_le.mpr ?_,?_⟩⟩
    · rw [UInt8.le_iff_toNat_le,hbyte]; simp only [UInt8.reduceToNat]; omega
    · rw [hbyte]; simp only [UInt8.reduceToNat]; omega
    · rw [hbyte,Int.bmod_def]; omega
  split
  · refine .inr (.inr ⟨0xD0,1,bits,rfl,?_,.inl ⟨rfl,rfl⟩⟩)
    rw [Int.bmod_def]; omega
  · refine .inr (.inr ⟨0xD3,8,bits,rfl,?_,.inr ⟨rfl,rfl⟩⟩)
    rw [Int.bmod_def]; omega

theorem readInt_packInt {v : Int64} (h : r.Rest (packInt v ++ s)) :
    r.readInt = (v.toInt,r.advance (packInt v).length) := by
  obtain ⟨b,hp,hb⟩ | ⟨tag,k,n,hp,hv,htag⟩ | ⟨tag,k,n,hp,hv,htag⟩ := packInt_cases v
  · rw [hp,List.singleton_append] at h
    simp only [readInt,next_cons h,hp,List.length_singleton]
    obtain ⟨hb,hv⟩ | ⟨hb,hb',hv⟩ := hb
    · rw [if_pos hb,hv]
    · rw [if_neg hb,if_pos hb',hv]
  · rw [hp,List.cons_append] at h
    have hread := nextUnsigned_bigEndian h.cons
    rw [hp,hv,List.length_cons,bigEndian_length,Nat.add_comm k 1,← advance_advance,← hread]
    simp only [readInt,next_cons h]
    rcases htag with ⟨rfl,rfl⟩ | ⟨rfl,rfl⟩ | ⟨rfl,rfl⟩ <;> rfl
  · rw [hp,List.cons_append] at h
    have hread := nextSigned_bigEndian h.cons
    rw [hp,hv,List.length_cons,bigEndian_length,Nat.add_comm k 1,← advance_advance,← hread]
    simp only [readInt,next_cons h]
    rcases htag with ⟨rfl,rfl⟩ | ⟨rfl,rfl⟩ <;> rfl

theorem packBin_cases {b : Bytes} (hb : b.length < 2^32) : ∃ tag k,
    packBin b = tag :: (bigEndian k b.length ++ b) ∧ b.length % 2^(8*k) = b.length ∧
      (tag = 0xC4 ∧ k = 1 ∨ tag = 0xC5 ∧ k = 2 ∨ tag = 0xC6 ∧ k = 4) := by
  unfold packBin
  split
  · exact ⟨0xC4,1,rfl,by omega,.inl ⟨rfl,rfl⟩⟩
  split
  · exact ⟨0xC5,2,rfl,by omega,.inr (.inl ⟨rfl,rfl⟩)⟩
  · exact ⟨0xC6,4,rfl,by omega,.inr (.inr ⟨rfl,rfl⟩)⟩

theorem readBin_packBin {sizeBits : Nat} {b : Bytes} (h : r.Rest (packBin b ++ s))
    (hb : b.length < 2^32) (hsize : r.data.length < 2^sizeBits) :
    r.readBin sizeBits = .ok (b,r.advance (packBin b).length) := by
  obtain ⟨tag,k,hp,hlen,htag⟩ := packBin_cases hb
  rw [hp,List.cons_append,List.append_assoc] at h
  have hint : nextInt k 0 (r.advance 1) = (b.length,r.advance (1+k)) := by
    rw [nextInt_bigEndian k b.length 0 h.cons,hlen,advance_advance]; simp
  have hbin : binLength tag (r.advance 1) = some (b.length,r.advance (1+k)) := by
    rw [← hint]
    rcases htag with ⟨rfl,rfl⟩ | ⟨rfl,rfl⟩ | ⟨rfl,rfl⟩ <;> rfl
  have hrest : (r.advance (1+k)).Rest (b ++ s) := by
    have h' := h.cons.append
    rwa [bigEndian_length,advance_advance] at h'
  have hend : r.pos + (1+k) + b.length ≤ r.data.length := by
    have hl := hrest.length
    have hl' := h.lt
    rw [List.length_append,advance_data,advance_pos] at hl
    by_cases hb0 : b.length = 0
    · have := h.length
      simp at this; omega
    · omega
  have hmod : (r.pos + (1+k) + b.length) % 2^sizeBits = r.pos + (1+k) + b.length :=
    Nat.mod_eq_of_lt (by omega)
  have hmid : Bytes.mid r.data (r.pos+(1+k)) b.length = b := by
    have h' : r.data.drop (r.pos+(1+k)) = b ++ s := hrest
    rw [Bytes.mid,h']; exact List.take_left' rfl
  have htotal : 1+k+b.length = (packBin b).length := by
    rw [hp]; simp; omega
  simp only [readBin,next_cons h,hbin,advance_data,advance_pos,hmod,if_neg (Nat.not_lt.mpr hend),
    hmid,← htotal]
  simp [advance,Nat.add_assoc]

theorem packArrayHeader_cases {n : Nat} (hn : n < 2^32) :
    (n ≤ 15 ∧ packArrayHeader n = [0x90 ||| UInt8.ofNat n]) ∨
    ∃ tag k, packArrayHeader n = tag :: bigEndian k n ∧ n % 2^(8*k) = n ∧
      (tag = 0xDC ∧ k = 2 ∨ tag = 0xDD ∧ k = 4) := by
  unfold packArrayHeader
  split
  · exact .inl ⟨‹_›,rfl⟩
  split
  · exact .inr ⟨0xDC,2,rfl,by omega,.inl ⟨rfl,rfl⟩⟩
  · exact .inr ⟨0xDD,4,rfl,by omega,.inr ⟨rfl,rfl⟩⟩

theorem fixarray {n : Nat} (hn : n ≤ 15) : (0x90 ||| UInt8.ofNat n) &&& 0xF0 = 0x90 ∧
    ((0x90 ||| UInt8.ofNat n) &&& 0x0F).toNat = n := by
  interval_cases n <;> exact ⟨rfl,rfl⟩

theorem readArrayHeader_packArrayHeader {n : Nat} (h : r.Rest (packArrayHeader n ++ s))
    (hn : n < 2^32) : r.readArrayHeader = (n,r.advance (packArrayHeader n).length) := by
  obtain ⟨h15,hp⟩ | ⟨tag,k,hp,hlen,htag⟩ := packArrayHeader_cases hn
  · rw [hp,List.singleton_append] at h
    obtain ⟨htag,hval⟩ := fixarray h15
    simp only [readArrayHeader,next_cons h,if_pos htag,hval,hp,List.length_singleton]
  · rw [hp,List.cons_append] at h
    have hread := nextInt_bigEndian k n 0 h.cons
    rw [hlen,Nat.zero_mul,Nat.zero_add,advance_advance] at hread
    rw [hp,List.length_cons,bigEndian_length,Nat.add_comm k 1,← hread]
    simp only [readArrayHeader,next_cons h]
    rcases htag with ⟨rfl,rfl⟩ | ⟨rfl,rfl⟩ <;> rfl

end Reader

namespace Reader
variable {sizeBits depth : Nat} {r : Reader}

theorem skipTo_next (h : r.peek = 0xC0 ∨ r.peek = 0xC2 ∨ r.peek = 0xC3 ∨ r.peek ≤ 0x7F ∨
    r.peek ≥ 0xE0) : skipTo sizeBits (depth+1) r = .ok r.next.2 := by
  rw [skipTo]
  split
  · rfl
  · rw [if_pos (by tauto)]

theorem skipTo_readInt {tag : UInt8} (hr : r.peek = tag) (h : tag = 0xCC ∨ tag = 0xCD ∨
    tag = 0xCE ∨ tag = 0xD0 ∨ tag = 0xD3) :
    skipTo sizeBits (depth+1) r = .ok r.readInt.2 := by
  rw [skipTo,hr]
  rcases h with rfl | rfl | rfl | rfl | rfl <;> rfl

theorem skipTo_readFloat64 (hr : r.peek = 0xCB) :
    skipTo sizeBits (depth+1) r = .ok r.readFloat64.2 := by
  rw [skipTo,hr]; rfl

theorem skipTo_skipBin {tag : UInt8} (hr : r.peek = tag) (h : tag = 0xC4 ∨ tag = 0xC5 ∨
    tag = 0xC6) : skipTo sizeBits (depth+1) r = r.skipBin sizeBits := by
  rw [skipTo,hr]
  rcases h with rfl | rfl | rfl <;> rfl

theorem skipTo_array {tag : UInt8} (hr : r.peek = tag)
    (h : (∃ n ≤ 15, tag = 0x90 ||| UInt8.ofNat n) ∨ tag = 0xDC ∨ tag = 0xDD) :
    skipTo sizeBits (depth+1) r =
      times (skipTo sizeBits depth) r.readArrayHeader.1 r.readArrayHeader.2 := by
  rw [skipTo,hr]
  obtain ⟨n,hn,rfl⟩ | rfl | rfl := h
  · interval_cases n <;> rfl
  · rfl
  · rfl

end Reader

inductive Value where
  | nil
  | bool (v : Bool)
  | int (v : Int64)
  | float64 (bits : UInt64)
  | bin (b : Bytes)
  | array (vs : List Value)

namespace Value

mutual

def pack : Value → Bytes
  | .nil => packNil
  | .bool v => packBool v
  | .int v => packInt v
  | .float64 bits => packFloat64 bits
  | .bin b => packBin b
  | .array vs => packArrayHeader vs.length ++ packAll vs

def packAll : List Value → Bytes
  | [] => []
  | v :: vs => pack v ++ packAll vs

end

mutual

def Fits : Value → Prop
  | .bin b => b.length < 2^32
  | .array vs => vs.length < 2^32 ∧ FitsAll vs
  | _ => True

def FitsAll : List Value → Prop
  | [] => True
  | v :: vs => Fits v ∧ FitsAll vs

end

mutual

/-- The consumers of its kinds return the value and stop at the second reader. -/
inductive Reads (sizeBits : Nat) : Value → Reader → Reader → Prop
  | nil {r r' : Reader} (h : r.readNil = (true,r')) : Reads sizeBits .nil r r'
  | bool {r r' : Reader} {v : Bool} (h : r.readBool = (v,r')) : Reads sizeBits (.bool v) r r'
  | int {r r' : Reader} {v : Int64} (h : r.readInt = (v.toInt,r')) : Reads sizeBits (.int v) r r'
  | float64 {r r' : Reader} {bits : UInt64} (h : r.readFloat64 = (bits,r')) :
      Reads sizeBits (.float64 bits) r r'
  | bin {r r' : Reader} {b : Bytes} (h : r.readBin sizeBits = .ok (b,r')) :
      Reads sizeBits (.bin b) r r'
  | array {r r₁ r' : Reader} {vs : List Value} (h : r.readArrayHeader = (vs.length,r₁))
      (hs : ReadsAll sizeBits vs r₁ r') : Reads sizeBits (.array vs) r r'

inductive ReadsAll (sizeBits : Nat) : List Value → Reader → Reader → Prop
  | nil {r : Reader} : ReadsAll sizeBits [] r r
  | cons {r r₁ r' : Reader} {v : Value} {vs : List Value} (h : Reads sizeBits v r r₁)
      (hs : ReadsAll sizeBits vs r₁ r') : ReadsAll sizeBits (v :: vs) r r'

end

section
variable {sizeBits : Nat}

mutual

theorem reads_pack : ∀ (v : Value) {r : Reader} {s : Bytes}, v.Fits → r.Rest (v.pack ++ s) →
    r.data.length < 2^sizeBits → Reads sizeBits v r (r.advance v.pack.length)
  | .nil, _, _, _, hr, _ => .nil (Reader.readNil_packNil hr)
  | .bool _, _, _, _, hr, _ => .bool (Reader.readBool_packBool hr)
  | .int _, _, _, _, hr, _ => .int (Reader.readInt_packInt hr)
  | .float64 _, _, _, _, hr, _ => .float64 (by
      rw [Reader.readFloat64_packFloat64 hr]; simp [pack,packFloat64])
  | .bin _, _, _, hv, hr, hsize => .bin (Reader.readBin_packBin hr hv hsize)
  | .array vs, r, s, ⟨hlen,hv⟩, hr, hsize => by
    rw [pack,List.append_assoc] at hr
    rw [pack,List.length_append,← Reader.advance_advance]
    exact .array (Reader.readArrayHeader_packArrayHeader hr hlen)
      (readsAll_packAll vs hv hr.append hsize)

theorem readsAll_packAll : ∀ (vs : List Value) {r : Reader} {s : Bytes}, FitsAll vs →
    r.Rest (packAll vs ++ s) → r.data.length < 2^sizeBits →
    ReadsAll sizeBits vs r (r.advance (packAll vs).length)
  | [], _, _, _, _, _ => .nil
  | v :: vs, r, s, ⟨hv,hvs⟩, hr, hsize => by
    rw [packAll,List.append_assoc] at hr
    rw [packAll,List.length_append,← Reader.advance_advance]
    exact .cons (reads_pack v hv hr hsize) (readsAll_packAll vs hvs hr.append hsize)

end

theorem packArrayHeader_cons {n : Nat} (hn : n < 2^32) : ∃ tag rest,
    packArrayHeader n = tag :: rest ∧
      ((∃ m ≤ 15, tag = 0x90 ||| UInt8.ofNat m) ∨ tag = 0xDC ∨ tag = 0xDD) := by
  obtain ⟨h15,hp⟩ | ⟨tag,k,hp,-,htag⟩ := Reader.packArrayHeader_cases hn
  · exact ⟨_,[],hp,.inl ⟨n,h15,rfl⟩⟩
  · exact ⟨tag,_,hp,.inr (htag.imp And.left And.left)⟩

theorem pack_length_pos {v : Value} (hv : v.Fits) : 0 < v.pack.length := by
  cases v with
  | nil => exact Nat.one_pos
  | bool v => exact Nat.one_pos
  | int v =>
    obtain ⟨b,hp,-⟩ | ⟨tag,k,n,hp,-⟩ | ⟨tag,k,n,hp,-⟩ := Reader.packInt_cases v <;> simp [pack,hp]
  | float64 bits => simp [pack,packFloat64]
  | bin b =>
    obtain ⟨tag,k,hp,-⟩ := Reader.packBin_cases hv
    simp [pack,hp]
  | array vs =>
    obtain ⟨tag,rest,hp,-⟩ := packArrayHeader_cons hv.1
    simp [pack,hp]

theorem skipTo_int {v : Int64} {depth : Nat} {r : Reader} {s : Bytes}
    (hr : r.Rest (packInt v ++ s)) :
    Reader.skipTo sizeBits (depth+1) r = .ok (r.advance (packInt v).length) := by
  have hread := Reader.readInt_packInt hr
  obtain ⟨b,hp,hb⟩ | ⟨tag,k,n,hp,-,htag⟩ | ⟨tag,k,n,hp,-,htag⟩ := Reader.packInt_cases v
  · rw [hp,List.singleton_append] at hr
    rw [Reader.skipTo_next (by rw [Reader.peek_cons hr]; tauto),Reader.next_cons hr,hp]; rfl
  · rw [hp,List.cons_append] at hr
    rw [Reader.skipTo_readInt (Reader.peek_cons hr) (by tauto),hread]
  · rw [hp,List.cons_append] at hr
    rw [Reader.skipTo_readInt (Reader.peek_cons hr) (by tauto),hread]

mutual

theorem skipTo_pack : ∀ (v : Value) {depth : Nat} {r : Reader} {s : Bytes}, v.Fits →
    r.Rest (v.pack ++ s) → r.data.length < 2^sizeBits → v.pack.length ≤ depth →
    Reader.skipTo sizeBits depth r = .ok (r.advance v.pack.length)
  | v, 0, _, _, hv, _, _, hd => absurd (pack_length_pos hv) (by omega)
  | .nil, depth+1, r, s, _, hr, _, _ => by
    rw [Reader.skipTo_next (.inl (Reader.peek_cons hr)),Reader.next_cons hr]; rfl
  | .bool v, depth+1, r, s, _, hr, _, _ => by
    have hp : r.peek = if v then 0xC3 else 0xC2 := Reader.peek_cons hr
    rw [Reader.skipTo_next (by cases v <;> simp [hp]),Reader.next_cons hr]; rfl
  | .int v, depth+1, r, s, _, hr, _, _ => skipTo_int hr
  | .float64 bits, depth+1, r, s, _, hr, _, _ => by
    rw [Reader.skipTo_readFloat64 (Reader.peek_cons hr),Reader.readFloat64_packFloat64 hr]
    simp [pack,packFloat64]
  | .bin b, depth+1, r, s, hv, hr, hsize, _ => by
    have hread := Reader.readBin_packBin hr hv hsize
    obtain ⟨tag,k,hp,-,htag⟩ := Reader.packBin_cases hv
    rw [pack,hp,List.cons_append] at hr
    rw [Reader.skipTo_skipBin (Reader.peek_cons hr) (by tauto),Reader.skipBin,hread]; rfl
  | .array vs, depth+1, r, s, ⟨hlen,hv⟩, hr, hsize, hd => by
    rw [pack,List.append_assoc] at hr
    rw [pack,List.length_append] at hd
    have hread := Reader.readArrayHeader_packArrayHeader hr hlen
    obtain ⟨tag,rest,hp,htag⟩ := packArrayHeader_cons hlen
    have hpeek : r.peek = tag := by
      rw [hp,List.cons_append] at hr
      exact Reader.peek_cons hr
    have hpos : 0 < (packArrayHeader vs.length).length := by simp [hp]
    rw [Reader.skipTo_array hpeek htag,hread,pack,List.length_append,← Reader.advance_advance]
    exact times_packAll vs hv hr.append hsize (by omega)

theorem times_packAll : ∀ (vs : List Value) {depth : Nat} {r : Reader} {s : Bytes}, FitsAll vs →
    r.Rest (packAll vs ++ s) → r.data.length < 2^sizeBits → (packAll vs).length ≤ depth →
    Reader.times (Reader.skipTo sizeBits depth) vs.length r = .ok (r.advance (packAll vs).length)
  | [], _, _, _, _, _, _, _ => rfl
  | v :: vs, depth, r, s, ⟨hv,hvs⟩, hr, hsize, hd => by
    rw [packAll,List.append_assoc] at hr
    rw [packAll,List.length_append] at hd
    rw [packAll,List.length_append,← Reader.advance_advance,List.length_cons,Reader.times,
      skipTo_pack v hv hr hsize (by omega)]
    exact times_packAll vs hvs hr.append hsize (by omega)

end

end

/-- A packed value, at any place of a buffer, is read back to its last byte and skipped to
there. -/
theorem value_roundtrip {v : Value} (hv : v.Fits) (before after : Bytes)
    (hsize : (before ++ v.pack ++ after).length < 2^64) :
    Reads 64 v ⟨before ++ v.pack ++ after,before.length⟩
        ⟨before ++ v.pack ++ after,before.length + v.pack.length⟩ ∧
      Reader.skip 64 ⟨before ++ v.pack ++ after,before.length⟩ =
        .ok ⟨before ++ v.pack ++ after,before.length + v.pack.length⟩ := by
  have hrest : Reader.Rest ⟨before ++ v.pack ++ after,before.length⟩ (v.pack ++ after) := by
    rw [List.append_assoc]; exact List.drop_left
  have hdepth := hrest.length.trans List.length_append
  exact ⟨reads_pack v hv hrest hsize,skipTo_pack v hv hrest hsize (by omega)⟩

theorem value_roundtrip_nested :
    let v := array [nil,int (-129),array [bin [7,8],bool true],float64 0x3FF0000000000000]
    Reads 64 v ⟨[1] ++ v.pack ++ [2],1⟩ ⟨[1] ++ v.pack ++ [2],1 + v.pack.length⟩ ∧
      Reader.skip 64 ⟨[1] ++ v.pack ++ [2],1⟩ = .ok ⟨[1] ++ v.pack ++ [2],1 + v.pack.length⟩ :=
  value_roundtrip (by simp [Fits,FitsAll]) [1] [2] (by decide)

end Value

end MsgPack
end RNS
