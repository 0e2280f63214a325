import RTReticulum.Types
import RTReticulum.Library.CopyOnWrite

/-! `bytes.h` and `bytes.cpp` with their shared buffers: handles that share behave as if
each had its own bytes. -/
set_option autoImplicit false

namespace RNS
namespace Bytes

def hexByte (a b : UInt8) : UInt8 :=
  UInt8.ofNat ((a.toNat % 32 + 9) % 25 * 16 + (b.toNat % 32 + 9) % 25)

/-- The bytes of pairs of hexadecimal characters; an odd last one is left out. -/
def fromHex : Bytes → Bytes
  | a :: b :: hex => hexByte a b :: fromHex hex
  | _ => []

def ofString (string : Option Bytes) : Bytes := (string.getD []).takeWhile (· ≠ 0)

/-- `none` is the handle of the temporary in the expression that is evaluated. -/
abbrev Heap (ι : Type) := CopyOnWrite.Heap (Option ι) Bytes

/-- What becomes of the value of an expression: it initialises a new object, or is assigned to
an old one. -/
inductive Result where
  | init
  | assign

namespace Heap
variable {ι : Type}

def start : Heap ι := ⟨fun _ => [],0,fun _ => ⟨none,true⟩⟩

theorem start_sound : (start : Heap ι).Sound := ⟨nofun,nofun⟩

def contents (s : Heap ι) (i : Option ι) : Bytes := s.value [] i

theorem contents_of_isNone {s : Heap ι} {i : Option ι}
    (h : (s.handles i).data.isNone) : s.contents i = [] := by
  rw [contents,CopyOnWrite.Heap.value,Option.isNone_iff_eq_none.mp h]
  rfl

def size (s : Heap ι) (i : Option ι) : Nat := (s.contents i).length

variable [DecidableEq ι]

def newData (i : Option ι) (s : Heap ι) : Heap ι := s.own i []

/-- The capacity that is reserved changes no contents. -/
def exclusiveData (i : Option ι) (copy : Bool) (s : Heap ι) : Heap ι :=
  match (s.handles i).data with
  | none => s.newData i
  | some a =>
    if !(s.handles i).exclusive then
      if copy && !(s.mem a).isEmpty then s.own i (s.mem a) else s.newData i
    else s

def onData (i : Option ι) (f : Bytes → Bytes) (s : Heap ι) : Heap ι :=
  match (s.handles i).data with
  | none => s
  | some a => s.store a (f (s.mem a))

def construct (i : Option ι) (s : Heap ι) : Heap ι := s.release i

def constructCapacity (i : Option ι) (s : Heap ι) : Heap ι := (s.construct i).newData i

def clear (i : Option ι) (s : Heap ι) : Heap ι := s.release i

/-- `assign(const Bytes&)`, and the copy constructor, which begins without a buffer. -/
def assign (i j : Option ι) (s : Heap ι) : Heap ι := s.share i j

def assignValue (i : Option ι) (data : Bytes) (s : Heap ι) : Heap ι :=
  if data.isEmpty then s.clear i else (s.exclusiveData i false).onData i fun _ => data

def assignData (i : Option ι) (data : Bytes) (s : Heap ι) : Heap ι := s.assignValue i data

def assignChunk (i : Option ι) (chunk : Option Bytes) (s : Heap ι) : Heap ι :=
  s.assignValue i (chunk.getD [])

def assignString (i : Option ι) (string : Option Bytes) (s : Heap ι) : Heap ι :=
  s.assignValue i (ofString string)

/-- What is pushed on the cleared buffer, a byte for each pair of characters. -/
def assignHex (i : Option ι) (hex : Option Bytes) (s : Heap ι) : Heap ι :=
  s.assignValue i (fromHex (hex.getD []))

def assignHexString (i : Option ι) (hex : Option Bytes) (s : Heap ι) : Heap ι :=
  if hex.isNone then s else s.assignHex i (some (ofString hex))

/-- `append(const Bytes&)`; `j` may be `i`, as the room for its bytes is reserved before they
are inserted. -/
def append (i j : Option ι) (s : Heap ι) : Heap ι :=
  if s.size j = 0 then s
  else
    let s := s.exclusiveData i true
    s.onData i (· ++ s.contents j)

def appendValue (i : Option ι) (data : Bytes) (s : Heap ι) : Heap ι :=
  if data.isEmpty then s else (s.exclusiveData i true).onData i (· ++ data)

def appendData (i : Option ι) (data : Bytes) (s : Heap ι) : Heap ι := s.appendValue i data

def appendChunk (i : Option ι) (chunk : Option Bytes) (s : Heap ι) : Heap ι :=
  s.appendValue i (chunk.getD [])

def appendString (i : Option ι) (string : Option Bytes) (s : Heap ι) : Heap ι :=
  s.appendValue i (ofString string)

def appendByte (i : Option ι) (byte : UInt8) (s : Heap ι) : Heap ι :=
  (s.exclusiveData i true).onData i (· ++ [byte])

def appendHex (i : Option ι) (hex : Option Bytes) (s : Heap ι) : Heap ι :=
  s.appendValue i (fromHex (hex.getD []))

def appendHexString (i : Option ι) (hex : Option Bytes) (s : Heap ι) : Heap ι :=
  if hex.isNone then s else s.appendHex i (some (ofString hex))

/-- Non-const `operator[]` and a write through what it returns; without a byte, a read.
`none` is `std::out_of_range`. -/
def subscript (i : Option ι) (index : Nat) (byte : Option UInt8) (s : Heap ι) :
    Option (Heap ι) :=
  if s.size i ≤ index then none
  else
    let s := s.exclusiveData i true
    some (byte.elim s fun byte => s.onData i (·.set index byte))

def resize (i : Option ι) (newsize : Nat) (s : Heap ι) : Heap ι :=
  if newsize = s.size i then s
  else (s.exclusiveData i true).onData i (Bytes.resize · newsize)

def writable (i : Option ι) (size : Nat) (s : Heap ι) : Heap ι :=
  if size > 0 then (s.exclusiveData i false).resize i size
  else if (s.handles i).data.isSome then
    let current := s.size i
    (s.exclusiveData i false).resize i current
  else s

/-- Every byte of the buffer that `writable` returned is written. -/
def overwrite (i : Option ι) (fill : Nat → UInt8) (s : Heap ι) : Heap ι :=
  s.onData i fun b => (List.range b.length).map fill

/-- The temporary gives its value to `k` and is destroyed. -/
def receive (result : Result) (k : ι) (s : Heap ι) : Heap ι :=
  match result with
  | .init => s.move (some k) none
  | .assign => (s.assign (some k) none).release none

def add (i j : Option ι) (s : Heap ι) : Heap ι := (s.assign none i).append none j

def left (i : Option ι) (len : Nat) (s : Heap ι) : Heap ι :=
  if (s.handles i).data.isNone then s.construct none
  else
    let len := if len > s.size i then s.size i else len
    (s.construct none).assignChunk none (some ((s.contents i).take len))

def right (i : Option ι) (len : Nat) (s : Heap ι) : Heap ι :=
  if (s.handles i).data.isNone then s.construct none
  else
    let len := if len > s.size i then s.size i else len
    (s.construct none).assignChunk none (some (((s.contents i).drop (s.size i - len)).take len))

def mid (i : Option ι) (beginpos len : Nat) (s : Heap ι) : Heap ι :=
  if (s.handles i).data.isNone ∨ beginpos ≥ s.size i then s.construct none
  else
    let remaining := s.size i - beginpos
    let len := if len > remaining then remaining else len
    (s.construct none).assignChunk none (some (((s.contents i).drop beginpos).take len))

def midFrom (i : Option ι) (beginpos : Nat) (s : Heap ι) : Heap ι :=
  if (s.handles i).data.isNone ∨ beginpos ≥ s.size i then s.construct none
  else (s.construct none).assignChunk none
    (some (((s.contents i).drop beginpos).take (s.size i - beginpos)))

end Heap

inductive Op (ι : Type) where
  | construct (i : ι)
  | constructCapacity (i : ι)
  | assign (i j : ι)
  | assignData (i : ι) (data : Bytes)
  | assignChunk (i : ι) (chunk : Option Bytes)
  | assignString (i : ι) (string : Option Bytes)
  | assignHex (i : ι) (hex : Option Bytes)
  | assignHexString (i : ι) (hex : Option Bytes)
  | append (i j : ι)
  | appendData (i : ι) (data : Bytes)
  | appendChunk (i : ι) (chunk : Option Bytes)
  | appendString (i : ι) (string : Option Bytes)
  | appendByte (i : ι) (byte : UInt8)
  | appendHex (i : ι) (hex : Option Bytes)
  | appendHexString (i : ι) (hex : Option Bytes)
  | add (result : Result) (k i j : ι)
  | subscript (i : ι) (index : Nat) (byte : Option UInt8)
  | clear (i : ι)
  | resize (i : ι) (newsize : Nat)
  | writable (i : ι) (size : Nat) (fill : Nat → UInt8)
  | left (result : Result) (k i : ι) (len : Nat)
  | right (result : Result) (k i : ι) (len : Nat)
  | mid (result : Result) (k i : ι) (beginpos len : Nat)
  | midFrom (result : Result) (k i : ι) (beginpos : Nat)

section
variable {ι : Type} [DecidableEq ι]

def Op.step (s : Heap ι) : Op ι → Option (Heap ι)
  | construct i => some (s.construct (some i))
  | constructCapacity i => some (s.constructCapacity (some i))
  | assign i j => some (s.assign (some i) (some j))
  | assignData i data => some (s.assignData (some i) data)
  | assignChunk i chunk => some (s.assignChunk (some i) chunk)
  | assignString i string => some (s.assignString (some i) string)
  | assignHex i hex => some (s.assignHex (some i) hex)
  | assignHexString i hex => some (s.assignHexString (some i) hex)
  | append i j => some (s.append (some i) (some j))
  | appendData i data => some (s.appendData (some i) data)
  | appendChunk i chunk => some (s.appendChunk (some i) chunk)
  | appendString i string => some (s.appendString (some i) string)
  | appendByte i byte => some (s.appendByte (some i) byte)
  | appendHex i hex => some (s.appendHex (some i) hex)
  | appendHexString i hex => some (s.appendHexString (some i) hex)
  | add result k i j => some ((s.add (some i) (some j)).receive result k)
  | subscript i index byte => s.subscript (some i) index byte
  | clear i => some (s.clear (some i))
  | resize i newsize => some (s.resize (some i) newsize)
  | writable i size fill => some ((s.writable (some i) size).overwrite (some i) fill)
  | left result k i len => some ((s.left (some i) len).receive result k)
  | right result k i len => some ((s.right (some i) len).receive result k)
  | mid result k i beginpos len => some ((s.mid (some i) beginpos len).receive result k)
  | midFrom result k i beginpos => some ((s.midFrom (some i) beginpos).receive result k)

def Op.target : Op ι → ι
  | construct i | constructCapacity i | assign i _ | assignData i _ | assignChunk i _
  | assignString i _ | assignHex i _ | assignHexString i _ | append i _ | appendData i _
  | appendChunk i _ | appendString i _ | appendByte i _ | appendHex i _ | appendHexString i _
  | add _ i _ _ | subscript i _ _ | clear i | resize i _ | writable i _ _ | left _ i _ _
  | right _ i _ _ | mid _ i _ _ _ | midFrom _ i _ _ => i

/-- The reference: what the target holds afterwards, when every handle owns a list of bytes. -/
def Op.value (own : ι → Bytes) : Op ι → Option Bytes
  | construct _ | constructCapacity _ | clear _ => some []
  | assign _ j => some (own j)
  | assignData _ data => some data
  | assignChunk _ chunk => some (chunk.getD [])
  | assignString _ string => some (ofString string)
  | assignHex _ hex => some (fromHex (hex.getD []))
  | assignHexString i hex => some (hex.elim (own i) fun h => fromHex (ofString (some h)))
  | append i j => some (own i ++ own j)
  | appendData i data => some (own i ++ data)
  | appendChunk i chunk => some (own i ++ chunk.getD [])
  | appendString i string => some (own i ++ ofString string)
  | appendByte i byte => some (own i ++ [byte])
  | appendHex i hex => some (own i ++ fromHex (hex.getD []))
  | appendHexString i hex => some (own i ++ fromHex (ofString hex))
  | add _ _ i j => some (own i ++ own j)
  | subscript i index byte =>
    if (own i).length ≤ index then none
    else some (byte.elim (own i) fun byte => (own i).set index byte)
  | resize i newsize => some (Bytes.resize (own i) newsize)
  | writable i size fill =>
    some ((List.range (if size > 0 then size else (own i).length)).map fill)
  | left _ _ i len => some (Bytes.left (own i) len)
  | right _ _ i len => some (Bytes.right (own i) len)
  | mid _ _ i beginpos len => some (Bytes.mid (own i) beginpos len)
  | midFrom _ _ i beginpos => some (Bytes.midFrom (own i) beginpos)

def Op.reference (own : ι → Bytes) (o : Op ι) : Option (ι → Bytes) :=
  (o.value own).map (Function.update own o.target)

/-- A program whose exceptions are caught where they are thrown. -/
def run (os : List (Op ι)) : Heap ι := os.foldl (fun s o => (o.step s).getD s) .start

def runReference (os : List (Op ι)) : ι → Bytes :=
  os.foldl (fun own o => (o.reference own).getD own) fun _ => []

namespace Heap
variable {s t : Heap ι} {i j : Option ι} {v : Bytes}

def Owns (s : Heap ι) (i : Option ι) : Prop := ∃ a, s.handles i = ⟨some a,true⟩

theorem own_owns (s : Heap ι) (i : Option ι) (x : Bytes) : Owns (s.own i x) i :=
  ⟨s.next,Function.update_self _ _ _⟩

theorem exclusiveData_owned (h : s.Owns i) (copy : Bool) : s.exclusiveData i copy = s := by
  obtain ⟨a,ha⟩ := h
  simp [exclusiveData,ha]

theorem exclusiveData_sets (hs : s.Sound) (i : Option ι) (copy : Bool) :
    (s.exclusiveData i copy).Owns i ∧ ∃ old, s.Sets [] i old (s.exclusiveData i copy) ∧
      (copy = true → old = s.contents i) := by
  cases ha : s.handles i with
  | mk data exclusive =>
    cases data with
    | none =>
      have h : s.exclusiveData i copy = s.own i [] := by simp [exclusiveData,newData,ha]
      rw [h]
      exact ⟨own_owns s i [],[],CopyOnWrite.Heap.own_sets hs i [],fun _ => by
        simp [contents,CopyOnWrite.Heap.value,ha]⟩
    | some a =>
      have hc : s.contents i = s.mem a := by simp [contents,CopyOnWrite.Heap.value,ha]
      cases exclusive with
      | true =>
        rw [exclusiveData_owned ⟨a,ha⟩]
        exact ⟨⟨a,ha⟩,_,.refl hs i,fun _ => rfl⟩
      | false =>
        by_cases hcopy : copy = true ∧ s.mem a ≠ []
        · have h : s.exclusiveData i copy = s.own i (s.mem a) := by simp [exclusiveData,ha,hcopy]
          rw [h]
          exact ⟨own_owns s i _,_,CopyOnWrite.Heap.own_sets hs i _,fun _ => hc.symm⟩
        · -- a shared buffer that is empty is replaced by a new one
          have h : s.exclusiveData i copy = s.own i [] := by
            simp only [exclusiveData,ha]
            cases copy with
            | false => rfl
            | true => rw [not_and_not_right.mp hcopy rfl]; rfl
          rw [h]
          refine ⟨own_owns s i [],[],CopyOnWrite.Heap.own_sets hs i [],fun hc' => ?_⟩
          rw [hc,not_and_not_right.mp hcopy hc']

theorem onData_sets (hs : s.Sound) (h : s.Owns i) (f : Bytes → Bytes) :
    s.Sets [] i (f (s.contents i)) (s.onData i f) ∧ (s.onData i f).Owns i := by
  obtain ⟨a,ha⟩ := h
  have hc : s.contents i = s.mem a := by simp [contents,CopyOnWrite.Heap.value,ha]
  have ho : s.onData i f = s.store a (f (s.mem a)) := by simp [onData,ha]
  rw [hc,ho]
  exact ⟨CopyOnWrite.Heap.store_sets hs (by rw [ha]) (by rw [ha]) _,a,ha⟩

theorem change_sets (hs : s.Sound) (i : Option ι) (f : Bytes → Bytes) :
    s.Sets [] i (f (s.contents i)) ((s.exclusiveData i true).onData i f) := by
  obtain ⟨howns,old,hset,hold⟩ := exclusiveData_sets hs i true
  have h := hset.trans (onData_sets hset.sound howns f).1
  rwa [contents,hset.self,hold rfl] at h

theorem replace_sets (hs : s.Sound) (i : Option ι) (data : Bytes) :
    s.Sets [] i data ((s.exclusiveData i false).onData i fun _ => data) := by
  obtain ⟨howns,old,hset,-⟩ := exclusiveData_sets hs i false
  exact hset.trans (onData_sets hset.sound howns fun _ => data).1

theorem assignValue_sets (hs : s.Sound) (i : Option ι) (data : Bytes) :
    s.Sets [] i data (s.assignValue i data) := by
  unfold assignValue
  split
  · rename_i h
    rw [List.isEmpty_iff.mp h]
    exact CopyOnWrite.Heap.release_sets hs i
  · exact replace_sets hs i data

theorem appendValue_sets (hs : s.Sound) (i : Option ι) (data : Bytes) :
    s.Sets [] i (s.contents i ++ data) (s.appendValue i data) := by
  unfold appendValue
  split
  · rename_i h
    rw [List.isEmpty_iff.mp h,List.append_nil]
    exact .refl hs i
  · exact change_sets hs i (· ++ data)

/-- The bytes are read after the target was detached, which changes none of them. -/
theorem append_sets (hs : s.Sound) (i j : Option ι) :
    s.Sets [] i (s.contents i ++ s.contents j) (s.append i j) := by
  unfold append
  split
  · rename_i h
    rw [List.length_eq_zero_iff.mp h,List.append_nil]
    exact .refl hs i
  · obtain ⟨-,old,hset,hold⟩ := exclusiveData_sets hs i true
    have hsame : (s.exclusiveData i true).contents j = s.contents j := by
      rw [contents,hset.value,hold rfl]
      exact congrFun (Function.update_eq_self i _) j
    simp only [hsame]
    exact change_sets hs i (· ++ s.contents j)

theorem resize_sets (hs : s.Sound) (i : Option ι) (newsize : Nat) :
    s.Sets [] i (Bytes.resize (s.contents i) newsize) (s.resize i newsize) := by
  unfold resize
  split
  · rename_i h
    rw [h,size,Bytes.resize_of_le (Nat.le_refl _),List.take_length]
    exact .refl hs i
  · exact change_sets hs i (Bytes.resize · newsize)

theorem subscript_sets (hs : s.Sound) (i : Option ι) {index : Nat} (h : ¬ s.size i ≤ index)
    (byte : Option UInt8) : ∃ t, s.subscript i index byte = some t ∧
      s.Sets [] i (byte.elim (s.contents i) fun byte => (s.contents i).set index byte) t := by
  refine ⟨_,if_neg h,?_⟩
  cases byte with
  | none =>
    obtain ⟨-,old,hset,hold⟩ := exclusiveData_sets hs i true
    exact hold rfl ▸ hset
  | some byte => exact change_sets hs i (·.set index byte)

/-- Nothing is said of the bytes that `writable` hands out but their number. -/
theorem writable_sets (hs : s.Sound) (i : Option ι) (size : Nat) (h : 0 < size ∨
    (s.handles i).data.isSome) : (s.writable i size).Owns i ∧ ∃ old,
      s.Sets [] i old (s.writable i size) ∧
      old.length = if size > 0 then size else s.size i := by
  have resized : ∀ n, ((s.exclusiveData i false).resize i n).Owns i ∧ ∃ old,
      s.Sets [] i old ((s.exclusiveData i false).resize i n) ∧ old.length = n := by
    intro n
    obtain ⟨howns,old,hset,-⟩ := exclusiveData_sets hs i false
    refine ⟨?_,_,hset.trans (resize_sets hset.sound i n),by simp [Bytes.resize]; omega⟩
    unfold resize
    split
    · exact howns
    · rw [exclusiveData_owned howns]
      exact (onData_sets hset.sound howns _).2
  unfold writable
  split
  · exact resized size
  · rename_i hsize
    rw [if_pos (h.resolve_left hsize)]
    exact resized (s.size i)

theorem overwrite_writable_sets (hs : s.Sound) (i : Option ι) (size : Nat) (fill : Nat → UInt8) :
    s.Sets [] i ((List.range (if size > 0 then size else s.size i)).map fill)
      ((s.writable i size).overwrite i fill) := by
  by_cases h : 0 < size ∨ (s.handles i).data.isSome
  · obtain ⟨howns,old,hset,hlen⟩ := writable_sets hs i size h
    have hfill := hset.trans
      (onData_sets hset.sound howns fun b => (List.range b.length).map fill).1
    rwa [contents,hset.self,hlen] at hfill
  · obtain ⟨hsize,hdata⟩ := not_or.mp h
    have hdata : (s.handles i).data = none := by simpa using hdata
    have hc : s.contents i = [] := by simp [contents,CopyOnWrite.Heap.value,hdata]
    have hsame : (s.writable i size).overwrite i fill = s := by
      simp [writable,hsize,hdata,overwrite,onData]
    have hrefl : s.Sets [] i (s.contents i) s := .refl hs i
    rw [hsame,if_neg hsize,Heap.size,hc]
    rwa [hc] at hrefl

def plain (s : Heap ι) (i : ι) : Bytes := s.contents (some i)

theorem Sets.plain {i : ι} (h : s.Sets [] (some i) v t) :
    t.Sound ∧ plain t = Function.update (plain s) i v := by
  refine ⟨h.sound,funext fun j => ?_⟩
  show t.value [] (some j) = _
  by_cases hj : j = i
  · subst hj
    rw [h.self,Function.update_self]
  · rw [h.other (by simpa using hj),Function.update_of_ne hj]
    rfl

theorem receive_plain (h : s.Sets [] none v t) (result : Result) (k : ι) :
    (t.receive result k).Sound ∧ plain (t.receive result k) = Function.update (plain s) k v := by
  have hsame : plain t = plain s := funext fun j => h.other (by simp)
  cases result with
  | init =>
    refine ⟨CopyOnWrite.Heap.move_sound h.sound (by simp),funext fun j => ?_⟩
    show (CopyOnWrite.Heap.move (some k) none t).value [] (some j) = _
    rw [CopyOnWrite.Heap.move_value (by simp),Function.update_of_ne (by simp),h.self]
    by_cases hj : j = k
    · subst hj
      rw [Function.update_self,Function.update_self]
    · rw [Function.update_of_ne (by simpa using hj),Function.update_of_ne hj]
      exact congrFun hsame j
  | assign =>
    have hshare : t.Sets [] (some k) v (t.assign (some k) none) :=
      h.self ▸ CopyOnWrite.Heap.share_sets h.sound (some k) none
    have hrelease := CopyOnWrite.Heap.release_sets (d := []) hshare.sound none
    refine ⟨hrelease.sound,?_⟩
    rw [← hsame,← (Sets.plain hshare).2]
    exact funext fun j => hrelease.other (by simp)

theorem add_sets (hs : s.Sound) (i j : ι) :
    s.Sets [] none (plain s i ++ plain s j) (s.add (some i) (some j)) := by
  have hshare : s.Sets [] none (s.contents (some i)) (s.assign none (some i)) :=
    CopyOnWrite.Heap.share_sets hs none (some i)
  have hi : (s.assign none (some i)).contents none = plain s i := hshare.self
  have hj : (s.assign none (some i)).contents (some j) = plain s j := hshare.other (by simp)
  have h := hshare.trans (append_sets hshare.sound none (some j))
  rwa [hi,hj] at h

theorem chunk_sets (hs : s.Sound) (data : Bytes) :
    s.Sets [] none data ((s.construct none).assignChunk none (some data)) := by
  have h := CopyOnWrite.Heap.release_sets (d := []) hs none
  exact h.trans (assignValue_sets h.sound none data)

theorem take_cut (b : Bytes) (len : Nat) :
    b.take (if len > b.length then b.length else len) = b.take len := by
  split
  · rw [List.take_length,List.take_of_length_le (by omega)]
  · rfl

theorem left_sets (hs : s.Sound) (i : ι) (len : Nat) :
    s.Sets [] none (Bytes.left (plain s i) len) (s.left (some i) len) := by
  unfold left
  split
  · rename_i h
    simp only [plain,contents_of_isNone h,Bytes.left,List.take_nil]
    exact CopyOnWrite.Heap.release_sets hs none
  · have hcut : Bytes.left (plain s i) len = (plain s i).take
        (if len > s.size (some i) then s.size (some i) else len) := (take_cut _ _).symm
    exact hcut ▸ chunk_sets hs _

theorem right_sets (hs : s.Sound) (i : ι) (len : Nat) :
    s.Sets [] none (Bytes.right (plain s i) len) (s.right (some i) len) := by
  unfold right
  split
  · rename_i h
    simp only [plain,contents_of_isNone h,Bytes.right,List.drop_nil]
    exact CopyOnWrite.Heap.release_sets hs none
  · have hcut : Bytes.right (plain s i) len = ((plain s i).drop (s.size (some i) -
        if len > s.size (some i) then s.size (some i) else len)).take
          (if len > s.size (some i) then s.size (some i) else len) := by
      have hlen : (plain s i).length = s.size (some i) := rfl
      rw [List.take_of_length_le (by rw [List.length_drop,hlen]; split <;> omega),Bytes.right,hlen]
      congr 1
      split <;> omega
    exact hcut ▸ chunk_sets hs _

omit [DecidableEq ι] in
theorem plain_drop {i : ι} {beginpos : Nat}
    (h : (s.handles (some i)).data.isNone ∨ beginpos ≥ s.size (some i)) :
    (plain s i).drop beginpos = [] := by
  rcases h with h | h
  · rw [plain,contents_of_isNone h,List.drop_nil]
  · exact List.drop_of_length_le h

theorem mid_sets (hs : s.Sound) (i : ι) (beginpos len : Nat) :
    s.Sets [] none (Bytes.mid (plain s i) beginpos len) (s.mid (some i) beginpos len) := by
  unfold mid
  split
  · rename_i h
    rw [Bytes.mid,plain_drop h,List.take_nil]
    exact CopyOnWrite.Heap.release_sets hs none
  · have hcut : Bytes.mid (plain s i) beginpos len = ((plain s i).drop beginpos).take
        (if len > s.size (some i) - beginpos then s.size (some i) - beginpos else len) := by
      have hlen : ((plain s i).drop beginpos).length = s.size (some i) - beginpos :=
        List.length_drop
      rw [← hlen,take_cut]
    exact hcut ▸ chunk_sets hs _

theorem midFrom_sets (hs : s.Sound) (i : ι) (beginpos : Nat) :
    s.Sets [] none (Bytes.midFrom (plain s i) beginpos) (s.midFrom (some i) beginpos) := by
  unfold midFrom
  split
  · rename_i h
    rw [Bytes.midFrom,plain_drop h]
    exact CopyOnWrite.Heap.release_sets hs none
  · have hall : ((plain s i).drop beginpos).take (s.size (some i) - beginpos) =
        Bytes.midFrom (plain s i) beginpos :=
      List.take_of_length_le (by rw [List.length_drop]; exact Nat.le_refl _)
    exact hall ▸ chunk_sets hs _

end Heap

/-- One operation does to the handles what the reference does to lists of bytes. -/
theorem Op.step_refines {s : Heap ι} (hs : s.Sound) (o : Op ι) :
    (∀ t, o.step s = some t → t.Sound) ∧ (o.step s).map Heap.plain = o.reference s.plain := by
  -- every operation but the one that throws
  have sets : ∀ {t : Heap ι} {v : Bytes} {i : ι}, o.step s = some t → o.target = i →
      o.value s.plain = some v →
      t.Sound ∧ t.plain = Function.update s.plain i v →
      (∀ t, o.step s = some t → t.Sound) ∧ (o.step s).map Heap.plain = o.reference s.plain := by
    rintro t v i hstep rfl hv ⟨ht,hplain⟩
    refine ⟨fun u hu => ?_,?_⟩
    · cases hstep.symm.trans hu
      exact ht
    · rw [hstep,Op.reference,hv]
      exact congrArg some hplain
  have changes : ∀ {t : Heap ι} {v : Bytes} {i : ι}, o.step s = some t → o.target = i →
      o.value s.plain = some v → s.Sets [] (some i) v t →
      (∀ t, o.step s = some t → t.Sound) ∧ (o.step s).map Heap.plain = o.reference s.plain :=
    fun hstep ht hv h => sets hstep ht hv (Heap.Sets.plain h)
  cases o with
  | construct i => exact changes rfl rfl rfl (CopyOnWrite.Heap.release_sets hs _)
  | constructCapacity i =>
    have h := CopyOnWrite.Heap.release_sets (d := []) hs (some i)
    exact changes rfl rfl rfl (h.trans (CopyOnWrite.Heap.own_sets h.sound _ _))
  | assign i j => exact changes rfl rfl rfl (CopyOnWrite.Heap.share_sets hs _ _)
  | assignData i data => exact changes rfl rfl rfl (Heap.assignValue_sets hs _ _)
  | assignChunk i chunk => exact changes rfl rfl rfl (Heap.assignValue_sets hs _ _)
  | assignString i string => exact changes rfl rfl rfl (Heap.assignValue_sets hs _ _)
  | assignHex i hex => exact changes rfl rfl rfl (Heap.assignValue_sets hs _ _)
  | assignHexString i hex =>
    cases hex with
    | none => exact changes rfl rfl rfl (.refl hs _)
    | some hex => exact changes rfl rfl rfl (Heap.assignValue_sets hs _ _)
  | append i j => exact changes rfl rfl rfl (Heap.append_sets hs _ _)
  | appendData i data => exact changes rfl rfl rfl (Heap.appendValue_sets hs _ _)
  | appendChunk i chunk => exact changes rfl rfl rfl (Heap.appendValue_sets hs _ _)
  | appendString i string => exact changes rfl rfl rfl (Heap.appendValue_sets hs _ _)
  | appendByte i byte => exact changes rfl rfl rfl (Heap.change_sets hs _ (· ++ [byte]))
  | appendHex i hex => exact changes rfl rfl rfl (Heap.appendValue_sets hs _ _)
  | appendHexString i hex =>
    cases hex with
    | none => exact changes rfl rfl (congrArg some (List.append_nil _)) (.refl hs _)
    | some hex => exact changes rfl rfl rfl (Heap.appendValue_sets hs _ _)
  | add result k i j => exact sets rfl rfl rfl (Heap.receive_plain (Heap.add_sets hs i j) result k)
  | subscript i index byte =>
    by_cases hindex : s.size (some i) ≤ index
    · have hstep : (Op.subscript i index byte).step s = none := if_pos hindex
      have hvalue : (Op.subscript i index byte).value s.plain = none := if_pos hindex
      rw [hstep,Op.reference,hvalue]
      exact ⟨nofun,rfl⟩
    · obtain ⟨t,hstep,hset⟩ := Heap.subscript_sets hs (some i) hindex byte
      exact changes hstep rfl (if_neg hindex) hset
  | clear i => exact changes rfl rfl rfl (CopyOnWrite.Heap.release_sets hs _)
  | resize i newsize => exact changes rfl rfl rfl (Heap.resize_sets hs _ _)
  | writable i size fill =>
    exact changes rfl rfl rfl (Heap.overwrite_writable_sets hs (some i) size fill)
  | left result k i len =>
    exact sets rfl rfl rfl (Heap.receive_plain (Heap.left_sets hs i len) result k)
  | right result k i len =>
    exact sets rfl rfl rfl (Heap.receive_plain (Heap.right_sets hs i len) result k)
  | mid result k i beginpos len =>
    exact sets rfl rfl rfl (Heap.receive_plain (Heap.mid_sets hs i beginpos len) result k)
  | midFrom result k i beginpos =>
    exact sets rfl rfl rfl (Heap.receive_plain (Heap.midFrom_sets hs i beginpos) result k)

theorem run_refines (os : List (Op ι)) : (run os).Sound ∧ (run os).plain = runReference os := by
  induction os using List.reverseRecOn with
  | nil => exact ⟨Heap.start_sound,rfl⟩
  | append_singleton os o ih =>
    obtain ⟨hs,hplain⟩ := ih
    have hrun : run (os ++ [o]) = (o.step (run os)).getD (run os) := by simp [run]
    have href : runReference (os ++ [o]) =
        (o.reference (runReference os)).getD (runReference os) := by simp [runReference]
    obtain ⟨hsound,hstep⟩ := o.step_refines hs
    rw [hrun,href,← hplain,← hstep]
    cases h : o.step (run os) with
    | none => exact ⟨hs,rfl⟩
    | some t => exact ⟨hsound t h,rfl⟩

/-- Sharing cannot be seen: after any operations the handles hold what lists of bytes would,
each of which one handle owns; what an operation throws or changes is what it does to those
lists, and only its target changes; and a handle marked exclusive shares with none. -/
theorem copy_on_write_invisible (os : List (Op ι)) :
    (run os).plain = runReference os ∧
    (∀ o : Op ι, (o.step (run os)).map Heap.plain = o.reference (runReference os) ∧
      ∀ t, o.step (run os) = some t → ∀ j ≠ o.target, t.plain j = (run os).plain j) ∧
    ∀ i j a, ((run os).handles i).exclusive = true → ((run os).handles i).data = some a →
      ((run os).handles j).data = some a → i = j := by
  obtain ⟨hs,hplain⟩ := run_refines os
  refine ⟨hplain,fun o => ⟨hplain ▸ (o.step_refines hs).2,fun t ht j hj => ?_⟩,
    fun i j a => hs.alone⟩
  have hstep := (o.step_refines hs).2
  rw [ht,Op.reference] at hstep
  cases hv : o.value (run os).plain with
  | none => rw [hv] at hstep; cases hstep
  | some v =>
    rw [hv] at hstep
    rw [Option.some.inj hstep]
    exact Function.update_of_ne hj _ _

end

/-- What `writable(0)` leaves is no function of the bytes of a handle: a shared one loses
them, an exclusive one keeps them. -/
theorem writable_zero : ¬ ∃ f : Bytes → Bytes, ∀ os : List (Op Nat),
    ((run os).writable (some 1) 0).plain 1 = f ((run os).plain 1) := by
  rintro ⟨f,h⟩
  have hshared := h [.assignData 0 [7],.assign 1 0]
  have howned := h [.assignData 1 [7]]
  have hlost : ((run [.assignData 0 [7],.assign 1 0]).writable (some 1) 0).plain 1 = [0] := by
    decide
  have hkept : ((run [.assignData 1 [7]]).writable (some 1) 0).plain 1 = [7] := by decide
  have hsame : (run [.assignData 0 [7],.assign 1 0]).plain 1 =
      (run [.assignData 1 [7]]).plain 1 := by
    decide
  rw [hlost,hsame] at hshared
  rw [hkept,← hshared] at howned
  cases howned

end Bytes
end RNS
