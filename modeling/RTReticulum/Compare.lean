import RTReticulum.Library.ThreeWay
import RTReticulum.Bytes

/-! `Bytes::compare`: one comparison of two handles by their vectors, one of a handle and a
buffer by `memcmp`, and the order that both are. -/
set_option autoImplicit false

namespace RNS
open ThreeWay

/-- A `memcmp`: which number it returns is up to the library, its sign is not. -/
structure Memcmp where
  value : Bytes → Bytes → Nat → Int
  sign_value : ∀ a b n, n ≤ a.length → n ≤ b.length →
    (value a b n).sign = firstDifference a b n

def memcmp : Bytes → Bytes → Nat → Int
  | x :: a, y :: b, n+1 => if x = y then memcmp a b n else x.toNat - y.toNat
  | _, _, _ => 0

theorem sign_memcmp {a b : Bytes} {n : Nat} (ha : n ≤ a.length) (hb : n ≤ b.length) :
    (memcmp a b n).sign = firstDifference a b n := by
  induction n generalizing a b with
  | zero => simp [memcmp,firstDifference]
  | succ n ih =>
    obtain ⟨x,a,rfl⟩ := List.exists_cons_of_length_pos (Nat.zero_lt_of_lt ha)
    obtain ⟨y,b,rfl⟩ := List.exists_cons_of_length_pos (Nat.zero_lt_of_lt hb)
    simp only [memcmp,firstDifference]
    split
    · exact ih (Nat.le_of_succ_le_succ ha) (Nat.le_of_succ_le_succ hb)
    · rename_i hxy
      have hne : x.toNat ≠ y.toNat := fun heq => hxy (UInt8.toNat_inj.mp heq)
      simp only [order,UInt8.lt_iff_toNat_lt]
      split
      · exact Int.sign_eq_neg_one_of_neg (by omega)
      · rw [if_pos (by omega)]
        exact Int.sign_eq_one_of_pos (by omega)

def Memcmp.subtracting : Memcmp := ⟨memcmp,fun _ _ _ => sign_memcmp⟩

namespace Bytes

def collection (a : Option Bytes) : Bytes := a.getD []

def empty (a : Option Bytes) : Bool := a.elim true List.isEmpty

def compare (a b : Option Bytes) : Int :=
  if empty a ∧ empty b then 0
  else if empty a then -1
  else if empty b then 1
  else if collection a < collection b then -1
  else if collection a > collection b then 1
  else 0

/-- `compare(const uint8_t*, size_t)`, with the bytes that may be read. -/
def compareChunk (m : Memcmp) (a : Option Bytes) (buf : Bytes) : Int :=
  if empty a ∧ buf.length = 0 then 0
  else if empty a then -1
  else
    let data := collection a
    let cmp := m.value data buf (if data.length < buf.length then data.length else buf.length)
    if cmp = 0 ∧ data.length < buf.length then -1
    else if cmp = 0 ∧ data.length > buf.length then 1
    else cmp

/-- `compare(const char*)`. -/
def compareString (m : Memcmp) (a : Option Bytes) (str : Option Bytes) : Int :=
  if str.isNone then if empty a then 0 else 1 else compareChunk m a (ofString str)

def ofChunk (buf : Bytes) : Option Bytes := if buf.isEmpty then none else some buf

@[simp] theorem collection_ofChunk (buf : Bytes) : collection (ofChunk buf) = buf := by
  cases buf <;> rfl

theorem empty_iff {a : Option Bytes} : empty a = true ↔ collection a = [] := by
  cases a <;> simp [empty,collection]

theorem compare_eq_order (a b : Option Bytes) :
    compare a b = order (collection a) (collection b) := by
  simp only [compare,empty_iff]
  cases ha : collection a <;> cases hb : collection b <;> simp [order]

theorem compare_compares : Compares collection compare := fun a b => by
  rw [compare_eq_order,sign_order]

/-- The two implementations agree: the lengths decide what `memcmp` leaves open. -/
theorem compareChunk_sign (m : Memcmp) (a : Option Bytes) (buf : Bytes) :
    (compareChunk m a buf).sign = order (collection a) buf := by
  simp only [compareChunk,empty_iff]
  cases ha : collection a with
  | nil => cases buf <;> simp [order]
  | cons x data =>
    generalize hdata : x :: data = data'
    have hne : data' ≠ [] := by
      rw [← hdata]
      exact List.cons_ne_nil _ _
    have hmin : (if data'.length < buf.length then data'.length else buf.length) =
        min data'.length buf.length := by
      split <;> omega
    have hsign := m.sign_value data' buf (min data'.length buf.length) (Nat.min_le_left _ _)
      (Nat.min_le_right _ _)
    simp only [hne,false_and,if_false,hmin,order_eq_firstDifference data' buf,← hsign,
      Int.sign_eq_zero_iff_zero]
    by_cases hcmp : m.value data' buf (min data'.length buf.length) = 0
    · simp only [hcmp,true_and,if_true,order]
      split
      · rfl
      split <;> rfl
    · simp only [hcmp,false_and,if_false]

theorem compareString_sign (m : Memcmp) (a str : Option Bytes) :
    (compareString m a str).sign = order (collection a) (ofString str) := by
  cases str with
  | none =>
    simp only [compareString,empty_iff,ofString]
    cases collection a <;> simp [order]
  | some str => exact compareChunk_sign m a _

/-- `compare` is a total order of the contents, that of their bytes as unsigned numbers, and a
comparison with a buffer is the comparison with its bytes. -/
theorem compare_total_order (m : Memcmp) :
    (∀ a b, compare a b = 0 ↔ collection a = collection b) ∧
    (∀ a b, (compare b a).sign = -(compare a b).sign) ∧
    (∀ a b c, compare a b ≤ 0 → compare b c ≤ 0 → compare a c ≤ 0) ∧
    (∀ a b, compare a b < 0 ↔ collection a < collection b) ∧
    (∀ a b, collection a <+: collection b → collection a ≠ collection b → compare a b < 0) ∧
    ∀ a buf, (compareChunk m a buf).sign = (compare a (ofChunk buf)).sign := by
  have h := compare_compares
  refine ⟨h.eq_zero,h.antisymm,fun _ _ _ => h.trans,h.neg,fun a b hpre hne => ?_,fun a buf => ?_⟩
  · rw [h.neg]
    obtain ⟨rest,hrest⟩ := hpre
    have hrest' : [] < rest := by
      cases rest with
      | nil => exact absurd (by simpa using hrest) hne
      | cons x rest => exact List.nil_lt_cons x rest
    have hlt : collection a ++ [] < collection a ++ rest := List.append_left_lt hrest'
    rw [← hrest]
    simpa using hlt
  · rw [compareChunk_sign,h,collection_ofChunk]

section
variable {ι : Type} [DecidableEq ι]

def Heap.compare (i j : Option ι) (s : Heap ι) : Int :=
  Bytes.compare ((s.handles i).data.map s.mem) ((s.handles j).data.map s.mem)

omit [DecidableEq ι] in
theorem collection_handle (s : Heap ι) (i : Option ι) :
    collection ((s.handles i).data.map s.mem) = s.contents i := by
  simp only [Heap.contents,CopyOnWrite.Heap.value]
  cases (s.handles i).data <;> rfl

theorem run_compare (os : List (Op ι)) :
    Compares (runReference os) fun i j => (run os).compare (some i) (some j) := by
  intro i j
  rw [← (run_refines os).2]
  have h := compare_compares (((run os).handles (some i)).data.map (run os).mem)
    (((run os).handles (some j)).data.map (run os).mem)
  rwa [collection_handle,collection_handle] at h

end

end Bytes
end RNS
