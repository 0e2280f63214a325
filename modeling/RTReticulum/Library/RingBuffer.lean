import Mathlib

/-! A ring of `n` slots between a head, where one party writes, and a tail, where another reads.
One slot always stays free, so that a full ring is told from an empty one. -/
set_option autoImplicit false

namespace RingBuffer

def next (n i : Nat) : Nat := (i+1) % n

/-- How many slots there are from the tail up to the head. -/
def used (n head tail : Nat) : Nat := if tail ≤ head then head-tail else head+n-tail

def occupied (n head tail : Nat) : List Nat :=
  (List.range (used n head tail)).map fun k => (tail+k) % n

variable {n head tail i j : Nat}

theorem next_eq (h : i < n) : next n i = if i+1 = n then 0 else i+1 := by
  unfold next
  split
  · rename_i heq
    rw [heq,Nat.mod_self]
  · exact Nat.mod_eq_of_lt (by omega)

theorem next_lt (h : i < n) : next n i < n := Nat.mod_lt _ (Nat.zero_lt_of_lt h)

theorem next_inj (hi : i < n) (hj : j < n) (h : next n i = next n j) : i = j := by
  rw [next_eq hi,next_eq hj] at h
  split at h <;> split at h <;> omega

theorem add_mod_eq (h : i+j < 2*n) : (i+j) % n = if i+j < n then i+j else i+j-n := by
  split
  · exact Nat.mod_eq_of_lt ‹_›
  · rw [Nat.mod_eq_sub_mod (by omega),Nat.mod_eq_of_lt (by omega)]

section
variable (hh : head < n) (ht : tail < n)
include hh ht

theorem used_lt : used n head tail < n := by
  unfold used
  split <;> omega

theorem add_used : (tail+used n head tail) % n = head := by
  have hlt := used_lt hh ht
  rw [add_mod_eq (by omega)]
  unfold used
  split <;> split <;> omega

theorem mem_occupied (h : i ∈ occupied n head tail) : i < n ∧ i ≠ head := by
  obtain ⟨k,hk,rfl⟩ := List.mem_map.mp h
  have hk' := List.mem_range.mp hk
  have hlt := used_lt hh ht
  refine ⟨Nat.mod_lt _ (by omega),?_⟩
  rw [add_mod_eq (by omega)]
  unfold used at hk'
  split at hk' <;> split <;> omega

theorem occupied_push (hroom : next n head ≠ tail) :
    occupied n (next n head) tail = occupied n head tail ++ [head] := by
  have hused : used n (next n head) tail = used n head tail+1 := by
    rw [next_eq hh] at hroom ⊢
    unfold used
    split_ifs at hroom ⊢ <;> omega
  rw [occupied,hused,List.range_succ,List.map_append,List.map_singleton,add_used hh ht]
  rfl

theorem occupied_pop (hne : tail ≠ head) :
    occupied n head tail = tail :: occupied n head (next n tail) := by
  have hused : used n head tail = used n head (next n tail)+1 := by
    rw [next_eq ht]
    unfold used
    split_ifs <;> omega
  rw [occupied,hused,List.range_succ_eq_map,List.map_cons,List.map_map,Nat.add_zero,
    Nat.mod_eq_of_lt ht]
  congr 1
  refine List.map_congr_left fun k _ => ?_
  rw [next,Function.comp_apply,Nat.mod_add_mod]
  congr 1
  omega

/-- The head finds no free slot but one. -/
theorem occupied_full (hfull : next n head = tail) : (occupied n head tail).length = n-1 := by
  rw [occupied,List.length_map,List.length_range]
  rw [next_eq hh] at hfull
  unfold used
  split at hfull <;> split <;> omega

end

end RingBuffer
