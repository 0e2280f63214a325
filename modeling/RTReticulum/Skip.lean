import RTReticulum.Reader

/-! `Reader::skip` without a bound on its depth: the calls it makes, how deep they go, and that
they come to an end whatever the headers say. -/
set_option autoImplicit false

namespace RNS
namespace MsgPack.Reader

def remaining (r : Reader) : Nat := r.data.length - r.pos

def AtArray (r : Reader) : Prop := r.peek &&& 0xF0 = 0x90 ∨ r.peek = 0xDC ∨ r.peek = 0xDD

instance (r : Reader) : Decidable r.AtArray := inferInstanceAs (Decidable (_ ∨ _))

def skipValue (sizeBits : Nat) (r : Reader) : Except Fault Reader :=
  let b := r.peek
  if b = 0xC0 ∨ b = 0xC2 ∨ b = 0xC3 then .ok r.next.2
  else if b ≤ 0x7F ∨ b ≥ 0xE0 then .ok r.next.2
  else if b &&& 0xE0 = 0xA0 then r.skipBin sizeBits
  else if b ≥ 0xCC ∧ b ≤ 0xD3 then .ok r.readInt.2
  else if b = 0xCA ∨ b = 0xCB then .ok r.readFloat64.2
  else if b ≥ 0xC4 ∧ b ≤ 0xC6 then r.skipBin sizeBits
  else if b = 0xD9 ∨ b = 0xDA ∨ b = 0xDB then r.skipBin sizeBits
  else .ok r.next.2

/-- Calls of `skip`, `n` of them one after the other, from one reader to another, with `depth`
of them on the stack where it is deepest. An array makes as many as its header says. -/
inductive Skips (sizeBits : Nat) : Nat → Reader → Reader → Nat → Prop where
  | done (r : Reader) : Skips sizeBits 0 r r 0
  | value {n depth : Nat} {r r₁ r₂ : Reader} : ¬ r.AtArray → r.skipValue sizeBits = .ok r₁ →
      Skips sizeBits n r₁ r₂ depth → Skips sizeBits (n+1) r r₂ (max 1 depth)
  | array {n inner depth : Nat} {r r₁ r₂ : Reader} : r.AtArray →
      Skips sizeBits r.readArrayHeader.1 r.readArrayHeader.2 r₁ inner →
      Skips sizeBits n r₁ r₂ depth → Skips sizeBits (n+1) r r₂ (max (inner+1) depth)

variable {sizeBits : Nat}

theorem skipTo_succ (depth : Nat) (r : Reader) : skipTo sizeBits (depth+1) r =
    if r.AtArray then times (skipTo sizeBits depth) r.readArrayHeader.1 r.readArrayHeader.2
    else r.skipValue sizeBits := by
  by_cases h : r.AtArray
  · rw [if_pos h]
    have hb : ∀ b : UInt8, b &&& 0xF0 = 0x90 ∨ b = 0xDC ∨ b = 0xDD →
        ¬ (b = 0xC0 ∨ b = 0xC2 ∨ b = 0xC3) ∧ ¬ (b ≤ 0x7F ∨ b ≥ 0xE0) ∧ ¬ b &&& 0xE0 = 0xA0 ∧
        ¬ (b ≥ 0xCC ∧ b ≤ 0xD3) ∧ ¬ (b = 0xCA ∨ b = 0xCB) ∧ ¬ (b ≥ 0xC4 ∧ b ≤ 0xC6) ∧
        ¬ (b = 0xD9 ∨ b = 0xDA ∨ b = 0xDB) := by
      decide +kernel
    obtain ⟨h1,h2,h3,h4,h5,h6,h7⟩ := hb r.peek h
    rw [skipTo]
    simp only [h1,h2,h3,h4,h5,h6,h7,if_false]
    exact if_pos h
  · rw [if_neg h]
    simp only [skipTo,skipValue]
    simp only [AtArray] at h
    simp only [h,if_false]

theorem skipValue_advances {r r' : Reader} (ha : ¬ r.AtArray)
    (h : r.skipValue sizeBits = .ok r') : Advances r r' := by
  have hone : skipTo sizeBits 1 r = .ok r' := by rw [skipTo_succ,if_neg ha,h]
  exact skipTo_advances 1 hone

theorem skipValue_isOk {r : Reader} (h : ¬ r.Wraps sizeBits) :
    ∃ r', r.skipValue sizeBits = .ok r' := by
  have hbin : ∃ r', r.skipBin sizeBits = .ok r' := by
    obtain ⟨x,hx⟩ := readBin_isOk.mpr h
    exact ⟨x.2,by simp [skipBin,hx]⟩
  simp only [skipValue]
  split
  · exact ⟨_,rfl⟩
  split
  · exact ⟨_,rfl⟩
  split
  · exact hbin
  split
  · exact ⟨_,rfl⟩
  split
  · exact ⟨_,rfl⟩
  split
  · exact hbin
  split
  · exact hbin
  · exact ⟨_,rfl⟩

theorem AtArray.pos_lt {r : Reader} (h : r.AtArray) : r.pos < r.readArrayHeader.2.pos := by
  have hpos : r.pos < r.data.length := by
    by_contra hend
    have hzero : r.peek = 0 := List.getD_eq_default _ _ (Nat.not_lt.mp hend)
    rw [AtArray,hzero] at h
    revert h
    decide
  have hnext : r.next.2.pos = r.pos+1 := by simp [next,hpos]
  have hle := (arrayCount_advances r).pos_le
  omega

theorem Skips.advances {n depth : Nat} {r r' : Reader} (h : Skips sizeBits n r r' depth) :
    Advances r r' := by
  induction h with
  | done r => exact .refl r
  | value ha hr _ ih => exact (skipValue_advances ha hr).trans ih
  | array _ _ _ ih ih' => exact ((readArrayHeader_advances _).trans ih).trans ih'

theorem Skips.unique {n d₁ d₂ : Nat} {r r₁ r₂ : Reader} (h₁ : Skips sizeBits n r r₁ d₁)
    (h₂ : Skips sizeBits n r r₂ d₂) : r₁ = r₂ ∧ d₁ = d₂ := by
  induction h₁ generalizing r₂ d₂ with
  | done r =>
    cases h₂
    exact ⟨rfl,rfl⟩
  | value ha hr _ ih =>
    cases h₂ with
    | value _ hr' hrest =>
      rw [hr] at hr'
      cases hr'
      obtain ⟨rfl,rfl⟩ := ih hrest
      exact ⟨rfl,rfl⟩
    | array ha' => exact absurd ha' ha
  | array ha _ _ ih ih' =>
    cases h₂ with
    | value ha' => exact absurd ha ha'
    | array _ hin hrest =>
      obtain ⟨rfl,rfl⟩ := ih hin
      obtain ⟨rfl,rfl⟩ := ih' hrest
      exact ⟨rfl,rfl⟩

theorem Skips.times_eq {n depth bound : Nat} {r r' : Reader} (h : Skips sizeBits n r r' depth)
    (hb : depth ≤ bound) : times (skipTo sizeBits bound) n r = .ok r' := by
  induction h generalizing bound with
  | done r => rfl
  | value ha hr _ ih =>
    obtain ⟨b,rfl⟩ := Nat.exists_eq_add_of_le' (le_of_max_le_left hb)
    rw [times,skipTo_succ,if_neg ha,hr]
    exact ih (le_of_max_le_right hb)
  | array ha _ _ ih ih' =>
    obtain ⟨b,rfl⟩ := Nat.exists_eq_add_of_le' (Nat.le_of_add_left_le (le_of_max_le_left hb))
    rw [times,skipTo_succ,if_pos ha,ih (Nat.le_of_succ_le_succ (le_of_max_le_left hb))]
    exact ih' (le_of_max_le_right hb)

theorem Advances.remaining_le {r r' : Reader} (h : Advances r r') : r'.remaining ≤ r.remaining := by
  have hpos := h.pos_le
  simp only [remaining,h.data]
  omega

theorem AtArray.remaining_lt {r : Reader} (h : r.AtArray) (hr : r.pos ≤ r.data.length) :
    r.readArrayHeader.2.remaining < r.remaining := by
  have hadv := readArrayHeader_advances r
  have hpos := h.pos_lt
  have hend := hadv.bounded hr
  simp only [remaining,hadv.data]
  omega

/-- Every header takes a byte, so the calls inside an array have less of the buffer left; past
the end a call takes nothing, and makes no other. The induction is on what is left, inside it
on how many calls are due. -/
theorem skips_exist (left : Nat) {r : Reader} (hleft : r.remaining ≤ left)
    (hr : r.pos ≤ r.data.length) (hsize : r.data.length + 2^32 ≤ 2^sizeBits) (n : Nat) :
    ∃ r' depth, Skips sizeBits n r r' depth ∧ depth ≤ r.remaining+1 := by
  induction left using Nat.strong_induction_on generalizing r n with
  | _ left ih =>
    induction n generalizing r with
    | zero => exact ⟨r,0,.done r,Nat.zero_le _⟩
    | succ n ihn =>
      -- the calls that come after the first
      have hrest : ∀ {r₁ : Reader}, Advances r r₁ →
          ∃ r' depth, Skips sizeBits n r₁ r' depth ∧ depth ≤ r.remaining+1 := by
        intro r₁ hadv
        have hle := hadv.remaining_le
        obtain ⟨r',depth,hs,hd⟩ := ihn (r := r₁) (by omega)
          (by rw [hadv.data]; exact hadv.bounded hr) (by rw [hadv.data]; exact hsize)
        exact ⟨r',depth,hs,by omega⟩
      by_cases ha : r.AtArray
      · have hlt := ha.remaining_lt hr
        have hadv := readArrayHeader_advances r
        obtain ⟨r₁,inner,hin,hinner⟩ := ih _ (hlt.trans_le hleft) le_rfl
          (by rw [hadv.data]; exact hadv.bounded hr) (by rw [hadv.data]; exact hsize)
          r.readArrayHeader.1
        obtain ⟨r',depth,hs,hd⟩ := hrest (hadv.trans hin.advances)
        exact ⟨r',_,.array ha hin hs,max_le (by omega) hd⟩
      · obtain ⟨r₁,hvalue⟩ := skipValue_isOk (not_wraps hr hsize)
        obtain ⟨r',depth,hs,hd⟩ := hrest (skipValue_advances ha hvalue)
        exact ⟨r',_,.value ha hvalue hs,max_le (by omega) hd⟩

/-- Whatever the buffer says, a call of `skip` comes to one end, inside the buffer and not
before where it began, and is never deeper than there are bytes left and one more; and the
bounded `skip` is that call. -/
theorem skip_terminates {r : Reader} (hr : r.pos ≤ r.data.length)
    (hsize : r.data.length + 2^32 ≤ 2^sizeBits) :
    ∃ r' depth, Skips sizeBits 1 r r' depth ∧
      (∀ r₁ d₁, Skips sizeBits 1 r r₁ d₁ → r₁ = r' ∧ d₁ = depth) ∧
      depth ≤ r.remaining+1 ∧ r'.data = r.data ∧ r.pos ≤ r'.pos ∧ r'.pos ≤ r.data.length ∧
      r.skip sizeBits = .ok r' := by
  obtain ⟨r',depth,hs,hd⟩ := skips_exist r.remaining le_rfl hr hsize 1
  have hadv := hs.advances
  refine ⟨r',depth,hs,fun r₁ d₁ h => h.unique hs,hd,hadv.data,hadv.pos_le,hadv.bounded hr,?_⟩
  exact (bind_pure _).symm.trans (hs.times_eq hd)

/-- Two headers that each announce 4294967295 elements, and no element. -/
theorem skip_terminates_nested : ∃ r' depth,
    Skips 64 1 ⟨[0xDD,0xFF,0xFF,0xFF,0xFF,0xDD,0xFF,0xFF,0xFF,0xFF],0⟩ r' depth ∧
      depth ≤ 11 ∧ r'.pos ≤ 10 := by
  obtain ⟨r',depth,hs,-,hd,-,-,hpos,-⟩ :=
    @skip_terminates 64 ⟨[0xDD,0xFF,0xFF,0xFF,0xFF,0xDD,0xFF,0xFF,0xFF,0xFF],0⟩ (by decide)
      (by decide)
  exact ⟨r',depth,hs,hd,hpos⟩

end MsgPack.Reader
end RNS
