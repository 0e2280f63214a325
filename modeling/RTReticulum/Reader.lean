import RTReticulum.MsgPack

/-! Where the reader stands after any sequence of reads, and what `read_bin` may return. -/
set_option autoImplicit false

namespace RNS
namespace MsgPack

inductive Consumer where
  | nil | bool | int | float64 | bin | arrayHeader | skip
  deriving DecidableEq, Repr

namespace Reader
variable {sizeBits : Nat}

theorem nextUnsigned_advances (k : Nat) (r : Reader) : Advances r (nextUnsigned k r).2 :=
  nextInt_advances k 0 r

theorem nextSigned_advances (k : Nat) (r : Reader) : Advances r (nextSigned k r).2 :=
  nextInt_advances k 0 r

theorem readNil_advances (r : Reader) : Advances r r.readNil.2 := by
  unfold readNil
  split
  · exact next_advances r
  · exact .refl r

theorem Advances.ite {α : Type} {c : Prop} [Decidable c] {r : Reader} {x y : α × Reader}
    (hx : Advances r x.2) (hy : Advances r y.2) : Advances r (if c then x else y).2 := by
  split
  · exact hx
  · exact hy

theorem readInt_advances (r : Reader) : Advances r r.readInt.2 := by
  refine (next_advances r).trans ?_
  unfold readInt
  -- The two fixints take no more bytes, the other formats their width.
  refine .ite (.refl _) (.ite (.refl _) ?_)
  refine .ite (nextUnsigned_advances 1 _) (.ite (nextUnsigned_advances 2 _)
    (.ite (nextUnsigned_advances 4 _) (.ite (nextSigned_advances 8 _) ?_)))
  exact .ite (nextSigned_advances 1 _) (.ite (nextSigned_advances 2 _)
    (.ite (nextSigned_advances 4 _) (.ite (nextSigned_advances 8 _) (.refl _))))

theorem readFloat64_advances (r : Reader) : Advances r r.readFloat64.2 := by
  refine (next_advances r).trans ?_
  unfold readFloat64
  split <;> dsimp only
  · exact nextInt_advances 4 0 _
  · exact nextInt_advances 8 0 _

theorem arrayCount_advances (r : Reader) : Advances r.next.2 r.readArrayHeader.2 := by
  unfold readArrayHeader
  split
  · exact .refl _
  split
  · exact nextInt_advances 2 0 _
  split
  · exact nextInt_advances 4 0 _
  · exact .refl _

theorem readArrayHeader_advances (r : Reader) : Advances r r.readArrayHeader.2 :=
  (next_advances r).trans (arrayCount_advances r)

/-- A call that returns has nothing, or the bytes its tag announces, all inside the buffer. -/
theorem readBin_ok {r r' : Reader} {b : Bytes} (h : r.readBin sizeBits = .ok (b,r')) :
    Advances r r' ∧ (b = [] ∨ ∃ len p, binLength r.next.1 r.next.2 = some (len,p) ∧
      p.pos + len ≤ r.data.length ∧ b = Bytes.mid r.data p.pos len) := by
  have hnext := next_advances r
  unfold readBin at h
  cases hlen : binLength r.next.1 r.next.2 with
  | none =>
    simp only [hlen,Except.ok.injEq,Prod.mk.injEq] at h
    obtain ⟨rfl,rfl⟩ := h
    exact ⟨hnext,.inl rfl⟩
  | some x =>
    obtain ⟨len,p⟩ := x
    have hp : Advances r p := hnext.trans (binLength_spec hlen).2
    simp only [hlen] at h
    split at h
    · cases h
      exact ⟨hp,.inl rfl⟩
    split at h
    · cases h
    · rename_i hle
      cases h
      rw [hp.data] at hle
      have hend : p.pos + len ≤ r.data.length := by omega
      refine ⟨⟨hp.data,hp.pos_le.trans (Nat.le_add_right _ _),fun _ => hend⟩,
        .inr ⟨len,p,rfl,hend,?_⟩⟩
      rw [hp.data]

theorem skipBin_advances {r r' : Reader} (h : r.skipBin sizeBits = .ok r') : Advances r r' := by
  obtain ⟨⟨b,p⟩,hb,h⟩ := bind_eq_ok.mp h
  cases h
  exact (readBin_ok hb).1

theorem times_advances {f : Reader → Except Fault Reader}
    (hf : ∀ r r', f r = .ok r' → Advances r r') (n : Nat) {r r' : Reader}
    (h : times f n r = .ok r') : Advances r r' := by
  induction n generalizing r with
  | zero =>
    cases h
    exact .refl _
  | succ n ih =>
    obtain ⟨p,hp,h⟩ := bind_eq_ok.mp h
    exact (hf r p hp).trans (ih h)

theorem skipTo_advances (depth : Nat) {r r' : Reader}
    (h : skipTo sizeBits depth r = .ok r') : Advances r r' := by
  induction depth generalizing r r' with
  | zero =>
    cases h
    exact .refl _
  | succ depth ih =>
    simp only [skipTo] at h
    split at h
    · cases h; exact next_advances r
    split at h
    · cases h; exact next_advances r
    split at h
    · exact skipBin_advances h
    split at h
    · cases h; exact readInt_advances r
    split at h
    · cases h; exact readFloat64_advances r
    split at h
    · exact skipBin_advances h
    split at h
    · exact skipBin_advances h
    split at h
    · exact (readArrayHeader_advances r).trans (times_advances (fun _ _ => ih) _ h)
    · cases h; exact next_advances r

def consume (sizeBits : Nat) : Consumer → Reader → Except Fault Reader
  | .nil, r => .ok r.readNil.2
  | .bool, r => .ok r.readBool.2
  | .int, r => .ok r.readInt.2
  | .float64, r => .ok r.readFloat64.2
  | .bin, r => r.skipBin sizeBits
  | .arrayHeader, r => .ok r.readArrayHeader.2
  | .skip, r => r.skip sizeBits

inductive Reachable (sizeBits : Nat) (data : Bytes) : Reader → Prop where
  | start : Reachable sizeBits data ⟨data,0⟩
  | consume {r r' : Reader} {c : Consumer} : Reachable sizeBits data r →
      r.consume sizeBits c = .ok r' → Reachable sizeBits data r'

theorem consume_advances {c : Consumer} {r r' : Reader} (h : r.consume sizeBits c = .ok r') :
    Advances r r' := by
  cases c with
  | nil => cases h; exact readNil_advances r
  | bool => cases h; exact next_advances r
  | int => cases h; exact readInt_advances r
  | float64 => cases h; exact readFloat64_advances r
  | bin => exact skipBin_advances h
  | arrayHeader => cases h; exact readArrayHeader_advances r
  | skip => exact skipTo_advances _ h

theorem Reachable.bounded {data : Bytes} {r : Reader} (h : Reachable sizeBits data r) :
    r.data = data ∧ r.pos ≤ data.length := by
  induction h with
  | start => exact ⟨rfl,Nat.zero_le _⟩
  | consume _ hc ih =>
    obtain ⟨rfl,hpos⟩ := ih
    have hadv := consume_advances hc
    exact ⟨hadv.data,hadv.bounded hpos⟩

/-- `read_bin` returns nothing, or exactly the bytes its tag announces; and whatever is
called, the position does not go back and stays in the buffer. -/
structure Sound (sizeBits : Nat) (r : Reader) : Prop where
  bin : ∃ b r', r.readBin sizeBits = .ok (b,r') ∧
    (b = [] ∨ ∃ len p, binLength r.next.1 r.next.2 = some (len,p) ∧
      p.pos + len ≤ r.data.length ∧ b = Bytes.mid r.data p.pos len)
  position : ∀ c r', r.consume sizeBits c = .ok r' →
    r'.data = r.data ∧ r.pos ≤ r'.pos ∧ r'.pos ≤ r.data.length

/-- All that can go wrong, in any state, is that the sum in the bounds check wraps; and it
cannot with 64 bits. -/
theorem reader_sound_iff {data : Bytes} {r : Reader} (h : Reachable sizeBits data r) :
    (r.Sound sizeBits ↔ ¬ r.Wraps sizeBits) ∧
      (sizeBits = 64 → data.length < 2^63 → ¬ r.Wraps sizeBits) := by
  obtain ⟨rfl,hpos⟩ := h.bounded
  refine ⟨⟨?_,?_⟩,?_⟩
  · intro hs
    obtain ⟨b,r',hb,-⟩ := hs.bin
    exact readBin_isOk.mp ⟨_,hb⟩
  · intro hw
    obtain ⟨⟨b,r'⟩,hb⟩ := readBin_isOk.mpr hw
    refine ⟨⟨b,r',hb,(readBin_ok hb).2⟩,?_⟩
    intro c p hc
    have hadv := consume_advances hc
    exact ⟨hadv.data,hadv.pos_le,hadv.bounded hpos⟩
  · intro hbits hdata
    subst hbits
    exact not_wraps hpos (by omega)

theorem reader_sound_bin :
    Sound 32 ⟨[0x93,0xC4,0x01,0x41,0xC0],1⟩ ∧ ¬ Wraps 64 ⟨[0x93,0xC4,0x01,0x41,0xC0],1⟩ := by
  have hr : ∀ w, Reachable w [0x93,0xC4,0x01,0x41,0xC0] ⟨[0x93,0xC4,0x01,0x41,0xC0],1⟩ :=
    fun w => .consume (c := .arrayHeader) .start rfl
  have hw := (reader_sound_iff (hr 64)).2 rfl (by decide)
  refine ⟨(reader_sound_iff (hr 32)).1.mpr ?_,hw⟩
  intro h
  obtain ⟨x,hx,hlt,-⟩ := h
  cases hx
  exact absurd hlt (by decide)

/-- A length of `0xFFFFFFFF` at position 5 passes the bounds check of a 32-bit target. -/
theorem read_bin_wraps : Reachable 32 [0xC6,0xFF,0xFF,0xFF,0xFF] ⟨[0xC6,0xFF,0xFF,0xFF,0xFF],0⟩ ∧
    readBin 32 ⟨[0xC6,0xFF,0xFF,0xFF,0xFF],0⟩ = .error (.lengthError "vector::reserve") ∧
    ¬ Sound 32 ⟨[0xC6,0xFF,0xFF,0xFF,0xFF],0⟩ := by
  have herr : readBin 32 ⟨[0xC6,0xFF,0xFF,0xFF,0xFF],0⟩ =
      .error (.lengthError "vector::reserve") := rfl
  refine ⟨.start,herr,?_⟩
  intro h
  obtain ⟨b,r',hb,-⟩ := h.bin
  rw [herr] at hb
  cases hb

end Reader
end MsgPack
end RNS
