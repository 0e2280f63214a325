import Mathlib

/-! Handles over shared buffers: what copying, detaching and writing do to the value each
handle stands for. -/
set_option autoImplicit false

namespace CopyOnWrite

/-- The address of a buffer, if there is one, and the mark of its only owner. -/
structure Handle where
  data : Option Nat
  exclusive : Bool
  deriving DecidableEq, Repr

/-- Buffers by address and the handles on them; addresses from `next` on are free. -/
structure Heap (κ α : Type) where
  mem : Nat → α
  next : Nat
  handles : κ → Handle

namespace Heap
variable {κ α : Type}

def value (d : α) (h : Heap κ α) (i : κ) : α := (h.handles i).data.elim d h.mem

structure Sound (h : Heap κ α) : Prop where
  allocated : ∀ {i a}, (h.handles i).data = some a → a < h.next
  alone : ∀ {i j a}, (h.handles i).exclusive = true → (h.handles i).data = some a →
    (h.handles j).data = some a → i = j

variable [DecidableEq κ]

/-- The outcome of an operation that gives `i` the value `v`. -/
structure Sets (d : α) (h : Heap κ α) (i : κ) (v : α) (h' : Heap κ α) : Prop where
  sound : h'.Sound
  value : h'.value d = Function.update (h.value d) i v

def own (i : κ) (x : α) (h : Heap κ α) : Heap κ α where
  mem := Function.update h.mem h.next x
  next := h.next+1
  handles := Function.update h.handles i ⟨some h.next,true⟩

def release (i : κ) (h : Heap κ α) : Heap κ α :=
  { h with handles := Function.update h.handles i ⟨none,true⟩ }

def share (i j : κ) (h : Heap κ α) : Heap κ α :=
  let shared : Handle := ⟨(h.handles j).data,false⟩
  { h with handles := Function.update (Function.update h.handles j shared) i shared }

def move (i j : κ) (h : Heap κ α) : Heap κ α :=
  { h with handles := Function.update (Function.update h.handles i (h.handles j)) j ⟨none,true⟩ }

def store (a : Nat) (x : α) (h : Heap κ α) : Heap κ α :=
  { h with mem := Function.update h.mem a x }

variable {h h' : Heap κ α} {d : α}

theorem Sets.refl (hs : h.Sound) (i : κ) : h.Sets d i (h.value d i) h :=
  ⟨hs,(Function.update_eq_self _ _).symm⟩

theorem Sets.trans {h'' : Heap κ α} {i : κ} {v w : α} (hv : h.Sets d i v h')
    (hw : h'.Sets d i w h'') : h.Sets d i w h'' :=
  ⟨hw.sound,by rw [hw.value,hv.value,Function.update_idem]⟩

theorem Sets.self {i : κ} {v : α} (hv : h.Sets d i v h') : h'.value d i = v := by
  rw [hv.value,Function.update_self]

theorem Sets.other {i j : κ} {v : α} (hv : h.Sets d i v h') (hj : j ≠ i) :
    h'.value d j = h.value d j := by
  rw [hv.value,Function.update_of_ne hj]

theorem own_sets (hs : h.Sound) (i : κ) (x : α) : h.Sets d i x (h.own i x) := by
  have hdata : ∀ {j a}, ((h.own i x).handles j).data = some a →
      j = i ∧ a = h.next ∨ j ≠ i ∧ (h.handles j).data = some a ∧ a < h.next := by
    intro j a ha
    by_cases hj : j = i
    · subst hj
      simp only [own,Function.update_self,Option.some.injEq] at ha
      exact .inl ⟨rfl,ha.symm⟩
    · simp only [own,Function.update_of_ne hj] at ha
      exact .inr ⟨hj,ha,hs.allocated ha⟩
  refine ⟨⟨fun ha => ?_,fun he ha hb => ?_⟩,funext fun j => ?_⟩
  · show _ < h.next+1
    rcases hdata ha with ⟨-,rfl⟩ | ⟨-,-,hlt⟩ <;> omega
  · rcases hdata ha with ⟨rfl,rfl⟩ | ⟨hi,ha,halt⟩ <;> rcases hdata hb with ⟨rfl,hb⟩ | ⟨-,hb,hblt⟩
    · rfl
    · omega
    · omega
    · simp only [own,Function.update_of_ne hi] at he
      exact hs.alone he ha hb
  · by_cases hj : j = i
    · subst hj
      simp [value,own]
    · simp only [value,own,Function.update_of_ne hj]
      cases ha : (h.handles j).data with
      | none => rfl
      | some a => exact Function.update_of_ne (Nat.ne_of_lt (hs.allocated ha)) _ _

theorem release_sets (hs : h.Sound) (i : κ) : h.Sets d i d (h.release i) := by
  have hdata : ∀ {j a}, ((h.release i).handles j).data = some a →
      j ≠ i ∧ (h.handles j).data = some a := by
    intro j a ha
    by_cases hj : j = i
    · subst hj
      simp [release] at ha
    · exact ⟨hj,by simpa only [release,Function.update_of_ne hj] using ha⟩
  refine ⟨⟨fun ha => hs.allocated (hdata ha).2,fun he ha hb => ?_⟩,funext fun j => ?_⟩
  · simp only [release,Function.update_of_ne (hdata ha).1] at he
    exact hs.alone he (hdata ha).2 (hdata hb).2
  · by_cases hj : j = i
    · subst hj
      simp [value,release]
    · simp only [value,release,Function.update_of_ne hj]

/-- The mark of the handle that is copied goes as well. -/
theorem share_sets (hs : h.Sound) (i j : κ) : h.Sets d i (h.value d j) (h.share i j) := by
  have hdata : ∀ k, ((h.share i j).handles k).data =
      (h.handles (if k = i then j else k)).data := by
    intro k
    by_cases hk : k = i
    · simp [share,hk]
    · by_cases hj : k = j
      · subst hj
        simp [share,hk]
      · simp [share,hk,hj]
  have hex : ∀ {k}, ((h.share i j).handles k).exclusive = true →
      k ≠ i ∧ k ≠ j ∧ (h.handles k).exclusive = true := by
    intro k hk
    by_cases hi : k = i
    · simp [share,hi] at hk
    · by_cases hj : k = j
      · subst hj
        simp [share,hi] at hk
      · exact ⟨hi,hj,by simpa [share,hi,hj] using hk⟩
  refine ⟨⟨fun ha => hs.allocated ((hdata _).symm.trans ha),fun {k l a} he ha hb => ?_⟩,
    funext fun k => ?_⟩
  · obtain ⟨hi,hj,he⟩ := hex he
    rw [hdata,if_neg hi] at ha
    rw [hdata] at hb
    have hkl := hs.alone he ha hb
    split_ifs at hkl
    · exact absurd hkl hj
    · exact hkl
  · by_cases hk : k = i
    · subst hk
      rw [Function.update_self,value,hdata,if_pos rfl]
      rfl
    · rw [Function.update_of_ne hk,value,hdata,if_neg hk]
      rfl

theorem move_sound (hs : h.Sound) {i j : κ} (hij : i ≠ j) : (h.move i j).Sound := by
  have hdata : ∀ {k a}, ((h.move i j).handles k).data = some a →
      k ≠ j ∧ (h.move i j).handles k = h.handles (if k = i then j else k) := by
    intro k a ha
    by_cases hj : k = j
    · simp [move,hj] at ha
    · by_cases hi : k = i
      · subst hi
        exact ⟨hj,by simp [move,hj]⟩
      · exact ⟨hj,by simp [move,hj,hi]⟩
  refine ⟨fun ha => ?_,fun {k l a} he ha hb => ?_⟩
  · rw [(hdata ha).2] at ha
    exact hs.allocated ha
  · obtain ⟨hk,hka⟩ := hdata ha
    obtain ⟨hl,hla⟩ := hdata hb
    rw [hka] at he ha
    rw [hla] at hb
    have hkl := hs.alone he ha hb
    split_ifs at hkl with h1 h2 h2
    · exact h1.trans h2.symm
    · exact absurd hkl.symm hl
    · exact absurd hkl hk
    · exact hkl

theorem move_value {i j : κ} (hij : i ≠ j) : (h.move i j).value d =
    Function.update (Function.update (h.value d) i (h.value d j)) j d := by
  funext k
  by_cases hj : k = j
  · subst hj
    simp [value,move]
  · by_cases hi : k = i
    · subst hi
      simp [value,move,hj]
    · simp [value,move,hj,hi]

theorem store_sets (hs : h.Sound) {i : κ} {a : Nat} (he : (h.handles i).exclusive = true)
    (ha : (h.handles i).data = some a) (x : α) : h.Sets d i x (h.store a x) := by
  refine ⟨⟨hs.allocated,hs.alone⟩,funext fun j => ?_⟩
  by_cases hj : j = i
  · subst hj
    simp [value,store,ha]
  · rw [Function.update_of_ne hj]
    show (h.handles j).data.elim d (Function.update h.mem a x) = (h.handles j).data.elim d h.mem
    cases hb : (h.handles j).data with
    | none => rfl
    | some b =>
      have hne : b ≠ a := by
        rintro rfl
        exact hj (hs.alone he ha hb).symm
      exact Function.update_of_ne hne _ _

end Heap
end CopyOnWrite
