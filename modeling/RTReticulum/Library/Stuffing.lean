import Mathlib

/-! Byte stuffing. A frame travels between flags, and what is reserved inside it is written
as an escape and a mark; the sender fills an output buffer of fixed size, the receiver a
frame buffer of fixed size. -/
set_option autoImplicit false

namespace Stuffing

/-- A flag, an escape, and how a reserved symbol is written after the escape. -/
structure Code (α : Type) where
  flag : α
  esc : α
  mark : α → α
  unmark : α → α
  flag_ne_esc : flag ≠ esc
  mark_plain : ∀ b, b = flag ∨ b = esc → mark b ≠ flag ∧ mark b ≠ esc
  unmark_mark : ∀ b, b = flag ∨ b = esc → unmark (mark b) = b

variable {α : Type}

/-- A write at the end of a buffer of `size` symbols, which has to have room for it. -/
def put (size : Nat) (buf : List α) (b : α) : Option (List α) :=
  if buf.length < size then some (buf ++ [b]) else none

theorem put_eq {size : Nat} {buf : List α} (b : α) (h : buf.length < size) :
    put size buf b = some (buf ++ [b]) := if_pos h

structure Receiver (α : Type) where
  escaped : Bool
  buf : List α

namespace Code
variable [DecidableEq α] (c : Code α)

def escape (b : α) : List α := if b = c.flag ∨ b = c.esc then [c.esc,c.mark b] else [b]

def stuff (data : List α) : List α := data.flatMap c.escape

/-- The encoding loop: it goes on while there is room for an escaped symbol and a flag. -/
def stuffInto (size : Nat) : List α → List α → Option (List α)
  | buf, [] => some buf
  | buf, b :: data =>
    if buf.length+2 < size then
      if b = c.flag ∨ b = c.esc then do
        let buf ← put size buf c.esc
        let buf ← put size buf (c.mark b)
        stuffInto size buf data
      else do
        let buf ← put size buf b
        stuffInto size buf data
    else some buf

/-- One symbol between two flags: what exceeds the capacity is dropped. -/
def accept (cap : Nat) (s : Receiver α) (b : α) : Receiver α :=
  if b = c.esc then { s with escaped := true }
  else
    let b := if s.escaped then c.unmark b else b
    ⟨false,if s.buf.length < cap then s.buf ++ [b] else s.buf⟩

theorem stuff_cons (b : α) (data : List α) : c.stuff (b :: data) = c.escape b ++ c.stuff data :=
  rfl

@[simp] theorem stuff_nil : c.stuff [] = [] := rfl

theorem escape_reserved {b : α} (h : b = c.flag ∨ b = c.esc) : c.escape b = [c.esc,c.mark b] :=
  if_pos h

theorem escape_plain {b : α} (h : ¬ (b = c.flag ∨ b = c.esc)) : c.escape b = [b] := if_neg h

theorem escape_length_le (b : α) : (c.escape b).length ≤ 2 := by
  unfold escape
  split <;> simp

theorem stuff_length_le (data : List α) : (c.stuff data).length ≤ 2*data.length := by
  induction data with
  | nil => simp
  | cons b data ih =>
    have h := c.escape_length_le b
    simp only [stuff_cons,List.length_append,List.length_cons]
    omega

theorem flag_not_mem_stuff (data : List α) : c.flag ∉ c.stuff data := by
  intro h
  obtain ⟨b,-,hb⟩ := List.mem_flatMap.mp h
  by_cases hr : b = c.flag ∨ b = c.esc
  · rw [c.escape_reserved hr] at hb
    have hmark := (c.mark_plain b hr).1
    rcases List.mem_cons.mp hb with h | h
    · exact c.flag_ne_esc h
    · exact hmark (List.mem_singleton.mp h).symm
  · rw [c.escape_plain hr] at hb
    exact hr (.inl (List.mem_singleton.mp hb).symm)

theorem stuffInto_cons {size : Nat} {buf : List α} (b : α) (data : List α)
    (h : buf.length+2 < size) :
    c.stuffInto size buf (b :: data) = c.stuffInto size (buf ++ c.escape b) data := by
  have h0 : buf.length < size := by omega
  rw [stuffInto,if_pos h]
  by_cases hr : b = c.flag ∨ b = c.esc
  · have h1 : (buf ++ [c.esc]).length < size := by simp; omega
    rw [if_pos hr,put_eq _ h0,c.escape_reserved hr]
    simp [put_eq _ h1]
  · rw [if_neg hr,put_eq _ h0,c.escape_plain hr]
    rfl

/-- The loop writes what it has room for, whole symbols only, and leaves room for a flag. It is
all of the data if there is room for the worst case of the last symbol. -/
theorem stuffInto_cut {size : Nat} (data : List α) {buf : List α} (h : buf.length < size) :
    ∃ k, c.stuffInto size buf data = some (buf ++ c.stuff (data.take k)) ∧
      (buf ++ c.stuff (data.take k)).length < size ∧
      (data.take k = data ↔
        data = [] ∨ buf.length + (c.stuff data.dropLast).length + 2 < size) := by
  induction data generalizing buf with
  | nil => exact ⟨0,by simp [stuffInto],by simpa using h,by simp⟩
  | cons b data ih =>
    by_cases hroom : buf.length+2 < size
    · have hlen := c.escape_length_le b
      obtain ⟨k,hk,hlt,hall⟩ := @ih (buf ++ c.escape b)
        (by simp only [List.length_append]; omega)
      refine ⟨k+1,?_,?_,?_⟩
      · rw [c.stuffInto_cons b data hroom,List.take_succ_cons,stuff_cons,← List.append_assoc]
        exact hk
      · rw [List.take_succ_cons,stuff_cons,← List.append_assoc]
        exact hlt
      · rw [List.take_succ_cons,List.cons_inj_right,hall]
        cases data with
        | nil => simpa using hroom
        | cons x data =>
          simp only [List.dropLast_cons_cons,stuff_cons,List.length_append,reduceCtorEq,false_or]
          omega
    · refine ⟨0,by simp [stuffInto,hroom],by simpa using h,?_⟩
      simp only [List.take_zero,reduceCtorEq,false_or,false_iff]
      omega

theorem stuffInto_all {size : Nat} (data : List α) {buf : List α}
    (h : buf.length+2*data.length < size) :
    c.stuffInto size buf data = some (buf ++ c.stuff data) := by
  obtain ⟨k,hk,-,hall⟩ := c.stuffInto_cut data (show buf.length < size by omega)
  have hlen := c.stuff_length_le data.dropLast
  have hdata : data.take k = data := by
    refine hall.mpr ?_
    rw [List.length_dropLast] at hlen
    rcases data with _ | ⟨b,data⟩
    · exact .inl rfl
    · simp only [List.length_cons] at h hlen
      exact .inr (by omega)
  rw [hk,hdata]

theorem length_le_stuff (data : List α) : data.length ≤ (c.stuff data).length := by
  induction data with
  | nil => exact Nat.le_refl _
  | cons b data ih =>
    have hpos : 0 < (c.escape b).length := by
      unfold escape
      split <;> simp
    simp only [stuff_cons,List.length_append,List.length_cons]
    omega

theorem foldl_accept_escape {cap : Nat} {buf : List α} (b : α) (h : buf.length ≤ cap) :
    (c.escape b).foldl (c.accept cap) ⟨false,buf⟩ = ⟨false,(buf ++ [b]).take cap⟩ := by
  have hpush : (if buf.length < cap then buf ++ [b] else buf) = (buf ++ [b]).take cap := by
    split
    · rw [List.take_of_length_le (by simp; omega)]
    · rw [List.take_left' (by omega)]
  by_cases hr : b = c.flag ∨ b = c.esc
  · rw [c.escape_reserved hr]
    simp [accept,(c.mark_plain b hr).2,c.unmark_mark b hr,hpush]
  · have hb : b ≠ c.esc := fun he => hr (.inr he)
    rw [c.escape_plain hr]
    simp [accept,hb,hpush]

/-- The inside of a frame is read back, up to the capacity of the frame buffer. -/
theorem foldl_accept_stuff {cap : Nat} (data : List α) {buf : List α} (h : buf.length ≤ cap) :
    (c.stuff data).foldl (c.accept cap) ⟨false,buf⟩ = ⟨false,(buf ++ data).take cap⟩ := by
  induction data generalizing buf with
  | nil => simp [List.take_of_length_le h]
  | cons b data ih =>
    rw [stuff_cons,List.foldl_append,c.foldl_accept_escape b h,
      ih (by simp only [List.length_take]; omega)]
    congr 1
    rw [show buf ++ b :: data = buf ++ [b] ++ data by simp]
    by_cases hlt : buf.length < cap
    · rw [List.take_of_length_le (i := cap) (l := buf ++ [b]) (by simp; omega)]
    · have hcap : buf.length = cap := by omega
      rw [List.append_assoc,List.take_left' hcap,List.take_left' hcap,List.take_left' hcap]

def frame (data : List α) : List α := c.flag :: (c.stuff data ++ [c.flag])

def wire (frames : List (List α)) : List α := frames.flatMap c.frame

@[simp] theorem wire_nil : c.wire [] = [] := rfl

theorem wire_cons (data : List α) (frames : List (List α)) :
    c.wire (data :: frames) = c.frame data ++ c.wire frames := rfl

def decode : List α → Option (List α)
  | [] => none
  | f :: w =>
    if f = c.flag ∧ w.getLast? = some c.flag ∧ c.flag ∉ w.dropLast then
      let r := w.dropLast.foldl (c.accept w.length) ⟨false,[]⟩
      if r.escaped then none else some r.buf
    else none

theorem decode_frame (data : List α) : c.decode (c.frame data) = some data := by
  have hlen := c.length_le_stuff data
  have hread : (c.stuff data).foldl (c.accept (c.stuff data ++ [c.flag]).length) ⟨false,[]⟩ =
      ⟨false,([] ++ data).take (c.stuff data ++ [c.flag]).length⟩ :=
    c.foldl_accept_stuff data (Nat.zero_le _)
  have hall : data.take (c.stuff data ++ [c.flag]).length = data :=
    List.take_of_length_le (by simp only [List.length_append]; omega)
  simp only [decode,frame,List.getLast?_concat,List.dropLast_concat,c.flag_not_mem_stuff data,
    hread,List.nil_append,hall]
  simp

theorem decode_take {data : List α} {k : Nat} (h : k < (c.frame data).length) :
    c.decode ((c.frame data).take k) = none := by
  cases k with
  | zero => rfl
  | succ k =>
    have hk : k ≤ (c.stuff data).length := by
      simp only [frame,List.length_cons,List.length_append,List.length_nil] at h
      omega
    have hlast : ((c.stuff data).take k).getLast? ≠ some c.flag := fun hlast =>
      c.flag_not_mem_stuff data (List.mem_of_mem_take (List.mem_of_getLast? hlast))
    rw [frame,List.take_succ_cons,List.take_append_of_le_length hk,decode,
      if_neg fun h => hlast h.2.1]

/-- The start of the inside of a frame holds whole symbols, and perhaps a last escape. -/
theorem prefix_stuff {w data : List α} (h : w <+: c.stuff data) :
    ∃ part rest, w = c.stuff part ++ rest ∧ part <+: data ∧ (rest = [] ∨ rest = [c.esc]) := by
  induction data generalizing w with
  | nil => exact ⟨[],[],by simpa using h,List.prefix_refl _,.inl rfl⟩
  | cons b data ih =>
    rw [stuff_cons] at h
    by_cases hw : c.escape b <+: w
    · obtain ⟨w',rfl⟩ := hw
      obtain ⟨part,rest,rfl,hp,hr⟩ := ih ((List.prefix_append_right_inj _).mp h)
      refine ⟨b :: part,rest,?_,List.cons_prefix_cons.mpr ⟨rfl,hp⟩,hr⟩
      rw [stuff_cons,List.append_assoc]
    · -- `w` ends inside the first symbol
      refine ⟨[],w,rfl,List.nil_prefix,?_⟩
      have hlen : w.length < (c.escape b).length := by
        by_contra hge
        exact hw (List.prefix_of_prefix_length_le (List.prefix_append _ _) h (by omega))
      have hpre : w <+: c.escape b :=
        List.prefix_of_prefix_length_le h (List.prefix_append _ _) (by omega)
      by_cases hr : b = c.flag ∨ b = c.esc
      · rw [c.escape_reserved hr] at hpre hlen
        cases w with
        | nil => exact .inl rfl
        | cons x w =>
          obtain ⟨rfl,-⟩ := List.cons_prefix_cons.mp hpre
          have hnil : w = [] := List.eq_nil_of_length_eq_zero
            (by simp only [List.length_cons,List.length_nil] at hlen; omega)
          exact .inr (by rw [hnil])
      · rw [c.escape_plain hr] at hlen
        exact .inl (List.eq_nil_of_length_eq_zero
          (by simp only [List.length_cons,List.length_nil] at hlen; omega))

/-- What has arrived when a stream of frames is cut: whole frames, and perhaps the start of
one more. -/
inductive Arrived (frames : List (List α)) : List α → Prop where
  | whole : Arrived frames (c.wire frames)
  | cut (part rest : List α) : rest = [] ∨ rest = [c.esc] →
      Arrived frames (c.wire frames ++ c.flag :: (c.stuff part ++ rest))

theorem prefix_wire {w : List α} {frames : List (List α)} (h : w <+: c.wire frames) :
    ∃ whole, whole <+: frames ∧ c.Arrived whole w := by
  induction frames generalizing w with
  | nil =>
    have hw : w = [] := by simpa using h
    exact ⟨[],List.prefix_refl _,hw ▸ .whole⟩
  | cons data frames ih =>
    rw [wire_cons] at h
    by_cases hw : c.frame data <+: w
    · obtain ⟨w',rfl⟩ := hw
      obtain ⟨whole,hwhole,ha⟩ := ih ((List.prefix_append_right_inj _).mp h)
      refine ⟨data :: whole,List.cons_prefix_cons.mpr ⟨rfl,hwhole⟩,?_⟩
      cases ha with
      | whole => exact .whole
      | cut part rest hr =>
        rw [← List.append_assoc,← wire_cons]
        exact .cut part rest hr
    · refine ⟨[],List.nil_prefix,?_⟩
      have hlen : w.length < (c.frame data).length := by
        by_contra hge
        exact hw (List.prefix_of_prefix_length_le (List.prefix_append _ _) h (by omega))
      have hpre : w <+: c.frame data :=
        List.prefix_of_prefix_length_le h (List.prefix_append _ _) (by omega)
      cases w with
      | nil => exact .whole
      | cons x w =>
        obtain ⟨rfl,htail⟩ := List.cons_prefix_cons.mp hpre
        have hw' : w <+: c.stuff data := List.prefix_of_prefix_length_le htail
          (List.prefix_append _ _) (by simp [frame] at hlen; omega)
        obtain ⟨part,rest,rfl,-,hr⟩ := c.prefix_stuff hw'
        exact Arrived.cut part rest hr

end Code

end Stuffing
