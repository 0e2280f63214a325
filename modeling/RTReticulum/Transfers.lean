import RTReticulum.Resource

/-! What a receiver holds, in terms of the chunks it was given. -/
set_option autoImplicit false

namespace RNS

structure Chunk where
  id : Bytes
  /-- The total size and the chunk count. -/
  head : Option (Nat × Nat)
  idx : UInt32
  data : Bytes

namespace Chunk

def parse (chunk : Bytes) : Option Chunk :=
  let p := Bytes.midFrom chunk (1+idBytes)
  if chunk.getD 0 0 = tagHead ∧ headHeader ≤ chunk.length then
    some ⟨Bytes.mid chunk 1 idBytes,
      some ((getU32 p).toNat,(getU32 (Bytes.midFrom p 4)).toNat),getU32 (Bytes.midFrom p 8),
      Bytes.midFrom chunk headHeader⟩
  else if chunk.getD 0 0 = tagBody ∧ bodyHeader ≤ chunk.length then
    some ⟨Bytes.mid chunk 1 idBytes,none,getU32 p,Bytes.midFrom chunk bodyHeader⟩
  else none

theorem parse_head {chunk : Bytes} (h : chunk.getD 0 0 = tagHead)
    (hlen : headHeader ≤ chunk.length) :
    parse chunk = some ⟨Bytes.mid chunk 1 idBytes,
      some ((getU32 (Bytes.midFrom chunk (1+idBytes))).toNat,
        (getU32 (Bytes.midFrom (Bytes.midFrom chunk (1+idBytes)) 4)).toNat),
      getU32 (Bytes.midFrom (Bytes.midFrom chunk (1+idBytes)) 8),Bytes.midFrom chunk headHeader⟩ :=
  if_pos ⟨h,hlen⟩

theorem parse_body {chunk : Bytes} (h : chunk.getD 0 0 = tagBody)
    (hlen : bodyHeader ≤ chunk.length) :
    parse chunk = some ⟨Bytes.mid chunk 1 idBytes,none,
      getU32 (Bytes.midFrom chunk (1+idBytes)),Bytes.midFrom chunk bodyHeader⟩ := by
  have hne : ¬ (chunk.getD 0 0 = tagHead ∧ headHeader ≤ chunk.length) := by
    rw [h]; exact fun h' => nomatch h'.1
  exact (if_neg hne).trans (if_pos ⟨h,hlen⟩)

theorem parse_none {chunk : Bytes} (hhead : chunk.getD 0 0 = tagHead → chunk.length < headHeader)
    (hbody : chunk.getD 0 0 = tagBody → chunk.length < bodyHeader) : parse chunk = none :=
  (if_neg fun h => absurd (hhead h.1) (Nat.not_lt.mpr h.2)).trans
    (if_neg fun h => absurd (hbody h.1) (Nat.not_lt.mpr h.2))

theorem parse_id_length {chunk : Bytes} {c : Chunk} (h : parse chunk = some c) :
    c.id.length = idBytes := by
  have hlen (n : Nat) (hn : 1+idBytes ≤ n) (hchunk : n ≤ chunk.length) :
      (Bytes.mid chunk 1 idBytes).length = idBytes := by
    rw [List.length_take,List.length_drop]; omega
  unfold parse at h
  split at h
  · cases h
    exact hlen headHeader (by decide) (And.right ‹_›)
  split at h
  · cases h
    exact hlen bodyHeader (by decide) (And.right ‹_›)
  · cases h

theorem parse_id_ne_nil {chunk : Bytes} {c : Chunk} (h : parse chunk = some c) : c.id ≠ [] := by
  intro hnil
  have := parse_id_length h
  rw [hnil] at this
  cases this

def lockedId (cs : List Chunk) : Option Bytes := (cs.find? (·.head.isSome)).map (·.id)

def accepted (cs : List Chunk) : List Chunk :=
  (cs.dropWhile (·.head.isNone)).filter fun c => lockedId cs = some c.id

def latest (cs : List Chunk) (idx : UInt32) : Option Bytes :=
  (cs.reverse.find? (·.idx = idx)).map (·.data)

def lastHead (cs : List Chunk) : Option (Nat × Nat) := cs.reverse.findSome? (·.head)

@[simp] theorem latest_nil (idx : UInt32) : latest [] idx = none := rfl

@[simp] theorem latest_concat (cs : List Chunk) (c : Chunk) (idx : UInt32) :
    latest (cs ++ [c]) idx = if c.idx = idx then some c.data else latest cs idx := by
  by_cases h : c.idx = idx <;> simp [latest,h]

@[simp] theorem lastHead_nil : lastHead [] = none := rfl

@[simp] theorem lastHead_concat (cs : List Chunk) (c : Chunk) :
    lastHead (cs ++ [c]) = c.head.or (lastHead cs) := by
  cases h : c.head <;> simp [lastHead,h]

theorem lockedId_concat (cs : List Chunk) (c : Chunk) :
    lockedId (cs ++ [c]) = (lockedId cs).or (if c.head.isSome then some c.id else none) := by
  simp only [lockedId,List.find?_append]
  cases cs.find? (·.head.isSome) with
  | some d => rfl
  | none => cases hc : c.head <;> simp [hc]

theorem accepted_of_lockedId_none {cs : List Chunk} (h : lockedId cs = none) :
    accepted cs = [] := by
  simp [accepted,h]

theorem accepted_concat (cs : List Chunk) (c : Chunk) : accepted (cs ++ [c]) =
    accepted cs ++ if lockedId (cs ++ [c]) = some c.id then [c] else [] := by
  cases h : lockedId cs with
  | none =>
    have hcs : ∀ d ∈ cs, d.head.isNone = true := by
      simpa [lockedId] using h
    rw [accepted_of_lockedId_none h,accepted,List.dropWhile_append_of_pos hcs,lockedId_concat,h]
    cases hc : c.head <;> simp [hc]
  | some id =>
    have hlocked : lockedId (cs ++ [c]) = some id := by rw [lockedId_concat,h]; rfl
    have hne : cs.dropWhile (·.head.isNone) ≠ [] := by
      intro hnil
      rw [List.dropWhile_eq_nil_iff] at hnil
      have : lockedId cs = none := by simpa [lockedId] using hnil
      rw [h] at this
      cases this
    have hdrop : (cs ++ [c]).dropWhile (·.head.isNone) =
        cs.dropWhile (·.head.isNone) ++ [c] := by
      rw [List.dropWhile_append]; simp [hne]
    simp only [accepted,hdrop,List.filter_append,hlocked,h]
    congr 1
    by_cases hc : id = c.id <;> simp [hc]

theorem latest_mem {cs : List Chunk} {idx : UInt32} {data : Bytes}
    (h : latest cs idx = some data) : ∃ c ∈ cs, c.idx = idx ∧ c.data = data := by
  obtain ⟨c,hc,rfl⟩ := Option.map_eq_some_iff.mp h
  exact ⟨c,List.mem_reverse.mp (List.mem_of_find?_eq_some hc),by simpa using List.find?_some hc,rfl⟩

theorem latest_isSome {cs : List Chunk} {c : Chunk} (h : c ∈ cs) : (latest cs c.idx).isSome := by
  simp only [latest,Option.isSome_map,List.find?_isSome]
  exact ⟨c,List.mem_reverse.mpr h,by simp⟩

theorem lastHead_mem {cs : List Chunk} {head : Nat × Nat} (h : lastHead cs = some head) :
    ∃ c ∈ cs, c.head = some head := by
  obtain ⟨c,hc,hhead⟩ := List.exists_of_findSome?_eq_some h
  exact ⟨c,List.mem_reverse.mp hc,hhead⟩

theorem lastHead_isSome {cs : List Chunk} (h : (lockedId cs).isSome) :
    (lastHead (accepted cs)).isSome := by
  induction cs using List.reverseRecOn with
  | nil => cases h
  | append_singleton cs c ih =>
    cases hcs : lockedId cs with
    | some id =>
      have ih := ih (by rw [hcs]; rfl)
      rw [accepted_concat]
      split
      · rw [lastHead_concat]
        cases c.head with
        | none => exact ih
        | some head => rfl
      · rwa [List.append_nil]
    | none =>
      rw [lockedId_concat,hcs] at h
      have hc : c.head.isSome := by
        by_contra hc
        simp [hc] at h
      rw [accepted_concat,lockedId_concat,hcs,if_pos (by simp [hc]),lastHead_concat]
      simp [hc]

def parsed (chunks : List Bytes) : List Chunk := chunks.filterMap parse

theorem parsed_concat (chunks : List Bytes) (chunk : Bytes) :
    parsed (chunks ++ [chunk]) = parsed chunks ++ (parse chunk).toList := by
  simp only [parsed,List.filterMap_append]
  cases h : parse chunk <;> simp [h]

/-- The payload is the data last accepted for each index, and has the size of the last
head. -/
def Assembles (cs : List Chunk) (payload : Bytes) : Prop :=
  ∃ (size count : Nat) (pieces : List Bytes), lastHead cs = some (size,count) ∧
    payload = pieces.flatten ∧
    (List.range count).map (fun i => latest cs (UInt32.ofNat i)) = pieces.map some ∧
    payload.length = size

end Chunk

namespace Resource
open Chunk

def Call.payload? : Call → Option Bytes
  | .complete _ payload => some payload
  | .progress _ _ _ => none

def completions (calls : List Call) : List Bytes := calls.filterMap Call.payload?

def Done (r : Resource) : Prop := r.status = .complete ∨ r.status = .failed

def Takes (r : Resource) (c : Chunk) : Prop := r.id = c.id ∨ r.id = [] ∧ c.head.isSome

instance (r : Resource) (c : Chunk) : Decidable (r.Takes c) :=
  inferInstanceAs (Decidable (_ ∨ _))

def put (r : Resource) (c : Chunk) : Resource :=
  { r with
    id := c.id, totalSize := (c.head.getD (r.totalSize,r.chunkCount)).1
    chunkCount := (c.head.getD (r.totalSize,r.chunkCount)).2 }.store c.idx c.data

theorem onChunk_done {r : Resource} (h : r.Done) (chunk : Bytes) : r.onChunk chunk = (r,[]) := by
  have hr : r.status ≠ .receiving := by
    intro hr
    rcases h with h | h <;> rw [hr] at h <;> cases h
  rw [onChunk,if_pos hr]

theorem onChunk_eq {r : Resource} (h : r.status = .receiving) (chunk : Bytes) :
    r.onChunk chunk = match parse chunk with
      | none => (r,[])
      | some c => if r.Takes c then (r.put c).accept else (r,[]) := by
  have hbound : 1+idBytes ≤ bodyHeader ∧ bodyHeader ≤ headHeader := by decide
  rw [onChunk,if_neg (not_not.mpr h)]
  by_cases hshort : chunk.length < 1+idBytes
  · rw [if_pos hshort,parse_none (fun _ => by omega) (fun _ => by omega)]
  rw [if_neg hshort]
  by_cases hhead : chunk.getD 0 0 = tagHead
  · rw [if_pos hhead]
    by_cases hlen : chunk.length < headHeader
    · rw [if_pos hlen,parse_none (fun _ => hlen) (fun hbody => nomatch hhead.symm.trans hbody)]
    · rw [if_neg hlen,parse_head hhead (Nat.not_lt.mp hlen)]
      by_cases htakes : r.id ≠ [] ∧ r.id ≠ Bytes.mid chunk 1 idBytes
      · exact (if_pos htakes).trans (if_neg fun h => h.elim htakes.2 fun h => htakes.1 h.1).symm
      · exact (if_neg htakes).trans (if_pos (by simp only [Takes]; tauto)).symm
  rw [if_neg hhead]
  by_cases hbody : chunk.getD 0 0 = tagBody
  · rw [if_pos hbody]
    by_cases hlen : chunk.length < bodyHeader
    · rw [if_pos hlen,parse_none (fun h => absurd h hhead) (fun _ => hlen)]
    · have hparse := parse_body hbody (Nat.not_lt.mp hlen)
      have hid := parse_id_ne_nil hparse
      rw [if_neg hlen,hparse]
      by_cases htakes : r.id = Bytes.mid chunk 1 idBytes
      · refine (if_neg ?_).trans ((if_pos (.inl htakes)).trans ?_).symm
        · rw [htakes]; tauto
        · simp only [put,← htakes]; rfl
      · exact (if_pos (.inr htakes)).trans (if_neg fun h => h.elim htakes fun h => nomatch h.2).symm
  · rw [if_neg hbody,parse_none (fun h => absurd h hhead) (fun h => absurd h hbody)]

@[simp] theorem completions_append (xs ys : List Call) :
    completions (xs ++ ys) = completions xs ++ completions ys := List.filterMap_append

@[simp] theorem completions_tellProgress (r : Resource) : completions r.tellProgress = [] := by
  unfold tellProgress; split <;> rfl

@[simp] theorem completions_tellComplete (payload : Bytes) (r : Resource) :
    completions (r.tellComplete payload) = r.onComplete.toList.map fun _ => payload := by
  unfold tellComplete
  cases r.onComplete <;> rfl

theorem foldlM_append (f : Nat → Option Bytes) (is : List Nat) (acc payload : Bytes) :
    is.foldlM (fun acc i => (f i).map (acc ++ ·)) acc = some payload ↔
      ∃ pieces : List Bytes, is.map f = pieces.map some ∧ payload = acc ++ pieces.flatten := by
  induction is generalizing acc with
  | nil =>
    constructor
    · rintro ⟨⟩
      exact ⟨[],rfl,by simp⟩
    · rintro ⟨pieces,hp,rfl⟩
      rw [List.map_nil,eq_comm,List.map_eq_nil_iff] at hp
      simp [hp]
  | cons i is ih =>
    rw [List.foldlM_cons]
    cases hi : f i with
    | none =>
      constructor
      · intro h
        cases h
      · rintro ⟨pieces,hp,-⟩
        cases pieces with
        | nil => cases hp
        | cons piece pieces => simp [hi] at hp
    | some piece =>
      refine (ih (acc ++ piece)).trans ⟨?_,?_⟩
      · rintro ⟨pieces,hp,rfl⟩
        exact ⟨piece :: pieces,by simp [hi,hp],by simp⟩
      · rintro ⟨pieces,hp,rfl⟩
        cases pieces with
        | nil => cases hp
        | cons piece' pieces =>
          simp only [List.map_cons,List.cons.injEq,hi,Option.some.injEq] at hp
          exact ⟨pieces,hp.2,by simp [hp.1]⟩

theorem assembled_eq_some {r : Resource} {payload : Bytes} : r.assembled = some payload ↔
    ∃ pieces : List Bytes, (List.range r.chunkCount).map
      (fun i => r.chunks.lookup (UInt32.ofNat i)) = pieces.map some ∧ payload = pieces.flatten :=
  foldlM_append _ _ _ _

/-- An accepted chunk leaves the receiver as it is, or ends it, with the payload where all
pieces are there and the size is right. -/
theorem accept_cases (r : Resource) : (r.accept.1 = r ∧ completions r.accept.2 = []) ∨
    (r.accept.1 = { r with status := .failed } ∧ completions r.accept.2 = []) ∨
    ∃ payload, r.assembled = some payload ∧ payload.length = r.totalSize ∧
      r.accept.1 = { r with status := .complete } ∧
      completions r.accept.2 = r.onComplete.toList.map fun _ => payload := by
  simp only [accept,completions_append,completions_tellProgress,List.nil_append,finish]
  split
  · cases ha : r.assembled with
    | none => exact .inr (.inl ⟨rfl,rfl⟩)
    | some payload =>
      by_cases hsize : payload.length = r.totalSize
      · exact .inr (.inr ⟨payload,rfl,hsize,by simp [hsize],by simp [hsize]⟩)
      · exact .inr (.inl ⟨by simp [hsize],by simp [hsize]; rfl⟩)
  split
  · rename_i h
    refine .inr (.inr ⟨[],assembled_eq_some.mpr ⟨[],?_,rfl⟩,h.2.symm,rfl,
      completions_tellComplete [] r⟩)
    rw [h.1]; rfl
  · exact .inl ⟨rfl,rfl⟩

structure Reflects (cs : List Chunk) (r : Resource) : Prop where
  ids : ∀ c ∈ cs, c.id ≠ []
  id : r.id = (lockedId cs).getD []
  head : (r.totalSize,r.chunkCount) = (lastHead (accepted cs)).getD (0,0)
  chunks : ∀ idx, r.chunks.lookup idx = latest (accepted cs) idx

theorem Reflects.takes {cs : List Chunk} {r : Resource} (h : Reflects cs r) (c : Chunk)
    (hc : c.id ≠ []) : r.Takes c ↔ lockedId (cs ++ [c]) = some c.id := by
  rw [Takes,h.id,lockedId_concat]
  cases hlocked : lockedId cs with
  | none => cases hhead : c.head <;> simp [hc.symm]
  | some id =>
    have hid : id ≠ [] := by
      obtain ⟨d,hd,rfl⟩ := Option.map_eq_some_iff.mp hlocked
      exact h.ids d (List.mem_of_find?_eq_some hd)
    simp [hid]

theorem Reflects.put {cs : List Chunk} {r : Resource} (h : Reflects cs r) (c : Chunk)
    (hc : c.id ≠ []) (ht : r.Takes c) :
    accepted (cs ++ [c]) = accepted cs ++ [c] ∧ Reflects (cs ++ [c]) (r.put c) := by
  have hlocked := (h.takes c hc).mp ht
  have hacc : accepted (cs ++ [c]) = accepted cs ++ [c] := by rw [accepted_concat,if_pos hlocked]
  refine ⟨hacc,?_,?_,?_,?_⟩
  · simpa [or_imp,forall_and] using ⟨h.ids,hc⟩
  · rw [hlocked]; rfl
  · rw [hacc,lastHead_concat]
    cases hhead : c.head with
    | none => simpa [Resource.put,store,hhead] using h.head
    | some head => simp [Resource.put,store,hhead]
  · intro idx
    rw [hacc,latest_concat,← h.chunks]
    by_cases hidx : c.idx = idx
    · rw [if_pos hidx,← hidx]; exact Finmap.lookup_insert _
    · rw [if_neg hidx]; exact Finmap.lookup_insert_of_ne _ (Ne.symm hidx)

theorem Reflects.skip {cs : List Chunk} {r : Resource} (h : Reflects cs r) (c : Chunk)
    (hc : c.id ≠ []) (ht : ¬ r.Takes c) :
    accepted (cs ++ [c]) = accepted cs ∧ Reflects (cs ++ [c]) r := by
  have hlocked := mt (h.takes c hc).mpr ht
  have hacc : accepted (cs ++ [c]) = accepted cs := by
    rw [accepted_concat,if_neg hlocked,List.append_nil]
  refine ⟨hacc,?_,?_,?_,?_⟩
  · simpa [or_imp,forall_and] using ⟨h.ids,hc⟩
  · rw [h.id]
    rw [lockedId_concat] at hlocked ⊢
    cases hcs : lockedId cs with
    | some id => rfl
    | none => cases hhead : c.head <;> simp_all
  · rw [hacc]; exact h.head
  · rw [hacc]; exact h.chunks

theorem Reflects.onChunk {chunks : List Bytes} {r : Resource} (h : Reflects (parsed chunks) r)
    (hr : r.status = .receiving) (chunk : Bytes) :
    (accepted (parsed (chunks ++ [chunk])) = accepted (parsed chunks) ∧
      r.onChunk chunk = (r,[]) ∧ Reflects (parsed (chunks ++ [chunk])) r) ∨
    ∃ c, parse chunk = some c ∧
      accepted (parsed (chunks ++ [chunk])) = accepted (parsed chunks) ++ [c] ∧
      r.onChunk chunk = (r.put c).accept ∧ Reflects (parsed (chunks ++ [chunk])) (r.put c) := by
  rw [onChunk_eq hr,parsed_concat]
  cases hc : parse chunk with
  | none => exact .inl ⟨by simp,rfl,by simpa using h⟩
  | some c =>
    have hid := parse_id_ne_nil hc
    by_cases ht : r.Takes c
    · obtain ⟨hacc,href⟩ := h.put c hid ht
      exact .inr ⟨c,rfl,hacc,if_pos ht,href⟩
    · obtain ⟨hacc,href⟩ := h.skip c hid ht
      exact .inl ⟨hacc,if_neg ht,href⟩

section
variable (onComplete onProgress : Option Nat)

@[simp] theorem feed_nil (r : Resource) : r.feed [] = (r,[]) := rfl

theorem feed_append (r : Resource) (xs ys : List Bytes) : r.feed (xs ++ ys) =
    (((r.feed xs).1.feed ys).1,(r.feed xs).2 ++ ((r.feed xs).1.feed ys).2) := by
  induction xs generalizing r with
  | nil => rfl
  | cons x xs ih => simp only [List.cons_append,feed,ih,List.append_assoc]

theorem feed_concat (r : Resource) (xs : List Bytes) (x : Bytes) : r.feed (xs ++ [x]) =
    (((r.feed xs).1.onChunk x).1,(r.feed xs).2 ++ ((r.feed xs).1.onChunk x).2) := by
  rw [feed_append]; simp [feed]

theorem feed_done {r : Resource} (h : r.Done) (chunks : List Bytes) : r.feed chunks = (r,[]) := by
  induction chunks with
  | nil => rfl
  | cons chunk chunks ih => rw [feed,onChunk_done h,ih]; rfl

theorem reflects_receive : Reflects [] (receive onComplete onProgress) where
  ids := fun _ h => nomatch h
  id := rfl
  head := rfl
  chunks := fun _ => Finmap.lookup_empty _

/-- A receiver is receiving and has completed nothing, or it is done and has completed at
most once. -/
def Progress (chunks : List Bytes) (x : Resource × List Call) : Prop :=
  x.1.onComplete = onComplete ∧
    (x.1.status = .receiving ∧ Reflects (parsed chunks) x.1 ∧ completions x.2 = [] ∨
      x.1.Done ∧ lockedId (parsed chunks) = some x.1.id ∧ (completions x.2).length ≤ 1)

theorem lockedId_parsed_append {chunks : List Bytes} {id : Bytes}
    (h : lockedId (parsed chunks) = some id) (after : List Bytes) :
    lockedId (parsed (chunks ++ after)) = some id := by
  obtain ⟨c,hc,rfl⟩ := Option.map_eq_some_iff.mp h
  rw [parsed,List.filterMap_append,lockedId,List.find?_append]
  rw [parsed] at hc
  simp [hc]

variable {onComplete onProgress}

theorem Progress.step {chunks : List Bytes} {x : Resource × List Call}
    (h : Progress onComplete chunks x) (chunk : Bytes) :
    Progress onComplete (chunks ++ [chunk])
      ((x.1.onChunk chunk).1,x.2 ++ (x.1.onChunk chunk).2) := by
  obtain ⟨hcb,⟨hr,href,hnone⟩ | ⟨hdone,hid,hle⟩⟩ := h
  · obtain ⟨-,hon,href'⟩ | ⟨c,-,hacc,hon,href'⟩ := href.onChunk hr chunk
    · rw [hon]
      exact ⟨hcb,.inl ⟨hr,href',by simpa using hnone⟩⟩
    have hlocked : lockedId (parsed (chunks ++ [chunk])) = some (x.1.put c).id := by
      cases hl : lockedId (parsed (chunks ++ [chunk])) with
      | none => simp [accepted_of_lockedId_none hl] at hacc
      | some id => rw [href'.id,hl]; rfl
    have hcb' : (x.1.put c).onComplete = onComplete := hcb
    rw [hon]
    obtain ⟨h1,h2⟩ | ⟨h1,h2⟩ | ⟨payload,-,-,h1,h2⟩ := (x.1.put c).accept_cases
    · exact ⟨by rw [h1]; exact hcb',.inl ⟨by rw [h1]; exact hr,by rw [h1]; exact href',
        by simp [hnone,h2]⟩⟩
    · exact ⟨by rw [h1]; exact hcb',.inr ⟨by rw [h1]; exact .inr rfl,by rw [h1]; exact hlocked,
        by simp [hnone,h2]⟩⟩
    · refine ⟨by rw [h1]; exact hcb',.inr ⟨by rw [h1]; exact .inl rfl,by rw [h1]; exact hlocked,?_⟩⟩
      simp only [completions_append,hnone,h2,List.nil_append,List.length_map]
      cases (x.1.put c).onComplete <;> simp
  · rw [onChunk_done hdone]
    exact ⟨hcb,.inr ⟨hdone,lockedId_parsed_append hid [chunk],by simpa using hle⟩⟩

theorem feed_progress (chunks : List Bytes) :
    Progress onComplete chunks ((receive onComplete onProgress).feed chunks) := by
  induction chunks using List.reverseRecOn with
  | nil => exact ⟨rfl,.inl ⟨rfl,reflects_receive _ _,rfl⟩⟩
  | append_singleton chunks chunk ih =>
    rw [feed_concat]
    exact ih.step chunk

theorem Progress.id {chunks : List Bytes} {x : Resource × List Call}
    (h : Progress onComplete chunks x) : x.1.id = (lockedId (parsed chunks)).getD [] := by
  obtain ⟨-,⟨-,href,-⟩ | ⟨-,hid,-⟩⟩ := h
  · exact href.id
  · rw [hid]; rfl

theorem Progress.assembles {chunks : List Bytes} {x : Resource × List Call}
    (h : Progress onComplete chunks x) {chunk payload : Bytes}
    (hp : payload ∈ completions (x.1.onChunk chunk).2) :
    Assembles (accepted (parsed (chunks ++ [chunk]))) payload := by
  obtain ⟨-,⟨hr,href,-⟩ | ⟨hdone,-⟩⟩ := h
  · obtain ⟨-,hon,-⟩ | ⟨c,-,hacc,hon,href'⟩ := href.onChunk hr chunk
    · rw [hon] at hp
      cases hp
    rw [hon] at hp
    obtain ⟨-,h2⟩ | ⟨-,h2⟩ | ⟨payload',ha,hsize,-,h2⟩ := (x.1.put c).accept_cases
    · rw [h2] at hp
      cases hp
    · rw [h2] at hp
      cases hp
    · rw [h2,List.mem_map] at hp
      obtain ⟨-,-,rfl⟩ := hp
      obtain ⟨pieces,hmap,hflat⟩ := assembled_eq_some.mp ha
      have hlocked : (lockedId (parsed (chunks ++ [chunk]))).isSome := by
        cases hl : lockedId (parsed (chunks ++ [chunk])) with
        | none => simp [accepted_of_lockedId_none hl] at hacc
        | some id => rfl
      obtain ⟨head,hhead⟩ := Option.isSome_iff_exists.mp (lastHead_isSome hlocked)
      have htotal := href'.head
      rw [hhead] at htotal
      simp only [href'.chunks] at hmap
      exact ⟨_,_,pieces,hhead.trans (congrArg some htotal.symm),hflat,hmap,hsize⟩
  · rw [onChunk_done hdone] at hp
    cases hp

end

/-- Histories of a receiver, up to any point and from there on. -/
theorem transfer_histories (onComplete onProgress : Option Nat) (before after : List Bytes) :
    let y := (receive onComplete onProgress).feed before
    let x := (receive onComplete onProgress).feed (before ++ after)
    (completions x.2).length ≤ 1 ∧ x = ((y.1.feed after).1,y.2 ++ (y.1.feed after).2) ∧
      y.1.id = (lockedId (parsed before)).getD [] ∧ (y.1.id ≠ [] → x.1.id = y.1.id) ∧
      (y.1.Done → y.1.feed after = (y.1,[])) ∧
      ∀ chunk payload, payload ∈ completions (y.1.onChunk chunk).2 →
        Assembles (accepted (parsed (before ++ [chunk]))) payload := by
  intro y x
  have hy : Progress onComplete before y := feed_progress before
  have hx : Progress onComplete (before ++ after) x := feed_progress (before ++ after)
  refine ⟨?_,feed_append _ before after,hy.id,fun hne => ?_,fun h => feed_done h after,
    fun chunk payload h => hy.assembles h⟩
  · obtain ⟨-,⟨-,-,hnone⟩ | ⟨-,-,hle⟩⟩ := hx
    · rw [hnone]; exact Nat.zero_le 1
    · exact hle
  · rw [hx.id,hy.id]
    rw [hy.id] at hne
    cases hl : lockedId (parsed before) with
    | none => simp [hl] at hne
    | some id => rw [lockedId_parsed_append hl after]

section
variable {id payload : Bytes} {mtu : UInt32}

theorem chunkSize_pos (mtu : UInt32) : 0 < chunkSize mtu := by
  unfold chunkSize
  split
  · split
    · rename_i h
      have hlt : (100 : UInt32).toNat < mtu.toNat := UInt32.lt_iff_toNat_lt.mp h
      rw [UInt32.toNat_sub_of_le _ _ (UInt32.le_iff_toNat_le.mpr hlt.le)]
      exact Nat.sub_pos_of_lt hlt
    · decide
  · decide

theorem chunkCountOf_bounds {k : Nat} (hk : 0 < k) (payload : Bytes) :
    payload.length ≤ chunkCountOf k payload * k ∧ chunkCountOf k payload ≤ payload.length := by
  unfold chunkCountOf
  split
  · rename_i h
    simp [List.isEmpty_iff.mp h]
  · rename_i h
    have hpos : 0 < payload.length := List.length_pos_iff.mpr (by simpa using h)
    constructor
    · have := Nat.lt_div_mul_add (a := payload.length + k - 1) hk
      omega
    · rw [Nat.div_le_iff_le_mul_add_pred hk]
      have := Nat.le_mul_of_pos_left payload.length hk
      omega

def piece (mtu : UInt32) (payload : Bytes) (i : Nat) : Bytes :=
  Bytes.mid payload (i*chunkSize mtu) (chunkSize mtu)

theorem flatten_pieces (k : Nat) (b : Bytes) (n : Nat) :
    ((List.range n).map fun i => Bytes.mid b (i*k) k).flatten = b.take (n*k) := by
  induction n with
  | zero => simp
  | succ n ih =>
    rw [List.range_succ,List.map_append,List.flatten_append,ih,Nat.succ_mul,List.take_add]
    simp

theorem flatten_piece (mtu : UInt32) (payload : Bytes) :
    ((List.range (chunkCountOf (chunkSize mtu) payload)).map (piece mtu payload)).flatten =
      payload := (flatten_pieces _ _ _).trans
    (List.take_of_length_le (chunkCountOf_bounds (chunkSize_pos mtu) payload).1)

/-- The chunk of an index; an empty payload has one, too. -/
def chunkAt (id : Bytes) (mtu : UInt32) (payload : Bytes) (i : Nat) : Bytes :=
  if i = 0 then headChunk id (chunkSize mtu) payload else bodyChunk id (chunkSize mtu) payload i

theorem chunksOf_eq (id : Bytes) (mtu : UInt32) (payload : Bytes) :
    chunksOf id mtu payload = chunkAt id mtu payload 0 ::
      (List.range' 1 (chunkCountOf (chunkSize mtu) payload - 1)).map (chunkAt id mtu payload) := by
  have hbody : (List.range' 1 (chunkCountOf (chunkSize mtu) payload - 1)).map
      (chunkAt id mtu payload) = (List.range' 1 (chunkCountOf (chunkSize mtu) payload - 1)).map
        (bodyChunk id (chunkSize mtu) payload) := by
    apply List.map_congr_left
    intro i hi
    have hpos := (List.mem_range'_1.mp hi).1
    rw [chunkAt,if_neg (by omega)]
  rw [hbody,chunkAt,if_pos rfl,chunksOf]
  split
  · rename_i h
    have hnil : payload = [] := by
      have := (chunkCountOf_bounds (chunkSize_pos mtu) payload).1
      rw [h,Nat.zero_mul] at this
      exact List.length_eq_zero_iff.mp (Nat.le_zero.mp this)
    simp [hnil,headChunk,chunkCountOf]
  · rfl

theorem mem_chunksOf {chunk : Bytes} : chunk ∈ chunksOf id mtu payload ↔
    ∃ i < max (chunkCountOf (chunkSize mtu) payload) 1, chunk = chunkAt id mtu payload i := by
  rw [chunksOf_eq,List.mem_cons,List.mem_map]
  constructor
  · rintro (rfl | ⟨i,hi,rfl⟩)
    · exact ⟨0,by omega,rfl⟩
    · have := List.mem_range'_1.mp hi
      exact ⟨i,by omega,rfl⟩
  · rintro ⟨i,hi,rfl⟩
    cases i with
    | zero => exact .inl rfl
    | succ i => exact .inr ⟨i+1,List.mem_range'_1.mpr (by omega),rfl⟩

def sent (id : Bytes) (mtu : UInt32) (payload : Bytes) (i : Nat) : Chunk :=
  ⟨id,if i = 0 then some (payload.length,chunkCountOf (chunkSize mtu) payload) else none,
    UInt32.ofNat i,piece mtu payload i⟩

theorem chunk_fields (tag : UInt8) (hid : id.length = idBytes) (rest : Bytes) :
    Bytes.mid (tag :: (id ++ rest)) 1 idBytes = id ∧
      Bytes.midFrom (tag :: (id ++ rest)) (1+idBytes) = rest ∧
      (tag :: (id ++ rest)).length = 1+idBytes+rest.length := by
  refine ⟨List.take_left' hid,?_,by simp [hid]; omega⟩
  rw [Bytes.midFrom,Nat.add_comm,List.drop_succ_cons,List.drop_left' hid]

theorem midFrom_putU32 (v : UInt32) (rest : Bytes) :
    Bytes.midFrom (putU32 v ++ rest) 4 = rest := List.drop_left' (putU32_length v)

theorem piece_head (mtu : UInt32) (payload : Bytes) :
    payload.take (if payload.length < chunkSize mtu then payload.length else chunkSize mtu) =
      piece mtu payload 0 := by
  rw [piece,Bytes.mid,Nat.zero_mul,List.drop_zero]
  split
  · rw [List.take_of_length_le le_rfl,List.take_of_length_le (by omega)]
  · rfl

theorem piece_body (mtu : UInt32) (payload : Bytes) (i : Nat) :
    Bytes.mid payload (i*chunkSize mtu) (if i*chunkSize mtu + chunkSize mtu > payload.length then
      payload.length - i*chunkSize mtu else chunkSize mtu) = piece mtu payload i := by
  simp only [piece,Bytes.mid]
  split
  · rw [List.take_of_length_le (by simp),List.take_of_length_le (by simp; omega)]
  · rfl

theorem parse_chunkAt (hid : id.length = idBytes) (hlen : payload.length < 2^32) (i : Nat) :
    parse (chunkAt id mtu payload i) = some (sent id mtu payload i) := by
  by_cases hi : i = 0
  · have hcount := (chunkCountOf_bounds (chunkSize_pos mtu) payload).2
    rw [chunkAt,if_pos hi,headChunk,piece_head]
    generalize hs : UInt32.ofNat payload.length = size
    generalize hc : UInt32.ofNat (chunkCountOf (chunkSize mtu) payload) = count
    have hsize : size.toNat = payload.length := by
      rw [← hs]; exact UInt32.toNat_ofNat_of_lt' hlen
    have hcounts : count.toNat = chunkCountOf (chunkSize mtu) payload := by
      rw [← hc]; exact UInt32.toNat_ofNat_of_lt' (hcount.trans_lt hlen)
    simp only [List.append_assoc]
    obtain ⟨hmid,hrest,hlength⟩ := chunk_fields tagHead hid
      (putU32 size ++ (putU32 count ++ (putU32 0 ++ piece mtu payload 0)))
    have h8 : Bytes.midFrom (putU32 size ++ (putU32 count ++ (putU32 0 ++ piece mtu payload 0))) 8 =
        putU32 0 ++ piece mtu payload 0 := rfl
    have hdata : Bytes.midFrom (tagHead :: (id ++ (putU32 size ++ (putU32 count ++
        (putU32 0 ++ piece mtu payload 0))))) headHeader = piece mtu payload 0 := by
      rw [Bytes.midFrom,← List.drop_drop]
      exact (congrArg (List.drop 12) hrest).trans rfl
    rw [parse_head rfl (by rw [hlength]; simp; omega),hmid,hrest,hdata,h8,midFrom_putU32,
      getU32_putU32,getU32_putU32,getU32_putU32,hsize,hcounts,sent,if_pos hi,hi]
    rfl
  · rw [chunkAt,if_neg hi,bodyChunk]
    simp only [piece_body,List.append_assoc]
    obtain ⟨hmid,hrest,hlength⟩ := chunk_fields tagBody hid
      (putU32 (UInt32.ofNat i) ++ piece mtu payload i)
    have hdata : Bytes.midFrom (tagBody :: (id ++ (putU32 (UInt32.ofNat i) ++
        piece mtu payload i))) bodyHeader = piece mtu payload i := by
      rw [Bytes.midFrom,← List.drop_drop]
      exact (congrArg (List.drop 4) hrest).trans rfl
    rw [parse_body rfl (by rw [hlength]; simp),hmid,hrest,hdata,getU32_putU32,sent,if_neg hi]

/-- A plaintext that is too short, or carries another tag or another id. -/
def Foreign (id chunk : Bytes) : Prop :=
  chunk.length < 1+idBytes ∨ (chunk.getD 0 0 = tagHead ∧ chunk.length < headHeader) ∨
    (chunk.getD 0 0 = tagBody ∧ chunk.length < bodyHeader) ∨
    (chunk.getD 0 0 ≠ tagHead ∧ chunk.getD 0 0 ≠ tagBody) ∨ Bytes.mid chunk 1 idBytes ≠ id

theorem Foreign.id_ne {chunk : Bytes} (h : Foreign id chunk) {c : Chunk}
    (hc : parse chunk = some c) : c.id ≠ id := by
  have hbound : 1+idBytes ≤ bodyHeader ∧ bodyHeader ≤ headHeader := by decide
  unfold parse at hc
  split at hc
  · rename_i hhead
    cases hc
    rcases h with h | h | h | h | h
    · omega
    · omega
    · exact absurd (hhead.1.symm.trans h.1) (by decide)
    · exact absurd hhead.1 h.1
    · exact h
  split at hc
  · rename_i hbody
    cases hc
    rcases h with h | h | h | h | h
    · omega
    · exact absurd (hbody.1.symm.trans h.1) (by decide)
    · omega
    · exact absurd hbody.1 h.2
    · exact h
  · cases hc

structure Delivers (id : Bytes) (mtu : UInt32) (payload : Bytes) (chunks : List Bytes) : Prop where
  first : ∀ chunk ∈ chunks.head?, chunk = chunkAt id mtu payload 0
  rest : ∀ chunk ∈ chunks, chunk ∈ chunksOf id mtu payload ∨ Foreign id chunk

section
variable {chunks : List Bytes} (hid : id.length = idBytes) (hlen : payload.length < 2^32)
include hid hlen

theorem Delivers.lockedId (h : Delivers id mtu payload chunks) (hne : chunks ≠ []) :
    (parsed chunks).head? = some (sent id mtu payload 0) ∧
      Chunk.lockedId (parsed chunks) = some id := by
  cases chunks with
  | nil => exact absurd rfl hne
  | cons first rest =>
    have hparsed : parsed (first :: rest) = sent id mtu payload 0 :: parsed rest := by
      rw [parsed,List.filterMap_cons,h.first first rfl,parse_chunkAt hid hlen]; rfl
    rw [hparsed]
    exact ⟨rfl,rfl⟩

theorem Delivers.mem_accepted (h : Delivers id mtu payload chunks) {c : Chunk} :
    c ∈ accepted (parsed chunks) ↔ ∃ i < max (chunkCountOf (chunkSize mtu) payload) 1,
      c = sent id mtu payload i ∧ chunkAt id mtu payload i ∈ chunks := by
  rcases eq_or_ne chunks [] with rfl | hne
  · simp [parsed,accepted]
  obtain ⟨hhead,hlocked⟩ := h.lockedId hid hlen hne
  have hacc : c ∈ accepted (parsed chunks) ↔ c ∈ parsed chunks ∧ id = c.id := by
    have hdrop : (parsed chunks).dropWhile (·.head.isNone) = parsed chunks := by
      obtain ⟨rest,hrest⟩ := List.head?_eq_some_iff.mp hhead
      rw [hrest]; rfl
    simp [accepted,hdrop,hlocked]
  rw [hacc,parsed,List.mem_filterMap]
  constructor
  · rintro ⟨⟨chunk,hmem,hparse⟩,hc⟩
    obtain hchunk | hforeign := h.rest chunk hmem
    · obtain ⟨i,hi,rfl⟩ := mem_chunksOf.mp hchunk
      rw [parse_chunkAt hid hlen] at hparse
      exact ⟨i,hi,(Option.some.inj hparse).symm,hmem⟩
    · exact absurd hc.symm (hforeign.id_ne hparse)
  · rintro ⟨i,hi,rfl,hmem⟩
    exact ⟨⟨_,hmem,parse_chunkAt hid hlen i⟩,rfl⟩

omit hid in
theorem sent_idx {i j : Nat} (hi : i < max (chunkCountOf (chunkSize mtu) payload) 1)
    (hj : j < max (chunkCountOf (chunkSize mtu) payload) 1)
    (h : UInt32.ofNat i = UInt32.ofNat j) : i = j := by
  have hcount := (chunkCountOf_bounds (chunkSize_pos mtu) payload).2
  have hi' : i < 2^32 := by omega
  have hj' : j < 2^32 := by omega
  have hval := congrArg UInt32.toNat h
  rwa [UInt32.toNat_ofNat_of_lt' hi',UInt32.toNat_ofNat_of_lt' hj'] at hval

theorem Delivers.counts (h : Delivers id mtu payload chunks) {r : Resource}
    (hr : Reflects (parsed chunks) r) (hne : chunks ≠ []) :
    r.totalSize = payload.length ∧ r.chunkCount = chunkCountOf (chunkSize mtu) payload := by
  have hlocked : (Chunk.lockedId (parsed chunks)).isSome := by
    rw [(h.lockedId hid hlen hne).2]; rfl
  obtain ⟨head,hhead⟩ := Option.isSome_iff_exists.mp (lastHead_isSome hlocked)
  obtain ⟨c,hc,hc'⟩ := lastHead_mem hhead
  obtain ⟨i,-,rfl,-⟩ := (h.mem_accepted hid hlen).mp hc
  have hr' := hr.head
  rw [hhead] at hr'
  simp only [sent] at hc'
  split at hc'
  · cases hc'
    exact Prod.ext_iff.mp hr'
  · cases hc'

theorem Delivers.lookup (h : Delivers id mtu payload chunks) {r : Resource}
    (hr : Reflects (parsed chunks) r) {idx : UInt32} {data : Bytes} :
    r.chunks.lookup idx = some data ↔ ∃ i < max (chunkCountOf (chunkSize mtu) payload) 1,
      idx = UInt32.ofNat i ∧ data = piece mtu payload i ∧ chunkAt id mtu payload i ∈ chunks := by
  rw [hr.chunks]
  constructor
  · intro hd
    obtain ⟨c,hc,rfl,rfl⟩ := latest_mem hd
    obtain ⟨i,hi,rfl,hmem⟩ := (h.mem_accepted hid hlen).mp hc
    exact ⟨i,hi,rfl,rfl,hmem⟩
  · rintro ⟨i,hi,rfl,rfl,hmem⟩
    have hc := (h.mem_accepted hid hlen).mpr ⟨i,hi,rfl,hmem⟩
    obtain ⟨data,hd⟩ := Option.isSome_iff_exists.mp (latest_isSome hc)
    obtain ⟨d,hd',hidx,rfl⟩ := latest_mem hd
    obtain ⟨j,hj,rfl,-⟩ := (h.mem_accepted hid hlen).mp hd'
    rw [sent_idx hlen hj hi hidx] at hd
    exact hd

theorem Delivers.keys_card (h : Delivers id mtu payload chunks) {r : Resource}
    (hr : Reflects (parsed chunks) r) (hpos : 0 < chunkCountOf (chunkSize mtu) payload) :
    r.chunks.keys.card = chunkCountOf (chunkSize mtu) payload ↔
      ∀ chunk ∈ chunksOf id mtu payload, chunk ∈ chunks := by
  have hmax : max (chunkCountOf (chunkSize mtu) payload) 1 =
      chunkCountOf (chunkSize mtu) payload := by omega
  have hkeys : r.chunks.keys = ((Finset.range (chunkCountOf (chunkSize mtu) payload)).filter
      fun i => chunkAt id mtu payload i ∈ chunks).image UInt32.ofNat := by
    ext idx
    rw [Finmap.mem_keys,Finmap.mem_iff]
    simp only [h.lookup hid hlen hr,hmax,Finset.mem_image,Finset.mem_filter,Finset.mem_range]
    constructor
    · rintro ⟨-,i,hi,rfl,rfl,hmem⟩
      exact ⟨i,⟨hi,hmem⟩,rfl⟩
    · rintro ⟨i,⟨hi,hmem⟩,rfl⟩
      exact ⟨_,i,hi,rfl,rfl,hmem⟩
  have hinj : Set.InjOn UInt32.ofNat ((Finset.range (chunkCountOf (chunkSize mtu) payload)).filter
      fun i => chunkAt id mtu payload i ∈ chunks) := by
    intro i hi j hj hij
    rw [Finset.mem_coe,Finset.mem_filter,Finset.mem_range] at hi hj
    exact sent_idx hlen (by rw [hmax]; exact hi.1) (by rw [hmax]; exact hj.1) hij
  have hall := Finset.card_filter_eq_iff (s := Finset.range (chunkCountOf (chunkSize mtu) payload))
    (p := fun i => chunkAt id mtu payload i ∈ chunks)
  rw [Finset.card_range] at hall
  rw [hkeys,Finset.card_image_of_injOn hinj,hall]
  simp only [Finset.mem_range,mem_chunksOf,hmax]
  exact ⟨fun h => by rintro - ⟨i,hi,rfl⟩; exact h i hi,fun h i hi => h _ ⟨i,hi,rfl⟩⟩

/-- Accepting a chunk completes the payload when every chunk is there, and not before. -/
theorem Delivers.accept (h : Delivers id mtu payload chunks) {r : Resource}
    (hr : Reflects (parsed chunks) r) (hne : chunks ≠ []) :
    if ∀ chunk ∈ chunksOf id mtu payload, chunk ∈ chunks then
      r.accept.1.status = .complete ∧
        completions r.accept.2 = r.onComplete.toList.map fun _ => payload
    else r.accept.1 = r ∧ completions r.accept.2 = [] := by
  obtain ⟨htotal,hcount⟩ := h.counts hid hlen hr hne
  simp only [Resource.accept,completions_append,completions_tellProgress,List.nil_append,finish,
    hcount,htotal]
  rcases Nat.eq_zero_or_pos (chunkCountOf (chunkSize mtu) payload) with hzero | hpos
  · have hnil : payload = [] := by
      have := (chunkCountOf_bounds (chunkSize_pos mtu) payload).1
      rw [hzero,Nat.zero_mul] at this
      exact List.length_eq_zero_iff.mp (Nat.le_zero.mp this)
    have hall : ∀ chunk ∈ chunksOf id mtu payload, chunk ∈ chunks := by
      rw [chunksOf_eq,hzero]
      cases chunks with
      | nil => exact absurd rfl hne
      | cons first rest => simp [h.first first rfl]
    rw [if_pos hall,if_neg (by omega),if_pos ⟨hzero,by rw [hnil]; rfl⟩]
    subst hnil
    exact ⟨rfl,completions_tellComplete [] r⟩
  · have hcard := h.keys_card hid hlen hr hpos
    split
    · rename_i hall
      have hass : r.assembled = some payload := by
        refine assembled_eq_some.mpr ⟨(List.range r.chunkCount).map (piece mtu payload),?_,?_⟩
        · rw [List.map_map]
          apply List.map_congr_left
          intro i hi
          rw [List.mem_range,hcount] at hi
          have hi' : i < max (chunkCountOf (chunkSize mtu) payload) 1 := by omega
          exact (h.lookup hid hlen hr).mpr
            ⟨i,hi',rfl,rfl,hall _ (mem_chunksOf.mpr ⟨i,hi',rfl⟩)⟩
        · rw [hcount,flatten_piece]
      rw [if_pos ⟨hpos,hcard.mpr hall⟩,hass]
      simp
    · rename_i hmissing
      rw [if_neg (fun h' => hmissing (hcard.mp h'.2)),if_neg (by omega)]
      exact ⟨rfl,rfl⟩

def Completed (cb : Nat) (id : Bytes) (mtu : UInt32) (payload : Bytes) (chunks : List Bytes)
    (x : Resource × List Call) : Prop :=
  if ∀ chunk ∈ chunksOf id mtu payload, chunk ∈ chunks then
    x.1.status = .complete ∧ completions x.2 = [payload]
  else x.1.status = .receiving ∧ x.1.onComplete = some cb ∧ Reflects (parsed chunks) x.1 ∧
    completions x.2 = []

theorem Completed.step {cb : Nat} {x : Resource × List Call}
    (hx : Completed cb id mtu payload chunks x) {chunk : Bytes}
    (h : Delivers id mtu payload chunks) (h' : Delivers id mtu payload (chunks ++ [chunk])) :
    Completed cb id mtu payload (chunks ++ [chunk])
      ((x.1.onChunk chunk).1,x.2 ++ (x.1.onChunk chunk).2) := by
  by_cases hall : ∀ chunk ∈ chunksOf id mtu payload, chunk ∈ chunks
  · rw [Completed,if_pos hall] at hx
    rw [Completed,if_pos fun c hc => List.mem_append_left _ (hall c hc),onChunk_done (.inl hx.1)]
    exact ⟨hx.1,by simpa using hx.2⟩
  rw [Completed,if_neg hall] at hx
  obtain ⟨hr,hcb,href,hnone⟩ := hx
  obtain ⟨hacc,hon,href'⟩ | ⟨c,-,-,hon,href'⟩ := href.onChunk hr chunk
  · have hmissing : ¬ ∀ c ∈ chunksOf id mtu payload, c ∈ chunks ++ [chunk] := by
      refine fun hall' => hall fun c hc => ?_
      obtain ⟨i,hi,rfl⟩ := mem_chunksOf.mp hc
      have hmem := (h'.mem_accepted hid hlen).mpr ⟨i,hi,rfl,hall' _ hc⟩
      rw [hacc] at hmem
      obtain ⟨j,hj,hij,hmem⟩ := (h.mem_accepted hid hlen).mp hmem
      rwa [← sent_idx hlen hi hj (congrArg Chunk.idx hij)] at hmem
    rw [Completed,if_neg hmissing,hon]
    exact ⟨hr,hcb,href',by simpa using hnone⟩
  · have haccept := h'.accept hid hlen href' (by simp)
    have hcb' : (x.1.put c).onComplete = some cb := hcb
    rw [Completed,hon]
    split
    · rename_i hall'
      rw [if_pos hall'] at haccept
      exact ⟨haccept.1,by simp [hnone,haccept.2,hcb']⟩
    · rename_i hmissing
      rw [if_neg hmissing] at haccept
      rw [haccept.1]
      exact ⟨hr,hcb,href',by simp [hnone,haccept.2]⟩

theorem Delivers.completed (cb : Nat) (onProgress : Option Nat)
    (h : Delivers id mtu payload chunks) :
    Completed cb id mtu payload chunks ((receive (some cb) onProgress).feed chunks) := by
  induction chunks using List.reverseRecOn with
  | nil =>
    have hfirst : chunkAt id mtu payload 0 ∈ chunksOf id mtu payload := by
      rw [chunksOf_eq]; exact List.mem_cons_self
    rw [Completed,if_neg fun hall => nomatch hall _ hfirst]
    exact ⟨rfl,rfl,reflects_receive _ _,rfl⟩
  | append_singleton chunks chunk ih =>
    have hinit : Delivers id mtu payload chunks :=
      ⟨fun c hc => h.first c (by cases chunks <;> simp_all),
        fun c hc => h.rest c (List.mem_append_left _ hc)⟩
    rw [feed_concat]
    exact (ih hinit).step hid hlen hinit h

end

/-- A transfer that starts with the head completes with its last missing chunk. -/
theorem transfer_completes (hid : id.length = idBytes) (hlen : payload.length < 2^32)
    {head : Bytes} {tail rest : List Bytes} (hchunks : chunksOf id mtu payload = head :: tail)
    (hall : ∀ chunk ∈ tail, chunk ∈ rest)
    (hrest : ∀ chunk ∈ rest, chunk ∈ chunksOf id mtu payload ∨ Foreign id chunk)
    (cb : Nat) (onProgress : Option Nat) :
    let x := (receive (some cb) onProgress).feed (head :: rest)
    x.1.status = .complete ∧ completions x.2 = [payload] ∧
      ∀ before after, head :: rest = before ++ after →
        completions ((receive (some cb) onProgress).feed before).2 =
          if ∀ chunk ∈ chunksOf id mtu payload, chunk ∈ before then [payload] else [] := by
  intro x
  have hhead : head = chunkAt id mtu payload 0 := by
    rw [chunksOf_eq] at hchunks
    exact (List.cons.inj hchunks).1.symm
  have hdelivers : Delivers id mtu payload (head :: rest) := by
    refine ⟨fun c hc => (Option.some.inj hc).symm.trans hhead,fun chunk hmem => ?_⟩
    rcases List.mem_cons.mp hmem with rfl | hmem
    · rw [hchunks]; exact .inl List.mem_cons_self
    · exact hrest chunk hmem
  have hx := hdelivers.completed hid hlen cb onProgress
  rw [Completed,if_pos] at hx
  · refine ⟨hx.1,hx.2,fun before after heq => ?_⟩
    have hbefore : Delivers id mtu payload before := by
      refine ⟨fun c hc => hdelivers.first c ?_,fun c hc => hdelivers.rest c ?_⟩
      · rw [heq,List.head?_append]
        simp [Option.mem_def.mp hc]
      · rw [heq]; exact List.mem_append_left _ hc
    have hcompleted := hbefore.completed hid hlen cb onProgress
    rw [Completed] at hcompleted
    split at hcompleted
    · rename_i h
      rw [if_pos h]; exact hcompleted.2
    · rename_i h
      rw [if_neg h]; exact hcompleted.2.2.2
  · rw [hchunks]
    intro chunk hmem
    rcases List.mem_cons.mp hmem with rfl | hmem
    · exact List.mem_cons_self
    · exact List.mem_cons_of_mem _ (hall chunk hmem)

theorem transfer_completes_sample :
    let id := List.replicate 16 7
    let body := bodyChunk id 2 [1,2,3,4,5]
    let x := (receive (some 0) none).feed
      (headChunk id 2 [1,2,3,4,5] :: [[tagBody],body 2,body 2,body 1])
    x.1.status = .complete ∧ completions x.2 = [[1,2,3,4,5]] := by
  intro id body x
  have h := @transfer_completes id [1,2,3,4,5] 102 rfl (by decide) (headChunk id 2 [1,2,3,4,5])
    [body 1,body 2] [[tagBody],body 2,body 2,body 1] (by decide) (by decide) (fun chunk hchunk => by
      rcases List.mem_cons.mp hchunk with rfl | hchunk
      · exact .inr (.inl (by decide))
      · refine .inl ?_
        revert chunk
        decide) 0 none
  exact ⟨h.1,h.2.1⟩

theorem feed_bodies (hid : id.length = idBytes) (hlen : payload.length < 2^32)
    {before : List Bytes} (cb : Nat) (onProgress : Option Nat)
    (h : ∀ chunk ∈ before, chunk ∈ chunksOf id mtu payload ∧ chunk ≠ chunkAt id mtu payload 0) :
    (receive (some cb) onProgress).feed before = (receive (some cb) onProgress,[]) := by
  induction before with
  | nil => rfl
  | cons chunk before ih =>
    obtain ⟨hmem,hne⟩ := h chunk List.mem_cons_self
    obtain ⟨i,hi,rfl⟩ := mem_chunksOf.mp hmem
    have hi0 : i ≠ 0 := by rintro rfl; exact hne rfl
    have hon : (receive (some cb) onProgress).onChunk (chunkAt id mtu payload i) =
        (receive (some cb) onProgress,[]) := by
      rw [onChunk_eq rfl,parse_chunkAt hid hlen]
      refine if_neg ?_
      rintro (hnil | ⟨-,hhead⟩)
      · have : id = [] := hnil.symm
        rw [this] at hid
        cases hid
      · simp [sent,hi0] at hhead
    rw [feed,hon,ih fun c hc => h c (List.mem_cons_of_mem _ hc)]
    rfl

/-- Chunks in any order, each at least once: the payload is completed if and only if each
body chunk comes at least once after the head. -/
theorem transfer_completes_iff (hid : id.length = idBytes) (hlen : payload.length < 2^32)
    {head : Bytes} {tail chunks : List Bytes} (hchunks : chunksOf id mtu payload = head :: tail)
    (hmem : ∀ chunk, chunk ∈ chunks ↔ chunk ∈ head :: tail) (cb : Nat) (onProgress : Option Nat) :
    completions ((receive (some cb) onProgress).feed chunks).2 = [payload] ↔
      ∀ chunk ∈ tail, chunk ∈ chunks.dropWhile (· ≠ head) := by
  have hhead : head = chunkAt id mtu payload 0 := by
    rw [chunksOf_eq] at hchunks
    exact (List.cons.inj hchunks).1.symm
  rw [← hchunks] at hmem
  obtain ⟨before,rest,rfl,hbefore⟩ := List.eq_append_cons_of_mem
    ((hmem head).mpr (by rw [hchunks]; exact List.mem_cons_self))
  have hdrop : (before ++ head :: rest).dropWhile (· ≠ head) = head :: rest := by
    rw [List.dropWhile_append_of_pos]
    · simp
    · intro c hc
      simpa using fun h : c = head => hbefore (h ▸ hc)
  have hbodies := feed_bodies hid hlen cb onProgress fun c hc =>
    ⟨(hmem c).mp (List.mem_append_left _ hc),fun h => hbefore (hhead.trans h.symm ▸ hc)⟩
  have hdelivers : Delivers id mtu payload (head :: rest) :=
    ⟨fun c hc => (Option.some.inj hc).symm.trans hhead,fun c hc =>
      .inl ((hmem c).mp (List.mem_append_right _ hc))⟩
  have hx := hdelivers.completed hid hlen cb onProgress
  have hall : (∀ chunk ∈ chunksOf id mtu payload, chunk ∈ head :: rest) ↔
      ∀ chunk ∈ tail, chunk ∈ head :: rest := by
    rw [hchunks,List.forall_mem_cons]
    exact and_iff_right List.mem_cons_self
  rw [hdrop,feed_append,hbodies,List.nil_append,← hall]
  rw [Completed] at hx
  split at hx
  · exact iff_of_true hx.2 ‹_›
  · rename_i h
    rw [hx.2.2.2]
    exact iff_of_false (fun h => nomatch h) h

theorem transfer_completes_iff_sample :
    let id := List.replicate 16 7
    let head := headChunk id 2 [1,2,3]
    let body := bodyChunk id 2 [1,2,3] 1
    completions ((receive (some 0) none).feed [body,head,body]).2 = [[1,2,3]] ↔
      ∀ chunk ∈ [body], chunk ∈ [body,head,body].dropWhile (· ≠ head) := by
  intro id head body
  exact @transfer_completes_iff id [1,2,3] 102 rfl (by decide) head [body] [body,head,body]
    (by decide) (fun chunk => by simp; tauto) 0 none

/-- The body of two chunks comes first and is lost. -/
theorem body_lost :
    let payload : Bytes := List.replicate 257 0
    let chunks := chunksOf (List.replicate 16 7) 500 payload
    chunks.length = 2 ∧ (∀ chunk ∈ chunks, chunk ∈ chunks.reverse) ∧
      completions ((receive (some 0) none).feed chunks.reverse).2 ≠ [payload] := by
  decide +kernel

end

end Resource

end RNS
