import RTReticulum.Transfers

/-! What a receiver reports of its progress, next to the chunks it was given. -/
set_option autoImplicit false

namespace RNS
namespace Resource
open Chunk

def Call.report? : Call → Option (Nat × Nat)
  | .progress _ bytesReceived totalBytes => some (bytesReceived,totalBytes)
  | .complete _ _ => none

def reports (calls : List Call) : List (Nat × Nat) := calls.filterMap Call.report?

def chunkBytes (chunk : Bytes) : Nat := (parse chunk).elim 0 fun c => c.data.length

/-- The total size of the chunks, each counted once. -/
def distinctBytes (chunks : List Bytes) : Nat := ∑ chunk ∈ chunks.toFinset, chunkBytes chunk

/-- Every report is the size of the distinct chunks so far, no report is less than one before,
and none exceeds the total. -/
structure Accurate (onComplete : Option Nat) (cb : Nat) (deliveries : List Bytes) : Prop where
  distinct : ∀ before chunk after, deliveries = before ++ chunk :: after →
    ∀ x ∈ reports (((receive onComplete (some cb)).feed before).1.onChunk chunk).2,
      x.1 = distinctBytes (before ++ [chunk])
  increasing : (reports ((receive onComplete (some cb)).feed deliveries).2).Pairwise
    fun x y => x.1 ≤ y.1
  bounded : ∀ x ∈ reports ((receive onComplete (some cb)).feed deliveries).2, x.1 ≤ x.2

def Unrepeated (chunks deliveries : List Bytes) : Prop :=
  ∀ before chunk after, deliveries = before ++ chunk :: after → chunk ∈ before →
    ∀ c ∈ chunks, c ∈ before

@[simp] theorem reports_append (xs ys : List Call) :
    reports (xs ++ ys) = reports xs ++ reports ys := List.filterMap_append

theorem reports_finish (r : Resource) : reports r.finish.2 = [] := by
  have hdone (payload : Bytes) : reports (r.tellComplete payload) = [] := by
    unfold tellComplete
    split <;> rfl
  unfold finish
  split
  · split
    · rfl
    · split
      · rfl
      · exact hdone _
  split
  · exact hdone _
  · rfl

theorem reports_accept {r : Resource} {cb : Nat} (h : r.onProgress = some cb) :
    reports r.accept.2 = [(r.bytesReceived,r.totalSize)] := by
  rw [accept,reports_append,reports_finish,tellProgress,h]
  rfl

section
variable {id payload : Bytes} {mtu : UInt32} {chunks : List Bytes}

structure Chunks (id : Bytes) (mtu : UInt32) (payload : Bytes) (chunks : List Bytes) : Prop where
  first : ∀ chunk ∈ chunks.head?, chunk = chunkAt id mtu payload 0
  rest : ∀ chunk ∈ chunks, chunk ∈ chunksOf id mtu payload

theorem Chunks.delivers (h : Chunks id mtu payload chunks) : Delivers id mtu payload chunks :=
  ⟨h.first,fun chunk hchunk => .inl (h.rest chunk hchunk)⟩

theorem Chunks.of_append {rest : List Bytes} (h : Chunks id mtu payload (chunks ++ rest)) :
    Chunks id mtu payload chunks :=
  ⟨fun c hc => h.first c (by cases chunks <;> simp_all),
    fun c hc => h.rest c (List.mem_append_left _ hc)⟩

theorem Chunks.upTo {chunk : Bytes} {after : List Bytes}
    (h : Chunks id mtu payload (chunks ++ chunk :: after)) :
    Chunks id mtu payload (chunks ++ [chunk]) := by
  rw [← List.singleton_append,← List.append_assoc] at h
  exact h.of_append

structure Counts (cb : Nat) (id : Bytes) (mtu : UInt32) (payload : Bytes) (chunks : List Bytes)
    (r : Resource) : Prop where
  done : (∀ chunk ∈ chunksOf id mtu payload, chunk ∈ chunks) → r.Done
  counting : (¬ ∀ chunk ∈ chunksOf id mtu payload, chunk ∈ chunks) →
    r.status = .receiving ∧ r.onProgress = some cb ∧ Reflects (parsed chunks) r ∧
      r.bytesReceived = (chunks.map chunkBytes).sum

variable (hid : id.length = idBytes) (hlen : payload.length < 2^32)
include hid hlen

theorem chunkBytes_chunkAt (i : Nat) :
    chunkBytes (chunkAt id mtu payload i) = (piece mtu payload i).length := by
  rw [chunkBytes,parse_chunkAt hid hlen]
  rfl

theorem Counts.step {cb : Nat} {r : Resource} (hr : Counts cb id mtu payload chunks r)
    {chunk : Bytes} (h : Chunks id mtu payload (chunks ++ [chunk])) :
    Counts cb id mtu payload (chunks ++ [chunk]) (r.onChunk chunk).1 ∧
      reports (r.onChunk chunk).2 =
        if ∀ chunk ∈ chunksOf id mtu payload, chunk ∈ chunks then []
        else [(((chunks ++ [chunk]).map chunkBytes).sum,payload.length)] := by
  by_cases hall : ∀ chunk ∈ chunksOf id mtu payload, chunk ∈ chunks
  · have hdone := hr.done hall
    rw [onChunk_done hdone,if_pos hall]
    refine ⟨⟨fun _ => hdone,fun hmissing => absurd (fun c hc => ?_) hmissing⟩,rfl⟩
    exact List.mem_append_left _ (hall c hc)
  obtain ⟨hstatus,hcb,href,hsum⟩ := hr.counting hall
  obtain ⟨i,hi,rfl⟩ := mem_chunksOf.mp (h.rest chunk (by simp))
  have hparse : parse (chunkAt id mtu payload i) = some (sent id mtu payload i) :=
    parse_chunkAt hid hlen i
  have hparsed : parsed (chunks ++ [chunkAt id mtu payload i]) =
      parsed chunks ++ [sent id mtu payload i] := by
    rw [parsed_concat,hparse]; rfl
  have hlocked := (h.delivers.lockedId hid hlen (by simp)).2
  rw [hparsed] at hlocked
  have htakes := (href.takes (sent id mtu payload i) (parse_id_ne_nil hparse)).mpr hlocked
  have hon : r.onChunk (chunkAt id mtu payload i) = (r.put (sent id mtu payload i)).accept := by
    rw [onChunk_eq hstatus,hparse]
    exact if_pos htakes
  have href' := (href.put _ (parse_id_ne_nil hparse) htakes).2
  rw [← hparsed] at href'
  have hcb' : (r.put (sent id mtu payload i)).onProgress = some cb := hcb
  have hsum' : (r.put (sent id mtu payload i)).bytesReceived =
      ((chunks ++ [chunkAt id mtu payload i]).map chunkBytes).sum := by
    rw [List.map_append,List.sum_append,← hsum]
    simp [chunkBytes_chunkAt hid hlen,put,store,sent]
  have haccept := h.delivers.accept hid hlen href' (by simp)
  have htotal := (h.delivers.counts hid hlen href' (by simp)).1
  rw [hon,reports_accept hcb',hsum',htotal,if_neg hall]
  refine ⟨⟨fun hall' => ?_,fun hmissing => ?_⟩,rfl⟩
  · rw [if_pos hall'] at haccept
    exact .inl haccept.1
  · rw [if_neg hmissing] at haccept
    rw [haccept.1]
    exact ⟨hstatus,hcb',href',hsum'⟩

theorem Chunks.counts (onComplete : Option Nat) (cb : Nat) (h : Chunks id mtu payload chunks) :
    Counts cb id mtu payload chunks ((receive onComplete (some cb)).feed chunks).1 := by
  induction chunks using List.reverseRecOn with
  | nil =>
    have hfirst : chunkAt id mtu payload 0 ∈ chunksOf id mtu payload := by
      rw [chunksOf_eq]; exact List.mem_cons_self
    exact ⟨fun hall => absurd (hall _ hfirst) List.not_mem_nil,
      fun _ => ⟨rfl,rfl,reflects_receive _ _,rfl⟩⟩
  | append_singleton chunks chunk ih =>
    rw [feed_concat]
    exact ((ih h.of_append).step hid hlen h).1

/-- The reports so far: none exceeds what has come, each is what had come with one of the
deliveries that began when a chunk was still missing. -/
theorem Chunks.reports_feed (onComplete : Option Nat) (cb : Nat)
    (h : Chunks id mtu payload chunks) :
    (∀ x ∈ reports ((receive onComplete (some cb)).feed chunks).2,
      x.1 ≤ (chunks.map chunkBytes).sum ∧ x.2 = payload.length ∧
        ∃ before chunk after, chunks = before ++ chunk :: after ∧
          (¬ ∀ c ∈ chunksOf id mtu payload, c ∈ before) ∧
          x.1 = ((before ++ [chunk]).map chunkBytes).sum) ∧
    (reports ((receive onComplete (some cb)).feed chunks).2).Pairwise fun x y => x.1 ≤ y.1 := by
  induction chunks using List.reverseRecOn with
  | nil => exact ⟨fun x hx => absurd hx List.not_mem_nil,.nil⟩
  | append_singleton chunks chunk ih =>
    obtain ⟨ih,hpairs⟩ := ih h.of_append
    have hstep := ((h.of_append.counts hid hlen onComplete cb).step hid hlen h).2
    have hle : (chunks.map chunkBytes).sum ≤ ((chunks ++ [chunk]).map chunkBytes).sum := by simp
    rw [feed_concat,reports_append,hstep]
    split
    · rw [List.append_nil]
      refine ⟨fun x hx => ?_,hpairs⟩
      obtain ⟨hx1,hx2,before,c,after,rfl,hx3⟩ := ih x hx
      exact ⟨hx1.trans hle,hx2,before,c,after ++ [chunk],by simp,hx3⟩
    · rename_i hmissing
      refine ⟨fun x hx => ?_,List.pairwise_append.mpr ⟨hpairs,List.pairwise_singleton _ _,
        fun x hx y hy => ?_⟩⟩
      · rcases List.mem_append.mp hx with hx | hx
        · obtain ⟨hx1,hx2,before,c,after,rfl,hx3⟩ := ih x hx
          exact ⟨hx1.trans hle,hx2,before,c,after ++ [chunk],by simp,hx3⟩
        · rw [List.mem_singleton.mp hx]
          exact ⟨le_rfl,rfl,chunks,chunk,[],rfl,hmissing,rfl⟩
      · rw [List.mem_singleton.mp hy]
        exact (ih x hx).1.trans hle

theorem sum_chunkBytes : ((chunksOf id mtu payload).map chunkBytes).sum = payload.length := by
  have hchunks : (chunksOf id mtu payload).map chunkBytes =
      (List.range (max (chunkCountOf (chunkSize mtu) payload) 1)).map fun i =>
        (piece mtu payload i).length := by
    obtain ⟨k,hk⟩ : ∃ k, max (chunkCountOf (chunkSize mtu) payload) 1 = k+1 :=
      ⟨chunkCountOf (chunkSize mtu) payload - 1,by omega⟩
    rw [chunksOf_eq,show chunkCountOf (chunkSize mtu) payload - 1 = k by omega,hk,
      List.range_eq_range',List.range'_succ]
    simp [chunkBytes_chunkAt hid hlen]
  have hflat := congrArg List.length (flatten_piece mtu payload)
  rw [List.length_flatten,List.map_map] at hflat
  rw [hchunks]
  rcases Nat.eq_zero_or_pos (chunkCountOf (chunkSize mtu) payload) with hzero | hpos
  · rw [hzero] at hflat ⊢
    have hnil : payload = [] := List.length_eq_zero_iff.mp hflat.symm
    simp [hnil,piece,Bytes.mid]
  · rw [max_eq_left hpos]
    exact hflat

theorem chunkBytes_pos {i : Nat} (hi : i < chunkCountOf (chunkSize mtu) payload) :
    0 < chunkBytes (chunkAt id mtu payload i) := by
  have hsize := chunkSize_pos mtu
  have hlt : i*chunkSize mtu < payload.length := by
    unfold chunkCountOf at hi
    split at hi
    · omega
    · have hle := (Nat.le_div_iff_mul_le hsize).mp (Nat.succ_le_of_lt hi)
      rw [Nat.succ_mul] at hle
      omega
  rw [chunkBytes_chunkAt hid hlen,piece,Bytes.mid,List.length_take,List.length_drop]
  omega

omit hid hlen in
theorem distinctBytes_of_nodup (h : chunks.Nodup) :
    distinctBytes chunks = (chunks.map chunkBytes).sum := List.sum_toFinset _ h

omit hid hlen in
theorem distinctBytes_le_sum (chunks : List Bytes) :
    distinctBytes chunks ≤ (chunks.map chunkBytes).sum := by
  induction chunks with
  | nil => exact le_rfl
  | cons chunk chunks ih =>
    rw [distinctBytes] at ih
    rw [distinctBytes,List.toFinset_cons,List.map_cons,List.sum_cons]
    by_cases h : chunk ∈ chunks.toFinset
    · rw [Finset.insert_eq_of_mem h]
      omega
    · rw [Finset.sum_insert h]
      omega

theorem Chunks.distinctBytes_le (h : Chunks id mtu payload chunks) :
    distinctBytes chunks ≤ payload.length := by
  have hsub : chunks.toFinset ⊆ (chunksOf id mtu payload).toFinset := fun c hc =>
    List.mem_toFinset.mpr (h.rest c (List.mem_toFinset.mp hc))
  calc distinctBytes chunks ≤ distinctBytes (chunksOf id mtu payload) :=
        Finset.sum_le_sum_of_subset hsub
    _ ≤ ((chunksOf id mtu payload).map chunkBytes).sum := distinctBytes_le_sum _
    _ = payload.length := sum_chunkBytes hid hlen

omit hid hlen in
theorem Unrepeated.nodup {sent before after : List Bytes} (h : Unrepeated sent chunks)
    {chunk : Bytes} (heq : chunks = before ++ chunk :: after)
    (hmissing : ¬ ∀ c ∈ sent, c ∈ before) : (before ++ [chunk]).Nodup := by
  induction before using List.reverseRecOn generalizing chunk after with
  | nil => simp
  | append_singleton before c ih =>
    have happ : chunks = before ++ c :: (chunk :: after) := by simp [heq]
    have hbefore : (before ++ [c]).Nodup := ih happ fun hall =>
      hmissing fun c hc => List.mem_append_left _ (hall c hc)
    have hchunk : chunk ∉ before ++ [c] := fun hmem => hmissing (h _ _ _ heq hmem)
    rw [← List.concat_eq_append]
    exact hbefore.concat hchunk

/-- A chunk that comes again while another is missing is counted again. -/
theorem Chunks.overcounts {before after : List Bytes} {chunk : Bytes}
    (h : Chunks id mtu payload (before ++ chunk :: after)) (hmem : chunk ∈ before)
    (hmissing : ¬ ∀ c ∈ chunksOf id mtu payload, c ∈ before) :
    distinctBytes (before ++ [chunk]) < ((before ++ [chunk]).map chunkBytes).sum := by
  obtain ⟨i,hi,hchunk⟩ := mem_chunksOf.mp (h.rest chunk (by simp))
  have hcount : i < chunkCountOf (chunkSize mtu) payload := by
    by_contra hge
    -- an empty payload has one chunk, which is no longer missing
    refine hmissing fun c hc => ?_
    obtain ⟨j,hj,rfl⟩ := mem_chunksOf.mp hc
    have hij : i = j := by omega
    rwa [← hij,← hchunk]
  have hpos : 0 < chunkBytes (chunkAt id mtu payload i) := chunkBytes_pos hid hlen hcount
  have hsame : distinctBytes (before ++ [chunk]) = distinctBytes before := by
    simp [distinctBytes,hmem]
  have hle := distinctBytes_le_sum before
  rw [hsame,List.map_append,List.sum_append,hchunk]
  simp only [List.map_cons,List.map_nil,List.sum_singleton]
  omega

end

/-- The counter is what the callback promises if and only if no chunk comes again before each
has come. -/
theorem reports_accurate_iff {id payload : Bytes} {mtu : UInt32} (hid : id.length = idBytes)
    (hlen : payload.length < 2^32) {head : Bytes} {tail rest : List Bytes}
    (hchunks : chunksOf id mtu payload = head :: tail)
    (hrest : ∀ chunk ∈ rest, chunk ∈ head :: tail) (onComplete : Option Nat) (cb : Nat) :
    Accurate onComplete cb (head :: rest) ↔ Unrepeated (head :: tail) (head :: rest) := by
  have hhead : head = chunkAt id mtu payload 0 := by
    rw [chunksOf_eq] at hchunks
    exact (List.cons.inj hchunks).1.symm
  have h : Chunks id mtu payload (head :: rest) := by
    refine ⟨fun c hc => (Option.some.inj hc).symm.trans hhead,fun chunk hmem => ?_⟩
    rw [hchunks]
    rcases List.mem_cons.mp hmem with rfl | hmem
    · exact List.mem_cons_self
    · exact hrest chunk hmem
  have hstep : ∀ before chunk after, head :: rest = before ++ chunk :: after →
      reports (((receive onComplete (some cb)).feed before).1.onChunk chunk).2 =
        if ∀ chunk ∈ head :: tail, chunk ∈ before then []
        else [(((before ++ [chunk]).map chunkBytes).sum,payload.length)] := by
    intro before chunk after heq
    have h' : Chunks id mtu payload (before ++ [chunk]) := by
      rw [heq] at h
      exact h.upTo
    rw [← hchunks]
    exact ((h'.of_append.counts hid hlen onComplete cb).step hid hlen h').2
  constructor
  · intro hacc before chunk after heq hmem
    by_contra hmissing
    have hdistinct := hacc.distinct before chunk after heq
    rw [hstep before chunk after heq,if_neg hmissing] at hdistinct
    rw [← hchunks] at hmissing
    rw [heq] at h
    exact absurd (hdistinct _ (List.mem_singleton_self _))
      (Nat.ne_of_gt (h.overcounts hid hlen hmem hmissing))
  · intro hunrep
    obtain ⟨hreports,hpairs⟩ := h.reports_feed hid hlen onComplete cb
    refine ⟨fun before chunk after heq x hx => ?_,hpairs,fun x hx => ?_⟩
    · rw [hstep before chunk after heq] at hx
      split at hx
      · cases hx
      · rename_i hmissing
        rw [List.mem_singleton.mp hx]
        exact (distinctBytes_of_nodup (hunrep.nodup heq hmissing)).symm
    · obtain ⟨-,htotal,before,chunk,after,heq,hmissing,hsum⟩ := hreports x hx
      rw [hchunks] at hmissing
      have h' : Chunks id mtu payload (before ++ [chunk]) := by
        rw [heq] at h
        exact h.upTo
      rw [htotal,hsum,← distinctBytes_of_nodup (hunrep.nodup heq hmissing)]
      exact h'.distinctBytes_le hid hlen

theorem reports_accurate_iff_sample :
    let id := List.replicate 16 7
    let head := headChunk id 2 [1,2,3,4,5]
    let body := bodyChunk id 2 [1,2,3,4,5]
    Accurate none 0 [head,body 2,body 1,body 1] ↔
      Unrepeated [head,body 1,body 2] [head,body 2,body 1,body 1] := by
  intro id head body
  exact @reports_accurate_iff id [1,2,3,4,5] 102 rfl (by decide) head [body 1,body 2]
    [body 2,body 1,body 1] (by decide) (by decide) none 0

/-- The head of two chunks comes twice: 512 bytes of 257 are reported. -/
theorem head_counted_twice :
    let payload : Bytes := List.replicate 257 0
    let head := headChunk (List.replicate 16 7) 256 payload
    (chunksOf (List.replicate 16 7) 500 payload).head? = some head ∧
      reports ((receive none (some 0)).feed [head,head]).2 = [(256,257),(512,257)] ∧
      ¬ Accurate none 0 [head,head] := by
  have hreports : reports ((receive none (some 0)).feed
      [headChunk (List.replicate 16 7) 256 (List.replicate 257 0),
        headChunk (List.replicate 16 7) 256 (List.replicate 257 0)]).2 =
      [(256,257),(512,257)] := by
    decide +kernel
  refine ⟨by decide +kernel,hreports,fun h => ?_⟩
  have hbounded := h.bounded (512,257) (by rw [hreports]; simp)
  omega

end Resource
end RNS
