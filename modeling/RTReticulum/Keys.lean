import RTReticulum.Identity
import RTReticulum.Simulation

/-! Loading private keys, from bytes and from files: when a load succeeds, what it leaves
behind when it does not, and what is read back. -/
set_option autoImplicit false

namespace RNS

/-- `FileSystemImpl`, over files in a state that reading does not change. `readFile` returns
the count and fills `out`. -/
structure FileSystemImpl (σ : Type) where
  readFile : (path : Bytes) → σ → Nat × Bytes
  writeFile : (path data : Bytes) → σ → Nat × σ

/-- What was written completely is read back, if it was anything: a file that cannot be opened
takes nothing, which is all of no bytes. -/
def FileSystemImpl.Stores {σ : Type} (fs : FileSystemImpl σ) : Prop :=
  ∀ path data s, data ≠ [] → (fs.writeFile path data s).1 = data.length →
    fs.readFile path (fs.writeFile path data s).2 = (data.length,data)

namespace X25519PrivateKey

theorem ofBytes_nil (r : Rng) : ofBytes [] r = .ok (generate r) := rfl

theorem ofBytes_32 {sk : Bytes} (h : sk.length = 32) (r : Rng) :
    ofBytes sk r = .ok (⟨sk,h⟩,r) := by
  have hne : sk ≠ [] := by rintro rfl; cases h
  simp [ofBytes,hne,h]

theorem ofBytes_bad {sk : Bytes} (h₀ : sk.length ≠ 0) (h : sk.length ≠ 32) (r : Rng) :
    ofBytes sk r = .error (.invalidArgument "X25519 private key must be 32 bytes") := by
  have hne : sk ≠ [] := by rintro rfl; exact h₀ rfl
  simp [ofBytes,hne,h]

end X25519PrivateKey

namespace Ed25519PrivateKey

theorem ofBytes_nil (r : Rng) : ofBytes [] r = .ok (generate r) := rfl

theorem ofBytes_32 {seed : Bytes} (h : seed.length = 32) (r : Rng) :
    ofBytes seed r = .ok (⟨seed,h⟩,r) := by
  have hne : seed ≠ [] := by rintro rfl; cases h
  simp [ofBytes,hne,h]

theorem ofBytes_bad {seed : Bytes} (h₀ : seed.length ≠ 0) (h : seed.length ≠ 32) (r : Rng) :
    ofBytes seed r = .error (.invalidArgument "Ed25519 seed must be 32 bytes") := by
  have hne : seed ≠ [] := by rintro rfl; exact h₀ rfl
  simp [ofBytes,hne,h]

end Ed25519PrivateKey

namespace Identity
variable (P : Platform)

def loaded (id : Identity) (b : Bytes) (prv : X25519PrivateKey) (sigPrv : Ed25519PrivateKey) :
    Identity :=
  derivePublic P prv sigPrv { id with
    prv := some prv, prvBytes := Bytes.left b 32
    sigPrv := some sigPrv, sigPrvBytes := Bytes.midFrom b 32 }

variable {P}

/-- The keys a load ends with when the bytes have the length of one key, of two or of none. -/
theorem loadPrivateKey_succeeds (id : Identity) {b : Bytes} (r : Rng)
    (h : b.length = 0 ∨ b.length = 32 ∨ b.length = 64) :
    ∃ prv sigPrv r', loadPrivateKey P id b r = (true,id.loaded P b prv sigPrv,r') ∧
      (b.length = 64 → prv.privateBytes = Bytes.left b 32 ∧ sigPrv.seed = Bytes.midFrom b 32) := by
  rcases h with h | h | h
  · cases List.eq_nil_of_length_eq_zero h
    exact ⟨_,_,_,rfl,fun h => absurd h (by decide)⟩
  · have hleft : (Bytes.left b 32).length = 32 := by simp [h]
    have hmid : Bytes.midFrom b 32 = [] := List.drop_of_length_le (by omega)
    refine ⟨⟨Bytes.left b 32,hleft⟩,(Ed25519PrivateKey.generate r).1,
      (Ed25519PrivateKey.generate r).2,?_,fun h' => by omega⟩
    simp only [loadPrivateKey,X25519PrivateKey.ofBytes_32 hleft,hmid,
      Ed25519PrivateKey.ofBytes_nil,loaded]
  · have hleft : (Bytes.left b 32).length = 32 := by simp [h]
    have hmid : (Bytes.midFrom b 32).length = 32 := by simp [h]
    refine ⟨⟨Bytes.left b 32,hleft⟩,⟨Bytes.midFrom b 32,hmid⟩,r,?_,fun _ => ⟨rfl,rfl⟩⟩
    simp only [loadPrivateKey,X25519PrivateKey.ofBytes_32 hleft,
      Ed25519PrivateKey.ofBytes_32 hmid,loaded]

theorem loadPrivateKey_short (id : Identity) {b : Bytes} (r : Rng) (h₀ : b.length ≠ 0)
    (h : b.length < 32) : loadPrivateKey P id b r = (false,{ id with prvBytes := b },r) := by
  have hleft : Bytes.left b 32 = b := List.take_of_length_le (by omega)
  simp only [loadPrivateKey,hleft,X25519PrivateKey.ofBytes_bad h₀ (Nat.ne_of_lt h)]

/-- The second key fails after the first has been replaced. -/
theorem loadPrivateKey_half (id : Identity) {b : Bytes} (r : Rng) (h : 32 < b.length)
    (h64 : b.length ≠ 64) :
    ∃ hleft, loadPrivateKey P id b r = (false,{ id with
      prv := some ⟨Bytes.left b 32,hleft⟩, prvBytes := Bytes.left b 32
      sigPrvBytes := Bytes.midFrom b 32 },r) := by
  have hleft : (Bytes.left b 32).length = 32 := by simp; omega
  have hmid : (Bytes.midFrom b 32).length = b.length-32 := by simp
  refine ⟨hleft,?_⟩
  simp only [loadPrivateKey,X25519PrivateKey.ofBytes_32 hleft,
    Ed25519PrivateKey.ofBytes_bad (show (Bytes.midFrom b 32).length ≠ 0 by omega) (by omega)]

theorem loadPrivateKey_true_iff (id : Identity) (b : Bytes) (r : Rng) :
    (loadPrivateKey P id b r).1 = true ↔ b.length = 0 ∨ b.length = 32 ∨ b.length = 64 := by
  constructor
  · intro ht
    by_contra hlen
    by_cases hs : b.length < 32
    · rw [loadPrivateKey_short id r (by omega) hs] at ht
      cases ht
    · obtain ⟨_,heq⟩ := loadPrivateKey_half (P := P) id (b := b) r (by omega) (by omega)
      rw [heq] at ht
      cases ht
  · intro hlen
    obtain ⟨prv,sigPrv,r',heq,-⟩ := loadPrivateKey_succeeds (P := P) id r hlen
    rw [heq]

section
variable (P)

structure MadeOf (id : Identity) (b : Bytes) : Prop where
  prvBytes : id.prvBytes = Bytes.left b 32
  sigPrvBytes : id.sigPrvBytes = Bytes.midFrom b 32
  prv : ∃ k, id.prv = some k ∧ k.privateBytes = Bytes.left b 32 ∧ id.pubBytes = k.publicBytes P
  sigPrv : ∃ k, id.sigPrv = some k ∧ k.seed = Bytes.midFrom b 32 ∧
    id.sigPubBytes = k.publicBytes P
  pub : id.pub = some id.pubBytes
  sigPub : id.sigPub = some id.sigPubBytes
  hash : id.hash = truncatedHash P id.getPublicKey

def LoadsExactly (b : Bytes) (result : Bool × Identity × Rng) : Prop :=
  (result.1 = true ↔ b.length = 64) ∧ (result.1 = true → result.2.1.MadeOf P b)

def toFile {σ : Type} (fs : Option (FileSystemImpl σ)) (id : Identity) (path : Bytes) (s : σ) :
    Bool × σ :=
  match fs with
  | none => (false,s)
  | some fs =>
    let prv := id.getPrivateKey
    let (n,s) := fs.writeFile path prv s
    (decide (n = prv.length),s)

/-- A null handle is `none`. -/
def fromFile {σ : Type} (fs : Option (FileSystemImpl σ)) (path : Bytes) (s : σ) (r : Rng) :
    Option Identity × Rng :=
  match fs with
  | none => (none,r)
  | some fs =>
    let (n,prv) := fs.readFile path s
    if n = 0 then (none,r)
    else
      match loadPrivateKey P .blank prv r with
      | (true,id,r) => (some id,r)
      | (false,_,r) => (none,r)

end

theorem MadeOf.bytes {id : Identity} {b : Bytes} (h : id.MadeOf P b) : id.getPrivateKey = b := by
  rw [getPrivateKey,h.prvBytes,h.sigPrvBytes]
  exact List.take_append_drop 32 b

theorem MadeOf.length {id : Identity} {b : Bytes} (h : id.MadeOf P b) : b.length = 64 := by
  obtain ⟨k,-,hk,-⟩ := h.sigPrv
  have hlen : (Bytes.midFrom b 32).length = 32 := hk ▸ k.seed_length
  rw [List.length_drop] at hlen
  omega

theorem MadeOf.unique {id id' : Identity} {b : Bytes} (h : id.MadeOf P b)
    (h' : id'.MadeOf P b) : id'.getPrivateKey = id.getPrivateKey ∧
      id'.getPublicKey = id.getPublicKey ∧ id'.hash = id.hash := by
  obtain ⟨k,-,hk,hpub⟩ := h.prv
  obtain ⟨k',-,hk',hpub'⟩ := h'.prv
  obtain ⟨q,-,hq,hsig⟩ := h.sigPrv
  obtain ⟨q',-,hq',hsig'⟩ := h'.sigPrv
  have hkey : id'.getPublicKey = id.getPublicKey := by
    rw [getPublicKey,getPublicKey,hpub,hpub',hsig,hsig']
    simp only [X25519PrivateKey.publicBytes,Ed25519PrivateKey.publicBytes,hk,hk',hq,hq']
  exact ⟨h'.bytes.trans h.bytes.symm,hkey,by rw [h.hash,h'.hash,hkey]⟩

theorem loaded_madeOf (id : Identity) {b : Bytes} {prv : X25519PrivateKey}
    {sigPrv : Ed25519PrivateKey} (hprv : prv.privateBytes = Bytes.left b 32)
    (hsig : sigPrv.seed = Bytes.midFrom b 32) : (id.loaded P b prv sigPrv).MadeOf P b where
  prvBytes := rfl
  sigPrvBytes := rfl
  prv := ⟨prv,rfl,hprv,rfl⟩
  sigPrv := ⟨sigPrv,rfl,hsig,rfl⟩
  pub := rfl
  sigPub := rfl
  hash := rfl

theorem createKeys_madeOf (id : Identity) (r : Rng) :
    (createKeys P id r).1.MadeOf P (createKeys P id r).1.getPrivateKey := by
  have hlen := (X25519PrivateKey.generate r).1.privateBytes_length
  have hleft : Bytes.left (createKeys P id r).1.getPrivateKey 32 =
      (X25519PrivateKey.generate r).1.privateBytes := List.take_left' hlen
  have hmid : Bytes.midFrom (createKeys P id r).1.getPrivateKey 32 =
      (Ed25519PrivateKey.generate (X25519PrivateKey.generate r).2).1.seed := List.drop_left' hlen
  exact ⟨hleft.symm,hmid.symm,⟨_,rfl,hleft.symm,rfl⟩,⟨_,rfl,hmid.symm,rfl⟩,rfl,rfl,rfl⟩

theorem loadsExactly_iff (id : Identity) (b : Bytes) (r : Rng) :
    LoadsExactly P b (loadPrivateKey P id b r) ↔ b.length ≠ 0 ∧ b.length ≠ 32 := by
  constructor
  · intro h
    have h₀ := loadPrivateKey_true_iff (P := P) id b r
    constructor
    · intro hb
      have h64 := h.1.mp (h₀.mpr (.inl hb))
      omega
    · intro hb
      have h64 := h.1.mp (h₀.mpr (.inr (.inl hb)))
      omega
  · intro hb
    have htrue : (loadPrivateKey P id b r).1 = true ↔ b.length = 64 := by
      rw [loadPrivateKey_true_iff]
      omega
    refine ⟨htrue,fun ht => ?_⟩
    have h64 := htrue.mp ht
    obtain ⟨prv,sigPrv,r',heq,hkeys⟩ := loadPrivateKey_succeeds (P := P) id r (.inr (.inr h64))
    rw [heq]
    exact loaded_madeOf id (hkeys h64).1 (hkeys h64).2

variable {σ : Type} {fs : FileSystemImpl σ} {path b : Bytes} {s : σ}

theorem fromFile_read (hread : fs.readFile path s = (b.length,b)) (h₀ : b.length ≠ 0) (r : Rng) :
    (fromFile P (some fs) path s r).1 =
      if (loadPrivateKey P .blank b r).1 then some (loadPrivateKey P .blank b r).2.1 else none := by
  simp only [fromFile,hread,if_neg h₀]
  rcases loadPrivateKey P .blank b r with ⟨ok,id,r'⟩
  cases ok <;> rfl

theorem fromFile_toFile (hfs : fs.Stores) {id : Identity} (hid : id.MadeOf P b)
    (hsave : (toFile (some fs) id path s).1 = true) (r : Rng) :
    ∃ id' : Identity, (fromFile P (some fs) path (toFile (some fs) id path s).2 r).1 = some id' ∧
      id'.MadeOf P b := by
  have hall : (fs.writeFile path id.getPrivateKey s).1 = id.getPrivateKey.length :=
    of_decide_eq_true hsave
  have h64 := hid.length
  have hne : id.getPrivateKey ≠ [] := by
    intro hnil
    rw [hid.bytes.symm.trans hnil] at h64
    cases h64
  have hread := hfs path id.getPrivateKey s hne hall
  rw [hid.bytes] at hread
  have hstate : (toFile (some fs) id path s).2 = (fs.writeFile path b s).2 := by
    simp only [toFile,hid.bytes]
  obtain ⟨hiff,hmade⟩ := (loadsExactly_iff (P := P) .blank b r).mpr (by omega)
  have htrue := hiff.mpr h64
  rw [hstate,fromFile_read hread (by omega),if_pos htrue]
  exact ⟨_,rfl,hmade htrue⟩

end Identity

/-- A load takes 64 bytes and nothing else just when it is not given none, or those of one key
only; an identity read from a file has the private key in it, unless the file has 32 bytes;
and one that was generated, or loaded from 64 bytes, is saved and read back. -/
theorem keys_loaded_iff {P : Platform} {σ : Type} {fs : FileSystemImpl σ} (hfs : fs.Stores)
    (path b : Bytes) (r : Rng) :
    (∀ id : Identity, Identity.LoadsExactly P b (id.loadPrivateKey P b r) ↔
      b.length ≠ 0 ∧ b.length ≠ 32) ∧
    (∀ s, fs.readFile path s = (b.length,b) →
      ((∀ id, (Identity.fromFile P (some fs) path s r).1 = some id → id.MadeOf P b) ↔
        b.length ≠ 32)) ∧
    (∀ (id made : Identity) (r₁ r₂ : Rng) (s : σ),
      (id.createKeys P r₁ = (made,r₂) ∨
        b.length = 64 ∧ id.loadPrivateKey P b r₁ = (true,made,r₂)) →
      (made.toFile (some fs) path s).1 = true →
      ∃ back, (Identity.fromFile P (some fs) path (made.toFile (some fs) path s).2 r).1 =
          some back ∧ back.getPrivateKey = made.getPrivateKey ∧
        back.getPublicKey = made.getPublicKey ∧ back.hash = made.hash) := by
  refine ⟨fun id => Identity.loadsExactly_iff id b r,?_,?_⟩
  · intro s hread
    by_cases h₀ : b.length = 0
    · have hnone : (Identity.fromFile P (some fs) path s r).1 = none := by
        simp [Identity.fromFile,hread,h₀]
      simp [hnone,h₀]
    · rw [Identity.fromFile_read hread h₀]
      constructor
      · intro h hb
        have htrue := (Identity.loadPrivateKey_true_iff (P := P) .blank b r).mpr (.inr (.inl hb))
        have h64 := (h _ (if_pos htrue)).length
        omega
      · intro hb id hid
        split at hid
        · rename_i htrue
          cases hid
          exact ((Identity.loadsExactly_iff .blank b r).mpr ⟨h₀,hb⟩).2 htrue
        · cases hid
  · intro id made r₁ r₂ s hmade hsave
    have hkey : made.MadeOf P made.getPrivateKey := by
      rcases hmade with hmade | ⟨h64,hmade⟩
      · have hc := Identity.createKeys_madeOf (P := P) id r₁
        rw [hmade] at hc
        exact hc
      · obtain ⟨-,hl⟩ := (Identity.loadsExactly_iff (P := P) id b r₁).mpr (by omega)
        rw [hmade] at hl
        have hb := hl rfl
        exact hb.bytes.symm ▸ hb
    obtain ⟨back,hback,hb⟩ := Identity.fromFile_toFile hfs hkey hsave r
    exact ⟨back,hback,hkey.unique hb⟩

def Sample.files : FileSystemImpl (Bytes → Bytes) where
  readFile path s := ((s path).length,s path)
  writeFile path data s := (data.length,Function.update s path data)

theorem Sample.files_stores : Sample.files.Stores := by
  intro path data s _ _
  simp [Sample.files]

theorem keys_loaded_saved : ∃ back, (Identity.fromFile Sample.platform (some Sample.files) [0x6B]
      (Sample.identity.toFile (some Sample.files) [0x6B] fun _ => []).2 (Sample.rng 7)).1 =
    some back ∧ back.getPrivateKey = Sample.identity.getPrivateKey := by
  obtain ⟨-,-,h⟩ := keys_loaded_iff (P := Sample.platform) Sample.files_stores [0x6B] []
    (Sample.rng 7)
  obtain ⟨back,hback,hkey,-⟩ := h .blank Sample.identity (Sample.rng 1)
    (Identity.createKeys Sample.platform .blank (Sample.rng 1)).2 (fun _ => []) (.inl rfl)
    (by simp [Identity.toFile,Sample.files])
  exact ⟨back,hback,hkey⟩

/-- No bytes at all, and the bytes of one key, load keys that nobody gave. -/
theorem keys_generated :
    (∃ id r, Identity.blank.loadPrivateKey Sample.platform [] (Sample.rng 5) = (true,id,r) ∧
      id.getPrivateKey = [] ∧ id.prv.isSome ∧ id.sigPrv.isSome) ∧
    (∃ id, (Identity.fromFile Sample.platform (some Sample.files) [0x6B]
        (fun _ => List.replicate 32 1) (Sample.rng 5)).1 = some id ∧
      ¬ id.MadeOf Sample.platform (List.replicate 32 1)) ∧
    ¬ Identity.LoadsExactly Sample.platform []
      (Identity.blank.loadPrivateKey Sample.platform [] (Sample.rng 5)) := by
  refine ⟨⟨_,_,rfl,rfl,rfl,rfl⟩,⟨_,rfl,fun h => ?_⟩,fun h => ?_⟩
  · exact absurd h.length (by decide)
  · exact absurd (h.1.mp rfl) (by decide)

namespace Identity
variable {P : Platform}

def Repeats (id : Identity) (b : Bytes) : Prop :=
  (b.length < 32 ∧ id.prvBytes = b) ∨
  (32 < b.length ∧ id.prvBytes = Bytes.left b 32 ∧
    id.prv.map (·.privateBytes) = some (Bytes.left b 32) ∧
    id.sigPrvBytes = Bytes.midFrom b 32)

theorem short_keeps_iff (id : Identity) (b : Bytes) :
    { id with prvBytes := b } = id ↔ id.prvBytes = b := by
  constructor
  · intro h
    exact (congrArg Identity.prvBytes h).symm
  · intro h
    subst h
    rfl

theorem half_keeps_iff (id : Identity) {b : Bytes} (hleft : (Bytes.left b 32).length = 32) :
    { id with
      prv := some ⟨Bytes.left b 32,hleft⟩, prvBytes := Bytes.left b 32
      sigPrvBytes := Bytes.midFrom b 32 } = id ↔
    id.prvBytes = Bytes.left b 32 ∧ id.prv.map (·.privateBytes) = some (Bytes.left b 32) ∧
      id.sigPrvBytes = Bytes.midFrom b 32 := by
  constructor
  · intro h
    rw [← h]
    exact ⟨rfl,rfl,rfl⟩
  · intro h
    obtain ⟨hb,hk,hs⟩ := h
    obtain ⟨k,hk,hkb⟩ := Option.map_eq_some_iff.mp hk
    have hkey : k = ⟨Bytes.left b 32,hleft⟩ := by
      cases k
      cases hkb
      rfl
    rw [← hkey,← hk,← hb,← hs]

/-- An identity with keys of its own has nothing in it that a failing load writes. -/
theorem MadeOf.not_repeats {id : Identity} {c b : Bytes} (h : id.MadeOf P c)
    (hb : b.length ≠ 64) : ¬ id.Repeats b := by
  intro hrep
  have hlen := h.length
  have hprv : id.prvBytes.length = 32 := by rw [h.prvBytes]; simp [hlen]
  have hsig : id.sigPrvBytes.length = 32 := by rw [h.sigPrvBytes]; simp [hlen]
  rcases hrep with ⟨hs,heq⟩ | ⟨hl,-,-,heq⟩
  · rw [heq] at hprv
    omega
  · rw [heq,List.length_drop] at hsig
    omega

/-- A load that fails leaves the identity as it was just when it finds in it what it writes
before it fails; in an identity with keys of its own it never does. -/
theorem failed_load_keeps_iff (id : Identity) (b : Bytes) (r : Rng) :
    (((id.loadPrivateKey P b r).1 = false → (id.loadPrivateKey P b r).2.1 = id) ↔
      (b.length = 0 ∨ b.length = 32 ∨ b.length = 64) ∨ id.Repeats b) ∧
    (∀ c, id.MadeOf P c →
      (((id.loadPrivateKey P b r).1 = false → (id.loadPrivateKey P b r).2.1 = id) ↔
        b.length = 0 ∨ b.length = 32 ∨ b.length = 64)) := by
  have hiff : ((id.loadPrivateKey P b r).1 = false → (id.loadPrivateKey P b r).2.1 = id) ↔
      (b.length = 0 ∨ b.length = 32 ∨ b.length = 64) ∨ id.Repeats b := by
    by_cases hlen : b.length = 0 ∨ b.length = 32 ∨ b.length = 64
    · have htrue := (loadPrivateKey_true_iff (P := P) id b r).mpr hlen
      exact ⟨fun _ => .inl hlen,fun _ hf => by rw [htrue] at hf; cases hf⟩
    rw [or_iff_right hlen]
    by_cases hs : b.length < 32
    · have hrep : id.Repeats b ↔ id.prvBytes = b := by
        simp only [Repeats,hs,true_and]
        exact or_iff_left fun h => by omega
      rw [loadPrivateKey_short id r (by omega) hs,hrep,← short_keeps_iff]
      exact ⟨fun h => h rfl,fun h _ => h⟩
    · obtain ⟨hleft,heq⟩ := loadPrivateKey_half (P := P) id (b := b) r (by omega) (by omega)
      have hrep : id.Repeats b ↔ 32 < b.length ∧ id.prvBytes = Bytes.left b 32 ∧
          id.prv.map (·.privateBytes) = some (Bytes.left b 32) ∧
          id.sigPrvBytes = Bytes.midFrom b 32 := or_iff_right fun h => hs h.1
      rw [heq,hrep,and_iff_right (show 32 < b.length by omega),← half_keeps_iff id hleft]
      exact ⟨fun h => h rfl,fun h _ => h⟩
  refine ⟨hiff,fun c hid => ?_⟩
  rw [hiff]
  refine or_iff_left_of_imp fun hrep => ?_
  by_contra hlen
  exact hid.not_repeats (by omega) hrep

theorem failed_load_keeps_replaced :
    (Sample.identity.loadPrivateKey Sample.platform (List.replicate 64 1) (Sample.rng 5)).1 =
        false →
      (Sample.identity.loadPrivateKey Sample.platform (List.replicate 64 1) (Sample.rng 5)).2.1 =
        Sample.identity :=
  ((failed_load_keeps_iff Sample.identity (List.replicate 64 1) (Sample.rng 5)).2 _
    (createKeys_madeOf .blank (Sample.rng 1))).mpr (.inr (.inr rfl))

/-- After a load of 33 bytes has failed, an identity no longer decrypts what is encrypted to
its public key. -/
theorem failed_load_breaks : ∃ id r c r',
    Sample.identity.loadPrivateKey Sample.platform (List.replicate 33 1) (Sample.rng 5) =
      (false,id,r) ∧
    id ≠ Sample.identity ∧ id.getPublicKey = Sample.identity.getPublicKey ∧
    id.encrypt Sample.platform [0x41] (Sample.rng 6) = .ok (c,r') ∧
    Sample.identity.decrypt Sample.platform c = .ok [0x41] ∧
    id.decrypt Sample.platform c = .ok [] := by
  refine ⟨_,_,_,_,rfl,fun h => ?_,rfl,rfl,?_,?_⟩
  · exact absurd (congrArg Identity.sigPrvBytes h) (by decide +kernel)
  · decide +kernel
  · decide +kernel

end Identity

end RNS
