import RTReticulum.Transport

/-! Runs that can be evaluated: a platform on which every law holds, and lists of
operations run one after another. -/
set_option autoImplicit false

namespace RNS

namespace Sample

def number (d : Bytes) : Nat := d.foldl (fun h b => (h*257 + b.toNat + 1) % 2^256) 1

def bytesOf (len n : Nat) : Bytes := (List.range len).map fun i => UInt8.ofNat (n >>> (8*i))

def hash (d : Bytes) : Bytes := bytesOf 32 (number d)

def mask (d : Bytes) : Bytes := d.map (· ^^^ 0x5A)

def exchange (s p : Bytes) : Bytes :=
  List.zipWith (· ^^^ ·) (Bytes.resize s 32) (Bytes.resize p 32)

theorem bytesOf_length (len n : Nat) : (bytesOf len n).length = len := by simp [bytesOf]

theorem hash_length (d : Bytes) : (hash d).length = 32 := bytesOf_length 32 _

theorem resize_length (b : Bytes) : (Bytes.resize b 32).length = 32 := by
  simp [Bytes.resize]; omega

theorem mask_length (d : Bytes) : (mask d).length = d.length := by simp [mask]

theorem exchange_length (s p : Bytes) : (exchange s p).length = 32 := by
  simp [exchange,resize_length]

theorem signature_length (s m : Bytes) : (Bytes.resize s 32 ++ hash m).length = 64 := by
  simp [resize_length,hash_length]

/-- A platform with a 64-bit `size_t`: no secret is safe on it, but every law of the real
one holds. -/
def platform : Platform where
  sizeBits := 64
  sha256 := hash
  hmacSha256 k m := hash (k ++ m)
  hkdfSha256 n d s c := bytesOf n (number (d ++ s ++ c))
  aesCbcEncrypt _ _ := mask
  aesCbcDecrypt _ _ := mask
  x25519 := exchange
  ed25519PublicKey s := Bytes.resize s 32
  ed25519Sign s m := Bytes.resize s 32 ++ hash m
  ed25519Check sig key m := sig = Bytes.resize key 32 ++ hash m
  sha256_length := hash_length
  hmacSha256_length _ _ := hash_length _
  hkdfSha256_length _ _ _ _ := bytesOf_length _ _
  aesCbcEncrypt_length _ _ := mask_length
  aesCbcDecrypt_length _ _ := mask_length
  x25519_length := exchange_length
  ed25519PublicKey_length := resize_length
  ed25519Sign_length := signature_length

theorem resize_self {b : Bytes} (h : b.length = 32) : Bytes.resize b 32 = b := by
  rw [Bytes.resize_of_le (by omega),List.take_of_length_le (by omega)]

theorem mask_mask (d : Bytes) : mask (mask d) = d := by
  simp [mask,Function.comp_def]

theorem zipWith_comm (a b c : Bytes) :
    List.zipWith (· ^^^ ·) a (List.zipWith (· ^^^ ·) b c) =
      List.zipWith (· ^^^ ·) b (List.zipWith (· ^^^ ·) a c) := by
  induction c generalizing a b with
  | nil => simp
  | cons z c ih =>
    cases a with
    | nil => simp
    | cons x a =>
      cases b with
      | nil => simp
      | cons y b => simp [ih,← UInt8.xor_assoc,UInt8.xor_comm x y]

theorem exchangeCommutes : platform.ExchangeCommutes := by
  intro a b ha hb
  have hpub : ∀ s : Bytes, s.length = 32 → platform.x25519PublicKey s =
      List.zipWith (· ^^^ ·) s (9 :: List.replicate 31 0) := by
    intro s hs
    show List.zipWith _ (Bytes.resize s 32) _ = _
    rw [resize_self hs]
    rfl
  have hx : ∀ s p : Bytes, s.length = 32 → p.length = 32 →
      platform.x25519 s p = List.zipWith (· ^^^ ·) s p := by
    intro s p hs hp
    show List.zipWith _ (Bytes.resize s 32) (Bytes.resize p 32) = _
    rw [resize_self hs,resize_self hp]
  rw [hx a _ ha (by simp),hx b _ hb (by simp),hpub a ha,hpub b hb,zipWith_comm]

theorem verifiesOwn : platform.VerifiesOwn := by
  intro seed m hs
  show decide (Bytes.resize seed 32 ++ hash m =
    Bytes.resize (Bytes.resize seed 32) 32 ++ hash m) = _
  rw [resize_self hs,resize_self hs]
  simp

theorem cbcInverts : platform.CbcInverts := fun _ _ d _ _ _ => mask_mask d

def entropy (seed : Nat) : Entropy where
  bytes i len := bytesOf len (number [UInt8.ofNat seed,UInt8.ofNat i])
  bytes_length _ _ := bytesOf_length _ _

def rng (seed : Nat) : Rng := ⟨entropy seed,0⟩

def identity : Identity := (Identity.createKeys platform .blank (rng 1)).1

def destination : Destination where
  obj := 0
  type := .single
  direction := .dirIn
  identity := some identity
  hash := truncatedHash platform (Bytes.left (hash [0x61]) 10 ++ identity.hash)
  nameHash := Bytes.left (hash [0x61]) 10

def outDestination : Destination :=
  { destination with
    direction := .dirOut, identity := some (.loadPublicKey platform .blank identity.getPublicKey) }

theorem identity_keyed : identity.Keyed platform := Identity.createKeys_keyed _ _

def responder : List Op :=
  [.registerInterface 0,.registerDestination destination,
    .setLinkRequestHandler (some .validateRequest)]

/-- The request of an initiator that draws from `rng 2`, with the id of its link. -/
def request (mtu : UInt32) : Bytes × Bytes :=
  match Link.request platform destination none none mtu (rng 2) with
  | .ok ((l,raw),_) => (l.hash,raw)
  | .error _ => ([],[])

def requestFrame (mtu : UInt32) : Bytes := (request mtu).2
def linkId : Bytes := (request 0).1

/-- What a responder that draws from `rng 3` answers it. -/
def proofFrame (mtu : UInt32) : Bytes :=
  match Packet.unpack platform (requestFrame mtu) with
  | none => []
  | some packet =>
    match Link.validateRequest platform destination packet.data packet (rng 3) with
    | .ok (some (_,raw),_) => raw
    | _ => []

def announceFrame (seed : Nat) (appData : Bytes) : Bytes :=
  match RNS.announceFrame platform destination appData (rng seed) with
  | .ok (raw,_) => raw
  | .error _ => []

def announceHash (seed : Nat) : Bytes :=
  fullHash platform (Packet.hashablePart .header1 (announceFrame seed []))

theorem emptyData : ∃ raw packet, Packet.unpack platform raw = some packet ∧
    packet.Carries 0x00 destination.hash Context.none [] :=
  ⟨0x00 :: 0x00 :: (destination.hash ++ [Context.none]),_,Packet.unpack_header1 rfl rfl,
    Packet.parsed_header1 0x00 0x00 Context.none rfl⟩

end Sample

/-- Callbacks and interfaces that do nothing. -/
def quiet : Env := fun _ n => (⟨[],none⟩,n)

theorem quiet_queues (i : Nat) (raw : Bytes) (origin : Origin) (n : Node) :
    (quiet (.sendOutgoing i raw origin) n).2 = n := rfl

theorem quiet_runs (P : Platform) (guard : Op → Node → Prop) (e : Event) (m : Node) :
    Runs P guard m (quiet e m).2 := .refl m

def runOps (P : Platform) (guard : Op → Node → Bool) : List Op → Node → Option Node
  | [], n => some n
  | o :: os, n =>
    if guard o n then
      match exec P quiet o n with
      | .ok m => runOps P guard os m
      | .error _ => none
    else none

theorem runOps_runs {P : Platform} {guard : Op → Node → Bool} {os : List Op} {n m : Node}
    (h : runOps P guard os n = some m) : Runs P (fun o n => guard o n = true) n m := by
  induction os generalizing n with
  | nil => cases h; exact .refl _
  | cons o os ih =>
    simp only [runOps] at h
    split at h
    · rename_i hg
      split at h
      · rename_i k hk
        exact (Reentrant.Run.step (.refl n) (quiet_runs P _) hg hk).trans (ih h)
      · cases h
    · cases h

def endsIn (P : Platform) (guard : Op → Node → Bool) (os : List Op) (n : Node)
    (q : Node → Bool) : Bool :=
  (runOps P guard os n).any q

theorem ok_of_any {ε α : Type} {x : Except ε α} {q : α → Bool} (h : x.toOption.any q = true) :
    ∃ a, x = .ok a ∧ q a = true := by
  cases x with
  | error e => cases h
  | ok a => exact ⟨a,rfl,h⟩

theorem runs_of_endsIn (P : Platform) (guard : Op → Node → Bool) (os : List Op) (n : Node)
    (q : Node → Bool) (h : endsIn P guard os n q = true) :
    ∃ m, Runs P (fun o n => guard o n = true) n m ∧ q m = true := by
  obtain ⟨m,hm,hq⟩ := (Option.any_eq_true _ _).mp h
  exact ⟨m,runOps_runs hm,hq⟩

theorem reachable_of_endsIn (P : Platform) (os : List Op) (r : Rng) (q : Node → Bool)
    (h : endsIn P (fun _ _ => true) os (Node.boot r) q = true) :
    ∃ n, Reachable P n ∧ q n = true := by
  obtain ⟨n,hn,hq⟩ := runs_of_endsIn P _ os _ q h
  exact ⟨n,⟨r,hn.mono fun _ _ _ => trivial⟩,hq⟩

end RNS
