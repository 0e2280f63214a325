import RTReticulum.Upkeep
import RTReticulum.Keys
import RTReticulum.Nomadnet

/-! `app_main` of the firmware without a radio bridge: the identity that it keeps in NVS. -/
set_option autoImplicit false

namespace HeltecV3.Main
open RNS NomadnetNode

section
variable (P : Platform)

/-- What the calls of NVS do in one boot. The result of `nvs_set_blob` is not looked at. -/
structure Nvs where
  /-- `nvs_flash_init` asks for an erase. -/
  erases : Bool
  opensReadonly : Bool
  opensReadwrite : Bool
  stores : Bool

def loadIdentity (nvs : Nvs) (blob : Option Bytes) (r : Rng) : Identity × Option Bytes × Rng :=
  let blob := if nvs.erases then none else blob
  let (loaded,identity,r) :=
    match if nvs.opensReadonly then blob else none with
    | none => (false,Identity.blank,r)
    | some key =>
      if key.length = 64 then Identity.loadPrivateKey P .blank key r
      else (false,Identity.blank,r)
  if loaded then (identity,blob,r)
  else
    let (identity,r) := Identity.createKeys P identity r
    let prv := identity.getPrivateKey
    (identity,if nvs.opensReadwrite ∧ nvs.stores then some prv else blob,r)

/-- The identities of one boot after another, each with an entropy of its own. -/
def identities : List (Nvs × Rng) → Option Bytes → List Identity
  | [], _ => []
  | (nvs,r) :: boots, blob =>
    (loadIdentity P nvs blob r).1 :: identities boots (loadIdentity P nvs blob r).2.1

variable {P}

def Nvs.key (nvs : Nvs) (blob : Option Bytes) : Option Bytes :=
  if nvs.erases = false ∧ nvs.opensReadonly then blob.filter fun key => key.length = 64 else none

theorem loadIdentity_loaded {nvs : Nvs} {blob : Option Bytes} {key : Bytes}
    (h : nvs.key blob = some key) (r : Rng) :
    (loadIdentity P nvs blob r).1.MadeOf P key ∧ (loadIdentity P nvs blob r).2.1 = some key := by
  unfold Nvs.key at h
  split at h
  · rename_i hnvs
    obtain ⟨rfl,h64⟩ := Option.filter_eq_some_iff.mp h
    have hlen : key.length = 64 := of_decide_eq_true h64
    obtain ⟨hiff,hmade⟩ := (Identity.loadsExactly_iff (P := P) .blank key r).mpr (by omega)
    have htrue := hiff.mpr hlen
    simp only [loadIdentity,hnvs.1,hnvs.2,hlen,htrue,if_true,Bool.false_eq_true,if_false]
    exact ⟨hmade htrue,trivial⟩
  · cases h

theorem loadIdentity_fresh {nvs : Nvs} {blob : Option Bytes} (h : nvs.key blob = none) (r : Rng) :
    (loadIdentity P nvs blob r).1 = (Identity.createKeys P .blank r).1 ∧
      (nvs.opensReadwrite = true → nvs.stores = true → (loadIdentity P nvs blob r).2.1 =
        some (Identity.createKeys P .blank r).1.getPrivateKey) := by
  have hloaded : loadIdentity P nvs blob r = ((Identity.createKeys P .blank r).1,
      if nvs.opensReadwrite ∧ nvs.stores then
        some (Identity.createKeys P .blank r).1.getPrivateKey
      else if nvs.erases then none else blob,(Identity.createKeys P .blank r).2) := by
    obtain ⟨erases,reads,writes,stores⟩ := nvs
    cases blob with
    | none => cases erases <;> cases reads <;> rfl
    | some key =>
      cases erases
      · cases reads
        · rfl
        · have hlen : key.length ≠ 64 := by simpa [Nvs.key] using h
          simp [loadIdentity,hlen]
      · cases reads <;> rfl
  rw [hloaded]
  exact ⟨rfl,fun hw hs => by simp [hw,hs]⟩

theorem loadIdentity_madeOf (nvs : Nvs) (blob : Option Bytes) (r : Rng) :
    (loadIdentity P nvs blob r).1.MadeOf P (loadIdentity P nvs blob r).1.getPrivateKey := by
  cases hkey : nvs.key blob with
  | some key =>
    have h := (loadIdentity_loaded (P := P) hkey r).1
    rwa [h.bytes]
  | none =>
    rw [(loadIdentity_fresh (P := P) hkey r).1]
    exact Identity.createKeys_madeOf .blank r

theorem identities_length (boots : List (Nvs × Rng)) (blob : Option Bytes) :
    (identities P boots blob).length = boots.length := by
  induction boots generalizing blob with
  | nil => rfl
  | cons boot boots ih => exact congrArg (· + 1) (ih _)

theorem identities_loaded {key : Bytes} (hlen : key.length = 64) {boots : List (Nvs × Rng)}
    (h : ∀ boot ∈ boots, boot.1.erases = false ∧ boot.1.opensReadonly = true) :
    ∀ id ∈ identities P boots (some key), id.MadeOf P key := by
  induction boots with
  | nil => exact fun _ hid => nomatch hid
  | cons boot boots ih =>
    obtain ⟨nvs,r⟩ := boot
    have hkey : nvs.key (some key) = some key := by
      rw [Nvs.key,if_pos (h _ List.mem_cons_self)]
      simp [hlen]
    obtain ⟨hmade,hblob⟩ := loadIdentity_loaded (P := P) hkey r
    intro id hid
    rw [identities,hblob,List.mem_cons] at hid
    rcases hid with rfl | hid
    · exact hmade
    · exact ih (fun boot hb => h boot (List.mem_cons_of_mem _ hb)) id hid

theorem ofName_hash {obj : Nat} {id id' : Identity} {direction : Direction}
    {type : DestinationType} {name : Bytes} {aspects : Option Bytes} {r₁ r₁' r₂ r₂' : Rng}
    {d d' : Destination}
    (h : Destination.ofName P obj (some id) direction type name aspects r₁ = .ok (d,r₁'))
    (h' : Destination.ofName P obj (some id') direction type name aspects r₂ = .ok (d',r₂'))
    (heq : id'.hash = id.hash) : d'.hash = d.hash := by
  obtain ⟨-,-,hname,-⟩ := Destination.ofName_eq h
  obtain ⟨-,-,hname',-⟩ := Destination.ofName_eq h'
  rw [(Destination.ofName_supplied h).2.2.2.2,(Destination.ofName_supplied h').2.2.2.2,hname,
    hname',heq]

/-- Every boot has an identity with both keys. If one boot loads its identity or saves it, and every
later boot can read the flash and none erases it, then all of them have the same keys, the same hash
and the same addresses; the boots before it do not matter. -/
theorem identity_survives (P : Platform) (before later : List (Nvs × Rng)) (nvs : Nvs) (r : Rng)
    (blob : Option Bytes) (hread : ∀ boot ∈ later,
      boot.1.erases = false ∧ boot.1.opensReadonly = true) :
    (∀ id ∈ identities P (before ++ (nvs,r) :: later) blob, id.MadeOf P id.getPrivateKey) ∧
    ∃ blob' ids, identities P (before ++ (nvs,r) :: later) blob =
        identities P before blob ++ (loadIdentity P nvs blob' r).1 :: ids ∧
      ids.length = later.length ∧
      ((nvs.key blob').isSome ∨ nvs.opensReadwrite = true ∧ nvs.stores = true →
        ∀ id ∈ ids, id.getPrivateKey = (loadIdentity P nvs blob' r).1.getPrivateKey ∧
          id.getPublicKey = (loadIdentity P nvs blob' r).1.getPublicKey ∧
          id.hash = (loadIdentity P nvs blob' r).1.hash ∧
          ∀ obj direction type name aspects d d' r₁ r₁' r₂ r₂',
            Destination.ofName P obj (some (loadIdentity P nvs blob' r).1) direction type name
              aspects r₁ = .ok (d,r₁') →
            Destination.ofName P obj (some id) direction type name aspects r₂ = .ok (d',r₂') →
            d'.hash = d.hash) := by
  constructor
  · generalize before ++ (nvs,r) :: later = boots
    induction boots generalizing blob with
    | nil => exact fun _ hid => nomatch hid
    | cons boot boots ih =>
      intro id hid
      rcases List.mem_cons.mp hid with rfl | hid
      · exact loadIdentity_madeOf boot.1 blob boot.2
      · exact ih _ id hid
  induction before generalizing blob with
  | cons boot before ih =>
    obtain ⟨blob',ids,hids,h⟩ := ih (loadIdentity P boot.1 blob boot.2).2.1
    exact ⟨blob',ids,congrArg (_ :: ·) hids,h⟩
  | nil =>
    refine ⟨blob,identities P later (loadIdentity P nvs blob r).2.1,rfl,identities_length _ _,
      fun hkept id hid => ?_⟩
    have hmade := loadIdentity_madeOf (P := P) nvs blob r
    have hblob : (loadIdentity P nvs blob r).2.1 =
        some (loadIdentity P nvs blob r).1.getPrivateKey := by
      cases hkey : nvs.key blob with
      | some key =>
        obtain ⟨hloaded,hblob⟩ := loadIdentity_loaded (P := P) hkey r
        rw [hblob,hloaded.bytes]
      | none =>
        obtain ⟨hfresh,hblob⟩ := loadIdentity_fresh (P := P) hkey r
        have hw := hkept.resolve_left fun hs => by simp [hkey] at hs
        rw [hblob hw.1 hw.2,hfresh]
    rw [hblob] at hid
    obtain ⟨hprv,hpub,hhash⟩ := hmade.unique (identities_loaded hmade.length hread id hid)
    exact ⟨hprv,hpub,hhash,fun _ _ _ _ _ _ _ _ _ _ _ h h' => ofName_hash h h' hhash⟩

end

theorem identity_survives_reboot : ∃ id id', identities Sample.platform
    [(⟨false,false,true,true⟩,Sample.rng 1),(⟨false,true,false,false⟩,Sample.rng 2)] none =
      [id,id'] ∧ id'.hash = id.hash := by
  obtain ⟨-,blob',ids,hids,hlen,h⟩ := identity_survives Sample.platform []
    [(⟨false,true,false,false⟩,Sample.rng 2)] ⟨false,false,true,true⟩ (Sample.rng 1) none
    (by simp)
  obtain ⟨id',rfl⟩ := List.length_eq_one_iff.mp hlen
  exact ⟨_,id',hids,(h (.inr ⟨rfl,rfl⟩) id' (List.mem_singleton_self _)).2.2.1⟩

end HeltecV3.Main
