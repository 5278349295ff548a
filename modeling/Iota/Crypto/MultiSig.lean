import Mathlib
import Iota.Lib.Except

/-! Multisig authentication (`crates/iota-types/src/multisig.rs`): a weighted
set of at most ten public keys with a threshold, and a signature made of
compressed signatures placed by a bitmap on the keys' positions.

The cryptography is a parameter: `verifySig pk sig` is whether `sig` verifies
against `pk` over the transaction's digest (for a zkLogin signature, its own
`verify_claims` against the key's address), the parsing of key and signature
bytes included; `address` is `IotaAddress::from(&MultiSigPublicKey)`.  A
`GenericSignature` given to `combine` is the key it carries with its
compressed form. -/

namespace Iota.Crypto

open Iota.Lib

/-- `MAX_SIGNER_IN_MULTISIG` -/
def MAX_SIGNER_IN_MULTISIG : ℕ := 10

/-- `MAX_BITMAP_VALUE`, `0b1111111111`. -/
def MAX_BITMAP_VALUE : ℕ := 1023

inductive CompressedSignature (σ : Type)
  | ed25519 (s : σ)
  | secp256k1 (s : σ)
  | secp256r1 (s : σ)
  | zkLogin (z : σ)
  deriving DecidableEq

def CompressedSignature.isZkLogin {σ : Type} : CompressedSignature σ → Bool
  | .zkLogin _ => true
  | _ => false

/-- The errors of the functions below, by their messages. -/
inductive MultiSigError
  /-- `FastCryptoError::InvalidInput` -/
  | invalidInput
  /-- "Invalid multisig pubkey" -/
  | invalidMultisigPubkey
  /-- "Invalid address derived from pks" -/
  | invalidAddress
  /-- "zkLogin sig not supported inside multisig" -/
  | zkLoginNotSupported
  /-- "Invalid bitmap" -/
  | invalidBitmap
  /-- "Invalid public keys index" -/
  | invalidPublicKeysIndex
  /-- "Invalid sig for pk=…", at the key's position -/
  | invalidSig (position : ℕ)
  /-- "Insufficient weight=… threshold=…" -/
  | insufficientWeight (weight threshold : ℕ)
  /-- "Invalid multisig public key" -/
  | invalidMultisigPublicKey
  /-- "Invalid number of signatures" -/
  | invalidNumberOfSignatures
  /-- `IncorrectSigner`: "pk does not exist" -/
  | incorrectSigner
  /-- "Duplicate public key" -/
  | duplicatePublicKey
  deriving DecidableEq

structure MultiSigPublicKey (κ : Type) where
  /-- Each key with its `u8` weight. -/
  pkMap : List (κ × ℕ)
  threshold : ℕ
  deriving DecidableEq

structure MultiSig (κ σ : Type) where
  sigs : List (CompressedSignature σ)
  bitmap : ℕ
  multisigPk : MultiSigPublicKey κ
  deriving DecidableEq

/-- The pair loop of `validate`: some key equals one after it. -/
def anyLaterEqual {κ : Type} [DecidableEq κ] : List κ → Bool
  | [] => false
  | pk :: rest => rest.any (· = pk) || anyLaterEqual rest

namespace MultiSigPublicKey

variable {κ : Type} [DecidableEq κ] (pk : MultiSigPublicKey κ)

def validate : Except MultiSigError (MultiSigPublicKey κ) :=
  if pk.threshold = 0 ∨ pk.pkMap = [] ∨ MAX_SIGNER_IN_MULTISIG < pk.pkMap.length ∨
      pk.pkMap.any (fun entry => entry.2 = 0) ∨ (pk.pkMap.map Prod.snd).sum < pk.threshold ∨
      anyLaterEqual (pk.pkMap.map Prod.fst) then
    .error .invalidInput
  else .ok pk

/-- `position` of the key, as a `u8`. -/
def getIndex (signer : κ) : Option ℕ := pk.pkMap.findIdx? (fun entry => entry.1 = signer)

/-- The weight of the key at a position, zero past the end. -/
def weightAt (i : ℕ) : ℕ := ((pk.pkMap[i]?).map Prod.snd).getD 0

end MultiSigPublicKey

/-- The positions of the bits set in the bitmap, in ascending order:
`bitmap & (1 << i) != 0` for `i` in `0..10`. -/
def asIndices (bitmap : ℕ) : Except MultiSigError (List ℕ) :=
  if MAX_BITMAP_VALUE < bitmap then .error .invalidBitmap
  else .ok ((List.range 10).filter fun i => bitmap.testBit i)

namespace MultiSig

variable {κ σ α : Type} [DecidableEq κ] [DecidableEq α]

section Verify

variable (address : MultiSigPublicKey κ → α) (verifySig : κ → CompressedSignature σ → Bool)

/-- One round of the loop of `verify_claims`: the signature is checked against
the key at its bitmap position, whose weight is then added. -/
def verifyPosition (pk : MultiSigPublicKey κ) (weightSum : ℕ) (entry : CompressedSignature σ × ℕ) :
    Except MultiSigError ℕ :=
  match pk.pkMap[entry.2]? with
  | none => throw .invalidPublicKeysIndex
  | some (subsigPubkey, weight) =>
    if verifySig subsigPubkey entry.1 then pure (weightSum + weight) else throw (.invalidSig entry.2)

/-- Signatures are paired with the set positions of the bitmap by `zip`,
which stops at the shorter of the two. -/
def verifyClaims (ms : MultiSig κ σ) (multisigAddress : α) (acceptZkLoginInMultisig : Bool) :
    Except MultiSigError Unit := do
  let _ ← ms.multisigPk.validate.mapError fun _ => .invalidMultisigPubkey
  if address ms.multisigPk ≠ multisigAddress then throw .invalidAddress
  else if ms.sigs.any CompressedSignature.isZkLogin ∧ !acceptZkLoginInMultisig then throw .zkLoginNotSupported
  else do
    let indices ← asIndices ms.bitmap
    let weightSum ← (ms.sigs.zip indices).foldlM (verifyPosition verifySig ms.multisigPk) 0
    if ms.multisigPk.threshold ≤ weightSum then pure ()
    else throw (.insufficientWeight weightSum ms.multisigPk.threshold)

end Verify

/-- One signature of `combine`: its key's position is set in the bitmap, and
the signature is appended. -/
def combineStep (pk : MultiSigPublicKey κ) (acc : ℕ × List (CompressedSignature σ))
    (fullSig : κ × CompressedSignature σ) : Except MultiSigError (ℕ × List (CompressedSignature σ)) := do
  let index ←
    match pk.getIndex fullSig.1 with
    | some index => pure index
    | none => throw .incorrectSigner
  if acc.1.testBit index then throw .duplicatePublicKey
  else pure (acc.1 ||| 1 <<< index, acc.2 ++ [fullSig.2])

/-- The signatures must come in the order of their keys in the public key. -/
def combine (fullSigs : List (κ × CompressedSignature σ)) (multisigPk : MultiSigPublicKey κ) :
    Except MultiSigError (MultiSig κ σ) := do
  let _ ← multisigPk.validate.mapError fun _ => .invalidMultisigPublicKey
  if multisigPk.pkMap.length < fullSigs.length ∨ fullSigs = [] then throw .invalidNumberOfSignatures
  else do
    let (bitmap, sigs) ← fullSigs.foldlM (combineStep multisigPk) (0, [])
    pure ⟨sigs, bitmap, multisigPk⟩

/-- The checks `from_bytes` makes once the bytes are decoded. -/
def initAndValidate (ms : MultiSig κ σ) : Except MultiSigError (MultiSig κ σ) :=
  if ms.multisigPk.pkMap.length < ms.sigs.length ∨ ms.sigs = [] ∨ MAX_BITMAP_VALUE < ms.bitmap then
    .error .invalidInput
  else do
    let _ ← ms.multisigPk.validate
    pure ms

/-! ### What a successful verification establishes -/

theorem asIndices_eq_ok {bitmap : ℕ} {indices : List ℕ} :
    asIndices bitmap = .ok indices ↔
      bitmap ≤ MAX_BITMAP_VALUE ∧ indices = (List.range 10).filter fun i => bitmap.testBit i := by
  unfold asIndices
  split_ifs with h
  · simp [h]
  · simp [not_lt.mp h, eq_comm]

theorem pairwise_lt_of_asIndices {bitmap : ℕ} {indices : List ℕ} (h : asIndices bitmap = .ok indices) :
    indices.Pairwise (· < ·) := by
  rw [(Iff.mp asIndices_eq_ok h).2]
  exact List.pairwise_lt_range.filter _

theorem map_snd_zip_sublist {β γ : Type} : ∀ (l₁ : List β) (l₂ : List γ), ((l₁.zip l₂).map Prod.snd).Sublist l₂
  | [], _ => by simp
  | _ :: _, [] => by simp
  | _ :: l₁, _ :: l₂ => by
    rw [List.zip_cons_cons, List.map_cons]
    exact (map_snd_zip_sublist l₁ l₂).cons_cons _

section Verify

variable (address : MultiSigPublicKey κ → α) (verifySig : κ → CompressedSignature σ → Bool)

omit [DecidableEq κ] in
theorem verifyPosition_eq_ok {pk : MultiSigPublicKey κ} {weightSum weightSum' : ℕ}
    {entry : CompressedSignature σ × ℕ} :
    verifyPosition verifySig pk weightSum entry = .ok weightSum' ↔
      ∃ key weight, pk.pkMap[entry.2]? = some (key, weight) ∧ verifySig key entry.1 = true ∧
        weightSum' = weightSum + weight := by
  unfold verifyPosition
  cases hentry : pk.pkMap[entry.2]? with
  | none => simp [throw, throwThe, MonadExceptOf.throw]
  | some keyWeight =>
    obtain ⟨key, weight⟩ := keyWeight
    by_cases hverify : verifySig key entry.1 = true
    · simp only [hverify, if_true, pure, Except.pure, Except.ok.injEq, Option.some.injEq, Prod.mk.injEq]
      constructor
      · rintro rfl
        exact ⟨key, weight, ⟨rfl, rfl⟩, hverify, rfl⟩
      · rintro ⟨_, _, ⟨rfl, rfl⟩, -, rfl⟩
        rfl
    · simp [hverify, throw, throwThe, MonadExceptOf.throw]

omit [DecidableEq κ] in
theorem foldlM_verifyPosition_eq_ok {pk : MultiSigPublicKey κ} :
    ∀ (entries : List (CompressedSignature σ × ℕ)) (weightSum weightSum' : ℕ),
      entries.foldlM (verifyPosition verifySig pk) weightSum = .ok weightSum' ↔
        (∀ entry ∈ entries, ∃ key weight, pk.pkMap[entry.2]? = some (key, weight) ∧ verifySig key entry.1 = true) ∧
          weightSum' = weightSum + (entries.map fun entry => pk.weightAt entry.2).sum
  | [], weightSum, weightSum' => by
    simp only [List.foldlM_nil, except_pure_eq_ok, List.map_nil, List.sum_nil, Nat.add_zero]
    exact ⟨fun h => ⟨fun _ hentry => absurd hentry List.not_mem_nil, h.symm⟩, fun h => h.2.symm⟩
  | entry :: entries, weightSum, weightSum' => by
    rw [List.foldlM_cons, except_bind_eq_ok]
    constructor
    · rintro ⟨w, hw, hrest⟩
      obtain ⟨key, weight, hkey, hverify, rfl⟩ := (verifyPosition_eq_ok verifySig).mp hw
      obtain ⟨hall, rfl⟩ := (foldlM_verifyPosition_eq_ok entries _ _).mp hrest
      refine ⟨List.forall_mem_cons.mpr ⟨⟨key, weight, hkey, hverify⟩, hall⟩, ?_⟩
      simp [MultiSigPublicKey.weightAt, hkey, Nat.add_assoc]
    · rintro ⟨hall, rfl⟩
      obtain ⟨⟨key, weight, hkey, hverify⟩, hrest⟩ := List.forall_mem_cons.mp hall
      refine ⟨weightSum + weight, (verifyPosition_eq_ok verifySig).mpr ⟨key, weight, hkey, hverify, rfl⟩,
        (foldlM_verifyPosition_eq_ok entries _ _).mpr ⟨hrest, ?_⟩⟩
      simp [MultiSigPublicKey.weightAt, hkey, Nat.add_assoc]

theorem verifyClaims_eq_ok {ms : MultiSig κ σ} {multisigAddress : α} {acceptZkLogin : Bool}
    (h : verifyClaims address verifySig ms multisigAddress acceptZkLogin = .ok ()) :
    ms.multisigPk.validate = .ok ms.multisigPk ∧ address ms.multisigPk = multisigAddress ∧
      (ms.sigs.any CompressedSignature.isZkLogin = true → acceptZkLogin = true) ∧
      ∃ indices, asIndices ms.bitmap = .ok indices ∧
        (∀ entry ∈ ms.sigs.zip indices, ∃ key weight,
          ms.multisigPk.pkMap[entry.2]? = some (key, weight) ∧ verifySig key entry.1 = true) ∧
        ((ms.sigs.zip indices).map Prod.snd).Nodup ∧
        ms.multisigPk.threshold ≤ ((ms.sigs.zip indices).map fun entry => ms.multisigPk.weightAt entry.2).sum := by
  unfold verifyClaims at h
  rw [except_bind_eq_ok] at h
  obtain ⟨u, hvalid, h⟩ := h
  rw [except_mapError_eq_ok] at hvalid
  have hvalid' : ms.multisigPk.validate = .ok ms.multisigPk := by
    unfold MultiSigPublicKey.validate at hvalid ⊢
    split_ifs at hvalid ⊢
    rfl
  split_ifs at h with haddress hzk
  rw [except_bind_eq_ok] at h
  obtain ⟨indices, hindices, h⟩ := h
  rw [except_bind_eq_ok] at h
  obtain ⟨weightSum, hloop, h⟩ := h
  obtain ⟨hall, rfl⟩ := (foldlM_verifyPosition_eq_ok verifySig _ 0 weightSum).mp hloop
  split_ifs at h with hweight
  refine ⟨hvalid', not_not.mp haddress, fun hany => ?_, indices, hindices, hall,
    ((map_snd_zip_sublist _ _).nodup (pairwise_lt_of_asIndices hindices).nodup), by simpa using hweight⟩
  simpa [hany] using hzk

end Verify

/-! ### Combining signatures given in key order -/

theorem length_le_of_validate {pk pk' : MultiSigPublicKey κ} (h : pk.validate = .ok pk') :
    pk.pkMap.length ≤ MAX_SIGNER_IN_MULTISIG := by
  unfold MultiSigPublicKey.validate at h
  split_ifs at h with hinvalid
  exact not_lt.mp fun hlong => hinvalid (.inr (.inr (.inl hlong)))

theorem getElem?_of_getIndex {pk : MultiSigPublicKey κ} {signer : κ} {i : ℕ} (h : pk.getIndex signer = some i) :
    i < pk.pkMap.length ∧ ∃ weight, pk.pkMap[i]? = some (signer, weight) := by
  obtain ⟨hi, hfound, -⟩ := List.findIdx?_eq_some_iff_getElem.mp h
  have hkey : pk.pkMap[i].1 = signer := by simpa using hfound
  exact ⟨hi, pk.pkMap[i].2, by rw [List.getElem?_eq_getElem hi]; exact congrArg some (Prod.ext hkey rfl)⟩

theorem foldlM_combineStep_eq_ok {pk : MultiSigPublicKey κ} :
    ∀ (fullSigs : List (κ × CompressedSignature σ)) (positions : List ℕ) (bitmap : ℕ)
      (sigs : List (CompressedSignature σ)),
      fullSigs.map (fun fullSig => pk.getIndex fullSig.1) = positions.map some →
      positions.Pairwise (· < ·) → (∀ i ∈ positions, ∀ j, bitmap.testBit j = true → j < i) →
      ∃ bitmap', fullSigs.foldlM (combineStep pk) (bitmap, sigs) = .ok (bitmap', sigs ++ fullSigs.map Prod.snd) ∧
        ∀ j, bitmap'.testBit j = true ↔ bitmap.testBit j = true ∨ j ∈ positions
  | [], [], bitmap, sigs, _, _, _ => ⟨bitmap, by simp, fun j => by simp⟩
  | [], _ :: _, _, _, hpositions, _, _ => by simp at hpositions
  | _ :: _, [], _, _, hpositions, _, _ => by simp at hpositions
  | fullSig :: fullSigs, i :: positions, bitmap, sigs, hpositions, hincreasing, hbelow => by
    simp only [List.map_cons, List.cons.injEq] at hpositions
    obtain ⟨hi, hrest⟩ := hpositions
    obtain ⟨hlt, hincreasing'⟩ := List.pairwise_cons.mp hincreasing
    -- the position is above every bit already set, so it is not a duplicate
    have hfree : bitmap.testBit i = false := by
      cases hset : bitmap.testBit i
      · rfl
      · exact absurd (hbelow i List.mem_cons_self i hset) (lt_irrefl i)
    have hbit : ∀ j, (bitmap ||| 1 <<< i).testBit j = true ↔ bitmap.testBit j = true ∨ j = i := by
      intro j
      rw [Nat.testBit_or, Nat.one_shiftLeft, Nat.testBit_two_pow, Bool.or_eq_true, decide_eq_true_iff]
      exact or_congr Iff.rfl eq_comm
    have hstep : combineStep pk (bitmap, sigs) fullSig = .ok (bitmap ||| 1 <<< i, sigs ++ [fullSig.2]) := by
      simp [combineStep, hi, hfree, pure, Except.pure]
    obtain ⟨bitmap', hfold, hbits⟩ := foldlM_combineStep_eq_ok fullSigs positions (bitmap ||| 1 <<< i)
      (sigs ++ [fullSig.2]) hrest hincreasing' fun i' hi' j hj => by
        rcases (hbit j).mp hj with hj | rfl
        · exact hbelow i' (List.mem_cons_of_mem _ hi') j hj
        · exact hlt i' hi'
    refine ⟨bitmap', ?_, fun j => ?_⟩
    · rw [List.foldlM_cons, hstep, except_ok_bind, hfold, List.map_cons, List.append_assoc, List.singleton_append]
    · rw [hbits j, hbit j, List.mem_cons]
      tauto

theorem asIndices_of_testBit {bitmap : ℕ} {positions : List ℕ} (hbits : ∀ j, bitmap.testBit j = true ↔ j ∈ positions)
    (hincreasing : positions.Pairwise (· < ·)) (hbound : ∀ i ∈ positions, i < 10) :
    asIndices bitmap = .ok positions := by
  have hsmall : bitmap < 2 ^ 10 := Nat.lt_pow_two_of_testBit bitmap fun j hj => by
    cases hset : bitmap.testBit j
    · rfl
    · exact absurd (hbound j ((hbits j).mp hset)) (not_lt.mpr hj)
  refine Iff.mpr asIndices_eq_ok ⟨by unfold MAX_BITMAP_VALUE; omega, ?_⟩
  refine List.Perm.eq_of_pairwise (fun a b _ _ hab hba => absurd (hab.trans hba) (lt_irrefl a)) hincreasing
    (List.pairwise_lt_range.filter _) ?_
  rw [List.perm_ext_iff_of_nodup hincreasing.nodup (List.nodup_range.filter _)]
  intro j
  simp only [List.mem_filter, List.mem_range, hbits]
  exact ⟨fun hj => ⟨hbound j hj, hj⟩, fun hj => hj.2⟩

theorem mem_zip_of_getIndex {pk : MultiSigPublicKey κ} :
    ∀ (fullSigs : List (κ × CompressedSignature σ)) (positions : List ℕ),
      fullSigs.map (fun fullSig => pk.getIndex fullSig.1) = positions.map some →
      ∀ entry ∈ (fullSigs.map Prod.snd).zip positions,
        ∃ fullSig ∈ fullSigs, fullSig.2 = entry.1 ∧ pk.getIndex fullSig.1 = some entry.2
  | [], _, _ => by simp
  | _ :: _, [], _ => by simp
  | fullSig :: fullSigs, i :: positions, hpositions => by
    simp only [List.map_cons, List.cons.injEq] at hpositions
    intro entry hentry
    rw [List.map_cons, List.zip_cons_cons, List.mem_cons] at hentry
    rcases hentry with rfl | hentry
    · exact ⟨fullSig, List.mem_cons_self, rfl, hpositions.1⟩
    · obtain ⟨f, hf, hsig, hindex⟩ := mem_zip_of_getIndex fullSigs positions hpositions.2 entry hentry
      exact ⟨f, List.mem_cons_of_mem _ hf, hsig, hindex⟩

section Verify

variable (address : MultiSigPublicKey κ → α) (verifySig : κ → CompressedSignature σ → Bool)

theorem combine_verifyClaims {pk : MultiSigPublicKey κ} {fullSigs : List (κ × CompressedSignature σ)}
    {positions : List ℕ} {acceptZkLogin : Bool} (hpk : pk.validate = .ok pk) (hnonempty : fullSigs ≠ [])
    (hpositions : fullSigs.map (fun fullSig => pk.getIndex fullSig.1) = positions.map some)
    (hincreasing : positions.Pairwise (· < ·))
    (hverify : ∀ fullSig ∈ fullSigs, verifySig fullSig.1 fullSig.2 = true)
    (hzkLogin : fullSigs.any (fun fullSig => fullSig.2.isZkLogin) = true → acceptZkLogin = true)
    (hweight : pk.threshold ≤ (positions.map pk.weightAt).sum) :
    ∃ ms, combine fullSigs pk = .ok ms ∧ verifyClaims address verifySig ms (address pk) acceptZkLogin = .ok () := by
  have hlength : fullSigs.length = positions.length := by
    simpa using congrArg List.length hpositions
  -- every position is that of a member key, so below the number of keys
  have hmember : ∀ i ∈ positions, i < pk.pkMap.length := by
    intro i hi
    have hsome : some i ∈ fullSigs.map (fun fullSig => pk.getIndex fullSig.1) := by
      rw [hpositions]
      exact List.mem_map_of_mem hi
    obtain ⟨fullSig, -, hindex⟩ := List.mem_map.mp hsome
    exact (getElem?_of_getIndex hindex).1
  have hfew : fullSigs.length ≤ pk.pkMap.length := by
    rw [hlength]
    simpa using (List.Nodup.subperm hincreasing.nodup fun i hi => List.mem_range.mpr (hmember i hi)).length_le
  obtain ⟨bitmap, hfold, hbits⟩ := foldlM_combineStep_eq_ok fullSigs positions 0 [] hpositions hincreasing (by simp)
  have hindices : asIndices bitmap = .ok positions :=
    asIndices_of_testBit (fun j => by simpa using hbits j) hincreasing
      fun i hi => lt_of_lt_of_le (hmember i hi) (length_le_of_validate hpk)
  refine ⟨⟨fullSigs.map Prod.snd, bitmap, pk⟩, ?_, ?_⟩
  · unfold combine
    rw [hpk]
    simp [Except.mapError, hfold, not_lt.mpr hfew, hnonempty]
  · -- each paired signature is its signer's, checked against the signer's key
    have hall : ∀ entry ∈ (fullSigs.map Prod.snd).zip positions, ∃ key weight,
        pk.pkMap[entry.2]? = some (key, weight) ∧ verifySig key entry.1 = true := by
      intro entry hentry
      obtain ⟨fullSig, hfullSig, hsig, hindex⟩ := mem_zip_of_getIndex fullSigs positions hpositions entry hentry
      obtain ⟨weight, hkey⟩ := (getElem?_of_getIndex hindex).2
      exact ⟨fullSig.1, weight, hkey, hsig ▸ hverify fullSig hfullSig⟩
    have hloop := (foldlM_verifyPosition_eq_ok verifySig _ 0 _).mpr ⟨hall, rfl⟩
    have hsum : (((fullSigs.map Prod.snd).zip positions).map fun entry => pk.weightAt entry.2).sum =
        (positions.map pk.weightAt).sum := by
      change (((fullSigs.map Prod.snd).zip positions).map (pk.weightAt ∘ Prod.snd)).sum = _
      rw [← List.map_map, List.map_snd_zip (by simp [hlength])]
    have hzk : ¬((fullSigs.map Prod.snd).any CompressedSignature.isZkLogin = true ∧ (!acceptZkLogin) = true) := by
      rw [List.any_map]
      rintro ⟨hany, hreject⟩
      simp [hzkLogin hany] at hreject
    unfold verifyClaims
    simp only [hpk, Except.mapError, except_ok_bind, ne_eq, not_true_eq_false, if_false, hzk, hindices, hloop]
    rw [if_pos (by simpa [hsum] using hweight)]
    rfl

/-- Verification is sound and complete up to the pairing by `zip`: a verified
multisig has a valid key of the claimed address, and its signatures paired
with the set positions of the bitmap, as far as the shorter list goes, verify
against the keys there, at distinct positions weighing at least the
threshold; signatures by member keys given in increasing key position and
weighing the threshold combine into a multisig that verifies. -/
theorem verifyClaims_sound_and_complete :
    (∀ (ms : MultiSig κ σ) (multisigAddress : α) (acceptZkLogin : Bool),
      verifyClaims address verifySig ms multisigAddress acceptZkLogin = .ok () →
        ms.multisigPk.validate = .ok ms.multisigPk ∧ address ms.multisigPk = multisigAddress ∧
        (ms.sigs.any CompressedSignature.isZkLogin = true → acceptZkLogin = true) ∧
        ∃ indices, asIndices ms.bitmap = .ok indices ∧
          (∀ entry ∈ ms.sigs.zip indices, ∃ key weight,
            ms.multisigPk.pkMap[entry.2]? = some (key, weight) ∧ verifySig key entry.1 = true) ∧
          ((ms.sigs.zip indices).map Prod.snd).Nodup ∧
          ms.multisigPk.threshold ≤ ((ms.sigs.zip indices).map fun entry => ms.multisigPk.weightAt entry.2).sum) ∧
    (∀ (pk : MultiSigPublicKey κ) (fullSigs : List (κ × CompressedSignature σ)) (positions : List ℕ)
      (acceptZkLogin : Bool), pk.validate = .ok pk → fullSigs ≠ [] →
      fullSigs.map (fun fullSig => pk.getIndex fullSig.1) = positions.map some →
      positions.Pairwise (· < ·) → (∀ fullSig ∈ fullSigs, verifySig fullSig.1 fullSig.2 = true) →
      (fullSigs.any (fun fullSig => fullSig.2.isZkLogin) = true → acceptZkLogin = true) →
      pk.threshold ≤ (positions.map pk.weightAt).sum →
      ∃ ms, combine fullSigs pk = .ok ms ∧ verifyClaims address verifySig ms (address pk) acceptZkLogin = .ok ()) :=
  ⟨fun _ _ _ h => verifyClaims_eq_ok address verifySig h,
    fun _ _ _ _ hpk hnonempty hpositions hincreasing hverify hzkLogin hweight =>
      combine_verifyClaims address verifySig hpk hnonempty hpositions hincreasing hverify hzkLogin hweight⟩

end Verify

/-- A signature scheme over numbers: a signature verifies against key `k`
exactly when it is the Ed25519 signature `k`. -/
def signedBy (pk : ℕ) (sig : CompressedSignature ℕ) : Bool := sig = .ed25519 pk

/-- Keys `1` and `2` of weight one and threshold one; one bit set, and two
signatures, the second by no key. -/
def oneBitTwoSigs : MultiSig ℕ ℕ := ⟨[.ed25519 1, .ed25519 9], 1, ⟨[(1, 1), (2, 1)], 1⟩⟩

/-- `from_bytes` accepts a multisig with more signatures than bits set, and it
verifies although its second signature is by no key: `zip` never reaches it. -/
theorem verifyClaims_skips_extra_signature :
    oneBitTwoSigs.initAndValidate = .ok oneBitTwoSigs ∧
      verifyClaims (fun _ => 0) signedBy oneBitTwoSigs 0 false = .ok () ∧
      CompressedSignature.ed25519 9 ∈ oneBitTwoSigs.sigs ∧
      (∀ entry ∈ oneBitTwoSigs.multisigPk.pkMap, signedBy entry.1 (.ed25519 9) = false) ∧
      ((List.range 10).filter oneBitTwoSigs.bitmap.testBit).length ≠ oneBitTwoSigs.sigs.length :=
  ⟨rfl, rfl, by decide, by decide, by decide⟩

end MultiSig

end Iota.Crypto
