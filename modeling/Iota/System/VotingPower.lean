import Mathlib
import Iota.Lib.Move

/-! The voting power of the committee, `iota_system::voting_power`. At the
epoch change every committee member gets a share of `TOTAL_VOTING_POWER`
proportional to its stake, capped at a threshold that depends on the size of
the committee; what the caps leave over is handed out again from the largest
stake down, and the result is checked before it is kept. -/

namespace Iota.System.VotingPower

open Iota.Lib Iota.Lib.Move

/-- The two fields of a `ValidatorV1` that voting power reads and writes:
`total_stake()`, the balance of its staking pool, and `voting_power`. -/
structure ValidatorV1 where
  totalStake : ℕ
  votingPower : ℕ
  deriving DecidableEq, Repr

structure VotingPowerInfoV1 where
  validatorIndex : ℕ
  votingPower : ℕ
  stake : ℕ
  deriving DecidableEq, Repr

def TOTAL_VOTING_POWER : ℕ := 10000

def MAX_VOTING_POWER : ℕ := 1000

def ETotalPowerMismatch : ℕ := 1

def ERelativePowerMismatch : ℕ := 2

def EVotingPowerOverThreshold : ℕ := 3

def EInvalidVotingPower : ℕ := 4

/-- The cap of one member's power, computed first in `set_voting_power`:
`MAX_VOTING_POWER`, unless the committee is too small for caps of that size to
add up to the total. -/
def threshold (committeeSize : ℕ) : Except Abort ℕ := do
  let share ← divideAndRoundUp TOTAL_VOTING_POWER committeeSize
  pure (min TOTAL_VOTING_POWER (max MAX_VOTING_POWER share))

def totalCommitteeStake (validators : List ValidatorV1) (committeeMembers : List ℕ) : Except Abort ℕ :=
  takeFoldRef validators committeeMembers 0 fun stake validator => add 64 stake validator.totalStake

/-- One step of the insertion sort: `new_info` goes before the first entry
whose stake is not larger than its own. -/
def insert : List VotingPowerInfoV1 → VotingPowerInfoV1 → List VotingPowerInfoV1
  | [], newInfo => [newInfo]
  | info :: infoList, newInfo =>
    if info.stake > newInfo.stake then info :: insert infoList newInfo else newInfo :: info :: infoList

/-- The body of the loop of `init_voting_power_info` for one committee member. -/
def initVotingPowerInfoStep (threshold totalCommitteeStake : ℕ) (acc : List VotingPowerInfoV1 × ℕ)
    (validatorIndex : ℕ) (validator : ValidatorV1) : Except Abort (List VotingPowerInfoV1 × ℕ) := do
  let stake := validator.totalStake
  let scaled ← mul 128 stake TOTAL_VOTING_POWER
  let adjustedStake ← div scaled totalCommitteeStake
  let votingPower := min (← cast 64 adjustedStake) threshold
  let totalPower ← add 64 acc.2 votingPower
  pure (insert acc.1 ⟨validatorIndex, votingPower, stake⟩, totalPower)

def initVotingPowerInfo (committeeMembers : List ℕ) (validators : List ValidatorV1) (threshold : ℕ) :
    Except Abort (List VotingPowerInfoV1 × ℕ) := do
  let totalCommitteeStake ← totalCommitteeStake validators committeeMembers
  let (result, totalPower) ←
    takeFoldWithIx validators committeeMembers ([], 0) (initVotingPowerInfoStep threshold totalCommitteeStake)
  pure (result, ← sub TOTAL_VOTING_POWER totalPower)

/-- The loop of `adjust_voting_power`, from position `i` on: it runs while
power remains, and gives each member its rounded-up share of what remains over
the members left, up to the threshold. -/
def adjustVotingPowerLoop (threshold : ℕ) :
    List VotingPowerInfoV1 → ℕ → Except Abort (List VotingPowerInfoV1 × ℕ)
  | [], remainingPower => pure ([], remainingPower)
  | v :: infoList, remainingPower =>
    if 0 < remainingPower then do
      let planned ← divideAndRoundUp remainingPower (infoList.length + 1)
      let target := min threshold (← add 64 v.votingPower planned)
      let actual := min remainingPower (← sub target v.votingPower)
      let votingPower ← add 64 v.votingPower actual
      if votingPower ≤ threshold then do
        let (infoList, remainingPower) ← adjustVotingPowerLoop threshold infoList (← sub remainingPower actual)
        pure ({ v with votingPower } :: infoList, remainingPower)
      else throw (.abort EVotingPowerOverThreshold)
    else pure (v :: infoList, remainingPower)

def adjustVotingPower (infoList : List VotingPowerInfoV1) (threshold remainingPower : ℕ) :
    Except Abort (List VotingPowerInfoV1) := do
  let (infoList, remainingPower) ← adjustVotingPowerLoop threshold infoList remainingPower
  if remainingPower = 0 then pure infoList else throw (.abort ETotalPowerMismatch)

/-- Every active validator's power is first set to zero; then the entries are
popped from the back of the list, each setting the power of its validator. -/
def updateVotingPower (validators : List ValidatorV1) (infoList : List VotingPowerInfoV1) :
    Except Abort (List ValidatorV1) :=
  infoList.reverse.foldlM
    (fun validators info => modify validators info.validatorIndex fun v => { v with votingPower := info.votingPower })
    (validators.map fun v => { v with votingPower := 0 })

/-- The two `assert!`s of the inner loop of `check_invariants` for one pair. -/
def checkRelativePower (validatorA validatorB : ValidatorV1) : Except Abort Unit := do
  let _ ← if validatorA.totalStake > validatorB.totalStake then
      assert (validatorA.votingPower ≥ validatorB.votingPower) ERelativePowerMismatch
    else pure ()
  if validatorA.totalStake < validatorB.totalStake then
    assert (validatorA.votingPower ≤ validatorB.votingPower) ERelativePowerMismatch
  else pure ()

/-- The nested loops of `check_invariants`: every member against every member
after it in `committee_members`. -/
def checkRelativePowers (validators : List ValidatorV1) : List ℕ → Except Abort Unit
  | [] => pure ()
  | a :: committeeMembers => do
    committeeMembers.forM fun b => do
      let validatorA ← borrow validators a
      let validatorB ← borrow validators b
      checkRelativePower validatorA validatorB
    checkRelativePowers validators committeeMembers

def checkInvariants (committeeMembers : List ℕ) (validators : List ValidatorV1) : Except Abort Unit := do
  let totalVotingPower ← takeFoldRef validators committeeMembers 0 fun total v => do
    assert (v.votingPower > 0) EInvalidVotingPower
    add 64 total v.votingPower
  if totalVotingPower = TOTAL_VOTING_POWER then checkRelativePowers validators committeeMembers
  else throw (.abort ETotalPowerMismatch)

/-- `set_voting_power`, returning the active validators it leaves. -/
def setVotingPower (committeeMembers : List ℕ) (activeValidators : List ValidatorV1) :
    Except Abort (List ValidatorV1) := do
  let threshold ← threshold committeeMembers.length
  let (infoList, remainingPower) ← initVotingPowerInfo committeeMembers activeValidators threshold
  let infoList ← adjustVotingPower infoList threshold remainingPower
  let activeValidators ← updateVotingPower activeValidators infoList
  checkInvariants committeeMembers activeValidators
  pure activeValidators

example : setVotingPower [0, 2] [⟨30, 5⟩, ⟨1, 9⟩, ⟨10, 0⟩] = .ok [⟨30, 5000⟩, ⟨1, 0⟩, ⟨10, 5000⟩] := by decide

/-! ### Reading the validators -/

/-- The stake of the validator at `i`, zero past the end. -/
def stakeAt (validators : List ValidatorV1) (i : ℕ) : ℕ := ((validators[i]?).map ValidatorV1.totalStake).getD 0

/-- The voting power of the validator at `i`, zero past the end. -/
def powerAt (validators : List ValidatorV1) (i : ℕ) : ℕ := ((validators[i]?).map ValidatorV1.votingPower).getD 0

/-- What `check_invariants` asks of the validators at `a` and `b`: the larger
stake never has the smaller power. -/
def RelativePowerOk (validators : List ValidatorV1) (a b : ℕ) : Prop :=
  (stakeAt validators b < stakeAt validators a → powerAt validators b ≤ powerAt validators a) ∧
    (stakeAt validators a < stakeAt validators b → powerAt validators a ≤ powerAt validators b)

theorem stakeAt_of_lt {validators : List ValidatorV1} {i : ℕ} (hi : i < validators.length) :
    stakeAt validators i = validators[i].totalStake := by
  simp [stakeAt, List.getElem?_eq_getElem hi]

theorem powerAt_of_lt {validators : List ValidatorV1} {i : ℕ} (hi : i < validators.length) :
    powerAt validators i = validators[i].votingPower := by
  simp [powerAt, List.getElem?_eq_getElem hi]

theorem RelativePowerOk.symm {validators : List ValidatorV1} {a b : ℕ} (h : RelativePowerOk validators a b) :
    RelativePowerOk validators b a :=
  ⟨h.2, h.1⟩

/-! ### The threshold and the total stake -/

theorem threshold_eq_ok {committeeSize : ℕ} (hsize : 0 < committeeSize) :
    ∃ t, threshold committeeSize = .ok t ∧ TOTAL_VOTING_POWER ≤ committeeSize * t ∧
      MAX_VOTING_POWER ≤ t ∧ t ≤ TOTAL_VOTING_POWER := by
  have hshare := le_mul_roundUpDiv (x := TOTAL_VOTING_POWER) hsize
  refine ⟨_, by rw [threshold, divideAndRoundUp_of_pos hsize]; rfl, ?_, ?_, min_le_left _ _⟩
  · rcases min_cases TOTAL_VOTING_POWER (max MAX_VOTING_POWER (roundUpDiv TOTAL_VOTING_POWER committeeSize))
      with ⟨hmin, -⟩ | ⟨hmin, -⟩
    · rw [hmin]
      exact Nat.le_mul_of_pos_left _ hsize
    · rw [hmin]
      exact hshare.trans (Nat.mul_le_mul_left _ (le_max_right _ _))
  · unfold TOTAL_VOTING_POWER MAX_VOTING_POWER
    omega

theorem totalCommitteeStake_eq_ok {validators : List ValidatorV1} {committeeMembers : List ℕ} {total : ℕ} :
    totalCommitteeStake validators committeeMembers = .ok total ↔
      (∀ i ∈ committeeMembers, i < validators.length) ∧ (committeeMembers.map (stakeAt validators)).sum < 2 ^ 64 ∧
        total = (committeeMembers.map (stakeAt validators)).sum := by
  rw [totalCommitteeStake, takeFoldRef_add_eq_ok (c := fun _ => pure ())
    (g := ValidatorV1.totalStake)
    (f := fun stake (validator : ValidatorV1) => add 64 stake validator.totalStake) (fun _ _ => rfl) (Nat.two_pow_pos 64)]
  simp only [zero_add]
  constructor
  · rintro ⟨hvalid, hfits, rfl⟩
    exact ⟨fun i hi => (hvalid i hi).1, hfits, rfl⟩
  · rintro ⟨hvalid, hfits, rfl⟩
    exact ⟨fun i hi => ⟨hvalid i hi, rfl⟩, hfits, rfl⟩

/-! ### The insertion sort -/

theorem perm_insert (infoList : List VotingPowerInfoV1) (newInfo : VotingPowerInfoV1) :
    (insert infoList newInfo).Perm (newInfo :: infoList) := by
  induction infoList with
  | nil => rfl
  | cons info infoList ih =>
    unfold insert
    split_ifs
    · exact (ih.cons info).trans (List.Perm.swap newInfo info infoList)
    · rfl

theorem pairwise_insert {infoList : List VotingPowerInfoV1} (newInfo : VotingPowerInfoV1)
    (hsorted : (infoList.map VotingPowerInfoV1.stake).Pairwise (· ≥ ·)) :
    ((insert infoList newInfo).map VotingPowerInfoV1.stake).Pairwise (· ≥ ·) := by
  induction infoList with
  | nil => exact List.pairwise_singleton _ _
  | cons info infoList ih =>
    rw [List.map_cons, List.pairwise_cons] at hsorted
    unfold insert
    split_ifs with hlarger
    · rw [List.map_cons, List.pairwise_cons]
      refine ⟨fun stake hstake => ?_, ih hsorted.2⟩
      rw [((perm_insert infoList newInfo).map _).mem_iff, List.map_cons, List.mem_cons] at hstake
      rcases hstake with rfl | hstake
      · exact hlarger.le
      · exact hsorted.1 stake hstake
    · rw [List.map_cons, List.pairwise_cons, List.map_cons, List.forall_mem_cons]
      refine ⟨⟨not_lt.mp hlarger, fun stake hstake => le_trans (hsorted.1 stake hstake) (not_lt.mp hlarger)⟩, ?_⟩
      exact List.pairwise_cons.mpr hsorted


/-! ### The first share of each member -/

/-- The entry `init_voting_power_info` makes for the member at `i`: its share
of the total in proportion to its stake, rounded down and capped. -/
def initialInfo (validators : List ValidatorV1) (threshold totalStake i : ℕ) : VotingPowerInfoV1 :=
  ⟨i, min (stakeAt validators i * TOTAL_VOTING_POWER / totalStake) threshold, stakeAt validators i⟩

/-- The entries of `init_voting_power_info`, sorted by stake. -/
def initialInfos (committeeMembers : List ℕ) (validators : List ValidatorV1) (threshold : ℕ) :
    List VotingPowerInfoV1 :=
  committeeMembers.foldl (fun infoList i =>
    insert infoList (initialInfo validators threshold (committeeMembers.map (stakeAt validators)).sum i)) []

/-- The power the first shares leave over. -/
def initialRemaining (committeeMembers : List ℕ) (validators : List ValidatorV1) (threshold : ℕ) : ℕ :=
  TOTAL_VOTING_POWER - (committeeMembers.map fun i =>
    (initialInfo validators threshold (committeeMembers.map (stakeAt validators)).sum i).votingPower).sum

theorem initialRemaining_le {committeeMembers : List ℕ} {validators : List ValidatorV1} {threshold : ℕ} :
    initialRemaining committeeMembers validators threshold ≤ TOTAL_VOTING_POWER :=
  Nat.sub_le _ _

theorem sum_map_div_le (l : List ℕ) (f : ℕ → ℕ) (d : ℕ) : (l.map fun i => f i / d).sum ≤ (l.map f).sum / d := by
  induction l with
  | nil => simp
  | cons i l ih =>
    simp only [List.map_cons, List.sum_cons]
    exact (Nat.add_le_add_left ih _).trans Nat.div_add_div_le_add_div

theorem sum_initialInfo_le {validators : List ValidatorV1} (threshold : ℕ) {committeeMembers : List ℕ}
    (hpos : 0 < (committeeMembers.map (stakeAt validators)).sum) :
    (committeeMembers.map fun i =>
      (initialInfo validators threshold (committeeMembers.map (stakeAt validators)).sum i).votingPower).sum ≤
        TOTAL_VOTING_POWER := by
  set total := (committeeMembers.map (stakeAt validators)).sum
  calc (committeeMembers.map fun i => (initialInfo validators threshold total i).votingPower).sum
      ≤ (committeeMembers.map fun i => stakeAt validators i * TOTAL_VOTING_POWER / total).sum :=
        List.sum_le_sum fun i _ => min_le_left _ _
    _ ≤ (committeeMembers.map fun i => stakeAt validators i * TOTAL_VOTING_POWER).sum / total :=
        sum_map_div_le _ _ _
    _ = TOTAL_VOTING_POWER := by
        rw [List.sum_map_mul_right committeeMembers (stakeAt validators) TOTAL_VOTING_POWER]
        exact Nat.mul_div_cancel_left _ hpos

theorem initVotingPowerInfoStep_eq_ok {threshold total : ℕ} {acc : List VotingPowerInfoV1 × ℕ} {i : ℕ}
    {validator : ValidatorV1} (hpos : 0 < total) (hstake : validator.totalStake ≤ total) (hfits : total < 2 ^ 64)
    (hpower : acc.2 + min (validator.totalStake * TOTAL_VOTING_POWER / total) threshold < 2 ^ 64) :
    initVotingPowerInfoStep threshold total acc i validator =
      .ok (insert acc.1 ⟨i, min (validator.totalStake * TOTAL_VOTING_POWER / total) threshold, validator.totalStake⟩,
        acc.2 + min (validator.totalStake * TOTAL_VOTING_POWER / total) threshold) := by
  have hscaled : validator.totalStake * TOTAL_VOTING_POWER < 2 ^ 128 := by
    unfold TOTAL_VOTING_POWER
    omega
  have hshare : validator.totalStake * TOTAL_VOTING_POWER / total < 2 ^ 64 := by
    have hle : validator.totalStake * TOTAL_VOTING_POWER / total ≤ TOTAL_VOTING_POWER :=
      Nat.div_le_of_le_mul (Nat.mul_le_mul_right _ hstake)
    unfold TOTAL_VOTING_POWER at hle ⊢
    omega
  rw [initVotingPowerInfoStep, mul_of_lt hscaled, except_ok_bind, div_of_pos hpos, except_ok_bind,
    cast_of_lt hshare, except_ok_bind]
  dsimp only
  rw [add_of_lt hpower]
  rfl

theorem takeFoldWithIx_initVotingPowerInfoStep {validators : List ValidatorV1} {threshold total : ℕ}
    (hpos : 0 < total) (hfits : total < 2 ^ 64) :
    ∀ {committeeMembers : List ℕ} {acc : List VotingPowerInfoV1 × ℕ},
      (∀ i ∈ committeeMembers, i < validators.length ∧ stakeAt validators i ≤ total) →
      acc.2 + (committeeMembers.map fun i => (initialInfo validators threshold total i).votingPower).sum < 2 ^ 64 →
      takeFoldWithIx validators committeeMembers acc (initVotingPowerInfoStep threshold total) =
        .ok (committeeMembers.foldl (fun infoList i => insert infoList (initialInfo validators threshold total i)) acc.1,
          acc.2 + (committeeMembers.map fun i => (initialInfo validators threshold total i).votingPower).sum)
  | [], acc, _, _ => by simp [takeFoldWithIx]
  | i :: committeeMembers, acc, hmembers, hpower => by
    obtain ⟨hi, hstake⟩ := hmembers i List.mem_cons_self
    rw [stakeAt_of_lt hi] at hstake
    simp only [List.map_cons, List.sum_cons, initialInfo, stakeAt_of_lt hi] at hpower
    rw [takeFoldWithIx_cons, take_of_lt hi, except_ok_bind,
      initVotingPowerInfoStep_eq_ok hpos hstake hfits (by omega), except_ok_bind,
      takeFoldWithIx_initVotingPowerInfoStep hpos hfits (fun j hj => hmembers j (List.mem_cons_of_mem i hj))
        (by simpa only [initialInfo, add_assoc] using hpower)]
    simp only [List.foldl_cons, List.map_cons, List.sum_cons, initialInfo, stakeAt_of_lt hi, add_assoc]

theorem initVotingPowerInfo_eq_ok {validators : List ValidatorV1} {committeeMembers : List ℕ} {threshold : ℕ}
    (hvalid : ∀ i ∈ committeeMembers, i < validators.length)
    (hpos : 0 < (committeeMembers.map (stakeAt validators)).sum)
    (hfits : (committeeMembers.map (stakeAt validators)).sum < 2 ^ 64) :
    initVotingPowerInfo committeeMembers validators threshold =
      .ok (initialInfos committeeMembers validators threshold, initialRemaining committeeMembers validators threshold) := by
  have hsum := sum_initialInfo_le threshold hpos
  have hmembers : ∀ i ∈ committeeMembers,
      i < validators.length ∧ stakeAt validators i ≤ (committeeMembers.map (stakeAt validators)).sum :=
    fun i hi => ⟨hvalid i hi, List.le_sum_of_mem (List.mem_map_of_mem hi)⟩
  rw [initVotingPowerInfo, (Iff.mpr totalCommitteeStake_eq_ok ⟨hvalid, hfits, rfl⟩), except_ok_bind,
    takeFoldWithIx_initVotingPowerInfoStep hpos hfits hmembers (by unfold TOTAL_VOTING_POWER at hsum; simp; omega),
    except_ok_bind]
  dsimp only
  rw [zero_add, sub_of_le hsum]
  rfl

/-! ### Handing out the remaining power -/

/-- What the loop of `adjust_voting_power` adds to a member of power
`votingPower` when `remainingPower` is left for `membersLeft` members: the
rounded-up share, up to the threshold and to what is left. -/
def actualIncrease (threshold remainingPower membersLeft votingPower : ℕ) : ℕ :=
  min remainingPower (min threshold (votingPower + roundUpDiv remainingPower membersLeft) - votingPower)

/-- The loop of `adjust_voting_power` on entries within the threshold, where
none of its operations can abort. -/
def adjustPowers (threshold : ℕ) : List VotingPowerInfoV1 → ℕ → List VotingPowerInfoV1 × ℕ
  | [], remainingPower => ([], remainingPower)
  | v :: infoList, remainingPower =>
    if 0 < remainingPower then
      let actual := actualIncrease threshold remainingPower (infoList.length + 1) v.votingPower
      let rest := adjustPowers threshold infoList (remainingPower - actual)
      ({ v with votingPower := v.votingPower + actual } :: rest.1, rest.2)
    else (v :: infoList, remainingPower)

theorem actualIncrease_le {threshold votingPower : ℕ} (remainingPower membersLeft : ℕ) (hv : votingPower ≤ threshold) :
    actualIncrease threshold remainingPower membersLeft votingPower ≤ remainingPower ∧
      votingPower + actualIncrease threshold remainingPower membersLeft votingPower ≤ threshold := by
  unfold actualIncrease
  omega

theorem adjustVotingPowerLoop_eq_ok {threshold : ℕ} (hthreshold : threshold ≤ TOTAL_VOTING_POWER) :
    ∀ {infoList : List VotingPowerInfoV1} {remainingPower : ℕ}, (∀ v ∈ infoList, v.votingPower ≤ threshold) →
      remainingPower ≤ TOTAL_VOTING_POWER →
      adjustVotingPowerLoop threshold infoList remainingPower = .ok (adjustPowers threshold infoList remainingPower)
  | [], _, _, _ => rfl
  | v :: infoList, remainingPower, hwithin, hremaining => by
    have hv := hwithin v List.mem_cons_self
    rw [adjustVotingPowerLoop, adjustPowers]
    split_ifs with hpositive
    · have hk : 0 < infoList.length + 1 := Nat.succ_pos _
      have hplanned := roundUpDiv_le (x := remainingPower) hk
      have hactual := actualIncrease_le remainingPower (infoList.length + 1) hv
      unfold TOTAL_VOTING_POWER at hthreshold hremaining
      unfold actualIncrease at hactual ⊢
      rw [divideAndRoundUp_of_pos hk, except_ok_bind, add_of_lt (by omega), except_ok_bind]
      dsimp only
      rw [sub_of_le (le_min hv (Nat.le_add_right _ _)), except_ok_bind, add_of_lt (by omega), except_ok_bind,
        if_pos hactual.2, sub_of_le hactual.1, except_ok_bind, adjustVotingPowerLoop_eq_ok hthreshold
          (fun w hw => hwithin w (List.mem_cons_of_mem v hw)) ((Nat.sub_le _ _).trans hremaining)]
      rfl
    · rfl

theorem adjustPowers_zero (threshold : ℕ) (infoList : List VotingPowerInfoV1) :
    adjustPowers threshold infoList 0 = (infoList, 0) := by
  cases infoList <;> rfl

theorem adjustPowers_map_key (threshold : ℕ) :
    ∀ (infoList : List VotingPowerInfoV1) (remainingPower : ℕ),
      (adjustPowers threshold infoList remainingPower).1.map (fun v => (v.validatorIndex, v.stake)) =
        infoList.map fun v => (v.validatorIndex, v.stake)
  | [], _ => rfl
  | v :: infoList, remainingPower => by
    rw [adjustPowers]
    split_ifs
    · simp only [List.map_cons, adjustPowers_map_key threshold infoList]
    · rfl

theorem adjustPowers_sum {threshold : ℕ} :
    ∀ {infoList : List VotingPowerInfoV1} (remainingPower : ℕ), (∀ v ∈ infoList, v.votingPower ≤ threshold) →
      ((adjustPowers threshold infoList remainingPower).1.map VotingPowerInfoV1.votingPower).sum +
          (adjustPowers threshold infoList remainingPower).2 =
        (infoList.map VotingPowerInfoV1.votingPower).sum + remainingPower
  | [], _, _ => rfl
  | v :: infoList, remainingPower, hwithin => by
    rw [adjustPowers]
    split_ifs
    · have hactual := actualIncrease_le remainingPower (infoList.length + 1) (hwithin v List.mem_cons_self)
      have hrest := adjustPowers_sum
        (remainingPower - actualIncrease threshold remainingPower (infoList.length + 1) v.votingPower)
        fun w hw => hwithin w (List.mem_cons_of_mem v hw)
      simp only [List.map_cons, List.sum_cons] at hrest ⊢
      omega
    · rfl

theorem le_threshold_of_adjustPowers {threshold : ℕ} :
    ∀ {infoList : List VotingPowerInfoV1} {remainingPower : ℕ}, (∀ v ∈ infoList, v.votingPower ≤ threshold) →
      ∀ v ∈ (adjustPowers threshold infoList remainingPower).1, v.votingPower ≤ threshold
  | [], _, _ => fun _ h => absurd h List.not_mem_nil
  | v :: infoList, remainingPower, hwithin => by
    rw [adjustPowers]
    split_ifs
    · rw [List.forall_mem_cons]
      exact ⟨(actualIncrease_le _ _ (hwithin v List.mem_cons_self)).2,
        le_threshold_of_adjustPowers fun w hw => hwithin w (List.mem_cons_of_mem v hw)⟩
    · exact hwithin

theorem ge_of_adjustPowers {threshold least : ℕ} :
    ∀ {infoList : List VotingPowerInfoV1} {remainingPower : ℕ}, (∀ v ∈ infoList, least ≤ v.votingPower) →
      ∀ v ∈ (adjustPowers threshold infoList remainingPower).1, least ≤ v.votingPower
  | [], _, _ => fun _ h => absurd h List.not_mem_nil
  | v :: infoList, remainingPower, hleast => by
    rw [adjustPowers]
    split_ifs
    · rw [List.forall_mem_cons]
      exact ⟨(hleast v List.mem_cons_self).trans (Nat.le_add_right _ _),
        ge_of_adjustPowers fun w hw => hleast w (List.mem_cons_of_mem v hw)⟩
    · exact hleast

theorem actualIncrease_cases {threshold votingPower : ℕ} (remainingPower membersLeft : ℕ) (hv : votingPower ≤ threshold) :
    actualIncrease threshold remainingPower membersLeft votingPower = remainingPower ∨
      votingPower + actualIncrease threshold remainingPower membersLeft votingPower = threshold ∨
      (actualIncrease threshold remainingPower membersLeft votingPower = roundUpDiv remainingPower membersLeft ∧
        roundUpDiv remainingPower membersLeft ≤ threshold - votingPower) := by
  unfold actualIncrease
  omega

theorem roundUpDiv_bounds (remainingPower rest : ℕ) :
    remainingPower ≤ rest * roundUpDiv remainingPower (rest + 1) + roundUpDiv remainingPower (rest + 1) ∧
      rest * roundUpDiv remainingPower (rest + 1) + roundUpDiv remainingPower (rest + 1) < remainingPower + (rest + 1) := by
  rw [← Nat.succ_mul]
  exact ⟨le_mul_roundUpDiv (Nat.succ_pos rest), mul_roundUpDiv_lt (Nat.succ_pos rest)⟩

theorem le_add_of_adjustPowers {threshold top step : ℕ} :
    ∀ {infoList : List VotingPowerInfoV1} {remainingPower : ℕ},
      (∀ v ∈ infoList, v.votingPower ≤ top ∧ v.votingPower + step ≤ threshold) →
      remainingPower ≤ infoList.length * step →
      ∀ v ∈ (adjustPowers threshold infoList remainingPower).1, v.votingPower ≤ top + step
  | [], _, _, _ => fun _ h => absurd h List.not_mem_nil
  | v :: infoList, remainingPower, hroom, hremaining => by
    obtain ⟨htop, hv⟩ := hroom v List.mem_cons_self
    rw [adjustPowers]
    split_ifs with hpositive
    · obtain ⟨hcover, hround⟩ := roundUpDiv_bounds remainingPower infoList.length
      rw [List.length_cons, Nat.succ_mul] at hremaining
      -- the share is at most `step`, so this member is not capped and gets the share or all that is left
      have hplanned : roundUpDiv remainingPower (infoList.length + 1) ≤ step := by
        by_contra hmore
        have := Nat.mul_le_mul_left infoList.length (Nat.succ_le_of_lt (not_le.mp hmore))
        rw [Nat.mul_succ] at this
        omega
      have hrest := Nat.mul_le_mul_left infoList.length hplanned
      have hactual : actualIncrease threshold remainingPower (infoList.length + 1) v.votingPower =
          min remainingPower (roundUpDiv remainingPower (infoList.length + 1)) := by
        unfold actualIncrease
        omega
      rw [List.forall_mem_cons, hactual]
      refine ⟨by dsimp only; omega, le_add_of_adjustPowers (fun w hw => hroom w (List.mem_cons_of_mem v hw)) ?_⟩
      omega
    · exact fun w hw => (hroom w hw).1.trans (Nat.le_add_right _ _)

theorem adjustPowers_snd_eq_zero {threshold : ℕ} :
    ∀ {infoList : List VotingPowerInfoV1} {remainingPower : ℕ},
      infoList.Pairwise (fun v w => w.votingPower ≤ v.votingPower) → (∀ v ∈ infoList, v.votingPower ≤ threshold) →
      remainingPower ≤ (infoList.map fun v => threshold - v.votingPower).sum →
      (adjustPowers threshold infoList remainingPower).2 = 0
  | [], _, _, _, hroom => Nat.le_zero.mp hroom
  | v :: infoList, remainingPower, hsorted, hwithin, hroom => by
    rw [List.pairwise_cons] at hsorted
    rw [List.map_cons, List.sum_cons] at hroom
    have hv := hwithin v List.mem_cons_self
    rw [adjustPowers]
    split_ifs with hpositive
    · refine adjustPowers_snd_eq_zero hsorted.2 (fun w hw => hwithin w (List.mem_cons_of_mem v hw)) ?_
      -- every later member has at least this member's room
      have hlater : infoList.length * (threshold - v.votingPower) ≤
          (infoList.map fun w => threshold - w.votingPower).sum := by
        calc infoList.length * (threshold - v.votingPower)
            = (infoList.map fun _ => threshold - v.votingPower).sum := by
              rw [List.map_const', List.sum_const_nat]
          _ ≤ (infoList.map fun w => threshold - w.votingPower).sum :=
              List.sum_le_sum fun w hw => Nat.sub_le_sub_left (hsorted.1 w hw) _
      rcases actualIncrease_cases remainingPower (infoList.length + 1) hv
        with hall | hcapped | ⟨hshare, hroomy⟩
      · rw [hall, Nat.sub_self]
        exact Nat.zero_le _
      · omega
      · have hcover := (roundUpDiv_bounds remainingPower infoList.length).1
        have := Nat.mul_le_mul_left infoList.length hroomy
        rw [hshare]
        omega
    · exact Nat.eq_zero_of_not_pos hpositive

theorem pairwise_adjustPowers {threshold : ℕ} :
    ∀ {infoList : List VotingPowerInfoV1} {remainingPower : ℕ},
      infoList.Pairwise (fun v w => w.votingPower ≤ v.votingPower) → (∀ v ∈ infoList, v.votingPower ≤ threshold) →
      (adjustPowers threshold infoList remainingPower).1.Pairwise (fun v w => w.votingPower ≤ v.votingPower)
  | [], _, _, _ => List.Pairwise.nil
  | v :: infoList, remainingPower, hsorted, hwithin => by
    rw [List.pairwise_cons] at hsorted
    have hv := hwithin v List.mem_cons_self
    have hrest : ∀ w ∈ infoList, w.votingPower ≤ threshold := fun w hw => hwithin w (List.mem_cons_of_mem v hw)
    rw [adjustPowers]
    split_ifs with hpositive
    · refine List.pairwise_cons.mpr ⟨fun w hw => ?_, pairwise_adjustPowers hsorted.2 hrest⟩
      dsimp only
      rcases actualIncrease_cases remainingPower (infoList.length + 1) hv
        with hall | hcapped | ⟨hshare, hroomy⟩
      · -- nothing is left for the rest, which keeps its powers
        rw [hall, Nat.sub_self, adjustPowers_zero] at hw
        exact (hsorted.1 w hw).trans (Nat.le_add_right _ _)
      · rw [hcapped]
        exact le_threshold_of_adjustPowers hrest w hw
      · rw [hshare]
        refine le_add_of_adjustPowers (fun u hu => ⟨hsorted.1 u hu, ?_⟩) ?_ w (hshare ▸ hw)
        · have := hsorted.1 u hu
          omega
        · have hcover := (roundUpDiv_bounds remainingPower infoList.length).1
          omega
    · exact List.pairwise_cons.mpr hsorted

/-! ### Writing the powers back -/

/-- The power `update_voting_power` leaves at validator `i`: that of the first
entry for `i`, which is popped last; zero when there is none. -/
def powerOf (infoList : List VotingPowerInfoV1) (i : ℕ) : ℕ :=
  ((infoList.find? (·.validatorIndex == i)).map VotingPowerInfoV1.votingPower).getD 0

theorem foldlM_modify_votingPower :
    ∀ (infoList : List VotingPowerInfoV1) (validators : List ValidatorV1),
      (∀ info ∈ infoList, info.validatorIndex < validators.length) →
      infoList.foldlM (fun validators info =>
          modify validators info.validatorIndex fun v => { v with votingPower := info.votingPower }) validators =
        .ok (validators.mapIdx fun i v =>
          ((infoList.reverse.find? (·.validatorIndex == i)).map fun info => { v with votingPower := info.votingPower }).getD v)
  | [], validators, _ => by
    rw [List.foldlM_nil]
    congr 1
    exact List.ext_getElem? fun i => by simp [List.getElem?_mapIdx]
  | info :: infoList, validators, hvalid => by
    have hi := hvalid info List.mem_cons_self
    rw [List.foldlM_cons, modify_of_lt hi, except_ok_bind, foldlM_modify_votingPower infoList _
      fun info' hinfo' => (List.length_modify _ _ _).symm ▸ hvalid info' (List.mem_cons_of_mem info hinfo')]
    congr 1
    refine List.ext_getElem? fun j => ?_
    simp only [List.getElem?_mapIdx, List.getElem?_modify, List.reverse_cons, List.find?_append, List.find?_singleton]
    cases validators[j]? with
    | none => rfl
    | some v =>
      by_cases hj : info.validatorIndex = j <;> cases infoList.reverse.find? (·.validatorIndex == j) <;> simp [hj]

theorem updateVotingPower_eq_ok {validators : List ValidatorV1} {infoList : List VotingPowerInfoV1}
    (hvalid : ∀ info ∈ infoList, info.validatorIndex < validators.length) :
    updateVotingPower validators infoList =
      .ok (validators.mapIdx fun i v => { v with votingPower := powerOf infoList i }) := by
  rw [updateVotingPower, foldlM_modify_votingPower _ _ fun info hinfo => by
    simpa using hvalid info (List.mem_reverse.mp hinfo)]
  congr 1
  refine List.ext_getElem? fun j => ?_
  simp only [List.getElem?_mapIdx, List.getElem?_map, List.reverse_reverse, Option.map_map, powerOf]
  cases validators[j]? with
  | none => rfl
  | some v =>
    cases infoList.find? (·.validatorIndex == j) <;> rfl

theorem stakeAt_mapIdx {validators : List ValidatorV1} {f : ℕ → ℕ} (i : ℕ) :
    stakeAt (validators.mapIdx fun j v => { v with votingPower := f j }) i = stakeAt validators i := by
  simp only [stakeAt, List.getElem?_mapIdx, Option.map_map]
  cases validators[i]? <;> rfl

theorem powerAt_mapIdx {validators : List ValidatorV1} {f : ℕ → ℕ} {i : ℕ} (hi : i < validators.length) :
    powerAt (validators.mapIdx fun j v => { v with votingPower := f j }) i = f i := by
  simp [powerAt, List.getElem?_mapIdx, List.getElem?_eq_getElem hi]

/-! ### The final checks -/

theorem checkRelativePower_eq_ok {validatorA validatorB : ValidatorV1} :
    checkRelativePower validatorA validatorB = .ok () ↔
      (validatorB.totalStake < validatorA.totalStake → validatorB.votingPower ≤ validatorA.votingPower) ∧
        (validatorA.totalStake < validatorB.totalStake → validatorA.votingPower ≤ validatorB.votingPower) := by
  unfold checkRelativePower assert
  by_cases hlarger : validatorB.totalStake < validatorA.totalStake
  · have hsmaller : ¬validatorA.totalStake < validatorB.totalStake := Nat.lt_asymm hlarger
    by_cases hpower : validatorB.votingPower ≤ validatorA.votingPower <;> simp [hlarger, hsmaller, hpower]
  · by_cases hsmaller : validatorA.totalStake < validatorB.totalStake
    · by_cases hpower : validatorA.votingPower ≤ validatorB.votingPower <;> simp [hlarger, hsmaller, hpower]
    · simp [hlarger, hsmaller]

theorem checkRelativePowers_eq_ok {validators : List ValidatorV1} :
    ∀ {committeeMembers : List ℕ}, (∀ i ∈ committeeMembers, i < validators.length) →
      (checkRelativePowers validators committeeMembers = .ok () ↔
        committeeMembers.Pairwise (RelativePowerOk validators))
  | [], _ => by simp [checkRelativePowers]
  | a :: committeeMembers, hvalid => by
    have ha := hvalid a List.mem_cons_self
    have hrest : ∀ i ∈ committeeMembers, i < validators.length := fun i hi => hvalid i (List.mem_cons_of_mem a hi)
    rw [checkRelativePowers, except_bind_eq_ok, List.pairwise_cons, ← checkRelativePowers_eq_ok hrest]
    have hpair : ∀ b ∈ committeeMembers,
        (do
          let validatorA ← borrow validators a
          let validatorB ← borrow validators b
          checkRelativePower validatorA validatorB) = .ok () ↔ RelativePowerOk validators a b := by
      intro b hb
      rw [borrow_of_lt ha, except_ok_bind, borrow_of_lt (hrest b hb), except_ok_bind, checkRelativePower_eq_ok,
        RelativePowerOk, stakeAt_of_lt ha, stakeAt_of_lt (hrest b hb), powerAt_of_lt ha, powerAt_of_lt (hrest b hb)]
    constructor
    · rintro ⟨⟨⟩, hall, hlater⟩
      exact ⟨fun b hb => (hpair b hb).mp (forM_except_eq_ok.mp hall b hb), hlater⟩
    · rintro ⟨hall, hlater⟩
      exact ⟨⟨⟩, forM_except_eq_ok.mpr fun b hb => (hpair b hb).mpr (hall b hb), hlater⟩

theorem checkInvariants_eq_ok {committeeMembers : List ℕ} {validators : List ValidatorV1} :
    checkInvariants committeeMembers validators = .ok () ↔
      (∀ i ∈ committeeMembers, i < validators.length ∧ 0 < powerAt validators i) ∧
        (committeeMembers.map (powerAt validators)).sum = TOTAL_VOTING_POWER ∧
        committeeMembers.Pairwise (RelativePowerOk validators) := by
  rw [checkInvariants, except_bind_eq_ok]
  have hfold := fun total => takeFoldRef_add_eq_ok (v := validators) (l := committeeMembers) (r := total)
    (c := fun v => assert (v.votingPower > 0) EInvalidVotingPower) (g := ValidatorV1.votingPower)
    (f := fun total (v : ValidatorV1) => do
      assert (v.votingPower > 0) EInvalidVotingPower
      add 64 total v.votingPower) (fun _ _ => rfl) (Nat.two_pow_pos 64)
  simp only [zero_add] at hfold
  constructor
  · rintro ⟨total, htotal, hcheck⟩
    obtain ⟨hpositive, -, rfl⟩ := (hfold total).mp htotal
    split_ifs at hcheck with hsum
    have hvalid : ∀ i ∈ committeeMembers, i < validators.length := fun i hi => (hpositive i hi).1
    refine ⟨fun i hi => ?_, hsum, (checkRelativePowers_eq_ok hvalid).mp hcheck⟩
    obtain ⟨hi', hassert⟩ := hpositive i hi
    exact ⟨hi', powerAt_of_lt hi' ▸ of_assert_eq_ok hassert⟩
  · rintro ⟨hpositive, hsum, hpairs⟩
    have hvalid : ∀ i ∈ committeeMembers, i < validators.length := fun i hi => (hpositive i hi).1
    refine ⟨TOTAL_VOTING_POWER, (hfold _).mpr ⟨fun i hi => ?_, ?_, hsum.symm⟩, ?_⟩
    · obtain ⟨hi', hpower⟩ := hpositive i hi
      exact ⟨hi', assert_of (powerAt_of_lt hi' ▸ hpower)⟩
    · show (committeeMembers.map (powerAt validators)).sum < 2 ^ 64
      rw [hsum]
      unfold TOTAL_VOTING_POWER
      omega
    · rw [if_pos rfl]
      exact (checkRelativePowers_eq_ok hvalid).mpr hpairs

theorem powerOf_cases (infoList : List VotingPowerInfoV1) (i : ℕ) :
    (∃ info ∈ infoList, info.validatorIndex = i ∧ powerOf infoList i = info.votingPower) ∨
      ((∀ info ∈ infoList, info.validatorIndex ≠ i) ∧ powerOf infoList i = 0) := by
  unfold powerOf
  cases hfind : infoList.find? (·.validatorIndex == i) with
  | none =>
    refine .inr ⟨fun info hinfo hi => ?_, rfl⟩
    exact List.find?_eq_none.mp hfind info hinfo (by simp [hi])
  | some info =>
    exact .inl ⟨info, List.mem_of_find?_eq_some hfind, by simpa using List.find?_some hfind, rfl⟩

theorem powerOf_of_mem {infoList : List VotingPowerInfoV1} {info : VotingPowerInfoV1} (hinfo : info ∈ infoList)
    (hdistinct : (infoList.map VotingPowerInfoV1.validatorIndex).Nodup) :
    powerOf infoList info.validatorIndex = info.votingPower := by
  rcases powerOf_cases infoList info.validatorIndex with ⟨info', hinfo', hindex, hpower⟩ | ⟨hnone, -⟩
  · rw [hpower, List.inj_on_of_nodup_map hdistinct hinfo' hinfo hindex]
  · exact absurd rfl (hnone info hinfo)

/-! ### The whole computation -/

theorem perm_foldl_insert (f : ℕ → VotingPowerInfoV1) :
    ∀ (committeeMembers : List ℕ) (infoList : List VotingPowerInfoV1),
      (committeeMembers.foldl (fun infoList i => insert infoList (f i)) infoList).Perm
        (committeeMembers.map f ++ infoList)
  | [], _ => List.Perm.refl _
  | i :: committeeMembers, infoList => by
    rw [List.foldl_cons, List.map_cons, List.cons_append]
    exact (perm_foldl_insert f committeeMembers _).trans
      (((perm_insert infoList (f i)).append_left _).trans List.perm_middle)

theorem pairwise_foldl_insert (f : ℕ → VotingPowerInfoV1) :
    ∀ (committeeMembers : List ℕ) (infoList : List VotingPowerInfoV1),
      (infoList.map VotingPowerInfoV1.stake).Pairwise (· ≥ ·) →
      ((committeeMembers.foldl (fun infoList i => insert infoList (f i)) infoList).map
        VotingPowerInfoV1.stake).Pairwise (· ≥ ·)
  | [], _, hsorted => hsorted
  | i :: committeeMembers, _, hsorted =>
    pairwise_foldl_insert f committeeMembers _ (pairwise_insert (f i) hsorted)

/-- The entries `adjust_voting_power` settles on. -/
def plannedInfos (committeeMembers : List ℕ) (validators : List ValidatorV1) (threshold : ℕ) :
    List VotingPowerInfoV1 :=
  (adjustPowers threshold (initialInfos committeeMembers validators threshold)
    (initialRemaining committeeMembers validators threshold)).1

section Planned

variable {committeeMembers : List ℕ} {validators : List ValidatorV1} {threshold : ℕ}

theorem perm_initialInfos :
    (initialInfos committeeMembers validators threshold).Perm
      (committeeMembers.map (initialInfo validators threshold (committeeMembers.map (stakeAt validators)).sum)) := by
  have hperm := perm_foldl_insert
    (initialInfo validators threshold (committeeMembers.map (stakeAt validators)).sum) committeeMembers []
  rw [List.append_nil] at hperm
  exact hperm

theorem mem_initialInfos {info : VotingPowerInfoV1} (hinfo : info ∈ initialInfos committeeMembers validators threshold) :
    ∃ i ∈ committeeMembers, initialInfo validators threshold (committeeMembers.map (stakeAt validators)).sum i = info :=
  List.mem_map.mp (perm_initialInfos.mem_iff.mp hinfo)

theorem le_threshold_of_mem_initialInfos :
    ∀ info ∈ initialInfos committeeMembers validators threshold, info.votingPower ≤ threshold := by
  intro info hinfo
  obtain ⟨i, -, rfl⟩ := mem_initialInfos hinfo
  exact min_le_right _ _

theorem pairwise_initialInfos :
    (initialInfos committeeMembers validators threshold).Pairwise
      (fun v w => w.stake ≤ v.stake ∧ w.votingPower ≤ v.votingPower) := by
  have hsorted := List.pairwise_map.mp (pairwise_foldl_insert
    (initialInfo validators threshold (committeeMembers.map (stakeAt validators)).sum) committeeMembers []
    List.Pairwise.nil)
  refine hsorted.imp_of_mem fun hv hw hstake => ⟨hstake, ?_⟩
  obtain ⟨i, -, rfl⟩ := mem_initialInfos hv
  obtain ⟨j, -, rfl⟩ := mem_initialInfos hw
  exact min_le_min_right _ (Nat.div_le_div_right (Nat.mul_le_mul_right _ hstake))

theorem initialRemaining_le_room (hroom : TOTAL_VOTING_POWER ≤ committeeMembers.length * threshold) :
    initialRemaining committeeMembers validators threshold ≤
      ((initialInfos committeeMembers validators threshold).map fun v => threshold - v.votingPower).sum := by
  set infoList := initialInfos committeeMembers validators threshold
  have hperm := @perm_initialInfos committeeMembers validators threshold
  have hpowers : (committeeMembers.map fun i => (initialInfo validators threshold
      (committeeMembers.map (stakeAt validators)).sum i).votingPower).sum =
        (infoList.map VotingPowerInfoV1.votingPower).sum := by
    rw [(hperm.map VotingPowerInfoV1.votingPower).sum_eq, List.map_map]
    rfl
  -- the room and the powers together fill `threshold` at every member
  have hfill : (infoList.map fun v => threshold - v.votingPower).sum + (infoList.map VotingPowerInfoV1.votingPower).sum =
      infoList.length * threshold := by
    rw [← List.sum_map_add, List.map_congr_left fun v hv => Nat.sub_add_cancel (le_threshold_of_mem_initialInfos v hv),
      List.map_const', List.sum_const_nat]
  rw [hperm.length_eq, List.length_map] at hfill
  unfold initialRemaining
  rw [hpowers]
  omega

end Planned

section Plan

variable {committeeMembers : List ℕ} {validators : List ValidatorV1} {threshold : ℕ}

theorem perm_plannedInfos_key :
    ((plannedInfos committeeMembers validators threshold).map fun v => (v.validatorIndex, v.stake)).Perm
      (committeeMembers.map fun i => (i, stakeAt validators i)) := by
  rw [plannedInfos, adjustPowers_map_key]
  have hperm := (@perm_initialInfos committeeMembers validators threshold).map fun v => (v.validatorIndex, v.stake)
  rwa [List.map_map] at hperm

theorem mem_plannedInfos {info : VotingPowerInfoV1} (hinfo : info ∈ plannedInfos committeeMembers validators threshold) :
    info.validatorIndex ∈ committeeMembers ∧ info.stake = stakeAt validators info.validatorIndex := by
  have hkey := perm_plannedInfos_key.mem_iff.mp (List.mem_map_of_mem (f := fun v => (v.validatorIndex, v.stake)) hinfo)
  obtain ⟨i, hi, hpair⟩ := List.mem_map.mp hkey
  obtain ⟨rfl, hstake⟩ := Prod.mk.inj hpair
  exact ⟨hi, hstake.symm⟩

theorem perm_plannedInfos_validatorIndex :
    ((plannedInfos committeeMembers validators threshold).map VotingPowerInfoV1.validatorIndex).Perm committeeMembers := by
  have hperm := (@perm_plannedInfos_key committeeMembers validators threshold).map Prod.fst
  rwa [List.map_map, List.map_map, List.map_id''] at hperm
  exact fun _ => rfl

theorem le_threshold_of_mem_plannedInfos :
    ∀ info ∈ plannedInfos committeeMembers validators threshold, info.votingPower ≤ threshold :=
  le_threshold_of_adjustPowers le_threshold_of_mem_initialInfos

theorem pairwise_plannedInfos :
    (plannedInfos committeeMembers validators threshold).Pairwise
      (fun v w => w.stake ≤ v.stake ∧ w.votingPower ≤ v.votingPower) := by
  have hstakes : (plannedInfos committeeMembers validators threshold).map VotingPowerInfoV1.stake =
      (initialInfos committeeMembers validators threshold).map VotingPowerInfoV1.stake := by
    have hkey := congrArg (List.map Prod.snd) (adjustPowers_map_key threshold
      (initialInfos committeeMembers validators threshold) (initialRemaining committeeMembers validators threshold))
    rw [List.map_map, List.map_map] at hkey
    exact hkey
  have hstake : (plannedInfos committeeMembers validators threshold).Pairwise (fun v w => w.stake ≤ v.stake) := by
    rw [← List.pairwise_map (R := fun a b => b ≤ a), hstakes, List.pairwise_map]
    exact List.Pairwise.imp And.left pairwise_initialInfos
  exact hstake.and (pairwise_adjustPowers (List.Pairwise.imp And.right pairwise_initialInfos)
    le_threshold_of_mem_initialInfos)

section Room

variable (hroom : TOTAL_VOTING_POWER ≤ committeeMembers.length * threshold)
include hroom

theorem adjustPowers_initialInfos_snd :
    (adjustPowers threshold (initialInfos committeeMembers validators threshold)
      (initialRemaining committeeMembers validators threshold)).2 = 0 :=
  adjustPowers_snd_eq_zero (List.Pairwise.imp And.right pairwise_initialInfos) le_threshold_of_mem_initialInfos
    (initialRemaining_le_room hroom)

theorem sum_plannedInfos (hpos : 0 < (committeeMembers.map (stakeAt validators)).sum) :
    ((plannedInfos committeeMembers validators threshold).map VotingPowerInfoV1.votingPower).sum =
      TOTAL_VOTING_POWER := by
  have hsum := adjustPowers_sum (initialRemaining committeeMembers validators threshold)
    (@le_threshold_of_mem_initialInfos committeeMembers validators threshold)
  rw [adjustPowers_initialInfos_snd hroom, add_zero] at hsum
  have hpowers := ((@perm_initialInfos committeeMembers validators threshold).map
    VotingPowerInfoV1.votingPower).sum_eq
  have hle := sum_initialInfo_le threshold hpos
  rw [List.map_map, Function.comp_def] at hpowers
  unfold plannedInfos
  rw [hsum, initialRemaining]
  omega

end Room

theorem one_le_of_mem_plannedInfos (hthreshold : 0 < threshold)
    (hpos : 0 < (committeeMembers.map (stakeAt validators)).sum)
    (hlarge : ∀ i ∈ committeeMembers,
      (committeeMembers.map (stakeAt validators)).sum ≤ stakeAt validators i * TOTAL_VOTING_POWER) :
    ∀ info ∈ plannedInfos committeeMembers validators threshold, 1 ≤ info.votingPower := by
  refine ge_of_adjustPowers fun info hinfo => ?_
  obtain ⟨i, hi, rfl⟩ := mem_initialInfos hinfo
  have hshare : 1 ≤ stakeAt validators i * TOTAL_VOTING_POWER / (committeeMembers.map (stakeAt validators)).sum :=
    (Nat.le_div_iff_mul_le hpos).mpr (by simpa using hlarge i hi)
  exact le_min hshare hthreshold

end Plan

theorem votingPower_le_of_stake_lt :
    ∀ {infoList : List VotingPowerInfoV1},
      infoList.Pairwise (fun v w => w.stake ≤ v.stake ∧ w.votingPower ≤ v.votingPower) →
      ∀ v ∈ infoList, ∀ w ∈ infoList, w.stake < v.stake → w.votingPower ≤ v.votingPower
  | [], _ => fun _ h => absurd h List.not_mem_nil
  | u :: infoList, hsorted => by
    rw [List.pairwise_cons] at hsorted
    intro v hv w hw hlt
    rcases List.mem_cons.mp hv with rfl | hv' <;> rcases List.mem_cons.mp hw with rfl | hw'
    · exact absurd hlt (lt_irrefl _)
    · exact (hsorted.1 w hw').2
    · exact absurd (hsorted.1 v hv').1 (not_le.mpr hlt)
    · exact votingPower_le_of_stake_lt hsorted.2 v hv' w hw' hlt

/-- What `set_voting_power` leaves: every active validator with the power of
its settled entry, which is zero outside the committee. -/
def settledValidators (committeeMembers : List ℕ) (validators : List ValidatorV1) (threshold : ℕ) :
    List ValidatorV1 :=
  validators.mapIdx fun i v => { v with votingPower := powerOf (plannedInfos committeeMembers validators threshold) i }

theorem setVotingPower_eq {committeeMembers : List ℕ} {activeValidators : List ValidatorV1} {t : ℕ}
    (hvalid : ∀ i ∈ committeeMembers, i < activeValidators.length)
    (hpos : 0 < (committeeMembers.map (stakeAt activeValidators)).sum)
    (hfits : (committeeMembers.map (stakeAt activeValidators)).sum < 2 ^ 64)
    (hthreshold : threshold committeeMembers.length = .ok t) :
    setVotingPower committeeMembers activeValidators =
      (do
        checkInvariants committeeMembers (settledValidators committeeMembers activeValidators t)
        pure (settledValidators committeeMembers activeValidators t)) := by
  have hsize : 0 < committeeMembers.length :=
    List.length_pos_of_ne_nil fun hnil => by simp [hnil] at hpos
  obtain ⟨t', ht', hroom, -, hle⟩ := threshold_eq_ok hsize
  obtain rfl : t' = t := Except.ok.inj (ht'.symm.trans hthreshold)
  rw [setVotingPower, hthreshold, except_ok_bind, initVotingPowerInfo_eq_ok hvalid hpos hfits, except_ok_bind]
  dsimp only
  rw [adjustVotingPower, adjustVotingPowerLoop_eq_ok hle le_threshold_of_mem_initialInfos initialRemaining_le,
    except_ok_bind]
  have hremaining := @adjustPowers_initialInfos_snd committeeMembers activeValidators t' hroom
  generalize hplan : adjustPowers t' (initialInfos committeeMembers activeValidators t')
    (initialRemaining committeeMembers activeValidators t') = plan at hremaining
  obtain ⟨infoList, remainingPower⟩ := plan
  dsimp only at hremaining ⊢
  have hplanned : infoList = plannedInfos committeeMembers activeValidators t' := by
    rw [plannedInfos, hplan]
  subst hremaining hplanned
  rw [if_pos rfl, except_pure_bind,
    updateVotingPower_eq_ok fun info hinfo => hvalid _ (mem_plannedInfos hinfo).1, except_ok_bind]
  rfl

section Settled

variable {committeeMembers : List ℕ} {activeValidators : List ValidatorV1} {t : ℕ}

theorem stakeAt_settledValidators (i : ℕ) :
    stakeAt (settledValidators committeeMembers activeValidators t) i = stakeAt activeValidators i :=
  stakeAt_mapIdx i

theorem powerAt_settledValidators {i : ℕ} (hi : i < activeValidators.length) :
    powerAt (settledValidators committeeMembers activeValidators t) i =
      powerOf (plannedInfos committeeMembers activeValidators t) i :=
  powerAt_mapIdx hi

theorem powerOf_plannedInfos_of_mem {i : ℕ} (hi : i ∈ committeeMembers) :
    ∃ info ∈ plannedInfos committeeMembers activeValidators t, info.validatorIndex = i ∧
      powerOf (plannedInfos committeeMembers activeValidators t) i = info.votingPower := by
  rcases powerOf_cases (plannedInfos committeeMembers activeValidators t) i with hsome | ⟨hnone, -⟩
  · exact hsome
  · obtain ⟨info, hinfo, hindex⟩ := List.mem_map.mp (perm_plannedInfos_validatorIndex.mem_iff.mpr hi)
    exact absurd hindex (hnone info hinfo)

theorem checkInvariants_settledValidators (hvalid : ∀ i ∈ committeeMembers, i < activeValidators.length)
    (hdistinct : committeeMembers.Nodup) (hpos : 0 < (committeeMembers.map (stakeAt activeValidators)).sum)
    (hroom : TOTAL_VOTING_POWER ≤ committeeMembers.length * t) (hthreshold : 0 < t)
    (hlarge : ∀ i ∈ committeeMembers,
      (committeeMembers.map (stakeAt activeValidators)).sum ≤ stakeAt activeValidators i * TOTAL_VOTING_POWER) :
    checkInvariants committeeMembers (settledValidators committeeMembers activeValidators t) = .ok () := by
  set planned := plannedInfos committeeMembers activeValidators t
  have hlength : (settledValidators committeeMembers activeValidators t).length = activeValidators.length :=
    List.length_mapIdx
  have hone := one_le_of_mem_plannedInfos hthreshold hpos hlarge
  have hdistinct' : (planned.map VotingPowerInfoV1.validatorIndex).Nodup :=
    perm_plannedInfos_validatorIndex.nodup_iff.mpr hdistinct
  refine Iff.mpr checkInvariants_eq_ok ⟨fun i hi => ⟨hlength ▸ hvalid i hi, ?_⟩, ?_, ?_⟩
  · obtain ⟨info, hinfo, -, hpower⟩ := @powerOf_plannedInfos_of_mem _ activeValidators t _ hi
    rw [powerAt_settledValidators (hvalid i hi), hpower]
    exact hone info hinfo
  · -- the members' powers are the settled entries' powers, counted once each
    calc (committeeMembers.map (powerAt (settledValidators committeeMembers activeValidators t))).sum
        = (committeeMembers.map (powerOf planned)).sum := by
          rw [List.map_congr_left fun i hi => powerAt_settledValidators (hvalid i hi)]
      _ = ((planned.map VotingPowerInfoV1.validatorIndex).map (powerOf planned)).sum :=
          ((perm_plannedInfos_validatorIndex.map _).sum_eq).symm
      _ = (planned.map VotingPowerInfoV1.votingPower).sum := by
          rw [List.map_map]
          exact congrArg List.sum (List.map_congr_left fun info hinfo => powerOf_of_mem hinfo hdistinct')
      _ = TOTAL_VOTING_POWER := sum_plannedInfos hroom hpos
  · refine List.pairwise_of_forall_mem_list fun a ha b hb => ?_
    obtain ⟨infoA, hinfoA, rfl, hpowerA⟩ := @powerOf_plannedInfos_of_mem _ activeValidators t _ ha
    obtain ⟨infoB, hinfoB, rfl, hpowerB⟩ := @powerOf_plannedInfos_of_mem _ activeValidators t _ hb
    unfold RelativePowerOk
    rw [stakeAt_settledValidators, stakeAt_settledValidators, powerAt_settledValidators (hvalid _ ha),
      powerAt_settledValidators (hvalid _ hb), hpowerA, hpowerB, ← (mem_plannedInfos hinfoA).2,
      ← (mem_plannedInfos hinfoB).2]
    exact ⟨votingPower_le_of_stake_lt pairwise_plannedInfos infoA hinfoA infoB hinfoB,
      votingPower_le_of_stake_lt pairwise_plannedInfos infoB hinfoB infoA hinfoA⟩

end Settled

/-- `set_voting_power` on a committee of distinct members in range, whose
total stake is positive and fits a `u64` (as every total of stakes does: they
are balances of the one coin, whose supply stays below `u64::MAX`): it does not abort unless some
member's stake is below a `TOTAL_VOTING_POWER`-th of the total, and whatever it
returns gives the committee exactly the total, each member between one and the
threshold, everyone else nothing, and never less power to the larger stake. -/
theorem setVotingPower_fair (activeValidators : List ValidatorV1) (committeeMembers : List ℕ)
    (hnonempty : committeeMembers ≠ []) (hdistinct : committeeMembers.Nodup)
    (hvalid : ∀ i ∈ committeeMembers, i < activeValidators.length)
    (hpos : 0 < (committeeMembers.map (stakeAt activeValidators)).sum)
    (hfits : (committeeMembers.map (stakeAt activeValidators)).sum < 2 ^ 64) :
    ((∀ i ∈ committeeMembers,
        (committeeMembers.map (stakeAt activeValidators)).sum ≤ stakeAt activeValidators i * TOTAL_VOTING_POWER) →
      ∃ validators, setVotingPower committeeMembers activeValidators = .ok validators) ∧
    ∀ validators, setVotingPower committeeMembers activeValidators = .ok validators →
      validators.length = activeValidators.length ∧ (∀ i, stakeAt validators i = stakeAt activeValidators i) ∧
      (committeeMembers.map (powerAt validators)).sum = TOTAL_VOTING_POWER ∧
      (∃ t, threshold committeeMembers.length = .ok t ∧
        ∀ i ∈ committeeMembers, 1 ≤ powerAt validators i ∧ powerAt validators i ≤ t) ∧
      (∀ i < activeValidators.length, i ∉ committeeMembers → powerAt validators i = 0) ∧
      ∀ i ∈ committeeMembers, ∀ j ∈ committeeMembers,
        stakeAt activeValidators j < stakeAt activeValidators i → powerAt validators j ≤ powerAt validators i := by
  obtain ⟨t, ht, hroom, hmax, -⟩ := threshold_eq_ok (List.length_pos_of_ne_nil hnonempty)
  have hsettle := setVotingPower_eq hvalid hpos hfits ht
  have hcap : 0 < t := by
    unfold MAX_VOTING_POWER at hmax
    omega
  refine ⟨fun hlarge => ⟨settledValidators committeeMembers activeValidators t, ?_⟩,
    fun validators hvalidators => ?_⟩
  · rw [hsettle, checkInvariants_settledValidators hvalid hdistinct hpos hroom hcap hlarge]
    rfl
  · rw [hsettle, except_bind_eq_ok] at hvalidators
    obtain ⟨⟨⟩, hcheck, hsettled⟩ := hvalidators
    rw [except_pure_eq_ok] at hsettled
    subst hsettled
    obtain ⟨hpositive, hsum, hpairs⟩ := checkInvariants_eq_ok.mp hcheck
    refine ⟨List.length_mapIdx, stakeAt_settledValidators, hsum, ⟨t, ht, fun i hi => ⟨(hpositive i hi).2, ?_⟩⟩,
      fun i hi hnot => ?_, fun i hi j hj hlt => ?_⟩
    · -- a member's power is that of its settled entry, which is within the threshold
      rw [powerAt_settledValidators (hvalid i hi)]
      rcases powerOf_cases (plannedInfos committeeMembers activeValidators t) i with
        ⟨info, hinfo, -, hpower⟩ | ⟨-, hzero⟩
      · exact hpower ▸ le_threshold_of_mem_plannedInfos info hinfo
      · exact hzero ▸ Nat.zero_le t
    · -- no settled entry belongs to a validator outside the committee
      rw [powerAt_settledValidators hi]
      rcases powerOf_cases (plannedInfos committeeMembers activeValidators t) i with
        ⟨info, hinfo, hindex, -⟩ | ⟨-, hzero⟩
      · exact absurd (hindex ▸ (mem_plannedInfos hinfo).1) hnot
      · exact hzero
    · have : Std.Symm (RelativePowerOk (settledValidators committeeMembers activeValidators t)) :=
        ⟨fun _ _ h => h.symm⟩
      have hne : i ≠ j := by
        rintro rfl
        exact lt_irrefl _ hlt
      refine (hpairs.forall hi hj hne).1 ?_
      rwa [stakeAt_settledValidators, stakeAt_settledValidators]

/-- Three validators, the first and the last in the committee. -/
def threeValidators : List ValidatorV1 := [⟨30, 5⟩, ⟨1, 9⟩, ⟨10, 0⟩]

theorem setVotingPower_fair_twoMembers :
    ([0, 2] : List ℕ) ≠ [] ∧ ([0, 2] : List ℕ).Nodup ∧ (∀ i ∈ ([0, 2] : List ℕ), i < threeValidators.length) ∧
      0 < (([0, 2] : List ℕ).map (stakeAt threeValidators)).sum ∧
      (([0, 2] : List ℕ).map (stakeAt threeValidators)).sum < 2 ^ 64 ∧
      ∃ validators, setVotingPower [0, 2] threeValidators = .ok validators ∧
        (([0, 2] : List ℕ).map (powerAt validators)).sum = TOTAL_VOTING_POWER := by
  have hnonempty : ([0, 2] : List ℕ) ≠ [] := by decide
  have hdistinct : ([0, 2] : List ℕ).Nodup := by decide
  have hvalid : ∀ i ∈ ([0, 2] : List ℕ), i < threeValidators.length := by decide
  have hpos : 0 < (([0, 2] : List ℕ).map (stakeAt threeValidators)).sum := by decide
  have hfits : (([0, 2] : List ℕ).map (stakeAt threeValidators)).sum < 2 ^ 64 := by decide
  obtain ⟨hsucceeds, hsettled⟩ := setVotingPower_fair threeValidators [0, 2] hnonempty hdistinct hvalid hpos hfits
  obtain ⟨validators, hvalidators⟩ := hsucceeds (by decide)
  exact ⟨hnonempty, hdistinct, hvalid, hpos, hfits, validators, hvalidators, (hsettled validators hvalidators).2.2.1⟩

end Iota.System.VotingPower
