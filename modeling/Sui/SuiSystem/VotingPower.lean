import Sui.SuiSystem.Validator

/-! Voting power.

The voting power of a validator is its part of the total stake, in basis points and capped. What
the cap and the rounding leave is distributed among the validators that are below the cap, the
ones with more stake first. -/
namespace Sui.SuiSystem

open Sui.Lib Sui.Lib.Exec List

/-- Reads an element of a vector. -/
def vectorGet {α : Type} (xs : List α) (i : Nat) : Run α := unwrap xs[i]? .outOfBounds

theorem vectorGet_sat (h : i < xs.length) : Sat (vectorGet xs i) (fun x => xs[i]? = some x) E :=
  Sat.of_eq (unwrap_eq_ok.mpr (getElem?_eq_getElem h)) (getElem?_eq_getElem h)

/-- The abort is the failure of an access to a table or a vector, or of a lookup of a validator. -/
def isAccess : Abort SystemError → Bool
  | .fieldExists | .fieldMissing | .outOfBounds => true
  | .code .notAValidator | .code .nonValidatorInReportRecords => true
  | _ => false

/-- The abort is not a failed access. -/
def NoAccess (a : Abort SystemError) : Prop := isAccess a = false

namespace NoAccess
variable {a b c : Nat}

theorem overflow : NoAccess .overflow := rfl

theorem add : Sat (U64.add a b) (fun c => c = a + b ∧ a + b < 2 ^ 64) NoAccess := U64.add_sat overflow

theorem sub : Sat (U64.sub a b) (fun c => c = a - b ∧ b ≤ a) NoAccess := U64.sub_sat_of (by rfl)

theorem div : Sat (U64.div a b) (fun c => c = a / b) NoAccess := U64.div_sat (by intro; rfl)

theorem divCeil : Sat (U64.divCeil a b) (fun _ => True) NoAccess := U64.divCeil_sat (by intro; rfl)

theorem mulDiv : Sat (U64.mulDiv a b c) (fun d => d = a * b / c ∧ c ≠ 0 ∧ a * b / c < 2 ^ 64) NoAccess :=
  U64.mulDiv_sat (by intro; rfl) overflow

theorem split : Sat (U64.split a b) (fun c => c = a - b ∧ b ≤ a) NoAccess :=
  U64.split_sat (by intro; rfl)

theorem ensure [Decidable p] (h : isAccess (.code e) = false) : Sat (ensure p e) (fun _ => p) NoAccess :=
  Sat.require fun _ => h

end NoAccess

namespace VotingPower

def totalVotingPower : Nat := 10000

def quorumThreshold : Nat := 6667

def maxVotingPower : Nat := 1000

structure VotingPowerInfo where
  validatorIndex : Nat
  votingPower : Nat
  stake : Nat
deriving DecidableEq, Repr

def deriveRawVotingPower (stake totalStake : Nat) : Run Nat :=
  U64.mulDiv stake totalVotingPower totalStake

/-- Keeps the list sorted by stake, the largest first. -/
def insert : List VotingPowerInfo → VotingPowerInfo → List VotingPowerInfo
  | [], newInfo => [newInfo]
  | info :: rest, newInfo =>
    if info.stake ≤ newInfo.stake then newInfo :: info :: rest else info :: insert rest newInfo

def initVotingPowerInfo (validators : List Validator) (threshold totalStake : Nat) :
    Run (List VotingPowerInfo × Nat) := do
  let (result, totalPower) ← validators.zipIdx.foldlM (fun (result, totalPower) (v, i) => do
    let stake := v.totalStake
    let power ← deriveRawVotingPower stake totalStake
    let votingPower := min power threshold
    let totalPower ← U64.add totalPower votingPower
    return (insert result ⟨i, votingPower, stake⟩, totalPower)) ([], 0)
  let remainingPower ← U64.sub totalVotingPower totalPower
  return (result, remainingPower)

/-- Distributes what remains over the list, to its end or until nothing is left. -/
def distribute (threshold : Nat) : List VotingPowerInfo → Nat → Run (List VotingPowerInfo × Nat)
  | [], remainingPower => return ([], remainingPower)
  | v :: rest, remainingPower =>
    if remainingPower = 0 then return (v :: rest, 0)
    else do
      let planned ← U64.divCeil remainingPower (v :: rest).length
      let sum ← U64.add v.votingPower planned
      let target := min threshold sum
      let difference ← U64.sub target v.votingPower
      let actual := min remainingPower difference
      let votingPower ← U64.add v.votingPower actual
      ensure (votingPower ≤ threshold) .votingPowerOverThreshold
      let remainingPower ← U64.sub remainingPower actual
      let (rest, remainingPower) ← distribute threshold rest remainingPower
      return ({ v with votingPower } :: rest, remainingPower)

def adjustVotingPower (infoList : List VotingPowerInfo) (threshold remainingPower : Nat) :
    Run (List VotingPowerInfo) := do
  let (infoList, remainingPower) ← distribute threshold infoList remainingPower
  ensure (remainingPower = 0) .totalPowerMismatch
  return infoList

def updateVotingPower (validators : List Validator) (infoList : List VotingPowerInfo) :
    Run (List Validator) :=
  infoList.foldlM (fun validators info => do
    let v ← vectorGet validators info.validatorIndex
    return validators.set info.validatorIndex { v with votingPower := info.votingPower }) validators

/-- More stake is not less voting power. -/
def checkPair (a b : Validator) : Run Unit := do
  ensure (b.totalStake < a.totalStake → b.votingPower ≤ a.votingPower) .relativePowerMismatch
  ensure (a.totalStake < b.totalStake → a.votingPower ≤ b.votingPower) .relativePowerMismatch

def checkPairs : List Validator → Run Unit
  | [] => return
  | a :: rest => do
    rest.forM (checkPair a)
    checkPairs rest

def checkInvariants (validators : List Validator) : Run Unit := do
  let total ← validators.foldlM (fun total v => do
    ensure (0 < v.votingPower) .invalidVotingPower
    U64.add total v.votingPower) 0
  ensure (total = totalVotingPower) .totalPowerMismatch
  checkPairs validators

def setVotingPower (validators : List Validator) (totalStake : Nat) : Run (List Validator) := do
  let averageVotingPower ← U64.divCeil totalVotingPower validators.length
  let threshold := min totalVotingPower (max maxVotingPower averageVotingPower)
  let (infoList, remainingPower) ← initVotingPowerInfo validators threshold totalStake
  let infoList ← adjustVotingPower infoList threshold remainingPower
  let validators ← updateVotingPower validators infoList
  checkInvariants validators
  return validators

/-! ### Only the voting power changes -/

/-- The validator with some voting power. -/
def Revalued (v w : Validator) : Prop := ∃ votingPower, w = { v with votingPower }

/-- The entries are for validators of the list. -/
def InRange (n : Nat) (infoList : List VotingPowerInfo) : Prop := ∀ info ∈ infoList, info.validatorIndex < n

variable {infoList : List VotingPowerInfo}

theorem mem_insert : info ∈ insert infoList newInfo ↔ info = newInfo ∨ info ∈ infoList := by
  induction infoList with
  | nil => simp [insert]
  | cons first rest ih =>
    unfold insert
    split
    · rw [mem_cons]
    · rw [mem_cons, ih, mem_cons]
      exact or_left_comm

theorem initVotingPowerInfo_sat (validators : List Validator) (threshold totalStake : Nat) :
    Sat (initVotingPowerInfo validators threshold totalStake)
      (fun r => InRange validators.length r.1) NoAccess := by
  have hloop : Sat (validators.zipIdx.foldlM (fun (p : List VotingPowerInfo × Nat) (vi : Validator × Nat) => do
      let power ← deriveRawVotingPower vi.1.totalStake totalStake
      let total ← U64.add p.2 (min power threshold)
      return (insert p.1 ⟨vi.2, min power threshold, vi.1.totalStake⟩, total)) ([], 0))
      (fun r => InRange validators.length r.1) NoAccess := by
    refine Sat.foldlM_keep (nofun) fun vi hvi r hr => ?_
    refine NoAccess.mulDiv.bind fun power _ => ?_
    refine NoAccess.add.bind fun total _ => ?_
    intro info hinfo
    rcases mem_insert.mp hinfo with rfl | hinfo
    · exact (mem_zipIdx hvi).2.1.trans_eq (Nat.zero_add _)
    · exact hr info hinfo
  refine hloop.bind fun r hr => ?_
  exact NoAccess.sub.bind fun _ _ => hr

theorem distribute_sat (threshold : Nat) (h : InRange n infoList) (remainingPower : Nat) :
    Sat (distribute threshold infoList remainingPower) (fun r => InRange n r.1) NoAccess := by
  induction infoList generalizing remainingPower with
  | nil => exact h
  | cons v rest ih =>
    unfold distribute
    split
    · exact h
    · refine NoAccess.divCeil.bind fun planned _ => ?_
      refine NoAccess.add.bind fun sum _ => ?_
      refine NoAccess.sub.bind fun difference _ => ?_
      refine NoAccess.add.bind fun votingPower _ => ?_
      refine (NoAccess.ensure rfl).bind fun _ _ => ?_
      refine NoAccess.sub.bind fun remaining _ => ?_
      refine (ih (fun info hinfo => h info (.tail _ hinfo)) remaining).bind fun r hr => ?_
      exact forall_mem_cons.mpr ⟨h v (.head _), hr⟩

theorem updateVotingPower_sat {validators : List Validator} (h : InRange validators.length infoList) :
    Sat (updateVotingPower validators infoList) (List.Forall₂ Revalued validators) NoAccess := by
  refine Sat.foldlM_keep (List.forall₂_same.mpr fun v _ => ⟨v.votingPower, rfl⟩) fun info hinfo ws hws => ?_
  refine (vectorGet_sat (hws.length_eq ▸ h info hinfo)).bind fun w hw => ?_
  refine List.forall₂_iff_get.mpr ⟨by rw [List.length_set, hws.length_eq], fun i hi hi' => ?_⟩
  have hold := (List.forall₂_iff_get.mp hws).2 i hi (by rwa [List.length_set] at hi')
  simp only [List.get_eq_getElem, List.getElem_set] at hold ⊢
  split
  · rename_i heq
    subst heq
    obtain ⟨_, hget⟩ := List.getElem?_eq_some_iff.mp hw
    obtain ⟨power, hpower⟩ := hold
    rw [hget] at hpower
    exact ⟨info.votingPower, by rw [hpower]⟩
  · exact hold

section
variable (validators : List Validator)
include validators

theorem checkPairs_sat : Sat (checkPairs validators) (fun _ => True) NoAccess := by
  induction validators with
  | nil => exact trivial
  | cons a rest ih =>
    refine (Sat.forM fun b _ => ?_).bind fun _ _ => ih
    refine (NoAccess.ensure rfl).bind fun _ _ => ?_
    exact (NoAccess.ensure rfl).mono fun _ _ => trivial

theorem checkInvariants_sat : Sat (checkInvariants validators) (fun _ => True) NoAccess := by
  refine Sat.bind (P := fun _ => True) (Sat.foldlM_keep trivial fun v _ total _ => ?_) fun total _ => ?_
  · refine (NoAccess.ensure rfl).bind fun _ _ => ?_
    exact NoAccess.add.mono fun _ _ => trivial
  · exact (NoAccess.ensure rfl).bind fun _ _ => checkPairs_sat validators

theorem setVotingPower_sat (totalStake : Nat) :
    Sat (setVotingPower validators totalStake) (List.Forall₂ Revalued validators) NoAccess := by
  refine NoAccess.divCeil.bind fun average _ => ?_
  refine (initVotingPowerInfo_sat ..).bind fun r hr => ?_
  unfold adjustVotingPower
  simp only [bind_assoc, pure_bind]
  refine (distribute_sat _ hr _).bind fun r hr => ?_
  refine (NoAccess.ensure rfl).bind fun _ _ => ?_
  refine (updateVotingPower_sat hr).bind fun ws hws => ?_
  exact (checkInvariants_sat ws).bind fun _ _ => hws

end

end VotingPower

end Sui.SuiSystem
