import Sui.Lib.Quorum
import Sui.Consensus.Exec

/-! The committee and its thresholds.

`Committee.new` derives the thresholds of the two-thirds protocol from the total
stake; `Committee.newV3` derives them from a hybrid budget of malicious and
crashed stake, scaled to the real total. Both check their own intersection
inequalities, and what the rest of the development uses of a committee is exactly
those: `new_spec` and `Built.bounds`. The checks of `newV3` never fail (`newV3_safe`).

Overflow of the 64-bit stake arithmetic panics, also within a check, as it does with overflow checks
on. -/
namespace Sui.Consensus

open Sui.Lib Exec

/-- The voting power of one authority; its keys and addresses play no part here. -/
structure Authority where
  stake : Nat
deriving DecidableEq, Repr

structure Committee where
  epoch : Nat
  authorities : List Authority
  totalStake : Nat
  quorumThreshold : Nat
  certificationThreshold : Nat
  validityThreshold : Nat
deriving DecidableEq, Repr

namespace Committee

def size (c : Committee) : Nat := c.authorities.length

/-- An index outside the committee holds no stake. The source indexes with valid
authorities only. -/
def stake (c : Committee) (i : Nat) : Nat :=
  (c.authorities[i]?.map Authority.stake).getD 0

def isValidIndex (c : Committee) (i : Nat) : Bool := i < c.size

def reachedQuorum (c : Committee) (s : Nat) : Bool := c.quorumThreshold ≤ s

/-- The sum of all stakes, as both constructors compute it. -/
def sumStakes (authorities : List Authority) : Exec Nat :=
  checkedU64 (authorities.map Authority.stake).sum

def new (epoch : Nat) (authorities : List Authority) : Exec Committee := do
  assert (authorities ≠ []) .emptyCommittee
  assert (authorities.length < 2 ^ 32 - 1) .tooManyAuthorities
  let totalStake ← sumStakes authorities
  assert (totalStake ≠ 0) .zeroTotalStake
  let faultTolerance := (totalStake - 1) / 3
  let quorumThreshold := totalStake - faultTolerance
  let validityThreshold := faultTolerance + 1
  let quorums ← checkedU64 (2 * quorumThreshold)
  assert (quorums - faultTolerance > totalStake) .quorumsDoNotIntersect
  return {
    epoch, authorities, totalStake, quorumThreshold, validityThreshold
    certificationThreshold := quorumThreshold }

/-- One budget scaled to the real total stake. -/
def scale (actualTotalStake baseStake nominal : Nat) : Exec Nat := do
  let product ← checkedU64 (nominal * (actualTotalStake - 1))
  return product / baseStake

/-- The budgets `(f, c)`; there is nothing to scale when both are zero. -/
def faultBudgets (actualTotalStake maliciousStake crashStake : Nat) : Exec (Nat × Nat) := do
  let baseStake ← checkedU64 (5 * maliciousStake + 3 * crashStake)
  if baseStake > 0 then do
    let f ← scale actualTotalStake baseStake maliciousStake
    let c ← scale actualTotalStake baseStake crashStake
    return (f, c)
  else return (0, 0)

def newV3 (epoch : Nat) (authorities : List Authority) (maliciousStake crashStake : Nat) :
    Exec Committee := do
  assert (authorities ≠ []) .emptyCommittee
  assert (authorities.length < 2 ^ 32 - 1) .tooManyAuthorities
  let actualTotalStake ← sumStakes authorities
  assert (actualTotalStake ≠ 0) .zeroTotalStake
  let (f, c) ← faultBudgets actualTotalStake maliciousStake crashStake
  let validityThreshold ← checkedU64 (f + 1)
  let certificationThreshold ← checkedU64 (2 * f + c + 1)
  assert (f + c ≤ actualTotalStake) .stakeOverflow
  let quorumThreshold := actualTotalStake - f - c
  let certifiedAndQuorum ← checkedU64 (certificationThreshold + quorumThreshold)
  let totalAndFaulty ← checkedU64 (actualTotalStake + f + 1)
  assert (certifiedAndQuorum ≥ totalAndFaulty) .quorumsDoNotIntersect
  let quorums ← checkedU64 (quorumThreshold * 2)
  let totalAndCertified ← checkedU64 (actualTotalStake + f + certificationThreshold)
  assert (quorums ≥ totalAndCertified) .certificateDoesNotSurvive
  return {
    epoch, authorities, totalStake := actualTotalStake, quorumThreshold,
    certificationThreshold, validityThreshold }

/-! ### Stake of a group of authorities -/

/-- The authorities of the committee. -/
def members (c : Committee) : Finset Nat := Finset.range c.size

def stakeOf (c : Committee) (s : Finset Nat) : Nat := weight c.stake s

theorem stake_supported (c : Committee) : Supported c.stake c.members := by
  intro i hi
  have h : c.authorities.length ≤ i := by simpa [members, size] using hi
  simp [stake, List.getElem?_eq_none h]

theorem weight_members (c : Committee) : weight c.stake c.members = (c.authorities.map Authority.stake).sum := by
  unfold weight members size stake
  induction c.authorities with
  | nil => rfl
  | cons a rest ih =>
    rw [List.length_cons, Finset.sum_range_succ']
    simp only [List.getElem?_cons_succ, List.getElem?_cons_zero, ih, List.map_cons, List.sum_cons,
      Option.map_some, Option.getD_some]
    exact Nat.add_comm _ _

end Committee

/-- What a committee's thresholds promise: two quorums overlap in more than the
tolerated faults `f`, and so do a quorum and a certificate. -/
structure Committee.Safe (c : Committee) (f : Nat) : Prop where
  total : weight c.stake c.members = c.totalStake
  validity : c.validityThreshold = f + 1
  quorum : c.totalStake + f < 2 * c.quorumThreshold
  certified : c.totalStake + f < c.certificationThreshold + c.quorumThreshold

namespace Committee

variable {authorities : List Authority}

/-- The stakes of the authorities together. -/
abbrev allStake (authorities : List Authority) : Nat := (authorities.map Authority.stake).sum

/-- What `new` makes of its authorities. -/
theorem new_eq_ok {epoch : Nat} {c : Committee} (h : new epoch authorities = .ok c) :
    0 < allStake authorities ∧ allStake authorities ≤ U64_MAX ∧
      c = ⟨epoch, authorities, allStake authorities, allStake authorities - (allStake authorities - 1) / 3,
        allStake authorities - (allStake authorities - 1) / 3, (allStake authorities - 1) / 3 + 1⟩ := by
  simp only [new, sumStakes, bind_eq_ok, assert_eq_ok, checkedU64_eq_ok] at h
  obtain ⟨-, -, -, -, _, ⟨rfl, hmax⟩, -, hne, _, -, -, -, hc⟩ := h
  exact ⟨Nat.pos_of_ne_zero hne, hmax, (pure_eq_ok.mp hc).symm⟩

/-- A committee of the two-thirds protocol tolerates a third of its stake. -/
theorem new_spec {epoch : Nat} {c : Committee}
    (h : new epoch authorities = .ok c) : c.Safe ((c.totalStake - 1) / 3) ∧
      c.quorumThreshold = c.totalStake - (c.totalStake - 1) / 3 := by
  obtain ⟨hpos, -, rfl⟩ := new_eq_ok h
  refine ⟨⟨weight_members _, rfl, ?_, ?_⟩, rfl⟩
  · simp only
    omega
  · simp only
    omega

/-- The faulty stake a committee tolerates, read off its validity threshold. -/
def faultTolerance (c : Committee) : Nat := c.validityThreshold - 1

theorem scale_sat (hover : E .stakeOverflow) : Sat (scale total base n) (· = n * (total - 1) / base) E :=
  (checkedU64_sat hover _).bind_eq_and fun _ => rfl

/-- Five times the malicious and three times the crashed stake stay below the total. -/
theorem faultBudgets_sat (hover : E .stakeOverflow) (hpos : total ≠ 0) :
    Sat (faultBudgets total m k) (fun b => 5 * b.1 + 3 * b.2 < total) E := by
  refine (checkedU64_sat hover _).bind_eq_and fun _ => ?_
  split
  · rename_i hbase
    refine (scale_sat hover).bind_eq ((scale_sat hover).bind_eq ?_)
    generalize hb : 5 * m + 3 * k = base at hbase
    have hf := Nat.mul_div_le (m * (total - 1)) base
    have hc := Nat.mul_div_le (k * (total - 1)) base
    have hle : base * (5 * (m * (total - 1) / base) + 3 * (k * (total - 1) / base)) ≤ base * (total - 1) := by
      nlinarith
    have hle := Nat.le_of_mul_le_mul_left hle hbase
    show 5 * _ + 3 * _ < total
    omega
  · exact Nat.pos_of_ne_zero hpos

/-- What `newV3` makes of its authorities, with budgets `f` and `c` of the actual stake. -/
def OfBudgets (authorities : List Authority) (f c : Nat) (committee : Committee) : Prop :=
  5 * f + 3 * c < allStake authorities ∧ allStake authorities ≤ U64_MAX ∧ ∃ epoch,
    committee = ⟨epoch, authorities, allStake authorities, allStake authorities - f - c, 2 * f + c + 1, f + 1⟩

/-- The assertions follow from the budgets; only the arithmetic may fail. -/
theorem newV3_sat (epoch : Nat) (authorities : List Authority) (maliciousStake crashStake : Nat) :
    Sat (newV3 epoch authorities maliciousStake crashStake) (fun c => ∃ f k, OfBudgets authorities f k c)
      fun panic => panic ≠ .quorumsDoNotIntersect ∧ panic ≠ .certificateDoesNotSurvive := by
  refine (Sat.require fun _ => by decide).bind fun _ _ => ?_
  refine (Sat.require fun _ => by decide).bind fun _ _ => ?_
  refine (checkedU64_sat (by decide) _).bind_eq_and fun hmax => ?_
  refine (Sat.require fun _ => by decide).bind fun _ hpos => ?_
  refine (faultBudgets_sat (by decide) hpos).bind fun b hb => ?_
  obtain ⟨f, k⟩ := b
  dsimp only at hb ⊢
  refine (checkedU64_sat (by decide) _).bind_eq_and fun _ => ?_
  refine (checkedU64_sat (by decide) _).bind_eq_and fun _ => ?_
  refine (Sat.require fun _ => by decide).bind fun _ hle => ?_
  refine (checkedU64_sat (by decide) _).bind_eq_and fun _ => ?_
  refine (checkedU64_sat (by decide) _).bind_eq_and fun _ => ?_
  refine (Sat.require fun h => ?_).bind fun _ _ => ?_
  · omega
  refine (checkedU64_sat (by decide) _).bind_eq_and fun _ => ?_
  refine (checkedU64_sat (by decide) _).bind_eq_and fun _ => ?_
  refine (Sat.require fun h => ?_).bind fun _ _ => ?_
  · omega
  exact ⟨f, k, hb, hmax, epoch, rfl⟩

/-- A committee of the hybrid protocol tolerates its scaled malicious stake, and a
certificate survives in the overlap of two quorums. -/
theorem OfBudgets.safe {c : Committee} (h : OfBudgets authorities f k c) : c.Safe c.faultTolerance ∧
      c.totalStake + c.faultTolerance + c.certificationThreshold ≤ 2 * c.quorumThreshold := by
  obtain ⟨hlt, -, epoch, rfl⟩ := h
  simp only [faultTolerance, Nat.add_sub_cancel]
  refine ⟨⟨weight_members _, rfl, ?_, ?_⟩, ?_⟩
  · simp only
    omega
  · simp only
    omega
  · omega

/-- **The thresholds of the hybrid protocol are safe for every budget**: the inequalities that it
asserts hold whatever the stakes are, and two quorums share a certificate of authorities that are
not faulty. Below half of the range of the stakes nothing in the assertions overflows, so that only
the scaling of the budgets may fail. -/
theorem newV3_safe (epoch : Nat) (authorities : List Authority) (maliciousStake crashStake : Nat) :
    Sat (newV3 epoch authorities maliciousStake crashStake)
      (fun c => ∀ faulty s t, c.stakeOf faulty ≤ c.faultTolerance → c.quorumThreshold ≤ c.stakeOf s →
        c.quorumThreshold ≤ c.stakeOf t → c.certificationThreshold ≤ c.stakeOf ((s ∩ t) \ faulty))
      (fun panic => panic ≠ .quorumsDoNotIntersect ∧ panic ≠ .certificateDoesNotSurvive) ∧
    (authorities ≠ [] → authorities.length < 2 ^ 32 - 1 → 0 < allStake authorities →
      allStake authorities < 2 ^ 63 → ∀ budgets,
      faultBudgets (allStake authorities) maliciousStake crashStake = .ok budgets →
      ∃ c, newV3 epoch authorities maliciousStake crashStake = .ok c) := by
  constructor
  · refine (newV3_sat ..).mono fun c hc faulty s t hf hs ht => ?_
    obtain ⟨f, k, hc⟩ := hc
    obtain ⟨hsafe, hcert⟩ := hc.safe
    have hge := weight_inter_sdiff_ge c.stake_supported s t faulty hf
    rw [hsafe.total] at hge
    unfold stakeOf at hs ht ⊢
    omega
  · intro hne hlen hpos hlt budgets hbudgets
    have hb := (faultBudgets_sat (E := fun _ => True) trivial hpos.ne').ok hbudgets
    have hmax : U64_MAX = 2 ^ 64 - 1 := rfl
    have hall := checkedU64_of_le (n := allStake authorities) (by omega)
    refine ⟨_, (bind_require hne _).trans <| (bind_require hlen _).trans <| (bind_ok hall _).trans <|
      (bind_require hpos.ne' _).trans <| (bind_ok hbudgets _).trans <|
      (bind_ok (checkedU64_of_le ?_) _).trans <| (bind_ok (checkedU64_of_le ?_) _).trans <|
      (bind_require ?_ _).trans <|
      (bind_ok (checkedU64_of_le ?_) _).trans <| (bind_ok (checkedU64_of_le ?_) _).trans <|
      (bind_require ?_ _).trans <|
      (bind_ok (checkedU64_of_le ?_) _).trans <| (bind_ok (checkedU64_of_le ?_) _).trans <|
      bind_require ?_ _⟩ <;> omega

/-- Seven authorities, of which one may be malicious. -/
theorem newV3_safe_seven : ∃ c, newV3 0 (List.replicate 7 ⟨1⟩) 1 0 = .ok c :=
  (newV3_safe 0 (List.replicate 7 ⟨1⟩) 1 0).2 (by decide) (by decide) (by decide) (by decide) (1, 0) (by decide)

/-- A committee comes from one of the two constructors. -/
inductive Built : Committee → Prop
  | new {epoch authorities c} : Committee.new epoch authorities = .ok c → Built c
  | newV3 {epoch authorities malicious crash c} :
      Committee.newV3 epoch authorities malicious crash = .ok c → Built c

/-- What either constructor checks of the stake. -/
theorem Built.bounds (h : Built c) :
    weight c.stake c.members = c.totalStake ∧ 0 < c.totalStake ∧ c.totalStake ≤ U64_MAX ∧
      2 * c.faultTolerance < c.quorumThreshold := by
  cases h with
  | new h =>
    obtain ⟨hpos, hmax, rfl⟩ := new_eq_ok h
    refine ⟨weight_members _, hpos, hmax, ?_⟩
    simp only [faultTolerance]
    omega
  | newV3 h =>
    obtain ⟨f, k, hlt, hmax, epoch, rfl⟩ := (newV3_sat ..).ok h
    refine ⟨weight_members _, Nat.zero_lt_of_lt hlt, hmax, ?_⟩
    simp only [faultTolerance]
    omega

theorem Built.quorum_pos (h : Built c) : 0 < c.quorumThreshold := by
  have := h.bounds.2.2.2
  omega

end Committee

end Sui.Consensus
