import Sui.SuiSystem.StakingPool

/-! Exchange rates.

Both directions of a rate round down, so that the parts of an amount are worth at most the amount
(`tokens_add_le`, `sui_add_le`). A pool looks up the rate of an epoch in its history; `rateAt` is
what it finds, and the lemmas say how the history's growth changes it. -/
namespace Sui.SuiSystem

open Sui.Lib BTreeMap Exec

namespace PoolTokenExchangeRate
variable (rate : PoolTokenExchangeRate)

/-- The tokens the rate gives for an amount of SUI. -/
def tokens (rate : PoolTokenExchangeRate) (sui : Nat) : Nat :=
  if rate.isUnit then sui else rate.poolTokenAmount * sui / rate.suiAmount

/-- The SUI the rate gives for an amount of tokens. -/
def sui (rate : PoolTokenExchangeRate) (tokens : Nat) : Nat :=
  if rate.isUnit then tokens else rate.suiAmount * tokens / rate.poolTokenAmount

theorem getTokenAmount_spec (hover : E .overflow) (amount : Nat) :
    Sat (rate.getTokenAmount amount) (fun t => t = rate.tokens amount) E := by
  unfold getTokenAmount tokens
  split
  · exact rfl
  · rename_i h
    exact (U64.mulDiv_sat (fun hs => absurd (.inl hs) h) hover).mono fun _ h => h.1

theorem getSuiAmount_spec (hover : E .overflow) (amount : Nat) :
    Sat (rate.getSuiAmount amount) (fun s => s = rate.sui amount) E := by
  unfold getSuiAmount sui
  split
  · exact rfl
  · rename_i h
    exact (U64.mulDiv_sat (fun hs => absurd (.inr hs) h) hover).mono fun _ h => h.1

@[simp] theorem tokens_zero : rate.tokens 0 = 0 := by
  simp [tokens]

theorem tokens_of_isUnit (h : rate.isUnit) (a : Nat) : rate.tokens a = a := if_pos h

theorem sui_of_isUnit (h : rate.isUnit) (a : Nat) : rate.sui a = a := if_pos h

theorem initial_isUnit : initial.isUnit := .inl rfl

theorem tokens_add_le (a b : Nat) : rate.tokens a + rate.tokens b ≤ rate.tokens (a + b) := by
  unfold tokens
  split
  · exact le_rfl
  · rw [Nat.mul_add]
    exact Nat.div_add_div_le_add_div ..

theorem sui_add_le (a b : Nat) : rate.sui a + rate.sui b ≤ rate.sui (a + b) := by
  unfold sui
  split
  · exact le_rfl
  · rw [Nat.mul_add]
    exact Nat.div_add_div_le_add_div ..

theorem tokens_mono (h : a ≤ b) : rate.tokens a ≤ rate.tokens b := by
  obtain ⟨c, rfl⟩ := Nat.exists_eq_add_of_le h
  exact (Nat.le_add_right ..).trans (rate.tokens_add_le a c)

/-- What a part of the tokens is worth is a part of the SUI. -/
theorem sui_le (h : a ≤ rate.poolTokenAmount) (hzero : rate.suiAmount = 0 → a = 0) :
    rate.sui a ≤ rate.suiAmount := by
  unfold sui
  split
  · rename_i hunit
    rcases hunit with hs | ht
    · rw [hzero hs]
      exact Nat.zero_le _
    · have : a = 0 := by omega
      rw [this]
      exact Nat.zero_le _
  · apply Nat.div_le_of_le_mul
    rw [Nat.mul_comm]
    exact Nat.mul_le_mul_right _ h

/-- A pool with as many tokens as SUI gives one for one. -/
theorem tokens_self (sui a : Nat) : tokens ⟨sui, sui⟩ a = a := by
  unfold tokens
  split
  · rfl
  · rename_i h
    have hpos : 0 < sui := Nat.pos_of_ne_zero fun hs => h (.inl hs)
    exact Nat.mul_div_cancel_left a hpos

section Growth
variable {sui : Nat}

/-- The tokens of a pool that takes in pending stake: those it has, and what the stake gets. -/
theorem tokens_grow (hs : sui ≠ 0) (ht : token ≠ 0) (pending : Nat) :
    tokens ⟨sui, token⟩ (sui + pending) = token + token * pending / sui := by
  have hunit : ¬(isUnit ⟨sui, token⟩) := fun h => h.elim hs ht
  rw [tokens, if_neg hunit, Nat.mul_add]
  rw [Nat.mul_comm token sui, Nat.mul_add_div (Nat.pos_of_ne_zero hs)]

theorem tokens_grow_eq_zero_iff (pending : Nat) : tokens ⟨sui, token⟩ (sui + pending) = 0 ↔ sui + pending = 0 := by
  by_cases hunit : isUnit ⟨sui, token⟩
  · rw [tokens_of_isUnit _ hunit]
  · have hs : sui ≠ 0 := fun h => hunit (.inl h)
    have ht : token ≠ 0 := fun h => hunit (.inr h)
    rw [tokens_grow hs ht]
    exact iff_of_false (fun h => ht (Nat.eq_zero_of_add_eq_zero_right h))
      (fun h => hs (Nat.eq_zero_of_add_eq_zero_right h))

/-- The new rate gives no more for the pending stake than the pool gained. -/
theorem tokens_next_le (hs : sui ≠ 0) (ht : token ≠ 0) (pending : Nat) :
    tokens ⟨sui + pending, tokens ⟨sui, token⟩ (sui + pending)⟩ pending ≤ token * pending / sui := by
  have hpos : 0 < sui := Nat.pos_of_ne_zero hs
  rw [tokens_grow hs ht]
  have hunit : ¬(isUnit ⟨sui + pending, token + token * pending / sui⟩) := by
    intro h
    rcases h with h | h
    · exact hs (Nat.eq_zero_of_add_eq_zero_right h)
    · exact ht (Nat.eq_zero_of_add_eq_zero_right h)
  rw [tokens, if_neg hunit]
  have hle : token * pending / sui * sui ≤ token * pending := Nat.div_mul_le_self ..
  apply Nat.le_div_iff_mul_le hpos |>.mpr
  have hmul : ((token + token * pending / sui) * pending / (sui + pending)) * (sui + pending) ≤
      (token + token * pending / sui) * pending := Nat.div_mul_le_self ..
  -- both sides are compared after multiplying by `sui + pending`
  have hsum : (token + token * pending / sui) * sui ≤ token * (sui + pending) := by
    rw [Nat.add_mul, Nat.mul_add]
    omega
  have hgoal : ((token + token * pending / sui) * pending / (sui + pending)) * sui *
      (sui + pending) ≤ token * pending * (sui + pending) := by
    calc _ = ((token + token * pending / sui) * pending / (sui + pending)) * (sui + pending) * sui := by
          ring
      _ ≤ (token + token * pending / sui) * pending * sui := Nat.mul_le_mul_right _ hmul
      _ = (token + token * pending / sui) * sui * pending := by ring
      _ ≤ token * (sui + pending) * pending := Nat.mul_le_mul_right _ hsum
      _ = token * pending * (sui + pending) := by ring
  exact Nat.le_of_mul_le_mul_right hgoal (by omega)

/-- What was covered before is covered after, with what the pending stake gets. -/
theorem covers_next (howed : owed ≤ token) (hempty : sui = 0 → owed = 0) (hstarted : started ≤ pending) :
    owed + tokens ⟨sui + pending, tokens ⟨sui, token⟩ (sui + pending)⟩ started ≤
      tokens ⟨sui, token⟩ (sui + pending) := by
  by_cases hunit : isUnit ⟨sui, token⟩
  · have hzero : owed = 0 := by
      rcases hunit with hs | ht
      · exact hempty hs
      · simp only at ht
        omega
    rw [tokens_of_isUnit _ hunit, tokens_self]
    omega
  · have hs : sui ≠ 0 := fun h => hunit (.inl h)
    have ht : token ≠ 0 := fun h => hunit (.inr h)
    have hmono := tokens_mono ⟨sui + pending, tokens ⟨sui, token⟩ (sui + pending)⟩ hstarted
    have hnext := tokens_next_le hs ht pending
    have hgrow := tokens_grow hs ht pending
    omega

end Growth

end PoolTokenExchangeRate

/-! ### The history of a pool -/

namespace StakingPool
variable {pool : StakingPool} {a epoch : Nat} {rate : PoolTokenExchangeRate} {k : Nat}
  {p : StakingPool}

/-- An activated pool has a rate for its activation, so that looking for one ends. -/
def Activated (pool : StakingPool) : Prop :=
  ∀ a, pool.activationEpoch = some a → a ∈ pool.exchangeRates

theorem latestRate_ok (ha : a ∈ rates) (epoch : Nat) : ∃ rate, latestRate rates a epoch = .ok rate := by
  induction epoch with
  | zero =>
    unfold latestRate
    split
    · exact ⟨_, rfl⟩
    · obtain rfl : a = 0 := by omega
      obtain ⟨rate, hrate⟩ := mem_iff_get.mp ha
      exact ⟨rate, by rw [hrate]; rfl⟩
  | succ epoch ih =>
    unfold latestRate
    split
    · exact ⟨_, rfl⟩
    · split
      · exact ⟨_, rfl⟩
      · exact ih

theorem Activated.lookup (h : pool.Activated) (epoch : Nat) :
    ∃ rate, pool.poolTokenExchangeRateAtEpoch epoch = .ok rate := by
  unfold poolTokenExchangeRateAtEpoch
  cases ha : pool.activationEpoch with
  | none => exact ⟨_, rfl⟩
  | some a =>
    dsimp only
    split
    · exact ⟨_, rfl⟩
    · exact latestRate_ok (h a ha) _

theorem Activated.lookup_sat (h : pool.Activated) (epoch : Nat) :
    Sat (pool.poolTokenExchangeRateAtEpoch epoch)
      (fun rate => pool.poolTokenExchangeRateAtEpoch epoch = .ok rate) E := by
  obtain ⟨rate, hrate⟩ := h.lookup epoch
  exact Sat.of_eq hrate hrate

/-- What is known of the history of rates in an epoch. -/
structure History (pool : StakingPool) (epoch : Nat) : Prop where
  activated : pool.Activated
  recorded : ∀ k ∈ pool.exchangeRates, k ≤ epoch
  fresh : pool.isPreactive = true → ∀ k, k ∉ pool.exchangeRates

theorem latestRate_insert_of_lt (h : epoch < k) :
    latestRate (rates.insert k rate) a epoch = latestRate rates a epoch := by
  induction epoch with
  | zero => rw [latestRate, latestRate, get_insert_of_ne _ _ (by omega)]
  | succ epoch ih =>
    rw [latestRate, latestRate, get_insert_of_ne _ _ (by omega), ih (by omega)]

theorem latestRate_of_get (ha : a ≤ epoch) (h : rates[epoch]? = some rate) :
    latestRate rates a epoch = .ok rate := by
  cases epoch with
  | zero => rw [latestRate, if_neg (by omega), h]; rfl
  | succ epoch => rw [latestRate, if_neg (by omega), h]; rfl

theorem latestRate_succ (ha : a ≤ epoch) (h : epoch + 1 ∉ rates) :
    latestRate rates a (epoch + 1) = latestRate rates a epoch := by
  rw [latestRate, if_neg (by omega), not_mem_iff_get.mp h]

/-- The rate of an epoch. -/
def rateAt (pool : StakingPool) (epoch : Nat) : PoolTokenExchangeRate :=
  match pool.poolTokenExchangeRateAtEpoch epoch with
  | .ok rate => rate
  | .error _ => .initial

theorem rateAt_of_eq (h : pool.poolTokenExchangeRateAtEpoch epoch = .ok rate) : pool.rateAt epoch = rate := by
  rw [rateAt, h]

theorem rateAt_of_preactive (h : pool.isPreactive = true) (epoch : Nat) : pool.rateAt epoch = .initial := by
  apply rateAt_of_eq
  rw [poolTokenExchangeRateAtEpoch, Option.isNone_iff_eq_none.mp h]
  rfl

/-- The lookup of an active pool. -/
theorem rateAt_active (ha : pool.activationEpoch = some a) (hin : pool.isInactive = false) (epoch : Nat) :
    pool.poolTokenExchangeRateAtEpoch epoch =
      if epoch < a then .ok .initial else latestRate pool.exchangeRates a epoch := by
  have hnone : pool.deactivationEpoch = none := Option.not_isSome_iff_eq_none.mp (by
    rw [← isInactive, hin]; decide)
  rw [poolTokenExchangeRateAtEpoch, ha, hnone, Option.getD_none, Nat.min_self]
  rfl

namespace History

/-- An activated pool was activated before. -/
theorem begun (h : pool.History epoch) (ha : pool.activationEpoch = some a) : a ≤ epoch :=
  h.recorded a (h.activated a ha)

theorem next_not_mem (h : pool.History epoch) : epoch + 1 ∉ pool.exchangeRates := by
  intro hmem
  have := h.recorded _ hmem
  omega

variable {p : StakingPool} {epoch' : Nat}

section
variable (h : pool.History epoch)
include h

theorem mono (hle : epoch ≤ epoch') : pool.History epoch' :=
  ⟨h.activated, fun k hk => (h.recorded k hk).trans hle, h.fresh⟩

theorem congr
    (ha : p.activationEpoch = pool.activationEpoch) (hr : p.exchangeRates = pool.exchangeRates) :
    p.History epoch where
  activated a hp := hr ▸ h.activated a (ha ▸ hp)
  recorded k hk := h.recorded k (hr ▸ hk)
  fresh hp k hk := h.fresh (by rw [isPreactive, ← ha]; exact hp) k (hr ▸ hk)

/-- The rate of the next epoch is recorded. -/
theorem insert (hpre : pool.isPreactive = false) (ha : p.activationEpoch = pool.activationEpoch)
    (hr : p.exchangeRates = pool.exchangeRates.insert (epoch + 1) rate) : p.History (epoch + 1) where
  activated a hp := by
    rw [hr, mem_insert_iff]
    exact .inr (h.activated a (ha ▸ hp))
  recorded k hk := by
    rw [hr, mem_insert_iff] at hk
    rcases hk with rfl | hk
    · exact le_rfl
    · exact (h.recorded k hk).trans (Nat.le_succ _)
  fresh hp := by
    rw [isPreactive, ha, ← isPreactive, hpre] at hp
    cases hp

end

/-- A new pool has no history. -/
theorem new (id epoch : Nat) : History { id } epoch where
  activated a ha := by cases ha
  recorded k hk := by simp at hk
  fresh _ k := by simp

/-- The history of a pool begins when it is activated. -/
theorem activate (h : pool.History epoch) (hpre : pool.isPreactive = true)
    (hle : a ≤ epoch') (ha : p.activationEpoch = some a)
    (hr : p.exchangeRates = pool.exchangeRates.insert a rate) : p.History epoch' where
  activated b hb := by
    obtain rfl : a = b := Option.some.inj (ha.symm.trans hb)
    rw [hr, mem_insert_iff]
    exact .inl rfl
  recorded k hk := by
    rw [hr, mem_insert_iff] at hk
    rcases hk with rfl | hk
    · exact hle
    · exact absurd hk (h.fresh hpre k)
  fresh hp := by
    rw [isPreactive, ha] at hp
    cases hp

end History

/-! ### How the rates of a pool change -/

/-- A new rate does not change those of earlier epochs. -/
theorem rateAt_insert_of_lt (hlt : epoch < k) (ha : pool.activationEpoch = some a) (hin : pool.isInactive = false)
    (hpa : p.activationEpoch = some a) (hpin : p.isInactive = false)
    (hr : p.exchangeRates = pool.exchangeRates.insert k rate) : p.rateAt epoch = pool.rateAt epoch := by
  rw [rateAt, rateAt, rateAt_active ha hin, rateAt_active hpa hpin, hr, latestRate_insert_of_lt hlt]

theorem rateAt_insert_self (hak : a ≤ k) (hpa : p.activationEpoch = some a) (hpin : p.isInactive = false)
    (hr : p.exchangeRates = pool.exchangeRates.insert k rate) : p.poolTokenExchangeRateAtEpoch k = .ok rate := by
  rw [rateAt_active hpa hpin, if_neg (by omega), hr]
  exact latestRate_of_get hak (get_insert_self ..)

/-- Without a new rate the last one stays. -/
theorem rateAt_succ (h : pool.History epoch) (ha : pool.activationEpoch = some a)
    (hin : pool.isInactive = false) : pool.rateAt (epoch + 1) = pool.rateAt epoch := by
  have hbegun := h.begun ha
  rw [rateAt, rateAt, rateAt_active ha hin, rateAt_active ha hin, if_neg (by omega),
    if_neg (by omega), latestRate_succ hbegun h.next_not_mem]

/-- The rates of a pool that is deactivated stay up to then. -/
theorem rateAt_deactivate (hin : pool.isInactive = false) (hle : epoch ≤ d) :
    StakingPool.rateAt { pool with deactivationEpoch := some d } epoch = pool.rateAt epoch := by
  have hnone : pool.deactivationEpoch = none := Option.not_isSome_iff_eq_none.mp (by
    rw [← isInactive, hin]; decide)
  unfold rateAt poolTokenExchangeRateAtEpoch
  simp only [hnone, Option.getD_some, Option.getD_none, Nat.min_self, Nat.min_eq_right hle]

theorem latestRate_initial (h : ∀ (k : Nat) r, rates[k]? = some r → r = PoolTokenExchangeRate.initial)
    (hrate : latestRate rates a epoch = .ok rate) : rate = .initial := by
  induction epoch with
  | zero =>
    rw [latestRate] at hrate
    split at hrate
    · exact (pure_eq_ok.mp hrate).symm
    · split at hrate
      · rename_i r hr
        rw [← pure_eq_ok.mp hrate]
        exact h 0 r hr
      · cases hrate
  | succ epoch ih =>
    rw [latestRate] at hrate
    split at hrate
    · exact (pure_eq_ok.mp hrate).symm
    · split at hrate
      · rename_i r hr
        rw [← pure_eq_ok.mp hrate]
        exact h (epoch + 1) r hr
      · exact ih hrate

/-- A pool all of whose rates are initial gives no other. -/
theorem rateAt_initial
    (h : ∀ (k : Nat) r, pool.exchangeRates[k]? = some r → r = PoolTokenExchangeRate.initial)
    (epoch : Nat) : pool.rateAt epoch = .initial := by
  unfold rateAt poolTokenExchangeRateAtEpoch
  cases pool.activationEpoch with
  | none => rfl
  | some a =>
    dsimp only
    split
    · rename_i rate hrate
      split at hrate
      · exact (pure_eq_ok.mp hrate).symm
      · exact latestRate_initial h hrate
    · rfl

end StakingPool
end Sui.SuiSystem
