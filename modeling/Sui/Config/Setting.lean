import Sui.Lib.Except

/-! Settings that change between epochs only.

A setting is a dynamic field of a config. It has a value for the epochs after the one it was
written in, and the value before that for the rest of this one. Transactions read it without
being ordered after the writes of their epoch.

`Left` says what calls leave, without the field. `setting_constant`: at every moment of an epoch a
read gives what the calls of the epochs before left, and no call finds a state that the code guards
against. -/
namespace Sui.Config

open Sui.Lib Exec List

structure SettingData (V : Type) where
  newerValueEpoch : Nat
  newerValue : Option V
  olderValueOpt : Option V

structure Setting (V : Type) where
  data : Option (SettingData V)

/-- The dynamic field of a setting, if it is there. -/
abbrev Field (V : Type) := Option (Setting V)

inductive Abort
  | alreadySetForEpoch
  | notSetForEpoch
  | fieldDoesNotExist
  /-- The setting has no data. -/
  | optionNotSet
  /-- The setting was written in a later epoch. -/
  | laterEpoch
  /-- A reader finds data without a value. -/
  | noValue

section
variable {V : Type} (epoch : Nat) (field : Field V)

/-- The data of a field that is there. -/
def dataOf : Except Abort (Option (SettingData V)) :=
  match field with
  | none => return none
  | some sobj => return some (← unwrap sobj.data .optionNotSet)

/-- The value that a call leaves for the rest of its epoch. -/
def SettingData.kept (data : SettingData V) : Except Abort (Option V) := do
  if data.newerValueEpoch < epoch then return data.newerValue
  require (epoch = data.newerValueEpoch) .laterEpoch
  return data.olderValueOpt

/-- The value that is dropped, and the field. -/
def addForNextEpoch (value : V) : Except Abort (Option V × Field V) := do
  match ← dataOf field with
  | none => return (none, some ⟨some ⟨epoch, some value, none⟩⟩)
  | some data =>
    let olderValueOpt ← data.kept epoch
    require (data.newerValueEpoch < epoch ∨ data.newerValue.isNone) .alreadySetForEpoch
    return (if data.newerValueEpoch < epoch then data.olderValueOpt else none,
      some ⟨some ⟨epoch, some value, olderValueOpt⟩⟩)

/-- A field without a value is removed. -/
def removeForNextEpoch : Except Abort (Option V × Field V) := do
  match ← dataOf field with
  | none => return (none, none)
  | some data =>
    let olderValueOpt ← data.kept epoch
    return (if data.newerValueEpoch < epoch then none else data.newerValue,
      if olderValueOpt.isNone then none else some ⟨some ⟨epoch, none, olderValueOpt⟩⟩)

def existsForNextEpoch : Except Abort Bool := do
  match ← dataOf field with
  | none => return false
  | some data => return epoch = data.newerValueEpoch ∧ data.newerValue.isSome

/-- The caller applies `change` to the value that it borrows. -/
def borrowForNextEpochMut (change : V → V) : Except Abort (Field V) := do
  let data ← unwrap (← dataOf field) .fieldDoesNotExist
  require (data.newerValueEpoch = epoch) .notSetForEpoch
  let value ← unwrap data.newerValue .notSetForEpoch
  return some ⟨some { data with newerValue := some (change value) }⟩

/-- The caller's `change` sees the value that was dropped. -/
def update (initial : V) (change : Option V → V → V) : Except Abort (Field V) := do
  if ← existsForNextEpoch epoch field then borrowForNextEpochMut epoch field (change none)
  else
    let (oldValueOpt, field) ← addForNextEpoch epoch field initial
    borrowForNextEpochMut epoch field (change oldValueOpt)

def entry (initial : V) (change : V → V) : Except Abort (Field V) :=
  update epoch field initial fun _ => change

def readSettingForNextEpoch : Except Abort (Option V) :=
  return (← dataOf field).bind SettingData.newerValue

/-- What transactions of the epoch read. The states that the code logs, or asserts not to see,
are failures here. -/
def readSetting : Except Abort (Option V) := do
  match ← dataOf field with
  | none => return none
  | some data =>
    require (data.newerValue.isSome ∨ data.olderValueOpt.isSome) .noValue
    return if data.newerValueEpoch < epoch then data.newerValue else data.olderValueOpt

end

inductive Call (V : Type)
  | add (value : V)
  | remove
  | borrow (change : V → V)
  | entry (initial : V) (change : V → V)
  | update (initial : V) (change : Option V → V → V)

variable {V : Type}

/-- The aborts of a call that comes at the wrong time. -/
def Call.MayAbort : Call V → Abort → Prop
  | add _, .alreadySetForEpoch | borrow _, .notSetForEpoch | borrow _, .fieldDoesNotExist => True
  | _, _ => False

def Call.apply (epoch : Nat) (field : Field V) : Call V → Except Abort (Field V)
  | add value => return (← addForNextEpoch epoch field value).2
  | remove => return (← removeForNextEpoch epoch field).2
  | borrow change => borrowForNextEpochMut epoch field change
  | entry initial change => Config.entry epoch field initial change
  | update initial change => Config.update epoch field initial change

/-- A call that aborts changes nothing. -/
def step (field : Field V) (call : Nat × Call V) : Field V :=
  match call.2.apply call.1 field with
  | .ok field' => field'
  | .error _ => field

/-- The field after calls, each with its epoch. -/
def run (calls : List (Nat × Call V)) : Field V := calls.foldl step none

/-! ### What calls leave -/

/-- The value of the epoch of the last call, and the value of the epochs after it. -/
structure Left (V : Type) where
  epoch : Nat
  now : Option V
  next : Option V

namespace Left
variable (left : Left V) (epoch : Nat)

/-- The value of an epoch in which there may have been calls. -/
def value : Option V := if left.epoch < epoch then left.next else left.now

/-- The value that the calls of the epoch have set for the next one. -/
def set : Option V := if left.epoch < epoch then none else left.next

/-- The first call of an epoch drops the value of the epoch of the last call. -/
def dropped : Option V := if left.epoch < epoch then left.now else none

def write (next : Option V) : Left V := ⟨epoch, left.value epoch, next⟩

/-- What a call leaves, unless it aborts. -/
def call : Call V → Option (Left V)
  | .add value => if (left.set epoch).isNone then some (left.write epoch (some value)) else none
  | .remove => some (left.write epoch none)
  | .borrow change => (left.set epoch).map fun value => left.write epoch (some (change value))
  | .entry initial change => some (left.write epoch (some (change ((left.set epoch).getD initial))))
  | .update initial change => some (left.write epoch (some
      ((left.set epoch).elim (change (left.dropped epoch) initial) (change none))))

def step (left : Left V) (call : Nat × Call V) : Left V := (left.call call.1 call.2).getD left

end Left

/-- What calls leave, each with its epoch. -/
def left (calls : List (Nat × Call V)) : Left V := calls.foldl Left.step ⟨0, none, none⟩

/-! ### The field holds what calls leave -/

variable {epoch : Nat} {calls : List (Nat × Call V)}

namespace Left

/-- A field is there as long as there is a value. -/
def field (l : Left V) : Field V :=
  if l.next.isSome ∨ l.now.isSome then some ⟨some ⟨l.epoch, l.next, l.now⟩⟩ else none

variable {l : Left V}

theorem field_cases (l : Left V) : l.field = none ∧ l.now = none ∧ l.next = none ∨
    l.field = some ⟨some ⟨l.epoch, l.next, l.now⟩⟩ ∧ (l.next.isSome ∨ l.now.isSome) := by
  unfold field
  split
  · rename_i h
    exact .inr ⟨rfl, h⟩
  · rename_i h
    rw [not_or, Option.not_isSome_iff_eq_none, Option.not_isSome_iff_eq_none] at h
    exact .inl ⟨rfl, h.2, h.1⟩

theorem field_write_some (l : Left V) (epoch : Nat) (new : V) :
    (l.write epoch (some new)).field = some ⟨some ⟨epoch, some new, l.value epoch⟩⟩ := if_pos (.inl rfl)

theorem readSettingForNextEpoch_field (l : Left V) : readSettingForNextEpoch l.field = .ok l.next := by
  rcases l.field_cases with ⟨hfield, -, hnext⟩ | ⟨hfield, -⟩
  · rw [hfield, hnext]
    rfl
  · rw [hfield]
    rfl

theorem write_write (l : Left V) (epoch : Nat) (a b : Option V) :
    (l.write epoch a).write epoch b = l.write epoch b := by simp [write, value]

/-- A call that does not abort writes. -/
theorem step_cases (l : Left V) (epoch : Nat) (call : Call V) :
    l.step (epoch, call) = l ∨ ∃ next, l.step (epoch, call) = l.write epoch next := by
  cases call with
  | add value =>
    cases hset : l.set epoch with
    | none => exact .inr ⟨some value, by simp [step, Left.call, hset]⟩
    | some new => exact .inl (by simp [step, Left.call, hset])
  | borrow change =>
    cases hset : l.set epoch with
    | none => exact .inl (by simp [step, Left.call, hset])
    | some value => exact .inr ⟨some (change value), by simp [step, Left.call, hset]⟩
  | _ => exact .inr ⟨_, rfl⟩

/-- The calls of an epoch leave its value alone. -/
theorem value_step (l : Left V) (epoch : Nat) (call : Call V) :
    (l.step (epoch, call)).value epoch = l.value epoch := by
  rcases l.step_cases epoch call with h | ⟨next, h⟩
  · rw [h]
  · rw [h]
    exact if_neg (lt_irrefl epoch)

theorem readSetting_field (l : Left V) (epoch : Nat) : readSetting epoch l.field = .ok (l.value epoch) := by
  rcases l.field_cases with ⟨hfield, hnow, hnext⟩ | ⟨hfield, hvalue⟩
  · rw [hfield, value, hnow, hnext, ite_self]
    rfl
  · rw [hfield]
    exact bind_require hvalue _

theorem borrowForNextEpochMut_of_not_set (h : l.set epoch = none) (change : V → V) :
    Sat (borrowForNextEpochMut epoch l.field change) (fun _ => False) (Call.borrow change).MayAbort := by
  rcases l.field_cases with ⟨hfield, -, -⟩ | ⟨hfield, -⟩
  · rw [hfield]
    trivial
  · rw [hfield]
    refine (Sat.require fun _ => trivial).bind fun _ hepoch => ?_
    refine (Sat.unwrap fun _ => trivial).bind fun _ hnext => ?_
    rw [set, if_neg hepoch.ge.not_gt] at h
    exact nomatch h.symm.trans hnext

section
variable (hle : l.epoch ≤ epoch)
include hle

theorem epoch_step (call : Call V) : (l.step (epoch, call)).epoch ≤ epoch := by
  rcases l.step_cases epoch call with h | ⟨next, h⟩
  · rw [h]
    exact hle
  · rw [h]
    exact le_rfl

theorem kept_field : SettingData.kept epoch ⟨l.epoch, l.next, l.now⟩ = .ok (l.value epoch) := by
  unfold value SettingData.kept
  rcases hle.eq_or_lt with rfl | hlt
  · rw [if_neg (lt_irrefl _), if_neg (lt_irrefl _)]
    exact bind_require rfl _
  · rw [if_pos hlt, if_pos hlt]
    rfl

/-- What was set in the epoch is there. -/
theorem field_of_set (h : l.set epoch = some new) :
    l.field = some ⟨some ⟨epoch, some new, l.value epoch⟩⟩ := by
  unfold set at h
  split at h
  · cases h
  · rename_i hlt
    obtain rfl : l.epoch = epoch := by omega
    rw [field, h, value, if_neg hlt]
    exact if_pos (.inl rfl)

theorem addForNextEpoch_of_not_set (h : l.set epoch = none) (new : V) : addForNextEpoch epoch l.field new =
    .ok (l.dropped epoch, (l.write epoch (some new)).field) := by
  rw [field_write_some]
  rcases l.field_cases with ⟨hfield, hnow, hnext⟩ | ⟨hfield, -⟩
  · rw [hfield, dropped, value, hnow, hnext, ite_self]
    rfl
  · have hset : l.epoch < epoch ∨ l.next.isNone := by
      unfold set at h
      split at h
      · exact .inl ‹_›
      · exact .inr (by rw [h]; rfl)
    rw [hfield]
    exact (bind_ok (l.kept_field hle) _).trans (bind_require hset _)

theorem addForNextEpoch_of_set (h : l.set epoch = some old) (new : V) :
    addForNextEpoch epoch l.field new = .error .alreadySetForEpoch := by
  rw [field_of_set hle h]
  refine (bind_ok (kept_field (l := ⟨epoch, _, _⟩) le_rfl) _).trans ?_
  simp [require]

theorem removeForNextEpoch_field :
    ∃ old, removeForNextEpoch epoch l.field = .ok (old, (l.write epoch none).field) := by
  rcases l.field_cases with ⟨hfield, hnow, hnext⟩ | ⟨hfield, -⟩
  · refine ⟨none, ?_⟩
    rw [hfield, write, value, hnow, hnext, ite_self]
    rfl
  · have hwrite : (l.write epoch none).field = if (l.value epoch).isNone then none
        else some ⟨some ⟨epoch, none, l.value epoch⟩⟩ := by
      unfold field write
      cases l.value epoch <;> rfl
    rw [hfield, hwrite]
    exact ⟨_, bind_ok (l.kept_field hle) _⟩

theorem borrowForNextEpochMut_of_set (h : l.set epoch = some new) (change : V → V) :
    borrowForNextEpochMut epoch l.field change = .ok (l.write epoch (some (change new))).field := by
  rw [field_of_set hle h, field_write_some]
  exact bind_require rfl _

theorem existsForNextEpoch_field : existsForNextEpoch epoch l.field = .ok (l.set epoch).isSome := by
  rcases l.field_cases with ⟨hfield, -, hnext⟩ | ⟨hfield, -⟩
  · rw [hfield, set, hnext, ite_self]
    rfl
  · rw [hfield, set]
    refine congrArg Except.ok ?_
    rcases hle.eq_or_lt with rfl | hlt
    · simp
    · simp [hlt, hlt.ne']

theorem update_field (initial : V) (change : Option V → V → V) :
    update epoch l.field initial change = .ok (l.write epoch (some
      ((l.set epoch).elim (change (l.dropped epoch) initial) (change none)))).field := by
  unfold update
  rw [bind_ok (l.existsForNextEpoch_field hle)]
  cases hset : l.set epoch with
  | some new => exact borrowForNextEpochMut_of_set hle hset _
  | none =>
    show (addForNextEpoch _ _ _ >>= _) = _
    rw [bind_ok (addForNextEpoch_of_not_set hle hset initial)]
    have hwrite : (l.write epoch (some initial)).set epoch = some initial := if_neg (lt_irrefl epoch)
    have hborrow := borrowForNextEpochMut_of_set (Nat.le_refl epoch) hwrite (change (l.dropped epoch))
    rw [write_write] at hborrow
    exact hborrow

/-- A call does to the field what it does to the values. -/
theorem apply_field (call : Call V) :
    Sat (call.apply epoch l.field) (fun field => field = (l.step (epoch, call)).field)
      (fun abort => l.step (epoch, call) = l ∧ call.MayAbort abort) := by
  cases call with
  | add new =>
    cases hset : l.set epoch with
    | none =>
      refine .of_eq (bind_ok (addForNextEpoch_of_not_set hle hset new) _) ?_
      simp [step, Left.call, hset]
    | some value =>
      show Sat (addForNextEpoch _ _ _ >>= _) _ _
      rw [addForNextEpoch_of_set hle hset new]
      exact ⟨by simp [step, Left.call, hset], trivial⟩
  | remove =>
    obtain ⟨old, hremove⟩ := l.removeForNextEpoch_field hle
    exact .of_eq (bind_ok hremove _) rfl
  | borrow change =>
    cases hset : l.set epoch with
    | none =>
      have hstep : l.step (epoch, .borrow change) = l := by simp [step, Left.call, hset]
      have hfail := borrowForNextEpochMut_of_not_set hset change
      exact .intro (fun field hok => (hfail.ok hok).elim) fun abort herror => ⟨hstep, hfail.error herror⟩
    | some value =>
      exact .of_eq (borrowForNextEpochMut_of_set hle hset change) (by simp [step, Left.call, hset])
  | entry initial change =>
    refine .of_eq (l.update_field hle initial fun _ => change) ?_
    cases hset : l.set epoch <;> simp [step, Left.call, hset]
  | update initial change => exact .of_eq (l.update_field hle initial change) rfl

theorem step_field (call : Call V) : Config.step l.field (epoch, call) = (l.step (epoch, call)).field := by
  have h := l.apply_field hle call
  unfold Config.step
  split
  · rename_i hok
    exact h.ok hok
  · rename_i hfail
    rw [(h.error hfail).1]

end
end Left

/-- After calls in order, in any epoch from the last one on. -/
theorem run_eq_field (hsorted : calls.Pairwise (·.1 ≤ ·.1)) (hle : ∀ call ∈ calls, call.1 ≤ epoch) :
    run calls = (left calls).field ∧ (left calls).epoch ≤ epoch := by
  induction calls using reverseRecOn generalizing epoch with
  | nil => exact ⟨rfl, Nat.zero_le _⟩
  | append_singleton calls call ih =>
    obtain ⟨hcalls, -, hlast⟩ := pairwise_append.mp hsorted
    obtain ⟨hrun, hepoch⟩ := ih hcalls fun c hc => hlast c hc call (mem_singleton.mpr rfl)
    have hcall := hle call (mem_concat.mpr (.inr rfl))
    unfold run left at *
    rw [foldl_concat, foldl_concat, hrun]
    exact ⟨Left.step_field hepoch call.2, (Left.epoch_step hepoch call.2).trans hcall⟩

/-- The calls of an epoch leave what is read in it alone. -/
theorem value_foldl (l : Left V) (hcalls : ∀ call ∈ calls, call.1 = epoch) :
    (calls.foldl Left.step l).value epoch = l.value epoch := by
  induction calls generalizing l with
  | nil => rfl
  | cons call calls ih =>
    obtain ⟨rfl, hcalls⟩ := forall_mem_cons.mp hcalls
    rw [foldl_cons, ih _ hcalls, l.value_step]

/-- What the calls of earlier epochs left is the value of an epoch. -/
theorem value_left (hsorted : calls.Pairwise (·.1 ≤ ·.1)) (hlt : ∀ call ∈ calls, call.1 < epoch) :
    (left calls).value epoch = (left calls).next := by
  cases epoch with
  | zero =>
    cases calls with
    | nil => rfl
    | cons call calls => exact absurd (hlt call mem_cons_self) (Nat.not_lt_zero _)
  | succ epoch =>
    have hle := (run_eq_field hsorted fun call hcall => Nat.le_of_lt_succ (hlt call hcall)).2
    exact if_pos (Nat.lt_succ_of_le hle)

/-- **A setting is constant in an epoch**: its value is the one that the calls of the epochs before
left. A moment of an epoch comes after the calls of the epochs before and some of its own. -/
theorem setting_constant (calls : List (Nat × Call V)) (hsorted : calls.Pairwise (·.1 ≤ ·.1)) :
    (∀ epoch before now later, calls = before ++ now ++ later → (∀ call ∈ before, call.1 < epoch) →
      (∀ call ∈ now, call.1 = epoch) → (∀ call ∈ later, epoch ≤ call.1) →
      readSettingForNextEpoch (run before) = .ok (left before).next ∧
        readSetting epoch (run (before ++ now)) = .ok (left before).next) ∧
    ∀ before call later abort, calls = before ++ call :: later →
      call.2.apply call.1 (run before) = .error abort → call.2.MayAbort abort := by
  constructor
  · rintro epoch before now later rfl hbefore hnow -
    have hsorted := (pairwise_append.mp hsorted).1
    have hfirst := (pairwise_append.mp hsorted).1
    have hle : ∀ call ∈ before ++ now, call.1 ≤ epoch :=
      forall_mem_append.mpr ⟨fun call hcall => (hbefore call hcall).le, fun call hcall => (hnow call hcall).le⟩
    obtain ⟨hrun, hepoch⟩ := run_eq_field hsorted hle
    constructor
    · rw [(run_eq_field hfirst fun call hcall => (hbefore call hcall).le).1]
      exact Left.readSettingForNextEpoch_field _
    · rw [hrun, Left.readSetting_field, ← value_left hfirst hbefore, left, foldl_append]
      exact congrArg Except.ok (value_foldl _ hnow)
  · rintro before call later abort rfl hfail
    obtain ⟨hcalls, -, hlast⟩ := pairwise_append.mp hsorted
    obtain ⟨hrun, hepoch⟩ := run_eq_field hcalls fun c hc => hlast c hc call mem_cons_self
    rw [hrun] at hfail
    exact ((Left.apply_field hepoch call.2).error hfail).2

/-- A value that is removed holds for the rest of the epoch, and none is left. -/
theorem setting_constant_removed :
    readSetting 3 (run [(1, .add 5), (3, .remove)]) = .ok (some 5) ∧
    readSetting 4 (run [(1, .add 5), (3, .remove), (4, .add 6)]) = .ok none :=
  have h := setting_constant [(1, .add 5), (3, .remove), (4, .add 6)] (by simp)
  ⟨(h.1 3 [(1, .add 5)] [(3, .remove)] [(4, .add 6)] rfl (by simp) (by simp) (by simp)).2,
    (h.1 4 [(1, .add 5), (3, .remove)] [(4, .add 6)] [] rfl (by simp) (by simp) (by simp)).2⟩

end Sui.Config
