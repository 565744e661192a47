import Sui.Checkpoints.CausalOrder
import Sui.Lib.DepthFirst

/-! The causal sort is a canonical topological order.

The stack of insert states runs a depth-first search over the dependencies inside the
list (`Sim`), and a transaction is output when the search leaves it. So every
transaction is output once, after what it depends on unless there is a cycle. The search
reads only the map of dependencies, which does not depend on the order of the input
(`causalSort_correct`). -/
namespace Sui.Checkpoints

open Sui.Lib BTreeMap Exec DepthFirst List TransactionDependencies InsertState
open Relation (ReflTransGen TransGen)

/-! ### What a transaction depends on -/

/-- The version that is read and not written. -/
def InputConsensusObject.readKey : InputConsensusObject → Option ObjectKey
  | .readOnly ref => some ref.key
  | .readConsensusStreamEnded id version => some (toLex (id, version))
  | _ => none

/-- The version that is overwritten. -/
def InputConsensusObject.overwriteKey : InputConsensusObject → Option ObjectKey
  | .mutate ref => some ref.key
  | .mutateConsensusStreamEnded id version => some (toLex (id, version))
  | _ => none

namespace TransactionEffects

def Reads (e : TransactionEffects) (k : ObjectKey) : Prop :=
  ∃ o ∈ e.inputConsensusObjects, o.readKey = some k

def Overwrites (e : TransactionEffects) (k : ObjectKey) : Prop :=
  ∃ o ∈ e.inputConsensusObjects, o.overwriteKey = some k

/-- A declared dependency, or a reader of a version that `e` overwrites. -/
def DependsOn (e u : TransactionEffects) : Prop :=
  u.transactionDigest ∈ e.dependencies ∨ ∃ k, e.Overwrites k ∧ u.Reads k

end TransactionEffects

namespace RWLockDependencyBuilder

def readers (b : RWLockDependencyBuilder) (k : ObjectKey) : List TransactionDigest :=
  (b.readVersion[k]?).getD []

def overwrites (b : RWLockDependencyBuilder) (d : TransactionDigest) : List ObjectKey :=
  (b.overwriteVersions[d]?).getD []

theorem mem_push [LinearOrder κ] (m : BTreeMap κ (List ν)) (k k' : κ) (v v' : ν) :
    v' ∈ ((push m k v)[k']?).getD [] ↔ v' ∈ (m[k']?).getD [] ∨ (v' = v ∧ k = k') := by
  unfold push
  rw [get_insert]
  by_cases hk : k = k'
  · subst hk
    simp
  · simp [hk]

theorem addInput_spec (digest : TransactionDigest) (b : RWLockDependencyBuilder) (o : InputConsensusObject) :
    (∀ k d, d ∈ (addInput digest b o).readers k ↔
      d ∈ b.readers k ∨ (d = digest ∧ o.readKey = some k)) ∧
    ∀ d k, k ∈ (addInput digest b o).overwrites d ↔
      k ∈ b.overwrites d ∨ (d = digest ∧ o.overwriteKey = some k) := by
  cases o <;> simp [addInput, readers, overwrites, mem_push, InputConsensusObject.readKey,
    InputConsensusObject.overwriteKey, and_comm, eq_comm]

theorem addInput_foldl (digest : TransactionDigest) (b : RWLockDependencyBuilder) (l : List InputConsensusObject) :
    (∀ k d, d ∈ (l.foldl (addInput digest) b).readers k ↔
      d ∈ b.readers k ∨ (d = digest ∧ ∃ o ∈ l, o.readKey = some k)) ∧
    ∀ d k, k ∈ (l.foldl (addInput digest) b).overwrites d ↔
      k ∈ b.overwrites d ∨ (d = digest ∧ ∃ o ∈ l, o.overwriteKey = some k) := by
  induction l generalizing b with
  | nil => simp
  | cons o rest ih =>
    obtain ⟨hreads, hwrites⟩ := ih (addInput digest b o)
    obtain ⟨hr, hw⟩ := addInput_spec digest b o
    simp only [foldl_cons, mem_cons]
    refine ⟨fun k d => ?_, fun d k => ?_⟩
    · rw [hreads, hr]
      simp only [exists_eq_or_imp]
      tauto
    · rw [hwrites, hw]
      simp only [exists_eq_or_imp]
      tauto

theorem fromEffects_foldl (b : RWLockDependencyBuilder) (effects : List TransactionEffects) :
    let b' := effects.foldl
      (fun b e => e.inputConsensusObjects.foldl (addInput e.transactionDigest) b) b
    (∀ k d, d ∈ b'.readers k ↔
      d ∈ b.readers k ∨ ∃ e ∈ effects, e.transactionDigest = d ∧ e.Reads k) ∧
    ∀ d k, k ∈ b'.overwrites d ↔ k ∈ b.overwrites d ∨ ∃ e ∈ effects, e.transactionDigest = d ∧ e.Overwrites k := by
  induction effects generalizing b with
  | nil => simp
  | cons e rest ih =>
    obtain ⟨hreads, hwrites⟩ := ih (e.inputConsensusObjects.foldl (addInput e.transactionDigest) b)
    obtain ⟨hr, hw⟩ := addInput_foldl e.transactionDigest b e.inputConsensusObjects
    simp only [foldl_cons, mem_cons, exists_eq_or_imp]
    refine ⟨fun k d => ?_, fun d k => ?_⟩
    · rw [hreads, hr, or_assoc, @eq_comm _ d]
      rfl
    · rw [hwrites, hw, or_assoc, @eq_comm _ d]
      rfl

variable {effects : List TransactionEffects} {k : ObjectKey} {d : TransactionDigest}

theorem mem_readers :
    d ∈ (fromEffects effects).readers k ↔ ∃ e ∈ effects, e.transactionDigest = d ∧ e.Reads k := by
  unfold fromEffects
  rw [(fromEffects_foldl {} effects).1]
  simp [readers]

theorem mem_overwrites
    : k ∈ (fromEffects effects).overwrites d ↔ ∃ e ∈ effects, e.transactionDigest = d ∧ e.Overwrites k := by
  unfold fromEffects
  rw [(fromEffects_foldl {} effects).2]
  simp [overwrites]

theorem mem_addDependenciesFor {b : RWLockDependencyBuilder} {digest d : TransactionDigest}
    {v : BTreeSet TransactionDigest} :
    d ∈ b.addDependenciesFor digest v ↔ d ∈ v ∨ ∃ k ∈ b.overwrites digest, d ∈ b.readers k := by
  unfold addDependenciesFor overwrites
  cases b.overwriteVersions[digest]? with
  | none => simp
  | some l =>
    simp only [Option.getD_some]
    induction l generalizing v with
    | nil => simp
    | cons k rest ih =>
      rw [foldl_cons, ih]
      simp only [mem_cons, exists_eq_or_imp, ← or_assoc]
      refine or_congr_left ?_
      unfold readers
      cases b.readVersion[k]? with
      | none => simp
      | some reads => exact BTreeSet.mem_foldl_insert v reads

end RWLockDependencyBuilder

theorem TransactionDependencies.mem_dependencies {effects : List TransactionEffects}
    {e : TransactionEffects} {d : TransactionDigest} :
    d ∈ (fromEffects (.fromEffects effects) e).dependencies ↔ d ∈ e.dependencies ∨
      ∃ k, (∃ e' ∈ effects, e'.transactionDigest = e.transactionDigest ∧ e'.Overwrites k) ∧
        ∃ u ∈ effects, u.transactionDigest = d ∧ u.Reads k := by
  unfold fromEffects
  simp only [RWLockDependencyBuilder.mem_addDependenciesFor, BTreeSet.mem_foldl_insert,
    RWLockDependencyBuilder.mem_overwrites, RWLockDependencyBuilder.mem_readers]
  simp

namespace CausalOrder

/-! ### The map of dependencies -/

section FromVec
variable {effects : List TransactionEffects}

section
variable (hdistinct : (effects.map (·.transactionDigest)).Nodup)
include hdistinct

theorem eq_of_digest_eq (he : e ∈ effects) (he' : e' ∈ effects)
    (h : e.transactionDigest = e'.transactionDigest) : e = e' :=
  inj_on_of_nodup_map hdistinct he he' h

theorem fromVec_get :
    (fromVec effects).notSeen[d]? = some t ↔ ∃ e ∈ effects, e.transactionDigest = d ∧
      TransactionDependencies.fromEffects (.fromEffects effects) e = t := by
  have hget : ∀ {d : TransactionDigest} {t : TransactionDependencies},
      (fromVec effects).notSeen[d]? = some t → ∃ e ∈ effects, e.transactionDigest = d ∧
        fromEffects (.fromEffects effects) e = t := by
    intro d t h
    rcases get_foldl_insert _ _ _ _ h with hempty | ⟨t', ht', hd, rfl⟩
    · simp at hempty
    · obtain ⟨e, he, rfl⟩ := mem_map.mp ht'
      exact ⟨e, he, hd, rfl⟩
  refine ⟨hget, fun ⟨e, he, hd, ht⟩ => ?_⟩
  have hmem : d ∈ (fromVec effects).notSeen := by
    refine (mem_foldl_insert _ digest _ _ d).mpr (.inr ?_)
    exact mem_map.mpr ⟨_, mem_map_of_mem he, hd⟩
  obtain ⟨t', ht'⟩ := mem_iff_get.mp hmem
  obtain ⟨e', he', hd', rfl⟩ := hget ht'
  rw [ht', ← ht, eq_of_digest_eq hdistinct he' he (hd'.trans hd.symm)]

/-- The map is the same for every order of the input. -/
theorem fromVec_perm {effects' : List TransactionEffects} (hperm : effects'.Perm effects) :
    fromVec effects' = fromVec effects := by
  have hdistinct' : (effects'.map (·.transactionDigest)).Nodup := (hperm.map _).nodup_iff.mpr hdistinct
  have hsame : ∀ e, fromEffects (.fromEffects effects') e = fromEffects (.fromEffects effects) e := by
    intro e
    have hdeps : (fromEffects (.fromEffects effects') e).dependencies =
        (fromEffects (.fromEffects effects) e).dependencies := by
      refine Std.ExtTreeSet.ext_mem fun d => ?_
      rw [mem_dependencies, mem_dependencies]
      simp only [hperm.mem_iff]
    unfold fromEffects at hdeps ⊢
    simp only at hdeps
    rw [hdeps]
  have hmap : (fromVec effects').notSeen = (fromVec effects).notSeen := by
    refine Std.ExtTreeMap.ext_getElem? fun d => Option.ext fun t => ?_
    rw [fromVec_get hdistinct', fromVec_get hdistinct]
    simp only [hperm.mem_iff, hsame]
  show (⟨(fromVec effects').notSeen, []⟩ : CausalOrder) = ⟨(fromVec effects).notSeen, []⟩
  rw [hmap]

end

end FromVec

/-! ### The sort is a depth-first search -/

section Search
variable {m : BTreeMap TransactionDigest TransactionDependencies} {d : TransactionDigest}
  {t : TransactionDependencies} {notSeen : BTreeMap TransactionDigest TransactionDependencies}

/-- Dependencies inside the list. -/
def Edge (m : BTreeMap TransactionDigest TransactionDependencies) (d d' : TransactionDigest) :
    Prop :=
  ∃ t, m[d]? = some t ∧ d' ∈ t.dependencies ∧ d' ∈ m

/-- Transactions are kept under their digests. -/
def Keyed (m : BTreeMap TransactionDigest TransactionDependencies) : Prop :=
  ∀ (d : TransactionDigest) (t : TransactionDependencies), m[d]? = some t →
    t.effects.transactionDigest = d

/-- An insert state of the transaction `d`: the dependencies that were popped are seen. -/
def StateOk (m : BTreeMap TransactionDigest TransactionDependencies) (order : CausalOrder)
    (state : InsertState) (d : TransactionDigest) : Prop :=
  ∃ t, state.transaction = some t ∧ m[d]? = some t ∧
    (∀ w ∈ state.dependencies, w ∈ t.dependencies) ∧
    ∀ w ∈ t.dependencies, w ∈ state.dependencies ∨ w ∉ order.notSeen

/-- The stack and the output as a search. -/
structure Sim (m : BTreeMap TransactionDigest TransactionDependencies)
    (states : List InsertState) (order : CausalOrder) (active : List TransactionDigest) : Prop where
  states : List.Forall₂ (StateOk m order) states active
  run : Run (Edge m) (· ∈ m) ⟨[], []⟩ ⟨active, order.output.map (·.transactionDigest)⟩
  unseen : ∀ d t, order.notSeen[d]? = some t ↔ m[d]? = some t ∧
    ¬ State.Visited ⟨active, order.output.map (·.transactionDigest)⟩ d
  output : ∀ e ∈ order.output, ∃ t, m[e.transactionDigest]? = some t ∧ t.effects = e

theorem StateOk.erase (h : StateOk m order state d) (dep : TransactionDigest) :
    StateOk m { order with notSeen := order.notSeen.erase dep } state d := by
  obtain ⟨t, ht, hd, hsub, hseen⟩ := h
  refine ⟨t, ht, hd, hsub, fun w hw => (hseen w hw).imp_right fun hnot hmem => hnot ?_⟩
  exact (mem_erase_iff.mp hmem).2

/-- The state of a transaction that is entered. -/
theorem stateOk_new (hd : m[d]? = some t) : StateOk m order (new t) d := by
  have hmem : ∀ w, w ∈ (new t).dependencies ↔ w ∈ t.dependencies := fun w => by
    rw [new, mem_reverse, Std.ExtTreeSet.mem_toList]
  exact ⟨t, rfl, hd, fun w hw => (hmem w).mp hw, fun w hw => .inl ((hmem w).mpr hw)⟩

/-- A transaction that is removed from the map is visited. -/
theorem Sim.unseen_erase {states : List InsertState} {order : CausalOrder}
    {active : List TransactionDigest} (h : Sim m states order active) (dep : TransactionDigest)
    (d : TransactionDigest) (t : TransactionDependencies) :
    (order.notSeen.erase dep)[d]? = some t ↔ m[d]? = some t ∧
      ¬ State.Visited ⟨dep :: active, order.output.map (·.transactionDigest)⟩ d := by
  rw [get_erase]
  by_cases hd : dep = d
  · subst hd
    simp [State.Visited]
  · rw [if_neg hd, h.unseen]
    simp only [State.Visited, mem_cons, Ne.symm hd, false_or]

theorem popUnseen_eq_some (h : popUnseen notSeen l = some (dep, t, rest)) :
    notSeen[dep]? = some t ∧ ∃ seen, l = seen ++ dep :: rest ∧ ∀ w ∈ seen, w ∉ notSeen := by
  induction l with
  | nil => cases h
  | cons d l ih =>
    unfold popUnseen at h
    cases hd : notSeen[d]? with
    | some t' =>
      rw [hd] at h
      cases h
      exact ⟨hd, [], rfl, nofun⟩
    | none =>
      rw [hd] at h
      obtain ⟨ht, seen, rfl, hseen⟩ := ih h
      exact ⟨ht, d :: seen, rfl, forall_mem_cons.mpr ⟨not_mem_iff_get.mpr hd, hseen⟩⟩

theorem popUnseen_eq_none (h : popUnseen notSeen l = none) : ∀ w ∈ l, w ∉ notSeen := by
  induction l with
  | nil => exact nofun
  | cons d l ih =>
    unfold popUnseen at h
    cases hd : notSeen[d]? with
    | some t' =>
      rw [hd] at h
      cases h
    | none =>
      rw [hd] at h
      exact forall_mem_cons.mpr ⟨not_mem_iff_get.mpr hd, ih h⟩

variable {state : InsertState} {states : List InsertState} {order : CausalOrder}
  {active : List TransactionDigest}

/-- One round of the loop: a dependency is entered, or the top of the stack is left. -/
theorem process_spec (hkey : Keyed m) (h : Sim m (state :: states) order active) :
    (∃ dep new state', dep ∈ order.notSeen ∧ state.process order = .ok (some new, state',
        { order with notSeen := order.notSeen.erase dep }) ∧
      Sim m (new :: state' :: states) { order with notSeen := order.notSeen.erase dep }
        (dep :: active)) ∨
    ∃ e state' rest, state.process order =
        .ok (none, state', { order with output := order.output ++ [e] }) ∧
      Sim m states { order with output := order.output ++ [e] } rest := by
  obtain ⟨d, rest, hstate, hstates, rfl⟩ := forall₂_cons_left_iff.mp h.states
  obtain ⟨t, htrans, hd, hsub, hseen⟩ := hstate
  unfold process
  cases hpop : popUnseen order.notSeen state.dependencies with
  | some p =>
    obtain ⟨dep, t', left⟩ := p
    obtain ⟨hdep, seen, hdeps, hskipped⟩ := popUnseen_eq_some hpop
    obtain ⟨hm, hnew⟩ := (h.unseen dep t').mp hdep
    have hin : dep ∈ state.dependencies := hdeps ▸ by simp
    have hedge : Edge m d dep := ⟨t, hd, hsub dep hin, mem_of_get hm⟩
    refine .inl ⟨dep, new t', { state with dependencies := left }, mem_of_get hdep, rfl, ?_⟩
    refine ⟨.cons (stateOk_new hm) (.cons ?_ (hstates.imp fun _ _ hs => hs.erase dep)),
      h.run.tail (.enter hedge hnew), h.unseen_erase dep, h.output⟩
    refine ⟨t, htrans, hd, fun w hw => hsub w (hdeps ▸ by simp [hw]), fun w hw => ?_⟩
    have hnot : w ∉ order.notSeen → w ∉ order.notSeen.erase dep := fun hn hmem =>
      hn (mem_erase_iff.mp hmem).2
    rcases hseen w hw with hw | hw
    · rw [hdeps] at hw
      rcases mem_append.mp hw with hw | hw
      · exact .inr (hnot (hskipped w hw))
      · rcases mem_cons.mp hw with rfl | hw
        · exact .inr fun hmem => (mem_erase_iff.mp hmem).1 rfl
        · exact .inl hw
    · exact .inr (hnot hw)
  | none =>
    have hgone := popUnseen_eq_none hpop
    have hdigest : t.effects.transactionDigest = d := hkey d t hd
    -- Dependencies in the list that are not waiting any more are visited.
    have hall : ∀ w, Edge m d w → State.Visited ⟨d :: rest, order.output.map (·.transactionDigest)⟩ w := by
      intro w ⟨t', ht', hw, hwm⟩
      cases hd.symm.trans ht'
      obtain ⟨tw, htw⟩ := mem_iff_get.mp hwm
      have hnot : w ∉ order.notSeen := (hseen w hw).elim (hgone w) id
      by_contra hvis
      exact hnot (mem_of_get ((h.unseen w tw).mpr ⟨htw, hvis⟩))
    refine .inr ⟨t.effects, ⟨[], none⟩, rest, ?_, hstates, ?_, fun w tw => ?_,
      forall_mem_concat.mpr ⟨h.output, t, hdigest ▸ hd, rfl⟩⟩
    · simp only [htrans]
      rfl
    · have hrun := h.run.tail (.leave hall)
      rw [← hdigest] at hrun
      simpa using hrun
    · rw [h.unseen]
      simp only [State.Visited, map_append, mem_append, map_cons, map_nil,
        mem_cons, not_mem_nil, or_false, hdigest]
      tauto

/-- The loop empties the stack. -/
theorem insertLoop_spec (hkey : Keyed m) (hfuel : 2 * order.notSeen.size + states.length < fuel)
    (h : Sim m states order active) :
    ∃ order', insertLoop fuel states order = .ok order' ∧ Sim m [] order' [] ∧
      order'.notSeen.size ≤ order.notSeen.size := by
  induction fuel generalizing states order active with
  | zero => omega
  | succ fuel ih =>
    unfold insertLoop
    cases states with
    | nil =>
      cases forall₂_nil_left_iff.mp h.states
      exact ⟨order, rfl, h, le_rfl⟩
    | cons state states =>
      rw [length_cons] at hfuel
      rcases process_spec hkey h with ⟨dep, new, state', hdep, hrun, hsim⟩ | ⟨e, state', rest, hrun, hsim⟩
      · have hsize := size_erase_of_mem _ hdep
        obtain ⟨order', hloop, hdone, hle⟩ := ih (by simp only [length_cons]; omega) hsim
        refine ⟨order', ?_, hdone, by simp only at hle; omega⟩
        simp only [bind_ok hrun]
        exact hloop
      · obtain ⟨order', hloop, hdone, hle⟩ := ih (by simp only; omega) hsim
        refine ⟨order', ?_, hdone, hle⟩
        simp only [bind_ok hrun]
        exact hloop

theorem insert_spec (hkey : Keyed m) (h : Sim m [new item] order [d]) :
    ∃ order', order.insert item = .ok order' ∧ Sim m [] order' [] ∧ order'.notSeen.size ≤ order.notSeen.size :=
  insertLoop_spec hkey (Nat.lt_succ_self _) h

theorem popFirst_eq_some
    (h : order.popFirst = some (item, order')) : ∃ key, order.notSeen[key]? = some item ∧
      order' = { order with notSeen := order.notSeen.erase key } := by
  unfold popFirst at h
  cases hkey : firstKey? order.notSeen with
  | none =>
    rw [hkey] at h
    cases h
  | some key =>
    rw [hkey] at h
    obtain ⟨item', hitem, heq⟩ := Option.map_eq_some_iff.mp h
    cases heq
    exact ⟨key, hitem, rfl⟩

theorem popFirst_eq_none (h : order.popFirst = none) : ∀ d, d ∉ order.notSeen := by
  unfold popFirst at h
  cases hkey : firstKey? order.notSeen with
  | none =>
    intro d hd
    have hnil : order.notSeen.keys = [] := List.head?_eq_none_iff.mp hkey
    rw [← Std.ExtTreeMap.mem_keys, hnil] at hd
    cases hd
  | some key =>
    rw [hkey] at h
    obtain ⟨item, hitem⟩ := mem_iff_get.mp (firstKey_eq_some _ hkey).1
    simp [hitem] at h

theorem sortLoop_spec (hkey : Keyed m) (hfuel : order.notSeen.size < fuel) (h : Sim m [] order []) :
    ∃ order', sortLoop fuel order = .ok order' ∧ Sim m [] order' [] ∧ ∀ d, d ∉ order'.notSeen := by
  induction fuel generalizing order with
  | zero => omega
  | succ fuel ih =>
    unfold sortLoop
    cases hpop : order.popFirst with
    | none => exact ⟨order, rfl, h, popFirst_eq_none hpop⟩
    | some p =>
      obtain ⟨item, order₁⟩ := p
      obtain ⟨key, hitem, rfl⟩ := popFirst_eq_some hpop
      obtain ⟨hm, hnew⟩ := (h.unseen key item).mp hitem
      have hmem : key ∈ order.notSeen := mem_of_get hitem
      have hsize := size_erase_of_mem _ hmem
      have hstart : Sim m [new item] { order with notSeen := order.notSeen.erase key } [key] := by
        refine ⟨.cons (stateOk_new hm) .nil, h.run.tail (.start ?_ ?_), h.unseen_erase key, h.output⟩
        · exact mem_of_get hm
        · exact fun hdone => hnew (.inr hdone)
      obtain ⟨order₂, hinsert, hsim, hle⟩ := insert_spec hkey hstart
      simp only at hle
      obtain ⟨order', hloop, hdone, hempty⟩ := ih (by omega) hsim
      refine ⟨order', ?_, hdone, hempty⟩
      simp only [bind_ok hinsert]
      exact hloop

end Search

/-! ### The result -/

section
variable {effects : List TransactionEffects} (hdistinct : (effects.map (·.transactionDigest)).Nodup)
include hdistinct

theorem causalSort_search :
    ∃ order, causalSort effects = .ok order.output ∧ Sim (fromVec effects).notSeen [] order [] ∧
      ∀ d, d ∉ order.notSeen := by
  have hkey : Keyed (fromVec effects).notSeen := by
    intro d t ht
    obtain ⟨e, -, hd, rfl⟩ := (fromVec_get hdistinct).mp ht
    exact hd
  have hstart : Sim (fromVec effects).notSeen [] (fromVec effects) [] := by
    refine ⟨.nil, .refl, fun d t => ?_, nofun⟩
    simp [State.Visited, fromVec]
  have hsize : (fromVec effects).notSeen.size < effects.length + 1 := by
    have hfold : ∀ (l : List TransactionDependencies) (n : BTreeMap _ TransactionDependencies),
        (l.foldl (fun m e => m.insert e.digest e) n).size ≤ n.size + l.length := by
      intro l
      induction l with
      | nil => simp
      | cons t rest ih =>
        intro n
        have hinsert := n.size_insert_le (k := t.digest) (v := t)
        have hrest := ih (n.insert t.digest t)
        rw [foldl_cons, length_cons]
        omega
    have h := hfold (effects.map (fromEffects (.fromEffects effects))) ∅
    rw [length_map, Std.ExtTreeMap.size_empty, Nat.zero_add] at h
    exact Nat.lt_succ_of_le h
  obtain ⟨order, hloop, hsim, hempty⟩ := sortLoop_spec hkey hsize hstart
  refine ⟨order, ?_, hsim, hempty⟩
  unfold causalSort
  rw [bind_ok hloop]
  rfl

theorem output_perm
    (hsim : Sim (fromVec effects).notSeen [] order []) (hempty : ∀ d, d ∉ order.notSeen) :
    order.output.Perm effects := by
  have hok := hsim.run.ok ok_nil
  have hnodup : order.output.Nodup := by
    have h := hok.nodup
    rw [nil_append] at h
    exact h.of_map _
  refine (perm_ext_iff_of_nodup hnodup (hdistinct.of_map _)).mpr fun e => ?_
  constructor
  · intro he
    obtain ⟨t, ht, heff⟩ := hsim.output e he
    obtain ⟨e', he', -, rfl⟩ := (fromVec_get hdistinct).mp ht
    exact heff ▸ he'
  · intro he
    have hget := (fromVec_get hdistinct).mpr ⟨e, he, rfl, rfl⟩
    have hvis : State.Visited ⟨[], order.output.map (·.transactionDigest)⟩ e.transactionDigest := by
      by_contra hnot
      exact hempty _ (mem_of_get ((hsim.unseen _ _).mpr ⟨hget, hnot⟩))
    obtain ⟨u, hu, hdigest⟩ := mem_map.mp (hvis.resolve_left not_mem_nil)
    obtain ⟨t, ht, heff⟩ := hsim.output u hu
    obtain ⟨u', hu', hd', rfl⟩ := (fromVec_get hdistinct).mp ht
    have hue : u = e := eq_of_digest_eq hdistinct (heff ▸ hu') he hdigest
    exact hue ▸ hu

/-- Edges of the search are dependencies between transactions of the list. -/
theorem edge_iff {d d' : TransactionDigest} :
    Edge (fromVec effects).notSeen d d' ↔ ∃ e ∈ effects, ∃ u ∈ effects,
      e.transactionDigest = d ∧ u.transactionDigest = d' ∧ e.DependsOn u := by
  unfold Edge
  simp only [BTreeMap.mem_iff_get, fromVec_get hdistinct]
  constructor
  · intro ⟨t, ⟨e, he, hd, ht⟩, hdep, t', u, hu, hd', _⟩
    refine ⟨e, he, u, hu, hd, hd', ?_⟩
    rw [← ht, mem_dependencies] at hdep
    rcases hdep with hdep | ⟨k, ⟨e', he', hee', hover⟩, u', hu', huu', hread⟩
    · exact .inl (hd' ▸ hdep)
    · rw [eq_of_digest_eq hdistinct he' he hee'] at hover
      rw [eq_of_digest_eq hdistinct hu' hu (huu'.trans hd'.symm)] at hread
      exact .inr ⟨k, hover, hread⟩
  · intro ⟨e, he, u, hu, hd, hd', hdep⟩
    refine ⟨_, ⟨e, he, hd, rfl⟩, mem_dependencies.mpr ?_, _, u, hu, hd', rfl⟩
    rcases hdep with hdep | ⟨k, hover, hread⟩
    · exact .inl (hd' ▸ hdep)
    · exact .inr ⟨k, ⟨e, he, rfl, hover⟩, u, hu, hd', hread⟩

end

/-- **The causal order is correct and canonical**: the sort returns a permutation of its
input, the same for every order of the input; and without cyclic dependencies inside the
list, every transaction comes after those that it depends on. -/
theorem causalSort_correct {effects : List TransactionEffects}
    (hdistinct : (effects.map (·.transactionDigest)).Nodup) :
    ∃ output, causalSort effects = .ok output ∧ output.Perm effects ∧
      (∀ effects' : List TransactionEffects, effects'.Perm effects →
        causalSort effects' = .ok output) ∧
      ((∀ e, ¬ TransGen (fun e u => e ∈ effects ∧ u ∈ effects ∧ e.DependsOn u) e e) →
        ∀ (i : Nat) (e : TransactionEffects), output[i]? = some e →
          ∀ u ∈ effects, e.DependsOn u → u ∈ output.take i) := by
  obtain ⟨order, hrun, hsim, hempty⟩ := causalSort_search hdistinct
  have hperm := output_perm hdistinct hsim hempty
  refine ⟨order.output, hrun, hperm, fun effects' hperm' => ?_, fun hacyclic i e he u hu hdep => ?_⟩
  · rw [← hrun]
    unfold causalSort
    rw [fromVec_perm hdistinct hperm', hperm'.length_eq]
  · have hok := hsim.run.ok ok_nil
    -- A cycle of the search is a cycle of dependencies.
    have hcycle : ∀ d d', TransGen (Edge (fromVec effects).notSeen) d d' →
        ∀ e ∈ effects, e.transactionDigest = d → ∃ u ∈ effects, u.transactionDigest = d' ∧
          TransGen (fun e u => e ∈ effects ∧ u ∈ effects ∧ e.DependsOn u) e u := by
      intro d d' hpath e he hd
      induction hpath with
      | single hedge =>
        obtain ⟨e', he', u, hu, hd', hu', hdep⟩ := (edge_iff hdistinct).mp hedge
        cases eq_of_digest_eq hdistinct he' he (hd'.trans hd.symm)
        exact ⟨u, hu, hu', .single ⟨he, hu, hdep⟩⟩
      | tail _ hedge ih =>
        obtain ⟨v, hv, hdv, hpath⟩ := ih
        obtain ⟨v', hv', u, hu, hd', hu', hdep⟩ := (edge_iff hdistinct).mp hedge
        cases eq_of_digest_eq hdistinct hv' hv (hd'.trans hdv.symm)
        exact ⟨u, hu, hu', hpath.tail ⟨hv, hu, hdep⟩⟩
    have hacyclic' : ∀ d, ¬ TransGen (Edge (fromVec effects).notSeen) d d := by
      intro d hpath
      obtain ⟨e, he, hd⟩ : ∃ e ∈ effects, e.transactionDigest = d := by
        obtain ⟨d', hedge, -⟩ := TransGen.head'_iff.mp hpath
        obtain ⟨e, he, -, -, hd, -⟩ := (edge_iff hdistinct).mp hedge
        exact ⟨e, he, hd⟩
      obtain ⟨u, hu, hdu, hcyc⟩ := hcycle d d hpath e he hd
      cases eq_of_digest_eq hdistinct hu he (hdu.trans hd.symm)
      exact hacyclic _ hcyc
    have hin : e ∈ effects := hperm.mem_iff.mp (mem_of_getElem? he)
    have hdone : (order.output.map (·.transactionDigest))[i]? = some e.transactionDigest := by
      rw [List.getElem?_map, he]
      rfl
    have hbefore := hok.before hacyclic' hdone ((edge_iff hdistinct).mpr ⟨e, hin, u, hu, rfl, rfl, hdep⟩)
    rw [← map_take] at hbefore
    obtain ⟨u', hu', hdigest⟩ := mem_map.mp hbefore
    have hu'in : u' ∈ effects := hperm.mem_iff.mp (mem_of_mem_take hu')
    exact eq_of_digest_eq hdistinct hu'in hu hdigest ▸ hu'

/-- Transactions 5 and 3 read a version of object 1 that transaction 2 overwrites. -/
def readersAndWriter : List TransactionEffects :=
  [.v2 { transactionDigest := 5, unchangedConsensusObjects := [(1, .readOnlyRoot 1 0)] },
    .v2 { transactionDigest := 2, changedObjects := [(1, .exist 1 0 (.shared 0))] },
    .v2 { transactionDigest := 3, unchangedConsensusObjects := [(1, .readOnlyRoot 1 0)] }]

theorem causalSort_correct_readers : (readersAndWriter.map (·.transactionDigest)).Nodup ∧
    ∃ output, causalSort readersAndWriter = .ok output ∧ output.Perm readersAndWriter ∧
      output.map (·.transactionDigest) = [5, 3, 2] := by
  have hdistinct : (readersAndWriter.map (·.transactionDigest)).Nodup := by decide
  obtain ⟨output, hrun, hperm, -⟩ := causalSort_correct hdistinct
  refine ⟨hdistinct, output, hrun, hperm, ?_⟩
  have hout : (causalSort readersAndWriter).map (·.map (·.transactionDigest)) = .ok [5, 3, 2] := rfl
  rw [hrun] at hout
  exact Except.ok.inj hout

end CausalOrder

end Sui.Checkpoints
