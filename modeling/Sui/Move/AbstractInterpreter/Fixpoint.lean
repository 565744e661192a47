import Sui.Move.AbstractInterpreter.Basic
import Sui.Move.ControlFlowGraph.Search

/-! The driver returns an inductive invariant.

When the walk stands at a position of the order, the blocks before it are processed
and propagated (`LoopOk`): propagation changes only later blocks, or goes back to the one
it changes. At the end of the order this holds of every reachable block
(`analyzeFunction_correct`). Each time the walk goes back, a precondition has grown, so
without infinite ascending chains it ends.

Two laws of `join` are needed beyond that it returns an upper bound: an answer that
nothing changed leaves the precondition as it is, and an answer that it changed is given
only if it was no upper bound (`analyzeFunction_unlawful`). -/
namespace Sui.Move

open Sui.Lib BTreeMap Exec List
open Relation (ReflTransGen)
open VMControlFlowGraph

/-- The computation returns a result with `P`, or an error of the interpreter. -/
abbrev Runs {ε α : Type} (x : Except (Failure ε) α) (P : α → Prop) : Prop :=
  Exec.Sat x P fun f => ∃ e, f = .error e

namespace Runs
variable {ε α : Type} {x : Except (Failure ε) α} {P : α → Prop}

theorem interp (x : Except ε α) : Runs (Failure.interp x) fun a => x = .ok a := by
  cases x with
  | ok a => rfl
  | error e => exact ⟨e, rfl⟩

theorem graph {x : Exec α} (h : x = .ok a) : Runs (Failure.graph x : Except (Failure ε) α) (· = a) := by
  rw [h]
  rfl

theorem self (h : Runs x P) : Runs x fun a => x = .ok a :=
  .intro (fun _ ha => ha) fun _ he => h.error he

end Runs

section Driver
variable {I State σ ε : Type} [Preorder State] (interpreter : AbstractInterpreter I State σ ε)
  {inv : BlockInvariant State} {K : Nat → Prop} {post : State}

/-- The join is an upper bound, and leaves a precondition that is one. -/
structure JoinOk : Prop where
  upper : ∀ self pre post result pre' self',
    interpreter.join self pre post = .ok (result, pre', self') → pre ≤ pre' ∧ post ≤ pre'
  unchanged : ∀ self pre post pre' self',
    interpreter.join self pre post = .ok (.unchanged, pre', self') → post ≤ pre ∧ pre' = pre

/-- The join answers that it changed a precondition only if that was no upper bound. -/
def JoinStrict : Prop :=
  ∀ self pre post pre' self',
    interpreter.join self pre post = .ok (.changed, pre', self') → ¬ post ≤ pre

/-- Preconditions have grown. -/
def Grown (invMap invMap' : InvariantMap State) : Prop :=
  ∀ (c : Nat) (inv : BlockInvariant State), invMap[c]? = some inv →
    ∃ inv', invMap'[c]? = some inv' ∧ inv.pre ≤ inv'.pre

theorem Grown.refl (invMap : InvariantMap State) : Grown invMap invMap :=
  fun _ inv h => ⟨inv, h, le_rfl⟩

theorem Grown.trans {m m' m'' : InvariantMap State} (h : Grown m m') (h' : Grown m' m'') : Grown m m'' := by
  intro c inv hc
  obtain ⟨inv', hc', hle⟩ := h c inv hc
  obtain ⟨inv'', hc'', hle'⟩ := h' c inv' hc'
  exact ⟨inv'', hc'', hle.trans hle'⟩

theorem Grown.insert (h : ∀ old : BlockInvariant State, m[c]? = some old → old.pre ≤ inv.pre) :
    Grown m (m.insert c inv) := by
  intro d old hd
  rw [get_insert]
  by_cases hcd : c = d
  · subst hcd
    exact ⟨inv, if_pos rfl, h old hd⟩
  · exact ⟨old, by rw [if_neg hcd, hd], le_rfl⟩

/-! ### Propagation -/

/-- What propagation does, when back edges lead to the blocks in `K`. -/
structure Propagated (K : Nat → Prop) (successors : List Nat) (post : State)
    (invMap : InvariantMap State) (jump : Option Nat) (invMap' : InvariantMap State) : Prop where
  grown : Grown invMap invMap'
  keys : ∀ c ∈ invMap', c ∈ invMap ∨ c ∈ successors
  outcome :
    (jump = none ∧ (∀ c, K c → invMap'[c]? = invMap[c]?) ∧
      ∀ s ∈ successors, ∃ inv : BlockInvariant State, invMap'[s]? = some inv ∧ post ≤ inv.pre) ∨
    ∃ s ∈ successors, jump = some s ∧ K s ∧ (∀ c, K c → c ≠ s → invMap'[c]? = invMap[c]?) ∧
      (JoinStrict interpreter → ∃ inv inv' : BlockInvariant State, invMap[s]? = some inv ∧
        invMap'[s]? = some inv' ∧ inv.pre < inv'.pre)

variable {interpreter} {cfg : VMControlFlowGraph} {initial : State}
  {invMap invMap' : InvariantMap State}

/-- A successor outside of `K` is handled before the others. -/
theorem Propagated.cons {rest : List Nat} {jump : Option Nat}
    (hgrown : ∀ old : BlockInvariant State, invMap[succ]? = some old → old.pre ≤ inv.pre)
    (hkept : K succ → invMap[succ]? = some inv) (hpost : post ≤ inv.pre)
    (h : Propagated interpreter K rest post (invMap.insert succ inv) jump invMap') :
    Propagated interpreter K (succ :: rest) post invMap jump invMap' := by
  have hsame : ∀ c, K c → (invMap.insert succ inv)[c]? = invMap[c]? := by
    intro c hc
    rw [get_insert]
    by_cases heq : succ = c
    · subst heq
      rw [if_pos rfl, hkept hc]
    · rw [if_neg heq]
  refine ⟨(Grown.insert hgrown).trans h.grown, fun c hc => ?_, ?_⟩
  · rcases h.keys c hc with hc | hc
    · rcases mem_insert_iff.mp hc with rfl | hc
      · exact .inr (.head _)
      · exact .inl hc
    · exact .inr (.tail _ hc)
  · rcases h.outcome with ⟨hjump, hkeep, hcover⟩ | ⟨s, hs, hjump, hK, hkeep, hstrict⟩
    · refine .inl ⟨hjump, fun c hc => (hkeep c hc).trans (hsame c hc), fun s hs => ?_⟩
      rcases mem_cons.mp hs with rfl | hs
      · obtain ⟨inv', hinv', hle⟩ := h.grown s inv (get_insert_self ..)
        exact ⟨inv', hinv', hpost.trans hle⟩
      · exact hcover s hs
    · refine .inr ⟨s, mem_cons_of_mem _ hs, hjump, hK, fun c hc hne =>
        (hkeep c hc hne).trans (hsame c hc), fun hj => ?_⟩
      obtain ⟨old, new, hold, hnew, hlt⟩ := hstrict hj
      exact ⟨old, new, (hsame s hK).symm.trans hold, hnew, hlt⟩

theorem propagate_runs (hjoin : JoinOk interpreter) {block : Nat}
    {successors : List Nat} (hK : ∀ s ∈ successors, cfg.isBackEdge block s = true ↔ K s)
    {invMap : InvariantMap State} (hin : ∀ c, K c → c ∈ invMap) (self : σ) :
    Runs (propagate interpreter cfg block post successors invMap self) fun p =>
      Propagated interpreter K successors post invMap p.1 p.2.1 := by
  induction successors generalizing invMap self with
  | nil =>
    refine .of_eq rfl ⟨Grown.refl _, fun c hc => .inl hc, .inl ⟨rfl, fun _ _ => rfl, ?_⟩⟩
    exact nofun
  | cons succ rest ih =>
    have hKrest : ∀ s ∈ rest, cfg.isBackEdge block s = true ↔ K s := fun s hs =>
      hK s (.tail _ hs)
    -- The other successors follow with the updated map.
    have hnext : ∀ (inv : BlockInvariant State) (self : σ),
        (∀ old : BlockInvariant State, invMap[succ]? = some old → old.pre ≤ inv.pre) →
        (K succ → invMap[succ]? = some inv) → post ≤ inv.pre →
        Runs (propagate interpreter cfg block post rest (invMap.insert succ inv) self) fun p =>
          Propagated interpreter K (succ :: rest) post invMap p.1 p.2.1 := by
      intro inv self hgrown hkept hpost
      refine (ih hKrest (fun c hc => ?_) self).mono fun p hp => hp.cons hgrown hkept hpost
      exact mem_insert_iff.mpr (.inr (hin c hc))
    refine (Runs.interp _).bind fun self₁ _ => ?_
    cases hsucc : invMap[succ]? with
    | none =>
      refine hnext ⟨post, .unprocessed⟩ self₁ (fun old hold => ?_) (fun hk => ?_) le_rfl
      · rw [hsucc] at hold
        cases hold
      · exact absurd (hin succ hk) (not_mem_iff_get.mpr hsucc)
    | some inv =>
      refine (Runs.interp _).bind fun p hp => ?_
      obtain ⟨result, pre, self₂⟩ := p
      obtain ⟨hle, hpost⟩ := hjoin.upper _ _ _ _ _ _ hp
      have hgrown : ∀ old : BlockInvariant State, invMap[succ]? = some old → old.pre ≤ pre := by
        intro old hold
        cases hsucc.symm.trans hold
        exact hle
      cases result with
      | unchanged =>
        obtain ⟨-, rfl⟩ := hjoin.unchanged _ _ _ _ _ hp
        exact hnext _ self₂ hgrown (fun _ => hsucc) hpost
      | changed =>
        simp only
        by_cases hback : cfg.isBackEdge block succ = true
        · rw [if_pos hback]
          refine (Runs.interp _).bind fun self₃ _ => .of_eq rfl ?_
          have hKs : K succ := (hK succ (.head _)).mp hback
          refine ⟨Grown.insert hgrown, fun c hc => ?_, .inr ⟨succ, mem_cons_self .., rfl, hKs,
            fun c _ hne => get_insert_of_ne _ _ (Ne.symm hne), fun hj => ?_⟩⟩
          · rcases mem_insert_iff.mp hc with rfl | hc
            · exact .inr (.head _)
            · exact .inl hc
          · refine ⟨inv, _, hsucc, get_insert_self .., lt_of_le_not_ge hle fun hge => ?_⟩
            exact hj _ _ _ _ _ hp (hpost.trans hge)
        · rw [if_neg hback]
          refine hnext ⟨pre, .unprocessed⟩ self₂ hgrown (fun hk => ?_) hpost
          exact absurd ((hK succ (.head _)).mpr hk) hback

/-! ### One round -/

variable {code : List I} {order : List Nat}

omit [Preorder State] in
theorem executeBlock_runs (interpreter : AbstractInterpreter I State σ ε)
    (hblocks : BlocksOk code cfg.blocks) {b : Nat} (hb : b ∈ cfg.blocks) (pre : State) (self : σ) :
    Runs (executeBlock interpreter cfg code b pre self) fun _ => True := by
  obtain ⟨bb, hbb⟩ := mem_iff_get.mp hb
  obtain ⟨hle, hlt⟩ := hblocks.bounds b bb hbb
  have hend : cfg.blockEnd b = .ok bb.exit := by
    unfold blockEnd block
    rw [bind_unwrap hbb]
    rfl
  obtain ⟨instructions, hinstr⟩ : ∃ l, cfg.instructions code b = .ok l := by
    unfold VMControlFlowGraph.instructions
    rw [bind_ok hend]
    refine (mapM_ok fun pc hpc => ?_).imp fun _ => And.left
    rw [mem_range'_1] at hpc
    have hi := getElem?_eq_getElem (show pc < code.length by omega)
    rw [bind_unwrap hi]
    exact ⟨_, rfl⟩
  refine (Runs.graph hend).bind fun last _ => ?_
  refine (Runs.graph hinstr).bind fun l hl => ?_
  clear hl
  generalize (pre, self) = p
  induction l generalizing p with
  | nil => exact .of_eq rfl trivial
  | cons i rest ih =>
    rw [foldlM_cons]
    exact (Runs.interp _).bind fun q _ => ih q

/-- A block with its postcondition, which the preconditions of its successors cover. -/
def Visited (interpreter : AbstractInterpreter I State σ ε) (cfg : VMControlFlowGraph)
    (code : List I) (invMap : InvariantMap State) (b : Nat) : Prop :=
  ∃ (inv : BlockInvariant State) (post : State), invMap[b]? = some inv ∧ inv.post = .processed post ∧
    (∃ self self', executeBlock interpreter cfg code b inv.pre self = .ok (post, self')) ∧
    ∀ s, Edge cfg.blocks b s → ∃ inv' : BlockInvariant State, invMap[s]? = some inv' ∧ post ≤ inv'.pre

/-- The walk stands at position `i` of the order. -/
structure LoopOk (interpreter : AbstractInterpreter I State σ ε) (cfg : VMControlFlowGraph)
    (code : List I) (initial : State) (order : List Nat) (invMap : InvariantMap State) (i : Nat) :
    Prop where
  entry : ∃ inv : BlockInvariant State, invMap[entryBlockId]? = some inv ∧ initial ≤ inv.pre
  keys : ∀ c ∈ invMap, c ∈ order
  before : ∀ j < i, ∀ b, order[j]? = some b → Visited interpreter cfg code invMap b

/-- The blocks before `k` are kept. -/
theorem LoopOk.keep (h : LoopOk interpreter cfg code initial order invMap i) (hki : k ≤ i)
    (hgrown : Grown invMap invMap') (hkeys : ∀ c ∈ invMap', c ∈ order)
    (hkeep : ∀ j < k, ∀ b, order[j]? = some b → invMap'[b]? = invMap[b]?) :
    LoopOk interpreter cfg code initial order invMap' k := by
  refine ⟨?_, hkeys, fun j hj b hb => ?_⟩
  · obtain ⟨inv, hinv, hle⟩ := h.entry
    obtain ⟨inv', hinv', hle'⟩ := hgrown _ inv hinv
    exact ⟨inv', hinv', hle.trans hle'⟩
  · obtain ⟨inv, post, hinv, hpost, hexec, hedges⟩ := h.before j (hj.trans_le hki) b hb
    refine ⟨inv, post, (hkeep j hj b hb).trans hinv, hpost, hexec, fun s hs => ?_⟩
    obtain ⟨inv₁, hinv₁, hle⟩ := hedges s hs
    obtain ⟨inv₂, hinv₂, hle'⟩ := hgrown s inv₁ hinv₁
    exact ⟨inv₂, hinv₂, hle.trans hle'⟩

/-- The walk goes on to the next position, or back to a block whose precondition grew. -/
def Moves (interpreter : AbstractInterpreter I State σ ε) (cfg : VMControlFlowGraph)
    (code : List I) (initial : State) (order : List Nat) (invMap : InvariantMap State) (i : Nat)
    (next : Option Nat) (invMap' : InvariantMap State) : Prop :=
  (next = order[i + 1]? ∧ LoopOk interpreter cfg code initial order invMap' (i + 1)) ∨
  ∃ (k s : Nat), k ≤ i ∧ order[k]? = some s ∧ next = some s ∧
    LoopOk interpreter cfg code initial order invMap' k ∧
    (JoinStrict interpreter → ∃ inv' : BlockInvariant State, invMap'[s]? = some inv' ∧
      ∀ inv : BlockInvariant State, invMap[s]? = some inv → inv.pre < inv'.pre)

theorem visitBlock_runs (hjoin : JoinOk interpreter) (hblocks : BlocksOk code cfg.blocks)
    (htrav : Traversal cfg order) {invMap : InvariantMap State}
    (h : LoopOk interpreter cfg code initial order invMap i) (hb : order[i]? = some b) (self : σ) :
    Runs (visitBlock interpreter cfg code initial b invMap self) fun p =>
      Grown invMap p.2.1 ∧ Moves interpreter cfg code initial order invMap i p.1 p.2.1 := by
  have hborder : b ∈ order := List.mem_of_getElem? hb
  have hreach : ∀ s, Edge cfg.blocks b s → s ∈ order := fun s hs =>
    (htrav.reachable s).mpr (((htrav.reachable b).mp hborder).tail hs)
  have hbb : b ∈ cfg.blocks := by
    rcases ReflTransGen.cases_tail ((htrav.reachable b).mp hborder) with rfl | ⟨c, -, bb, hc, hs⟩
    · exact hblocks.entry
    · exact hblocks.closed c bb hc b hs
  obtain ⟨bb, hget⟩ := mem_iff_get.mp hbb
  have hedge : ∀ s, Edge cfg.blocks b s ↔ s ∈ bb.successors := by
    intro s
    refine ⟨fun ⟨bb', hbb', hs⟩ => ?_, fun hs => ⟨bb, hget, hs⟩⟩
    cases hget.symm.trans hbb'
    exact hs
  have hsucc : cfg.successors b = .ok bb.successors := by
    unfold successors block
    rw [bind_unwrap hget]
    rfl
  unfold visitBlock
  simp only
  generalize hinv : (invMap[b]?).getD ⟨initial, .unprocessed⟩ = inv
  refine (Runs.interp _).bind fun self₁ _ => ?_
  refine (executeBlock_runs interpreter hblocks hbb inv.pre self₁).self.bind fun p hexec => ?_
  obtain ⟨post, self₂⟩ := p
  refine (Runs.interp _).bind fun self₃ _ => ?_
  refine (Runs.graph hsucc).bind_eq ?_
  -- The map with the block processed.
  let m : InvariantMap State := invMap.insert b ⟨inv.pre, .processed post⟩
  have hgrown : Grown invMap m := Grown.insert fun old hold => by
    rw [hold, Option.getD_some] at hinv
    rw [hinv]
  have hne : ∀ j < i, ∀ c, order[j]? = some c → b ≠ c := by
    intro j hj c hc heq
    have hjlt := (List.getElem?_eq_some_iff.mp hc).1
    have := (List.getElem?_inj hjlt htrav.nodup).mp (hc.trans (heq ▸ hb.symm))
    omega
  have hm : LoopOk interpreter cfg code initial order m i := by
    refine h.keep (le_refl i) hgrown (fun c hc => ?_) fun j hj c hc =>
      get_insert_of_ne _ _ (hne j hj c hc)
    rcases mem_insert_iff.mp hc with rfl | hc
    · exact hborder
    · exact h.keys c hc
  have hin : ∀ c, c ∈ order.take (i + 1) → c ∈ m := by
    intro c hc
    obtain ⟨j, hj, hcj⟩ := List.mem_take_iff_getElem.mp hc
    have hj' : order[j]? = some c := by rw [List.getElem?_eq_getElem (by omega), hcj]
    rcases Nat.lt_or_ge j i with hji | hji
    · obtain ⟨invj, -, hinvj, -⟩ := hm.before j hji c hj'
      exact mem_of_get hinvj
    · have hji' : j = i := by omega
      subst hji'
      cases hb.symm.trans hj'
      exact mem_insert_iff.mpr (.inl rfl)
  have hK : ∀ s ∈ bb.successors, cfg.isBackEdge b s = true ↔ s ∈ order.take (i + 1) := fun s hs =>
    htrav.backEdge i b hb s ((hedge s).mpr hs)
  refine (propagate_runs hjoin hK hin self₃).bind fun q hq => ?_
  obtain ⟨jump, invMap', self₄⟩ := q
  have hgrown' : Grown m invMap' := hq.grown
  have hkeys : ∀ c ∈ invMap', c ∈ order := by
    intro c hc
    rcases hq.keys c hc with hc | hc
    · exact hm.keys c hc
    · exact hreach c ((hedge c).mpr hc)
  have htake : ∀ j < i + 1, ∀ c, order[j]? = some c → c ∈ order.take (i + 1) := by
    intro j hj c hc
    obtain ⟨hlt, rfl⟩ := List.getElem?_eq_some_iff.mp hc
    exact List.mem_take_iff_getElem.mpr ⟨j, by omega, rfl⟩
  refine .of_eq rfl ⟨hgrown.trans hgrown', ?_⟩
  rcases hq.outcome with ⟨hjump, hkeep, hcover⟩ | ⟨s, hs, hjump, hKs, hkeep, hstrict⟩
  · left
    subst hjump
    refine ⟨htrav.next i b hb, ?_⟩
    have hbase := hm.keep (le_refl i) hgrown' hkeys fun j hj c hc =>
      hkeep c (htake j (by omega) c hc)
    refine ⟨hbase.entry, hkeys, fun j hj c hc => ?_⟩
    rcases Nat.lt_or_ge j i with hji | hji
    · exact hbase.before j hji c hc
    · have hji' : j = i := by omega
      subst hji'
      cases hb.symm.trans hc
      refine ⟨⟨inv.pre, .processed post⟩, post, ?_, rfl, ⟨self₁, self₂, hexec⟩, fun s hs =>
        hcover s ((hedge s).mp hs)⟩
      rw [hkeep b (htake j hj b hb)]
      exact get_insert_self ..
  · right
    subst hjump
    obtain ⟨k, hk, hks⟩ := List.mem_take_iff_getElem.mp hKs
    have hks' : order[k]? = some s := by rw [List.getElem?_eq_getElem (by omega), hks]
    have hki : k ≤ i := by omega
    refine ⟨k, s, hki, hks', rfl, ?_, fun hj => ?_⟩
    · refine hm.keep hki hgrown' hkeys fun j hj c hc => hkeep c (htake j (by omega) c hc) ?_
      intro heq
      have hjlt := (List.getElem?_eq_some_iff.mp hc).1
      have := (List.getElem?_inj hjlt htrav.nodup).mp (hc.trans (heq ▸ hks'.symm))
      omega
    · obtain ⟨old, new, hold, hnew, hlt⟩ := hstrict hj
      refine ⟨new, hnew, fun inv₀ hinv₀ => ?_⟩
      obtain ⟨inv₁, hinv₁, hle⟩ := hgrown s inv₀ hinv₀
      cases hold.symm.trans hinv₁
      exact hle.trans_lt hlt

/-! ### The loop -/

theorem analysisLoop_ok (hjoin : JoinOk interpreter) (hblocks : BlocksOk code cfg.blocks)
    (htrav : Traversal cfg order) (h : LoopOk interpreter cfg code initial order invMap i)
    (hrun : analysisLoop interpreter cfg code initial fuel order[i]? invMap self =
      .ok (invMap', self')) : LoopOk interpreter cfg code initial order invMap' order.length := by
  induction fuel generalizing i invMap self with
  | zero => cases hrun
  | succ fuel ih =>
    cases hb : order[i]? with
    | none =>
      rw [hb] at hrun
      cases hrun
      refine ⟨h.entry, h.keys, fun j hj => h.before j (hj.trans_le ?_)⟩
      exact getElem?_eq_none_iff.mp hb
    | some b =>
      rw [hb] at hrun
      obtain ⟨⟨next, m, self₁⟩, hvisit, hloop⟩ := bind_eq_ok.mp hrun
      obtain ⟨-, hmoves⟩ := (visitBlock_runs hjoin hblocks htrav h hb self).ok hvisit
      rcases hmoves with ⟨hnext, hok⟩ | ⟨k, s, -, hs, hnext, hok, -⟩
      · simp only at hnext hloop
        rw [hnext] at hloop
        exact ih hok hloop
      · simp only at hnext hloop
        rw [hnext, ← hs] at hloop
        exact ih hok hloop

/-- The preconditions along the order; blocks that are not visited are below all others. -/
def pres (order : List Nat) (invMap : InvariantMap State) : Fin order.length → WithBot State :=
  fun j => (invMap[order[j]]?).elim ⊥ fun inv => (inv.pre : WithBot State)

theorem Grown.pres_le (h : Grown invMap invMap') : pres order invMap ≤ pres order invMap' := by
  intro j
  unfold pres
  cases hc : invMap[order[j]]? with
  | none => exact bot_le
  | some inv =>
    obtain ⟨inv', hc', hle⟩ := h _ inv hc
    rw [hc']
    exact WithBot.coe_le_coe.mpr hle

theorem pres_lt (h : Grown invMap invMap') {k s : Nat}
    (hs : order[k]? = some s) {inv' : BlockInvariant State} (hinv' : invMap'[s]? = some inv')
    (hlt : ∀ inv : BlockInvariant State, invMap[s]? = some inv → inv.pre < inv'.pre) :
    pres order invMap < pres order invMap' := by
  obtain ⟨hk, rfl⟩ := List.getElem?_eq_some_iff.mp hs
  refine Pi.lt_def.mpr ⟨h.pres_le, ⟨k, hk⟩, ?_⟩
  unfold pres
  simp only [Fin.getElem_fin, hinv', Option.elim_some]
  cases hc : invMap[order[k]]? with
  | none => exact WithBot.bot_lt_coe _
  | some inv => exact WithBot.coe_lt_coe.mpr (hlt inv hc)

theorem wellFounded_pres [WellFoundedGT State] (n : Nat) :
    WellFounded fun f g : Fin n → WithBot State => g < f := by
  have hdual : WellFounded fun f g : Fin n → (WithBot State)ᵒᵈ => f < g := wellFounded_lt
  refine Subrelation.wf (fun {f g} hlt => ?_) (InvImage.wf (fun f j => OrderDual.toDual (f j)) hdual)
  obtain ⟨hle, j, hj⟩ := Pi.lt_def.mp hlt
  exact Pi.lt_def.mpr ⟨fun i => OrderDual.toDual_le_toDual.mpr (hle i), j, OrderDual.toDual_lt_toDual.mpr hj⟩

/-- With enough fuel, the loop returns or the interpreter fails. -/
def Halts (interpreter : AbstractInterpreter I State σ ε) (cfg : VMControlFlowGraph) (code : List I)
    (initial : State) (next : Option Nat) (invMap : InvariantMap State) (self : σ) : Prop :=
  ∃ n, ∀ fuel ≥ n, Runs (analysisLoop interpreter cfg code initial fuel next invMap self)
    fun _ => True

omit [Preorder State] in
theorem Halts.none (initial : State) (invMap : InvariantMap State) (self : σ) :
    Halts interpreter cfg code initial none invMap self := by
  refine ⟨1, fun fuel hfuel => ?_⟩
  obtain ⟨fuel, rfl⟩ : ∃ k, fuel = k + 1 := ⟨fuel - 1, by omega⟩
  exact .of_eq rfl trivial

omit [Preorder State] in
/-- The loop halts if it does from whatever a visit leads to. -/
theorem Halts.visit (hvisit : Runs (visitBlock interpreter cfg code initial b invMap self) P)
    (h : ∀ next invMap' self', P (next, invMap', self') →
      Halts interpreter cfg code initial next invMap' self') :
    Halts interpreter cfg code initial (some b) invMap self := by
  cases hrun : visitBlock interpreter cfg code initial b invMap self with
  | error e =>
    obtain ⟨e', rfl⟩ := hvisit.error hrun
    refine ⟨1, fun fuel hfuel => ?_⟩
    obtain ⟨fuel, rfl⟩ : ∃ k, fuel = k + 1 := ⟨fuel - 1, by omega⟩
    unfold analysisLoop
    rw [hrun]
    exact ⟨e', rfl⟩
  | ok p =>
    obtain ⟨next, m, self₁⟩ := p
    obtain ⟨n, hn⟩ := h next m self₁ (hvisit.ok hrun)
    refine ⟨n + 1, fun fuel hfuel => ?_⟩
    obtain ⟨fuel, rfl⟩ : ∃ k, fuel = k + 1 := ⟨fuel - 1, by omega⟩
    unfold analysisLoop
    rw [bind_ok hrun]
    exact hn fuel (by omega)

/-- The outer induction is on the preconditions, which grow on each way back, the inner one
on what is left of the order. -/
theorem analysisLoop_halts [WellFoundedGT State] (hjoin : JoinOk interpreter)
    (hstrict : JoinStrict interpreter) (hblocks : BlocksOk code cfg.blocks)
    (htrav : Traversal cfg order) (f : Fin order.length → WithBot State)
    (left i : Nat) (invMap : InvariantMap State) (self : σ) (hf : f ≤ pres order invMap)
    (hi : order.length ≤ i + left) (h : LoopOk interpreter cfg code initial order invMap i) :
    Halts interpreter cfg code initial order[i]? invMap self := by
  have hwf : WellFounded fun f g : Fin order.length → WithBot State => g < f := wellFounded_pres _
  induction f using hwf.induction generalizing left i invMap self with
  | _ f outer =>
    induction left generalizing i invMap self with
    | zero =>
      rw [getElem?_eq_none_iff.mpr (by omega)]
      exact .none ..
    | succ left inner =>
      cases hb : order[i]? with
      | none => exact .none ..
      | some b =>
        refine .visit (visitBlock_runs hjoin hblocks htrav h hb self) ?_
        intro next m self₁ ⟨hgrown, hmoves⟩
        rcases hmoves with ⟨hnext, hok⟩ | ⟨k, s, -, hs, hnext, hok, hback⟩
        · simp only at hnext
          rw [hnext]
          exact inner (i + 1) m self₁ (hf.trans hgrown.pres_le) (by omega) hok
        · simp only at hnext
          obtain ⟨inv', hinv', hlt⟩ := hback hstrict
          rw [hnext, ← hs]
          exact outer (pres order m) (hf.trans_lt (pres_lt hgrown hs hinv' hlt))
            order.length k m self₁ le_rfl (by omega) hok

/-- What the map of an analysis says. -/
structure InductiveInvariant (interpreter : AbstractInterpreter I State σ ε)
    (cfg : VMControlFlowGraph) (code : List I) (initial : State) (invMap : InvariantMap State) :
    Prop where
  reachable : ∀ b, b ∈ invMap ↔ ReflTransGen (Edge cfg.blocks) entryBlockId b
  processed : ∀ (b : Nat) (inv : BlockInvariant State), invMap[b]? = some inv →
    ∃ post, inv.post = .processed post ∧
      ∃ self self', executeBlock interpreter cfg code b inv.pre self = .ok (post, self')
  entry : ∀ inv : BlockInvariant State, invMap[entryBlockId]? = some inv → initial ≤ inv.pre
  edges : ∀ b s, Edge cfg.blocks b s → ∀ (inv inv' : BlockInvariant State) (post : State),
    invMap[b]? = some inv → invMap[s]? = some inv' → inv.post = .processed post → post ≤ inv'.pre

theorem LoopOk.inductiveInvariant (htrav : Traversal cfg order)
    (h : LoopOk interpreter cfg code initial order invMap order.length) :
    InductiveInvariant interpreter cfg code initial invMap := by
  have hbefore : ∀ b ∈ order, Visited interpreter cfg code invMap b := by
    intro b hb
    obtain ⟨j, hj⟩ := List.mem_iff_getElem?.mp hb
    exact h.before j (List.getElem?_eq_some_iff.mp hj).1 b hj
  have hmem : ∀ {b : Nat} {inv : BlockInvariant State}, invMap[b]? = some inv → b ∈ order :=
    fun hb => h.keys _ (mem_of_get hb)
  refine ⟨fun b => ?_, fun b inv hb => ?_, fun inv hinv => ?_, fun b s hs inv inv' post hb hs' hp => ?_⟩
  · rw [← htrav.reachable]
    refine ⟨h.keys b, fun hb => ?_⟩
    obtain ⟨inv, -, hinv, -⟩ := hbefore b hb
    exact mem_of_get hinv
  · obtain ⟨inv', post, hinv', hpost, hexec, -⟩ := hbefore b (hmem hb)
    cases hb.symm.trans hinv'
    exact ⟨post, hpost, hexec⟩
  · obtain ⟨inv', hinv', hle⟩ := h.entry
    cases hinv.symm.trans hinv'
    exact hle
  · obtain ⟨inv₁, post₁, hinv₁, hpost₁, -, hedges⟩ := hbefore b (hmem hb)
    cases hb.symm.trans hinv₁
    cases hp.symm.trans hpost₁
    obtain ⟨inv₂, hinv₂, hle⟩ := hedges s hs
    cases hs'.symm.trans hinv₂
    exact hle

variable {J : Type} [Instruction I J] {jumpTables : J}

/-- **The driver returns an inductive invariant, and returns.** -/
theorem analyzeFunction_correct (hne : code ≠ []) (htargets : TargetsInRange code jumpTables)
    (hcfg : VMControlFlowGraph.new code jumpTables = .ok cfg) (hjoin : JoinOk interpreter)
    (initial : State) (self : σ) :
    (∀ fuel invMap self', analyzeFunction interpreter cfg code fuel initial self =
      .ok (invMap, self') → InductiveInvariant interpreter cfg code initial invMap) ∧
    (JoinStrict interpreter → WellFoundedGT State → ∃ n, ∀ fuel ≥ n,
      Runs (analyzeFunction interpreter cfg code fuel initial self) fun _ => True) := by
  obtain ⟨cfg', order, hcfg', hblocks, htrav⟩ := new_spec hne (length_lt_of_new hcfg) htargets
  cases hcfg.symm.trans hcfg'
  have hentry : order[0]? = some entryBlockId := by rw [← head?_eq_getElem?, htrav.head]
  have hstart : LoopOk interpreter cfg code initial order
      ((∅ : InvariantMap State).insert entryBlockId ⟨initial, .unprocessed⟩) 0 := by
    refine ⟨⟨_, get_insert_self .., le_rfl⟩, fun c hc => ?_, fun j hj => absurd hj (by omega)⟩
    rcases mem_insert_iff.mp hc with rfl | hc
    · exact mem_of_getElem? hentry
    · simp at hc
  refine ⟨fun fuel invMap self' hrun => ?_, fun hstrict hwf => ?_⟩
  · obtain ⟨self₁, -, hloop⟩ := bind_eq_ok.mp hrun
    rw [← hentry] at hloop
    exact (analysisLoop_ok hjoin hblocks htrav hstart hloop).inductiveInvariant htrav
  · cases hs : interpreter.start self with
    | error e =>
      refine ⟨0, fun fuel _ => ?_⟩
      unfold analyzeFunction
      rw [hs]
      exact ⟨e, rfl⟩
    | ok self₁ =>
      obtain ⟨n, hn⟩ := analysisLoop_halts hjoin hstrict hblocks htrav _ order.length 0 _ self₁
        le_rfl (by omega) hstart
      refine ⟨n, fun fuel hfuel => ?_⟩
      unfold analyzeFunction
      rw [hs]
      rw [hentry] at hn
      exact hn fuel hfuel

end Driver

/-! ### A body that jumps to itself -/

/-- A jump. -/
structure Goto where
  target : Nat

instance : Instruction Goto Unit where
  offsets i _ := some [i.target]
  isConditionalBranch _ := false
  isUnconditionalBranch _ := true

/-- The graph of a jump to itself. -/
def selfLoop : VMControlFlowGraph where
  blocks := (∅ : BTreeMap Nat BasicBlock).insert 0 ⟨0, [0]⟩
  traversalSuccessors := ∅
  loopHeads := (∅ : BTreeMap Nat (BTreeSet Nat)).insert 0 ((∅ : BTreeSet Nat).insert 0)

theorem selfLoop_eq : VMControlFlowGraph.new [(⟨0⟩ : Goto)] () = .ok selfLoop := rfl

/-- The jump to itself is a back edge. -/
theorem new_loops_selfLoop : ∃ order, Traversal selfLoop order ∧
    ∀ b ∈ order, ¬Relation.TransGen (fun b s => Edge selfLoop.blocks b s ∧ selfLoop.isBackEdge b s = false) b b := by
  refine (new_loops [(⟨0⟩ : Goto)] () (by simp) fun i hi => ?_).2 selfLoop selfLoop_eq
  rw [mem_singleton.mp hi]
  exact ⟨[0], rfl, by simp⟩

/-- Instructions do nothing; the join is the maximum. -/
def maxInterpreter (State : Type) [LinearOrder State] :
    AbstractInterpreter Goto State Unit Unit where
  join self pre post :=
    if post ≤ pre then .ok (.unchanged, pre, self) else .ok (.changed, max pre post, self)
  execute self _ _ pre _ _ := .ok (pre, self)

section Max
variable {State : Type} [LinearOrder State]

theorem maxInterpreter_joinOk : JoinOk (maxInterpreter State) where
  upper self pre post result pre' self' h := by
    simp only [maxInterpreter] at h
    split at h
    · cases h
      exact ⟨le_rfl, by assumption⟩
    · cases h
      exact ⟨le_max_left .., le_max_right ..⟩
  unchanged self pre post pre' self' h := by
    simp only [maxInterpreter] at h
    split at h
    · cases h
      exact ⟨by assumption, rfl⟩
    · cases h

theorem maxInterpreter_joinStrict : JoinStrict (maxInterpreter State) := by
  intro self pre post pre' self' h
  simp only [maxInterpreter] at h
  split at h
  · cases h
  · assumption

end Max

theorem analyzeFunction_correct_selfLoop :
    (∃ invMap, analyzeFunction (maxInterpreter Bool) selfLoop [(⟨0⟩ : Goto)] 2 true () =
        .ok (invMap, ()) ∧
      InductiveInvariant (maxInterpreter Bool) selfLoop [(⟨0⟩ : Goto)] true invMap) ∧
    ∃ n, ∀ fuel ≥ n, Runs (analyzeFunction (maxInterpreter Bool) selfLoop [(⟨0⟩ : Goto)] fuel
      true ()) fun _ => True := by
  have htargets : TargetsInRange [(⟨0⟩ : Goto)] () := by
    intro i hi
    rw [mem_singleton.mp hi]
    exact ⟨[0], rfl, by simp⟩
  have hcorrect := analyzeFunction_correct (by simp) htargets selfLoop_eq
    (show JoinOk (maxInterpreter Bool) from maxInterpreter_joinOk) true ()
  exact ⟨⟨_, rfl, hcorrect.1 2 _ () rfl⟩, hcorrect.2 maxInterpreter_joinStrict inferInstance⟩

/-- Raises the precondition when it says that nothing changed. -/
def raisingInterpreter : AbstractInterpreter Goto Nat Unit Unit where
  join self pre post :=
    if post ≤ pre then .ok (.unchanged, pre + 1, self) else .ok (.changed, max pre post, self)
  execute self _ _ pre _ _ := .ok (pre, self)

/-- Says of every join that it changed the precondition. -/
def restlessInterpreter : AbstractInterpreter Goto Unit Unit Unit where
  join self pre _ := .ok (.changed, pre, self)
  execute self _ _ pre _ _ := .ok (pre, self)

/-- Upper bounds alone are not enough. A join that raises a precondition without telling
leaves a postcondition that is not the one of the final precondition, and a join that
always tells of a change makes the analysis go on for ever. -/
theorem analyzeFunction_unlawful :
    ((∀ pre post : Nat, ∃ result pre', raisingInterpreter.join () pre post =
        .ok (result, pre', ()) ∧ pre ≤ pre' ∧ post ≤ pre' ∧ (result = .unchanged → post ≤ pre)) ∧
      ∃ invMap inv, analyzeFunction raisingInterpreter selfLoop [(⟨0⟩ : Goto)] 2 0 () =
        .ok (invMap, ()) ∧ invMap[0]? = some inv ∧ inv.post = .processed 0 ∧
        executeBlock raisingInterpreter selfLoop [(⟨0⟩ : Goto)] 0 inv.pre () = .ok (1, ())) ∧
    ((∀ pre post : Unit, ∃ result pre', restlessInterpreter.join () pre post =
        .ok (result, pre', ()) ∧ pre ≤ pre' ∧ post ≤ pre' ∧ (result = .unchanged → post ≤ pre)) ∧
      WellFoundedGT Unit ∧ ∀ fuel,
        analyzeFunction restlessInterpreter selfLoop [(⟨0⟩ : Goto)] fuel () () = .error .outOfFuel) := by
  refine ⟨⟨fun pre post => ?_, _, _, rfl, rfl, rfl, rfl⟩, ⟨fun _ _ => ?_, inferInstance, fun fuel => ?_⟩⟩
  · by_cases h : post ≤ pre
    · exact ⟨_, _, if_pos h, Nat.le_succ _, Nat.le_succ_of_le h, fun _ => h⟩
    · exact ⟨_, _, if_neg h, le_max_left .., le_max_right .., fun h => by cases h⟩
  · exact ⟨.changed, (), rfl, le_rfl, le_rfl, fun h => by cases h⟩
  · -- Every round leads to the same map.
    have hloop : ∀ (fuel : Nat) (post : BlockPostCondition Unit),
        analysisLoop restlessInterpreter selfLoop [(⟨0⟩ : Goto)] () fuel (some 0)
          ((∅ : InvariantMap Unit).insert 0 ⟨(), post⟩) () = .error .outOfFuel := by
      intro fuel
      induction fuel with
      | zero => exact fun _ => rfl
      | succ fuel ih =>
        intro post
        have hvisit : visitBlock restlessInterpreter selfLoop [(⟨0⟩ : Goto)] () 0
            ((∅ : InvariantMap Unit).insert 0 ⟨(), post⟩) () =
            .ok (some 0, (∅ : InvariantMap Unit).insert 0 ⟨(), .unprocessed⟩, ()) := rfl
        unfold analysisLoop
        rw [bind_ok hvisit]
        exact ih .unprocessed
    exact hloop fuel .unprocessed

end Sui.Move
