import Sui.Move.ControlFlowGraph.Blocks
import Sui.Lib.DepthFirst

/-! The loop analysis of a control-flow graph.

The stack of blocks runs a depth-first search from the entry block: between the blocks
in progress lie the successors pushed for each of them (`SearchOk`). The order of
traversal lists the reachable blocks once, the entry block first, and an edge is a back
edge exactly when it does not go forward in that order (`new_spec`), so that every cycle has one
(`new_loops`). -/
namespace Sui.Move

open Sui.Lib BTreeMap Exec DepthFirst List
open Relation (ReflTransGen TransGen)

namespace VMControlFlowGraph

variable {blocks : BTreeMap Nat BasicBlock}

/-- Control may go from block `b` to block `s`. -/
def Edge (blocks : BTreeMap Nat BasicBlock) (b s : Nat) : Prop :=
  ∃ bb, blocks[b]? = some bb ∧ s ∈ bb.successors

/-- The edge from `b` to `head` is recorded as a back edge. -/
def LoopSearch.Back (s : LoopSearch) (head b : Nat) : Prop := b ∈ (s.loopHeads[head]?).getD ∅

/-! ### Successors of a block -/

theorem visitSuccessor_spec (block w : Nat) (s : LoopSearch) :
    (visitSuccessor block s w).exploration = s.exploration ∧
    (visitSuccessor block s w).postOrder = s.postOrder ∧
    (visitSuccessor block s w).stack =
      (if s.exploration[w]? = none then [w] else []) ++ s.stack ∧
    ∀ head b, (visitSuccessor block s w).Back head b ↔
      s.Back head b ∨ (b = block ∧ head = w ∧ s.exploration[w]? = some .inProgress) := by
  unfold visitSuccessor
  cases hw : s.exploration[w]? with
  | none => exact ⟨rfl, rfl, rfl, fun head b => by simp [LoopSearch.Back]⟩
  | some e =>
    cases e with
    | done => exact ⟨rfl, rfl, rfl, fun head b => by simp⟩
    | inProgress =>
      refine ⟨rfl, rfl, rfl, fun head b => ?_⟩
      simp only [LoopSearch.Back, get_insert]
      by_cases hhead : w = head
      · subst hhead
        rw [if_pos rfl, Option.getD_some, BTreeSet.mem_insert_iff]
        simp only [and_true]
        exact or_comm.trans (or_congr_right eq_comm)
      · rw [if_neg hhead]
        simp [Ne.symm hhead]

/-- Unexplored successors are pushed, those in progress are loop heads. -/
theorem visitSuccessor_foldl (block : Nat) (l : List Nat) (s : LoopSearch) :
    let s' := l.foldl (visitSuccessor block) s
    s'.exploration = s.exploration ∧ s'.postOrder = s.postOrder ∧
      s'.stack = (l.filter fun w => s.exploration[w]? = none).reverse ++ s.stack ∧
      ∀ head b, s'.Back head b ↔
        s.Back head b ∨ (b = block ∧ head ∈ l ∧ s.exploration[head]? = some .inProgress) := by
  induction l generalizing s with
  | nil => simp
  | cons w rest ih =>
    obtain ⟨hexp, hpost, hstack, hback⟩ := visitSuccessor_spec block w s
    obtain ⟨hexp', hpost', hstack', hback'⟩ := ih (visitSuccessor block s w)
    simp only [foldl_cons]
    rw [hexp] at hexp' hstack' hback'
    refine ⟨hexp', hpost'.trans hpost, ?_, fun head b => ?_⟩
    · rw [hstack', hstack, filter_cons]
      by_cases hw : s.exploration[w]? = none
      · simp only [hw, decide_true, if_true, reverse_cons, append_assoc]
      · simp only [hw, decide_false, if_false, nil_append]
        rfl
    · rw [hback', hback, mem_cons, or_assoc]
      refine or_congr_right ⟨fun h => ?_, fun h => ?_⟩
      · rcases h with ⟨hb, hhead, hw⟩ | ⟨hb, hmem, hw⟩
        · exact ⟨hb, .inl hhead, hhead ▸ hw⟩
        · exact ⟨hb, .inr hmem, hw⟩
      · obtain ⟨hb, hmem, hw⟩ := h
        rcases hmem with hhead | hmem
        · exact .inl ⟨hb, hhead, hhead ▸ hw⟩
        · exact .inr ⟨hb, hmem, hw⟩

/-! ### The search -/

/-- A block in progress with the successors still on the stack above it. -/
abbrev Frame := Nat × List Nat

/-- What holds of the frame of `v`, with blocks `above` it and `below` it in progress. -/
structure FrameOk (blocks : BTreeMap Nat BasicBlock) (s : LoopSearch) (above : List Nat) (v : Nat)
    (pending below : List Nat) : Prop where
  pushed : ∀ p ∈ pending, Edge blocks v p ∧ p ∉ v :: below
  covered : ∀ w, Edge blocks v w → w ∈ pending ∨ w ∈ s.postOrder ∨ s.Back w v ∨ w ∈ above
  back : ∀ w, s.Back w v → w ∈ v :: below

def FramesOk (blocks : BTreeMap Nat BasicBlock) (s : LoopSearch) :
    List Nat → List Frame → Prop
  | _, [] => True
  | above, (v, pending) :: rest =>
    FrameOk blocks s above v pending (rest.map (·.1)) ∧ FramesOk blocks s (v :: above) rest

/-- Where the entry block is: on the stack only, in progress, or finished as the last. -/
inductive Phase : List Nat → List Nat → List Nat → Prop
  | start : Phase [entryBlockId] [] []
  | active {active done : List Nat} (h : active.getLast? = some entryBlockId) :
      Phase [] active done
  | finished {done : List Nat} (h : done.getLast? = some entryBlockId) : Phase [] [] done

structure SearchOk (blocks : BTreeMap Nat BasicBlock) (s : LoopSearch) (roots : List Nat)
    (frames : List Frame) : Prop where
  stack_eq : s.stack = frames.flatMap (fun f => f.2 ++ [f.1]) ++ roots
  phase : Phase roots (frames.map (·.1)) s.postOrder
  run : Run (Edge blocks) (· = entryBlockId) ⟨[], []⟩ ⟨frames.map (·.1), s.postOrder⟩
  inProgress : ∀ b, s.exploration[b]? = some .inProgress ↔ b ∈ frames.map (·.1)
  done : ∀ b, s.exploration[b]? = some .done ↔ b ∈ s.postOrder
  frames : FramesOk blocks s [] frames
  back_visited : ∀ head b, s.Back head b → b ∈ s.exploration
  left : ∀ (i : Nat) (v : Nat), s.postOrder[i]? = some v → ∀ w, Edge blocks v w →
    (s.Back w v ↔ w ∉ s.postOrder.take i)

variable {s : LoopSearch} {roots : List Nat} {frames : List Frame} {p : Nat} {bb : BasicBlock}
  {rest : List Frame} {stack : List Nat} {cfg : VMControlFlowGraph}

theorem FramesOk.mono (h : FramesOk blocks s above frames)
    (hback : ∀ v ∈ frames.map (·.1), ∀ w, s'.Back w v ↔ s.Back w v) (hpost : ∀ w ∈ s.postOrder, w ∈ s'.postOrder)
    (habove : ∀ w ∈ above, w ∈ above' ∨ w ∈ s'.postOrder) : FramesOk blocks s' above' frames := by
  induction frames generalizing above above' with
  | nil => trivial
  | cons f rest ih =>
    obtain ⟨v, pending⟩ := f
    obtain ⟨hframe, hrest⟩ := h
    have hv : v ∈ ((v, pending) :: rest).map (·.1) := mem_cons_self ..
    refine ⟨⟨hframe.pushed, fun w hw => ?_, fun w hw => hframe.back w ((hback v hv w).mp hw)⟩, ?_⟩
    · rcases hframe.covered w hw with hw | hw | hw | hw
      · exact .inl hw
      · exact .inr (.inl (hpost w hw))
      · exact .inr (.inr (.inl ((hback v hv w).mpr hw)))
      · rcases habove w hw with hw | hw
        · exact .inr (.inr (.inr hw))
        · exact .inr (.inl hw)
    · refine ih hrest (fun u hu => hback u (.tail _ hu)) fun w hw => ?_
      rcases mem_cons.mp hw with rfl | hw
      · exact .inl (.head _)
      · exact (habove w hw).imp_left (mem_cons_of_mem _)

theorem SearchOk.unexplored (h : SearchOk blocks s roots frames) (hb : s.exploration[b]? = none) :
    ¬ State.Visited ⟨frames.map (·.1), s.postOrder⟩ b := by
  intro hvis
  rcases hvis with hvis | hvis
  · rw [← h.inProgress b, hb] at hvis
    cases hvis
  · rw [← h.done b, hb] at hvis
    cases hvis

/-- The first visit of a block, taken from the stack. -/
theorem SearchOk.explore (h : SearchOk blocks s roots frames)
    (hp : s.exploration[p]? = none) (hbb : blocks[p]? = some bb) (hactive : frames'.map (·.1) = frames.map (·.1))
    (hphase : (p :: frames.map (·.1)).getLast? = some entryBlockId)
    (hstep : Step (Edge blocks) (· = entryBlockId) ⟨frames.map (·.1), s.postOrder⟩
      ⟨p :: frames.map (·.1), s.postOrder⟩) (hframes : FramesOk blocks s [p] frames') :
    ∃ pending, SearchOk blocks (bb.successors.foldl (visitSuccessor p) { s with
        exploration := s.exploration.insert p .inProgress
        stack := p :: frames'.flatMap fun f => f.2 ++ [f.1] }) [] ((p, pending) :: frames') := by
  have hnew := h.unexplored hp
  obtain ⟨hexp, hpost, hstack, hback⟩ := visitSuccessor_foldl p bb.successors { s with
    exploration := s.exploration.insert p .inProgress
    stack := p :: frames'.flatMap fun f => f.2 ++ [f.1] }
  have hget : ∀ w, (s.exploration.insert p Exploration.inProgress)[w]? =
      if p = w then some .inProgress else s.exploration[w]? := fun w => get_insert ..
  have hprogress : ∀ w, (s.exploration.insert p Exploration.inProgress)[w]? = some .inProgress ↔
      w ∈ p :: frames.map (·.1) := by
    intro w
    rw [hget, mem_cons, ← h.inProgress]
    by_cases hw : p = w
    · simp [hw]
    · simp [hw, Ne.symm hw]
  have hold : ∀ w, s.Back w p → False := fun w hw => by
    obtain ⟨e, he⟩ := BTreeMap.mem_iff_get.mp (h.back_visited w p hw)
    rw [hp] at he
    cases he
  refine ⟨(bb.successors.filter fun w =>
      (s.exploration.insert p Exploration.inProgress)[w]? = none).reverse,
    ?_, .active ?_, ?_, fun b => ?_, fun b => ?_, ⟨⟨fun q hq => ?_, fun w hw => ?_,
      fun w hw => ?_⟩, ?_⟩, fun head b hb => ?_, fun i v hv w hw => ?_⟩
  · rw [hstack]
    simp
  · simpa [hactive] using hphase
  · rw [hpost]
    simpa [hactive] using h.run.tail hstep
  · rw [hexp, hprogress]
    simp [hactive]
  · rw [hexp, hpost, hget, ← h.done]
    by_cases hb : p = b
    · subst hb
      simp [hp]
    · simp [hb]
  · rw [mem_reverse, mem_filter] at hq
    obtain ⟨hsucc, hnone⟩ := hq
    refine ⟨⟨bb, hbb, hsucc⟩, fun hmem => ?_⟩
    rw [hactive] at hmem
    rw [decide_eq_true_eq, (hprogress q).mpr hmem] at hnone
    cases hnone
  · obtain ⟨bb', hbb', hsucc⟩ := hw
    cases hbb.symm.trans hbb'
    cases hx : (s.exploration.insert p Exploration.inProgress)[w]? with
    | none =>
      left
      rw [mem_reverse, mem_filter, hx]
      exact ⟨hsucc, rfl⟩
    | some e =>
      cases e with
      | inProgress => exact .inr (.inr (.inl ((hback w p).mpr (.inr ⟨rfl, hsucc, hx⟩))))
      | done =>
        refine .inr (.inl ?_)
        rw [hpost, ← h.done]
        rw [hget] at hx
        split at hx
        · cases hx
        · exact hx
  · rcases (hback w p).mp hw with hw | ⟨-, -, hw⟩
    · exact absurd hw (hold w)
    · rw [hactive]
      exact (hprogress w).mp hw
  · refine hframes.mono (fun v hv w => (hback w v).trans (or_iff_left fun hnew' => ?_))
      (fun w hw => by rw [hpost]; exact hw) fun w hw => .inl hw
    obtain ⟨rfl, -⟩ := hnew'
    rw [hactive] at hv
    exact hnew (.inl hv)
  · rw [hexp, BTreeMap.mem_insert_iff]
    rcases (hback head b).mp hb with hb | ⟨rfl, -⟩
    · exact .inr (h.back_visited head b hb)
    · exact .inl rfl
  · rw [hpost] at hv ⊢
    rw [← h.left i v hv w hw]
    refine (hback w v).trans (or_iff_left fun hnew' => ?_)
    obtain ⟨rfl, -⟩ := hnew'
    exact hnew (.inr (mem_of_getElem? hv))

/-- The last successor on the stack is explored already. -/
theorem SearchOk.skip
    (h : SearchOk blocks s roots ((v, p :: pending) :: rest)) (hp : s.exploration[p]? = some .done)
    (hstack : s.stack = p :: stack) : SearchOk blocks { s with stack } roots ((v, pending) :: rest) := by
  have hpost : p ∈ s.postOrder := (h.done p).mp hp
  have heq := h.stack_eq
  rw [hstack] at heq
  have hrest : FramesOk blocks { s with stack } [v] rest :=
    h.frames.2.mono (fun _ _ _ => Iff.rfl) (fun _ hw => hw) fun _ hw => .inl hw
  refine ⟨(cons_eq_cons.mp heq).2, h.phase, h.run, h.inProgress, h.done, ⟨⟨?_, ?_, ?_⟩, hrest⟩,
    h.back_visited, h.left⟩
  · exact fun q hq => h.frames.1.pushed q (.tail _ hq)
  · intro w hw
    rcases h.frames.1.covered w hw with hw | hw
    · rcases mem_cons.mp hw with rfl | hw
      · exact .inr (.inl hpost)
      · exact .inl hw
    · exact .inr hw
  · exact h.frames.1.back

/-- The block on the top of the stack is finished. -/
theorem SearchOk.finish (h : SearchOk blocks s roots ((v, []) :: rest)) (hstack : s.stack = v :: stack) :
    SearchOk blocks { s with
      stack
      exploration := s.exploration.insert v .done
      postOrder := s.postOrder ++ [v] } roots rest := by
  have hok := h.run.ok ok_nil
  have hframe := h.frames.1
  have heq := h.stack_eq
  rw [hstack] at heq
  have hv : v ∉ rest.map (·.1) ∧ v ∉ s.postOrder := by
    have hnodup := hok.nodup
    rw [map_cons, cons_append, nodup_cons, mem_append, not_or] at hnodup
    exact hnodup.1
  have hdisjoint : ∀ w ∈ v :: rest.map (·.1), w ∉ s.postOrder := fun w hw hdone =>
    (nodup_append.mp hok.nodup).2.2 w hw w hdone rfl
  have hall : ∀ w, Edge blocks v w → State.Visited ⟨v :: rest.map (·.1), s.postOrder⟩ w := by
    intro w hw
    rcases hframe.covered w hw with hw | hw | hw | hw
    · cases hw
    · exact .inr hw
    · exact .inl (hframe.back w hw)
    · cases hw
  have hget : ∀ w, (s.exploration.insert v Exploration.done)[w]? =
      if v = w then some .done else s.exploration[w]? := fun w => get_insert ..
  refine ⟨(cons_eq_cons.mp heq).2, ?_, h.run.tail (.leave hall), fun b => ?_, fun b => ?_, ?_,
    fun head b hb => ?_, fun i u hu w hw => ?_⟩
  · have hphase := h.phase
    cases hphase with
    | active hlast =>
      cases rest with
      | nil => exact .finished (by simpa using hlast)
      | cons f rest => exact .active (by simpa [List.getLast?_cons_cons] using hlast)
  · have hb := h.inProgress b
    rw [map_cons, mem_cons] at hb
    rw [hget]
    by_cases hvb : v = b
    · subst hvb
      simp [hv.1]
    · rw [if_neg hvb, hb]
      simp [Ne.symm hvb]
  · rw [hget, mem_append, ← h.done, mem_singleton]
    by_cases hvb : v = b
    · simp [hvb]
    · simp [hvb, Ne.symm hvb]
  · refine h.frames.2.mono (fun _ _ _ => Iff.rfl) (fun w hw => mem_append_left _ hw) fun w hw => ?_
    exact .inr (mem_append_right _ hw)
  · exact BTreeMap.mem_insert_iff.mpr (.inr (h.back_visited head b hb))
  · by_cases hi : i < s.postOrder.length
    · rw [List.getElem?_append_left hi] at hu
      simp only [take_append_of_le_length hi.le]
      exact h.left i u hu w hw
    · have hlen := (List.getElem?_eq_some_iff.mp hu).1
      rw [length_append, length_singleton] at hlen
      have hieq : i = s.postOrder.length := by omega
      subst hieq
      rw [List.getElem?_concat_length] at hu
      cases hu
      simp only [take_left]
      constructor
      · intro hback
        exact hdisjoint w (hframe.back w hback)
      · intro hnot
        rcases hframe.covered w hw with hw | hw | hw | hw
        · cases hw
        · exact absurd hw hnot
        · exact hw
        · cases hw

/-! ### The loop -/

/-- What unexplored blocks may still push. -/
def unexploredCost (blocks : BTreeMap Nat BasicBlock) (exploration : BTreeMap Nat Exploration) : Nat :=
  (blocks.toList.map fun b => if b.1 ∈ exploration then 0 else b.2.successors.length + 1).sum

theorem sum_map_add_le {l : List α} {f g : α → Nat}
    (hle : ∀ x ∈ l, f x ≤ g x) (ha : a ∈ l) (hd : f a + d ≤ g a) : (l.map f).sum + d ≤ (l.map g).sum := by
  induction l with
  | nil => cases ha
  | cons x rest ih =>
    have hx := hle x (.head _)
    have hrest : (rest.map f).sum ≤ (rest.map g).sum := sum_le_sum fun y hy => hle y (.tail _ hy)
    rw [map_cons, map_cons, sum_cons, sum_cons]
    rcases mem_cons.mp ha with rfl | ha
    · omega
    · have := ih (fun y hy => hle y (.tail _ hy)) ha
      omega

theorem unexploredCost_insert {exploration : BTreeMap Nat Exploration}
    (hbb : blocks[p]? = some bb) (hp : p ∉ exploration) (e : Exploration) :
    unexploredCost blocks (exploration.insert p e) + (bb.successors.length + 1) ≤
      unexploredCost blocks exploration := by
  refine sum_map_add_le (a := (p, bb)) (fun x _ => ?_) (mem_toList_iff.mpr hbb) ?_
  · by_cases hx : x.1 ∈ exploration
    · simp [hx]
    · split <;> omega
  · simp [hp]

def LoopSearch.cost (blocks : BTreeMap Nat BasicBlock) (s : LoopSearch) : Nat :=
  s.stack.length + unexploredCost blocks s.exploration

/-- One round of the loop goes on with a smaller search. -/
def Round (blocks : BTreeMap Nat BasicBlock) (s : LoopSearch) : Prop :=
  ∃ s' roots frames, (∀ fuel, searchLoop blocks (fuel + 1) s = searchLoop blocks fuel s') ∧
    SearchOk blocks s' roots frames ∧ s'.cost blocks < s.cost blocks

theorem SearchOk.explore_round (h : SearchOk blocks s roots frames) (frames' : List Frame)
    (hstack : s.stack = p :: frames'.flatMap fun f => f.2 ++ [f.1])
    (hp : s.exploration[p]? = none) (hmem : p ∈ blocks) (hactive : frames'.map (·.1) = frames.map (·.1))
    (hphase : (p :: frames.map (·.1)).getLast? = some entryBlockId)
    (hstep : Step (Edge blocks) (· = entryBlockId) ⟨frames.map (·.1), s.postOrder⟩
      ⟨p :: frames.map (·.1), s.postOrder⟩) (hframes : FramesOk blocks s [p] frames') : Round blocks s := by
  obtain ⟨bb, hbb⟩ := BTreeMap.mem_iff_get.mp hmem
  obtain ⟨pending, hok⟩ := h.explore hp hbb hactive hphase hstep hframes
  refine ⟨_, [], (p, pending) :: frames', fun fuel => ?_, hok, ?_⟩
  · rw [searchLoop]
    simp only [hstack, hp]
    rw [bind_unwrap hbb]
  · have hcost := unexploredCost_insert hbb (not_mem_iff_get.mpr hp) .inProgress
    obtain ⟨hexp, -, hstack', -⟩ := visitSuccessor_foldl p bb.successors { s with
      exploration := s.exploration.insert p .inProgress
      stack := p :: frames'.flatMap fun f => f.2 ++ [f.1] }
    have hpushed := length_filter_le (fun w =>
      (s.exploration.insert p Exploration.inProgress)[w]? = none) bb.successors
    unfold LoopSearch.cost
    rw [hexp, hstack', hstack]
    simp only [length_append, length_reverse, length_cons]
    omega

variable {code : List I}

theorem SearchOk.round (hok : BlocksOk code blocks) (h : SearchOk blocks s roots frames)
    (hne : s.stack ≠ []) : Round blocks s := by
  have hphase := h.phase
  generalize hpost : s.postOrder = done at hphase
  cases frames with
  | nil =>
    cases hphase with
    | start =>
      have hnew : s.exploration[entryBlockId]? = none := by
        cases hx : s.exploration[entryBlockId]? with
        | none => rfl
        | some e =>
          cases e with
          | inProgress => exact absurd ((h.inProgress _).mp hx) not_mem_nil
          | done =>
            have hdone := (h.done _).mp hx
            rw [hpost] at hdone
            cases hdone
      refine h.explore_round [] h.stack_eq hnew hok.entry rfl rfl ?_ trivial
      rw [hpost]
      exact .start rfl not_mem_nil
    | active hlast => cases hlast
    | finished hlast => exact absurd h.stack_eq hne
  | cons f rest =>
    obtain ⟨v, pending⟩ := f
    cases hphase with
    | active hlast =>
      have hstack := h.stack_eq
      rw [append_nil, flatMap_cons] at hstack
      cases pending with
      | nil =>
        have hv : s.exploration[v]? = some .inProgress := (h.inProgress v).mpr (.head _)
        have htop : s.stack = v :: rest.flatMap fun f => f.2 ++ [f.1] := hstack
        refine ⟨_, _, rest, fun fuel => ?_, h.finish htop, ?_⟩
        · rw [searchLoop]
          simp only [htop, hv]
        · have hexplored : v ∈ s.exploration := mem_of_get hv
          have hsame : unexploredCost blocks (s.exploration.insert v .done) =
              unexploredCost blocks s.exploration := by
            unfold unexploredCost
            congr 2
            funext b
            by_cases hb : v = b.1
            · simp [← hb, hexplored]
            · simp [hb]
          unfold LoopSearch.cost
          simp only [htop, hsame, length_cons]
          omega
      | cons p pending =>
        obtain ⟨hedge, hnot⟩ := h.frames.1.pushed p (.head _)
        cases hp : s.exploration[p]? with
        | none =>
          have hmem : p ∈ blocks := by
            obtain ⟨bb, hbb, hsucc⟩ := hedge
            exact hok.closed v bb hbb p hsucc
          refine h.explore_round ((v, pending) :: rest) hstack hp hmem rfl ?_
            (.enter hedge (h.unexplored hp)) ⟨⟨?_, ?_, h.frames.1.back⟩, ?_⟩
          · rw [map_cons, List.getLast?_cons_cons]
            exact hlast
          · exact fun q hq => h.frames.1.pushed q (.tail _ hq)
          · intro w hw
            rcases h.frames.1.covered w hw with hw | hw | hw | hw
            · rcases mem_cons.mp hw with rfl | hw
              · exact .inr (.inr (.inr (.head _)))
              · exact .inl hw
            · exact .inr (.inl hw)
            · exact .inr (.inr (.inl hw))
            · cases hw
          · exact h.frames.2.mono (fun _ _ _ => Iff.rfl) (fun _ hw => hw) fun w hw => .inl (by
              rw [mem_singleton.mp hw]
              exact (.head _) ..)
        | some e =>
          cases e with
          | inProgress => exact absurd ((h.inProgress p).mp hp) hnot
          | done =>
            have htop : s.stack = p :: ((v, pending) :: rest).flatMap fun f => f.2 ++ [f.1] := hstack
            refine ⟨_, _, (v, pending) :: rest, fun fuel => ?_, h.skip hp htop, ?_⟩
            · rw [searchLoop]
              simp only [htop, hp]
            · unfold LoopSearch.cost
              simp only [htop, length_cons]
              omega

/-- The search ends with every block it entered finished. -/
theorem searchLoop_spec (hok : BlocksOk code blocks) (hfuel : s.cost blocks < fuel)
    (h : SearchOk blocks s roots frames) : ∃ s', searchLoop blocks fuel s = .ok s' ∧ SearchOk blocks s' [] [] := by
  induction fuel generalizing s roots frames with
  | zero => omega
  | succ fuel ih =>
    by_cases hstack : s.stack = []
    · refine ⟨s, ?_, ?_⟩
      · rw [searchLoop]
        simp only [hstack]
        rfl
      · have heq := h.stack_eq
        rw [hstack, eq_comm, append_eq_nil_iff] at heq
        obtain ⟨hframes, rfl⟩ := heq
        cases frames with
        | nil => exact h
        | cons f rest => simp at hframes
    · obtain ⟨s', roots', frames', hround, hok', hcost⟩ := h.round hok hstack
      rw [hround]
      exact ih (by omega) hok'

theorem searchOk_start (blocks : BTreeMap Nat BasicBlock) :
    SearchOk blocks { stack := [entryBlockId] } [entryBlockId] [] := by
  refine ⟨rfl, .start, .refl, fun b => ?_, fun b => ?_, trivial, fun head b hb => ?_, fun i v hv => ?_⟩
  · simp
  · simp
  · simp [LoopSearch.Back] at hb
  · simp at hv

/-! ### The order of traversal -/

theorem successorsOf_get (hnodup : order.Nodup)
    (hb : order[i]? = some b) : (successorsOf order)[b]? = order[i + 1]? := by
  have hzip : ∀ x y, (x, y) ∈ order.zip order.tail ↔ ∃ k, order[k]? = some x ∧ order[k + 1]? = some y := by
    intro x y
    simp only [mem_iff_getElem?, List.getElem?_zip_eq_some, List.getElem?_tail]
  have hvalue : ∀ y, (successorsOf order)[b]? = some y → order[i + 1]? = some y := by
    intro y hy
    rcases get_foldl_insert _ _ _ _ hy with hempty | ⟨⟨x, y'⟩, hmem, rfl, rfl⟩
    · simp at hempty
    · obtain ⟨k, hk, hk'⟩ := (hzip x y').mp hmem
      have hki : k = i := by
        have hlt := (List.getElem?_eq_some_iff.mp hk).1
        exact (List.getElem?_inj hlt hnodup).mp (hk.trans hb.symm)
      exact hki ▸ hk'
  cases hget : (successorsOf order)[b]? with
  | some y => exact (hvalue y hget).symm
  | none =>
    cases hnext : order[i + 1]? with
    | none => rfl
    | some y =>
      have hin : b ∈ successorsOf order :=
        (mem_foldl_insert _ _ _ _ b).mpr (.inr (mem_map.mpr ⟨(b, y), (hzip b y).mpr ⟨i, hb, hnext⟩, rfl⟩))
      rw [BTreeMap.mem_iff_get, hget] at hin
      obtain ⟨_, hin⟩ := hin
      cases hin

/-- The order in which the blocks are walked. -/
structure Traversal (cfg : VMControlFlowGraph) (order : List Nat) : Prop where
  nodup : order.Nodup
  head : order.head? = some entryBlockId
  reachable : ∀ b, b ∈ order ↔ ReflTransGen (Edge cfg.blocks) entryBlockId b
  next : ∀ (i : Nat) (b : Nat), order[i]? = some b → cfg.nextBlock b = order[i + 1]?
  backEdge : ∀ (i : Nat) (b : Nat), order[i]? = some b → ∀ s, Edge cfg.blocks b s →
    (cfg.isBackEdge b s = true ↔ s ∈ order.take (i + 1))

theorem isBackEdge_iff (h : cfg.loopHeads = s.loopHeads) (b head : Nat) :
    cfg.isBackEdge b head = true ↔ s.Back head b := by
  unfold isBackEdge LoopSearch.Back
  rw [h]
  cases s.loopHeads[head]? <;> simp

theorem SearchOk.traversal (h : SearchOk blocks s [] []) :
    Traversal ⟨blocks, successorsOf s.postOrder.reverse, s.loopHeads⟩ s.postOrder.reverse := by
  have hok := h.run.ok ok_nil
  have hlast : s.postOrder.getLast? = some entryBlockId := by
    have hphase := h.phase
    generalize s.postOrder = done at hphase
    cases hphase with
    | active hlast => cases hlast
    | finished hlast => exact hlast
  have hnodup : s.postOrder.Nodup := hok.nodup
  have hentry : ∀ r, r = entryBlockId → r ∈ s.postOrder := fun r hr =>
    hr ▸ mem_of_getLast? hlast
  have hreach := hok.done_iff rfl hentry
  refine ⟨nodup_reverse.mpr hnodup, by rw [List.head?_reverse, hlast], fun b => ?_,
    fun i b hb => successorsOf_get (nodup_reverse.mpr hnodup) hb, fun i b hb w hw => ?_⟩
  · rw [mem_reverse]
    exact (hreach b).trans ⟨fun ⟨r, hr, hpath⟩ => hr ▸ hpath, fun hpath => ⟨_, rfl, hpath⟩⟩
  · -- What comes later in the traversal is finished before.
    have hlt := (List.getElem?_eq_some_iff.mp hb).1
    rw [length_reverse] at hlt
    have hb' : s.postOrder[s.postOrder.length - 1 - i]? = some b := by
      rwa [List.getElem?_reverse hlt] at hb
    rw [isBackEdge_iff rfl, h.left _ b hb' w hw]
    have hin : w ∈ s.postOrder := hok.done_of_reach rfl (mem_of_getElem? hb') (.single hw)
    have hsplit : s.postOrder.reverse.take (i + 1) = (s.postOrder.drop (s.postOrder.length - 1 - i)).reverse := by
      rw [take_reverse]
      congr 2
      omega
    rw [hsplit, mem_reverse]
    have hparts := take_append_drop (s.postOrder.length - 1 - i) s.postOrder
    constructor
    · intro hnot
      rw [← hparts] at hin
      exact (mem_append.mp hin).resolve_left hnot
    · intro hdrop htake
      rw [← hparts, nodup_append] at hnodup
      exact hnodup.2.2 w htake w hdrop rfl

/-- An edge that is not a back edge goes to a later block. -/
theorem Traversal.lt_of_forward (h : Traversal cfg order) (hb : b ∈ order) (he : Edge cfg.blocks b t)
    (hback : cfg.isBackEdge b t = false) : t ∈ order ∧ order.idxOf b < order.idxOf t := by
  have ht : t ∈ order := (h.reachable t).mpr (((h.reachable b).mp hb).tail he)
  refine ⟨ht, Nat.lt_of_not_le fun hle => ?_⟩
  have htake : t ∈ order.take (order.idxOf b + 1) := (mem_take_iff_idxOf_lt ht).mpr (by omega)
  rw [(h.backEdge _ b (getElem?_idxOf hb) t he).mpr htake] at hback
  cases hback

variable [Instruction I J] {jumpTables : J}

/-- **The control-flow graph of a body**: its blocks cover the code, and the order of
traversal goes over the blocks reachable from the entry, backwards only on back edges. -/
theorem new_spec (hne : code ≠ []) (hlen : code.length < 2 ^ 16) (htargets : TargetsInRange code jumpTables) :
    ∃ cfg order, new code jumpTables = .ok cfg ∧ BlocksOk code cfg.blocks ∧ Traversal cfg order := by
  obtain ⟨blockIds, blocks, hids, hblocks, hok⟩ := blocks_spec hne hlen htargets
  have hcost : LoopSearch.cost blocks { stack := [entryBlockId] } < searchFuel blocks := by
    have hall : unexploredCost blocks ∅ = (blocks.toList.map fun b => b.2.successors.length + 1).sum := by
      simp [unexploredCost]
    unfold LoopSearch.cost searchFuel
    rw [hall]
    simp only [length_singleton]
    omega
  obtain ⟨s, hsearch, hdone⟩ := searchLoop_spec hok hcost (searchOk_start blocks)
  refine ⟨⟨blocks, successorsOf s.postOrder.reverse, s.loopHeads⟩, s.postOrder.reverse, ?_, hok, hdone.traversal⟩
  unfold new
  rw [bind_ok hids, bind_ok hblocks]
  simp only
  rw [bind_require trivial, bind_ok hsearch]
  rfl

theorem length_lt_of_new (h : new code jumpTables = .ok cfg) : code.length < 2 ^ 16 := by
  obtain ⟨blockIds, hids, h⟩ := bind_eq_ok.mp h
  obtain ⟨p, hblocks, -⟩ := bind_eq_ok.mp h
  exact length_lt_of_run (entry_mem_blockIds hids (by simp)) hblocks

/-- **The graph of a body and its loops**: a body whose targets are in range has a graph just if its
offsets fit 16 bits. The walk goes over the reachable blocks once, and every cycle among them has a
back edge. -/
theorem new_loops (code : List I) (jumpTables : J) (hne : code ≠ []) (htargets : TargetsInRange code jumpTables) :
    ((∃ cfg, new code jumpTables = .ok cfg) ↔ code.length < 2 ^ 16) ∧
    ∀ cfg, new code jumpTables = .ok cfg → ∃ order, Traversal cfg order ∧
      ∀ b ∈ order, ¬TransGen (fun b s => Edge cfg.blocks b s ∧ cfg.isBackEdge b s = false) b b := by
  refine ⟨⟨fun h => length_lt_of_new h.choose_spec, fun hlen => ?_⟩, fun cfg hcfg => ?_⟩
  · obtain ⟨cfg, _, hcfg, -⟩ := new_spec hne hlen htargets
    exact ⟨cfg, hcfg⟩
  · obtain ⟨cfg', order, hcfg', -, htrav⟩ := new_spec hne (length_lt_of_new hcfg) htargets
    cases hcfg.symm.trans hcfg'
    refine ⟨order, htrav, fun b hb hcycle => ?_⟩
    have hforward : ∀ s, TransGen (fun b s => Edge cfg.blocks b s ∧ cfg.isBackEdge b s = false) b s →
        s ∈ order ∧ order.idxOf b < order.idxOf s := by
      intro s hs
      induction hs with
      | single he => exact htrav.lt_of_forward hb he.1 he.2
      | tail _ he ih =>
        obtain ⟨hs, hlt⟩ := htrav.lt_of_forward ih.1 he.1 he.2
        exact ⟨hs, ih.2.trans hlt⟩
    exact absurd (hforward b hcycle).2 (Nat.lt_irrefl _)

end VMControlFlowGraph

end Sui.Move
