import Mathlib

/-! Depth-first search.

A search enters nodes that it has not visited, along an edge from the node it entered
last, and leaves a node when all its successors are visited. Whatever the order in which
successors are tried, a successor of a node is left before it, or leads back to it
(`Run.ok`): without cycles the order of leaving is topological (`Ok.before`), and a
search that has left every node it entered has left what its roots reach
(`Ok.done_iff`). -/
namespace Sui.Lib.DepthFirst

open Relation (ReflTransGen TransGen)

variable {α : Type*} {E : α → α → Prop} {root : α → Prop}

/-- The nodes entered and not left yet, the last one first, and the nodes left, in order. -/
structure State (α : Type*) where
  active : List α
  done : List α

def State.Visited (s : State α) (v : α) : Prop := v ∈ s.active ∨ v ∈ s.done

inductive Step (E : α → α → Prop) (root : α → Prop) : State α → State α → Prop
  | start {v : α} {done : List α} (hroot : root v) (hnew : v ∉ done) :
      Step E root ⟨[], done⟩ ⟨[v], done⟩
  | enter {u v : α} {rest done : List α} (hedge : E u v)
      (hnew : ¬ State.Visited ⟨u :: rest, done⟩ v) :
      Step E root ⟨u :: rest, done⟩ ⟨v :: u :: rest, done⟩
  | leave {u : α} {rest done : List α}
      (hall : ∀ w, E u w → State.Visited ⟨u :: rest, done⟩ w) :
      Step E root ⟨u :: rest, done⟩ ⟨rest, done ++ [u]⟩

abbrev Run (E : α → α → Prop) (root : α → Prop) : State α → State α → Prop :=
  ReflTransGen (Step E root)

/-- What holds at every moment of a search. -/
structure Ok (E : α → α → Prop) (root : α → Prop) (s : State α) : Prop where
  nodup : (s.active ++ s.done).Nodup
  chain : s.active.IsChain fun v u => E u v
  rooted : ∀ v, s.Visited v → ∃ r, root r ∧ ReflTransGen E r v
  left : ∀ (i : Nat) (v : α), s.done[i]? = some v → ∀ w, E v w →
    s.Visited w ∧ (w ∈ s.done.take i ∨ ReflTransGen E w v)

theorem ok_nil : Ok E root ⟨[], []⟩ := by
  refine ⟨List.nodup_nil, List.IsChain.nil, fun v hv => ?_, fun i v hv => ?_⟩
  · simp [State.Visited] at hv
  · simp at hv

/-- Active nodes lead to the one entered last. -/
theorem reaches_top (h : (u :: rest).IsChain fun v u => E u v) (hw : w ∈ u :: rest) : ReflTransGen E w u := by
  induction rest generalizing u with
  | nil =>
    rw [List.mem_singleton.mp hw]
  | cons v rest ih =>
    obtain ⟨hedge, hrest⟩ := List.isChain_cons_cons.mp h
    rcases List.mem_cons.mp hw with rfl | hw
    · exact .refl
    · exact (ih hrest hw).tail hedge

/-- Visiting more keeps what is known of the nodes left. -/
theorem Ok.left_mono {s s' : State α} (h : Ok E root s) (hdone : s'.done = s.done)
    (hvisited : ∀ w, s.Visited w → s'.Visited w) (i : Nat) (v : α) (hv : s'.done[i]? = some v)
    (w : α) (hw : E v w) : s'.Visited w ∧ (w ∈ s'.done.take i ∨ ReflTransGen E w v) := by
  rw [hdone] at hv ⊢
  obtain ⟨hvis, hor⟩ := h.left i v hv w hw
  exact ⟨hvisited w hvis, hor⟩

theorem Step.ok {s s' : State α} (h : Step E root s s') (hs : Ok E root s) : Ok E root s' := by
  cases h with
  | @start v done hroot hnew =>
    have hgrow : ∀ w, State.Visited ⟨[], done⟩ w → State.Visited ⟨[v], done⟩ w := fun w hw =>
      .inr (hw.resolve_left List.not_mem_nil)
    refine ⟨?_, List.IsChain.singleton v, fun w hw => ?_, hs.left_mono rfl hgrow⟩
    · exact List.nodup_cons.mpr ⟨hnew, hs.nodup⟩
    · rcases hw with hw | hw
      · rw [List.mem_singleton.mp hw]
        exact ⟨v, hroot, .refl⟩
      · exact hs.rooted w (.inr hw)
  | @enter u v rest done hedge hnew =>
    have hgrow : ∀ w, State.Visited ⟨u :: rest, done⟩ w → State.Visited ⟨v :: u :: rest, done⟩ w :=
      fun w hw => hw.imp_left (List.mem_cons_of_mem v)
    refine ⟨?_, List.isChain_cons_cons.mpr ⟨hedge, hs.chain⟩, fun w hw => ?_, hs.left_mono rfl hgrow⟩
    · refine List.nodup_cons.mpr ⟨fun hmem => hnew ?_, hs.nodup⟩
      exact List.mem_append.mp hmem
    · have hold : w = v ∨ State.Visited ⟨u :: rest, done⟩ w := by
        rcases hw with hw | hw
        · exact (List.mem_cons.mp hw).imp_right .inl
        · exact .inr (.inr hw)
      rcases hold with rfl | hw
      · obtain ⟨r, hr, hreach⟩ := hs.rooted u (.inl (.head _))
        exact ⟨r, hr, hreach.tail hedge⟩
      · exact hs.rooted w hw
  | @leave u rest done hall =>
    have hsame : ∀ w, State.Visited ⟨rest, done ++ [u]⟩ w ↔ State.Visited ⟨u :: rest, done⟩ w := by
      intro w
      simp only [State.Visited, List.mem_append, List.mem_cons, List.not_mem_nil, or_false]
      tauto
    refine ⟨?_, hs.chain.tail, fun w hw => ?_, fun i v hv w hw => ⟨(hsame w).mpr ?_, ?_⟩⟩
    · have hperm : (rest ++ (done ++ [u])).Perm (u :: rest ++ done) := by
        rw [← List.append_assoc]
        exact List.perm_append_comm
      exact hperm.nodup_iff.mpr hs.nodup
    · exact hs.rooted w ((hsame w).mp hw)
    · by_cases hi : i < done.length
      · rw [List.getElem?_append_left hi] at hv
        exact (hs.left i v hv w hw).1
      · rw [List.getElem?_append_right (Nat.le_of_not_lt hi)] at hv
        rw [List.mem_singleton.mp (List.mem_of_getElem? hv)] at hw
        exact hall w hw
    · by_cases hi : i < done.length
      · rw [List.getElem?_append_left hi] at hv
        have htake : (done ++ [u]).take i = done.take i := List.take_append_of_le_length hi.le
        rw [htake]
        exact (hs.left i v hv w hw).2
      · -- The node that is left now: its successors are done, or active and lead to it.
        have hlen := (List.getElem?_eq_some_iff.mp hv).1
        rw [List.length_append, List.length_singleton] at hlen
        have hieq : i = done.length := by omega
        subst hieq
        rw [List.getElem?_concat_length] at hv
        cases hv
        rw [List.take_left']
        · exact (hall w hw).symm.imp_right (reaches_top hs.chain)
        · rfl

theorem Run.ok (h : Run E root s s') (hs : Ok E root s) : Ok E root s' := by
  induction h with
  | refl => exact hs
  | tail _ hstep ih => exact hstep.ok ih

/-- Without cycles a node is left after its successors. -/
theorem Ok.before (h : Ok E root s) (hacyclic : ∀ v, ¬ TransGen E v v) (hv : s.done[i]? = some v)
    (hw : E v w) : w ∈ s.done.take i := by
  rcases (h.left i v hv w hw).2 with hmem | hreach
  · exact hmem
  · exact absurd (TransGen.head' hw hreach) (hacyclic v)

theorem Ok.done_of_reach (h : Ok E root s) (hactive : s.active = [])
    (hv : v ∈ s.done) (hreach : ReflTransGen E v w) : w ∈ s.done := by
  induction hreach with
  | refl => exact hv
  | tail _ hedge ih =>
    obtain ⟨i, hi⟩ := List.mem_iff_getElem?.mp ih
    have hvis := (h.left i _ hi _ hedge).1
    rw [State.Visited, hactive] at hvis
    exact hvis.resolve_left List.not_mem_nil

/-- A finished search has left what the roots it started from reach. -/
theorem Ok.done_iff (h : Ok E root s) (hactive : s.active = [])
    (hroots : ∀ r, root r → r ∈ s.done) (v : α) : v ∈ s.done ↔ ∃ r, root r ∧ ReflTransGen E r v := by
  constructor
  · intro hv
    exact h.rooted v (.inr hv)
  · intro ⟨r, hr, hreach⟩
    exact h.done_of_reach hactive (hroots r hr) hreach

end Sui.Lib.DepthFirst
