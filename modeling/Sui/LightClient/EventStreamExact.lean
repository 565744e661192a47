import Sui.LightClient.EventStream

/-! What the stream of authenticated events delivers.

The chain settles the events of a stream in batches (`EventChain`), and the stream's head
after a checkpoint has every batch so far as a leaf (`EventChain.head`). The client knows
true heads only. A batch that it verifies has the chain's events since the checkpoint it
verified last (`verifyEvents_eq_ok`), provided that all its events are after that one: the others are neither
compared with the head nor dropped, and a batch that ends with one is not verified at all.

`authenticated_events_exact`: if the events that each page completes are after the checkpoint
verified last, the events delivered are at every moment exactly the chain's.
`stale_event_delivered` is a run in which the server has the client deliver an event that the
chain does not have. -/
namespace Sui.LightClient

open Sui.Lib Sui.Lib.Exec List

/-! ### The chain -/

/-- A batch of events that is settled as one leaf. -/
structure Settlement (τ : Type) where
  checkpoint : CheckpointSequenceNumber
  events : List (AuthenticatedEvent τ)
  nonempty : events ≠ []
  same : ∀ event ∈ events, event.checkpoint = checkpoint

/-- The settlements of a stream, in order. -/
structure EventChain (τ : Type) where
  settlements : List (Settlement τ)
  sorted : settlements.Pairwise fun first second => first.checkpoint ≤ second.checkpoint

section Exact
variable {τ : Type} (library : EventLibrary τ) (chain : EventChain τ)

def Settlement.commitments (settlement : Settlement τ) : List EventCommitment :=
  settlement.events.map (AuthenticatedEvent.commitment library)

def Settlement.root (settlement : Settlement τ) : Nat :=
  library.buildEventMerkleRoot (settlement.commitments library)

namespace EventChain

def upTo (checkpoint : CheckpointSequenceNumber) : List (Settlement τ) :=
  chain.settlements.filter fun settlement => settlement.checkpoint ≤ checkpoint

/-- The settlements after one checkpoint, up to another. -/
def between (first last : CheckpointSequenceNumber) : List (Settlement τ) :=
  chain.settlements.filter fun settlement =>
    first < settlement.checkpoint ∧ settlement.checkpoint ≤ last

def events (first last : CheckpointSequenceNumber) : List (AuthenticatedEvent τ) :=
  (chain.between first last).flatMap Settlement.events

/-- The head after a checkpoint. -/
def head (checkpoint : CheckpointSequenceNumber) : EventStreamHead where
  mmr := Mmr.addAll 0 library.hashTwoToOneU256 [] ((chain.upTo checkpoint).map (Settlement.root library))
  checkpointSeq := (((chain.upTo checkpoint).getLast?).map Settlement.checkpoint).getD 0
  numEvents := ((chain.upTo checkpoint).map fun settlement => settlement.events.length).sum

end EventChain

/-- A list sorted by a key is split by a bound. -/
theorem filter_le_append_filter_lt (key : α → Nat) (bound : Nat) {l : List α}
    (hsorted : l.Pairwise fun a b => key a ≤ key b) :
    l.filter (fun a => key a ≤ bound) ++ l.filter (fun a => bound < key a) = l := by
  induction l with
  | nil => rfl
  | cons a l ih =>
    obtain ⟨hfirst, hrest⟩ := pairwise_cons.mp hsorted
    by_cases ha : key a ≤ bound
    · rw [filter_cons_of_pos (by simpa using ha), filter_cons_of_neg (by simpa using ha), cons_append, ih hrest]
    · have hnone : l.filter (fun a => key a ≤ bound) = [] := by
        refine filter_eq_nil_iff.mpr fun b hb => ?_
        have := hfirst b hb
        simp only [decide_eq_true_eq]
        omega
      have hall : l.filter (fun a => bound < key a) = l := by
        refine filter_eq_self.mpr fun b hb => ?_
        have := hfirst b hb
        simp only [decide_eq_true_eq]
        omega
      rw [filter_cons_of_neg (by simpa using ha), filter_cons_of_pos (by simpa using ha), hnone, hall, nil_append]

namespace EventChain
variable {chain} {first middle last : CheckpointSequenceNumber}

theorem upTo_append (h : first ≤ last) : chain.upTo first ++ chain.between first last = chain.upTo last := by
  have hsplit := filter_le_append_filter_lt Settlement.checkpoint first
    (chain.sorted.filter fun settlement => settlement.checkpoint ≤ last)
  simp only [filter_filter] at hsplit
  rw [upTo, upTo, ← hsplit, between]
  congr 2
  · funext settlement
    simp only [← Bool.decide_and, decide_eq_decide]
    exact ⟨fun hle => ⟨hle, hle.trans h⟩, And.left⟩
  · funext settlement
    simp only [← Bool.decide_and]

theorem events_append (h : first ≤ middle) (h' : middle ≤ last) :
    chain.events first middle ++ chain.events middle last = chain.events first last := by
  have hsplit := filter_le_append_filter_lt Settlement.checkpoint middle
    (chain.sorted.filter fun settlement => first < settlement.checkpoint ∧ settlement.checkpoint ≤ last)
  simp only [filter_filter] at hsplit
  rw [events, events, events, ← flatMap_append, between, between, between, ← hsplit]
  congr 3
  · funext settlement
    simp only [← Bool.decide_and, decide_eq_decide]
    exact ⟨fun ⟨hfirst, hmiddle⟩ => ⟨hmiddle, hfirst, hmiddle.trans h'⟩,
      fun ⟨hmiddle, hfirst, _⟩ => ⟨hfirst, hmiddle⟩⟩
  · funext settlement
    simp only [← Bool.decide_and, decide_eq_decide]
    exact ⟨fun ⟨hmiddle, hlast⟩ => ⟨hmiddle, h.trans_lt hmiddle, hlast⟩,
      fun ⟨hmiddle, _, hlast⟩ => ⟨hmiddle, hlast⟩⟩

theorem events_self : chain.events first first = [] := by
  have hnone : chain.between first first = [] := by
    refine filter_eq_nil_iff.mpr fun settlement _ => ?_
    rw [decide_eq_true_eq]
    exact fun ⟨hlt, hle⟩ => absurd hle hlt.not_ge
  rw [events, hnone, flatMap_nil]

end EventChain

/-! ### What the client computes -/

/-- Collision resistance, of the hash functions on what they are applied to. -/
structure EventLibrary.Binding : Prop where
  mmr : Mmr.Binding 0 library.hashTwoToOneU256
  root_injective : ∀ events events' : List EventCommitment, events ≠ [] → events' ≠ [] →
    library.buildEventMerkleRoot events = library.buildEventMerkleRoot events' → events = events'
  root_ne_zero : ∀ events : List EventCommitment, events ≠ [] → library.buildEventMerkleRoot events ≠ 0
  digest_injective : Function.Injective library.digest

variable {library chain}

theorem EventLibrary.Binding.commitment_injective (h : library.Binding) :
    Function.Injective (AuthenticatedEvent.commitment library) := by
  intro event event' heq
  obtain ⟨contents, checkpoint, offset, index⟩ := event
  obtain ⟨contents', checkpoint', offset', index'⟩ := event'
  simp only [AuthenticatedEvent.commitment, EventCommitment.mk.injEq] at heq
  obtain ⟨rfl, rfl, rfl, hdigest⟩ := heq
  rw [h.digest_injective hdigest]

theorem applyBatch_eq_ok {head head' : EventStreamHead} {batch : List EventCommitment}
    (h : applyBatch library head batch = .ok head') :
    batch ≠ [] ∧ head'.mmr = Mmr.add 0 library.hashTwoToOneU256 head.mmr (library.buildEventMerkleRoot batch) := by
  unfold applyBatch at h
  split at h
  · cases h
  · obtain ⟨_, -, h⟩ := bind_eq_ok.mp h
    obtain ⟨_, -, h⟩ := bind_eq_ok.mp h
    obtain ⟨_, -, h⟩ := bind_eq_ok.mp h
    cases h
    exact ⟨cons_ne_nil _ _, rfl⟩

variable {batches : List (List EventCommitment)} {events : List (AuthenticatedEvent τ)}
  {session : Session τ}

theorem applyStreamUpdates_eq_ok {head head' : EventStreamHead}
    (h : applyStreamUpdates library head batches = .ok head') :
    (∀ batch ∈ batches, batch ≠ []) ∧
      head'.mmr = Mmr.addAll 0 library.hashTwoToOneU256 head.mmr (batches.map library.buildEventMerkleRoot) := by
  induction batches generalizing head with
  | nil =>
    cases h
    exact ⟨nofun, rfl⟩
  | cons batch batches ih =>
    obtain ⟨next, hnext, h⟩ := bind_eq_ok.mp h
    obtain ⟨hbatch, hmmr⟩ := applyBatch_eq_ok hnext
    obtain ⟨hbatches, hrest⟩ := ih h
    refine ⟨forall_mem_cons.mpr ⟨hbatch, hbatches⟩, ?_⟩
    rw [hrest, hmmr]
    rfl

theorem Buckets.flatten_push (buckets : Buckets) (key : Nat × Nat) (settlements : List (Nat × Nat))
    (commitment : EventCommitment) :
    (buckets.push key settlements commitment).batches.flatten = buckets.batches.flatten ++ [commitment] := by
  unfold push
  split
  · unfold batches
    rw [if_neg (append_ne_nil_of_right_ne_nil _ (cons_ne_nil _ _))]
    split
    · rename_i hempty
      have hempty : buckets.currentBatch = [] := hempty
      simp [hempty]
    · simp
  · show (if [commitment] = [] then _ else buckets.batches ++ [[commitment]]).flatten = _
    rw [if_neg (cons_ne_nil _ _)]
    simp

/-- Grouping drops no event after the checkpoint verified last. -/
theorem foldlM_bucketEvent (hfresh : ∀ event ∈ events, lastVerifiedCheckpoint < event.checkpoint)
    (h : events.foldlM (bucketEvent library lastVerifiedCheckpoint) buckets = .ok buckets') :
    buckets'.batches.flatten = buckets.batches.flatten ++ events.map (AuthenticatedEvent.commitment library) := by
  induction events generalizing buckets with
  | nil =>
    cases h
    exact (append_nil _).symm
  | cons event events ih =>
    obtain ⟨hlt, hfresh⟩ := forall_mem_cons.mp hfresh
    obtain ⟨next, hnext, h⟩ := bind_eq_ok.mp h
    unfold bucketEvent at hnext
    rw [if_neg hlt.not_ge] at hnext
    split at hnext
    · cases hnext
    · split at hnext
      · cases hnext
        rw [ih hfresh h, Buckets.flatten_push, map_cons, append_assoc, singleton_append]
      · cases hnext

/-! ### Verified batches -/

/-- Settlements up to the checkpoint verified last are in the head that the client has. The
others are those that it has skipped at the start. -/
def Folded (chain : EventChain τ) (library : EventLibrary τ) (checkpoint : CheckpointSequenceNumber)
    (head : EventStreamHead) : Prop :=
  ∃ folded skipped, chain.upTo checkpoint = folded ++ skipped ∧
    head.mmr = Mmr.addAll 0 library.hashTwoToOneU256 [] (folded.map (Settlement.root library))

theorem Folded.head (checkpoint : CheckpointSequenceNumber) :
    Folded chain library checkpoint (chain.head library checkpoint) :=
  ⟨chain.upTo checkpoint, [], (append_nil _).symm, rfl⟩

theorem Folded.new : Folded chain library 0 .new := ⟨[], chain.upTo 0, rfl, rfl⟩

theorem Settlement.commitments_ne_nil (settlement : Settlement τ) :
    settlement.commitments library ≠ [] := fun h => settlement.nonempty (map_eq_nil_iff.mp h)

theorem map_injective_of_mem {f : α → β} {l l' : List α}
    (hf : ∀ a ∈ l, ∀ b ∈ l', f a = f b → a = b) (h : l.map f = l'.map f) : l = l' := by
  induction l generalizing l' with
  | nil => exact (map_eq_nil_iff.mp h.symm).symm
  | cons a l ih =>
    cases l' with
    | nil => cases h
    | cons b l' =>
      obtain ⟨hfirst, hrest⟩ := List.cons.inj h
      rw [hf a mem_cons_self b mem_cons_self hfirst]
      rw [ih (fun a ha b hb => hf a (.tail _ ha) b (.tail _ hb)) hrest]

/-- Batches that lead from the head of one checkpoint to that of another are those of the
settlements between them, if their events are after the first one. -/
theorem Folded.events_eq (h : library.Binding) {first last : CheckpointSequenceNumber}
    {head : EventStreamHead} (hfolded : Folded chain library first head) (hle : first ≤ last)
    (hbatches : ∀ batch ∈ batches, batch ≠ []) (hafter : ∀ event ∈ events, first < event.checkpoint)
    (hflatten : batches.flatten = events.map (AuthenticatedEvent.commitment library))
    (hmmr : Mmr.addAll 0 library.hashTwoToOneU256 head.mmr (batches.map library.buildEventMerkleRoot) =
      (chain.head library last).mmr) : events = chain.events first last := by
  obtain ⟨folded, skipped, hsplit, hhead⟩ := hfolded
  have hroots : batches.map library.buildEventMerkleRoot =
      (skipped ++ chain.between first last).map (Settlement.root library) := by
    apply Mmr.addAll_injective h.mmr
    · intro root hroot
      obtain ⟨batch, hbatch, rfl⟩ := mem_map.mp hroot
      exact h.root_ne_zero batch (hbatches batch hbatch)
    · intro root hroot
      obtain ⟨settlement, -, rfl⟩ := mem_map.mp hroot
      exact h.root_ne_zero _ settlement.commitments_ne_nil
    · rw [hmmr, EventChain.head, ← EventChain.upTo_append hle, hsplit, hhead, append_assoc, map_append]
      exact foldl_append
  have hsame : batches = (skipped ++ chain.between first last).map (Settlement.commitments library) := by
    refine map_injective_of_mem (fun batch hbatch other hother heq => ?_) (hroots.trans map_map.symm)
    obtain ⟨settlement, -, rfl⟩ := mem_map.mp hother
    exact h.root_injective _ _ (hbatches batch hbatch) settlement.commitments_ne_nil heq
  have hall : events = (skipped ++ chain.between first last).flatMap Settlement.events := by
    apply h.commitment_injective.list_map
    rw [← hflatten, hsame, map_flatMap]
    rfl
  -- A settlement that was skipped would be before the first checkpoint, with its events.
  have hskipped : skipped = [] := by
    refine eq_nil_iff_forall_not_mem.mpr fun settlement hsettlement => ?_
    obtain ⟨event, hevent⟩ := exists_mem_of_ne_nil _ settlement.nonempty
    have hlt := hafter event (hall ▸ mem_flatMap.mpr ⟨settlement, mem_append_left _ hsettlement, hevent⟩)
    have hmem : settlement ∈ chain.upTo first := hsplit ▸ mem_append_right _ hsettlement
    rw [settlement.same event hevent] at hlt
    exact absurd (of_decide_eq_true (mem_filter.mp hmem).2) hlt.not_ge
  rw [hall, hskipped, nil_append]
  rfl

/-- A fetch goes on to a later checkpoint, with the batch that the chain has up to it. -/
structure Advances (library : EventLibrary τ) (chain : EventChain τ) (state state' : EventStreamState τ)
    (batch : List (AuthenticatedEvent τ)) : Prop where
  le : state.lastVerifiedCheckpoint ≤ state'.lastVerifiedCheckpoint
  folded : Folded chain library state'.lastVerifiedCheckpoint (state'.verifiedStreamHead.getD .new)
  batch_eq : batch = chain.events state.lastVerifiedCheckpoint state'.lastVerifiedCheckpoint

namespace EventStreamState
variable (h : library.Binding) {state : EventStreamState τ} {answers : BatchAnswers}
  (hheads : ∀ c head, answers.streamHead c = .ok head → head = chain.head library c)
  (hfolded : Folded chain library state.lastVerifiedCheckpoint (state.verifiedStreamHead.getD .new))
include h hheads hfolded

/-- What an accepted comparison shows. -/
theorem verifyEvents_eq_ok {checkpoint : CheckpointSequenceNumber} (hlt : state.lastVerifiedCheckpoint < checkpoint)
    (hfresh : ∀ event ∈ events, state.lastVerifiedCheckpoint < event.checkpoint)
    (hverify : state.verifyEvents library checkpoint events answers = .ok state') :
    Advances library chain state state' events := by
  unfold verifyEvents at hverify
  rw [if_neg hlt.not_ge] at hverify
  obtain ⟨settlements, -, hverify⟩ := bind_eq_ok.mp hverify
  obtain ⟨batches, hbatches, hverify⟩ := bind_eq_ok.mp hverify
  obtain ⟨newHead, hnew, hverify⟩ := bind_eq_ok.mp hverify
  obtain ⟨_, -, hverify⟩ := bind_eq_ok.mp hverify
  obtain ⟨computed, hcomputed, hverify⟩ := bind_eq_ok.mp hverify
  obtain ⟨_, hmmr, hverify⟩ := bind_eq_ok.mp hverify
  obtain ⟨_, -, hverify⟩ := bind_eq_ok.mp hverify
  obtain ⟨_, -, hverify⟩ := bind_eq_ok.mp hverify
  cases hverify
  obtain rfl := hheads checkpoint newHead (mapError_eq_ok.mp hnew)
  obtain ⟨hnonempty, hfold⟩ := applyStreamUpdates_eq_ok hcomputed
  obtain ⟨buckets, hbuckets, hbatches⟩ := bind_eq_ok.mp hbatches
  cases hbatches
  refine ⟨hlt.le, .head checkpoint, ?_⟩
  exact hfolded.events_eq h hlt.le hnonempty hfresh (foldlM_bucketEvent hfresh hbuckets)
    (hfold.symm.trans (require_eq_ok.mp hmmr))

/-- A fetch that drains later events only. -/
theorem fetch_advances (hfresh : ∀ page, readFrames (convertEvent library) answers.events = .ok page →
      ∀ event ∈ (drainCompleteCheckpoints (state.unverifiedBuffer ++ page.items) page.scanIncomplete).1,
        state.lastVerifiedCheckpoint < event.checkpoint) :
    Advances library chain state (state.fetchAndVerifyNextBatch library answers).1
      ((state.fetchAndVerifyNextBatch library answers).2.toOption.getD []) := by
  have hstay : Advances library chain state state [] := ⟨le_rfl, hfolded, EventChain.events_self.symm⟩
  unfold fetchAndVerifyNextBatch
  split
  · exact hstay
  · rename_i page hpage
    have hfresh := hfresh page hpage
    dsimp only
    split
    · exact ⟨hstay.le, hstay.folded, hstay.batch_eq⟩
    · rename_i last hlast
      split
      · rename_i hlt
        split
        · exact ⟨hstay.le, hstay.folded, hstay.batch_eq⟩
        · rename_i state' hverify
          obtain ⟨hle, hfolded, hbatch⟩ := verifyEvents_eq_ok h hheads (by exact hfolded) hlt hfresh hverify
          exact ⟨hle, hfolded, hbatch⟩
      · rename_i hle
        exact absurd (hfresh last (mem_of_getLast? hlast)) hle

end EventStreamState

/-! ### Runs -/

/-- What has been delivered, with the rest of the batch, is what the chain has. -/
def Exact (chain : EventChain τ) (start : CheckpointSequenceNumber) (session : Session τ) : Prop :=
  session.yielded ++ session.pending = chain.events start session.state.lastVerifiedCheckpoint

/-- The client's head is true and it has not gone back, and what it delivers is exact. -/
structure Trusted (library : EventLibrary τ) (chain : EventChain τ) (start : CheckpointSequenceNumber)
    (session : Session τ) : Prop where
  start_le : start ≤ session.state.lastVerifiedCheckpoint
  folded : Folded chain library session.state.lastVerifiedCheckpoint
    (session.state.verifiedStreamHead.getD .new)
  exact : Exact chain start session

/-- Of the events held back and those of the server's page, all that are drained are after the
checkpoint verified last. -/
def Fresh (library : EventLibrary τ) (session : Session τ) : Action → Prop
  | .fetch answers => ¬session.stopped → session.pending = [] → ∀ page,
      readFrames (convertEvent library) answers.events = .ok page →
      ∀ event ∈ (EventStreamState.drainCompleteCheckpoints (session.state.unverifiedBuffer ++ page.items)
        page.scanIncomplete).1, session.state.lastVerifiedCheckpoint < event.checkpoint
  | .send _ => True

/-- The heads that the client is given are the chain's. -/
def TrueHeads (library : EventLibrary τ) (chain : EventChain τ) : Action → Prop
  | .fetch answers => ∀ c head, answers.streamHead c = .ok head → head = chain.head library c
  | .send _ => True

/-- Streams that the client opens, given true heads. -/
inductive Opened (library : EventLibrary τ) (chain : EventChain τ) (session : Session τ) : Prop
  | current (getObject : Reply (Except ClientError EventStreamHead))
      (streamHead : CheckpointSequenceNumber → Except ClientError EventStreamHead)
      (heads : ∀ c head, streamHead c = .ok head → head = chain.head library c)
      (eq_ok : streamEvents getObject streamHead = .ok session)
  | fromCheckpoint (checkpoint : CheckpointSequenceNumber)
      (streamHead : CheckpointSequenceNumber → Except ClientError EventStreamHead)
      (heads : ∀ c head, streamHead c = .ok head → head = chain.head library c)
      (eq_ok : streamEventsFromCheckpoint checkpoint streamHead = .ok session)

/-- A stream starts from the beginning, or after a checkpoint with its head. -/
theorem Opened.cases (h : Opened library chain session) :
    session = createEventStreamWithHead 0 none ∨ ∃ checkpoint,
      session = createEventStreamWithHead (checkpoint + 1) (some (chain.head library checkpoint)) := by
  have hafter : ∀ {checkpoint : CheckpointSequenceNumber} {head : EventStreamHead},
      head = chain.head library checkpoint →
      (checkpointAfter checkpoint >>= fun start => pure (createEventStreamWithHead start (some head))) =
        Except.ok session → ∃ checkpoint,
      session = createEventStreamWithHead (checkpoint + 1) (some (chain.head library checkpoint)) := by
    intro checkpoint head hhead heq
    obtain ⟨start, hstart, heq⟩ := bind_eq_ok.mp heq
    obtain ⟨_, -, hstart⟩ := bind_eq_ok.mp hstart
    cases hstart
    rw [hhead] at heq
    exact ⟨checkpoint, (pure_eq_ok.mp heq).symm⟩
  cases h with
  | current getObject streamHead heads eq_ok =>
    obtain ⟨current, hcurrent, eq_ok⟩ := bind_eq_ok.mp eq_ok
    cases current with
    | none =>
      cases eq_ok
      exact .inl rfl
    | some current =>
      unfold fetchCurrentStreamHeadAndVerify at hcurrent
      split at hcurrent
      · cases hcurrent
      · cases hcurrent
      · obtain ⟨reported, -, hcurrent⟩ := bind_eq_ok.mp hcurrent
        obtain ⟨head, hhead, hcurrent⟩ := bind_eq_ok.mp hcurrent
        cases hcurrent
        exact .inr (hafter (heads _ head (mapError_eq_ok.mp hhead)) eq_ok)
  | fromCheckpoint checkpoint streamHead heads eq_ok =>
    unfold streamEventsFromCheckpoint at eq_ok
    split at eq_ok
    · cases eq_ok
      exact .inl rfl
    · obtain ⟨head, hhead, eq_ok⟩ := bind_eq_ok.mp eq_ok
      exact .inr (hafter (heads _ head (mapError_eq_ok.mp hhead)) eq_ok)

theorem Opened.trusted (h : Opened library chain session) :
    Trusted library chain session.state.lastVerifiedCheckpoint session := by
  rcases h.cases with rfl | ⟨checkpoint, rfl⟩
  · exact ⟨le_rfl, .new, EventChain.events_self.symm⟩
  · exact ⟨le_rfl, .head checkpoint, EventChain.events_self.symm⟩

/-- Sending moves one event at most. -/
theorem Session.step_send (library : EventLibrary τ) (session : Session τ) (received : Bool) :
    (session.step library (.send received)).state = session.state ∧
      (session.step library (.send received)).yielded ++ (session.step library (.send received)).pending =
        session.yielded ++ session.pending := by
  unfold step
  dsimp only
  split
  · exact ⟨rfl, rfl⟩
  · rename_i event pending hpending
    split
    · exact ⟨rfl, rfl⟩
    · split
      · rw [hpending]
        exact ⟨rfl, append_assoc _ _ _⟩
      · exact ⟨rfl, rfl⟩

theorem Session.accept_eq {session : Session τ} (hpending : session.pending = []) (state : EventStreamState τ)
    (result : Except StreamError (List (AuthenticatedEvent τ))) :
    (session.accept state result).state = state ∧
      (session.accept state result).yielded ++ (session.accept state result).pending =
        session.yielded ++ result.toOption.getD [] := by
  cases result with
  | ok batch => exact ⟨rfl, rfl⟩
  | error error => exact ⟨rfl, congrArg (session.yielded ++ ·) hpending⟩

theorem Trusted.step (h : library.Binding) (ht : Trusted library chain start session)
    (hheads : TrueHeads library chain action) (hfresh : Fresh library session action) :
    Trusted library chain start (session.step library action) := by
  obtain ⟨hstart, hfolded, hexact⟩ := ht
  cases action with
  | fetch answers =>
    by_cases hbusy : session.stopped ∨ session.pending ≠ []
    · have hstay : session.step library (.fetch answers) = session := if_pos hbusy
      rw [hstay]
      exact ⟨hstart, hfolded, hexact⟩
    · obtain ⟨hrunning, hpending⟩ := not_or.mp hbusy
      have hpending := not_not.mp hpending
      obtain ⟨hle, hfolded, hbatch⟩ := EventStreamState.fetch_advances h hheads hfolded (hfresh hrunning hpending)
      have hfetch : session.step library (.fetch answers) = session.accept
          (session.state.fetchAndVerifyNextBatch library answers).1
          (session.state.fetchAndVerifyNextBatch library answers).2 := if_neg hbusy
      rw [hfetch]
      generalize session.state.fetchAndVerifyNextBatch library answers = fetched at hle hfolded hbatch ⊢
      obtain ⟨hstate, hevents⟩ := session.accept_eq hpending fetched.1 fetched.2
      refine ⟨by rw [hstate]; exact hstart.trans hle, by rw [hstate]; exact hfolded, ?_⟩
      rw [Exact, hpending, append_nil] at hexact
      rw [Exact, hevents, hstate, hbatch, hexact]
      exact EventChain.events_append hstart hle
  | send received =>
    obtain ⟨hstate, hevents⟩ := session.step_send library received
    refine ⟨hstate ▸ hstart, hstate ▸ hfolded, ?_⟩
    rw [Exact, hstate, hevents]
    exact hexact

/-- **Authenticated events.** Let the heads be true and hashing be collision resistant, and let
no page complete an event at or before the checkpoint verified last. Then at every moment of a
run the events delivered, with the rest of the batch being delivered, are those of the chain
from the start to the checkpoint verified last, in order. -/
theorem authenticated_events_exact (h : library.Binding) {session : Session τ}
    (hopened : Opened library chain session) (actions : List Action)
    (hheads : ∀ action ∈ actions, TrueHeads library chain action)
    (hfresh : ∀ moment action, moment ++ [action] <+: actions → Fresh library (session.run library moment) action) :
    ∀ moment, moment <+: actions →
      Exact chain session.state.lastVerifiedCheckpoint (session.run library moment) := by
  intro moment hmoment
  suffices h : Trusted library chain session.state.lastVerifiedCheckpoint (session.run library moment) from h.exact
  induction moment using List.reverseRecOn with
  | nil => exact hopened.trusted
  | append_singleton done action ih =>
    have hrun : session.run library (done ++ [action]) = (session.run library done).step library action :=
      foldl_append
    rw [hrun]
    exact (ih ((prefix_append done [action]).trans hmoment)).step h (hheads action (hmoment.subset (by simp)))
      (hfresh done action hmoment)

end Exact

/-! ### A chain with one event -/

namespace OneEvent

def digest (event : Event Unit) : Nat :=
  Encodable.encode (event.packageId, event.transactionModule.toList.map Char.toNat, event.sender,
    event.contents.map UInt8.toNat)

/-- Hash functions that show what they are of. -/
def library : EventLibrary Unit where
  packageId _ := some 0
  identifier name := some name
  address _ := some 0
  structTag _ := some ()
  digest := digest
  buildEventMerkleRoot events := Encodable.encode (events.map fun event =>
    (event.checkpointSeq, event.transactionIdx, event.eventIdx, event.digest)) + 1
  hashTwoToOneU256 left right := Nat.pair left right + 1

theorem binding : library.Binding where
  mmr := by
    constructor
    · intro left right left' right' heq
      exact Nat.pair_eq_pair.mp (Nat.succ.inj heq)
    · intro left right
      exact Nat.succ_ne_zero _
  root_injective events events' _ _ heq := by
    refine map_injective_iff.mpr (fun event event' h => ?_) (Encodable.encode_injective (Nat.succ.inj heq))
    cases event
    cases event'
    simpa using h
  root_ne_zero events _ := Nat.succ_ne_zero _
  digest_injective := by
    intro event event' heq
    obtain ⟨package, name, sender, type, contents⟩ := event
    obtain ⟨package', name', sender', type', contents'⟩ := event'
    have heq := Encodable.encode_injective heq
    simp only [Prod.mk.injEq] at heq
    obtain ⟨rfl, hname, rfl, hcontents⟩ := heq
    have hname := String.toList_inj.mp (map_injective_iff.mpr (fun _ _ h => Char.toNat_inj.mp h) hname)
    have hcontents := map_injective_iff.mpr (fun _ _ h => UInt8.toNat_inj.mp h) hcontents
    rw [hname, hcontents]

/-- An event at a checkpoint, with contents. -/
def event (checkpoint : CheckpointSequenceNumber) (contents : Bytes) : AuthenticatedEvent Unit :=
  ⟨⟨0, "", 0, (), contents⟩, checkpoint, 0, 0⟩

def item (event : AuthenticatedEvent Unit) : EventItem :=
  ⟨some ⟨some "", some "", some "", some "", some (some event.event.contents)⟩, some event.checkpoint,
    some event.transactionOffset, some event.eventIndex⟩

def chain : EventChain Unit where
  settlements := [⟨5, [event 5 [1]], cons_ne_nil _ _, by simp [event]⟩]
  sorted := pairwise_singleton _ _

/-- An event, and a settlement at its checkpoint. -/
def answers (event : AuthenticatedEvent Unit) : BatchAnswers where
  events := .ok [.ok (.item none (item event)), .ok (.end (some .ledgerTip))]
  settlements := [.ok [.ok (.item none ⟨some event.checkpoint, some 1⟩)]]
  streamHead c := .ok (chain.head library c)

theorem opened (checkpoint : CheckpointSequenceNumber) (h : checkpoint + 1 < 2 ^ 64) (h0 : checkpoint ≠ 0) :
    Opened library chain (createEventStreamWithHead (checkpoint + 1) (some (chain.head library checkpoint))) := by
  refine .fromCheckpoint checkpoint (fun c => .ok (chain.head library c)) (fun _ _ heq => by cases heq; rfl) ?_
  unfold streamEventsFromCheckpoint checkpointAfter
  rw [if_neg h0, require_of h]
  rfl

theorem trueHeads (event : AuthenticatedEvent Unit) : TrueHeads library chain (.fetch (answers event)) := by
  intro c head heq
  cases heq
  rfl

end OneEvent

/-- A stream from the checkpoint 5 on delivers an event at the checkpoint 3 that the chain
does not have. -/
theorem stale_event_delivered : ∃ (session : Session Unit) (actions : List Action),
    OneEvent.library.Binding ∧ Opened OneEvent.library OneEvent.chain session ∧
    (∀ action ∈ actions, TrueHeads OneEvent.library OneEvent.chain action) ∧
    (session.run OneEvent.library actions).yielded = [OneEvent.event 3 [6]] ∧
    ∀ settlement ∈ OneEvent.chain.settlements, OneEvent.event 3 [6] ∉ settlement.events := by
  refine ⟨createEventStreamWithHead (5 + 1) (some (OneEvent.chain.head OneEvent.library 5)),
    [.fetch (OneEvent.answers (OneEvent.event 3 [6])), .send true], OneEvent.binding,
    OneEvent.opened 5 (by decide) (by decide), ?_, ?_, ?_⟩
  · exact forall_mem_cons.mpr ⟨OneEvent.trueHeads _, forall_mem_singleton.mpr trivial⟩
  · decide +kernel
  · decide

/-- From the checkpoint 1 on, the event of the chain is delivered. -/
theorem authenticated_events_exact_one :
    Exact OneEvent.chain 1 ((createEventStreamWithHead (1 + 1)
      (some (OneEvent.chain.head OneEvent.library 1))).run OneEvent.library
      [.fetch (OneEvent.answers (OneEvent.event 5 [1]))]) ∧
    OneEvent.chain.events 1 5 = [OneEvent.event 5 [1]] := by
  refine ⟨?_, by decide⟩
  refine authenticated_events_exact OneEvent.binding (OneEvent.opened 1 (by decide) (by decide))
    [.fetch (OneEvent.answers (OneEvent.event 5 [1]))] ?_ ?_ _ prefix_rfl
  · intro action haction
    rw [mem_singleton.mp haction]
    exact OneEvent.trueHeads _
  · intro moment action hmoment
    have hlength : moment.length = 0 := by
      have := hmoment.length_le
      simpa using this
    rw [length_eq_zero_iff.mp hlength] at hmoment ⊢
    rw [(cons_prefix_cons.mp hmoment).1]
    intro _ _ page hpage
    cases hpage
    decide

end Sui.LightClient
