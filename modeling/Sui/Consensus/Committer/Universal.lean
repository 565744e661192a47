import Sui.Consensus.Committer.Base

/-! The pipelined committer.

Leaders are tried from the highest round down, so that the statuses of all later
leaders are known when an indirect decision is attempted; the output is the longest
decided prefix. -/
namespace Sui.Consensus

open Sui.Lib

/-- One committer for each stage of the pipeline and each leader of a round. -/
def UniversalCommitterBuilder.build (numberOfLeaders : Nat) (pipeline : Bool) :
    List BaseCommitterOptions :=
  let pipelineStages := if pipeline then DEFAULT_WAVE_LENGTH else 1
  (List.range pipelineStages).flatMap fun roundOffset =>
    (List.range numberOfLeaders).map fun leaderOffset => { leaderOffset, roundOffset }

namespace UniversalCommitter

variable (ctx : Context) (schedule : LeaderSchedule) (d : DagState) (lastDecided : Slot)

/-- The leaders decided so far, lowest round first, and whether the last decided
leader has been reached. -/
structure Progress where
  leaders : List (LeaderStatus × Decision) := []
  done : Bool := false

/-- Tries the leader of one committer in one round. -/
def decideLeader (round : Nat) (p : Progress) (committer : BaseCommitterOptions) : Exec Progress := do
  if p.done then return p
  match BaseCommitter.electLeader schedule committer round with
  | none => return p
  | some slot =>
    if slot = lastDecided then return { p with done := true }
    let status ← BaseCommitter.tryDirectDecide ctx d committer slot
    if status.isDecided then return { p with leaders := (status, .direct) :: p.leaders }
    else do
      let status ← BaseCommitter.tryIndirectDecide ctx d committer slot (p.leaders.map (·.1))
      return { p with leaders := (status, .indirect) :: p.leaders }

def decideRound (committers : List BaseCommitterOptions) (p : Progress) (round : Nat) :
    Exec Progress :=
  committers.reverse.foldlM (decideLeader ctx schedule d lastDecided round) p

/-- The longest decided prefix, without genesis leaders. -/
def takeDecided : List (LeaderStatus × Decision) → List DecidedLeader
  | [] => []
  | (leader, decision) :: rest =>
    if leader.round = GENESIS_ROUND then takeDecided rest
    else
      match leader.intoDecidedLeader (decision = .direct) with
      | some decided => decided :: takeDecided rest
      | none => []

/-- The first round whose leader may be decided. -/
def lastRound : Nat :=
  match ctx.protocolConfig.numLeadersPerRound with
  | some 1 => lastDecided.round + 1
  | _ => lastDecided.round

def tryDecide (committers : List BaseCommitterOptions) : Exec (List DecidedLeader) := do
  let start := lastRound ctx lastDecided
  let rounds := List.range' start (d.highestAcceptedRound - 2 + 1 - start)
  let p ← rounds.reverse.foldlM (decideRound ctx schedule d lastDecided committers) {}
  return takeDecided p.leaders

end UniversalCommitter

end Sui.Consensus
