import Sui.Lib.Bytes
import Sui.Lib.Checked
import Sui.Lib.Quorum
import Sui.Lib.VecMap

/-! Messages of the bridge and its committee.

A message has a type, a version, a sequence number, the chain it comes from and a payload of bytes.
Its type says how much voting power has to sign its bytes. The signers are recovered from the
signatures: each has to be a member of the committee and may sign once, and those that are not
blocklisted have to reach the power. Just such signatures are accepted (`verifySignatures_iff`), and
of two messages that need more than half of the power each, some member has signed both
(`verified_share_signer`). The curve is a parameter. -/
namespace Sui.Bridge

open Sui.Lib Sui.Lib.Exec List

abbrev Bytes := List UInt8

/-- The codes of the bridge and of the native function it calls. -/
inductive BridgeError
  | signatureBelowThreshold
  | duplicatedSignature
  | invalidSignature
  | trailingBytes
  | invalidMessageType
  | invalidEmergencyOpType
  | failToRecoverPubKey
deriving DecidableEq, Repr

abbrev Run (α : Type) := Except (Abort BridgeError) α

def ensure (p : Prop) [Decidable p] (e : BridgeError) : Run Unit := require p (.code e)

namespace MessageTypes
def token : UInt8 := 0
def committeeBlocklist : UInt8 := 1
def emergencyOp : UInt8 := 2
def updateBridgeLimit : UInt8 := 3
def updateAssetPrice : UInt8 := 4
def addTokensOnSui : UInt8 := 6
end MessageTypes

structure BridgeMessage where
  messageType : UInt8
  messageVersion : UInt8
  seqNum : Nat
  sourceChain : UInt8
  payload : Bytes
deriving DecidableEq, Repr

def pauseOp : UInt8 := 0

def unpauseOp : UInt8 := 1

namespace BridgeMessage
variable (message : BridgeMessage)

def extractEmergencyOpPayload : Run UInt8 := do
  ensure (message.payload.length = 1) .trailingBytes
  unwrap message.payload[0]? .outOfBounds

def serializeMessage : Bytes :=
  [message.messageType, message.messageVersion] ++ beBytes 8 message.seqNum ++
    [message.sourceChain] ++ message.payload

/-- The voting power that has to sign the message, of 10000. -/
def requiredVotingPower : Run Nat :=
  if message.messageType = MessageTypes.token then return 3334
  else if message.messageType = MessageTypes.emergencyOp then do
    let opType ← message.extractEmergencyOpPayload
    if opType = pauseOp then return 450
    else if opType = unpauseOp then return 5001
    else .error (.code .invalidEmergencyOpType)
  else if message.messageType = MessageTypes.committeeBlocklist then return 5001
  else if message.messageType = MessageTypes.updateAssetPrice then return 5001
  else if message.messageType = MessageTypes.updateBridgeLimit then return 5001
  else if message.messageType = MessageTypes.addTokensOnSui then return 5001
  else .error (.code .invalidMessageType)

/-- The bytes of a message name all its fields. -/
theorem serializeMessage_injective {m m' : BridgeMessage} (hm : m.seqNum < 2 ^ 64)
    (hm' : m'.seqNum < 2 ^ 64) (h : m.serializeMessage = m'.serializeMessage) : m = m' := by
  obtain ⟨messageType, version, seqNum, chain, payload⟩ := m
  obtain ⟨messageType', version', seqNum', chain', payload'⟩ := m'
  simp only [serializeMessage, append_assoc, cons_append, nil_append, cons.injEq] at h
  obtain ⟨htype, hversion, h⟩ := h
  obtain ⟨hseq, h⟩ := append_inj h (by rw [length_beBytes, length_beBytes])
  obtain ⟨hchain, hpayload⟩ := cons.inj h
  rw [htype, hversion, beBytes_inj hm hm' hseq, hchain, hpayload]

end BridgeMessage

/-! ### The committee -/

/-- The native function: it fails on malformed input. -/
structure Crypto where
  secp256k1Ecrecover : Bytes → Bytes → Option Bytes

structure CommitteeMember where
  votingPower : Nat
  blocklisted : Bool

structure BridgeCommittee where
  members : VecMap Bytes CommitteeMember

/-- `SUI_BRIDGE_MESSAGE`, which is put before the bytes of a message. -/
def suiMessageTag : Bytes :=
  [83, 85, 73, 95, 66, 82, 73, 68, 71, 69, 95, 77, 69, 83, 83, 65, 71, 69]

def BridgeMessage.signedBytes (message : BridgeMessage) : Bytes :=
  suiMessageTag ++ message.serializeMessage

namespace BridgeCommittee
variable (self : BridgeCommittee)

/-- A blocklisted member is counted with nothing. -/
def addVotingPower (threshold : Nat) (member : CommitteeMember) : Run Nat :=
  if member.blocklisted then return threshold else U64.add threshold member.votingPower

/-- One more signature, after the keys that were seen. -/
def verifySignature (crypto : Crypto) (messageBytes : Bytes) :
    List Bytes × Nat → Bytes → Run (List Bytes × Nat)
  | (seenPubKey, threshold), signature => do
    let pubkey ← unwrap (crypto.secp256k1Ecrecover signature messageBytes) (.code .failToRecoverPubKey)
    ensure (pubkey ∉ seenPubKey) .duplicatedSignature
    let member ← unwrap (self.members.get? pubkey) (.code .invalidSignature)
    let threshold ← addVotingPower threshold member
    return (seenPubKey ++ [pubkey], threshold)

def verifySignatures (crypto : Crypto) (message : BridgeMessage) (signatures : List Bytes) :
    Run Unit := do
  let requiredVotingPower ← message.requiredVotingPower
  let (_, threshold) ← signatures.foldlM (self.verifySignature crypto message.signedBytes) ([], 0)
  ensure (requiredVotingPower ≤ threshold) .signatureBelowThreshold

/-! ### What a verification says -/

/-- The voting power of a key that counts. -/
def power (pubkey : Bytes) : Nat :=
  match self.members.get? pubkey with
  | some member => if member.blocklisted then 0 else member.votingPower
  | none => 0

def totalPower : Nat := weight self.power self.members.keys.toFinset

/-- The signatures are those of the signers, distinct members that are not among `seen`. -/
structure SignedBy (committee : BridgeCommittee) (crypto : Crypto) (bytes : Bytes)
    (signatures seen signers : List Bytes) : Prop where
  recovered : signatures.map (crypto.secp256k1Ecrecover · bytes) = signers.map some
  distinct : (seen ++ signers).Nodup
  members : ∀ pubkey ∈ signers, pubkey ∈ committee.members.keys

variable {self} {crypto : Crypto} {bytes : Bytes} {signatures seen signers : List Bytes}

theorem supported (self : BridgeCommittee) : Supported self.power self.members.keys.toFinset := by
  intro pubkey hpubkey
  rw [List.mem_toFinset, VecMap.mem_keys_iff] at hpubkey
  unfold power
  split
  · rename_i member hmember
    exact absurd ⟨member, hmember⟩ hpubkey
  · rfl

theorem weight_signers (h : signers.Nodup) : weight self.power signers.toFinset = (signers.map self.power).sum :=
  List.sum_toFinset _ h

theorem SignedBy.sum_le (h : self.SignedBy crypto bytes signatures [] signers) :
    (signers.map self.power).sum ≤ self.totalPower := by
  have hd : signers.Nodup := h.distinct
  rw [← weight_signers hd]
  exact weight_le_members self.supported _

theorem addVotingPower_eq_ok (hm : self.members.get? pubkey = some member) (ht : threshold < 2 ^ 64) :
    addVotingPower threshold member = .ok total ↔
      total = threshold + self.power pubkey ∧ threshold + self.power pubkey < 2 ^ 64 := by
  obtain ⟨votingPower, blocklisted⟩ := member
  unfold power
  rw [hm]
  cases blocklisted with
  | true => exact pure_eq_ok.trans ⟨fun h => ⟨h.symm, ht⟩, fun h => h.1.symm⟩
  | false => exact U64.add_eq_ok

theorem verifySignature_eq_ok (ht : threshold < 2 ^ 64) :
    self.verifySignature crypto bytes (seen, threshold) signature = .ok r ↔
      ∃ pubkey, crypto.secp256k1Ecrecover signature bytes = some pubkey ∧ pubkey ∉ seen ∧
        pubkey ∈ self.members.keys ∧ threshold + self.power pubkey < 2 ^ 64 ∧
        r = (seen ++ [pubkey], threshold + self.power pubkey) := by
  simp only [verifySignature, ensure, bind_eq_ok, unwrap_eq_ok, require_eq_ok, VecMap.mem_keys_iff]
  constructor
  · rintro ⟨pubkey, hpubkey, _, hnew, member, hmember, sum, hsum, h⟩
    obtain ⟨rfl, hlt⟩ := (addVotingPower_eq_ok hmember ht).mp hsum
    exact ⟨pubkey, hpubkey, hnew, ⟨member, hmember⟩, hlt, (Except.ok.inj h).symm⟩
  · rintro ⟨pubkey, hpubkey, hnew, ⟨member, hmember⟩, hlt, rfl⟩
    exact ⟨pubkey, hpubkey, (), hnew, member, hmember, _, (addVotingPower_eq_ok hmember ht).mpr ⟨rfl, hlt⟩, rfl⟩

/-- The loop returns the signers and their power. -/
theorem foldlM_verifySignature (hseen : seen.Nodup) (ht : threshold < 2 ^ 64) :
    signatures.foldlM (self.verifySignature crypto bytes) (seen, threshold) = .ok r ↔
      ∃ signers, self.SignedBy crypto bytes signatures seen signers ∧
        threshold + (signers.map self.power).sum < 2 ^ 64 ∧
        r = (seen ++ signers, threshold + (signers.map self.power).sum) := by
  induction signatures generalizing seen threshold with
  | nil =>
    constructor
    · intro h
      cases h
      refine ⟨[], ⟨rfl, ?_, forall_mem_nil _⟩, ht, ?_⟩ <;> simp [hseen]
    · rintro ⟨signers, h, -, rfl⟩
      obtain rfl : signers = [] := map_eq_nil_iff.mp h.recovered.symm
      simp [pure, Except.pure]
  | cons signature signatures ih =>
    rw [foldlM_cons_eq_ok]
    constructor
    · rintro ⟨_, hstep, h⟩
      obtain ⟨pubkey, hpubkey, hnew, hmember, hlt, rfl⟩ := (verifySignature_eq_ok ht).mp hstep
      have hseen' : (seen ++ [pubkey]).Nodup := by
        rw [← concat_eq_append, nodup_concat]
        exact ⟨hnew, hseen⟩
      obtain ⟨signers, hs, hsum, rfl⟩ := (ih hseen' hlt).mp h
      have hd := hs.distinct
      rw [append_assoc] at hd
      refine ⟨pubkey :: signers, ⟨?_, hd, forall_mem_cons.mpr ⟨hmember, hs.members⟩⟩, ?_, ?_⟩
      · rw [map_cons, hs.recovered, hpubkey, map_cons]
      · rwa [map_cons, sum_cons, ← Nat.add_assoc]
      · rw [append_assoc, map_cons, sum_cons, Nat.add_assoc]
        rfl
    · rintro ⟨signers, hs, hsum, rfl⟩
      obtain _ | ⟨pubkey, signers⟩ := signers
      · exact absurd hs.recovered (by simp)
      obtain ⟨hpubkey, hrecovered⟩ := cons.inj hs.recovered
      obtain ⟨hmember, hmembers⟩ := forall_mem_cons.mp hs.members
      have hd := hs.distinct
      have hnew : pubkey ∉ seen := fun hmem => disjoint_of_nodup_append hd hmem mem_cons_self
      rw [append_cons] at hd
      rw [map_cons, sum_cons, ← Nat.add_assoc] at hsum
      refine ⟨_, (verifySignature_eq_ok ht).mpr ⟨pubkey, hpubkey, hnew, hmember, by omega, rfl⟩, ?_⟩
      refine (ih hd.of_append_left (by omega)).mpr ⟨signers, ⟨hrecovered, hd, hmembers⟩, hsum, ?_⟩
      rw [append_cons, map_cons, sum_cons, Nat.add_assoc]

theorem signedBy_of_verified {message : BridgeMessage} (hrequired : message.requiredVotingPower = .ok required)
    (h : self.verifySignatures crypto message signatures = .ok ()) : ∃ signers,
      self.SignedBy crypto message.signedBytes signatures [] signers ∧
      required ≤ (signers.map self.power).sum := by
  unfold verifySignatures at h
  rw [bind_ok hrequired] at h
  obtain ⟨r, hloop, henough⟩ := bind_eq_ok.mp h
  obtain ⟨signers, hs, -, rfl⟩ := (foldlM_verifySignature nodup_nil (by decide)).mp hloop
  have henough := require_eq_ok.mp henough
  rw [Nat.zero_add] at henough
  exact ⟨signers, hs, henough⟩

/-- **Just the signatures of distinct members are accepted, with the power that the message
requires.** -/
theorem verifySignatures_iff (self : BridgeCommittee) (crypto : Crypto) (message : BridgeMessage)
    (signatures : List Bytes) (hpower : self.totalPower < 2 ^ 64) :
    self.verifySignatures crypto message signatures = .ok () ↔ ∃ required signers,
      message.requiredVotingPower = .ok required ∧
      self.SignedBy crypto message.signedBytes signatures [] signers ∧
      required ≤ (signers.map self.power).sum := by
  constructor
  · intro h
    obtain ⟨required, hrequired, -⟩ := bind_eq_ok.mp h
    obtain ⟨signers, hs, henough⟩ := signedBy_of_verified hrequired h
    exact ⟨required, signers, hrequired, hs, henough⟩
  · rintro ⟨required, signers, hrequired, hs, henough⟩
    have hle := hs.sum_le
    have hloop := (foldlM_verifySignature nodup_nil (by decide : 0 < 2 ^ 64)).mpr ⟨signers, hs, by omega, rfl⟩
    unfold verifySignatures
    rw [bind_ok hrequired, bind_ok hloop]
    exact require_of (by rwa [Nat.zero_add])

/-- **Of two messages that need more than the power there is together, some member signed both**, as
two different strings of bytes. -/
theorem verified_share_signer (self : BridgeCommittee) (crypto : Crypto) (m m' : BridgeMessage)
    (signatures signatures' : List Bytes) (hpower : self.totalPower < required + required')
    (hrequired : m.requiredVotingPower = .ok required) (hrequired' : m'.requiredVotingPower = .ok required')
    (h : self.verifySignatures crypto m signatures = .ok ())
    (h' : self.verifySignatures crypto m' signatures' = .ok ())
    (hm : m.seqNum < 2 ^ 64) (hm' : m'.seqNum < 2 ^ 64) (hne : m ≠ m') :
    ∃ pubkey ∈ self.members.keys,
      some pubkey ∈ signatures.map (crypto.secp256k1Ecrecover · m.signedBytes) ∧
      some pubkey ∈ signatures'.map (crypto.secp256k1Ecrecover · m'.signedBytes) ∧
      m.signedBytes ≠ m'.signedBytes := by
  obtain ⟨signers, hs, henough⟩ := signedBy_of_verified hrequired h
  obtain ⟨signers', hs', henough'⟩ := signedBy_of_verified hrequired' h'
  have hd : signers.Nodup := hs.distinct
  have hd' : signers'.Nodup := hs'.distinct
  rw [← weight_signers hd] at henough
  rw [← weight_signers hd'] at henough'
  unfold totalPower at hpower
  obtain ⟨pubkey, hmem, hmem', -⟩ := exists_mem_inter_not_mem (f := 0) self.supported signers.toFinset
    signers'.toFinset ∅ le_rfl (by omega)
  rw [List.mem_toFinset] at hmem hmem'
  refine ⟨pubkey, hs.members pubkey hmem, ?_, ?_, fun heq => hne ?_⟩
  · rw [hs.recovered]
    exact mem_map_of_mem hmem
  · rw [hs'.recovered]
    exact mem_map_of_mem hmem'
  · exact BridgeMessage.serializeMessage_injective hm hm' (append_cancel_left heq)

/-! Three members, and one on the blocklist; a signature is the signer's key. -/

def four : BridgeCommittee :=
  ⟨[([1], ⟨3000, false⟩), ([2], ⟨3000, false⟩), ([3], ⟨3000, false⟩), ([4], ⟨1000, true⟩)], by decide⟩

def plain : Crypto := ⟨fun signature _ => some signature⟩

def unpause (seqNum : Nat) : BridgeMessage := ⟨MessageTypes.emergencyOp, 1, seqNum, 0, [unpauseOp]⟩

theorem verifySignatures_unpause : four.verifySignatures plain (unpause 0) [[4], [1], [2]] = .ok () := by
  refine (verifySignatures_iff four plain (unpause 0) [[4], [1], [2]] (by decide)).mpr
    ⟨5001, [[4], [1], [2]], rfl, ?_, by decide⟩
  exact ⟨rfl, by decide, by decide⟩

theorem unpause_share_signer : ∃ pubkey ∈ four.members.keys,
    some pubkey ∈ [[4], [1], [2]].map (plain.secp256k1Ecrecover · (unpause 0).signedBytes) ∧
    some pubkey ∈ [[2], [3]].map (plain.secp256k1Ecrecover · (unpause 1).signedBytes) ∧
    (unpause 0).signedBytes ≠ (unpause 1).signedBytes :=
  verified_share_signer four plain (unpause 0) (unpause 1) [[4], [1], [2]] [[2], [3]] (by decide) rfl rfl rfl rfl
    (by decide) (by decide) (by decide)

end BridgeCommittee

end Sui.Bridge
