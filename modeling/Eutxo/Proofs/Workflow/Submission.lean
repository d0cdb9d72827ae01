import Eutxo.Proofs.Tx.Transaction
import Eutxo.Proofs.Workflow.Basic
import Eutxo.Workflow.Submission

/-!
# Submission is all or nothing

A transaction on the configured network with a witness or a script is handed to
the backend once, in the bytes whose body gives it its id, and the answer of the
backend is the result.  Any other transaction is refused before the backend
learns of it.
-/

namespace Eutxo

open Traversal Cbor

/-! ## What is sent -/

/-- The bytes of a transaction begin with the head of a sequence of four and the bytes of its body,
whose hash is the id. -/
theorem Transaction.exists_toCbor_body {tx : Transaction} {bytes : Bytes}
    (h : Codec.toCbor tx = .ok bytes) :
    ∃ body rest, Codec.toCbor tx.body = .ok body ∧ tx.id = .ok (.hash body) ∧
      bytes = 0x84 :: (body ++ rest) := by
  obtain ⟨body, witnesses, data, hbody, -, -, rfl⟩ := toCbor_eq_ok_iff.1 h
  refine ⟨body, _, hbody, ?_, rfl⟩
  rw [Transaction.id, TxBody.hash, hbody]
  rfl

namespace WitnessSet

variable {α : Type}

/-- A list is present and has an item. -/
def Holds (field : Option (List α)) : Prop := ∃ xs, field = some xs ∧ xs ≠ []

/-- There is a key witness, a bootstrap witness or a script. -/
def Witnessed (w : WitnessSet) : Prop :=
  Holds w.vkeyWitnesses ∨ Holds w.bootstrapWitnesses ∨ Holds w.nativeScripts ∨
    Holds w.plutusV1Scripts ∨ Holds w.plutusV2Scripts ∨ Holds w.plutusV3Scripts

theorem countOf_ne_zero_iff {field : Option (List α)} : countOf field ≠ 0 ↔ Holds field := by
  cases field with
  | none => simp [countOf, Holds]
  | some xs => simp [countOf, Holds]

theorem count_ne_zero_iff {w : WitnessSet} : w.count ≠ 0 ↔ w.Witnessed := by
  simp only [Witnessed, ← countOf_ne_zero_iff, count]
  omega

end WitnessSet

/-- The backend together with all bytes that were handed to it, in their order. -/
def ChainBackend.recording {σ : Type} (chain : ChainBackend σ) :
    ChainBackend (σ × List Bytes) where
  fetchMetadata transaction s :=
    ((chain.fetchMetadata transaction s.1).1, (chain.fetchMetadata transaction s.1).2, s.2)
  submit bytes s := ((chain.submit bytes s.1).1, (chain.submit bytes s.1).2, s.2 ++ [bytes])

namespace Workflow

variable {σ α : Type} {world : World σ}

/-- The result of a run and the state in which it leaves the backend. -/
def outcome (w : Workflow σ α) (world : World σ) : Except Halt α × σ :=
  ((w.run world).1, (w.run world).2.backend)

/-- What the backend answers comes through, and it is asked once.  A refusal may be noted in the
log. -/
theorem exists_run_send (chain : ChainBackend σ) (bytes : Bytes) (world : World σ) :
    ∃ lines, (send chain bytes).run world = ((chain.submit bytes world.backend).1,
      ⟨(chain.submit bytes world.backend).2, world.log ++ lines⟩) := by
  rw [send, run_tryCatch, run_query]
  cases (chain.submit bytes world.backend).1 with
  | ok submitted => exact ⟨[], by simp⟩
  | error h =>
    cases h with
    | died c => exact ⟨[], by rw [List.append_nil]; rfl⟩
    | failed f =>
      by_cases hkind : f.kind = .submit
      · exact ⟨[⟨.error, "SubmitError: " ++ f.message⟩], by simp only [if_pos hkind]; rfl⟩
      · exact ⟨[], by simp only [if_neg hkind, List.append_nil]; rfl⟩

/-- The transaction names no network, or the configured one. -/
def OnNetwork (config : Config) (tx : Transaction) : Prop :=
  ∀ n, tx.body.networkId = some n → n = config.network.id

section

variable {config : Config} {chain : ChainBackend σ} {tx : Transaction} {id : TransactionId}
  {bytes : Bytes}

/-- Another network ends the run at once, whether or not there are witnesses. -/
theorem run_submitTransaction_offNetwork {n : Int} (hid : tx.id = .ok id)
    (hn : tx.body.networkId = some n) (hne : n ≠ config.network.id) :
    (submitTransaction config chain tx).run world =
      (.error (.failed (.networkMismatch id.bytes config.network (.ofInt n))), world) := by
  have hrequire : tx.body.networkId.forM (requireNetwork config id) =
      (fail (.networkMismatch id.bytes config.network (.ofInt n)) : Workflow σ PUnit) := by
    rw [hn]
    exact if_pos hne
  rw [submitTransaction, hid, run_bind, run_expect_ok]
  simp only [hrequire, run_bind, run_fail]

theorem requireNetwork_of_onNetwork (h : OnNetwork config tx) :
    tx.body.networkId.forM (requireNetwork config id) = (pure ⟨⟩ : Workflow σ PUnit) := by
  cases hn : tx.body.networkId with
  | none => rfl
  | some n => exact if_neg (not_not.2 (h n hn))

theorem run_submitTransaction_unwitnessed (hid : tx.id = .ok id) (hnetwork : OnNetwork config tx)
    (hwitnesses : ¬ tx.witnessSet.Witnessed) :
    (submitTransaction config chain tx).run world =
      (.error (.failed (.noWitnesses id.bytes)), world) := by
  have hcount : tx.witnessSet.count = 0 := not_not.1 (mt WitnessSet.count_ne_zero_iff.1 hwitnesses)
  have hrefused : tx.submissionBytes = .error (.noWitnesses id.bytes) := by
    rw [Transaction.submissionBytes, if_pos hcount, hid]
    rfl
  rw [submitTransaction, hid, run_bind, run_expect_ok]
  simp only [requireNetwork_of_onNetwork hnetwork, hrefused, run_bind, run_pure]
  rfl

/-- Anything else is left to the backend. -/
theorem outcome_submitTransaction (hid : tx.id = .ok id) (hbytes : Codec.toCbor tx = .ok bytes)
    (hnetwork : OnNetwork config tx) (hwitnesses : tx.witnessSet.Witnessed) :
    outcome (submitTransaction config chain tx) world = chain.submit bytes world.backend := by
  have hready : tx.submissionBytes = .ok bytes := by
    rw [Transaction.submissionBytes, if_neg (WitnessSet.count_ne_zero_iff.2 hwitnesses), hbytes]
  obtain ⟨lines, hsend⟩ := exists_run_send chain bytes
    { world with log := world.log ++ [⟨.info, "Submitting " ++ id.toText ++ " (" ++
      Text.ofNat bytes.length ++ " bytes) to " ++ config.network.name⟩] }
  rw [outcome, submitTransaction, hid, run_bind, run_expect_ok]
  simp only [requireNetwork_of_onNetwork hnetwork, hready, run_bind, run_pure, run_attempt_ok,
    run_log, hsend]
  cases chain.submit bytes world.backend with
  | mk answer backend =>
    cases answer with
    | error h => rfl
    | ok submitted =>
      -- Another id than that of the transaction costs a line in the log and nothing else.
      by_cases hsame : submitted = id
      · simp only [hsame, ne_eq, not_true_eq_false, if_false]
        rfl
      · simp only [ne_eq, hsame, not_false_eq_true, if_true]
        rfl

/-- The network is checked first, then the witnesses, and a transaction that fails a check changes
nothing at all.  One that passes is handed over once, in the bytes that begin with the body its id
is the hash of, and whatever the backend answers is the result. -/
theorem submitTransaction_all_or_nothing (config : Config) (chain : ChainBackend σ)
    (tx : Transaction) {bytes : Bytes} (hbytes : Codec.toCbor tx = .ok bytes) (world : World σ)
    (handed : List Bytes) :
    ∃ body id rest, Codec.toCbor tx.body = .ok body ∧ tx.id = .ok id ∧
      id.bytes = Blake2b.digest 32 body ∧ bytes = 0x84 :: (body ++ rest) ∧
      (∀ n, tx.body.networkId = some n → n ≠ config.network.id →
        (submitTransaction config chain tx).run world =
          (.error (.failed (.networkMismatch id.bytes config.network (.ofInt n))), world)) ∧
      (OnNetwork config tx → ¬ tx.witnessSet.Witnessed →
        (submitTransaction config chain tx).run world =
          (.error (.failed (.noWitnesses id.bytes)), world)) ∧
      (OnNetwork config tx → tx.witnessSet.Witnessed →
        outcome (submitTransaction config chain tx) world = chain.submit bytes world.backend) ∧
      ∃ sent, (outcome (submitTransaction config chain.recording tx)
          ⟨(world.backend, handed), world.log⟩).2.2 = handed ++ sent ∧
        ((OnNetwork config tx ∧ tx.witnessSet.Witnessed) ∧ sent = [bytes] ∨
          ¬ (OnNetwork config tx ∧ tx.witnessSet.Witnessed) ∧ sent = []) := by
  obtain ⟨body, rest, hbody, hid, hsplit⟩ := Transaction.exists_toCbor_body hbytes
  refine ⟨body, .hash body, rest, hbody, hid, rfl, hsplit,
    fun n => run_submitTransaction_offNetwork hid, run_submitTransaction_unwitnessed hid,
    outcome_submitTransaction hid hbytes, ?_⟩
  by_cases hnetwork : OnNetwork config tx
  · by_cases hwitnesses : tx.witnessSet.Witnessed
    · refine ⟨[bytes], ?_, .inl ⟨⟨hnetwork, hwitnesses⟩, rfl⟩⟩
      rw [outcome_submitTransaction hid hbytes hnetwork hwitnesses]
      rfl
    · refine ⟨[], ?_, .inr ⟨fun h => hwitnesses h.2, rfl⟩⟩
      rw [outcome, run_submitTransaction_unwitnessed hid hnetwork hwitnesses, List.append_nil]
  · obtain ⟨n, hn, hne⟩ : ∃ n, tx.body.networkId = some n ∧ n ≠ config.network.id := by
      simpa [OnNetwork] using hnetwork
    refine ⟨[], ?_, .inr ⟨fun h => hnetwork h.1, rfl⟩⟩
    rw [outcome, run_submitTransaction_offNetwork hid hn hne, List.append_nil]

/-- A backend that keeps what it takes, and knows it by the hash of all its bytes. -/
def mempool : ChainBackend (List Bytes) where
  fetchMetadata _ s := (.ok none, s)
  submit bytes s := (.ok (.hash bytes), s ++ [bytes])

theorem submitTransaction_all_or_nothing_delegation :
    ∃ bytes id, Codec.toCbor Transaction.delegation = .ok bytes ∧
      Transaction.delegation.id = .ok id ∧
      outcome (submitTransaction ⟨.mainnet, .integer 1787⟩ mempool Transaction.delegation)
        ⟨[], []⟩ = (.ok (.hash bytes), [bytes]) ∧
      (submitTransaction ⟨.preprod, .integer 1787⟩ mempool Transaction.delegation).run ⟨[], []⟩ =
        (.error (.failed (.networkMismatch id.bytes .preprod (.integer 1))), ⟨[], []⟩) := by
  obtain ⟨bytes, hbytes⟩ : ∃ bytes, Codec.toCbor Transaction.delegation = .ok bytes := ⟨_, rfl⟩
  obtain ⟨-, id, -, -, hid, -, -, hmismatch, -⟩ := submitTransaction_all_or_nothing
    ⟨.preprod, .integer 1787⟩ mempool Transaction.delegation hbytes ⟨[], []⟩ []
  obtain ⟨-, -, -, -, -, -, -, -, -, hsubmits, -⟩ := submitTransaction_all_or_nothing
    ⟨.mainnet, .integer 1787⟩ mempool Transaction.delegation hbytes ⟨[], []⟩ []
  have hnetwork : OnNetwork ⟨.mainnet, .integer 1787⟩ Transaction.delegation := by
    intro n hn
    cases hn
    rfl
  have hwitnesses : Transaction.delegation.witnessSet.Witnessed :=
    .inr (.inr (.inl ⟨_, rfl, List.cons_ne_nil _ _⟩))
  exact ⟨bytes, id, hbytes, hid, hsubmits hnetwork hwitnesses, hmismatch 1 rfl (by decide)⟩

end

end Workflow

end Eutxo
