import Lassecoin.Chain.Audit

/-!
# `get_new_block`, a node's own candidate block

`get_new_block` fills a block from the transaction buffer: it walks the buffer in the order the
set iterates it and keeps the transactions that apply, one after another, to a copy of the live
ledger (`Vec::retain` with a closure that applies each one). The new block sits one level below
the head, on the draw's timeslot and parent.

Submitted to the node that built it, the block takes the fast path of `add_block`: its
transactions all apply in order from the live ledger, and the ledger that results is the copy
`get_new_block` built, with the reward credited to the producer. This rests on
`process_transaction` returning the ledger it was given when it fails.
-/

set_option autoImplicit false
set_option relaxedAutoImplicit false

namespace Lassecoin.Chain.Produce

open Lassecoin.Types Lassecoin.Balances Lassecoin.Chain.State Lassecoin.Chain.Rollback
open Lassecoin.Chain.AddBlock Lassecoin.Chain.Step Lassecoin.Chain.Shape
open Lassecoin.Chain.Audit Lassecoin.Lottery

variable {C : Crypto} {clock : List Nat → Nat}

/-! ## The model -/

/-- `transactions_buffer.retain(|t| checking_ledger.process_transaction(t))`: the transactions
kept, in order, and `checking_ledger` at the end. -/
def retainApplied (C : Crypto) : Ledger → List Transaction → List Transaction × Ledger
  | ledger, [] => ([], ledger)
  | ledger, t :: ts =>
    let step := ledger.processTransaction C t
    let rest := retainApplied C step.1 ts
    (if step.2 then t :: rest.1 else rest.1, rest.2)

/-- `Blockchain::get_new_block(draw, sk)`. `pending` is `transaction_buffer` in the order the set
iterates it. `Block::new` signs a fresh draw on the block's timeslot and parent and hashes the
block: `value` and `hash` stand for those two digests. -/
def getNewBlock (C : Crypto) (s : Blockchain) (pending : List Transaction) (draw : Draw)
    (value hash : Nat) : Block :=
  { timeslot := draw.timeslot, prevHash := draw.prevHash, depth := s.bestPathHead.2 + 1,
    draw := ⟨draw.timeslot, draw.signedBy, draw.prevHash, value⟩,
    transactions := (retainApplied C s.ledger pending).1, hash }

/-- `Blockchain::stake`: the lottery against the live ledger. -/
def stake (s : Blockchain) (draw : Draw) (wallet : Nat) : Bool := isWinner s.ledger draw wallet

/-! ## The retained transactions apply -/

private theorem processAll_retainApplied (ledger : Ledger) (pending : List Transaction) :
    processAll C ledger (retainApplied C ledger pending).1 = some (retainApplied C ledger pending).2 := by
  induction pending generalizing ledger with
  | nil => rfl
  | cons t ts ih =>
    rcases step : ledger.processTransaction C t with ⟨ledger', _ | _⟩
    · obtain rfl : ledger' = ledger := by simpa [step] using Ledger.processTransaction_eq_or C ledger t
      simp [retainApplied, step, ih]
    · simp [retainApplied, processAll, step, ih]

private theorem proccessTransactions_of_processAll {ledger ledger' : Ledger} :
    ∀ {ts : List Transaction}, processAll C ledger ts = some ledger' → proccessTransactions C ledger ts = ledger'
  | [], h => Option.some.inj h
  | t :: ts, h => by
    rcases step : ledger.processTransaction C t with ⟨ledger₁, _ | _⟩
    · simp [processAll, step] at h
    · simp only [processAll, step] at h
      simpa [proccessTransactions, step] using proccessTransactions_of_processAll h

/-! ## The node accepts its own block -/

private theorem addBlock_extends_head {s : Blockchain} {b tip : Block} (signed : C.verifyBlock b = true)
    (tipFound : getBlock s.blocks s.bestPathHead.1 s.bestPathHead.2 = some tip)
    (depth : b.depth = s.bestPathHead.2 + 1) (parent : b.prevHash = s.bestPathHead.1)
    (after : tip.timeslot < b.timeslot) (due : b.timeslot ≤ clock []) (noOrphans : (s.orphans.lookup b.hash).getD [] = []) :
    ∃ s', addBlock C clock s b = .ok (s', s.bestPathHead.1 != b.hash) ∧ s'.bestPathHead = (b.hash, b.depth) ∧
      getBlock s'.blocks b.hash b.depth = some b ∧ s'.ledger = applyBlock C s.ledger b := by
  obtain ⟨st, hstored⟩ : ∃ st, (s.grow b.depth).insertBlock b = .ok st := ⟨_, Blockchain.grow_insertBlock s b⟩
  obtain ⟨stHead, stOrphans, stLedger, -⟩ := Blockchain.stored_frame hstored
  obtain ⟨chosen, choose, chosenHead, chosenBlocks, chosenOrphans, chosenLedger⟩ :
      ∃ c, forkChoice C (st.removeTransactions b.transactions) b = .ok c ∧ c.bestPathHead = (b.hash, b.depth) ∧
        c.blocks = st.blocks ∧ c.orphans = s.orphans ∧ c.ledger = applyBlock C s.ledger b :=
    ⟨_, forkChoice_extends (by rw [Blockchain.removeTransactions_bestPathHead, stHead, parent])
      (by rw [Blockchain.removeTransactions_bestPathHead, stHead, depth]; omega), rfl, rfl, stOrphans,
      by rw [Blockchain.removeTransactions_ledger, stLedger]⟩
  have parentFound : getBlock s.blocks b.prevHash (b.depth - 1) = some tip := by
    rwa [depth, parent, Nat.add_sub_cancel]
  have drained : (chosen.takeOrphans b.hash).1 = [] := by
    show (chosen.orphans.lookup b.hash).getD [] = []
    rw [chosenOrphans, noOrphans]
  refine ⟨(chosen.takeOrphans b.hash).2, ?_, chosenHead, by simpa [chosenBlocks] using getBlock_stored_self hstored,
    chosenLedger⟩
  rw [addBlock, addBlockRec_succ_of_insert signed (by omega) parentFound after due hstored choose
    (by rw [drained]; rfl), Blockchain.takeOrphans_bestPathHead, chosenHead]

/-- The block `get_new_block` builds on the head, for any order of the buffer, is accepted by the
node that built it through the fast path: every kept transaction applies in order from the live
ledger, and the ledger that results is `checking_ledger` with the producer's reward. -/
theorem own_block_extends_head {s : Blockchain} (pending : List Transaction) {draw : Draw} (value hash : Nat)
    {tip : Block} (tipFound : getBlock s.blocks s.bestPathHead.1 s.bestPathHead.2 = some tip)
    (onTip : draw.prevHash = s.bestPathHead.1) (after : tip.timeslot < draw.timeslot) (due : draw.timeslot ≤ clock [])
    (signed : C.verifyBlock (getNewBlock C s pending draw value hash) = true)
    (noOrphans : (s.orphans.lookup hash).getD [] = []) :
    ∃ s', addBlock C clock s (getNewBlock C s pending draw value hash) = .ok (s', s.bestPathHead.1 != hash) ∧
      s'.bestPathHead = (hash, s.bestPathHead.2 + 1) ∧
      getBlock s'.blocks hash (s.bestPathHead.2 + 1) = some (getNewBlock C s pending draw value hash) ∧
      processAll C s.ledger (getNewBlock C s pending draw value hash).transactions =
        some (retainApplied C s.ledger pending).2 ∧
      s'.ledger = (retainApplied C s.ledger pending).2.rewardWinner draw.signedBy blockReward := by
  obtain ⟨s', run, head, stored, ledger⟩ := addBlock_extends_head signed tipFound rfl onTip after due noOrphans
  have applies := processAll_retainApplied (C := C) s.ledger pending
  exact ⟨s', run, head, stored, applies,
    ledger.trans (congrArg (·.rewardWinner draw.signedBy blockReward) (proccessTransactions_of_processAll applies))⟩

/-- Two transfers from account 1 stamped with the same timeslot. -/
def earlierTransfer : Transaction := ⟨1, 2, 10, 1⟩

def sameSlotTransfer : Transaction := ⟨1, 2, 20, 1⟩

/-- Both transfers are possible against the genesis ledger, so both are buffered. -/
def bufferedState : Blockchain :=
  Except.state (runFromStart acceptAll 10 [1, 2] 0 100 0 [.transaction earlierTransfer, .transaction sameSlotTransfer])

theorem own_block_keeps_first_transfer :
    bufferedState.transactionBuffer = [sameSlotTransfer, earlierTransfer] ∧
      (getNewBlock acceptAll bufferedState bufferedState.transactionBuffer ⟨1, 1, 100, 0⟩ 7 101).transactions =
        [sameSlotTransfer] ∧
      ∃ s', addBlock acceptAll (fun _ => 10) bufferedState
          (getNewBlock acceptAll bufferedState bufferedState.transactionBuffer ⟨1, 1, 100, 0⟩ 7 101) =
          .ok (s', bufferedState.bestPathHead.1 != 101) ∧
        s'.bestPathHead = (101, bufferedState.bestPathHead.2 + 1) ∧
        getBlock s'.blocks 101 (bufferedState.bestPathHead.2 + 1) =
          some (getNewBlock acceptAll bufferedState bufferedState.transactionBuffer ⟨1, 1, 100, 0⟩ 7 101) ∧
        processAll acceptAll bufferedState.ledger
            (getNewBlock acceptAll bufferedState bufferedState.transactionBuffer ⟨1, 1, 100, 0⟩ 7 101).transactions =
          some (retainApplied acceptAll bufferedState.ledger bufferedState.transactionBuffer).2 ∧
        s'.ledger = (retainApplied acceptAll bufferedState.ledger bufferedState.transactionBuffer).2.rewardWinner 1
          blockReward :=
  ⟨rfl, rfl, own_block_extends_head _ 7 101
    (show getBlock bufferedState.blocks 100 0 = some (genesisBlock 1 0 100 0) from rfl) rfl (by decide) (by decide) rfl
    rfl⟩

end Lassecoin.Chain.Produce
