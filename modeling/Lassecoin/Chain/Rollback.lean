import Lassecoin.Chain.State

/-!
# `rollback`

`Blockchain::rollback(from, to)` moves the ledger from the head `from` to the head `to`, which
is at least as deep. Its first loop walks `to_ptr` back one level per round and, on the rounds
that start with both pointers at one depth, undoes the block under `from_ptr` and moves that
pointer back too; it stops where the pointers meet, or below two children of one block at depth
one. Its second loop replays the blocks `to_ptr` passed, oldest first.

The walk is written with fuel; `rollback` gives it one round more than the depth of `to_ptr`,
which is enough on the trees `add_block` builds, where each round lowers that depth by one.
-/

set_option autoImplicit false
set_option relaxedAutoImplicit false

namespace Lassecoin.Chain.Rollback

open Lassecoin.Types Lassecoin.Balances Lassecoin.Chain.State

/-- `proccess_transactions`: apply each transaction in turn, whether or not it succeeds. -/
def proccessTransactions (C : Crypto) (ledger : Ledger) (transactions : List Transaction) : Ledger :=
  transactions.foldl (fun l t => (l.processTransaction C t).1) ledger

/-- `for t in transactions { self.ledger.rollback_transaction(t) }`, in list order. -/
def rollbackTransactions (ledger : Ledger) (transactions : List Transaction) : Except Panic Ledger :=
  transactions.foldlM Ledger.rollbackTransaction ledger

/-- The same loop at depth one, which also returns each transaction to the buffer. -/
def rollbackAndReadd (ledger : Ledger) (buffer : List Transaction) (transactions : List Transaction) :
    Except Panic (Ledger × List Transaction) :=
  transactions.foldlM (fun acc t => do
    let l ← acc.1.rollbackTransaction t
    pure (l, acc.2.insert t)) (ledger, buffer)

/-- The first loop of `rollback`. It returns the track stack, newest entry first, with the
ledger and the buffer it leaves. -/
def rollbackWalk (blocks : List Level) :
    Nat → Block → Block → List (Nat × Nat) → Ledger → List Transaction →
      Except Panic (List (Nat × Nat) × Ledger × List Transaction)
  | 0, _, _, _, _, _ => .error .outOfFuel
  | fuel + 1, fromPtr, toPtr, track, ledger, buffer =>
    if fromPtr = toPtr then .ok (track, ledger, buffer) else
    let track := (toPtr.hash, toPtr.depth) :: track
    if toPtr.depth = 1 ∧ fromPtr.depth = 1 ∧ toPtr.prevHash = fromPtr.prevHash then do
      let ledger ← ledger.rollbackReward toPtr.draw.signedBy
      let (ledger, buffer) ← rollbackAndReadd ledger buffer fromPtr.transactions
      .ok (track, ledger, buffer)
    else if toPtr.depth = 0 then .error .depthUnderflow
    else do
      let toParent ← getBlockOrPanic blocks toPtr.prevHash (toPtr.depth - 1)
      if toPtr.depth = fromPtr.depth then
        let ledger ← ledger.rollbackReward toParent.draw.signedBy
        let ledger ← rollbackTransactions ledger fromPtr.transactions
        let fromParent ← getBlockOrPanic blocks fromPtr.prevHash (fromPtr.depth - 1)
        rollbackWalk blocks fuel fromParent toParent track ledger buffer
      else rollbackWalk blocks fuel fromPtr toParent track ledger buffer

/-- The second loop of `rollback`: pop the track stack, applying each block's transactions and
crediting its producer. -/
def replayTrack (C : Crypto) (blocks : List Level) : List (Nat × Nat) → Ledger → Except Panic Ledger
  | [], ledger => .ok ledger
  | (hash, depth) :: track, ledger => do
    let block ← getBlockOrPanic blocks hash depth
    let ledger := (proccessTransactions C ledger block.transactions).rewardWinner
      block.draw.signedBy blockReward
    replayTrack C blocks track ledger

/-- `Blockchain::rollback(from, to)`. -/
def rollback (C : Crypto) (s : Blockchain) (fromHead toHead : Nat × Nat) : Except Panic Blockchain := do
  let fromPtr ← getBlockOrPanic s.blocks fromHead.1 fromHead.2
  let toPtr ← getBlockOrPanic s.blocks toHead.1 toHead.2
  let (track, ledger, buffer) ←
    rollbackWalk s.blocks (toPtr.depth + 1) fromPtr toPtr [] s.ledger s.transactionBuffer
  let ledger ← replayTrack C s.blocks track ledger
  .ok { s with ledger, transactionBuffer := buffer }

theorem rollback_frame {C : Crypto} {s s' : Blockchain} {fromHead toHead : Nat × Nat}
    (h : rollback C s fromHead toHead = .ok s') :
    s'.blocks = s.blocks ∧ s'.bestPathHead = s.bestPathHead ∧ s'.orphans = s.orphans ∧
      s'.rootAccounts = s.rootAccounts := by
  obtain ⟨fromPtr, -, h⟩ := bind_eq_ok.1 h
  obtain ⟨toPtr, -, h⟩ := bind_eq_ok.1 h
  obtain ⟨⟨track, ledger, buffer⟩, -, h⟩ := bind_eq_ok.1 h
  obtain ⟨ledger', -, h⟩ := bind_eq_ok.1 h
  cases h
  exact ⟨rfl, rfl, rfl, rfl⟩

end Lassecoin.Chain.Rollback
