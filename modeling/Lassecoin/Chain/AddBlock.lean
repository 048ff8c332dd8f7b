import Lassecoin.Chain.Rollback

/-!
# `add_block`, `add_transaction` and the runs of the engine

`add_block` checks the signature, looks the parent up one level above the block, parks the block
if the parent is missing, checks the timeslot window, stores the block, drops its transactions
from the buffer, picks the best head, and at last submits again every orphan that waited for this
block. The recursion through the orphans is written with fuel: each nested call gets one unit
less. `addBlock` starts it with one unit more than there are parked blocks.

Every call reads `calculate_timeslot()` afresh. `clock` gives the readings of a call and of the
calls nested in it: the call reads `clock []`, and the `i`-th orphan its loop submits again reads
through `fun p => clock (i :: p)`, so that each call in the recursion has a reading of its own. A
state is reachable when some run of `start`, `add_block` and `add_transaction` calls that does not
panic ends in it, whatever the clock reads. The blocks a run submits are drawn from a set `U`;
theorems that assume distinct blocks carry distinct hashes say so of `U`.
-/

set_option autoImplicit false
set_option relaxedAutoImplicit false

namespace Lassecoin.Chain.AddBlock

open Lassecoin.Types Lassecoin.Balances Lassecoin.Chain.State Lassecoin.Chain.Rollback

/-- A block's effect on the ledger: its transactions in order, then its producer's reward. -/
def applyBlock (C : Crypto) (ledger : Ledger) (block : Block) : Ledger :=
  (proccessTransactions C ledger block.transactions).rewardWinner block.draw.signedBy blockReward

/-- Applying a block reads the same on ledgers that compare equal. -/
theorem sameAs_applyBlock {C : Crypto} {l l' : Ledger} (same : l.sameAs l' = true) (block : Block) :
    (applyBlock C l block).sameAs (applyBlock C l' block) = true := by
  suffices ∀ (ts : List Transaction) {l l' : Ledger}, l.sameAs l' = true →
      (proccessTransactions C l ts).sameAs (proccessTransactions C l' ts) = true from
    Ledger.sameAs_rewardWinner (this block.transactions same) _ _
  intro ts
  induction ts with
  | nil => exact id
  | cons t ts ih => exact fun same => ih (Ledger.sameAs_processTransaction same C t).1

/-- The fork choice of `add_block`, run once `block` is stored: a deeper block becomes the head,
through the fast path when it extends the old head and through `rollback` otherwise; a block at
the head's depth replaces the head when it `is_better_than` it. -/
def forkChoice (C : Crypto) (s : Blockchain) (block : Block) : Except Panic Blockchain :=
  let (oldBestPath, oldDepth) := s.bestPathHead
  if oldDepth < block.depth then
    let s := { s with bestPathHead := (block.hash, block.depth) }
    if oldBestPath ≠ block.prevHash then rollback C s (oldBestPath, oldDepth) (block.hash, block.depth)
    else
      let ledger := proccessTransactions C s.ledger block.transactions
      .ok { s with ledger := ledger.rewardWinner block.draw.signedBy blockReward }
  else if block.depth = oldDepth then do
    let currBestBlock ← getBlockOrPanic s.blocks oldBestPath oldDepth
    if block.isBetterThan currBestBlock then
      rollback C { s with bestPathHead := (block.hash, block.depth) } (oldBestPath, oldDepth)
        (block.hash, block.depth)
    else .ok s
  else .ok s

/-- The fast path: a block deeper than the head that names the head as its parent becomes the
head, and its transactions and reward are applied as they come. -/
theorem forkChoice_extends {C : Crypto} {s : Blockchain} {block : Block}
    (extending : s.bestPathHead.1 = block.prevHash) (deeper : s.bestPathHead.2 < block.depth) :
    forkChoice C s block =
      .ok { s with bestPathHead := (block.hash, block.depth), ledger := applyBlock C s.ledger block } := by
  rcases hs : s.bestPathHead with ⟨oldBest, oldDepth⟩
  rw [hs] at extending deeper
  simp [forkChoice, hs, extending, deeper, applyBlock]

/-- `add_block` with `fuel` levels of orphan recursion left, reading the clock through `clock`; it
returns whether the head's hash changed. -/
def addBlockRec (C : Crypto) : (List Nat → Nat) → Nat → Blockchain → Block → Except Panic (Blockchain × Bool)
  | _, 0, _, _ => .error .outOfFuel
  | clock, fuel + 1, s, block =>
    if !C.verifyBlock block then .ok (s, false)
    else if block.depth = 0 then .error .depthUnderflow
    else match getBlock s.blocks block.prevHash (block.depth - 1) with
      | none => .ok (s.park block, false)
      | some parentBlock =>
        if block.timeslot ≤ parentBlock.timeslot ∨ clock [] < block.timeslot then .ok (s, false)
        else do
          let stored ← (s.grow block.depth).insertBlock block
          let chosen ← forkChoice C (stored.removeTransactions block.transactions) block
          let (orphans, rest) := chosen.takeOrphans block.hash
          let after ← orphans.enum.foldlM (fun st orphan =>
            (·.1) <$> addBlockRec C (fun p => clock (orphan.1 :: p)) fuel st orphan.2) rest
          .ok (after, s.bestPathHead.1 != after.bestPathHead.1)

/-- One round of the orphan loop of `addBlockRec`, as it stands there: the orphan at index
`orphan.1` submitted again with one level less, reading the clock at its own index. -/
def orphanStep (C : Crypto) (clock : List Nat → Nat) (fuel : Nat) (st : Blockchain) (orphan : Nat × Block) :
    Except Panic Blockchain :=
  (·.1) <$> addBlockRec C (fun p => clock (orphan.1 :: p)) fuel st orphan.2

/-- `Blockchain::add_block`. -/
def addBlock (C : Crypto) (clock : List Nat → Nat) (s : Blockchain) (block : Block) :
    Except Panic (Blockchain × Bool) :=
  addBlockRec C clock (s.orphanCount + 1) s block

/-- `Blockchain::add_transaction`. -/
def addTransaction (C : Crypto) (s : Blockchain) (t : Transaction) : Blockchain × Bool :=
  if C.verifyTransaction t && s.ledger.isTransactionPossible C t then
    ({ s with transactionBuffer := s.transactionBuffer.insert t }, true)
  else (s, false)

/-- The states some run reaches from `start` without a panic, submitting blocks of `U`. -/
inductive Reachable (C : Crypto) (U : Block → Prop) : Blockchain → Prop
  | start {rootAccounts : List Nat} {seedHash hash value : Nat} {s : Blockchain} :
      start rootAccounts seedHash hash value = .ok s →
      (∀ p ∈ rootAccounts.head?, U (genesisBlock p seedHash hash value)) → Reachable C U s
  | addBlock {s s' : Blockchain} {block : Block} {extended : Bool} (clock : List Nat → Nat) :
      Reachable C U s → U block → addBlock C clock s block = .ok (s', extended) → Reachable C U s'
  | addTransaction {s : Blockchain} (t : Transaction) :
      Reachable C U s → Reachable C U (addTransaction C s t).1

/-- A submission to the engine: a block or a transaction. -/
inductive Op where
  | block (b : Block)
  | transaction (t : Transaction)

/-- Submit `ops` in order, the clock reading `now` in every `add_block` call, nested ones included. -/
def run (C : Crypto) (now : Nat) : Blockchain → List Op → Except Panic Blockchain
  | s, [] => .ok s
  | s, .block b :: ops => do
    let (s, _) ← addBlock C (fun _ => now) s b
    run C now s ops
  | s, .transaction t :: ops => run C now (addTransaction C s t).1 ops

/-- The blocks a list of submissions holds. -/
def Op.blocks : List Op → List Block
  | [] => []
  | .block b :: ops => b :: Op.blocks ops
  | .transaction _ :: ops => Op.blocks ops

/-- Induction along a run, done once: a property of states kept by every `add_block` call on a
block of `U` and by every `add_transaction` call holds at the end of every run that does not
panic. -/
theorem run_preserves {C : Crypto} {U : Block → Prop} {now : Nat} (P : Blockchain → Prop)
    (block : ∀ s b s' extended, P s → U b → addBlock C (fun _ => now) s b = .ok (s', extended) → P s')
    (transaction : ∀ s t, P s → P (addTransaction C s t).1) :
    ∀ (ops : List Op) {s s' : Blockchain}, P s → (∀ b ∈ Op.blocks ops, U b) →
      run C now s ops = .ok s' → P s'
  | [], _, _, hs, _, h => by
    cases h
    exact hs
  | .block b :: ops, s, _, hs, within, h => by
    obtain ⟨⟨s₁, extended⟩, step, h⟩ := bind_eq_ok.1 h
    exact run_preserves P block transaction ops
      (block s b s₁ extended hs (within b (List.mem_cons_self b _)) step)
      (fun c hc => within c (List.mem_cons_of_mem b hc)) h
  | .transaction t :: ops, s, _, hs, within, h =>
    run_preserves P block transaction ops (transaction s t hs) within h

private theorem reachable_run {C : Crypto} {U : Block → Prop} {now : Nat} (ops : List Op) {s s' : Blockchain}
    (reach : Reachable C U s) (within : ∀ b ∈ Op.blocks ops, U b) (h : run C now s ops = .ok s') :
    Reachable C U s' :=
  run_preserves (Reachable C U) (fun _ _ _ _ reach hb step => .addBlock _ reach hb step)
    (fun _ t reach => .addTransaction t reach) ops reach within h

/-- Start the engine and submit `ops`; `hash` and `value` are the genesis block's hash and draw. -/
def runFromStart (C : Crypto) (now : Nat) (rootAccounts : List Nat) (seedHash hash value : Nat)
    (ops : List Op) : Except Panic Blockchain :=
  (start rootAccounts seedHash hash value).bind (run C now · ops)

theorem runFromStart_ok {C : Crypto} {now : Nat} {rootAccounts : List Nat} {seedHash hash value : Nat}
    {ops : List Op} {s : Blockchain} (h : runFromStart C now rootAccounts seedHash hash value ops = .ok s) :
    ∃ s₀, start rootAccounts seedHash hash value = .ok s₀ ∧ run C now s₀ ops = .ok s :=
  bind_eq_ok.1 h

theorem reachable_runFromStart {C : Crypto} {U : Block → Prop} {now : Nat} {rootAccounts : List Nat}
    {seedHash hash value : Nat} {ops : List Op} {s : Blockchain}
    (genesisIn : ∀ p ∈ rootAccounts.head?, U (genesisBlock p seedHash hash value))
    (within : ∀ b ∈ Op.blocks ops, U b)
    (h : runFromStart C now rootAccounts seedHash hash value ops = .ok s) : Reachable C U s := by
  obtain ⟨s₀, started, h⟩ := runFromStart_ok h
  exact reachable_run ops (.start started genesisIn) within h

/-- The verifier of honest signers, under which every signature checks. -/
def acceptAll : Crypto := ⟨fun _ => true, fun _ => true⟩

/-- The state a run ends in, or the empty state if it panics. -/
def Except.state (r : Except Panic Blockchain) : Blockchain :=
  match r with
  | .ok s => s
  | .error _ => ⟨[], (0, 0), Ledger.new, [], [], []⟩

/-- The blocks from depth one up to the block `blocks[depth]` stores under `hash`, following
`prev_hash` back one level at a time. -/
def pathTo (blocks : List Level) : Nat → Nat → Option (List Block)
  | 0, hash => (getBlock blocks hash 0).map fun _ => []
  | depth + 1, hash => do
    let block ← getBlock blocks hash (depth + 1)
    let path ← pathTo blocks depth block.prevHash
    pure (path ++ [block])

theorem pathTo_zero_eq_some {blocks : List Level} {hash : Nat} {path : List Block} :
    pathTo blocks 0 hash = some path ↔ (∃ g, getBlock blocks hash 0 = some g) ∧ path = [] := by
  simp only [pathTo, Option.map_eq_some']
  exact ⟨fun ⟨g, found, nil⟩ => ⟨⟨g, found⟩, nil.symm⟩,
    fun ⟨⟨g, found⟩, nil⟩ => ⟨g, found, nil.symm⟩⟩

theorem pathTo_succ_eq_some {blocks : List Level} {depth hash : Nat} {path : List Block} :
    pathTo blocks (depth + 1) hash = some path ↔
      ∃ block path', getBlock blocks hash (depth + 1) = some block ∧
        pathTo blocks depth block.prevHash = some path' ∧ path = path' ++ [block] := by
  simp only [pathTo, Option.bind_eq_bind, Option.bind_eq_some, Option.pure_def, Option.some.injEq]
  exact ⟨fun ⟨b, found, p, walk, eq⟩ => ⟨b, p, found, walk, eq.symm⟩,
    fun ⟨b, p, found, walk, eq⟩ => ⟨b, found, p, walk, eq.symm⟩⟩

/-- The best path, from depth one up to `best_path_head`. -/
def bestPath (s : Blockchain) : Option (List Block) := pathTo s.blocks s.bestPathHead.2 s.bestPathHead.1

/-- The ledger of the genesis state with the blocks of `path` applied in order. -/
def replayPath (C : Crypto) (rootAccounts : List Nat) (path : List Block) : Ledger :=
  path.foldl (applyBlock C) (genesisLedger rootAccounts)

/-- The ledger replayed from genesis along the best path. -/
def replay (C : Crypto) (s : Blockchain) : Option Ledger := (bestPath s).map (replayPath C s.rootAccounts)

/-- `Blockchain::check_best_path`; a level's values are taken in the order the level lists them. -/
def checkBestPath (s : Blockchain) : Except Panic Bool :=
  let maxDepth := s.bestPathHead.2
  if s.blocks.length = 0 then .error .depthUnderflow
  else if s.blocks.length - 1 ≠ maxDepth then .ok false
  else match s.blocks[maxDepth]? with
    | none => .error .unwrapNone
    | some blocksAtMaxDepth =>
      if blocksAtMaxDepth = [] then .ok false
      else if 1 < blocksAtMaxDepth.length then
        let blocks := blocksAtMaxDepth.map (·.2)
        match blocks.getLast? with
        | none => .error .unwrapNone
        | some last =>
          let greatest := blocks.dropLast.foldl
            (fun greatest block => if !greatest.isBetterThan block then block else greatest) last
          .ok ((greatest.hash, greatest.depth) = s.bestPathHead)
      else .ok true

/-! ## The fast path does not check transactions

`forkChoice_extends` applies a block's transactions through `proccess_transactions`, which drops
the result of each `process_transaction`: a block whose transaction fails still extends the head,
and the fee of the failed transaction is never charged. -/

/-- A transaction from an account that holds nothing. -/
def failingTx : Transaction := ⟨3, 1, 10, 1⟩

/-- A child of the genesis holding `failingTx`. -/
def failingBlock : Block := ⟨1, 100, 1, ⟨1, 1, 100, 0⟩, [failingTx], 101⟩

/-- The state after `failingBlock` extends the genesis of a single root account. -/
def failingState : Blockchain :=
  Except.state (runFromStart acceptAll 10 [1] 0 100 0 [.block failingBlock])

/-- The fast path applies `failingBlock` although `failingTx` fails: no fee is charged, and the
money in the ledger exceeds the supply the spec counts for the best path by that fee. -/
theorem failed_transaction_escapes_fee :
    Reachable acceptAll (fun _ => True) failingState ∧ bestPath failingState = some [failingBlock] ∧
      failingState.ledger.getTotalMoneyInLedger = 350 ∧
      (bestPath failingState).map (fun path => rootAmount * failingState.rootAccounts.length +
        blockReward * path.length - transactionFee * (path.map (·.transactions.length)).sum) = some 349 :=
  ⟨reachable_runFromStart (by simp) (by simp)
    (show runFromStart acceptAll 10 [1] 0 100 0 [.block failingBlock] = .ok failingState from rfl),
    rfl, rfl, rfl⟩

end Lassecoin.Chain.AddBlock
