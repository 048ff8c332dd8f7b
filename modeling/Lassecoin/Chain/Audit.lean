import Lassecoin.Chain.Walk

/-!
# `verify_chain`, the audit

`verify_chain` checks the best path with `check_best_path`, takes the genesis as the one block of
level zero, walks from the head down to it pushing every pointer, and pops the pointers again,
oldest first, checking each block against a ledger it rebuilds from the root accounts: the
timeslot rises, `prev_hash` names the block before, `verify_all` passes, the producer wins the
lottery, and every transaction applies. It then checks the genesis and compares the rebuilt
ledger with the live one.

`verify_all` and `verify_genesis` belong to the `block` module, which is not part of the source
tree: they are parameters here. `verify_all` is always given the empty set of previous
transactions, so it is a function of the block alone.

On every reachable state, when the submitted blocks carry distinct hashes, the walk follows the
best path and the timeslot and `prev_hash` checks always pass: `verify_chain` panics nowhere and
returns exactly the audit of the spec (§4.4.5) along the best path, `auditPath`, compared with the
live ledger. On any state the audit passes, a ledger credited behind the engine's back fails it.
-/

set_option autoImplicit false
set_option relaxedAutoImplicit false

namespace Lassecoin.Chain.Audit

open Lassecoin.Types Lassecoin.Balances Lassecoin.Chain.State Lassecoin.Chain.AddBlock
open Lassecoin.Chain.Shape Lassecoin.Chain.ForkChoice Lassecoin.Chain.Walk Lassecoin.Lottery

variable {C : Crypto}

/-! ## The model -/

/-- `transactions.iter().all(|t| ledger.process_transaction(t))`: apply each transaction in turn,
stopping at the first that fails. -/
def processAll (C : Crypto) (ledger : Ledger) : List Transaction → Option Ledger
  | [] => some ledger
  | t :: ts =>
    match ledger.processTransaction C t with
    | (ledger, true) => processAll C ledger ts
    | (_, false) => none

/-- The first loop of `verify_chain`: push the pointer and step to the parent, until the genesis
pointer. The stack comes back oldest first, in the order `pop` reads it. -/
def walkToGenesis (blocks : List Level) (genesis : Nat × Nat) :
    Nat → Nat × Nat → List (Nat × Nat) → Except Panic (List (Nat × Nat))
  | 0, _, _ => .error .outOfFuel
  | fuel + 1, ptr, stack =>
    if ptr = genesis then .ok stack
    else do
      let block ← getBlockOrPanic blocks ptr.1 ptr.2
      if ptr.2 = 0 then .error .depthUnderflow
      else walkToGenesis blocks genesis fuel (block.prevHash, ptr.2 - 1) (ptr :: stack)

/-- The second loop of `verify_chain`: check the blocks of the stack, oldest first, against the
ledger rebuilt so far. `none` is a `return false`. -/
def checkTrack (C : Crypto) (verifyAll : Block → Bool) (blocks : List Level) :
    List (Nat × Nat) → Nat × Nat → Nat → Ledger → Except Panic (Option Ledger)
  | [], _, _, ledger => .ok (some ledger)
  | (hash, depth) :: track, prevPtr, prevTs, ledger => do
    let block ← getBlockOrPanic blocks hash depth
    if block.timeslot ≤ prevTs then .ok none
    else if block.prevHash ≠ prevPtr.1 then .ok none
    else if !verifyAll block then .ok none
    else if !isWinner ledger block.draw block.draw.signedBy then .ok none
    else match processAll C ledger block.transactions with
      | none => .ok none
      | some ledger =>
        checkTrack C verifyAll blocks track (hash, depth) block.timeslot
          (ledger.rewardWinner block.draw.signedBy blockReward)

/-- `verify_chain` up to the comparison of ledgers: `track_ledger`, or `none` where it returns
false. The walk is given one round more than the head's depth, which it never exhausts
(`walkToGenesis_enough_fuel`). -/
def trackLedger (C : Crypto) (verifyAll : Block → Bool) (verifyGenesis : Block → List Nat → Bool)
    (s : Blockchain) : Except Panic (Option Ledger) := do
  if !(← checkBestPath s) then return none
  match s.blocks[0]? with
  | none => .error .unwrapNone
  | some [(_, first)] =>
    let genesisPtr := (first.hash, 0)
    let track ← walkToGenesis s.blocks genesisPtr (s.bestPathHead.2 + 1) s.bestPathHead []
    let genesis ← getBlockOrPanic s.blocks genesisPtr.1 genesisPtr.2
    match ← checkTrack C verifyAll s.blocks track genesisPtr genesis.timeslot
        (genesisLedger s.rootAccounts) with
    | none => .ok none
    | some ledger =>
      if !genesis.transactions.isEmpty || !verifyGenesis genesis s.rootAccounts then .ok none
      else .ok (some ledger)
  | some _ => .ok none

/-- `Blockchain::verify_chain`: the rebuilt ledger must equal the live one. -/
def verifyChain (C : Crypto) (verifyAll : Block → Bool) (verifyGenesis : Block → List Nat → Bool)
    (s : Blockchain) : Except Panic Bool := do
  let rebuilt ← trackLedger C verifyAll verifyGenesis s
  return rebuilt.any s.ledger.sameAs

private theorem walkToGenesis_enough_fuel (blocks : List Level) (genesis : Nat × Nat) :
    ∀ d h stack, walkToGenesis blocks genesis (d + 1) (h, d) stack ≠ .error .outOfFuel
  | 0, h, stack => by
    unfold walkToGenesis
    split
    · simp
    · cases found : getBlock blocks h 0 <;> simp [getBlockOrPanic, found, bind, Except.bind]
  | d + 1, h, stack => by
    unfold walkToGenesis
    split
    · simp
    · cases found : getBlock blocks h (d + 1) <;>
        simp [getBlockOrPanic, found, bind, Except.bind, walkToGenesis_enough_fuel blocks genesis d]

/-! ## The audit of the spec -/

/-- The audit of the spec (§4.4.5) along a path, from the ledger rebuilt so far: each block
passes `verify_all`, its producer wins the lottery against the ledger before it, and all its
transactions apply. The rebuilt ledger at the end, or `none`. -/
def auditPath (C : Crypto) (verifyAll : Block → Bool) : List Block → Ledger → Option Ledger
  | [], ledger => some ledger
  | b :: path, ledger =>
    if verifyAll b && isWinner ledger b.draw b.draw.signedBy then
      (processAll C ledger b.transactions).bind fun ledger =>
        auditPath C verifyAll path (ledger.rewardWinner b.draw.signedBy blockReward)
    else none

/-- A block's pointer `(hash, depth)`. -/
def pointer (b : Block) : Nat × Nat := (b.hash, b.depth)

/-- `b` follows `prev` on a path: it is younger and names `prev` as its parent. -/
def Linked (prev b : Block) : Prop := prev.timeslot < b.timeslot ∧ b.prevHash = prev.hash

/-! ## The two loops on the best path -/

private theorem checkTrack_of_chain (verifyAll : Block → Bool) (blocks : List Level) :
    ∀ path prev ledger, List.Chain Linked prev path →
      (∀ b ∈ path, getBlock blocks b.hash b.depth = some b) →
      checkTrack C verifyAll blocks (path.map pointer) (pointer prev) prev.timeslot ledger =
        .ok (auditPath C verifyAll path ledger)
  | [], _, _, _, _ => rfl
  | b :: path, prev, ledger, chain, stored => by
    obtain ⟨⟨younger, linked⟩, rest⟩ := List.chain_cons.1 chain
    have found := stored b (List.mem_cons_self b path)
    simp only [List.map_cons, pointer, checkTrack, getBlockOrPanic_of_getBlock found, bind, Except.bind,
      if_neg (Nat.not_le.2 younger), linked, ne_eq, not_true_eq_false, if_false, auditPath]
    cases verifyAll b <;> cases isWinner ledger b.draw b.draw.signedBy <;> simp only [Bool.not_false,
      Bool.not_true, Bool.and_false, Bool.and_true, Bool.false_eq_true, if_false, if_true]
    cases processAll C ledger b.transactions with
    | none => rfl
    | some next =>
      exact checkTrack_of_chain verifyAll blocks path b _ rest
        (fun x member => stored x (List.mem_cons_of_mem b member))

section Reachable

variable {U : Block → Prop} {s : Blockchain}

private theorem eq_genesis_of_getBlock {g b : Block} {h : Nat} (zero : levelAt s.blocks 0 = [(g.hash, g)])
    (found : getBlock s.blocks h 0 = some b) : h = g.hash ∧ b = g := by
  have member := mem_levelAt_of_getBlock found
  rwa [zero, List.mem_singleton, Prod.mk.injEq] at member

private theorem walkToGenesis_of_pathTo (shape : TreeOK C s) {g : Block} (zero : levelAt s.blocks 0 = [(g.hash, g)]) :
    ∀ d h path stack, pathTo s.blocks d h = some path →
      walkToGenesis s.blocks (g.hash, 0) (d + 1) (h, d) stack = .ok (path.map pointer ++ stack)
  | 0, h, path, stack, walk => by
    obtain ⟨⟨b, found⟩, rfl⟩ := pathTo_zero_eq_some.1 walk
    simp [walkToGenesis, (eq_genesis_of_getBlock zero found).1]
  | d + 1, h, path, stack, walk => by
    obtain ⟨b, path', found, walk', rfl⟩ := pathTo_succ_eq_some.1 walk
    obtain ⟨hash, depth⟩ := shape.entries _ _ _ (mem_levelAt_of_getBlock found)
    rw [walkToGenesis]
    simp only [Prod.mk.injEq, Nat.succ_ne_zero, and_false, if_false,
      getBlockOrPanic_of_getBlock found, bind, Except.bind, Nat.add_sub_cancel]
    rw [walkToGenesis_of_pathTo shape zero d b.prevHash path' _ walk']
    simp [pointer, hash, depth]

private theorem chain_pathTo (shape : TreeOK C s) (ok : Consistent U s) {g : Block}
    (zero : levelAt s.blocks 0 = [(g.hash, g)]) :
    ∀ d h path, pathTo s.blocks d h = some path →
      List.Chain' Linked (g :: path) ∧ (g :: path).getLast? = getBlock s.blocks h d
  | 0, h, path, walk => by
    obtain ⟨⟨b, found⟩, rfl⟩ := pathTo_zero_eq_some.1 walk
    exact ⟨List.chain'_singleton g, by rw [found, (eq_genesis_of_getBlock zero found).2]; rfl⟩
  | d + 1, h, path, walk => by
    obtain ⟨b, path', found, walk', rfl⟩ := pathTo_succ_eq_some.1 walk
    obtain ⟨chain, last⟩ := chain_pathTo shape ok zero d b.prevHash path' walk'
    obtain ⟨p, parent, older⟩ := ok.ordered _ _ _ (mem_levelAt_of_getBlock found)
    have named := (shape.entries _ _ _ (mem_levelAt_of_getBlock parent)).1
    refine ⟨List.Chain'.append chain (List.chain'_singleton b) fun x hx y hy => ?_,
      by rw [found, ← List.cons_append, List.getLast?_concat]⟩
    rw [last, parent, Option.mem_def, Option.some.injEq] at hx
    rw [List.head?_cons, Option.mem_def, Option.some.injEq] at hy
    subst hx hy
    exact ⟨older, named.symm⟩

private theorem trackLedger_reachable (inj : HashInjective U) (reach : Reachable C U s)
    (verifyAll : Block → Bool) (verifyGenesis : Block → List Nat → Bool) :
    ∃ g path, s.blocks[0]? = some [(g.hash, g)] ∧ bestPath s = some path ∧
      trackLedger C verifyAll verifyGenesis s =
        .ok (if verifyGenesis g s.rootAccounts then auditPath C verifyAll path (genesisLedger s.rootAccounts)
          else none) := by
  have shape := treeOK_reachable reach
  have ok := consistent_reachable inj.levelInjective reach
  obtain ⟨p, seedHash, hash, value, -, zero⟩ := shape.genesis
  obtain ⟨tip, found, beats⟩ := ok.headBest
  obtain ⟨path, walk, -⟩ := pathTo_of_getBlock shape _ _ tip found
  have first : s.blocks[0]? = some [(hash, genesisBlock p seedHash hash value)] := by
    rw [← zero]
    exact getElem?_eq_levelAt (List.length_pos.2 (blocks_ne_nil shape))
  have stored : ∀ b ∈ path, getBlock s.blocks b.hash b.depth = some b := by
    intro b member
    obtain ⟨k, e, found⟩ := stored_of_mem_pathTo s.blocks _ _ path walk b member
    obtain ⟨rfl, depth⟩ := shape.entries _ _ _ (mem_levelAt_of_getBlock found)
    rwa [depth]
  have genesis : getBlock s.blocks (genesisBlock p seedHash hash value).hash 0 =
      some (genesisBlock p seedHash hash value) := by
    simp [getBlock_eq_lookup, zero, genesisBlock]
  refine ⟨genesisBlock p seedHash hash value, path, first, walk, ?_⟩
  simp only [trackLedger, checkBestPath_of_best shape ok.headDepth found beats, first, bind, Except.bind,
    pure, Except.pure, Bool.not_true, Bool.false_eq_true, if_false]
  rw [walkToGenesis_of_pathTo shape zero _ _ path [] walk]
  simp only [List.append_nil, getBlockOrPanic_of_getBlock genesis]
  erw [checkTrack_of_chain verifyAll s.blocks path _ _ (chain_pathTo shape ok zero _ _ path walk).1 stored]
  cases auditPath C verifyAll path (genesisLedger s.rootAccounts) <;>
    cases verifyGenesis (genesisBlock p seedHash hash value) s.rootAccounts <;> rfl

/-- The audit on reachable states: when the submitted blocks carry distinct hashes, `verify_chain`
panics nowhere and returns true exactly when the genesis verifies, the audit of the spec along the
best path succeeds, and the ledger it rebuilds equals the live one. The timeslot and `prev_hash`
checks and `check_best_path` never fail there. -/
theorem verify_chain_audits_best_path (inj : HashInjective U) (reach : Reachable C U s)
    (verifyAll : Block → Bool) (verifyGenesis : Block → List Nat → Bool) :
    ∃ g path, s.blocks[0]? = some [(g.hash, g)] ∧ bestPath s = some path ∧
      verifyChain C verifyAll verifyGenesis s =
        .ok (verifyGenesis g s.rootAccounts &&
          (auditPath C verifyAll path (genesisLedger s.rootAccounts)).any s.ledger.sameAs) := by
  obtain ⟨g, path, first, best, track⟩ := trackLedger_reachable inj reach verifyAll verifyGenesis
  refine ⟨g, path, first, best, ?_⟩
  simp only [verifyChain, track, bind, Except.bind, pure, Except.pure]
  cases verifyGenesis g s.rootAccounts <;> rfl

/-- The blocks in play when `forkA` alone is submitted. -/
def loneForkBlocks : List Block := [genesisBlock 1 0 100 0, forkA]

theorem verify_chain_rejects_lone_fork :
    HashInjective (· ∈ loneForkBlocks) ∧ Reachable acceptAll (· ∈ loneForkBlocks) loneForkState ∧
      verifyChain acceptAll (fun _ => true) (fun _ _ => true) loneForkState = .ok false := by
  have inj := hashInjective_of_nodup loneForkBlocks (by decide)
  have reach : Reachable acceptAll (· ∈ loneForkBlocks) loneForkState :=
    reachable_runFromStart (by simp [loneForkBlocks]) (by simp [loneForkBlocks, Op.blocks])
      (show runFromStart acceptAll 10 [1] 0 100 0 [.block forkA] = .ok loneForkState from rfl)
  obtain ⟨g, path, -, best, audit⟩ := verify_chain_audits_best_path inj reach (fun _ => true) (fun _ _ => true)
  obtain rfl : path = [forkA] := Option.some.inj (best.symm.trans rfl)
  have losing :
      isWinner (genesisLedger loneForkState.rootAccounts) forkA.draw forkA.draw.signedBy = false := by
    decide
  refine ⟨inj, reach, ?_⟩
  simp [audit, auditPath, losing]

end Reachable

/-! ## A ledger edited behind the engine's back -/

/-- The audit pins the live ledger down: on a state `verify_chain` accepts, crediting any amount
to any account makes it fail (the spec's scenario of an illegal mutation). -/
theorem tampered_ledger_fails_audit {verifyAll : Block → Bool} {verifyGenesis : Block → List Nat → Bool}
    {s : Blockchain} (valid : verifyChain C verifyAll verifyGenesis s = .ok true) (a amount : Nat)
    (positive : 0 < amount) :
    verifyChain C verifyAll verifyGenesis { s with ledger := s.ledger.rewardWinner a amount } = .ok false := by
  have frame : trackLedger C verifyAll verifyGenesis { s with ledger := s.ledger.rewardWinner a amount } =
      trackLedger C verifyAll verifyGenesis s := rfl
  simp only [verifyChain, frame, bind, Except.bind, pure, Except.pure] at valid ⊢
  rcases track : trackLedger C verifyAll verifyGenesis s with _ | _ | rebuilt <;>
    simp only [track, Except.ok.injEq, Option.any_none, Option.any_some, reduceCtorEq,
      Bool.false_eq_true] at valid ⊢
  cases tampered : (s.ledger.rewardWinner a amount).sameAs rebuilt
  · rfl
  · have before := Ledger.getBalance_eq_of_sameAs valid a
    have after := Ledger.getBalance_eq_of_sameAs tampered a
    simp only [Ledger.rewardWinner, Ledger.getBalance_setBalance, if_true] at after
    omega

/-- A child of the genesis whose draw wins, carrying a payment from root account 1 to account 2. -/
def honestBlock : Block := ⟨1, 100, 1, ⟨1, 1, 100, 2 ^ 256 - 1⟩, [⟨1, 2, 10, 1⟩], 101⟩

/-- The state after `honestBlock` extends the genesis of a single root account. -/
def honestState : Blockchain := Except.state (runFromStart acceptAll 10 [1] 0 100 0 [.block honestBlock])

theorem tampered_ledger_fails_audit_after_honest_block :
    verifyChain acceptAll (fun _ => true) (fun _ _ => true) honestState = .ok true ∧ 0 < 50 ∧
      verifyChain acceptAll (fun _ => true) (fun _ _ => true)
        { honestState with ledger := honestState.ledger.rewardWinner 1 50 } = .ok false := by
  have valid : verifyChain acceptAll (fun _ => true) (fun _ _ => true) honestState = .ok true := rfl
  exact ⟨valid, by decide, tampered_ledger_fails_audit valid 1 50 (by decide)⟩

end Lassecoin.Chain.Audit
