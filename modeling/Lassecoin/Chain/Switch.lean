import Lassecoin.Chain.Audit

/-!
# `rollback`, a switch between two branches

`rollback(from, to)` walks two pointers down the tree: `to_ptr` alone while it is deeper, then both
together, until they meet at the fork point. It pushes every block `to_ptr` leaves on the track and
rolls back every block `from_ptr` leaves; a second loop pops the track and applies its blocks.

Against the two branches above the fork point, newest first (`Descends`), the walk pushes exactly
the new branch and undoes exactly the old one, newest first (`undoBranch`). Each undone block has
its transactions rolled back after a reward is taken back from the producer of the new branch's
block one level below it, or, for a block at depth one, of the new branch's block at depth one; a
block at depth one also returns its transactions to the buffer. The replay then applies the new
branch oldest first. On every well-formed tree the two branches exist.

Each round of the walk is followed by runs of the engine on which what the spec says of the
ledger or the buffer fails because of it. Between two children of the genesis the walk takes the
reward back from the new block's producer, not the old block's, and returns every transaction of
the old block to the buffer, also those the new block holds. Above depth one it returns none.
-/

set_option autoImplicit false
set_option relaxedAutoImplicit false

namespace Lassecoin.Chain.Switch

open Lassecoin.Types Lassecoin.Balances Lassecoin.Chain.State Lassecoin.Chain.Rollback
open Lassecoin.Chain.AddBlock Lassecoin.Chain.Step Lassecoin.Chain.Shape Lassecoin.Chain.Audit
open Lassecoin.Chain.ForkChoice Lassecoin.Chain.Walk

/-! ## Branches -/

/-- Going down from `top` one parent at a time, as `rollback` looks parents up, passes the blocks of
`branch`, newest first and `top` first, and then reaches `base`. -/
inductive Descends (blocks : List Level) : Block → List Block → Block → Prop
  | base (block : Block) : Descends blocks block [] block
  | step {top parent base : Block} {branch : List Block} :
      getBlock blocks top.prevHash (top.depth - 1) = some parent → top.depth = parent.depth + 1 →
      Descends blocks parent branch base → Descends blocks top (top :: branch) base

namespace Descends

variable {blocks : List Level} {top base : Block} {branch : List Block}

private theorem depth_eq (h : Descends blocks top branch base) : top.depth = base.depth + branch.length := by
  induction h with
  | base => rfl
  | step _ deeper _ ih =>
    rw [deeper, ih, List.length_cons]
    omega

private theorem depth_of_mem (h : Descends blocks top branch base) {x : Block} (member : x ∈ branch) :
    base.depth < x.depth ∧ x.depth ≤ top.depth := by
  induction h with
  | base => cases member
  | step _ deeper rest ih =>
    rcases List.mem_cons.1 member with rfl | later
    · have := rest.depth_eq
      omega
    · have := ih later
      omega

private theorem eq_of_nil (h : Descends blocks top [] base) : top = base := by
  cases h
  rfl

private theorem mem_of_deeper (h : Descends blocks top branch base) {a : Block} {branch' : List Block}
    (h' : Descends blocks top branch' a) (deeper : base.depth < a.depth) : a ∈ branch := by
  induction h generalizing branch' with
  | base =>
    have := h'.depth_eq
    omega
  | step found _ _ ih =>
    cases h' with
    | base => exact List.mem_cons_self _ _
    | step found' _ rest' =>
      rw [found, Option.some.injEq] at found'
      subst found'
      exact List.mem_cons_of_mem _ (ih rest' deeper)

end Descends

/-- Every level stores each block under its own hash and at its own depth, as every well-formed
tree does. -/
def Keyed (blocks : List Level) : Prop := ∀ d h b, (h, b) ∈ levelAt blocks d → b.hash = h ∧ b.depth = d

namespace Keyed

variable {blocks : List Level} {h d : Nat} {b : Block}

private theorem pointer_eq (keyed : Keyed blocks) (found : getBlock blocks h d = some b) : b.hash = h ∧ b.depth = d :=
  keyed d h b (mem_levelAt_of_getBlock found)

theorem stored (keyed : Keyed blocks) (found : getBlock blocks h d = some b) :
    getBlock blocks b.hash b.depth = some b := by
  obtain ⟨rfl, rfl⟩ := keyed.pointer_eq found
  exact found

theorem insert {s stored : Blockchain} (keyed : Keyed s.blocks)
    (hstored : (s.grow b.depth).insertBlock b = .ok stored) : Keyed stored.blocks := by
  intro d h x member
  rcases mem_levelAt_stored hstored member with ⟨rfl, same⟩ | ⟨old, -⟩
  · obtain ⟨rfl, rfl⟩ := Prod.mk.inj same
    exact ⟨rfl, rfl⟩
  · exact keyed d h x old

end Keyed

theorem Descends.stored {blocks : List Level} {top base : Block} {branch : List Block} (keyed : Keyed blocks)
    (h : Descends blocks top branch base) (topStored : getBlock blocks top.hash top.depth = some top) :
    ∀ x ∈ branch, getBlock blocks x.hash x.depth = some x := by
  induction h with
  | base => exact fun x member => absurd member (List.not_mem_nil x)
  | step found _ _ ih =>
    intro x member
    rcases List.mem_cons.1 member with rfl | later
    · exact topStored
    · exact ih (keyed.stored found) x later

/-! ## What the walk does -/

/-- The block of `newBranch` (newest first) or the fork point `fork` that sits at `depth`. -/
def onNewBranch (newBranch : List Block) (fork : Block) (depth : Nat) : Block :=
  ((newBranch ++ [fork]).find? (·.depth = depth)).getD fork

/-- Undo the old branch, newest first, as `rollback`'s walk does: take a reward back from the
producer of the new branch's block one level below the undone block (at depth one, of the new
branch's block at depth one), then roll back the undone block's transactions, returning them to
the buffer when the undone block sits at depth one. -/
def undoBranch (newBranch : List Block) (fork : Block) :
    List Block → Ledger → List Transaction → Except Panic (Ledger × List Transaction)
  | [], ledger, buffer => .ok (ledger, buffer)
  | undone :: oldBranch, ledger, buffer => do
    let ledger ← ledger.rollbackReward (onNewBranch newBranch fork (max (undone.depth - 1) 1)).draw.signedBy
    let (ledger, buffer) ← if undone.depth = 1 then rollbackAndReadd ledger buffer undone.transactions
      else (·, buffer) <$> rollbackTransactions ledger undone.transactions
    undoBranch newBranch fork oldBranch ledger buffer

private theorem onNewBranch_cons {newBranch : List Block} {fork t : Block} {depth : Nat} (other : t.depth ≠ depth) :
    onNewBranch (t :: newBranch) fork depth = onNewBranch newBranch fork depth := by
  simp [onNewBranch, List.find?_cons, other]

private theorem onNewBranch_of_descends {blocks : List Level} {top fork : Block} {branch : List Block}
    (h : Descends blocks top branch fork) : onNewBranch branch fork top.depth = top := by
  cases h <;> simp [onNewBranch, List.find?_cons]

private theorem undoBranch_cons_new {newBranch : List Block} {fork t : Block} :
    ∀ {oldBranch : List Block}, (∀ f ∈ oldBranch, max (f.depth - 1) 1 ≠ t.depth) →
      ∀ ledger buffer, undoBranch (t :: newBranch) fork oldBranch ledger buffer =
        undoBranch newBranch fork oldBranch ledger buffer
  | [], _, _, _ => rfl
  | f :: oldBranch, unread, ledger, buffer => by
    simp only [undoBranch, onNewBranch_cons (unread f (List.mem_cons_self f _)).symm,
      undoBranch_cons_new (fun g member => unread g (List.mem_cons_of_mem f member))]

private theorem undoBranch_buffer {newBranch : List Block} {fork : Block} :
    ∀ {oldBranch : List Block} {ledger : Ledger} {buffer : List Transaction} {r : Ledger × List Transaction},
      (∀ x ∈ oldBranch, x.depth ≠ 1) → undoBranch newBranch fork oldBranch ledger buffer = .ok r → r.2 = buffer
  | [], _, _, _, _, h => by
    cases h
    rfl
  | undone :: oldBranch, ledger, buffer, r, deep, h => by
    simp only [undoBranch, if_neg (deep undone (List.mem_cons_self _ _))] at h
    obtain ⟨l, -, h⟩ := bind_eq_ok.1 h
    obtain ⟨⟨l', buffer'⟩, rolled, h⟩ := bind_eq_ok.1 h
    cases rolledBack : rollbackTransactions l undone.transactions <;>
      simp only [rolledBack, Functor.map, Except.map, Except.ok.injEq, Prod.mk.injEq, reduceCtorEq] at rolled
    rw [rolled.2]
    exact undoBranch_buffer (fun x member => deep x (List.mem_cons_of_mem _ member)) h

/-! ## The walk -/

section Rounds

variable {blocks : List Level} {fuel : Nat} {fromPtr toPtr : Block} {track : List (Nat × Nat)} {ledger : Ledger}
  {buffer : List Transaction}

private theorem rollbackWalk_deeper {toParent : Block} (ne : fromPtr ≠ toPtr) (deeper : fromPtr.depth < toPtr.depth)
    (found : getBlock blocks toPtr.prevHash (toPtr.depth - 1) = some toParent) :
    rollbackWalk blocks (fuel + 1) fromPtr toPtr track ledger buffer =
      rollbackWalk blocks fuel fromPtr toParent ((toPtr.hash, toPtr.depth) :: track) ledger buffer := by
  simp only [rollbackWalk, if_neg ne,
    if_neg (show ¬(toPtr.depth = 1 ∧ fromPtr.depth = 1 ∧ toPtr.prevHash = fromPtr.prevHash) by omega),
    if_neg (show toPtr.depth ≠ 0 by omega), getBlockOrPanic_of_getBlock found,
    if_neg (show toPtr.depth ≠ fromPtr.depth by omega), bind, Except.bind]

private theorem rollbackWalk_siblings (ne : fromPtr ≠ toPtr) (toOne : toPtr.depth = 1) (fromOne : fromPtr.depth = 1)
    (siblings : toPtr.prevHash = fromPtr.prevHash) :
    rollbackWalk blocks (fuel + 1) fromPtr toPtr track ledger buffer = (do
      let ledger ← ledger.rollbackReward toPtr.draw.signedBy
      let (ledger, buffer) ← rollbackAndReadd ledger buffer fromPtr.transactions
      .ok ((toPtr.hash, toPtr.depth) :: track, ledger, buffer)) := by
  simp only [rollbackWalk, if_neg ne, if_pos (show toPtr.depth = 1 ∧ fromPtr.depth = 1 ∧
    toPtr.prevHash = fromPtr.prevHash from ⟨toOne, fromOne, siblings⟩)]

private theorem rollbackWalk_level {toParent fromParent : Block} (ne : fromPtr ≠ toPtr) (level : toPtr.depth = fromPtr.depth)
    (above : 1 < toPtr.depth) (toFound : getBlock blocks toPtr.prevHash (toPtr.depth - 1) = some toParent)
    (fromFound : getBlock blocks fromPtr.prevHash (fromPtr.depth - 1) = some fromParent) :
    rollbackWalk blocks (fuel + 1) fromPtr toPtr track ledger buffer = (do
      let ledger ← ledger.rollbackReward toParent.draw.signedBy
      let ledger ← rollbackTransactions ledger fromPtr.transactions
      rollbackWalk blocks fuel fromParent toParent ((toPtr.hash, toPtr.depth) :: track) ledger buffer) := by
  simp only [rollbackWalk, if_neg ne,
    if_neg (show ¬(toPtr.depth = 1 ∧ fromPtr.depth = 1 ∧ toPtr.prevHash = fromPtr.prevHash) by omega),
    if_neg (show toPtr.depth ≠ 0 by omega), getBlockOrPanic_of_getBlock toFound, if_pos level,
    getBlockOrPanic_of_getBlock fromFound, bind, Except.bind]

end Rounds

/-! ## A switch between two children of the genesis -/

/-- After `forkB` replaces `forkA`, account 1 keeps the reward of `forkA`, which is off the best
path, while the replay of the best path `[forkB]` gives account 1 only its root amount. -/
theorem ledger_differs_from_replay_after_switch :
    HashInjective (· ∈ forkBlocks) ∧ Reachable acceptAll (· ∈ forkBlocks) forkState ∧
      bestPath forkState = some [forkB] ∧ forkState.ledger.getBalance 1 = 350 ∧
      (replay acceptAll forkState).map (·.getBalance 1) = some 300 :=
  ⟨hashInjective_of_nodup forkBlocks (by decide),
    reachable_runFromStart (by simp [forkBlocks]) (by simp [forkBlocks, Op.blocks])
      (show runFromStart acceptAll 10 [1, 2] 0 100 0 [.block forkA, .block forkB] = .ok forkState from rfl),
    rfl, rfl, rfl⟩

/-- With a single root account, the producer of `forkB` holds nothing when `forkB` replaces
`forkA`, and taking the reward back from it underflows. -/
theorem switch_underflows_new_producer :
    Reachable acceptAll (fun _ => True) loneForkState ∧ loneForkState.ledger.getBalance forkB.draw.signedBy = 0 ∧
      addBlock acceptAll (fun _ => 10) loneForkState forkB = .error .balanceUnderflow :=
  ⟨loneForkState_reachable, rfl, rfl⟩

/-- A transaction both children of the genesis hold. -/
def sharedTx : Transaction := ⟨1, 2, 10, 1⟩

/-- A child of the genesis holding `sharedTx`. -/
def sharedA : Block := ⟨1, 100, 1, ⟨1, 1, 100, 0⟩, [sharedTx], 101⟩

/-- A better child of the genesis, also holding `sharedTx`. -/
def sharedB : Block := ⟨1, 100, 1, ⟨1, 2, 100, 5⟩, [sharedTx], 102⟩

/-- The state after `sharedA` and then `sharedB` are submitted. -/
def sharedState : Blockchain :=
  Except.state (runFromStart acceptAll 10 [1, 2] 0 100 0 [.block sharedA, .block sharedB])

/-- The switch from `sharedA` to `sharedB` returns `sharedTx` to the buffer although the new best
block holds it. -/
theorem buffer_keeps_transaction_on_best_path :
    Reachable acceptAll (fun _ => True) sharedState ∧ bestPath sharedState = some [sharedB] ∧
      sharedTx ∈ sharedB.transactions ∧ sharedTx ∈ sharedState.transactionBuffer :=
  ⟨reachable_runFromStart (by simp) (by simp)
    (show runFromStart acceptAll 10 [1, 2] 0 100 0 [.block sharedA, .block sharedB] = .ok sharedState from rfl),
    rfl, by decide, by decide⟩

private theorem rollbackWalk_switch {blocks : List Level} (keys : ∀ d h b, (h, b) ∈ levelAt blocks d → b.hash = h)
    {fork toPtr : Block} {newBranch : List Block} (new : Descends blocks toPtr newBranch fork) :
    ∀ {fromPtr : Block} {oldBranch : List Block} (fuel : Nat) (track : List (Nat × Nat)) (ledger : Ledger)
      (buffer : List Transaction), Descends blocks fromPtr oldBranch fork → (∀ x ∈ oldBranch, x ∉ newBranch) →
      oldBranch.length ≤ newBranch.length → newBranch.length < fuel →
      rollbackWalk blocks fuel fromPtr toPtr track ledger buffer =
        (fun r => (newBranch.reverse.map pointer ++ track, r)) <$> undoBranch newBranch fork oldBranch ledger buffer := by
  induction new with
  | base =>
    intro fromPtr oldBranch fuel track ledger buffer old _ shorter enough
    obtain rfl : oldBranch = [] := List.eq_nil_of_length_eq_zero (Nat.le_zero.1 shorter)
    obtain rfl := old.eq_of_nil
    obtain ⟨fuel, rfl⟩ : ∃ f, fuel = f + 1 := ⟨fuel - 1, by simp only [List.length_nil] at enough; omega⟩
    simp [rollbackWalk, undoBranch, Functor.map, Except.map]
  | @step top parent fork newBranch found deeper rest ih =>
    intro fromPtr oldBranch fuel track ledger buffer old apart shorter enough
    obtain ⟨fuel, rfl⟩ : ∃ f, fuel = f + 1 := ⟨fuel - 1, by simp only [List.length_cons] at enough; omega⟩
    have toDepth := rest.depth_eq
    have fromDepth := old.depth_eq
    simp only [List.length_cons] at shorter enough
    rw [show (top :: newBranch).reverse.map pointer ++ track =
      newBranch.reverse.map pointer ++ (top.hash, top.depth) :: track by simp [pointer]]
    rcases Nat.lt_or_eq_of_le shorter with longer | same
    · -- `to_ptr` is deeper: it moves alone
      have unread : ∀ f ∈ oldBranch, max (f.depth - 1) 1 ≠ top.depth := fun f member => by
        have := old.depth_of_mem member
        omega
      rw [rollbackWalk_deeper (by rintro rfl; omega) (by omega) found, undoBranch_cons_new unread]
      exact ih fuel _ ledger buffer old (fun x member later => apart x member (List.mem_cons_of_mem top later))
        (by omega) (by omega)
    · -- both pointers stand at one depth: `from_ptr`'s block is undone
      cases old with
      | base => simp at same
      | @step _ fromParent _ oldBranch foundFrom deeperFrom restFrom =>
        simp only [List.length_cons, Nat.add_right_cancel_iff] at same fromDepth
        have ne : fromPtr ≠ top := fun eq => apart fromPtr (List.mem_cons_self _ _) (eq ▸ List.mem_cons_self _ _)
        have fromParentDepth := restFrom.depth_eq
        by_cases genesisChild : top.depth = 1
        · -- the fork point is the genesis: the round at depth one re-adds and stops
          obtain rfl : newBranch = [] := List.eq_nil_of_length_eq_zero (by omega)
          obtain rfl : oldBranch = [] := List.eq_nil_of_length_eq_zero (by omega)
          have fromOne : fromPtr.depth = 1 := by omega
          rw [genesisChild] at found
          rw [fromOne] at foundFrom
          have siblings : top.prevHash = fromPtr.prevHash := by
            rw [← keys _ _ _ (mem_levelAt_of_getBlock found), ← keys _ _ _ (mem_levelAt_of_getBlock foundFrom),
              rest.eq_of_nil, restFrom.eq_of_nil]
          have debit : onNewBranch [top] fork (max (fromPtr.depth - 1) 1) = top := by
            simp [onNewBranch, List.find?_cons, genesisChild, fromOne]
          rw [rollbackWalk_siblings ne genesisChild fromOne siblings]
          simp only [undoBranch, debit, if_pos fromOne, bind, Except.bind]
          cases ledger.rollbackReward top.draw.signedBy with
          | error => rfl
          | ok l =>
            dsimp only
            cases rollbackAndReadd l buffer fromPtr.transactions <;> rfl
        · -- both pointers move up one level
          have debit : onNewBranch (top :: newBranch) fork (max (fromPtr.depth - 1) 1) = parent := by
            rw [show max (fromPtr.depth - 1) 1 = parent.depth by omega, onNewBranch_cons (by omega),
              onNewBranch_of_descends rest]
          have unread : ∀ f ∈ oldBranch, max (f.depth - 1) 1 ≠ top.depth := fun f member => by
            have := restFrom.depth_of_mem member
            omega
          rw [rollbackWalk_level ne (by omega) (by omega) found foundFrom]
          simp only [undoBranch, debit, if_neg (show fromPtr.depth ≠ 1 by omega), undoBranch_cons_new unread,
            bind, Except.bind]
          cases ledger.rollbackReward parent.draw.signedBy with
          | error => rfl
          | ok l =>
            dsimp only
            cases rollbackTransactions l fromPtr.transactions with
            | error => rfl
            | ok l' =>
              exact ih fuel _ l' buffer restFrom
                (fun x member later => apart x (List.mem_cons_of_mem _ member) (List.mem_cons_of_mem top later))
                (by omega) (by omega)

/-! ## The replay -/

private theorem replayTrack_stored (C : Crypto) {blocks : List Level} :
    ∀ {branch : List Block}, (∀ x ∈ branch, getBlock blocks x.hash x.depth = some x) → ∀ ledger,
      replayTrack C blocks (branch.map pointer) ledger = .ok (branch.foldl (applyBlock C) ledger)
  | [], _, _ => rfl
  | x :: branch, stored, ledger => by
    simp only [List.map_cons, pointer, replayTrack, getBlockOrPanic_of_getBlock (stored x (List.mem_cons_self x branch)),
      bind, Except.bind, List.foldl_cons]
    exact replayTrack_stored C (fun y member => stored y (List.mem_cons_of_mem x member)) _

private theorem rollback_switch {C : Crypto} {s : Blockchain} (keyed : Keyed s.blocks) {fromHead toHead : Nat × Nat}
    {fromPtr toPtr fork : Block} {oldBranch newBranch : List Block}
    (fromFound : getBlock s.blocks fromHead.1 fromHead.2 = some fromPtr)
    (toFound : getBlock s.blocks toHead.1 toHead.2 = some toPtr)
    (old : Descends s.blocks fromPtr oldBranch fork) (new : Descends s.blocks toPtr newBranch fork)
    (apart : ∀ x ∈ oldBranch, x ∉ newBranch) (deeper : fromPtr.depth ≤ toPtr.depth) :
    rollback C s fromHead toHead = (undoBranch newBranch fork oldBranch s.ledger s.transactionBuffer).bind
      fun r => .ok { s with ledger := newBranch.reverse.foldl (applyBlock C) r.1, transactionBuffer := r.2 } := by
  have oldDepth := old.depth_eq
  have newDepth := new.depth_eq
  have walk := rollbackWalk_switch (fun d h b member => (keyed d h b member).1) new (toPtr.depth + 1) []
    s.ledger s.transactionBuffer old apart (by omega) (by omega)
  have replayed : ∀ ledger, replayTrack C s.blocks (newBranch.reverse.map pointer) ledger =
      .ok (newBranch.reverse.foldl (applyBlock C) ledger) :=
    replayTrack_stored C fun x member => new.stored keyed (keyed.stored toFound) x (List.mem_reverse.1 member)
  simp only [rollback, getBlockOrPanic_of_getBlock fromFound, getBlockOrPanic_of_getBlock toFound, walk,
    List.append_nil, bind, Except.bind]
  cases undoBranch newBranch fork oldBranch s.ledger s.transactionBuffer with
  | error => rfl
  | ok r => simp only [Functor.map, Except.map, replayed]

/-! ## The fork point -/

section Tree

variable {C : Crypto} {s : Blockchain}

private theorem parent_of_stored (shape : TreeOK C s) {b : Block} (stored : getBlock s.blocks b.hash b.depth = some b)
    (positive : b.depth ≠ 0) : ∃ p, getBlock s.blocks b.prevHash (b.depth - 1) = some p ∧ b.depth = p.depth + 1 := by
  obtain ⟨d, hd⟩ := Nat.exists_eq_add_one_of_ne_zero positive
  rw [hd] at stored ⊢
  obtain ⟨-, p, found⟩ := shape.parents d b.hash b (mem_levelAt_of_getBlock stored)
  exact ⟨p, found, by rw [(shape.entries _ _ _ (mem_levelAt_of_getBlock found)).2]⟩

private theorem eq_of_depth_zero (shape : TreeOK C s) {x y : Block} (xFound : getBlock s.blocks x.hash 0 = some x)
    (yFound : getBlock s.blocks y.hash 0 = some y) : x = y := by
  obtain ⟨p, seedHash, hash, value, -, zero⟩ := shape.genesis
  have hx := mem_levelAt_of_getBlock xFound
  have hy := mem_levelAt_of_getBlock yFound
  rw [zero, List.mem_singleton, Prod.mk.injEq] at hx hy
  exact hx.2.trans hy.2.symm

private theorem exists_fork (shape : TreeOK C s) : ∀ (n : Nat) {fromPtr toPtr : Block}, toPtr.depth = n →
    getBlock s.blocks fromPtr.hash fromPtr.depth = some fromPtr → getBlock s.blocks toPtr.hash toPtr.depth = some toPtr →
    fromPtr.depth ≤ n → ∃ fork oldBranch newBranch, Descends s.blocks fromPtr oldBranch fork ∧
      Descends s.blocks toPtr newBranch fork ∧ ∀ x ∈ oldBranch, x ∉ newBranch
  | 0, fromPtr, toPtr, toDepth, fromStored, toStored, shallow => by
    rw [toDepth] at toStored
    rw [Nat.le_zero.1 shallow] at fromStored
    obtain rfl := eq_of_depth_zero shape fromStored toStored
    exact ⟨fromPtr, [], [], .base _, .base _, fun x member => absurd member (List.not_mem_nil x)⟩
  | n + 1, fromPtr, toPtr, toDepth, fromStored, toStored, shallow => by
    have keyed : Keyed s.blocks := shape.entries
    obtain ⟨toParent, toFound, toDeeper⟩ := parent_of_stored shape toStored (by omega)
    rcases Nat.lt_or_eq_of_le shallow with lower | level
    · -- `to` is deeper: its branch gains a block
      obtain ⟨fork, old, new, oldDesc, newDesc, apart⟩ :=
        exists_fork shape n (by omega) fromStored (keyed.stored toFound) (by omega)
      refine ⟨fork, old, toPtr :: new, oldDesc, .step toFound toDeeper newDesc, fun x member => ?_⟩
      have := oldDesc.depth_of_mem member
      exact List.not_mem_cons_of_ne_of_not_mem (by rintro rfl; omega) (apart x member)
    · by_cases same : fromPtr = toPtr
      · -- the pointers meet
        exact ⟨toPtr, [], [], same ▸ .base _, .base _, fun x member => absurd member (List.not_mem_nil x)⟩
      · -- both branches gain a block
        obtain ⟨fromParent, fromFound, fromDeeper⟩ := parent_of_stored shape fromStored (by omega)
        obtain ⟨fork, old, new, oldDesc, newDesc, apart⟩ :=
          exists_fork shape n (by omega) (keyed.stored fromFound) (keyed.stored toFound) (by omega)
        refine ⟨fork, fromPtr :: old, toPtr :: new, .step fromFound fromDeeper oldDesc,
          .step toFound toDeeper newDesc, fun x member => ?_⟩
        rcases List.mem_cons.1 member with rfl | later
        · refine List.not_mem_cons_of_ne_of_not_mem same fun inNew => ?_
          have := newDesc.depth_of_mem inNew
          omega
        · have := oldDesc.depth_of_mem later
          exact List.not_mem_cons_of_ne_of_not_mem (by rintro rfl; omega) (apart x later)

/-- On every well-formed tree, `rollback` from a stored block to a stored block at least as deep
switches branches at their fork point: it takes back the old branch, newest first, as
`undoBranch` does, and applies the new branch, oldest first. Apart from the ledger's own panics,
no lookup fails and the walk never runs out. -/
theorem rollback_switches_at_fork_point (shape : TreeOK C s) {fromHead toHead : Nat × Nat} {fromPtr toPtr : Block}
    (fromFound : getBlock s.blocks fromHead.1 fromHead.2 = some fromPtr)
    (toFound : getBlock s.blocks toHead.1 toHead.2 = some toPtr) (deeper : fromHead.2 ≤ toHead.2) :
    ∃ fork oldBranch newBranch, Descends s.blocks fromPtr oldBranch fork ∧ Descends s.blocks toPtr newBranch fork ∧
      (∀ x ∈ oldBranch, x ∉ newBranch) ∧
      rollback C s fromHead toHead = (undoBranch newBranch fork oldBranch s.ledger s.transactionBuffer).bind
        fun r => .ok { s with ledger := newBranch.reverse.foldl (applyBlock C) r.1, transactionBuffer := r.2 } := by
  have keyed : Keyed s.blocks := shape.entries
  have fromDepth := (keyed.pointer_eq fromFound).2
  have toDepth := (keyed.pointer_eq toFound).2
  obtain ⟨fork, old, new, oldDesc, newDesc, apart⟩ :=
    exists_fork shape _ rfl (keyed.stored fromFound) (keyed.stored toFound) (by omega)
  exact ⟨fork, old, new, oldDesc, newDesc, apart,
    rollback_switch keyed fromFound toFound oldDesc newDesc apart (by omega)⟩

/-- On every well-formed tree, when the two blocks share an ancestor above the genesis, `rollback`
returns no transaction to the buffer: it re-adds only the transactions of an undone block at
depth one, and it undoes such a block only when the branches meet at the genesis. -/
theorem rollback_keeps_buffer_above_genesis (shape : TreeOK C s) {fromHead toHead : Nat × Nat}
    {fromPtr toPtr a : Block} {fromBranch toBranch : List Block}
    (fromFound : getBlock s.blocks fromHead.1 fromHead.2 = some fromPtr)
    (toFound : getBlock s.blocks toHead.1 toHead.2 = some toPtr) (deeper : fromHead.2 ≤ toHead.2)
    (fromAbove : Descends s.blocks fromPtr fromBranch a) (toAbove : Descends s.blocks toPtr toBranch a)
    (above : a.depth ≠ 0) {s' : Blockchain} (h : rollback C s fromHead toHead = .ok s') :
    s'.transactionBuffer = s.transactionBuffer := by
  have keyed : Keyed s.blocks := shape.entries
  have fromDepth := (keyed.pointer_eq fromFound).2
  have toDepth := (keyed.pointer_eq toFound).2
  obtain ⟨fork, old, new, oldDesc, newDesc, apart⟩ :=
    exists_fork shape _ rfl (keyed.stored fromFound) (keyed.stored toFound) (by omega)
  -- the shared ancestor is no deeper than the fork point, so every undone block is below depth one
  have forkAbove : a.depth ≤ fork.depth := Nat.not_lt.1 fun deeperThanFork =>
    apart a (oldDesc.mem_of_deeper fromAbove deeperThanFork) (newDesc.mem_of_deeper toAbove deeperThanFork)
  rw [rollback_switch keyed fromFound toFound oldDesc newDesc apart (by omega)] at h
  obtain ⟨r, undone, done⟩ := bind_eq_ok.1 h
  cases done
  exact undoBranch_buffer (fun x member => by have := oldDesc.depth_of_mem member; omega) undone

end Tree

/-- A child of the genesis, the fork point of the branches below. -/
def branchRoot : Block := ⟨1, 100, 1, ⟨1, 1, 100, 0⟩, [], 101⟩

/-- The first child of `branchRoot`, which becomes the head. -/
def oldTip : Block := ⟨2, 101, 2, ⟨2, 1, 101, 5⟩, [], 102⟩

/-- A second child of `branchRoot`, worse than `oldTip`. -/
def newMiddle : Block := ⟨2, 101, 2, ⟨2, 2, 101, 0⟩, [], 103⟩

/-- A child of `newMiddle`, which moves the head onto the second branch. -/
def newTip : Block := ⟨3, 103, 3, ⟨3, 2, 103, 0⟩, [], 104⟩

/-- The tree after the four blocks are submitted in order. -/
def switchTree : Blockchain :=
  Except.state (runFromStart acceptAll 10 [1, 2] 0 100 0
    [.block branchRoot, .block oldTip, .block newMiddle, .block newTip])

theorem rollback_switches_at_fork_point_of_two_branches :
    TreeOK acceptAll switchTree ∧ getBlock switchTree.blocks 102 2 = some oldTip ∧
      getBlock switchTree.blocks 104 3 = some newTip ∧ (102, 2).2 ≤ (104, 3).2 ∧
      ∃ fork oldBranch newBranch, Descends switchTree.blocks oldTip oldBranch fork ∧
        Descends switchTree.blocks newTip newBranch fork ∧ (∀ x ∈ oldBranch, x ∉ newBranch) ∧
        rollback acceptAll switchTree (102, 2) (104, 3) =
          (undoBranch newBranch fork oldBranch switchTree.ledger switchTree.transactionBuffer).bind
            fun r => .ok { switchTree with
              ledger := newBranch.reverse.foldl (applyBlock acceptAll) r.1, transactionBuffer := r.2 } := by
  have shape : TreeOK acceptAll switchTree := treeOK_reachable (U := fun _ => True)
    (reachable_runFromStart (by simp) (by simp)
      (show runFromStart acceptAll 10 [1, 2] 0 100 0
        [.block branchRoot, .block oldTip, .block newMiddle, .block newTip] = .ok switchTree from rfl))
  exact ⟨shape, rfl, rfl, by decide, rollback_switches_at_fork_point shape
    (show getBlock switchTree.blocks (102, 2).1 (102, 2).2 = some oldTip from rfl)
    (show getBlock switchTree.blocks (104, 3).1 (104, 3).2 = some newTip from rfl) (by decide)⟩

/-- `switchTree` once a transfer waits in the buffer. -/
def bufferedTree : Blockchain :=
  Except.state (runFromStart acceptAll 10 [1, 2] 0 100 0
    [.block branchRoot, .block oldTip, .block newMiddle, .block newTip, .transaction ⟨1, 2, 10, 5⟩])

/-- The switch from `oldTip` to `newTip` on `bufferedTree`. -/
def bufferedSwitch : Blockchain := Except.state (rollback acceptAll bufferedTree (102, 2) (104, 3))

theorem rollback_keeps_buffer_above_genesis_at_branch_root :
    TreeOK acceptAll bufferedTree ∧ getBlock bufferedTree.blocks (102, 2).1 (102, 2).2 = some oldTip ∧
      getBlock bufferedTree.blocks (104, 3).1 (104, 3).2 = some newTip ∧ (102, 2).2 ≤ (104, 3).2 ∧
      Descends bufferedTree.blocks oldTip [oldTip] branchRoot ∧
      Descends bufferedTree.blocks newTip [newTip, newMiddle] branchRoot ∧ branchRoot.depth ≠ 0 ∧
      rollback acceptAll bufferedTree (102, 2) (104, 3) = .ok bufferedSwitch ∧
      bufferedSwitch.transactionBuffer = bufferedTree.transactionBuffer := by
  have shape : TreeOK acceptAll bufferedTree := treeOK_reachable (U := fun _ => True)
    (reachable_runFromStart (by simp) (by simp)
      (show runFromStart acceptAll 10 [1, 2] 0 100 0
        [.block branchRoot, .block oldTip, .block newMiddle, .block newTip, .transaction ⟨1, 2, 10, 5⟩] =
          .ok bufferedTree from rfl))
  have oldBranch : Descends bufferedTree.blocks oldTip [oldTip] branchRoot := .step rfl rfl (.base _)
  have newBranch : Descends bufferedTree.blocks newTip [newTip, newMiddle] branchRoot :=
    .step rfl rfl (.step rfl rfl (.base _))
  have switched : rollback acceptAll bufferedTree (102, 2) (104, 3) = .ok bufferedSwitch := rfl
  have fromFound : getBlock bufferedTree.blocks (102, 2).1 (102, 2).2 = some oldTip := rfl
  have toFound : getBlock bufferedTree.blocks (104, 3).1 (104, 3).2 = some newTip := rfl
  exact ⟨shape, fromFound, toFound, by decide, oldBranch, newBranch, by decide, switched,
    rollback_keeps_buffer_above_genesis shape fromFound toFound (by decide) oldBranch newBranch (by decide) switched⟩

/-! ## A switch below a common ancestor at depth one -/

/-- A transaction from root account 1 to account 2, pending until a block takes it. -/
def pendingTx : Transaction := ⟨1, 2, 10, 1⟩

/-- A child of the genesis, the common ancestor of the two branches below. -/
def forkRoot : Block := ⟨1, 100, 1, ⟨1, 1, 100, 0⟩, [], 101⟩

/-- A child of `forkRoot` holding `pendingTx`. -/
def abandonedBlock : Block := ⟨2, 101, 2, ⟨2, 1, 101, 0⟩, [pendingTx], 102⟩

/-- A better child of `forkRoot`, without transactions. -/
def winningSibling : Block := ⟨2, 101, 2, ⟨2, 2, 101, 5⟩, [], 103⟩

/-- The state after `forkRoot`, `pendingTx` and `abandonedBlock` are submitted. -/
def beforeSwitchState : Blockchain :=
  Except.state (runFromStart acceptAll 10 [1, 2] 0 100 0
    [.block forkRoot, .transaction pendingTx, .block abandonedBlock])

/-- The state after `winningSibling` replaces `abandonedBlock` as the head. -/
def afterSwitchState : Blockchain :=
  Except.state (Prod.fst <$> addBlock acceptAll (fun _ => 10) beforeSwitchState winningSibling)

/-- The head moves from `abandonedBlock` to `winningSibling`, whose common ancestor `forkRoot`
sits at depth one. `rollback` undoes `pendingTx` but returns it to no buffer: the transaction is
on neither branch of the new best path and has left the mempool for good. -/
theorem deep_switch_drops_abandoned_transaction :
    Reachable acceptAll (fun _ => True) beforeSwitchState ∧
      bestPath beforeSwitchState = some [forkRoot, abandonedBlock] ∧ beforeSwitchState.orphans = [] ∧
      addBlock acceptAll (fun _ => 10) beforeSwitchState winningSibling = .ok (afterSwitchState, true) ∧
      bestPath afterSwitchState = some [forkRoot, winningSibling] ∧
      pendingTx ∈ abandonedBlock.transactions ∧ (∀ b ∈ [forkRoot, winningSibling], pendingTx ∉ b.transactions) ∧
      pendingTx ∉ afterSwitchState.transactionBuffer :=
  ⟨reachable_runFromStart (by simp) (by simp)
    (show runFromStart acceptAll 10 [1, 2] 0 100 0
      [.block forkRoot, .transaction pendingTx, .block abandonedBlock] = .ok beforeSwitchState from rfl),
    rfl, rfl, rfl, rfl, by decide, by decide, by decide⟩

/-! ## The fast path is a rollback -/

/-- When a block stored by `add_block` names the head as its parent one level below it, the fork
choice's fast path computes what `rollback` from the old head to the block would: the tree with the
block as head, and the ledger with the block applied. -/
theorem fast_path_agrees_with_rollback {C : Crypto} {U : Block → Prop} {s stored : Blockchain}
    (reach : Reachable C U s) {b : Block} (hstored : (s.grow b.depth).insertBlock b = .ok stored)
    (onHead : b.prevHash = s.bestPathHead.1) (deeper : b.depth = s.bestPathHead.2 + 1) :
    forkChoice C (stored.removeTransactions b.transactions) b =
      rollback C { stored.removeTransactions b.transactions with bestPathHead := (b.hash, b.depth) }
        s.bestPathHead (b.hash, b.depth) := by
  have shape := treeOK_reachable reach
  obtain ⟨tip, tipFound⟩ := shape.head
  have keyed : Keyed stored.blocks := Keyed.insert shape.entries hstored
  have head : (stored.removeTransactions b.transactions).bestPathHead = s.bestPathHead := by
    rw [Blockchain.removeTransactions_bestPathHead, (Blockchain.stored_frame hstored).1]
  have tipKept : getBlock stored.blocks s.bestPathHead.1 s.bestPathHead.2 = some tip := by
    rwa [getBlock_stored hstored, if_neg (fun both => by omega)]
  have tipDepth := (keyed.pointer_eq tipKept).2
  have parentFound : getBlock stored.blocks b.prevHash (b.depth - 1) = some tip := by
    rwa [onHead, deeper, Nat.add_sub_cancel]
  have bFound : getBlock stored.blocks (b.hash, b.depth).1 (b.hash, b.depth).2 = some b := getBlock_stored_self hstored
  rw [forkChoice_extends (by rw [head, onHead]) (by rw [head]; omega),
    rollback_switch (s := { stored.removeTransactions b.transactions with bestPathHead := (b.hash, b.depth) })
      keyed tipKept bFound (.base tip) (.step parentFound (by omega) (.base tip))
      (fun x member => absurd member (List.not_mem_nil x)) (by omega)]
  rfl

/-- The state after `branchRoot` extends the genesis. -/
def rootState : Blockchain := Except.state (runFromStart acceptAll 10 [1, 2] 0 100 0 [.block branchRoot])

/-- `rootState` with `oldTip` stored, before the fork choice. -/
def oldTipStored : Blockchain := Except.state ((rootState.grow oldTip.depth).insertBlock oldTip)

theorem fast_path_agrees_with_rollback_on_old_tip :
    Reachable acceptAll (fun _ => True) rootState ∧
      (rootState.grow oldTip.depth).insertBlock oldTip = .ok oldTipStored ∧
      oldTip.prevHash = rootState.bestPathHead.1 ∧ oldTip.depth = rootState.bestPathHead.2 + 1 ∧
      forkChoice acceptAll (oldTipStored.removeTransactions oldTip.transactions) oldTip =
        rollback acceptAll { oldTipStored.removeTransactions oldTip.transactions with bestPathHead := (102, 2) }
          rootState.bestPathHead (102, 2) := by
  have reach : Reachable acceptAll (fun _ => True) rootState := reachable_runFromStart (by simp) (by simp)
    (show runFromStart acceptAll 10 [1, 2] 0 100 0 [.block branchRoot] = .ok rootState from rfl)
  exact ⟨reach, rfl, rfl, rfl, fast_path_agrees_with_rollback reach rfl rfl rfl⟩

/-- The tree after `branchRoot` and `oldTip` are submitted. -/
def oldTipState : Blockchain :=
  Except.state (runFromStart acceptAll 10 [1, 2] 0 100 0 [.block branchRoot, .block oldTip])

/-! ## Undoing a block's transactions oldest first

When `rollback` undoes a block it rolls the block's transactions back in the order the block lists
them, the order they were applied in. When a later transaction spends what an earlier one paid in,
rolling the earlier one back first takes the payment from an account that has passed it on, and
the `u64` subtraction underflows; rolling back newest first would restore the ledger. -/

/-- Two transactions applied in turn, the second spending from the receiver of the first, more
than that receiver held before: rolling them back in the order they were applied underflows, while
rolling them back newest first gives back the ledger they were applied to. -/
theorem undo_oldest_first_underflows (C : Crypto) (l : Ledger) (t₁ t₂ : Transaction)
    (applied₁ : (l.processTransaction C t₁).2 = true)
    (applied₂ : ((l.processTransaction C t₁).1.processTransaction C t₂).2 = true)
    (chained : t₂.sender = t₁.receiver) (toOther : t₁.sender ≠ t₁.receiver) (away : t₂.receiver ≠ t₂.sender)
    (short : l.getBalance t₁.receiver < t₂.amount + transactionFee) :
    rollbackTransactions (proccessTransactions C l [t₁, t₂]) [t₁, t₂] = .error .balanceUnderflow ∧
      ∃ l', rollbackTransactions (proccessTransactions C l [t₁, t₂]) [t₂, t₁] = .ok l' ∧ l'.sameAs l = true := by
  have possible₁ := Ledger.possible_of_applied applied₁
  have possible₂ := Ledger.possible_of_applied applied₂
  have applied : proccessTransactions C l [t₁, t₂] = ((l.processTransaction C t₁).1.processTransaction C t₂).1 := rfl
  rw [applied]
  constructor
  · -- the receiver of `t₁` has passed `t₂.amount + TRANSACTION_FEE` of its payment on
    have paidIn : (l.processTransaction C t₁).1.getBalance t₁.receiver = l.getBalance t₁.receiver + t₁.amount := by
      simp [Ledger.processTransaction_of_possible possible₁, Ne.symm toOther]
    have funded := Ledger.funded_of_possible possible₂
    have left : ((l.processTransaction C t₁).1.processTransaction C t₂).1.getBalance t₁.receiver < t₁.amount := by
      rw [Ledger.processTransaction_of_possible possible₂]
      simp only [Ledger.getBalance_setHistory, Ledger.getBalance_rewardWinner, Ledger.getBalance_setBalance,
        chained, if_neg (chained ▸ away).symm, if_true] at funded ⊢
      omega
    simp only [rollbackTransactions, List.foldlM_cons, Ledger.rollbackTransaction, Ledger.debit,
      Ledger.getBalance_rewardWinner, if_neg (Ne.symm toOther), if_neg (Nat.not_le.2 left), bind, Except.bind]
  · obtain ⟨x, undo₂, same₂⟩ := Ledger.rollbackTransaction_processTransaction applied₂
    obtain ⟨y, undo₁, same₁⟩ := Ledger.rollbackTransaction_processTransaction applied₁
    obtain ⟨z, undo₁', same⟩ := Ledger.sameAs_rollbackTransaction same₂ undo₁
    refine ⟨z, ?_, Ledger.sameAs_trans same same₁⟩
    simp only [rollbackTransactions, List.foldlM_cons, List.foldlM_nil, undo₂, undo₁', bind, Except.bind]
    rfl

/-- A payment from root account 1 to account 3, which holds nothing. -/
def payIn : Transaction := ⟨1, 3, 10, 1⟩

/-- Account 3 passes half of `payIn` on to account 4. -/
def payOn : Transaction := ⟨3, 4, 5, 1⟩

/-- A child of `branchRoot` holding `payIn` and then `payOn`. -/
def chainedBlock : Block := ⟨2, 101, 2, ⟨2, 1, 101, 0⟩, [payIn, payOn], 102⟩

/-- The state after `branchRoot` and `chainedBlock` are submitted. -/
def chainedState : Blockchain :=
  Except.state (runFromStart acceptAll 10 [1, 2] 0 100 0 [.block branchRoot, .block chainedBlock])

theorem undo_oldest_first_underflows_on_chained_block :
    ((rootState.ledger.processTransaction acceptAll payIn).2 = true ∧
      ((rootState.ledger.processTransaction acceptAll payIn).1.processTransaction acceptAll payOn).2 = true ∧
      payOn.sender = payIn.receiver ∧ payIn.sender ≠ payIn.receiver ∧ payOn.receiver ≠ payOn.sender ∧
      rootState.ledger.getBalance payIn.receiver < payOn.amount + transactionFee) ∧
    (rollbackTransactions (proccessTransactions acceptAll rootState.ledger [payIn, payOn]) [payIn, payOn] =
        .error .balanceUnderflow ∧
      ∃ l', rollbackTransactions (proccessTransactions acceptAll rootState.ledger [payIn, payOn]) [payOn, payIn] =
        .ok l' ∧ l'.sameAs rootState.ledger = true) ∧
    Reachable acceptAll (fun _ => True) chainedState ∧ bestPath chainedState = some [branchRoot, chainedBlock] ∧
      addBlock acceptAll (fun _ => 10) chainedState winningSibling = .error .balanceUnderflow :=
  ⟨⟨rfl, rfl, rfl, by decide, by decide, by decide⟩,
    undo_oldest_first_underflows acceptAll rootState.ledger payIn payOn rfl rfl rfl (by decide) (by decide)
      (by decide),
    reachable_runFromStart (by simp) (by simp)
      (show runFromStart acceptAll 10 [1, 2] 0 100 0 [.block branchRoot, .block chainedBlock] = .ok chainedState
        from rfl), rfl, rfl⟩

end Lassecoin.Chain.Switch
