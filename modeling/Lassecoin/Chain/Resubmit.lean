import Lassecoin.Chain.ForkChoice

/-!
# Submitting a stored block again

A block the tree already stores can reach `add_block` again: gossip delivers it twice, or the
orphan index held two copies and the cascade admitted the first. At a positive depth, when the
submitted blocks carry distinct hashes, the second call changes neither the tree, nor the head,
nor the ledger, and returns false: the block is stored again where it was, it does not beat the
head, and the children parked under its hash are parked again, their parent still missing. The
genesis is the exception: when its signature verifies, `get_parent` computes `0 - 1`.

The children the cascade submits again pass the checks `add_block` makes before parking, as
every parked block does (`OrphansChecked`).
-/

set_option autoImplicit false
set_option relaxedAutoImplicit false

namespace Lassecoin.Chain.Resubmit

open Lassecoin.Types Lassecoin.Chain.State Lassecoin.Chain.AddBlock Lassecoin.Chain.Step
open Lassecoin.Chain.Shape Lassecoin.Chain.ForkChoice

variable {C : Crypto} {clock : List Nat → Nat} {U : Block → Prop}

/-! ## Parked blocks passed the first checks -/

/-- Every parked block is signed and has a positive depth. -/
def OrphansChecked (C : Crypto) (s : Blockchain) : Prop :=
  ∀ h os, (h, os) ∈ s.orphans → ∀ o ∈ os, C.verifyBlock o = true ∧ o.depth ≠ 0

private theorem orphansChecked_park {s : Blockchain} {b : Block} (checked : OrphansChecked C s)
    (signed : C.verifyBlock b = true) (depth : b.depth ≠ 0) : OrphansChecked C (s.park b) := by
  intro h os member o listed
  rcases mem_upsert.1 member with same | ⟨old, -⟩
  · obtain ⟨rfl, rfl⟩ := Prod.mk.inj same
    rcases List.mem_append.1 listed with waiting | fresh
    · obtain ⟨os, listed, waiting⟩ := exists_mem_of_mem_lookup waiting
      exact checked _ os listed o waiting
    · rw [List.mem_singleton.1 fresh]
      exact ⟨signed, depth⟩
  · exact checked h os old o listed

private theorem orphansChecked_addBlockRec {fuel : Nat} {s s' : Blockchain} {b : Block} {extended : Bool}
    (checked : OrphansChecked C s) (h : addBlockRec C clock fuel s b = .ok (s', extended)) :
    OrphansChecked C s' :=
  addBlockRec_preserves (fun _ => True) (OrphansChecked C) (fun _ _ _ _ _ _ _ => trivial)
    (fun _ _ checked _ signed depth _ => orphansChecked_park checked signed depth)
    (fun _ _ _ _ _ checked _ _ _ _ _ hstored hchosen h os member => by
      rw [(cascade_start hstored hchosen).2.1] at member
      exact checked h os (mem_eraseKey.1 member).1)
    fuel clock checked trivial h

private theorem orphansChecked_reachable {s : Blockchain} (reach : Reachable C U s) : OrphansChecked C s := by
  induction reach with
  | start h _ =>
    obtain ⟨p, -, rfl⟩ := start_ok h
    intro h os member
    cases member
  | addBlock _ _ _ h ih => exact orphansChecked_addBlockRec ih h
  | addTransaction t _ ih =>
    intro h os member
    rw [(addTransaction_frame C _ t).2.2.1] at member
    exact ih h os member

/-! ## One call on a stored block -/

private theorem addBlockRec_parks {fuel : Nat} {s : Blockchain} {o : Block} (signed : C.verifyBlock o = true)
    (depth : o.depth ≠ 0) (missing : getBlock s.blocks o.prevHash (o.depth - 1) = none) :
    addBlockRec C clock (fuel + 1) s o = .ok (s.park o, false) := by
  simp [addBlockRec, signed, depth, missing]

private theorem foldl_park_frame (os : List Block) (st : Blockchain) :
    (os.foldl Blockchain.park st).blocks = st.blocks ∧
      (os.foldl Blockchain.park st).bestPathHead = st.bestPathHead ∧
      (os.foldl Blockchain.park st).ledger = st.ledger := by
  induction os generalizing st with
  | nil => exact ⟨rfl, rfl, rfl⟩
  | cons o os ih => exact ih (st.park o)

private theorem foldlM_reparks (fuel : Nat) : ∀ (os : List (Nat × Block)) (st : Blockchain), os.length ≤ fuel →
    (∀ o ∈ os, C.verifyBlock o.2 = true ∧ o.2.depth ≠ 0 ∧ getBlock st.blocks o.2.prevHash (o.2.depth - 1) = none) →
    os.foldlM (orphanStep C clock fuel) st = .ok ((os.map Prod.snd).foldl Blockchain.park st)
  | [], _, _, _ => rfl
  | o :: os, st, bound, checked => by
    obtain ⟨f, rfl⟩ : ∃ f, fuel = f + 1 := ⟨fuel - 1, by simp only [List.length_cons] at bound; omega⟩
    obtain ⟨signed, depth, missing⟩ := checked o (List.mem_cons_self o os)
    simp only [List.foldlM_cons, orphanStep, addBlockRec_parks signed depth missing]
    exact foldlM_reparks (f + 1) os (st.park o.2) (by simp only [List.length_cons] at bound; omega)
      fun o' member => checked o' (List.mem_cons_of_mem o member)

theorem forkChoice_of_not_better {s : Blockchain} {b tip : Block} (shallow : b.depth ≤ s.bestPathHead.2)
    (found : getBlock s.blocks s.bestPathHead.1 s.bestPathHead.2 = some tip)
    (worse : b.depth = s.bestPathHead.2 → b.isBetterThan tip = false) : forkChoice C s b = .ok s := by
  rcases hs : s.bestPathHead with ⟨oldBest, oldDepth⟩
  rw [hs] at shallow found worse
  simp only [forkChoice, hs, if_neg (Nat.not_lt.2 shallow)]
  split_ifs with level
  · simp [getBlockOrPanic, found, bind, Except.bind, worse level]
  · rfl

private theorem addBlock_stored (inj : LevelInjective U) {s : Blockchain} (shape : TreeOK C s)
    (ok : Consistent U s) (checked : OrphansChecked C s) {d h : Nat} {b : Block}
    (stored : (h, b) ∈ levelAt s.blocks (d + 1)) :
    ∃ s', addBlock C clock s b = .ok (s', false) ∧ s'.blocks.length = s.blocks.length ∧
      (∀ d k, getBlock s'.blocks k d = getBlock s.blocks k d) ∧ s'.bestPathHead = s.bestPathHead ∧
      s'.ledger = s.ledger := by
  obtain ⟨rfl, depth⟩ := shape.entries _ _ _ stored
  obtain ⟨signed, parent, found⟩ := shape.parents _ _ _ stored
  have positive : b.depth ≠ 0 := by omega
  have self : getBlock s.blocks b.hash b.depth = some b := by
    obtain ⟨x, hx⟩ := exists_getBlock_of_mem stored
    rw [depth, hx, eq_of_stored inj shape ok (ok.within _ _ _ stored) (mem_levelAt_of_getBlock hx) rfl
      depth.symm positive]
  obtain ⟨st, hstored⟩ : ∃ st, (s.grow b.depth).insertBlock b = .ok st := ⟨_, Blockchain.grow_insertBlock s b⟩
  obtain ⟨stHead, stOrphans, stLedger, -⟩ := Blockchain.stored_frame hstored
  have same : ∀ d k, getBlock st.blocks k d = getBlock s.blocks k d := fun d k => by
    rw [getBlock_stored hstored]
    split_ifs with here
    · rw [here.1, here.2, self]
    · rfl
  have length : st.blocks.length = s.blocks.length := by
    rw [Blockchain.length_stored hstored]
    have := lt_length_of_mem_levelAt stored
    omega
  obtain ⟨tip, tipFound, beats⟩ := ok.headBest
  have worse : b.depth = s.bestPathHead.2 → b.isBetterThan tip = false := fun level => by
    by_cases isTip : b = tip
    · rw [isTip]
      exact isBetterThan_irrefl tip
    · exact isBetterThan_asymm (beats b.hash b (by rwa [← level, depth]) isTip)
  have chosen : forkChoice C (st.removeTransactions b.transactions) b = .ok (st.removeTransactions b.transactions) :=
    forkChoice_of_not_better
      (by rw [Blockchain.removeTransactions_bestPathHead, stHead]
          have := ok.headDepth
          have := lt_length_of_mem_levelAt stored
          omega)
      (by rw [Blockchain.removeTransactions_blocks, Blockchain.removeTransactions_bestPathHead, same, stHead]
          exact tipFound)
      (by rwa [Blockchain.removeTransactions_bestPathHead, stHead])
  have reparked : ∀ o ∈ ((st.removeTransactions b.transactions).takeOrphans b.hash).1.enum,
      C.verifyBlock o.2 = true ∧ o.2.depth ≠ 0 ∧
        getBlock ((st.removeTransactions b.transactions).takeOrphans b.hash).2.blocks o.2.prevHash (o.2.depth - 1) =
          none := by
    intro o member
    obtain ⟨os, listed, member⟩ := mem_cascade_orphans hstored chosen member
    obtain ⟨signed, depth⟩ := checked _ os listed o.2 member
    obtain ⟨prev, missing⟩ := shape.orphans _ os listed o.2 member
    refine ⟨signed, depth, ?_⟩
    rw [Blockchain.takeOrphans_blocks, Blockchain.removeTransactions_blocks, same, prev]
    exact missing depth
  have count : (st.removeTransactions b.transactions).orphanCount = s.orphanCount := by
    simp only [Blockchain.orphanCount, Blockchain.removeTransactions_orphans, stOrphans]
  have bound : ((st.removeTransactions b.transactions).takeOrphans b.hash).1.enum.length ≤ s.orphanCount := by
    rw [List.enum_length]
    exact (Nat.le_add_left _ _).trans ((Blockchain.orphanCount_takeOrphans _ _).trans count.le)
  obtain ⟨blocks, head, ledger⟩ := foldl_park_frame ((st.removeTransactions b.transactions).takeOrphans b.hash).1
    ((st.removeTransactions b.transactions).takeOrphans b.hash).2
  by_cases window : b.timeslot ≤ parent.timeslot ∨ clock [] < b.timeslot
  · refine ⟨s, ?_, rfl, fun _ _ => rfl, rfl, rfl⟩
    simp [addBlock, addBlockRec, signed, positive, depth, found, window]
  · simp only [Blockchain.takeOrphans_blocks, Blockchain.removeTransactions_blocks, Blockchain.takeOrphans_bestPathHead,
      Blockchain.removeTransactions_bestPathHead, Blockchain.takeOrphans_ledger, Blockchain.removeTransactions_ledger,
      stHead, stLedger] at blocks head ledger
    refine ⟨_, ?_, by rw [blocks]; exact length, fun d k => by rw [blocks]; exact same d k, head, ledger⟩
    have parentFound : getBlock s.blocks b.prevHash (b.depth - 1) = some parent := by rwa [depth]
    have reparks := @foldlM_reparks C clock _ _ _ bound reparked
    rw [List.enum_map_snd] at reparks
    rw [addBlock, addBlockRec_succ_of_insert signed positive parentFound (by omega) (by omega) hstored chosen
      reparks, head, bne_self_eq_false]

/-! ## On every reachable state -/

/-- Submitting a stored block again: when the submitted blocks carry distinct hashes, a block
stored at a positive depth leaves the tree, the head and the ledger as they were, and `add_block`
returns false. The genesis, stored at depth zero, makes `add_block` panic when its signature
verifies. -/
theorem resubmitted_block_changes_nothing (inj : HashInjective U) {s : Blockchain} (reach : Reachable C U s)
    {d h : Nat} {b : Block} (stored : (h, b) ∈ levelAt s.blocks d) :
    (d = 0 → addBlock C clock s b = if C.verifyBlock b then .error .depthUnderflow else .ok (s, false)) ∧
      (d ≠ 0 → ∃ s', addBlock C clock s b = .ok (s', false) ∧ s'.blocks.length = s.blocks.length ∧
        (∀ d k, getBlock s'.blocks k d = getBlock s.blocks k d) ∧ s'.bestPathHead = s.bestPathHead ∧
        s'.ledger = s.ledger) := by
  have shape := treeOK_reachable reach
  refine ⟨fun zero => ?_, fun positive => ?_⟩
  · have depth := (shape.entries _ _ _ stored).2
    cases signed : C.verifyBlock b <;> simp [addBlock, addBlockRec, signed, depth, zero]
  · obtain ⟨e, rfl⟩ := Nat.exists_eq_succ_of_ne_zero positive
    exact addBlock_stored inj.levelInjective shape (consistent_reachable inj.levelInjective reach)
      (orphansChecked_reachable reach) stored

theorem resubmitted_fork_changes_nothing :
    HashInjective (· ∈ forkBlocks) ∧ Reachable acceptAll (· ∈ forkBlocks) forkState ∧
      addBlock acceptAll (fun _ => 10) forkState (genesisBlock 1 0 100 0) =
        (if acceptAll.verifyBlock (genesisBlock 1 0 100 0) then .error .depthUnderflow else .ok (forkState, false)) ∧
      ∃ s', addBlock acceptAll (fun _ => 10) forkState forkA = .ok (s', false) ∧ s'.blocks.length = forkState.blocks.length ∧
        (∀ d k, getBlock s'.blocks k d = getBlock forkState.blocks k d) ∧
        s'.bestPathHead = forkState.bestPathHead ∧ s'.ledger = forkState.ledger := by
  have inj := hashInjective_of_nodup forkBlocks (by decide)
  have reach : Reachable acceptAll (· ∈ forkBlocks) forkState :=
    reachable_runFromStart (by simp [forkBlocks]) (by simp [forkBlocks, Op.blocks])
      (show runFromStart acceptAll 10 [1, 2] 0 100 0 [.block forkA, .block forkB] = .ok forkState from rfl)
  have genesisStored : (100, genesisBlock 1 0 100 0) ∈ levelAt forkState.blocks 0 := by decide
  have forkAStored : (forkA.hash, forkA) ∈ levelAt forkState.blocks 1 := by decide
  exact ⟨inj, reach, (resubmitted_block_changes_nothing inj reach genesisStored).1 rfl,
    (resubmitted_block_changes_nothing inj reach forkAStored).2 one_ne_zero⟩

end Lassecoin.Chain.Resubmit
