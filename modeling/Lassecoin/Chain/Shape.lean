import Lassecoin.Chain.Step

/-!
# The shape of the block tree and of the orphan index

`TreeOK` is the shape `start` gives the state and every call keeps, whatever the blocks carry:
level zero holds exactly the genesis block; no level is empty; every block sits at its own depth
under its own hash, carries a valid signature when it is not the genesis, and has its parent one
level up; and every parked block waits under its parent's hash for a parent the tree does not
hold at the level above the block.

Nothing here assumes that distinct blocks carry distinct hashes. Without that assumption a block
with an old block's hash replaces it in its level, and the timeslot order between a child and the
block now stored as its parent can break; `ordered` in `Lassecoin.Chain.ForkChoice` holds it
under the assumption.
-/

set_option autoImplicit false
set_option relaxedAutoImplicit false

namespace Lassecoin.Chain.Shape

open Lassecoin.Types Lassecoin.Balances Lassecoin.Chain.State Lassecoin.Chain.Rollback
open Lassecoin.Chain.AddBlock Lassecoin.Chain.Step

variable {C : Crypto} {clock : List Nat → Nat}

/-- The shape of the block tree and the orphan index. -/
structure TreeOK (C : Crypto) (s : Blockchain) : Prop where
  genesis : ∃ p seedHash hash value, s.rootAccounts.head? = some p ∧
    levelAt s.blocks 0 = [(hash, genesisBlock p seedHash hash value)]
  levels : ∀ d < s.blocks.length, levelAt s.blocks d ≠ []
  entries : ∀ d h b, (h, b) ∈ levelAt s.blocks d → b.hash = h ∧ b.depth = d
  parents : ∀ d h b, (h, b) ∈ levelAt s.blocks (d + 1) →
    C.verifyBlock b = true ∧ ∃ p, getBlock s.blocks b.prevHash d = some p
  orphans : ∀ h os, (h, os) ∈ s.orphans → ∀ o ∈ os,
    o.prevHash = h ∧ (o.depth ≠ 0 → getBlock s.blocks h (o.depth - 1) = none)
  head : ∃ tip, getBlock s.blocks s.bestPathHead.1 s.bestPathHead.2 = some tip

theorem treeOK_start {rootAccounts : List Nat} {seedHash hash value : Nat} {s : Blockchain}
    (h : start rootAccounts seedHash hash value = .ok s) : TreeOK C s := by
  obtain ⟨p, first, rfl⟩ := start_ok h
  refine ⟨⟨p, seedHash, hash, value, first, rfl⟩, fun d hd => ?_, fun d h b member => ?_,
    fun d h b member => ?_, fun h os member => by simp at member,
    ⟨genesisBlock p seedHash hash value, by simp [getBlock]⟩⟩
  · obtain rfl : d = 0 := by simpa using hd
    simp [levelAt]
  · obtain ⟨rfl, same⟩ := mem_levelAt_single.1 member
    obtain ⟨rfl, rfl⟩ := Prod.mk.inj same
    exact ⟨rfl, rfl⟩
  · exact absurd (mem_levelAt_single.1 member).1 (Nat.succ_ne_zero d)

theorem getBlock_stored {s stored : Blockchain} {b : Block}
    (hstored : (s.grow b.depth).insertBlock b = .ok stored) (h d : Nat) :
    getBlock stored.blocks h d =
      if d = b.depth ∧ h = b.hash then some b else getBlock s.blocks h d := by
  rw [getBlock_eq_lookup, getBlock_eq_lookup, Blockchain.levelAt_stored hstored]
  by_cases hd : d = b.depth
  · subst hd
    by_cases hh : h = b.hash <;> simp [hh]
  · simp [hd]

theorem getBlock_stored_self {s stored : Blockchain} {b : Block}
    (hstored : (s.grow b.depth).insertBlock b = .ok stored) : getBlock stored.blocks b.hash b.depth = some b := by
  simp [getBlock_stored hstored]

private theorem getBlock_stored_of_ne {s stored : Blockchain} {b : Block}
    (hstored : (s.grow b.depth).insertBlock b = .ok stored) {h : Nat} (d : Nat) (hh : h ≠ b.hash) :
    getBlock stored.blocks h d = getBlock s.blocks h d := by
  rw [getBlock_stored hstored, if_neg (fun both => hh both.2)]

theorem mem_levelAt_stored {s stored : Blockchain} {b : Block}
    (hstored : (s.grow b.depth).insertBlock b = .ok stored) {d : Nat} {e : Nat × Block}
    (member : e ∈ levelAt stored.blocks d) :
    (d = b.depth ∧ e = (b.hash, b)) ∨ (e ∈ levelAt s.blocks d ∧ ¬(d = b.depth ∧ e.1 = b.hash)) := by
  rw [Blockchain.levelAt_stored hstored] at member
  split at member
  · rename_i hd
    subst hd
    rcases mem_upsert.1 member with rfl | ⟨old, hne⟩
    · exact .inl ⟨rfl, rfl⟩
    · exact .inr ⟨old, fun both => hne both.2⟩
  · exact .inr ⟨member, fun both => ‹¬d = b.depth› both.1⟩

private theorem exists_getBlock_stored {s stored : Blockchain} {b : Block}
    (hstored : (s.grow b.depth).insertBlock b = .ok stored) {h d : Nat}
    (found : ∃ x, getBlock s.blocks h d = some x) : ∃ x, getBlock stored.blocks h d = some x := by
  rw [getBlock_stored hstored]
  split
  exacts [⟨b, rfl⟩, found]

theorem getBlock_stored_parent {s stored : Blockchain} {b parent : Block}
    (hstored : (s.grow b.depth).insertBlock b = .ok stored) (depth : b.depth ≠ 0)
    (found : getBlock s.blocks b.prevHash (b.depth - 1) = some parent) :
    getBlock stored.blocks b.prevHash (b.depth - 1) = some parent := by
  rwa [getBlock_stored hstored, if_neg (fun both => by omega)]

theorem TreeOK.of_frame {s s' : Blockchain} (ok : TreeOK C s) (blocks : s'.blocks = s.blocks)
    (orphans : s'.orphans = s.orphans) (roots : s'.rootAccounts = s.rootAccounts)
    (head : s'.bestPathHead = s.bestPathHead) : TreeOK C s' := by
  obtain ⟨genesis, levels, entries, parents, waiting, stored⟩ := ok
  exact ⟨by rwa [blocks, roots], by rwa [blocks], by rwa [blocks], by rwa [blocks],
    by rwa [blocks, orphans], by rwa [blocks, head]⟩

theorem treeOK_park {s : Blockchain} {b : Block} (ok : TreeOK C s)
    (missing : getBlock s.blocks b.prevHash (b.depth - 1) = none) : TreeOK C (s.park b) := by
  refine ⟨ok.genesis, ok.levels, ok.entries, ok.parents, ?_, ok.head⟩
  intro h os member o listed
  rcases mem_upsert.1 member with same | ⟨old, -⟩
  · simp only [Prod.mk.injEq] at same
    obtain ⟨rfl, rfl⟩ := same
    rcases List.mem_append.1 listed with waiting | fresh
    · obtain ⟨os, listed, waiting⟩ := exists_mem_of_mem_lookup waiting
      exact ok.orphans _ os listed o waiting
    · rw [List.mem_singleton.1 fresh]
      exact ⟨rfl, fun _ => missing⟩
  · exact ok.orphans h os old o listed

theorem treeOK_insert {s stored chosen : Blockchain} {b parent : Block} (ok : TreeOK C s)
    (signed : C.verifyBlock b = true) (depth : b.depth ≠ 0)
    (found : getBlock s.blocks b.prevHash (b.depth - 1) = some parent)
    (hstored : (s.grow b.depth).insertBlock b = .ok stored)
    (hchosen : forkChoice C (stored.removeTransactions b.transactions) b = .ok chosen) :
    TreeOK C (chosen.takeOrphans b.hash).2 := by
  obtain ⟨blocks, orphans, roots, head⟩ := cascade_start hstored hchosen
  have within : b.depth - 1 < s.blocks.length := lt_length_of_getBlock found
  refine ⟨?_, ?_, ?_, ?_, ?_, ?_⟩
  · obtain ⟨p, seed, hash, value, first, zero⟩ := ok.genesis
    refine ⟨p, seed, hash, value, roots ▸ first, ?_⟩
    rw [blocks, Blockchain.levelAt_stored hstored, if_neg (Ne.symm depth), zero]
  · intro d hd
    rw [blocks, Blockchain.length_stored hstored] at hd
    rw [blocks, Blockchain.levelAt_stored hstored]
    split
    · simp [upsert]
    · exact ok.levels d (by omega)
  · intro d h x member
    rw [blocks] at member
    rcases mem_levelAt_stored hstored member with ⟨rfl, same⟩ | ⟨old, -⟩
    · obtain ⟨rfl, rfl⟩ := Prod.mk.inj same
      exact ⟨rfl, rfl⟩
    · exact ok.entries d h x old
  · intro d h x member
    rw [blocks] at member ⊢
    rcases mem_levelAt_stored hstored member with ⟨level, same⟩ | ⟨old, -⟩
    · obtain ⟨rfl, rfl⟩ := Prod.mk.inj same
      rw [show d = x.depth - 1 by omega]
      exact ⟨signed, parent, getBlock_stored_parent hstored depth found⟩
    · obtain ⟨verified, kept⟩ := ok.parents d h x old
      exact ⟨verified, exists_getBlock_stored hstored kept⟩
  · intro h os member o listed
    rw [orphans] at member
    obtain ⟨old, hne⟩ := mem_eraseKey.1 member
    obtain ⟨prev, missing⟩ := ok.orphans h os old o listed
    refine ⟨prev, fun positive => ?_⟩
    rw [blocks, getBlock_stored_of_ne hstored _ hne]
    exact missing positive
  · have storedHead : (stored.removeTransactions b.transactions).bestPathHead = s.bestPathHead := by
      rw [Blockchain.removeTransactions_bestPathHead, (Blockchain.stored_frame hstored).1]
    have kept := exists_getBlock_stored hstored ok.head
    have fresh : ∃ x, getBlock stored.blocks b.hash b.depth = some x := ⟨b, getBlock_stored_self hstored⟩
    rw [blocks, head]
    rcases forkChoice_head hchosen with ⟨-, newHead⟩ | ⟨-, curr, -, newHead⟩ | ⟨-, newHead⟩ <;>
      rw [newHead]
    · exact fresh
    · rw [storedHead]
      split
      exacts [fresh, kept]
    · rwa [storedHead]

theorem treeOK_addBlockRec {fuel : Nat} {s s' : Blockchain} {b : Block} {extended : Bool}
    (ok : TreeOK C s) (h : addBlockRec C clock fuel s b = .ok (s', extended)) : TreeOK C s' :=
  addBlockRec_preserves (fun _ => True) (TreeOK C) (fun _ _ _ _ _ _ _ => trivial)
    (fun _ _ ok _ _ _ missing => treeOK_park ok missing)
    (fun _ _ _ _ _ ok _ signed depth found _ hstored hchosen =>
      treeOK_insert ok signed depth found hstored hchosen)
    fuel clock ok trivial h

/-- Every reachable state has the shape. -/
theorem treeOK_reachable {U : Block → Prop} {s : Blockchain} (reach : Reachable C U s) :
    TreeOK C s := by
  induction reach with
  | start h _ => exact treeOK_start h
  | addBlock _ _ _ h ih => exact treeOK_addBlockRec ih h
  | addTransaction t _ ih =>
    obtain ⟨blocks, head, orphans, -, roots⟩ := addTransaction_frame C _ t
    exact ih.of_frame blocks orphans roots head

/-- The orphan index holds only blocks whose parent is still missing: every block parked under
`h` names `h` as its parent, and the level above it stores no block under `h`. -/
theorem orphans_wait_for_missing_parent {U : Block → Prop} {s : Blockchain}
    (reach : Reachable C U s) :
    ∀ h os, (h, os) ∈ s.orphans → ∀ o ∈ os,
      o.prevHash = h ∧ (1 ≤ o.depth → getBlock s.blocks h (o.depth - 1) = none) := by
  intro h os member o listed
  obtain ⟨prev, missing⟩ := (treeOK_reachable reach).orphans h os member o listed
  exact ⟨prev, fun positive => missing (by omega)⟩

/-- A child submitted before its parent. -/
def earlyChild : Block := ⟨2, 101, 2, ⟨2, 1, 101, 0⟩, [], 103⟩

/-- The state after `earlyChild` arrives first and is parked. -/
def earlyChildState : Blockchain :=
  Except.state (runFromStart acceptAll 10 [1] 0 100 0 [.block earlyChild])

theorem orphans_wait_for_missing_parent_early_child :
    Reachable acceptAll (fun _ => True) earlyChildState ∧
      earlyChildState.orphans = [(101, [earlyChild])] ∧
      ∀ h os, (h, os) ∈ earlyChildState.orphans → ∀ o ∈ os,
        o.prevHash = h ∧ (1 ≤ o.depth → getBlock earlyChildState.blocks h (o.depth - 1) = none) := by
  have reach : Reachable acceptAll (fun _ => True) earlyChildState :=
    reachable_runFromStart (by simp) (by simp)
      (show runFromStart acceptAll 10 [1] 0 100 0 [.block earlyChild] = .ok earlyChildState from rfl)
  exact ⟨reach, rfl, orphans_wait_for_missing_parent reach⟩

end Lassecoin.Chain.Shape
