import Lassecoin.Chain.ForkChoice
import Lassecoin.Lottery

/-!
# The block tree and the walks to the genesis

`rollback` and `verify_chain` walk from a block to the genesis, at each step looking up the block
that the level above stores under the current block's `prev_hash`. On every reachable state the
walk from any stored block reaches level zero, where only the genesis is stored: `pathTo`
succeeds, so neither walk indexes a missing level or unwraps a missing block.

This is the representation invariant of the tree. All of it holds whatever the blocks carry but
the timeslot order between a block and the block stored as its parent: a block with the hash of an
older one replaces it in its level, and the children of the replaced block then hang below a
parent that may be younger than they are. With distinct hashes the order holds.
-/

set_option autoImplicit false
set_option relaxedAutoImplicit false

namespace Lassecoin.Chain.Walk

open Lassecoin.Types Lassecoin.Chain.State Lassecoin.Chain.AddBlock Lassecoin.Chain.Step Lassecoin.Chain.Shape
open Lassecoin.Chain.ForkChoice Lassecoin.Lottery

variable {C : Crypto}

/-- The walk from any stored block reaches the genesis, one block per level. -/
theorem pathTo_of_getBlock {s : Blockchain} (shape : TreeOK C s) :
    ∀ d h b, getBlock s.blocks h d = some b → ∃ path, pathTo s.blocks d h = some path ∧ path.length = d
  | 0, h, b, found => ⟨[], pathTo_zero_eq_some.2 ⟨⟨b, found⟩, rfl⟩, rfl⟩
  | d + 1, h, b, found => by
    obtain ⟨-, p, hp⟩ := shape.parents d h b (mem_levelAt_of_getBlock found)
    obtain ⟨path, walk, len⟩ := pathTo_of_getBlock shape d b.prevHash p hp
    exact ⟨path ++ [b], pathTo_succ_eq_some.2 ⟨b, path, found, walk, rfl⟩, by simp [len]⟩

theorem stored_of_mem_pathTo (blocks : List Level) :
    ∀ d h path, pathTo blocks d h = some path → ∀ b ∈ path, ∃ k e, getBlock blocks k (e + 1) = some b
  | 0, h, path, walk, b, member => by
    rw [(pathTo_zero_eq_some.1 walk).2] at member
    cases member
  | d + 1, h, path, walk, b, member => by
    obtain ⟨block, path', found, walk', rfl⟩ := pathTo_succ_eq_some.1 walk
    rcases List.mem_append.1 member with early | last
    · exact stored_of_mem_pathTo blocks d block.prevHash path' walk' b early
    · rw [List.mem_singleton.1 last]
      exact ⟨h, d, found⟩

theorem blocks_ne_nil {s : Blockchain} (shape : TreeOK C s) : s.blocks ≠ [] := by
  obtain ⟨p, seedHash, hash, value, -, zero⟩ := shape.genesis
  have member : (hash, genesisBlock p seedHash hash value) ∈ levelAt s.blocks 0 := by simp [zero]
  exact List.ne_nil_of_length_pos (lt_length_of_mem_levelAt member)

private theorem level_ne_nil {s : Blockchain} (shape : TreeOK C s) : ∀ level ∈ s.blocks, level ≠ [] := by
  intro level member
  obtain ⟨d, inRange, rfl⟩ := List.getElem_of_mem member
  have stored := shape.levels d inRange
  rwa [levelAt, List.getElem?_eq_getElem inRange, Option.getD_some] at stored

private theorem level_zero_addBlockRec {fuel : Nat} {clock : List Nat → Nat} {s s' : Blockchain} {b : Block}
    {extended : Bool} {genesis : Level} (zero : s.blocks[0]? = some genesis)
    (h : addBlockRec C clock fuel s b = .ok (s', extended)) : s'.blocks[0]? = some genesis :=
  addBlockRec_preserves (fun _ => True) (fun st => st.blocks[0]? = some genesis) (fun _ _ _ _ _ _ _ => trivial)
    (fun _ _ zero _ _ _ _ => zero)
    (fun st b _ stored chosen zero _ _ depth _ _ hstored hchosen => by
      have nonempty : 0 < st.blocks.length := List.length_pos_of_ne_nil fun empty => by simp [empty] at zero
      have longer := Blockchain.length_stored hstored
      show _ = _
      rw [(cascade_start hstored hchosen).1, getElem?_eq_levelAt (by omega), Blockchain.levelAt_stored hstored,
        if_neg (Ne.symm depth), ← getElem?_eq_levelAt nonempty, zero])
    fuel clock zero trivial h

private theorem level_zero_run {now : Nat} {genesis : Level} (ops : List Op) {s s' : Blockchain}
    (zero : s.blocks[0]? = some genesis) (h : run C now s ops = .ok s') : s'.blocks[0]? = some genesis :=
  run_preserves (U := fun _ => True) (fun st => st.blocks[0]? = some genesis)
    (fun _ _ _ _ zero _ step => level_zero_addBlockRec zero step)
    (fun st t zero => by simpa only [(addTransaction_frame C st t).1]) ops zero (fun _ _ => trivial) h

/-- The representation invariant of the block tree: the tree is not empty and no level is; level
zero holds exactly the genesis block `start` made from the first root account, and after a run
from `start` it is the very block that call made; each block sits at its own depth under its own
hash, below a parent stored one level up under its `prev_hash`; when the submitted blocks carry
distinct hashes, that parent is older; and the walks from any stored block, and from the head,
reach the genesis. -/
theorem block_tree_is_well_formed {U : Block → Prop} {s : Blockchain} (reach : Reachable C U s) :
    s.blocks ≠ [] ∧ (∀ level ∈ s.blocks, level ≠ []) ∧
      (∃ p seedHash hash value, s.rootAccounts.head? = some p ∧
        s.blocks[0]? = some [(hash, genesisBlock p seedHash hash value)]) ∧
      (∀ now rootAccounts seedHash hash value ops,
        runFromStart C now rootAccounts seedHash hash value ops = .ok s →
          ∃ p, rootAccounts.head? = some p ∧ s.blocks[0]? = some [(hash, genesisBlock p seedHash hash value)]) ∧
      (∀ d h b, (h, b) ∈ levelAt s.blocks d → b.hash = h ∧ b.depth = d ∧
        (d ≠ 0 → ∃ p, getBlock s.blocks b.prevHash (d - 1) = some p)) ∧
      (HashInjective U → ∀ d h b, (h, b) ∈ levelAt s.blocks (d + 1) →
        ∃ p, getBlock s.blocks b.prevHash d = some p ∧ p.timeslot < b.timeslot) ∧
      (∀ d h b, getBlock s.blocks h d = some b →
        ∃ path, pathTo s.blocks d h = some path ∧ path.length = d) ∧
      ∃ path, bestPath s = some path ∧ path.length = s.bestPathHead.2 := by
  have shape := treeOK_reachable reach
  obtain ⟨p, seedHash, hash, value, first, zero⟩ := shape.genesis
  obtain ⟨tip, tipFound⟩ := shape.head
  refine ⟨blocks_ne_nil shape, level_ne_nil shape, ⟨p, seedHash, hash, value, first, ?_⟩, ?_, ?_,
    fun inj => (consistent_reachable inj.levelInjective reach).ordered, pathTo_of_getBlock shape,
    pathTo_of_getBlock shape _ _ tip tipFound⟩
  · rw [← zero]
    exact getElem?_eq_levelAt (List.length_pos.2 (blocks_ne_nil shape))
  · intro now rootAccounts seedHash hash value ops h
    obtain ⟨s₀, started, ran⟩ := runFromStart_ok h
    obtain ⟨p, first, rfl⟩ := start_ok started
    exact ⟨p, first, level_zero_run ops (by rfl) ran⟩
  · intro d h b member
    obtain ⟨hash, depth⟩ := shape.entries d h b member
    refine ⟨hash, depth, fun positive => ?_⟩
    obtain ⟨e, rfl⟩ := Nat.exists_eq_succ_of_ne_zero positive
    exact (shape.parents e h b member).2

/-- A block at depth one under hash 7. -/
def collisionParent : Block := ⟨5, 100, 1, ⟨5, 1, 100, 0⟩, [], 7⟩

/-- A child of `collisionParent`, one timeslot later. -/
def collisionChild : Block := ⟨6, 7, 2, ⟨6, 1, 7, 0⟩, [], 8⟩

/-- Another block at depth one under hash 7, later than `collisionChild`. -/
def collisionLate : Block := ⟨9, 100, 1, ⟨9, 1, 100, 0⟩, [], 7⟩

/-- The state after `collisionParent`, `collisionChild` and `collisionLate` arrive in turn. -/
def collisionState : Blockchain :=
  Except.state (runFromStart acceptAll 10 [1] 0 100 0
    [.block collisionParent, .block collisionChild, .block collisionLate])

private theorem collisionState_reachable : Reachable acceptAll (fun _ => True) collisionState :=
  reachable_runFromStart (by simp) (by simp)
    (show runFromStart acceptAll 10 [1] 0 100 0
      [.block collisionParent, .block collisionChild, .block collisionLate] = .ok collisionState from rfl)

theorem block_tree_is_well_formed_after_collision :
    Reachable acceptAll (fun _ => True) collisionState ∧
      collisionState.blocks ≠ [] ∧ (∀ level ∈ collisionState.blocks, level ≠ []) ∧
      (∃ p seedHash hash value, collisionState.rootAccounts.head? = some p ∧
        collisionState.blocks[0]? = some [(hash, genesisBlock p seedHash hash value)]) ∧
      (∀ now rootAccounts seedHash hash value ops,
        runFromStart acceptAll now rootAccounts seedHash hash value ops = .ok collisionState →
          ∃ p, rootAccounts.head? = some p ∧
            collisionState.blocks[0]? = some [(hash, genesisBlock p seedHash hash value)]) ∧
      (∀ d h b, (h, b) ∈ levelAt collisionState.blocks d → b.hash = h ∧ b.depth = d ∧
        (d ≠ 0 → ∃ p, getBlock collisionState.blocks b.prevHash (d - 1) = some p)) ∧
      (HashInjective (fun _ => True) → ∀ d h b, (h, b) ∈ levelAt collisionState.blocks (d + 1) →
        ∃ p, getBlock collisionState.blocks b.prevHash d = some p ∧ p.timeslot < b.timeslot) ∧
      (∀ d h b, getBlock collisionState.blocks h d = some b →
        ∃ path, pathTo collisionState.blocks d h = some path ∧ path.length = d) ∧
      ∃ path, bestPath collisionState = some path ∧ path.length = collisionState.bestPathHead.2 :=
  ⟨collisionState_reachable, block_tree_is_well_formed collisionState_reachable⟩

/-- Without distinct hashes the timeslot order breaks: `collisionLate` replaces
`collisionParent`, and `collisionChild` now hangs below a younger block. -/
theorem collision_child_older_than_parent :
    Reachable acceptAll (fun _ => True) collisionState ∧
      (collisionChild.hash, collisionChild) ∈ levelAt collisionState.blocks 2 ∧
      getBlock collisionState.blocks collisionChild.prevHash 1 = some collisionLate ∧
      collisionChild.timeslot < collisionLate.timeslot :=
  ⟨collisionState_reachable, by decide, rfl, by decide⟩

/-- Every block of the best path passed the checks `add_block` makes: its signature verifies, its
parent is stored one level up, and, when the submitted blocks carry distinct hashes, that parent
is older. `add_block` runs neither the lottery nor the transactions on it. -/
theorem best_path_passes_admission_checks {U : Block → Prop} {s : Blockchain}
    (reach : Reachable C U s) :
    ∃ path, bestPath s = some path ∧ path.length = s.bestPathHead.2 ∧
      ∀ b ∈ path, C.verifyBlock b = true ∧ b.depth ≠ 0 ∧ getBlock s.blocks b.hash b.depth = some b ∧
        ∃ p, getBlock s.blocks b.prevHash (b.depth - 1) = some p ∧
          (HashInjective U → p.timeslot < b.timeslot) := by
  have shape := treeOK_reachable reach
  obtain ⟨tip, tipFound⟩ := shape.head
  obtain ⟨path, walk, len⟩ := pathTo_of_getBlock shape _ _ tip tipFound
  refine ⟨path, walk, len, fun b member => ?_⟩
  obtain ⟨k, e, found⟩ := stored_of_mem_pathTo s.blocks _ _ path walk b member
  have stored := mem_levelAt_of_getBlock found
  obtain ⟨rfl, depth⟩ := shape.entries _ _ _ stored
  obtain ⟨signed, p, parent⟩ := shape.parents _ _ _ stored
  rw [depth, Nat.add_sub_cancel]
  refine ⟨signed, Nat.succ_ne_zero e, found, p, parent, fun inj => ?_⟩
  obtain ⟨p', parent', older⟩ := (consistent_reachable inj.levelInjective reach).ordered _ _ _ stored
  rw [parent] at parent'
  cases parent'
  exact older

theorem best_path_passes_admission_checks_after_collision :
    Reachable acceptAll (fun _ => True) collisionState ∧
      ∃ path, bestPath collisionState = some path ∧ path.length = collisionState.bestPathHead.2 ∧
        ∀ b ∈ path, acceptAll.verifyBlock b = true ∧ b.depth ≠ 0 ∧
          getBlock collisionState.blocks b.hash b.depth = some b ∧
          ∃ p, getBlock collisionState.blocks b.prevHash (b.depth - 1) = some p ∧
            (HashInjective (fun _ => True) → p.timeslot < b.timeslot) :=
  ⟨collisionState_reachable, best_path_passes_admission_checks collisionState_reachable⟩

/-- The state after `forkA` extends the genesis of a single root account. -/
def loneForkState : Blockchain := Except.state (runFromStart acceptAll 10 [1] 0 100 0 [.block forkA])

theorem loneForkState_reachable : Reachable acceptAll (fun _ => True) loneForkState :=
  reachable_runFromStart (by simp) (by simp)
    (show runFromStart acceptAll 10 [1] 0 100 0 [.block forkA] = .ok loneForkState from rfl)

/-- `forkA` draws zero, which never wins, and the fast path puts it on the best path. -/
theorem losing_draw_on_best_path :
    Reachable acceptAll (fun _ => True) loneForkState ∧ bestPath loneForkState = some [forkA] ∧
      isWinner (replayPath acceptAll loneForkState.rootAccounts []) forkA.draw forkA.draw.signedBy = false :=
  ⟨loneForkState_reachable, rfl, by decide⟩

end Lassecoin.Chain.Walk
