import Lassecoin.Chain.Shape

/-!
# Fork choice: the head is the best deepest block

`add_block` chooses the head incrementally: a deeper block takes over unconditionally, a block at
the head's depth replaces it when it `is_better_than` it. When the blocks submitted carry
distinct hashes, this keeps `Consistent`: the head is at the last level, it is stored there, and
it beats every other block of that level; and every block's timeslot is later than the one of
the block stored as its parent. `check_best_path` then agrees with the incremental choice: its
fold over the last level, in any order, ends at the head.
-/

set_option autoImplicit false
set_option relaxedAutoImplicit false

namespace Lassecoin.Chain.ForkChoice

open Lassecoin.Types Lassecoin.Balances Lassecoin.Chain.State Lassecoin.Chain.Rollback
open Lassecoin.Chain.AddBlock Lassecoin.Chain.Step Lassecoin.Chain.Shape

variable {C : Crypto} {clock : List Nat → Nat} {U : Block → Prop}

/-- Distinct blocks of `U` carry distinct hashes. -/
def HashInjective (U : Block → Prop) : Prop := ∀ b c, U b → U c → b.hash = c.hash → b = c

theorem hashInjective_of_nodup (l : List Block) (distinct : (l.map Block.hash).Nodup) :
    HashInjective (· ∈ l) :=
  fun _ _ hb hc same => List.inj_on_of_nodup_map distinct hb hc same

/-- Distinct blocks of `U` at one positive depth carry distinct hashes: only such blocks can meet
in a level, as nothing is stored at depth zero after `start`. -/
def LevelInjective (U : Block → Prop) : Prop :=
  ∀ b c, U b → U c → b.hash = c.hash → b.depth = c.depth → b.depth ≠ 0 → b = c

theorem HashInjective.levelInjective (inj : HashInjective U) : LevelInjective U :=
  fun b c hb hc same _ _ => inj b c hb hc same

/-- What the fork choice keeps, given distinct hashes: the blocks in play come from `U`, parents
are older than their children, and the head is the best block of the last level. -/
structure Consistent (U : Block → Prop) (s : Blockchain) : Prop where
  within : ∀ d h b, (h, b) ∈ levelAt s.blocks d → U b
  orphansWithin : ∀ h os, (h, os) ∈ s.orphans → ∀ o ∈ os, U o
  ordered : ∀ d h b, (h, b) ∈ levelAt s.blocks (d + 1) →
    ∃ p, getBlock s.blocks b.prevHash d = some p ∧ p.timeslot < b.timeslot
  headDepth : s.bestPathHead.2 + 1 = s.blocks.length
  headBest : ∃ tip, getBlock s.blocks s.bestPathHead.1 s.bestPathHead.2 = some tip ∧
    ∀ h x, (h, x) ∈ levelAt s.blocks s.bestPathHead.2 → x ≠ tip → tip.isBetterThan x = true

theorem Consistent.of_frame {s s' : Blockchain} (ok : Consistent U s) (blocks : s'.blocks = s.blocks)
    (orphans : s'.orphans = s.orphans) (head : s'.bestPathHead = s.bestPathHead) : Consistent U s' := by
  obtain ⟨within, waiting, ordered, depth, best⟩ := ok
  exact ⟨by rwa [blocks], by rwa [orphans], by rwa [blocks], by rwa [blocks, head],
    by rwa [blocks, head]⟩

theorem consistent_start {rootAccounts : List Nat} {seedHash hash value : Nat} {s : Blockchain}
    (h : start rootAccounts seedHash hash value = .ok s)
    (genesisIn : ∀ p ∈ rootAccounts.head?, U (genesisBlock p seedHash hash value)) :
    Consistent U s := by
  obtain ⟨p, first, rfl⟩ := start_ok h
  refine ⟨fun d h x member => ?_, fun h os member => by simp at member,
    fun d h x member => absurd (mem_levelAt_single.1 member).1 (Nat.succ_ne_zero d), rfl,
    ⟨genesisBlock p seedHash hash value, by simp [getBlock], fun h x member other => ?_⟩⟩
  · rw [(Prod.mk.inj (mem_levelAt_single.1 member).2).2]
    exact genesisIn p first
  · exact absurd (Prod.mk.inj (mem_levelAt_single.1 member).2).2 other

theorem consistent_park {s : Blockchain} {b : Block} (ok : Consistent U s) (hb : U b) :
    Consistent U (s.park b) := by
  refine ⟨ok.within, ?_, ok.ordered, ok.headDepth, ok.headBest⟩
  intro h os member o listed
  rcases mem_upsert.1 member with same | ⟨old, -⟩
  · simp only [Prod.mk.injEq] at same
    obtain ⟨rfl, rfl⟩ := same
    rcases List.mem_append.1 listed with waiting | fresh
    · obtain ⟨os, listed, waiting⟩ := exists_mem_of_mem_lookup waiting
      exact ok.orphansWithin _ os listed o waiting
    · rw [List.mem_singleton.1 fresh]
      exact hb
  · exact ok.orphansWithin h os old o listed

theorem eq_of_stored {s : Blockchain} {b x : Block} {d h : Nat} (inj : LevelInjective U)
    (shape : TreeOK C s) (ok : Consistent U s) (hb : U b) (member : (h, x) ∈ levelAt s.blocks d)
    (same : h = b.hash) (level : d = b.depth) (depth : b.depth ≠ 0) : x = b := by
  obtain ⟨hash, xDepth⟩ := shape.entries d h x member
  exact inj x b (ok.within d h x member) hb (hash.trans same) (xDepth.trans level) (by omega)

theorem getBlock_stored_keeps {s stored : Blockchain} {b x : Block} {h d : Nat}
    (inj : LevelInjective U) (shape : TreeOK C s) (ok : Consistent U s) (hb : U b)
    (depth : b.depth ≠ 0) (hstored : (s.grow b.depth).insertBlock b = .ok stored)
    (found : getBlock s.blocks h d = some x) : getBlock stored.blocks h d = some x := by
  rw [getBlock_stored hstored]
  split
  · rename_i replaced
    rw [eq_of_stored inj shape ok hb (mem_levelAt_of_getBlock found) replaced.2 replaced.1 depth]
  · exact found

private theorem beats_after_insert {s stored : Blockchain} {b t : Block} {d : Nat}
    (hstored : (s.grow b.depth).insertBlock b = .ok stored)
    (old : ∀ h x, (h, x) ∈ levelAt s.blocks d → x ≠ t → t.isBetterThan x = true)
    (new : d = b.depth → b ≠ t → t.isBetterThan b = true) :
    ∀ h x, (h, x) ∈ levelAt stored.blocks d → x ≠ t → t.isBetterThan x = true := by
  intro h x member other
  rcases mem_levelAt_stored hstored member with ⟨level, same⟩ | ⟨kept, -⟩
  · obtain ⟨-, rfl⟩ := Prod.mk.inj same
    exact new level other
  · exact old h x kept other

private theorem head_after_insert {s stored chosen : Blockchain} {b : Block} (inj : LevelInjective U)
    (shape : TreeOK C s) (ok : Consistent U s) (hb : U b) (depth : b.depth ≠ 0)
    (within : b.depth - 1 < s.blocks.length)
    (hstored : (s.grow b.depth).insertBlock b = .ok stored)
    (hchosen : forkChoice C (stored.removeTransactions b.transactions) b = .ok chosen) :
    chosen.bestPathHead.2 + 1 = stored.blocks.length ∧
      ∃ tip, getBlock stored.blocks chosen.bestPathHead.1 chosen.bestPathHead.2 = some tip ∧
        ∀ h x, (h, x) ∈ levelAt stored.blocks chosen.bestPathHead.2 → x ≠ tip →
          tip.isBetterThan x = true := by
  have len := Blockchain.length_stored hstored
  have depthOK := ok.headDepth
  obtain ⟨tip, tipFound, tipBest⟩ := ok.headBest
  have tipMember := mem_levelAt_of_getBlock tipFound
  have head : (stored.removeTransactions b.transactions).bestPathHead = s.bestPathHead := by
    rw [Blockchain.removeTransactions_bestPathHead, (Blockchain.stored_frame hstored).1]
  have fresh := getBlock_stored_self hstored
  have alone : ∀ {d}, d = b.depth → b ≠ b → b.isBetterThan b = true := fun _ other => absurd rfl other
  rcases forkChoice_head hchosen with ⟨deeper, newHead⟩ | ⟨level, curr, currFound, newHead⟩ |
    ⟨shallower, newHead⟩
  · rw [head] at deeper
    rw [newHead]
    have empty : levelAt s.blocks b.depth = [] := by
      simp [levelAt, List.getElem?_eq_none (show s.blocks.length ≤ b.depth by omega)]
    exact ⟨by simp only; omega, b, fresh, beats_after_insert hstored (by simp [empty]) alone⟩
  · rw [head] at level currFound newHead
    rw [Blockchain.removeTransactions_blocks, getBlock_stored hstored] at currFound
    rw [newHead]
    by_cases same : s.bestPathHead.1 = b.hash
    · obtain rfl : tip = b := eq_of_stored inj shape ok hb tipMember same level.symm depth
      rw [if_pos ⟨level.symm, same⟩, Option.some.injEq] at currFound
      rw [← currFound, if_neg (by simp [isBetterThan_irrefl])]
      exact ⟨by omega, tip, by rw [getBlock_stored hstored, if_pos ⟨level.symm, same⟩],
        beats_after_insert hstored tipBest alone⟩
    · have kept : getBlock stored.blocks s.bestPathHead.1 s.bestPathHead.2 = some tip := by
        rw [getBlock_stored hstored, if_neg (fun both => same both.2), tipFound]
      rw [if_neg (fun both => same both.2), tipFound, Option.some.injEq] at currFound
      subst currFound
      split
      · rename_i better
        refine ⟨by simp only; omega, b, fresh, beats_after_insert hstored (fun h x old other => ?_) alone⟩
        rw [show (b.hash, b.depth).2 = s.bestPathHead.2 from level] at old
        by_cases isTip : x = tip
        · rw [isTip]
          exact better
        · exact isBetterThan_trans better (tipBest h x old isTip)
      · rename_i notBetter
        have hashes : b.hash ≠ tip.hash := by
          rw [(shape.entries _ _ _ tipMember).1]
          exact Ne.symm same
        exact ⟨by omega, tip, kept, beats_after_insert hstored tipBest
          fun _ _ => (isBetterThan_total hashes).resolve_left notBetter⟩
  · rw [head] at shallower newHead
    rw [newHead]
    exact ⟨by omega, tip, by rw [getBlock_stored hstored, if_neg (fun both => by omega), tipFound],
      beats_after_insert hstored tipBest fun level => by omega⟩

theorem consistent_insert {s stored chosen : Blockchain} {b parent : Block} (inj : LevelInjective U)
    (shape : TreeOK C s) (ok : Consistent U s) (hb : U b) (depth : b.depth ≠ 0)
    (found : getBlock s.blocks b.prevHash (b.depth - 1) = some parent)
    (older : parent.timeslot < b.timeslot)
    (hstored : (s.grow b.depth).insertBlock b = .ok stored)
    (hchosen : forkChoice C (stored.removeTransactions b.transactions) b = .ok chosen) :
    Consistent U (chosen.takeOrphans b.hash).2 := by
  obtain ⟨blocks, orphans, -, head⟩ := cascade_start hstored hchosen
  have within : b.depth - 1 < s.blocks.length := lt_length_of_getBlock found
  obtain ⟨headDepth, headBest⟩ := head_after_insert inj shape ok hb depth within hstored hchosen
  refine ⟨?_, ?_, ?_, by rwa [blocks, head], by rwa [blocks, head]⟩
  · intro d h x member
    rw [blocks] at member
    rcases mem_levelAt_stored hstored member with ⟨-, same⟩ | ⟨old, -⟩
    · rw [(Prod.mk.inj same).2]
      exact hb
    · exact ok.within d h x old
  · intro h os member
    rw [orphans] at member
    exact ok.orphansWithin h os (mem_eraseKey.1 member).1
  · intro d h x member
    rw [blocks] at member ⊢
    rcases mem_levelAt_stored hstored member with ⟨level, same⟩ | ⟨old, -⟩
    · obtain ⟨-, rfl⟩ := Prod.mk.inj same
      rw [show d = x.depth - 1 by omega]
      exact ⟨parent, getBlock_stored_parent hstored depth found, older⟩
    · obtain ⟨p, hp, pOlder⟩ := ok.ordered d h x old
      exact ⟨p, getBlock_stored_keeps inj shape ok hb depth hstored hp, pOlder⟩

theorem consistent_addBlockRec (inj : LevelInjective U) {fuel : Nat} {s s' : Blockchain} {b : Block}
    {extended : Bool} (ok : TreeOK C s ∧ Consistent U s) (hb : U b)
    (h : addBlockRec C clock fuel s b = .ok (s', extended)) : TreeOK C s' ∧ Consistent U s' :=
  addBlockRec_preserves U (fun s => TreeOK C s ∧ Consistent U s)
    (fun _ ok => ok.2.orphansWithin)
    (fun _ _ ok hb _ _ missing => ⟨treeOK_park ok.1 missing, consistent_park ok.2 hb⟩)
    (fun _ _ _ _ _ ok hb signed depth found older hstored hchosen =>
      ⟨treeOK_insert ok.1 signed depth found hstored hchosen,
        consistent_insert inj ok.1 ok.2 hb depth found older hstored hchosen⟩)
    fuel clock ok hb h

/-- Every reachable state is `Consistent` when the blocks submitted carry distinct hashes. -/
theorem consistent_reachable (inj : LevelInjective U) {s : Blockchain} (reach : Reachable C U s) :
    Consistent U s := by
  have both : TreeOK C s ∧ Consistent U s := by
    induction reach with
    | start h genesisIn => exact ⟨treeOK_start h, consistent_start h genesisIn⟩
    | addBlock _ _ hb h ih => exact consistent_addBlockRec inj ih hb h
    | addTransaction t _ ih =>
      obtain ⟨blocks, head, orphans, -, roots⟩ := addTransaction_frame C _ t
      exact ⟨ih.1.of_frame blocks orphans roots head, ih.2.of_frame blocks orphans head⟩
  exact both.2

private theorem foldl_greatest (tip : Block) :
    ∀ (l : List Block) (g : Block), (g = tip ∨ tip ∈ l) →
      (∀ x ∈ g :: l, x ≠ tip → tip.isBetterThan x = true) →
      l.foldl (fun greatest block => if !greatest.isBetterThan block then block else greatest) g = tip
  | [], g, seen, _ => by simpa using seen
  | b :: l, g, seen, beats => by
    rw [List.foldl_cons]
    apply foldl_greatest tip l
    · by_cases hg : g = tip
      · subst hg
        by_cases hb : b = g
        · simp [hb, isBetterThan_irrefl]
        · simp [beats b (by simp) hb]
      · rcases seen with rfl | seen
        · exact absurd rfl hg
        rcases List.mem_cons.1 seen with rfl | later
        · simp [isBetterThan_asymm (beats g (by simp) hg)]
        · exact .inr later
    · intro x member other
      apply beats x
      · split at member <;> simp only [List.mem_cons] at member ⊢ <;> tauto
      · exact other

theorem checkBestPath_of_best {s : Blockchain} (shape : TreeOK C s)
    (depth : s.bestPathHead.2 + 1 = s.blocks.length) {tip : Block}
    (found : getBlock s.blocks s.bestPathHead.1 s.bestPathHead.2 = some tip)
    (beats : ∀ h x, (h, x) ∈ levelAt s.blocks s.bestPathHead.2 → x ≠ tip → tip.isBetterThan x = true) :
    checkBestPath s = .ok true := by
  have member := mem_levelAt_of_getBlock found
  obtain ⟨tipHash, tipDepth⟩ := shape.entries _ _ _ member
  have values : tip ∈ (levelAt s.blocks s.bestPathHead.2).map (·.2) := List.mem_map.2 ⟨_, member, rfl⟩
  unfold checkBestPath
  rw [if_neg (by omega), if_neg (by omega), getElem?_eq_levelAt (by omega)]
  simp only
  rw [if_neg (List.ne_nil_of_mem member)]
  split
  · cases hl : ((levelAt s.blocks s.bestPathHead.2).map (·.2)).getLast? with
    | none => simp [List.getLast?_eq_none_iff.1 hl] at values
    | some last =>
      simp only
      have seen : ∀ x, x ∈ last :: ((levelAt s.blocks s.bestPathHead.2).map (·.2)).dropLast ↔
          x ∈ (levelAt s.blocks s.bestPathHead.2).map (·.2) := fun x => by
        conv_rhs => rw [← List.dropLast_append_getLast? _ hl]
        simp [or_comm]
      rw [foldl_greatest tip _ last]
      · simp [tipHash, tipDepth]
      · simpa [eq_comm] using (seen tip).2 values
      · intro x hx other
        obtain ⟨⟨h, y⟩, hy, rfl⟩ := List.mem_map.1 ((seen x).1 hx)
        exact beats h y hy other
  · rfl

/-- Tip maximality: when the blocks submitted carry distinct hashes, the head is at the last
level, stored there, and `is_better_than` every other block of that level; so `check_best_path`
returns true, whatever the number of competing blocks and the order they arrived in. -/
theorem best_path_head_is_maximal (inj : HashInjective U) {s : Blockchain} (reach : Reachable C U s) :
    s.bestPathHead.2 = s.blocks.length - 1 ∧
      (∃ tip, getBlock s.blocks s.bestPathHead.1 s.bestPathHead.2 = some tip ∧
        ∀ h x, (h, x) ∈ levelAt s.blocks s.bestPathHead.2 → x ≠ tip → tip.isBetterThan x = true) ∧
      checkBestPath s = .ok true := by
  have ok := consistent_reachable inj.levelInjective reach
  obtain ⟨tip, found, beats⟩ := ok.headBest
  exact ⟨by have := ok.headDepth; omega, ⟨tip, found, beats⟩,
    checkBestPath_of_best (treeOK_reachable reach) ok.headDepth found beats⟩

/-- Two children of the genesis block competing for depth one; the second is better. -/
def forkA : Block := ⟨1, 100, 1, ⟨1, 1, 100, 0⟩, [], 101⟩

/-- The competitor of `forkA`, produced by the other root account with a higher draw. -/
def forkB : Block := ⟨1, 100, 1, ⟨1, 2, 100, 5⟩, [], 102⟩

/-- The blocks in play when `forkA` and then `forkB` are submitted. -/
def forkBlocks : List Block := [genesisBlock 1 0 100 0, forkA, forkB]

/-- The state after `forkA` and then `forkB` are submitted. -/
def forkState : Blockchain :=
  Except.state (runFromStart acceptAll 10 [1, 2] 0 100 0 [.block forkA, .block forkB])

theorem best_path_head_is_maximal_after_fork :
    HashInjective (· ∈ forkBlocks) ∧ Reachable acceptAll (· ∈ forkBlocks) forkState ∧
      forkState.bestPathHead = (forkB.hash, 1) ∧
      forkState.bestPathHead.2 = forkState.blocks.length - 1 ∧
      (∃ tip, getBlock forkState.blocks forkState.bestPathHead.1 forkState.bestPathHead.2 = some tip ∧
        ∀ h x, (h, x) ∈ levelAt forkState.blocks forkState.bestPathHead.2 → x ≠ tip →
          tip.isBetterThan x = true) ∧
      checkBestPath forkState = .ok true := by
  have inj := hashInjective_of_nodup forkBlocks (by decide)
  have reach : Reachable acceptAll (· ∈ forkBlocks) forkState :=
    reachable_runFromStart (by simp [forkBlocks]) (by simp [forkBlocks, Op.blocks])
      (show runFromStart acceptAll 10 [1, 2] 0 100 0 [.block forkA, .block forkB] = .ok forkState from rfl)
  exact ⟨inj, reach, rfl, best_path_head_is_maximal inj reach⟩

end Lassecoin.Chain.ForkChoice
