import Lassecoin.Chain.Switch
import Lassecoin.Chain.Arrival
import Lassecoin.Chain.Termination

/-!
# What a run keeps: the stored blocks, and a head that only advances

`add_block` never removes a block from `blocks`, and on distinct hashes never replaces one. Its
fork choice moves the head only to a deeper block, or to a block of the head's depth that
`is_better_than` the head; `rollback` and the fast path, which edit the ledger, run only then.
So along every run the head either stays where it was, with the ledger as it was, or advances
strictly, and `add_block` returns true exactly in the second case.

`Since origin s` collects what a run from `origin` to `s` keeps; one call of `add_block`, its
orphan cascade included, and one call of `add_transaction` keep it.

What a node keeps in memory, stored blocks and parked ones, grows by at most one block per call of
`add_block`: the orphan loop takes the children out of the index before it submits them again.
-/

set_option autoImplicit false
set_option relaxedAutoImplicit false

namespace Lassecoin.Chain.Progress

open Lassecoin.Types Lassecoin.Chain.State Lassecoin.Chain.Rollback Lassecoin.Chain.AddBlock
open Lassecoin.Chain.Step Lassecoin.Chain.Shape Lassecoin.Chain.ForkChoice Lassecoin.Chain.Switch
open Lassecoin.Chain.Arrival Lassecoin.Chain.Termination

variable {C : Crypto} {clock : List Nat → Nat} {now : Nat} {U : Block → Prop}

/-! ## Advancing heads -/

/-- `Blockchain::get_latest_block`: the block stored at `best_path_head`, unwrapped. -/
def getLatestBlock (s : Blockchain) : Except Panic Block := getBlockOrPanic s.blocks s.bestPathHead.1 s.bestPathHead.2

/-- `new` advances on `old` when it is deeper, or as deep and better. -/
def Advances (old new : Block) : Prop :=
  old.depth < new.depth ∨ (new.depth = old.depth ∧ new.isBetterThan old = true)

instance (old new : Block) : Decidable (Advances old new) := inferInstanceAs (Decidable (_ ∨ _))

theorem Advances.trans {a b c : Block} (hab : Advances a b) (hbc : Advances b c) : Advances a c := by
  rcases hab with deeper | ⟨level, better⟩ <;> rcases hbc with deeper' | ⟨level', better'⟩
  · exact .inl (by omega)
  · exact .inl (by omega)
  · exact .inl (by omega)
  · exact .inr ⟨level'.trans level, isBetterThan_trans better' better⟩

theorem Advances.ne {a b : Block} (h : Advances a b) : a ≠ b := by
  rintro rfl
  rcases h with deeper | ⟨-, better⟩
  · omega
  · simp [isBetterThan_irrefl] at better

private theorem forkChoice_progress {s s' : Blockchain} {b tip : Block}
    (tipFound : getBlock s.blocks s.bestPathHead.1 s.bestPathHead.2 = some tip)
    (tipDepth : tip.depth = s.bestPathHead.2) (h : forkChoice C s b = .ok s') :
    (s'.bestPathHead = s.bestPathHead ∧ s'.ledger = s.ledger) ∨
      (s'.bestPathHead = (b.hash, b.depth) ∧ Advances tip b) := by
  rcases hs : s.bestPathHead with ⟨oldBest, oldDepth⟩
  rw [hs] at tipFound tipDepth
  simp only [forkChoice, hs] at h
  split_ifs at h with deeper extending level
  · exact .inr ⟨(rollback_frame h).2.1, .inl (by omega)⟩
  · cases h
    exact .inr ⟨rfl, .inl (by omega)⟩
  · simp only [getBlockOrPanic_of_getBlock tipFound, bind, Except.bind] at h
    split at h
    · exact .inr ⟨(rollback_frame h).2.1, .inr ⟨by omega, ‹_›⟩⟩
    · cases h
      exact .inl ⟨hs, rfl⟩
  · cases h
    exact .inl ⟨hs, rfl⟩

private theorem addBlockRec_reports {fuel : Nat} {s s' : Blockchain} {b : Block} {extended : Bool}
    (h : addBlockRec C clock fuel s b = .ok (s', extended)) : extended = (s.bestPathHead.1 != s'.bestPathHead.1) := by
  cases fuel with
  | zero => cases h
  | succ fuel =>
    simp only [addBlockRec] at h
    split_ifs at h with unsigned genesisDepth
    · cases h
      simp
    · split at h
      · cases h
        simp
      · split_ifs at h with window
        · cases h
          simp
        · obtain ⟨stored, -, h⟩ := bind_eq_ok.1 h
          obtain ⟨chosen, -, h⟩ := bind_eq_ok.1 h
          obtain ⟨after, -, h⟩ := bind_eq_ok.1 h
          cases h
          rfl

/-! ## What a run keeps -/

/-- What a run from `origin` to `s` keeps: the shape and the fork-choice invariants, every block
`origin` stored, and a head that stayed, with the ledger, or advanced on the tip of `origin`. -/
structure Since (C : Crypto) (U : Block → Prop) (origin s : Blockchain) : Prop where
  shape : TreeOK C s
  consistent : Consistent U s
  kept : ∀ h d x, getBlock origin.blocks h d = some x → getBlock s.blocks h d = some x
  progress : ∃ tip tip', getBlock origin.blocks origin.bestPathHead.1 origin.bestPathHead.2 = some tip ∧
    getBlock s.blocks s.bestPathHead.1 s.bestPathHead.2 = some tip' ∧
    ((s.bestPathHead = origin.bestPathHead ∧ s.ledger = origin.ledger) ∨ Advances tip tip')

private theorem Since.refl {s : Blockchain} (shape : TreeOK C s) (ok : Consistent U s) : Since C U s s := by
  obtain ⟨tip, found⟩ := shape.head
  exact ⟨shape, ok, fun _ _ _ => id, tip, tip, found, found, .inl ⟨rfl, rfl⟩⟩

theorem Since.of_frame {origin s s' : Blockchain} (since : Since C U origin s) (shape : TreeOK C s')
    (ok : Consistent U s') (blocks : s'.blocks = s.blocks) (head : s'.bestPathHead = s.bestPathHead)
    (ledger : s'.ledger = s.ledger) : Since C U origin s' := by
  obtain ⟨-, -, kept, tip, tip', found, found', progress⟩ := since
  refine ⟨shape, ok, fun h d x f => blocks ▸ kept h d x f, tip, tip', found, by rwa [blocks, head], ?_⟩
  rwa [head, ledger]

theorem Since.insert (inj : LevelInjective U) {origin st stored chosen : Blockchain} {b parent : Block}
    (since : Since C U origin st) (hb : U b) (signed : C.verifyBlock b = true) (depth : b.depth ≠ 0)
    (found : getBlock st.blocks b.prevHash (b.depth - 1) = some parent) (older : parent.timeslot < b.timeslot)
    (hstored : (st.grow b.depth).insertBlock b = .ok stored)
    (hchosen : forkChoice C (stored.removeTransactions b.transactions) b = .ok chosen) :
    Since C U origin (chosen.takeOrphans b.hash).2 := by
  obtain ⟨blocks, -, -, head⟩ := cascade_start hstored hchosen
  obtain ⟨stHead, -, stLedger, -⟩ := Blockchain.stored_frame hstored
  have keep : ∀ {h d x}, getBlock st.blocks h d = some x →
      getBlock (chosen.takeOrphans b.hash).2.blocks h d = some x := fun f => by
    rw [blocks]
    exact getBlock_stored_keeps inj since.shape since.consistent hb depth hstored f
  obtain ⟨tip, tip', originFound, found', progress⟩ := since.progress
  refine ⟨treeOK_insert since.shape signed depth found hstored hchosen,
    consistent_insert inj since.shape since.consistent hb depth found older hstored hchosen,
    fun h d x f => keep (since.kept h d x f), tip, ?_⟩
  have tipDepth := (since.shape.entries _ _ _ (mem_levelAt_of_getBlock found')).2
  have storedFound : getBlock (stored.removeTransactions b.transactions).blocks
      (stored.removeTransactions b.transactions).bestPathHead.1
      (stored.removeTransactions b.transactions).bestPathHead.2 = some tip' := by
    rw [Blockchain.removeTransactions_blocks, Blockchain.removeTransactions_bestPathHead, stHead]
    exact getBlock_stored_keeps inj since.shape since.consistent hb depth hstored found'
  rw [head, Blockchain.takeOrphans_ledger]
  rcases forkChoice_progress storedFound (by rw [Blockchain.removeTransactions_bestPathHead, stHead, tipDepth])
    hchosen with ⟨sameHead, sameLedger⟩ | ⟨newHead, advances⟩
  · -- the head stays where it was at `st`
    rw [Blockchain.removeTransactions_bestPathHead, stHead] at sameHead
    rw [Blockchain.removeTransactions_ledger, stLedger] at sameLedger
    rw [sameHead, sameLedger]
    exact ⟨tip', originFound, keep found', progress⟩
  · -- the head moves to `b`
    rw [newHead]
    refine ⟨b, originFound, by rw [blocks]; exact getBlock_stored_self hstored, .inr ?_⟩
    rcases progress with ⟨stayed, -⟩ | advanced
    · rw [stayed] at found'
      obtain rfl : tip = tip' := Option.some.inj ((since.kept _ _ _ originFound).symm.trans found')
      exact advances
    · exact advanced.trans advances

/-- Every call of `add_block` on a block of `U`, its orphan cascade included, keeps `Since`. -/
theorem Since.addBlockRec (inj : LevelInjective U) {origin : Blockchain} {fuel : Nat} {s s' : Blockchain} {b : Block}
    {extended : Bool} (since : Since C U origin s) (hb : U b)
    (h : addBlockRec C clock fuel s b = .ok (s', extended)) : Since C U origin s' :=
  addBlockRec_preserves U (Since C U origin) (fun _ since => since.consistent.orphansWithin)
    (fun _ _ since hb _ _ missing => since.of_frame (treeOK_park since.shape missing)
      (consistent_park since.consistent hb) rfl rfl rfl)
    (fun _ _ _ _ _ since hb signed depth found older hstored hchosen =>
      since.insert inj hb signed depth found older hstored hchosen)
    fuel clock since hb h

/-- Every run on blocks of `U` keeps `Since`. -/
theorem Since.run (inj : LevelInjective U) {origin s s' : Blockchain} (ops : List Op) (since : Since C U origin s)
    (within : ∀ b ∈ Op.blocks ops, U b) (h : run C now s ops = .ok s') : Since C U origin s' :=
  run_preserves (Since C U origin) (fun _ _ _ _ since hb step => since.addBlockRec inj hb step)
    (fun s t since => by
      obtain ⟨blocks, head, orphans, ledger, roots⟩ := addTransaction_frame C s t
      exact since.of_frame (since.shape.of_frame blocks orphans roots head)
        (since.consistent.of_frame blocks orphans head) blocks head ledger)
    ops since within h

/-! ## On every reachable state -/

/-- On distinct hashes, a block stored once stays stored at the same place along every run:
`add_block` never removes a block and never replaces one. -/
theorem stored_blocks_persist (inj : HashInjective U) {s s' : Blockchain} (reach : Reachable C U s)
    (ops : List Op) (within : ∀ b ∈ Op.blocks ops, U b) (h : run C now s ops = .ok s') {hash depth : Nat}
    {x : Block} (found : getBlock s.blocks hash depth = some x) : getBlock s'.blocks hash depth = some x :=
  ((Since.refl (treeOK_reachable reach) (consistent_reachable inj.levelInjective reach)).run
    inj.levelInjective ops within h).kept hash depth x found

/-- The blocks in play in the runs of `switchTree`. -/
def switchBlocks : List Block := [genesisBlock 1 0 100 0, branchRoot, oldTip, newMiddle, newTip]

private theorem switchBlocks_distinct : HashInjective (· ∈ switchBlocks) := hashInjective_of_nodup switchBlocks (by decide)

private theorem oldTipState_reachable : Reachable acceptAll (· ∈ switchBlocks) oldTipState :=
  reachable_runFromStart (by simp [switchBlocks]) (by simp [switchBlocks, Op.blocks])
    (show runFromStart acceptAll 10 [1, 2] 0 100 0 [.block branchRoot, .block oldTip] = .ok oldTipState from rfl)

private theorem switchRun : run acceptAll 10 oldTipState [.block newMiddle, .block newTip] = .ok switchTree := rfl

theorem stored_blocks_persist_through_switch :
    HashInjective (· ∈ switchBlocks) ∧ Reachable acceptAll (· ∈ switchBlocks) oldTipState ∧
      (∀ b ∈ Op.blocks [.block newMiddle, .block newTip], b ∈ switchBlocks) ∧
      run acceptAll 10 oldTipState [.block newMiddle, .block newTip] = .ok switchTree ∧
      getBlock oldTipState.blocks 102 2 = some oldTip ∧ getBlock switchTree.blocks 102 2 = some oldTip :=
  ⟨switchBlocks_distinct, oldTipState_reachable, by simp [switchBlocks, Op.blocks], switchRun,
    rfl, stored_blocks_persist switchBlocks_distinct oldTipState_reachable
      [.block newMiddle, .block newTip] (by simp [switchBlocks, Op.blocks]) switchRun rfl⟩

/-- On distinct hashes, along every run the head either stays, with the ledger as it was, or
advances strictly on the old tip: to a deeper block, or to a better block of its depth. -/
theorem head_never_moves_back (inj : HashInjective U) {s s' : Blockchain} (reach : Reachable C U s)
    (ops : List Op) (within : ∀ b ∈ Op.blocks ops, U b) (h : run C now s ops = .ok s') :
    ∃ tip tip', getLatestBlock s = .ok tip ∧
      getLatestBlock s' = .ok tip' ∧
      ((s'.bestPathHead = s.bestPathHead ∧ s'.ledger = s.ledger) ∨ Advances tip tip') := by
  obtain ⟨tip, tip', found, found', progress⟩ := ((Since.refl (treeOK_reachable reach)
    (consistent_reachable inj.levelInjective reach)).run inj.levelInjective ops within h).progress
  exact ⟨tip, tip', getBlockOrPanic_of_getBlock found, getBlockOrPanic_of_getBlock found', progress⟩

theorem head_never_moves_back_through_switch :
    HashInjective (· ∈ switchBlocks) ∧ Reachable acceptAll (· ∈ switchBlocks) oldTipState ∧
      (∀ b ∈ Op.blocks [.block newMiddle, .block newTip], b ∈ switchBlocks) ∧
      run acceptAll 10 oldTipState [.block newMiddle, .block newTip] = .ok switchTree ∧
      ∃ tip tip', getLatestBlock oldTipState = .ok tip ∧
        getLatestBlock switchTree = .ok tip' ∧
        ((switchTree.bestPathHead = oldTipState.bestPathHead ∧ switchTree.ledger = oldTipState.ledger) ∨
          Advances tip tip') :=
  ⟨switchBlocks_distinct, oldTipState_reachable, by simp [switchBlocks, Op.blocks], switchRun,
    head_never_moves_back switchBlocks_distinct oldTipState_reachable
      [.block newMiddle, .block newTip] (by simp [switchBlocks, Op.blocks]) switchRun⟩

/-- On distinct hashes, `add_block` returns true exactly when the head advanced strictly on the
old tip, and when it returns false the head and the ledger are as they were: only a head that
moves edits the ledger. -/
theorem add_block_result_reports_advance (inj : HashInjective U) {s s' : Blockchain} {b : Block}
    {extended : Bool} (reach : Reachable C U s) (hb : U b) (h : addBlock C clock s b = .ok (s', extended)) :
    ∃ tip tip', getLatestBlock s = .ok tip ∧
      getLatestBlock s' = .ok tip' ∧
      (extended = true ↔ Advances tip tip') ∧
      (extended = false → s'.bestPathHead = s.bestPathHead ∧ s'.ledger = s.ledger) := by
  have shape := treeOK_reachable reach
  have ok := consistent_reachable inj.levelInjective reach
  have since := (Since.refl shape ok).addBlockRec inj.levelInjective hb h
  obtain ⟨tip, tip', found, found', progress⟩ := since.progress
  have reported := addBlockRec_reports h
  -- tips that differ carry different hashes, the hashes of the two heads
  have moves : Advances tip tip' → extended = true := fun advanced => by
    have tipHash := (shape.entries _ _ _ (mem_levelAt_of_getBlock found)).1
    have tipHash' := (since.shape.entries _ _ _ (mem_levelAt_of_getBlock found')).1
    rw [reported, bne_iff_ne]
    intro same
    exact advanced.ne (inj tip tip' (ok.within _ _ _ (mem_levelAt_of_getBlock found))
      (since.consistent.within _ _ _ (mem_levelAt_of_getBlock found')) (by rw [tipHash, tipHash', same]))
  exact ⟨tip, tip', getBlockOrPanic_of_getBlock found, getBlockOrPanic_of_getBlock found',
    ⟨fun moved => progress.resolve_left fun ⟨same, _⟩ => by simp [reported, same] at moved, moves⟩,
    fun stayed => progress.resolve_right fun advanced => by simp [moves advanced] at stayed⟩

/-- The tree once `newMiddle`, worse than `oldTip`, joins it at depth two. -/
def middleState : Blockchain := Except.state (Prod.fst <$> addBlock acceptAll (fun _ => 10) oldTipState newMiddle)

private theorem middleRun : addBlock acceptAll (fun _ => 10) oldTipState newMiddle = .ok (middleState, false) := rfl

theorem add_block_result_reports_advance_on_losing_sibling :
    HashInjective (· ∈ switchBlocks) ∧ Reachable acceptAll (· ∈ switchBlocks) oldTipState ∧
      newMiddle ∈ switchBlocks ∧ addBlock acceptAll (fun _ => 10) oldTipState newMiddle = .ok (middleState, false) ∧
      ∃ tip tip', getLatestBlock oldTipState = .ok tip ∧
        getLatestBlock middleState = .ok tip' ∧
        (false = true ↔ Advances tip tip') ∧
        (false = false → middleState.bestPathHead = oldTipState.bestPathHead ∧
          middleState.ledger = oldTipState.ledger) :=
  ⟨switchBlocks_distinct, oldTipState_reachable, by decide, middleRun,
    add_block_result_reports_advance switchBlocks_distinct oldTipState_reachable
      (show newMiddle ∈ switchBlocks by decide) middleRun⟩

/-- On distinct hashes, no block submitted along a run is lost without a reason: at the end of the
run it is stored at its depth under its hash, parked under its `prev_hash`, rejected for its
signature, or rejected for its timeslot against the parent the tree stores (not after the parent's,
or later than the clock; `add_block` does not keep such a block to retry it). -/
theorem submitted_blocks_accounted (inj : HashInjective U) {s s' : Blockchain} (reach : Reachable C U s)
    (ops : List Op) (within : ∀ b ∈ Op.blocks ops, U b) (h : run C now s ops = .ok s') {x : Block}
    (submitted : x ∈ Op.blocks ops) :
    getBlock s'.blocks x.hash x.depth = some x ∨ x ∈ (s'.orphans.lookup x.prevHash).getD [] ∨
      C.verifyBlock x = false ∨
      ∃ p, getBlock s'.blocks x.prevHash (x.depth - 1) = some p ∧ (x.timeslot ≤ p.timeslot ∨ now < x.timeslot) :=
  accounted_run inj.levelInjective x ops s s' ⟨treeOK_reachable reach, consistent_reachable inj.levelInjective reach⟩
    within (.inl submitted) h

/-- A child of `oldTip` whose timeslot is later than the clock reading. -/
def earlyTip : Block := ⟨11, 102, 3, ⟨11, 1, 102, 0⟩, [], 105⟩

private theorem earlyRun : run acceptAll 10 oldTipState [.block earlyTip] = .ok oldTipState := rfl

theorem submitted_blocks_accounted_from_the_future :
    HashInjective (· ∈ earlyTip :: switchBlocks) ∧ Reachable acceptAll (· ∈ earlyTip :: switchBlocks) oldTipState ∧
      (∀ b ∈ Op.blocks [.block earlyTip], b ∈ earlyTip :: switchBlocks) ∧
      run acceptAll 10 oldTipState [.block earlyTip] = .ok oldTipState ∧ earlyTip ∈ Op.blocks [.block earlyTip] ∧
      (getBlock oldTipState.blocks earlyTip.hash earlyTip.depth = some earlyTip ∨
        earlyTip ∈ (oldTipState.orphans.lookup earlyTip.prevHash).getD [] ∨ acceptAll.verifyBlock earlyTip = false ∨
        ∃ p, getBlock oldTipState.blocks earlyTip.prevHash (earlyTip.depth - 1) = some p ∧
          (earlyTip.timeslot ≤ p.timeslot ∨ 10 < earlyTip.timeslot)) := by
  have inj := hashInjective_of_nodup (earlyTip :: switchBlocks) (by decide)
  have reach : Reachable acceptAll (· ∈ earlyTip :: switchBlocks) oldTipState :=
    reachable_runFromStart (by simp [switchBlocks]) (by simp [switchBlocks, Op.blocks])
      (show runFromStart acceptAll 10 [1, 2] 0 100 0 [.block branchRoot, .block oldTip] = .ok oldTipState from rfl)
  exact ⟨inj, reach, by simp [Op.blocks], earlyRun, by simp [Op.blocks],
    submitted_blocks_accounted inj reach [.block earlyTip] (by simp [Op.blocks]) earlyRun (by simp [Op.blocks])⟩

/-! ## What a node keeps in memory -/

/-- The blocks a state keeps: those the tree stores and those the orphan index parks, every parked
copy counted. -/
def footprint (s : Blockchain) : Nat := (s.blocks.map List.length).sum + s.orphanCount

private theorem sum_length_set : ∀ (G : List Level) (d : Nat) (u : Level),
    ((G.set d u).map List.length).sum + (levelAt G d).length =
      (G.map List.length).sum + if d < G.length then u.length else 0
  | [], d, u => by simp [levelAt]
  | x :: G, 0, u => by
    simp [levelAt]
    omega
  | x :: G, d + 1, u => by
    have := sum_length_set G d u
    simp only [levelAt, List.set_cons_succ, List.map_cons, List.sum_cons, List.getElem?_cons_succ,
      List.length_cons, Nat.add_lt_add_iff_right] at this ⊢
    omega

private theorem storedCount_le {s stored : Blockchain} {b : Block} (hstored : (s.grow b.depth).insertBlock b = .ok stored) :
    (stored.blocks.map List.length).sum ≤ (s.blocks.map List.length).sum + 1 := by
  rw [Blockchain.grow_insertBlock] at hstored
  cases hstored
  have key := sum_length_set (s.grow b.depth).blocks b.depth (upsert (levelAt s.blocks b.depth) b.hash b)
  have upserted : (upsert (levelAt s.blocks b.depth) b.hash b).length ≤ (levelAt s.blocks b.depth).length + 1 := by
    simpa [upsert] using List.length_filter_le _ (levelAt s.blocks b.depth)
  have grownLevel : levelAt (s.grow b.depth).blocks b.depth = levelAt s.blocks b.depth := by
    rw [Blockchain.grow_blocks, levelAt_append_replicate]
  have grownSum : ((s.grow b.depth).blocks.map List.length).sum = (s.blocks.map List.length).sum := by simp
  rw [grownLevel, grownSum] at key
  show (((s.grow b.depth).blocks.set b.depth _).map List.length).sum ≤ _
  split_ifs at key <;> omega

private theorem footprint_addBlockRec {fuel : Nat} :
    ∀ {clock : List Nat → Nat} {s s' : Blockchain} {b : Block} {extended : Bool},
      addBlockRec C clock fuel s b = .ok (s', extended) → footprint s' ≤ footprint s + 1 := by
  induction fuel with
  | zero =>
    intro clock s s' b extended h
    cases h
  | succ fuel ih =>
    intro clock s s' b extended h
    rcases addBlockRec_succ_ok h with ⟨-, rfl⟩ | ⟨-, -, -, rfl⟩ | ⟨-, -, -, rfl⟩ |
      ⟨parent, stored, chosen, -, -, -, -, -, hstored, hchosen, cascade⟩
    · exact Nat.le_succ _
    · have := Blockchain.orphanCount_park_le s b
      simp only [footprint, Blockchain.park_blocks]
      omega
    · exact Nat.le_succ _
    · have start := orphanCount_cascade_start hstored hchosen
      have grown := storedCount_le hstored
      obtain ⟨blocks, -, -, -⟩ := cascade_start hstored hchosen
      have drained := foldlM_drain (fun x l => footprint x + l.length ≤
          footprint (chosen.takeOrphans b.hash).2 + (chosen.takeOrphans b.hash).1.enum.length)
        (fun x o x' l bound step => by
          obtain ⟨r, step⟩ := orphanStep_eq_ok.1 step
          have := ih step
          simp only [List.length_cons] at bound
          omega) _ le_rfl cascade
      simp only [footprint, blocks, List.length_nil, add_zero, List.enum_length] at drained ⊢
      omega

/-- Every run, from any state, adds to what the node keeps, stored or parked, at most one block
per block it submits: the orphan loop never multiplies blocks, and `add_transaction` adds none. -/
theorem footprint_grows_by_submissions : ∀ (ops : List Op) {s s' : Blockchain},
    run C now s ops = .ok s' → footprint s' ≤ footprint s + (Op.blocks ops).length
  | [], s, s', h => by
    cases h
    exact Nat.le_add_right _ _
  | .block b :: ops, s, s', h => by
    obtain ⟨⟨s₁, extended⟩, step, h⟩ := bind_eq_ok.1 h
    have := footprint_addBlockRec step
    have := footprint_grows_by_submissions ops h
    simp only [Op.blocks, List.length_cons]
    omega
  | .transaction t :: ops, s, s', h => by
    obtain ⟨blocks, -, orphans, -, -⟩ := addTransaction_frame C s t
    have := footprint_grows_by_submissions ops h
    simpa only [footprint, Blockchain.orphanCount, blocks, orphans, Op.blocks] using this

theorem footprint_grows_by_submissions_through_switch :
    run acceptAll 10 oldTipState [.block newMiddle, .block newTip] = .ok switchTree ∧
      footprint switchTree ≤ footprint oldTipState + (Op.blocks [.block newMiddle, .block newTip]).length :=
  ⟨switchRun, footprint_grows_by_submissions [.block newMiddle, .block newTip] switchRun⟩

end Lassecoin.Chain.Progress
