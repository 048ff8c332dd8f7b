import Lassecoin.Chain.AddBlock

/-!
# What one call can do

One lemma per operation says everything a successful call does: what `forkChoice` keeps and
how it moves the head, the three outcomes of `add_block` (nothing, parking, or storing followed
by the orphan cascade), and what `add_transaction` touches. `addBlockRec_preserves` packages the
induction through the orphan cascade once: an invariant that parking keeps, and that storing a
block and collecting its orphans keeps, holds after every call, whatever each nested call reads
from the clock. `addBlockRec_preserves_within` is the same induction for an invariant that needs
to know the readings, such as one clock held fixed for the whole cascade.
-/

set_option autoImplicit false
set_option relaxedAutoImplicit false

namespace Lassecoin.Chain.Step

open Lassecoin.Types Lassecoin.Balances Lassecoin.Chain.State Lassecoin.Chain.Rollback
open Lassecoin.Chain.AddBlock

variable {C : Crypto} {clock : List Nat → Nat}

private theorem map_fst_eq_ok {ε α β : Type} {x : Except ε (α × β)} {a : α} :
    (·.1) <$> x = .ok a ↔ ∃ r, x = .ok (a, r) := by
  cases x <;> simp [Functor.map, Except.map, Prod.ext_iff]

theorem orphanStep_eq_ok {fuel : Nat} {st st' : Blockchain} {o : Nat × Block} :
    orphanStep C clock fuel st o = .ok st' ↔ ∃ r, addBlockRec C (fun p => clock (o.1 :: p)) fuel st o.2 = .ok (st', r) :=
  map_fst_eq_ok

private theorem foldlM_preserves {ε α β : Type} {P : α → Prop} {f : α → β → Except ε α}
    (l : List β) (step : ∀ a b a', b ∈ l → P a → f a b = .ok a' → P a') :
    ∀ {a a' : α}, P a → l.foldlM f a = .ok a' → P a' := by
  induction l with
  | nil =>
    intro a a' ha h
    cases h
    exact ha
  | cons b l ih =>
    intro a a' ha h
    obtain ⟨a₁, h₁, h⟩ := bind_eq_ok.1 h
    exact ih (fun x y z hy => step x y z (List.mem_cons_of_mem b hy))
      (step a b a₁ (List.mem_cons_self b l) ha h₁) h

theorem foldlM_drain {ε α β : Type} (P : α → List β → Prop) {f : α → β → Except ε α}
    (step : ∀ a b a' rest, P a (b :: rest) → f a b = .ok a' → P a' rest) :
    ∀ (l : List β) {a a' : α}, P a l → l.foldlM f a = .ok a' → P a' []
  | [], _, _, ha, h => by
    cases h
    exact ha
  | b :: l, a, _, ha, h => by
    obtain ⟨a₁, h₁, h⟩ := bind_eq_ok.1 h
    exact foldlM_drain P step l (step a b a₁ l ha h₁) h

theorem getBlockOrPanic_ok {blocks : List Level} {hash depth : Nat} {b : Block}
    (h : getBlockOrPanic blocks hash depth = .ok b) : getBlock blocks hash depth = some b := by
  unfold getBlockOrPanic at h
  split at h <;> cases h
  assumption

theorem forkChoice_frame {s s' : Blockchain} {b : Block} (h : forkChoice C s b = .ok s') :
    s'.blocks = s.blocks ∧ s'.orphans = s.orphans ∧ s'.rootAccounts = s.rootAccounts := by
  rcases hs : s.bestPathHead with ⟨oldBest, oldDepth⟩
  simp only [forkChoice, hs] at h
  split_ifs at h
  · obtain ⟨h1, -, h2, h3⟩ := rollback_frame h
    exact ⟨h1, h2, h3⟩
  · cases h
    exact ⟨rfl, rfl, rfl⟩
  · obtain ⟨curr, -, h⟩ := bind_eq_ok.1 h
    split at h
    · obtain ⟨h1, -, h2, h3⟩ := rollback_frame h
      exact ⟨h1, h2, h3⟩
    · cases h
      exact ⟨rfl, rfl, rfl⟩
  · cases h
    exact ⟨rfl, rfl, rfl⟩

theorem forkChoice_head {s s' : Blockchain} {b : Block} (h : forkChoice C s b = .ok s') :
    (s.bestPathHead.2 < b.depth ∧ s'.bestPathHead = (b.hash, b.depth)) ∨
    (b.depth = s.bestPathHead.2 ∧ ∃ curr, getBlock s.blocks s.bestPathHead.1 s.bestPathHead.2 = some curr ∧
      s'.bestPathHead = if b.isBetterThan curr then (b.hash, b.depth) else s.bestPathHead) ∨
    (b.depth < s.bestPathHead.2 ∧ s'.bestPathHead = s.bestPathHead) := by
  rcases hs : s.bestPathHead with ⟨oldBest, oldDepth⟩
  simp only [forkChoice, hs] at h
  split_ifs at h with deeper extending level
  · exact .inl ⟨deeper, (rollback_frame h).2.1⟩
  · cases h
    exact .inl ⟨deeper, rfl⟩
  · obtain ⟨curr, found, h⟩ := bind_eq_ok.1 h
    refine .inr (.inl ⟨level, curr, getBlockOrPanic_ok found, ?_⟩)
    split at h
    · rw [(rollback_frame h).2.1, if_pos ‹_›]
    · cases h
      rw [if_neg ‹_›, hs]
  · cases h
    exact .inr (.inr ⟨by omega, hs⟩)

/-- The four ways a call of `add_block` with fuel left can succeed: rejecting the block for its
signature, parking it, rejecting it for its timeslot, or storing it and running the cascade. -/
theorem addBlockRec_succ_ok {fuel : Nat} {s s' : Blockchain} {b : Block} {extended : Bool}
    (h : addBlockRec C clock (fuel + 1) s b = .ok (s', extended)) :
    (C.verifyBlock b = false ∧ s' = s) ∨
    (C.verifyBlock b = true ∧ b.depth ≠ 0 ∧ getBlock s.blocks b.prevHash (b.depth - 1) = none ∧
      s' = s.park b) ∨
    (C.verifyBlock b = true ∧ b.depth ≠ 0 ∧ (∃ parent, getBlock s.blocks b.prevHash (b.depth - 1) = some parent ∧
      (b.timeslot ≤ parent.timeslot ∨ clock [] < b.timeslot)) ∧ s' = s) ∨
    (∃ parent stored chosen, C.verifyBlock b = true ∧ b.depth ≠ 0 ∧
      getBlock s.blocks b.prevHash (b.depth - 1) = some parent ∧
      parent.timeslot < b.timeslot ∧ b.timeslot ≤ clock [] ∧
      (s.grow b.depth).insertBlock b = .ok stored ∧
      forkChoice C (stored.removeTransactions b.transactions) b = .ok chosen ∧
      (chosen.takeOrphans b.hash).1.enum.foldlM (orphanStep C clock fuel) (chosen.takeOrphans b.hash).2 = .ok s') := by
  simp only [addBlockRec] at h
  split_ifs at h with unsigned genesisDepth
  · cases h
    exact .inl ⟨by simpa using unsigned, rfl⟩
  · have signed : C.verifyBlock b = true := by simpa using unsigned
    split at h
    · cases h
      exact .inr (.inl ⟨signed, genesisDepth, ‹_›, rfl⟩)
    · rename_i parent found
      split_ifs at h with window
      · cases h
        exact .inr (.inr (.inl ⟨signed, genesisDepth, ⟨parent, found, window⟩, rfl⟩))
      · obtain ⟨stored, hstored, h⟩ := bind_eq_ok.1 h
        obtain ⟨chosen, hchosen, h⟩ := bind_eq_ok.1 h
        obtain ⟨after, hafter, h⟩ := bind_eq_ok.1 h
        cases h
        exact .inr (.inr (.inr ⟨parent, stored, chosen, signed, genesisDepth, found,
          by omega, by omega, hstored, hchosen, hafter⟩))

/-- The converse of the fourth case: a block that passes the checks is stored, the head chosen and
the orphan loop run, and the call returns whether the head's hash changed. -/
theorem addBlockRec_succ_of_insert {fuel : Nat} {s stored chosen after : Blockchain} {b parent : Block}
    (signed : C.verifyBlock b = true) (depth : b.depth ≠ 0)
    (found : getBlock s.blocks b.prevHash (b.depth - 1) = some parent) (older : parent.timeslot < b.timeslot)
    (due : b.timeslot ≤ clock []) (hstored : (s.grow b.depth).insertBlock b = .ok stored)
    (hchosen : forkChoice C (stored.removeTransactions b.transactions) b = .ok chosen)
    (cascade : (chosen.takeOrphans b.hash).1.enum.foldlM (orphanStep C clock fuel) (chosen.takeOrphans b.hash).2 =
      .ok after) :
    addBlockRec C clock (fuel + 1) s b = .ok (after, s.bestPathHead.1 != after.bestPathHead.1) := by
  have window : ¬(b.timeslot ≤ parent.timeslot ∨ clock [] < b.timeslot) := by omega
  rcases pair : chosen.takeOrphans b.hash with ⟨os, rest⟩
  rw [pair] at cascade
  simp only [addBlockRec, signed, Bool.not_true, Bool.false_eq_true, if_false, if_neg depth, found, if_neg window,
    hstored, hchosen, pair, bind, Except.bind]
  erw [cascade]

theorem cascade_orphans {s stored chosen : Blockchain} {b : Block}
    (hstored : (s.grow b.depth).insertBlock b = .ok stored)
    (hchosen : forkChoice C (stored.removeTransactions b.transactions) b = .ok chosen) :
    (chosen.takeOrphans b.hash).1 = (s.orphans.lookup b.hash).getD [] := by
  rw [Blockchain.takeOrphans, (forkChoice_frame hchosen).2.1, Blockchain.removeTransactions_orphans,
    (Blockchain.stored_frame hstored).2.1]

theorem mem_cascade_orphans {s stored chosen : Blockchain} {b : Block} {o : Nat × Block}
    (hstored : (s.grow b.depth).insertBlock b = .ok stored)
    (hchosen : forkChoice C (stored.removeTransactions b.transactions) b = .ok chosen)
    (member : o ∈ (chosen.takeOrphans b.hash).1.enum) : ∃ os, (b.hash, os) ∈ s.orphans ∧ o.2 ∈ os := by
  have member := List.snd_mem_of_mem_enum member
  rw [cascade_orphans hstored hchosen] at member
  exact exists_mem_of_mem_lookup member

/-- Induction through the orphan cascade, done once: an invariant kept by parking a block whose
parent is missing, and by storing a block, choosing the head and collecting the block's orphans,
is kept by every successful call. `U` is the set the submitted blocks come from, and `K` the
clocks the calls read, closed under passing to the reading of a nested call. -/
theorem addBlockRec_preserves_within (U : Block → Prop) (K : (List Nat → Nat) → Prop)
    (nested : ∀ clock i, K clock → K fun p => clock (i :: p)) (P : Blockchain → Prop)
    (orphansIn : ∀ s, P s → ∀ h os, (h, os) ∈ s.orphans → ∀ o ∈ os, U o)
    (parked : ∀ s b, P s → U b → C.verifyBlock b = true → b.depth ≠ 0 →
      getBlock s.blocks b.prevHash (b.depth - 1) = none → P (s.park b))
    (inserted : ∀ clock s b parent stored chosen, K clock → P s → U b → C.verifyBlock b = true →
      b.depth ≠ 0 → getBlock s.blocks b.prevHash (b.depth - 1) = some parent → parent.timeslot < b.timeslot →
      b.timeslot ≤ clock [] → (s.grow b.depth).insertBlock b = .ok stored →
      forkChoice C (stored.removeTransactions b.transactions) b = .ok chosen →
      P (chosen.takeOrphans b.hash).2) :
    ∀ fuel clock s b s' extended, K clock → P s → U b → addBlockRec C clock fuel s b = .ok (s', extended) →
      P s' := by
  intro fuel
  induction fuel with
  | zero =>
    intro clock s b s' extended _ _ _ h
    cases h
  | succ fuel ih =>
    intro clock s b s' extended hk hs hb h
    rcases addBlockRec_succ_ok h with ⟨-, rfl⟩ | ⟨signed, depth, missing, rfl⟩ | ⟨-, -, -, rfl⟩ |
      ⟨parent, stored, chosen, signed, depth, found, older, due, hstored, hchosen, cascade⟩
    · exact hs
    · exact parked s b hs hb signed depth missing
    · exact hs
    · have start := inserted clock s b parent stored chosen hk hs hb signed depth found older due hstored
        hchosen
      refine foldlM_preserves _ (fun st o st' member hst step => ?_) start cascade
      obtain ⟨r, step⟩ := orphanStep_eq_ok.1 step
      obtain ⟨os, listed, member⟩ := mem_cascade_orphans hstored hchosen member
      exact ih _ st o.2 st' r (nested clock o.1 hk) hst (orphansIn s hs _ _ listed o.2 member) step

/-- `addBlockRec_preserves_within` for an invariant that holds whatever the clock reads. -/
theorem addBlockRec_preserves (U : Block → Prop) (P : Blockchain → Prop)
    (orphansIn : ∀ s, P s → ∀ h os, (h, os) ∈ s.orphans → ∀ o ∈ os, U o)
    (parked : ∀ s b, P s → U b → C.verifyBlock b = true → b.depth ≠ 0 →
      getBlock s.blocks b.prevHash (b.depth - 1) = none → P (s.park b))
    (inserted : ∀ s b parent stored chosen, P s → U b → C.verifyBlock b = true → b.depth ≠ 0 →
      getBlock s.blocks b.prevHash (b.depth - 1) = some parent → parent.timeslot < b.timeslot →
      (s.grow b.depth).insertBlock b = .ok stored →
      forkChoice C (stored.removeTransactions b.transactions) b = .ok chosen →
      P (chosen.takeOrphans b.hash).2)
    (fuel : Nat) (clock : List Nat → Nat) {s s' : Blockchain} {b : Block} {extended : Bool} (hs : P s) (hb : U b)
    (h : addBlockRec C clock fuel s b = .ok (s', extended)) : P s' :=
  addBlockRec_preserves_within U (fun _ => True) (fun _ _ _ => trivial) P orphansIn parked
    (fun _ s b parent stored chosen _ hs hb signed depth found older _ =>
      inserted s b parent stored chosen hs hb signed depth found older) fuel clock s b s' extended trivial hs hb h

/-- The state the orphan cascade starts from, after storing `b` and choosing the head: the tree
with `b` stored, the orphan index without `b`'s children, and the head `forkChoice` picked. -/
theorem cascade_start {s stored chosen : Blockchain} {b : Block}
    (hstored : (s.grow b.depth).insertBlock b = .ok stored)
    (hchosen : forkChoice C (stored.removeTransactions b.transactions) b = .ok chosen) :
    (chosen.takeOrphans b.hash).2.blocks = stored.blocks ∧
      (chosen.takeOrphans b.hash).2.orphans = eraseKey s.orphans b.hash ∧
      (chosen.takeOrphans b.hash).2.rootAccounts = s.rootAccounts ∧
      (chosen.takeOrphans b.hash).2.bestPathHead = chosen.bestPathHead := by
  obtain ⟨blocks, orphans, roots⟩ := forkChoice_frame hchosen
  obtain ⟨-, orphans', -, roots', -⟩ := Blockchain.stored_frame hstored
  simp only [Blockchain.takeOrphans, Blockchain.removeTransactions_blocks,
    Blockchain.removeTransactions_orphans, Blockchain.removeTransactions_rootAccounts] at blocks orphans roots ⊢
  rw [blocks, orphans, orphans', roots, ← roots']
  simp

/-- A signed block at depth zero makes `add_block` panic: `get_parent` computes `depth - 1`. -/
theorem addBlock_panics_on_depth_zero (C : Crypto) (clock : List Nat → Nat) (s : Blockchain) (b : Block)
    (signed : C.verifyBlock b = true) (genesisDepth : b.depth = 0) :
    addBlock C clock s b = .error .depthUnderflow := by
  simp [addBlock, addBlockRec, signed, genesisDepth]

/-- The state `start` builds for a single root account. -/
def startState : Blockchain := Except.state (start [1] 0 100 0)

theorem genesis_resubmitted_panics :
    Reachable acceptAll (fun _ => True) startState ∧ acceptAll.verifyBlock (genesisBlock 1 0 100 0) = true ∧
      (genesisBlock 1 0 100 0).depth = 0 ∧
      addBlock acceptAll (fun _ => 10) startState (genesisBlock 1 0 100 0) = .error .depthUnderflow :=
  ⟨.start (show start [1] 0 100 0 = .ok startState from rfl) (by simp), rfl, rfl,
    addBlock_panics_on_depth_zero acceptAll (fun _ => 10) startState _ rfl rfl⟩

theorem addTransaction_frame (C : Crypto) (s : Blockchain) (t : Transaction) :
    (addTransaction C s t).1.blocks = s.blocks ∧ (addTransaction C s t).1.bestPathHead = s.bestPathHead ∧
      (addTransaction C s t).1.orphans = s.orphans ∧ (addTransaction C s t).1.ledger = s.ledger ∧
      (addTransaction C s t).1.rootAccounts = s.rootAccounts := by
  unfold addTransaction
  split <;> exact ⟨rfl, rfl, rfl, rfl, rfl⟩

end Lassecoin.Chain.Step
