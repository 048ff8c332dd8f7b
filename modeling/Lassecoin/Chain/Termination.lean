import Lassecoin.Chain.Shape

/-!
# `add_block` terminates

`add_block` recurses through its orphan loop, and `rollback` walks down the tree. The model gives
the first `orphan count + 1` levels of recursion and the second `depth + 1` rounds; `outOfFuel`
marks where the source would go on. Neither runs out on a state some run reaches.

`rollback`'s walk moves `to_ptr` to the block stored under its parent hash one level up, and when
every stored block sits at the level of its depth, that block's depth is one less. Each call the
orphan loop makes starts with fewer parked blocks than the call that made it had on entry: the
loop takes the stored block's children out of the index first, and a call parks at most one
block. A result other than running out stays the same with more fuel.
-/

set_option autoImplicit false
set_option relaxedAutoImplicit false

namespace Lassecoin.Chain.Termination

open Lassecoin.Types Lassecoin.Balances Lassecoin.Chain.State Lassecoin.Chain.Rollback
open Lassecoin.Chain.AddBlock Lassecoin.Chain.Step Lassecoin.Chain.Shape

variable {C : Crypto}

/-! ## Panics other than running out of fuel -/

private theorem bind_ne_error {ε α β : Type} {x : Except ε α} {f : α → Except ε β} {e : ε} (first : x ≠ .error e)
    (rest : ∀ a, x = .ok a → f a ≠ .error e) : x >>= f ≠ .error e := by
  cases x with
  | error e' => simpa [bind, Except.bind] using first
  | ok a => exact rest a rfl

private theorem map_fst_ne_error {ε α β : Type} {x : Except ε (α × β)} {e : ε} :
    (·.1) <$> x ≠ .error e ↔ x ≠ .error e := by
  cases x <;> simp [Functor.map, Except.map]

private theorem foldlM_ne_error {ε α β : Type} {f : α → β → Except ε α} {e : ε} (step : ∀ a b, f a b ≠ .error e) :
    ∀ (l : List β) (a : α), l.foldlM f a ≠ .error e
  | [], _ => by simp [pure, Except.pure]
  | b :: l, a => bind_ne_error (step a b) fun a' _ => foldlM_ne_error step l a'

private theorem ne_error_of_bind_ne {ε α β : Type} {x : Except ε α} {f : α → Except ε β} {e : ε}
    (h : x >>= f ≠ .error e) : x ≠ .error e := by
  rintro rfl
  exact h rfl

private theorem bind_congr_of_ne_error {ε α β : Type} {x : Except ε α} {f g : α → Except ε β} {e : ε}
    (h : x >>= f ≠ .error e) (agree : ∀ a, x = .ok a → f a ≠ .error e → g a = f a) : x >>= g = x >>= f := by
  cases x with
  | error => rfl
  | ok a => exact agree a rfl h

private theorem foldlM_congr_of_ne_error {ε α β : Type} {f g : α → β → Except ε α} {e : ε}
    (agree : ∀ a b, f a b ≠ .error e → g a b = f a b) :
    ∀ (l : List β) (a : α), l.foldlM f a ≠ .error e → l.foldlM g a = l.foldlM f a
  | [], _, _ => rfl
  | b :: l, a, h => by
    simp only [List.foldlM_cons] at h ⊢
    rw [agree a b (ne_error_of_bind_ne h)]
    exact bind_congr_of_ne_error h fun a' _ rest => foldlM_congr_of_ne_error agree l a' rest

private theorem getBlockOrPanic_ne_outOfFuel (blocks : List Level) (hash depth : Nat) :
    getBlockOrPanic blocks hash depth ≠ .error .outOfFuel := by
  unfold getBlockOrPanic
  split <;> simp

private theorem debit_ne_outOfFuel (l : Ledger) (a amount : Nat) : l.debit a amount ≠ .error .outOfFuel := by
  unfold Ledger.debit
  split <;> simp

private theorem rollbackTransaction_ne_outOfFuel (l : Ledger) (t : Transaction) :
    l.rollbackTransaction t ≠ .error .outOfFuel :=
  bind_ne_error (debit_ne_outOfFuel _ _ _) fun _ _ => by simp [pure, Except.pure]

private theorem rollbackAndReadd_ne_outOfFuel (ledger : Ledger) (buffer transactions : List Transaction) :
    rollbackAndReadd ledger buffer transactions ≠ .error .outOfFuel :=
  foldlM_ne_error (fun _ t => bind_ne_error (rollbackTransaction_ne_outOfFuel _ t) fun _ _ => by
    simp [pure, Except.pure]) _ _

private theorem replayTrack_ne_outOfFuel (blocks : List Level) :
    ∀ (track : List (Nat × Nat)) (ledger : Ledger), replayTrack C blocks track ledger ≠ .error .outOfFuel
  | [], _ => by simp [replayTrack]
  | (hash, depth) :: track, _ =>
    bind_ne_error (getBlockOrPanic_ne_outOfFuel _ _ _) fun _ _ => replayTrack_ne_outOfFuel blocks track _

/-! ## The walk of `rollback` -/

/-- Every stored block sits at the level of its depth. -/
def DepthsMatch (blocks : List Level) : Prop := ∀ d h b, (h, b) ∈ levelAt blocks d → b.depth = d

private theorem depthsMatch_of_treeOK {s : Blockchain} (shape : TreeOK C s) : DepthsMatch s.blocks :=
  fun d h b member => (shape.entries d h b member).2

private theorem depthsMatch_stored {s stored : Blockchain} {b : Block} (depths : DepthsMatch s.blocks)
    (hstored : (s.grow b.depth).insertBlock b = .ok stored) : DepthsMatch stored.blocks := by
  intro d h x member
  rcases mem_levelAt_stored hstored member with ⟨rfl, same⟩ | ⟨old, -⟩
  · rw [(Prod.mk.inj same).2]
  · exact depths d h x old

private theorem rollbackWalk_ne_outOfFuel {blocks : List Level} (depths : DepthsMatch blocks) :
    ∀ (fuel : Nat) (fromPtr toPtr : Block) (track : List (Nat × Nat)) (ledger : Ledger)
      (buffer : List Transaction), toPtr.depth < fuel →
      rollbackWalk blocks fuel fromPtr toPtr track ledger buffer ≠ .error .outOfFuel
  | 0, _, _, _, _, _, bound => absurd bound (Nat.not_lt_zero _)
  | fuel + 1, fromPtr, toPtr, track, ledger, buffer, bound => by
    have lower : ∀ toParent, toPtr.depth ≠ 0 →
        getBlockOrPanic blocks toPtr.prevHash (toPtr.depth - 1) = .ok toParent → toParent.depth < fuel :=
      fun toParent positive found => by
        have := depths _ _ _ (mem_levelAt_of_getBlock (getBlockOrPanic_ok found))
        omega
    simp only [rollbackWalk]
    split_ifs with same sibling genesis level
    · simp
    · exact bind_ne_error (debit_ne_outOfFuel _ _ _) fun _ _ =>
        bind_ne_error (rollbackAndReadd_ne_outOfFuel _ _ _) fun _ _ => by simp
    · simp
    · exact bind_ne_error (getBlockOrPanic_ne_outOfFuel _ _ _) fun toParent found =>
        bind_ne_error (debit_ne_outOfFuel _ _ _) fun _ _ =>
        bind_ne_error (foldlM_ne_error rollbackTransaction_ne_outOfFuel _ _) fun _ _ =>
        bind_ne_error (getBlockOrPanic_ne_outOfFuel _ _ _) fun _ _ =>
        rollbackWalk_ne_outOfFuel depths fuel _ _ _ _ _ (lower toParent genesis found)
    · exact bind_ne_error (getBlockOrPanic_ne_outOfFuel _ _ _) fun toParent found =>
        rollbackWalk_ne_outOfFuel depths fuel _ _ _ _ _ (lower toParent genesis found)

private theorem rollback_ne_outOfFuel {s : Blockchain} (depths : DepthsMatch s.blocks) (fromHead toHead : Nat × Nat) :
    rollback C s fromHead toHead ≠ .error .outOfFuel :=
  bind_ne_error (getBlockOrPanic_ne_outOfFuel _ _ _) fun _ _ =>
    bind_ne_error (getBlockOrPanic_ne_outOfFuel _ _ _) fun _ _ =>
    bind_ne_error (rollbackWalk_ne_outOfFuel depths _ _ _ _ _ _ (Nat.lt_succ_self _)) fun _ _ =>
    bind_ne_error (replayTrack_ne_outOfFuel _ _ _) fun _ _ => by simp

private theorem forkChoice_ne_outOfFuel {s : Blockchain} (depths : DepthsMatch s.blocks) (b : Block) :
    forkChoice C s b ≠ .error .outOfFuel := by
  rcases hs : s.bestPathHead with ⟨oldBest, oldDepth⟩
  simp only [forkChoice, hs]
  split_ifs
  · exact rollback_ne_outOfFuel (s := { s with bestPathHead := (b.hash, b.depth) }) depths _ _
  · simp
  · refine bind_ne_error (getBlockOrPanic_ne_outOfFuel _ _ _) fun _ _ => ?_
    split
    · exact rollback_ne_outOfFuel (s := { s with bestPathHead := (b.hash, b.depth) }) depths _ _
    · simp
  · simp

/-! ## The orphan count along the recursion -/

theorem orphanCount_cascade_start {s stored chosen : Blockchain} {b : Block}
    (hstored : (s.grow b.depth).insertBlock b = .ok stored)
    (hchosen : forkChoice C (stored.removeTransactions b.transactions) b = .ok chosen) :
    (chosen.takeOrphans b.hash).2.orphanCount + (chosen.takeOrphans b.hash).1.length ≤ s.orphanCount := by
  have same : chosen.orphanCount = s.orphanCount := by
    simp only [Blockchain.orphanCount, (forkChoice_frame hchosen).2.1, Blockchain.removeTransactions_orphans,
      (Blockchain.stored_frame hstored).2.1]
  exact same ▸ Blockchain.orphanCount_takeOrphans chosen b.hash

private theorem orphanCount_foldlM {clock : List Nat → Nat} {fuel : Nat}
    (grows : ∀ {clock st o st' r}, addBlockRec C clock fuel st o = .ok (st', r) → st'.orphanCount ≤ st.orphanCount + 1)
    {os : List (Nat × Block)} {st st' : Blockchain} (h : os.foldlM (orphanStep C clock fuel) st = .ok st') :
    st'.orphanCount ≤ st.orphanCount + os.length := by
  have drained := foldlM_drain (fun x l => x.orphanCount + l.length ≤ st.orphanCount + os.length)
    (fun x o x' l bound step => by
      obtain ⟨r, step⟩ := orphanStep_eq_ok.1 step
      have := grows step
      simp only [List.length_cons] at bound
      omega) os le_rfl h
  simpa using drained

private theorem orphanCount_addBlockRec {fuel : Nat} :
    ∀ {clock : List Nat → Nat} {s s' : Blockchain} {b : Block} {extended : Bool},
      addBlockRec C clock fuel s b = .ok (s', extended) → s'.orphanCount ≤ s.orphanCount + 1 := by
  induction fuel with
  | zero =>
    intro clock s s' b extended h
    cases h
  | succ fuel ih =>
    intro clock s s' b extended h
    rcases addBlockRec_succ_ok h with ⟨-, rfl⟩ | ⟨-, -, -, rfl⟩ | ⟨-, -, -, rfl⟩ |
      ⟨parent, stored, chosen, -, -, -, -, -, hstored, hchosen, cascade⟩
    · exact Nat.le_succ _
    · exact Blockchain.orphanCount_park_le s b
    · exact Nat.le_succ _
    · have start := orphanCount_cascade_start hstored hchosen
      have loop := orphanCount_foldlM ih cascade
      rw [List.enum_length] at loop
      omega

/-- `add_block(b)` on `s`, reading the clock through `clock`, calls `add_block(o)` on `st` from its
orphan loop as its `i`-th child, the nested call having `fuel` levels of recursion left and
reading the clock through `fun p => clock (i :: p)`: `b` is stored, the head chosen, `o` is one of
the children taken out of the index, and the calls for the children before it have left `st`. The
checks made before the loop are left out; what is proved of these calls holds whether or not they
pass. -/
def CallsFromCascade (C : Crypto) (clock : List Nat → Nat) (fuel : Nat) (s : Blockchain) (b : Block)
    (st : Blockchain) (i : Nat) (o : Block) : Prop :=
  ∃ stored chosen before after, (s.grow b.depth).insertBlock b = .ok stored ∧
    forkChoice C (stored.removeTransactions b.transactions) b = .ok chosen ∧
    (chosen.takeOrphans b.hash).1.enum = before ++ (i, o) :: after ∧
    before.foldlM (orphanStep C clock fuel) (chosen.takeOrphans b.hash).2 = .ok st

private theorem orphanCount_lt_of_callsFromCascade {clock : List Nat → Nat} {fuel : Nat} {s st : Blockchain}
    {b o : Block} {i : Nat} (calls : CallsFromCascade C clock fuel s b st i o) : st.orphanCount < s.orphanCount := by
  obtain ⟨stored, chosen, before, after, hstored, hchosen, taken, earlier⟩ := calls
  have start := orphanCount_cascade_start hstored hchosen
  have grown := orphanCount_foldlM orphanCount_addBlockRec earlier
  have length := congrArg List.length taken
  rw [List.enum_length, List.length_append, List.length_cons] at length
  omega

/-! ## Enough fuel -/

private theorem foldlM_cascade_ne_outOfFuel {clock : List Nat → Nat} {fuel : Nat}
    (calls : ∀ clock st o, TreeOK C st → st.orphanCount < fuel → addBlockRec C clock fuel st o ≠ .error .outOfFuel) :
    ∀ (os : List (Nat × Block)) (st : Blockchain), TreeOK C st → st.orphanCount + os.length ≤ fuel →
      os.foldlM (orphanStep C clock fuel) st ≠ .error .outOfFuel
  | [], _, _, _ => by simp [pure, Except.pure]
  | o :: os, st, shape, bound => by
    simp only [List.length_cons] at bound
    refine bind_ne_error (map_fst_ne_error.2 (calls _ st o.2 shape (by omega))) fun st' step => ?_
    obtain ⟨r, step⟩ := orphanStep_eq_ok.1 step
    have := orphanCount_addBlockRec step
    exact foldlM_cascade_ne_outOfFuel calls os st' (treeOK_addBlockRec shape step) (by omega)

/-- On a tree of the right shape, `orphan count + 1` levels of recursion are enough. -/
theorem addBlockRec_ne_outOfFuel : ∀ (fuel : Nat) (clock : List Nat → Nat) (s : Blockchain) (b : Block), TreeOK C s →
    s.orphanCount < fuel → addBlockRec C clock fuel s b ≠ .error .outOfFuel
  | 0, _, _, _, _, bound => absurd bound (Nat.not_lt_zero _)
  | fuel + 1, clock, s, b, shape, bound => by
    simp only [addBlockRec]
    split_ifs with unsigned genesis
    · simp
    · simp
    · rcases found : getBlock s.blocks b.prevHash (b.depth - 1) with _ | parent
      · simp
      · simp only
        split_ifs with window
        · simp
        · have signed : C.verifyBlock b = true := by simpa using unsigned
          refine bind_ne_error (by rw [Blockchain.grow_insertBlock]; simp) fun stored hstored => ?_
          have depths := depthsMatch_stored (depthsMatch_of_treeOK shape) hstored
          rw [← Blockchain.removeTransactions_blocks stored b.transactions] at depths
          refine bind_ne_error (forkChoice_ne_outOfFuel depths b)
            fun chosen hchosen => ?_
          have start := orphanCount_cascade_start hstored hchosen
          exact bind_ne_error (@foldlM_cascade_ne_outOfFuel C clock _ (addBlockRec_ne_outOfFuel fuel) _ _
            (treeOK_insert shape signed genesis found hstored hchosen) (by rw [List.enum_length]; omega))
            fun _ _ => by simp

private theorem addBlockRec_succ_fuel : ∀ (fuel : Nat) (clock : List Nat → Nat) (s : Blockchain) (b : Block),
    addBlockRec C clock fuel s b ≠ .error .outOfFuel → addBlockRec C clock (fuel + 1) s b = addBlockRec C clock fuel s b
  | 0, _, _, _, h => absurd rfl h
  | fuel + 1, clock, s, b, h => by
    have agree : ∀ st (o : Nat × Block),
        (·.1) <$> addBlockRec C (fun p => clock (o.1 :: p)) fuel st o.2 ≠ .error .outOfFuel →
        (·.1) <$> addBlockRec C (fun p => clock (o.1 :: p)) (fuel + 1) st o.2 =
          (·.1) <$> addBlockRec C (fun p => clock (o.1 :: p)) fuel st o.2 :=
      fun st o ne => by rw [addBlockRec_succ_fuel fuel _ st o.2 (map_fst_ne_error.1 ne)]
    revert h
    rw [addBlockRec.eq_2 C clock s b (fuel + 1), addBlockRec.eq_2 C clock s b fuel]
    split_ifs
    · exact fun _ => rfl
    · exact fun _ => rfl
    rcases getBlock s.blocks b.prevHash (b.depth - 1) with _ | parent
    · exact fun _ => rfl
    simp only
    split_ifs
    · exact fun _ => rfl
    intro h
    refine bind_congr_of_ne_error h fun stored _ h => bind_congr_of_ne_error h fun chosen _ h => ?_
    revert h
    rcases chosen.takeOrphans b.hash with ⟨os, rest⟩
    intro h
    rw [foldlM_congr_of_ne_error agree os.enum rest (ne_error_of_bind_ne h)]

private theorem addBlockRec_eq_addBlock {clock : List Nat → Nat} {s : Blockchain} (shape : TreeOK C s) (b : Block)
    (fuel : Nat) (bound : s.orphanCount < fuel) : addBlockRec C clock fuel s b = addBlock C clock s b := by
  induction fuel, bound using Nat.le_induction with
  | base => rfl
  | succ fuel bound ih =>
    rw [addBlockRec_succ_fuel fuel clock s b (addBlockRec_ne_outOfFuel fuel clock s b shape bound), ih]

/-- From every reachable state, `add_block` and `rollback` end within their fuel, whatever the clock
reads in each call, and more fuel than the orphan count changes nothing; every call of the orphan
loop, from any state, starts with fewer parked blocks than its caller. -/
theorem add_block_terminates {U : Block → Prop} {s : Blockchain} (reach : Reachable C U s) :
    (∀ clock b, addBlock C clock s b ≠ .error .outOfFuel ∧
      ∀ fuel, s.orphanCount < fuel → addBlockRec C clock fuel s b = addBlock C clock s b) ∧
    (∀ fromHead toHead, rollback C s fromHead toHead ≠ .error .outOfFuel) ∧
    (∀ clock fuel (caller : Blockchain) b st i o, CallsFromCascade C clock fuel caller b st i o →
      st.orphanCount < caller.orphanCount) :=
  have shape := treeOK_reachable reach
  ⟨fun clock b => ⟨addBlockRec_ne_outOfFuel _ clock s b shape (Nat.lt_succ_self _), addBlockRec_eq_addBlock shape b⟩,
    rollback_ne_outOfFuel (depthsMatch_of_treeOK shape), fun _ _ _ _ _ _ _ => orphanCount_lt_of_callsFromCascade⟩

/-- A block of depth 1 that nobody has submitted yet. -/
def missingParent : Block := ⟨1, 100, 1, ⟨1, 1, 100, 0⟩, [], 101⟩

/-- A child of `missingParent`. -/
def parkedChild : Block := ⟨2, 101, 2, ⟨2, 1, 101, 0⟩, [], 102⟩

/-- `parkedChild` arrives twice before its parent: both copies are parked. -/
def parkedTwiceState : Blockchain :=
  Except.state (runFromStart acceptAll 10 [1] 0 100 0 [.block parkedChild, .block parkedChild])

theorem parked_duplicates_terminate :
    parkedTwiceState.orphanCount = 2 ∧
      addBlock acceptAll (fun _ => 10) parkedTwiceState missingParent ≠ .error .outOfFuel :=
  ⟨rfl, ((add_block_terminates (reachable_runFromStart (U := fun _ => True) (by simp) (by simp)
    (show runFromStart acceptAll 10 [1] 0 100 0 [.block parkedChild, .block parkedChild] = .ok parkedTwiceState
      from rfl))).1 (fun _ => 10) missingParent).1⟩

end Lassecoin.Chain.Termination
