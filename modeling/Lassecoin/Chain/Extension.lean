import Lassecoin.Chain.Switch

/-!
# The fast path: blocks that extend the head

A block that names the head as its parent, one level below it, and is signed, younger than the
head and due, passes `add_block`'s checks: it is stored, becomes the head, and its transactions and
reward are applied as they come, with no rollback. The best path gains exactly that block, so a
ledger that equals the replay of the best path before the call, as `==` compares ledgers, equals
it after the call.

A chain of such blocks, submitted in order to a node with nothing parked under their hashes, is
accepted block by block: the best path grows by the chain and the ledger stays equal to its replay.
-/

set_option autoImplicit false
set_option relaxedAutoImplicit false

namespace Lassecoin.Chain.Extension

open Lassecoin.Types Lassecoin.Balances Lassecoin.Chain.State Lassecoin.Chain.Rollback
open Lassecoin.Chain.AddBlock Lassecoin.Chain.Step Lassecoin.Chain.Shape Lassecoin.Chain.Audit
open Lassecoin.Chain.Switch

variable {C : Crypto}

/-! ## The best path and its replay -/

private theorem pathTo_stored_of_lt {s stored : Blockchain} {b : Block}
    (hstored : (s.grow b.depth).insertBlock b = .ok stored) :
    ∀ d h, d < b.depth → pathTo stored.blocks d h = pathTo s.blocks d h
  | 0, h, _ => by
    simp only [pathTo, getBlock_stored hstored, if_neg (fun both : 0 = b.depth ∧ h = b.hash => by omega)]
  | d + 1, h, lt => by
    have ih : ∀ h', pathTo stored.blocks d h' = pathTo s.blocks d h' :=
      fun h' => pathTo_stored_of_lt hstored d h' (by omega)
    simp only [pathTo, getBlock_stored hstored, if_neg (fun both : d + 1 = b.depth ∧ h = b.hash => by omega), ih]

section Extend

variable {s stored : Blockchain} {b : Block} (hstored : (s.grow b.depth).insertBlock b = .ok stored)
  (onHead : b.prevHash = s.bestPathHead.1) (deeper : b.depth = s.bestPathHead.2 + 1)

include hstored onHead deeper

/-- Once a block extending the head is stored, the walk from it is the best path and the block. -/
theorem pathTo_extend : pathTo stored.blocks b.depth b.hash = (bestPath s).map (· ++ [b]) := by
  have found := getBlock_stored_self hstored
  have kept := pathTo_stored_of_lt hstored s.bestPathHead.2 s.bestPathHead.1 (by omega)
  rw [deeper] at found ⊢
  simp only [pathTo, found, onHead, kept, bestPath, Option.bind_eq_bind, Option.some_bind]
  cases pathTo s.blocks s.bestPathHead.2 s.bestPathHead.1 <;> rfl

/-- A state with that block as head, on that tree, whose ledger has the block applied to a ledger
equal to the replay of the best path, has a ledger equal to the replay of its best path. -/
theorem replay_extend {s' : Blockchain} (replayed : ∃ r, replay C s = some r ∧ s.ledger.sameAs r = true)
    (blocks : s'.blocks = stored.blocks) (head : s'.bestPathHead = (b.hash, b.depth))
    (roots : s'.rootAccounts = s.rootAccounts) (ledger : s'.ledger = applyBlock C s.ledger b) :
    ∃ r, replay C s' = some r ∧ s'.ledger.sameAs r = true := by
  obtain ⟨r, hr, same⟩ := replayed
  obtain ⟨path, walk, rfl⟩ := Option.map_eq_some'.1 hr
  rw [bestPath] at walk
  refine ⟨_, ?_, ledger ▸ sameAs_applyBlock same b⟩
  simp only [replay, bestPath, blocks, head, roots, pathTo_extend hstored onHead deeper, walk,
    Option.map_some', replayPath, List.foldl_append, List.foldl_cons, List.foldl_nil]

end Extend

/-- When the ledger equals the replay of the best path, a call of `add_block` on a block that names
the head as its parent one level below it, with no orphans waiting for it, keeps the ledger equal to
the replay of the best path: the fast path applies exactly the block the best path gains. -/
theorem fast_path_keeps_ledger_replayed {clock : List Nat → Nat} {s s' : Blockchain} {b : Block}
    {extended : Bool} (replayed : ∃ r, replay C s = some r ∧ s.ledger.sameAs r = true)
    (onHead : b.prevHash = s.bestPathHead.1) (deeper : b.depth = s.bestPathHead.2 + 1)
    (noOrphans : (s.orphans.lookup b.hash).getD [] = []) (h : addBlock C clock s b = .ok (s', extended)) :
    ∃ r, replay C s' = some r ∧ s'.ledger.sameAs r = true := by
  rcases addBlockRec_succ_ok h with ⟨-, rfl⟩ | ⟨-, -, -, rfl⟩ | ⟨-, -, -, rfl⟩ |
    ⟨parent, stored, chosen, -, -, -, -, -, hstored, hchosen, cascade⟩
  · exact replayed
  · exact replayed
  · exact replayed
  · -- stored, then the fast path, then an empty cascade
    obtain ⟨blocks, -, roots, head⟩ := cascade_start hstored hchosen
    obtain ⟨stHead, -, stLedger, -⟩ := Blockchain.stored_frame hstored
    rw [cascade_orphans hstored hchosen, noOrphans] at cascade
    obtain rfl : (chosen.takeOrphans b.hash).2 = s' := Except.ok.inj cascade
    rw [forkChoice_extends (by rw [Blockchain.removeTransactions_bestPathHead, stHead, onHead])
      (by rw [Blockchain.removeTransactions_bestPathHead, stHead]; omega)] at hchosen
    obtain rfl := Except.ok.inj hchosen
    exact replay_extend hstored onHead deeper replayed blocks head roots
      (by rw [Blockchain.takeOrphans_ledger, Blockchain.removeTransactions_ledger, stLedger])

private theorem oldTipRun : addBlock acceptAll (fun _ => 10) rootState oldTip = .ok (oldTipState, true) := rfl

theorem rootState_replayed :
    ∃ r, replay acceptAll rootState = some r ∧ rootState.ledger.sameAs r = true :=
  ⟨_, rfl, Ledger.sameAs_refl _⟩

theorem fast_path_keeps_ledger_replayed_on_old_tip :
    (∃ r, replay acceptAll rootState = some r ∧ rootState.ledger.sameAs r = true) ∧
      oldTip.prevHash = rootState.bestPathHead.1 ∧
      oldTip.depth = rootState.bestPathHead.2 + 1 ∧ (rootState.orphans.lookup oldTip.hash).getD [] = [] ∧
      addBlock acceptAll (fun _ => 10) rootState oldTip = .ok (oldTipState, true) ∧
      ∃ r, replay acceptAll oldTipState = some r ∧ oldTipState.ledger.sameAs r = true :=
  ⟨rootState_replayed, rfl, rfl, rfl, oldTipRun,
    fast_path_keeps_ledger_replayed rootState_replayed rfl rfl rfl oldTipRun⟩

/-! ## A chain of extensions -/

private theorem addBlock_extends (clock : List Nat → Nat) {s stored : Blockchain} {b tip : Block}
    (tipFound : getBlock s.blocks s.bestPathHead.1 s.bestPathHead.2 = some tip) (signed : C.verifyBlock b = true)
    (onHead : b.prevHash = s.bestPathHead.1) (deeper : b.depth = s.bestPathHead.2 + 1)
    (after : tip.timeslot < b.timeslot) (due : b.timeslot ≤ clock []) (noOrphans : (s.orphans.lookup b.hash).getD [] = [])
    (hstored : (s.grow b.depth).insertBlock b = .ok stored) :
    ∃ s', addBlock C clock s b = .ok (s', s.bestPathHead.1 != b.hash) ∧ s'.blocks = stored.blocks ∧
      s'.bestPathHead = (b.hash, b.depth) ∧ s'.rootAccounts = s.rootAccounts ∧
      s'.ledger = applyBlock C s.ledger b ∧ s'.orphans = eraseKey s.orphans b.hash := by
  obtain ⟨stHead, stOrphans, stLedger, -⟩ := Blockchain.stored_frame hstored
  have choose : forkChoice C (stored.removeTransactions b.transactions) b =
      .ok { stored.removeTransactions b.transactions with
        bestPathHead := (b.hash, b.depth), ledger := applyBlock C (stored.removeTransactions b.transactions).ledger b } :=
    forkChoice_extends (by rw [Blockchain.removeTransactions_bestPathHead, stHead, onHead])
      (by rw [Blockchain.removeTransactions_bestPathHead, stHead]; omega)
  obtain ⟨blocks, orphans, roots, head⟩ := cascade_start hstored choose
  have parentFound : getBlock s.blocks b.prevHash (b.depth - 1) = some tip := by
    rwa [onHead, deeper, Nat.add_sub_cancel]
  refine ⟨_, ?_, blocks, head, roots,
    by rw [Blockchain.takeOrphans_ledger, Blockchain.removeTransactions_ledger, stLedger], orphans⟩
  rw [addBlock, addBlockRec_succ_of_insert signed (by omega) parentFound after due hstored choose
    (by rw [cascade_orphans hstored choose, noOrphans]; rfl), head]

/-- Blocks that extend `tip` one after another, each naming the one before as its parent, one
level further down, with a later timeslot. -/
inductive Extends : Block → List Block → Prop
  | nil (tip : Block) : Extends tip []
  | cons {tip b : Block} {rest : List Block} : b.prevHash = tip.hash → b.depth = tip.depth + 1 →
      tip.timeslot < b.timeslot → Extends b rest → Extends tip (b :: rest)

namespace Extends

variable {tip : Block} {c : List Block}

theorem depth_lt (chain : Extends tip c) : ∀ x ∈ c, tip.depth < x.depth := by
  induction chain with
  | nil => simp
  | @cons tip b rest _ deeper _ _ ih =>
    intro x member
    rcases List.mem_cons.1 member with rfl | later
    · omega
    · have := ih x later
      omega

theorem eq_of_depth (chain : Extends tip c) :
    ∀ x ∈ tip :: c, ∀ y ∈ tip :: c, x.depth = y.depth → x = y := by
  induction chain with
  | nil tip =>
    intro x hx y hy _
    rw [List.mem_singleton.1 hx, List.mem_singleton.1 hy]
  | @cons tip b rest linked deeper after rest' ih =>
    have below := (Extends.cons linked deeper after rest').depth_lt
    intro x hx y hy same
    rcases List.mem_cons.1 hx with rfl | hx' <;> rcases List.mem_cons.1 hy with rfl | hy'
    · rfl
    · exact absurd same (Nat.ne_of_lt (below y hy'))
    · exact absurd same (Nat.ne_of_gt (below x hx'))
    · exact ih x hx' y hy' same

theorem parent (chain : Extends tip c) :
    ∀ x ∈ c, ∃ p ∈ tip :: c, x.prevHash = p.hash ∧ x.depth = p.depth + 1 ∧ p.timeslot < x.timeslot := by
  induction chain with
  | nil => simp
  | @cons tip b rest linked deeper after _ ih =>
    intro x member
    rcases List.mem_cons.1 member with rfl | later
    · exact ⟨tip, List.mem_cons_self tip _, linked, deeper, after⟩
    · obtain ⟨p, hp, facts⟩ := ih x later
      exact ⟨p, List.mem_cons_of_mem tip hp, facts⟩

theorem child (chain : Extends tip c) : ∀ x ∈ tip :: c, x ≠ (tip :: c).getLast (List.cons_ne_nil tip c) →
    ∃ y ∈ c, y.prevHash = x.hash ∧ y.depth = x.depth + 1 ∧ x.timeslot < y.timeslot := by
  induction chain with
  | nil tip =>
    intro x member notLast
    exact absurd (List.mem_singleton.1 member) notLast
  | @cons tip b rest linked deeper after _ ih =>
    intro x member notLast
    rw [List.getLast_cons (List.cons_ne_nil b rest)] at notLast
    rcases List.mem_cons.1 member with rfl | later
    · exact ⟨b, List.mem_cons_self b rest, linked, deeper, after⟩
    · obtain ⟨y, hy, facts⟩ := ih x later notLast
      exact ⟨y, List.mem_cons_of_mem b hy, facts⟩

theorem le_last (chain : Extends tip c) :
    ∀ x ∈ tip :: c, x.depth ≤ ((tip :: c).getLast (List.cons_ne_nil tip c)).depth := by
  induction chain with
  | nil tip =>
    intro x member
    rw [List.mem_singleton.1 member]
    exact le_rfl
  | @cons tip b rest _ deeper _ _ ih =>
    intro x member
    rw [List.getLast_cons (List.cons_ne_nil b rest)]
    have := ih b (List.mem_cons_self b rest)
    rcases List.mem_cons.1 member with rfl | later
    · omega
    · exact ih x later

theorem filter_le (chain : Extends tip c) :
    ∀ x ∈ c, c.filter (·.depth ≤ x.depth) = c.filter (·.depth < x.depth) ++ [x] := by
  induction chain with
  | nil => simp
  | @cons tip b rest _ deeper _ rest' ih =>
    intro x member
    rcases List.mem_cons.1 member with rfl | later
    · have noneLe : rest.filter (·.depth ≤ x.depth) = [] :=
        List.filter_eq_nil_iff.2 fun y hy => by simpa using rest'.depth_lt y hy
      have noneLt : rest.filter (·.depth < x.depth) = [] :=
        List.filter_eq_nil_iff.2 fun y hy => by have := rest'.depth_lt y hy; simp; omega
      rw [List.filter_cons_of_pos (by simp), List.filter_cons_of_neg (by simp), noneLe, noneLt]
      rfl
    · have := rest'.depth_lt x later
      rw [List.filter_cons_of_pos (by simp; omega), List.filter_cons_of_pos (by simpa using this), ih x later]
      rfl

end Extends

/-- A chain of signed, due blocks extending the head, submitted in order to a node with nothing
parked under their hashes, is accepted block by block: the head moves to the chain's last block,
the best path grows by the chain, and a ledger that equals the replay of the best path stays equal
to it. -/
theorem valid_extension_is_accepted {now : Nat} {s : Blockchain} {tip : Block} {blocks : List Block}
    (tipFound : getBlock s.blocks tip.hash tip.depth = some tip) (atHead : s.bestPathHead = (tip.hash, tip.depth))
    (replayed : ∃ r, replay C s = some r ∧ s.ledger.sameAs r = true) (chain : Extends tip blocks)
    (signed : ∀ b ∈ blocks, C.verifyBlock b = true) (due : ∀ b ∈ blocks, b.timeslot ≤ now)
    (noOrphans : ∀ b ∈ blocks, (s.orphans.lookup b.hash).getD [] = []) :
    ∃ s', run C now s (blocks.map .block) = .ok s' ∧
      s'.bestPathHead = pointer ((tip :: blocks).getLast (List.cons_ne_nil tip blocks)) ∧
      bestPath s' = (bestPath s).map (· ++ blocks) ∧ ∃ r, replay C s' = some r ∧ s'.ledger.sameAs r = true := by
  induction chain generalizing s with
  | nil tip =>
    exact ⟨s, rfl, atHead, by cases bestPath s <;> simp, replayed⟩
  | @cons tip b rest linked deeper after _ ih =>
    have onHead : b.prevHash = s.bestPathHead.1 := by rw [atHead]; exact linked
    have below : b.depth = s.bestPathHead.2 + 1 := by rw [atHead]; exact deeper
    obtain ⟨stored, hstored⟩ : ∃ st, (s.grow b.depth).insertBlock b = .ok st := ⟨_, Blockchain.grow_insertBlock s b⟩
    obtain ⟨s₁, step, blocks, head, roots, ledger, orphans⟩ :=
      addBlock_extends (fun _ => now) (by rw [atHead]; exact tipFound) (signed b (List.mem_cons_self b rest)) onHead
        below after (due b (List.mem_cons_self b rest)) (noOrphans b (List.mem_cons_self b rest)) hstored
    obtain ⟨s', run', last, path, replayed'⟩ := ih (by rw [blocks]; exact getBlock_stored_self hstored) head
      (replay_extend hstored onHead below replayed blocks head roots ledger)
      (fun x member => signed x (List.mem_cons_of_mem b member)) (fun x member => due x (List.mem_cons_of_mem b member))
      (fun x member => by
        rw [orphans, lookup_eraseKey]
        split
        · rfl
        · exact noOrphans x (List.mem_cons_of_mem b member))
    refine ⟨s', by simp only [List.map_cons, run, step, bind, Except.bind, run'], by rwa [List.getLast_cons], ?_,
      replayed'⟩
    rw [path, bestPath, head, blocks, pathTo_extend hstored onHead below, Option.map_map]
    cases bestPath s <;> simp

/-- A child of `oldTip`, produced by the second root account. -/
def oldTipChild : Block := ⟨3, 102, 3, ⟨3, 2, 102, 7⟩, [⟨1, 2, 10, 2⟩], 106⟩

theorem valid_extension_is_accepted_in_two_steps :
    getBlock rootState.blocks branchRoot.hash branchRoot.depth = some branchRoot ∧
      rootState.bestPathHead = (branchRoot.hash, branchRoot.depth) ∧
      (∃ r, replay acceptAll rootState = some r ∧ rootState.ledger.sameAs r = true) ∧
      Extends branchRoot [oldTip, oldTipChild] ∧
      (∀ b ∈ [oldTip, oldTipChild], acceptAll.verifyBlock b = true) ∧
      (∀ b ∈ [oldTip, oldTipChild], b.timeslot ≤ 10) ∧
      (∀ b ∈ [oldTip, oldTipChild], (rootState.orphans.lookup b.hash).getD [] = []) ∧
      ∃ s', run acceptAll 10 rootState ([oldTip, oldTipChild].map .block) = .ok s' ∧
        s'.bestPathHead = pointer ((branchRoot :: [oldTip, oldTipChild]).getLast (List.cons_ne_nil _ _)) ∧
        bestPath s' = (bestPath rootState).map (· ++ [oldTip, oldTipChild]) ∧
        ∃ r, replay acceptAll s' = some r ∧ s'.ledger.sameAs r = true := by
  have chain : Extends branchRoot [oldTip, oldTipChild] :=
    .cons rfl rfl (by decide) (.cons rfl rfl (by decide) (.nil _))
  exact ⟨rfl, rfl, rootState_replayed, chain, by decide, by decide, by decide,
    valid_extension_is_accepted rfl rfl rootState_replayed chain (by decide) (by decide) (by decide)⟩

end Lassecoin.Chain.Extension
