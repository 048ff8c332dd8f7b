import Lassecoin.Chain.Extension
import Lassecoin.Chain.Progress
import Lassecoin.Chain.Termination
import Lassecoin.Chain.Resubmit

/-!
# A chain of extensions, delivered in any order

Blocks reach a node in whatever order the network hands them over. `add_block` parks a block whose
parent is missing under the parent's hash, and once it stores a block it submits again, through
the orphan cascade, the blocks parked under that block's hash. This file follows a chain of valid
blocks extending the head through that mechanism.

Whatever the order of arrival, with repeats and with transactions in between, every call keeps the
stored blocks of the chain a prefix of it that ends at the head, the best path the old one followed
by that prefix, and the ledger the old one with that prefix applied, which equals the replay of
the best path (`Delivering`). No call reaches `rollback`: a block of the chain that passes the checks is
either stored already, and the fork choice keeps the state, or one level below the head and its
child, and the fork choice takes the fast path. Every call ends without a panic. Once every block
of the chain has arrived none is left parked, so the head is the chain's last block.
-/

set_option autoImplicit false
set_option relaxedAutoImplicit false

namespace Lassecoin.Chain.Delivery

open Lassecoin.Types Lassecoin.Balances Lassecoin.Chain.State Lassecoin.Chain.Rollback
open Lassecoin.Chain.AddBlock Lassecoin.Chain.Step Lassecoin.Chain.Shape Lassecoin.Chain.ForkChoice
open Lassecoin.Chain.Audit Lassecoin.Chain.Arrival Lassecoin.Chain.Resubmit
open Lassecoin.Chain.Termination Lassecoin.Chain.Switch Lassecoin.Chain.Extension Lassecoin.Chain.Progress

variable {C : Crypto} {now : Nat}

/-! ## Calls that end -/

private theorem foldlM_ok_or {ε α β : Type} (e : ε) (P : α → Prop) {f : α → β → Except ε α} :
    ∀ (l : List β), (∀ a b, b ∈ l → P a → f a b = .error e ∨ ∃ a', f a b = .ok a' ∧ P a') →
      ∀ a, P a → l.foldlM f a = .error e ∨ ∃ a', l.foldlM f a = .ok a' ∧ P a'
  | [], _, a, ha => .inr ⟨a, rfl, ha⟩
  | b :: l, step, a, ha => by
    rcases step a b (List.mem_cons_self b l) ha with h | ⟨a', h, ha'⟩
    · exact .inl (by rw [List.foldlM_cons, h]; rfl)
    · rw [List.foldlM_cons, h]
      exact foldlM_ok_or e P l (fun a b member => step a b (List.mem_cons_of_mem _ member)) a' ha'

private theorem addBlockRec_ok_or (U : Block → Prop) (P : Blockchain → Prop)
    (orphansIn : ∀ s b, P s → U b → ∀ o ∈ (s.orphans.lookup b.hash).getD [], U o)
    (positive : ∀ b, U b → b.depth ≠ 0)
    (parked : ∀ s b, P s → U b → getBlock s.blocks b.prevHash (b.depth - 1) = none → P (s.park b))
    (inserted : ∀ s b parent stored, P s → U b → C.verifyBlock b = true →
      getBlock s.blocks b.prevHash (b.depth - 1) = some parent → (s.grow b.depth).insertBlock b = .ok stored →
      ∃ chosen, forkChoice C (stored.removeTransactions b.transactions) b = .ok chosen ∧
        P (chosen.takeOrphans b.hash).2) :
    ∀ fuel clock s b, P s → U b → addBlockRec C clock fuel s b = .error .outOfFuel ∨
      ∃ s' extended, addBlockRec C clock fuel s b = .ok (s', extended) ∧ P s'
  | 0, _, _, _, _, _ => .inl rfl
  | fuel + 1, clock, s, b, hs, hb => by
    have depth := positive b hb
    by_cases signed : C.verifyBlock b = true
    swap
    · exact .inr ⟨s, false, by simp [addBlockRec, signed], hs⟩
    rcases found : getBlock s.blocks b.prevHash (b.depth - 1) with _ | parent
    · exact .inr ⟨s.park b, false, by simp [addBlockRec, signed, depth, found], parked s b hs hb found⟩
    by_cases window : b.timeslot ≤ parent.timeslot ∨ clock [] < b.timeslot
    · exact .inr ⟨s, false, by simp [addBlockRec, signed, depth, found, window], hs⟩
    obtain ⟨stored, hstored⟩ : ∃ st, (s.grow b.depth).insertBlock b = .ok st := ⟨_, Blockchain.grow_insertBlock s b⟩
    obtain ⟨chosen, hchosen, start⟩ := inserted s b parent stored hs hb signed found hstored
    have step : ∀ st o, o ∈ (chosen.takeOrphans b.hash).1.enum → P st →
        orphanStep C clock fuel st o = .error .outOfFuel ∨ ∃ st', orphanStep C clock fuel st o = .ok st' ∧ P st' := by
      intro st o member hst
      have member := List.snd_mem_of_mem_enum member
      rw [cascade_orphans hstored hchosen] at member
      rcases addBlockRec_ok_or U P orphansIn positive parked inserted fuel _ st o.2 hst (orphansIn s b hs hb o.2 member)
        with h | ⟨st', r, h, hst'⟩
      · exact .inl (by rw [orphanStep, h]; rfl)
      · exact .inr ⟨st', by rw [orphanStep, h]; rfl, hst'⟩
    rcases foldlM_ok_or Panic.outOfFuel P _ step _ start with h | ⟨after, h, hafter⟩
    · left
      rcases pair : chosen.takeOrphans b.hash with ⟨os, rest⟩
      rw [pair] at h
      simp only [addBlockRec, signed, Bool.not_true, Bool.false_eq_true, if_false, if_neg depth, found,
        if_neg window, hstored, hchosen, pair, bind, Except.bind]
      erw [h]
    · exact .inr ⟨after, _, addBlockRec_succ_of_insert signed depth found (by omega) (by omega) hstored hchosen h,
        hafter⟩

private theorem pathTo_congr {blocks blocks' : List Level} (same : ∀ h d, getBlock blocks' h d = getBlock blocks h d) :
    ∀ d h, pathTo blocks' d h = pathTo blocks d h
  | 0, h => by simp only [pathTo, same]
  | d + 1, h => by simp only [pathTo, same, pathTo_congr same d]

/-! ## The invariant -/

/-- What every call keeps while the chain `c` extending `tip` is delivered, `base` being the best
path and `start` the ledger before the first call: the shape of the tree; the head is `tip` or a
block of the chain, and every block of the chain down to it is stored; every block stored below
`tip`'s level is one of those; the best path is `base` followed by them; the ledger is `start` with
them applied, which equals the replay of the best path; and only blocks of the chain wait under the
hashes of its blocks. -/
structure Delivering (C : Crypto) (tip : Block) (c : List Block) (base : Option (List Block)) (start : Ledger)
    (s : Blockchain) : Prop where
  shape : TreeOK C s
  top : ∃ top ∈ tip :: c, s.bestPathHead = pointer top
  stored : ∀ x ∈ tip :: c, x.depth ≤ s.bestPathHead.2 → getBlock s.blocks x.hash x.depth = some x
  beyond : ∀ d h x, tip.depth < d → getBlock s.blocks h d = some x → x ∈ c ∧ x.depth ≤ s.bestPathHead.2
  path : bestPath s = base.map (· ++ c.filter (·.depth ≤ s.bestPathHead.2))
  ledger : s.ledger = (c.filter (·.depth ≤ s.bestPathHead.2)).foldl (applyBlock C) start
  replayed : ∃ r, replay C s = some r ∧ s.ledger.sameAs r = true
  waiting : ∀ x ∈ c, ∀ o ∈ (s.orphans.lookup x.hash).getD [], o ∈ c

section Delivering

variable {tip : Block} {c : List Block} {base : Option (List Block)} {start : Ledger}

theorem Delivering.of_frame {s s' : Blockchain} (inv : Delivering C tip c base start s) (shape : TreeOK C s')
    (blocks : ∀ h d, getBlock s'.blocks h d = getBlock s.blocks h d) (head : s'.bestPathHead = s.bestPathHead)
    (ledger : s'.ledger = s.ledger) (roots : s'.rootAccounts = s.rootAccounts)
    (waiting : ∀ x ∈ c, ∀ o ∈ (s'.orphans.lookup x.hash).getD [], o ∈ c) : Delivering C tip c base start s' := by
  have path : bestPath s' = bestPath s := by rw [bestPath, bestPath, pathTo_congr blocks, head]
  refine ⟨shape, by rw [head]; exact inv.top, by simpa only [blocks, head] using inv.stored,
    by simpa only [blocks, head] using inv.beyond, by rw [path, head]; exact inv.path,
    by rw [ledger, head]; exact inv.ledger, ?_, waiting⟩
  simp only [replay, path, roots, ledger]
  exact inv.replayed

private theorem waiting_eraseKey {orphans : List (Nat × List Block)}
    (waiting : ∀ x ∈ c, ∀ o ∈ (orphans.lookup x.hash).getD [], o ∈ c) (k : Nat) :
    ∀ x ∈ c, ∀ o ∈ ((eraseKey orphans k).lookup x.hash).getD [], o ∈ c := by
  intro x hx o listed
  rw [lookup_eraseKey] at listed
  split_ifs at listed
  · simp at listed
  · exact waiting x hx o listed

theorem Delivering.park {s : Blockchain} {b : Block} (inv : Delivering C tip c base start s) (hb : b ∈ c)
    (missing : getBlock s.blocks b.prevHash (b.depth - 1) = none) : Delivering C tip c base start (s.park b) := by
  refine inv.of_frame (treeOK_park inv.shape missing) (fun _ _ => rfl) rfl rfl rfl fun x hx o listed => ?_
  simp only [Blockchain.park, lookup_upsert] at listed
  by_cases same : x.hash = b.prevHash
  · rw [if_pos same, Option.getD_some] at listed
    rcases List.mem_append.1 listed with old | fresh
    · exact inv.waiting x hx o (by rwa [same])
    · rw [List.mem_singleton.1 fresh]
      exact hb
  · rw [if_neg same] at listed
    exact inv.waiting x hx o listed

theorem Delivering.extend (chain : Extends tip c) {s stored : Blockchain} {b parent : Block}
    (inv : Delivering C tip c base start s) (hb : b ∈ c) (signed : C.verifyBlock b = true)
    (found : getBlock s.blocks b.prevHash (b.depth - 1) = some parent)
    (hstored : (s.grow b.depth).insertBlock b = .ok stored) (deeper : b.depth = s.bestPathHead.2 + 1) :
    ∃ chosen, forkChoice C (stored.removeTransactions b.transactions) b = .ok chosen ∧
      Delivering C tip c base start (chosen.takeOrphans b.hash).2 := by
  obtain ⟨top, htop, atTop⟩ := inv.top
  obtain ⟨p, hp, linked, pDepth, -⟩ := chain.parent b hb
  have topDepth : s.bestPathHead.2 = top.depth := by rw [atTop]; rfl
  obtain rfl : p = top := chain.eq_of_depth p hp top htop (by omega)
  have onHead : b.prevHash = s.bestPathHead.1 := by rw [linked, atTop]; rfl
  obtain ⟨stHead, -, stLedger, -⟩ := Blockchain.stored_frame hstored
  have headSame : (stored.removeTransactions b.transactions).bestPathHead = s.bestPathHead := by
    rw [Blockchain.removeTransactions_bestPathHead, stHead]
  obtain ⟨chosen, hchosen, chosenHead, chosenLedger⟩ : ∃ chosen,
      forkChoice C (stored.removeTransactions b.transactions) b = .ok chosen ∧
        chosen.bestPathHead = (b.hash, b.depth) ∧ chosen.ledger = applyBlock C s.ledger b :=
    ⟨_, forkChoice_extends (by rw [headSame, onHead]) (by rw [headSame]; omega), rfl,
      by rw [Blockchain.removeTransactions_ledger, stLedger]⟩
  refine ⟨chosen, hchosen, ?_⟩
  obtain ⟨blocks, orphans, roots, head⟩ := cascade_start hstored hchosen
  rw [chosenHead] at head
  have newDepth : (chosen.takeOrphans b.hash).2.bestPathHead.2 = b.depth := by rw [head]
  have ledger : (chosen.takeOrphans b.hash).2.ledger = applyBlock C s.ledger b := by
    rw [Blockchain.takeOrphans_ledger, chosenLedger]
  have grown : c.filter (·.depth ≤ b.depth) = c.filter (·.depth ≤ s.bestPathHead.2) ++ [b] := by
    rw [chain.filter_le b hb]
    congr 1
    exact List.filter_congr fun y _ => by simp only [deeper, Nat.lt_succ_iff]
  refine ⟨treeOK_insert inv.shape signed (by omega) found hstored hchosen, ⟨b, List.mem_cons_of_mem tip hb, head⟩,
    fun x hx le => ?_, fun d h x above stored' => ?_, ?_, ?_,
    replay_extend hstored onHead deeper inv.replayed blocks head roots ledger,
    by rw [orphans]; exact waiting_eraseKey inv.waiting b.hash⟩
  · rw [newDepth] at le
    rw [blocks, getBlock_stored hstored]
    by_cases level : x.depth = b.depth
    · rw [chain.eq_of_depth x hx b (List.mem_cons_of_mem tip hb) level, if_pos ⟨rfl, rfl⟩]
    · rw [if_neg fun both => level both.1]
      exact inv.stored x hx (by omega)
  · rw [blocks, getBlock_stored hstored] at stored'
    rw [newDepth]
    split_ifs at stored' with both
    · cases stored'
      exact ⟨hb, le_rfl⟩
    · have := inv.beyond d h x above stored'
      exact ⟨this.1, by omega⟩
  · rw [bestPath, blocks, head, pathTo_extend hstored onHead deeper, inv.path, Option.map_map]
    simp only [grown]
    cases base <;> simp
  · rw [ledger, newDepth, grown, List.foldl_append, ← inv.ledger]
    rfl

private theorem Delivering.reinsert (chain : Extends tip c) {s stored : Blockchain} {b parent : Block}
    (inv : Delivering C tip c base start s) (hb : b ∈ c) (signed : C.verifyBlock b = true)
    (found : getBlock s.blocks b.prevHash (b.depth - 1) = some parent)
    (hstored : (s.grow b.depth).insertBlock b = .ok stored) (old : b.depth ≤ s.bestPathHead.2) :
    ∃ chosen, forkChoice C (stored.removeTransactions b.transactions) b = .ok chosen ∧
      Delivering C tip c base start (chosen.takeOrphans b.hash).2 := by
  obtain ⟨top, htop, atTop⟩ := inv.top
  obtain ⟨stHead, -, stLedger, -⟩ := Blockchain.stored_frame hstored
  have headSame : (stored.removeTransactions b.transactions).bestPathHead = s.bestPathHead := by
    rw [Blockchain.removeTransactions_bestPathHead, stHead]
  have already := inv.stored b (List.mem_cons_of_mem tip hb) old
  have same : ∀ h d, getBlock stored.blocks h d = getBlock s.blocks h d := fun h d => by
    rw [getBlock_stored hstored]
    split_ifs with both
    · rw [both.1, both.2, already]
    · rfl
  have topFound : getBlock s.blocks s.bestPathHead.1 s.bestPathHead.2 = some top := by
    rw [atTop]
    exact inv.stored top htop (by rw [atTop]; exact le_rfl)
  have keep : forkChoice C (stored.removeTransactions b.transactions) b = .ok (stored.removeTransactions b.transactions) :=
    forkChoice_of_not_better (by rwa [headSame]) (by rw [headSame, Blockchain.removeTransactions_blocks, same]; exact topFound)
      fun level => by
        rw [chain.eq_of_depth b (List.mem_cons_of_mem tip hb) top htop (by rw [headSame, atTop] at level; exact level)]
        exact isBetterThan_irrefl top
  obtain ⟨blocks, orphans, roots, head⟩ := cascade_start hstored keep
  have positive := chain.depth_lt b hb
  refine ⟨_, keep, inv.of_frame (treeOK_insert inv.shape signed (by omega) found hstored keep)
    (fun h d => by rw [blocks, same]) (by rw [head, headSame]) ?_ roots (by rw [orphans]; exact waiting_eraseKey inv.waiting b.hash)⟩
  rw [Blockchain.takeOrphans_ledger, Blockchain.removeTransactions_ledger, stLedger]

/-- Storing a block of the chain whose parent the tree holds keeps the invariant through the fork
choice and the collection of the block's orphans. The parent is stored, so the block is at most one
level below the head: either it is the head's child, or the tree stores it already. -/
theorem Delivering.insert (chain : Extends tip c) {s stored : Blockchain} {b parent : Block}
    (inv : Delivering C tip c base start s) (hb : b ∈ c) (signed : C.verifyBlock b = true)
    (found : getBlock s.blocks b.prevHash (b.depth - 1) = some parent)
    (hstored : (s.grow b.depth).insertBlock b = .ok stored) :
    ∃ chosen, forkChoice C (stored.removeTransactions b.transactions) b = .ok chosen ∧
      Delivering C tip c base start (chosen.takeOrphans b.hash).2 := by
  have shallow : b.depth ≤ s.bestPathHead.2 + 1 := by
    obtain ⟨top, htop, atTop⟩ := inv.top
    have : tip.depth ≤ s.bestPathHead.2 := by
      rw [atTop]
      rcases List.mem_cons.1 htop with rfl | later
      exacts [le_rfl, (chain.depth_lt top later).le]
    by_contra past
    have := (inv.beyond _ _ _ (by omega) found).2
    have := (inv.shape.entries _ _ _ (mem_levelAt_of_getBlock found)).2
    omega
  rcases Nat.lt_or_ge s.bestPathHead.2 b.depth with deeper | old
  · exact inv.extend chain hb signed found hstored (by omega)
  · exact inv.reinsert chain hb signed found hstored old

private theorem addBlockRec_delivering (clock : List Nat → Nat) (chain : Extends tip c) (fuel : Nat) {s : Blockchain}
    {b : Block} (inv : Delivering C tip c base start s) (hb : b ∈ c) :
    addBlockRec C clock fuel s b = .error .outOfFuel ∨
      ∃ s' extended, addBlockRec C clock fuel s b = .ok (s', extended) ∧ Delivering C tip c base start s' :=
  addBlockRec_ok_or (· ∈ c) (Delivering C tip c base start) (fun _ b inv hb => inv.waiting b hb)
    (fun b hb => Nat.ne_of_gt (Nat.lt_of_le_of_lt (Nat.zero_le _) (chain.depth_lt b hb)))
    (fun _ _ inv hb missing => inv.park hb missing)
    (fun _ _ _ _ inv hb signed found hstored => inv.insert chain hb signed found hstored) fuel clock s b inv hb

private theorem run_delivering (chain : Extends tip c) :
    ∀ (ops : List Op) (s : Blockchain), Delivering C tip c base start s → (∀ b ∈ Op.blocks ops, b ∈ c) →
      ∃ s', run C now s ops = .ok s' ∧ Delivering C tip c base start s'
  | [], s, inv, _ => ⟨s, rfl, inv⟩
  | .block b :: ops, s, inv, within => by
    rcases addBlockRec_delivering (fun _ => now) chain (s.orphanCount + 1) inv (within b (List.mem_cons_self b _))
      with h | ⟨s₁, extended, h, inv₁⟩
    · exact absurd h (addBlockRec_ne_outOfFuel _ _ s b inv.shape (Nat.lt_succ_self _))
    · obtain ⟨s', h', inv'⟩ := run_delivering chain ops s₁ inv₁ fun x member => within x (List.mem_cons_of_mem b member)
      exact ⟨s', by simp only [run, addBlock, h, bind, Except.bind, h'], inv'⟩
  | .transaction t :: ops, s, inv, within => by
    obtain ⟨blocks, head, orphans, ledger, roots⟩ := addTransaction_frame C s t
    exact run_delivering chain ops _ (inv.of_frame (inv.shape.of_frame blocks orphans roots head)
      (fun _ _ => by rw [blocks]) head ledger roots (by rw [orphans]; exact inv.waiting)) within

end Delivering

/-! ## Before the first block and after the last -/

private theorem Delivering.init {U : Block → Prop} {s : Blockchain} {tip : Block} {c : List Block} (shape : TreeOK C s)
    (ok : Consistent U s) (latest : getLatestBlock s = .ok tip)
    (replayed : ∃ r, replay C s = some r ∧ s.ledger.sameAs r = true)
    (chain : Extends tip c) (waiting : ∀ x ∈ c, ∀ o ∈ (s.orphans.lookup x.hash).getD [], o ∈ c) :
    Delivering C tip c (bestPath s) s.ledger s := by
  have tipFound := getBlockOrPanic_ok latest
  obtain ⟨tipHash, tipDepth⟩ := shape.entries _ _ _ (mem_levelAt_of_getBlock tipFound)
  have none : c.filter (·.depth ≤ s.bestPathHead.2) = [] :=
    List.filter_eq_nil_iff.2 fun y hy => by have := chain.depth_lt y hy; simp; omega
  refine ⟨shape, ⟨tip, List.mem_cons_self tip c, by rw [pointer, tipHash, tipDepth]⟩, fun x hx le => ?_,
    fun d h x above found => ?_, by rw [none]; cases bestPath s <;> simp, by rw [none]; rfl, replayed, waiting⟩
  · rcases List.mem_cons.1 hx with rfl | later
    · rwa [tipHash, tipDepth]
    · have := chain.depth_lt x later
      omega
  · have := lt_length_of_getBlock found
    have := ok.headDepth
    omega

private theorem Delivering.head_last {s : Blockchain} {tip : Block} {c : List Block} {base : Option (List Block)}
    {start : Ledger} (chain : Extends tip c) (inv : Delivering C tip c base start s)
    (signed : ∀ b ∈ c, C.verifyBlock b = true) (due : ∀ b ∈ c, b.timeslot ≤ now)
    (accounted : ∀ y ∈ c, Accounted C now s y) :
    s.bestPathHead = pointer ((tip :: c).getLast (List.cons_ne_nil tip c)) := by
  obtain ⟨top, htop, atTop⟩ := inv.top
  have topStored := inv.stored top htop (by rw [atTop]; exact le_rfl)
  obtain rfl : top = (tip :: c).getLast (List.cons_ne_nil tip c) := by
    by_contra notLast
    obtain ⟨y, hy, linked, deeper, after⟩ := chain.child top htop notLast
    rcases accounted y hy with stored | parked | unsigned | ⟨p, found, window⟩
    · have := (inv.beyond _ _ _ (chain.depth_lt y hy) stored).2
      rw [atTop] at this
      exact absurd this (by simp only [pointer]; omega)
    · obtain ⟨os, listed, parked⟩ := exists_mem_of_mem_lookup parked
      have missing := (inv.shape.orphans _ os listed y parked).2 (by omega)
      rw [linked, deeper, Nat.add_sub_cancel, topStored] at missing
      cases missing
    · rw [signed y hy] at unsigned
      cases unsigned
    · rw [linked, deeper, Nat.add_sub_cancel, topStored] at found
      cases found
      have := due y hy
      omega
  exact atTop

/-! ## Delivery in any order -/

/-- A chain of signed, due blocks extending the head of a reachable node, delivered in any order,
any block any number of times and with transactions in between, while only blocks of the chain
wait under the hashes of its blocks: the run ends without a panic, the head is the chain's last
block, the best path has grown by the chain, and the ledger is the old one with the chain's blocks
applied in chain order, which equals the replay of the new best path. -/
theorem valid_extension_accepted_in_any_order {U : Block → Prop} (inj : HashInjective U) {s : Blockchain}
    {tip : Block} {c : List Block} {ops : List Op} (reach : Reachable C U s) (within : ∀ b ∈ c, U b)
    (latest : getLatestBlock s = .ok tip) (replayed : ∃ r, replay C s = some r ∧ s.ledger.sameAs r = true)
    (chain : Extends tip c)
    (signed : ∀ b ∈ c, C.verifyBlock b = true) (due : ∀ b ∈ c, b.timeslot ≤ now)
    (waiting : ∀ x ∈ c, ∀ o ∈ (s.orphans.lookup x.hash).getD [], o ∈ c)
    (arrivals : ∀ b, b ∈ Op.blocks ops ↔ b ∈ c) :
    ∃ s', run C now s ops = .ok s' ∧ s'.bestPathHead = pointer ((tip :: c).getLast (List.cons_ne_nil tip c)) ∧
      bestPath s' = (bestPath s).map (· ++ c) ∧ s'.ledger = c.foldl (applyBlock C) s.ledger ∧
      ∃ r, replay C s' = some r ∧ s'.ledger.sameAs r = true := by
  have shape := treeOK_reachable reach
  have ok := consistent_reachable inj.levelInjective reach
  obtain ⟨s', hrun, inv⟩ := run_delivering chain ops s (Delivering.init shape ok latest replayed chain waiting)
    fun b member => (arrivals b).1 member
  have atLast := inv.head_last chain signed due fun y hy => accounted_run inj.levelInjective y ops s s' ⟨shape, ok⟩
    (fun b member => within b ((arrivals b).1 member)) (.inl ((arrivals y).2 hy)) hrun
  have all : c.filter (·.depth ≤ s'.bestPathHead.2) = c :=
    List.filter_eq_self.2 fun y hy => by rw [atLast]; simpa using chain.le_last y (List.mem_cons_of_mem tip hy)
  exact ⟨s', hrun, atLast, by rw [inv.path, all], by rw [inv.ledger, all], inv.replayed⟩

/-- The blocks in play when `oldTip` and its child are delivered to `rootState`. -/
def extensionBlocks : List Block := [genesisBlock 1 0 100 0, branchRoot, oldTip, oldTipChild]

/-- The child first, a transaction, then `oldTip`, then the child again. -/
def reversedOps : List Op := [.block oldTipChild, .transaction ⟨1, 2, 10, 1⟩, .block oldTip, .block oldTipChild]

theorem valid_extension_accepted_in_any_order_child_first :
    HashInjective (· ∈ extensionBlocks) ∧ Reachable acceptAll (· ∈ extensionBlocks) rootState ∧
      (∀ b ∈ [oldTip, oldTipChild], b ∈ extensionBlocks) ∧ getLatestBlock rootState = .ok branchRoot ∧
      (∃ r, replay acceptAll rootState = some r ∧ rootState.ledger.sameAs r = true) ∧
      Extends branchRoot [oldTip, oldTipChild] ∧
      (∀ b ∈ [oldTip, oldTipChild], acceptAll.verifyBlock b = true) ∧
      (∀ b ∈ [oldTip, oldTipChild], b.timeslot ≤ 10) ∧
      (∀ x ∈ [oldTip, oldTipChild], ∀ o ∈ (rootState.orphans.lookup x.hash).getD [], o ∈ [oldTip, oldTipChild]) ∧
      (∀ b, b ∈ Op.blocks reversedOps ↔ b ∈ [oldTip, oldTipChild]) ∧
      ∃ s', run acceptAll 10 rootState reversedOps = .ok s' ∧
        s'.bestPathHead = pointer ((branchRoot :: [oldTip, oldTipChild]).getLast (List.cons_ne_nil _ _)) ∧
        bestPath s' = (bestPath rootState).map (· ++ [oldTip, oldTipChild]) ∧
        s'.ledger = [oldTip, oldTipChild].foldl (applyBlock acceptAll) rootState.ledger ∧
        ∃ r, replay acceptAll s' = some r ∧ s'.ledger.sameAs r = true := by
  have inj := hashInjective_of_nodup extensionBlocks (by decide)
  have reach : Reachable acceptAll (· ∈ extensionBlocks) rootState :=
    reachable_runFromStart (by simp [extensionBlocks]) (by simp [extensionBlocks, Op.blocks])
      (show runFromStart acceptAll 10 [1, 2] 0 100 0 [.block branchRoot] = .ok rootState from rfl)
  have chain : Extends branchRoot [oldTip, oldTipChild] :=
    .cons rfl rfl (by decide) (.cons rfl rfl (by decide) (.nil _))
  have arrivals : ∀ b, b ∈ Op.blocks reversedOps ↔ b ∈ [oldTip, oldTipChild] := fun b => by
    simp only [reversedOps, Op.blocks, List.mem_cons, List.mem_singleton, List.not_mem_nil, or_false]
    tauto
  exact ⟨inj, reach, by decide, rfl, rootState_replayed, chain, by decide, by decide, by decide, arrivals,
    valid_extension_accepted_in_any_order inj reach (by decide) rfl rootState_replayed chain (by decide) (by decide)
      (by decide) arrivals⟩

end Lassecoin.Chain.Delivery
