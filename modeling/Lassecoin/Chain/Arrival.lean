import Lassecoin.Chain.Walk

/-!
# The tree does not depend on the order blocks arrive in

`Admitted` says which blocks `add_block` stores out of the blocks a run submits, all read at one
clock: the genesis, and, one level at a time, every signed block whose parent is admitted one level
up under its `prev_hash` and is older, and whose timeslot has come. Nothing in it depends on an
order. After every run that does not panic, the tree stores exactly the admitted blocks.

The proof follows each submitted block: after every call it is stored, parked under its parent's
hash, or rejected for good (`Accounted`). A call keeps this of every block but the children it
collects from the orphan index, and it submits each of those again before it returns. At the end
of the run a parked block has no parent in the tree, so an admitted block is stored, by
induction on `Admitted`.

Two runs that submit the same blocks, in any order and with any transactions between them, hold
the same tree; the head is the best block of the last level, so they hold the same head too.
-/

set_option autoImplicit false
set_option relaxedAutoImplicit false

namespace Lassecoin.Chain.Arrival

open Lassecoin.Types Lassecoin.Chain.State Lassecoin.Chain.AddBlock Lassecoin.Chain.Step
open Lassecoin.Chain.Shape Lassecoin.Chain.ForkChoice

variable {C : Crypto} {now : Nat} {U : Block → Prop}

/-- The blocks `add_block` stores out of the submitted blocks `S` with the clock at `now`. -/
inductive Admitted (C : Crypto) (now : Nat) (genesis : Block) (S : Block → Prop) : Block → Prop
  | genesis : Admitted C now genesis S genesis
  | child {b p : Block} : S b → C.verifyBlock b = true → b.depth ≠ 0 →
      Admitted C now genesis S p → p.hash = b.prevHash → p.depth = b.depth - 1 →
      p.timeslot < b.timeslot → b.timeslot ≤ now → Admitted C now genesis S b

/-- Where a submitted block is after a call: stored, parked under its parent's hash, or rejected
for good, for its signature or for its timeslot against the parent the tree stores. -/
def Accounted (C : Crypto) (now : Nat) (s : Blockchain) (b : Block) : Prop :=
  getBlock s.blocks b.hash b.depth = some b ∨ b ∈ (s.orphans.lookup b.prevHash).getD [] ∨
    C.verifyBlock b = false ∨
    ∃ p, getBlock s.blocks b.prevHash (b.depth - 1) = some p ∧ (b.timeslot ≤ p.timeslot ∨ now < b.timeslot)

/-- Every block the tree stores is admitted. -/
def StoredAdmitted (C : Crypto) (now : Nat) (genesis : Block) (S : Block → Prop) (s : Blockchain) :
    Prop :=
  ∀ d h b, (h, b) ∈ levelAt s.blocks d → Admitted C now genesis S b

/-! ## One call -/

private theorem accounted_park {s : Blockchain} {b x : Block} (hx : x = b ∨ Accounted C now s x) :
    Accounted C now (s.park b) x := by
  rcases hx with rfl | stored | parked | unsigned | rejected
  · exact .inr (.inl (by simp [Blockchain.park]))
  · exact .inl stored
  · refine .inr (.inl ?_)
    simp only [Blockchain.park, lookup_upsert]
    split
    · rename_i same
      rw [same] at parked
      exact List.mem_append_left _ parked
    · exact parked
  · exact .inr (.inr (.inl unsigned))
  · exact .inr (.inr (.inr rejected))

private theorem accounted_insert (inj : LevelInjective U) {s stored chosen : Blockchain} {b x : Block}
    (shape : TreeOK C s) (ok : Consistent U s) (hb : U b) (depth : b.depth ≠ 0)
    (hstored : (s.grow b.depth).insertBlock b = .ok stored)
    (hchosen : forkChoice C (stored.removeTransactions b.transactions) b = .ok chosen)
    (hx : x = b ∨ Accounted C now s x) :
    x ∈ (chosen.takeOrphans b.hash).1 ∨ Accounted C now (chosen.takeOrphans b.hash).2 x := by
  obtain ⟨blocks, orphans, -, -⟩ := cascade_start hstored hchosen
  rcases hx with rfl | found | parked | unsigned | ⟨p, found, window⟩
  · exact .inr (.inl (by rw [blocks]; exact getBlock_stored_self hstored))
  · exact .inr (.inl (by rw [blocks]; exact getBlock_stored_keeps inj shape ok hb depth hstored found))
  · by_cases under : x.prevHash = b.hash
    · rw [cascade_orphans hstored hchosen, ← under]
      exact .inl parked
    · exact .inr (.inr (.inl (by rwa [orphans, lookup_eraseKey, if_neg under])))
  · exact .inr (.inr (.inr (.inl unsigned)))
  · exact .inr (.inr (.inr (.inr
      ⟨p, by rw [blocks]; exact getBlock_stored_keeps inj shape ok hb depth hstored found, window⟩)))

private theorem accounted_addBlockRec (inj : LevelInjective U) (x : Block) :
    ∀ fuel s b s' extended, TreeOK C s ∧ Consistent U s → U b → (x = b ∨ Accounted C now s x) →
      addBlockRec C (fun _ => now) fuel s b = .ok (s', extended) → Accounted C now s' x := by
  intro fuel
  induction fuel with
  | zero =>
    intro s b s' extended _ _ _ h
    cases h
  | succ fuel ih =>
    intro s b s' extended inv hb hx h
    rcases addBlockRec_succ_ok h with ⟨unsigned, rfl⟩ | ⟨-, -, -, rfl⟩ | ⟨-, -, window, rfl⟩ |
      ⟨parent, stored, chosen, signed, depth, found, older, -, hstored, hchosen, cascade⟩
    · rcases hx with rfl | hx
      · exact .inr (.inr (.inl unsigned))
      · exact hx
    · exact accounted_park hx
    · rcases hx with rfl | hx
      · exact .inr (.inr (.inr window))
      · exact hx
    · have within : ∀ o ∈ (chosen.takeOrphans b.hash).1.enum, U o.2 := by
        intro o member
        obtain ⟨os, listed, member⟩ := mem_cascade_orphans hstored hchosen member
        exact inv.2.orphansWithin _ os listed o.2 member
      have start := accounted_insert inj inv.1 inv.2 hb depth hstored hchosen hx
      rw [← List.enum_map_snd (chosen.takeOrphans b.hash).1] at start
      have shape := treeOK_insert inv.1 signed depth found hstored hchosen
      have ok := consistent_insert inj inv.1 inv.2 hb depth found older hstored hchosen
      refine ((foldlM_drain (fun st rest => (TreeOK C st ∧ Consistent U st) ∧ (∀ o ∈ rest, U o.2) ∧
        (x ∈ rest.map Prod.snd ∨ Accounted C now st x)) ?_ _ ⟨⟨shape, ok⟩, within, start⟩ cascade).2.2).resolve_left
          (List.not_mem_nil x)
      rintro st o st' rest ⟨inv, within, hx⟩ step
      obtain ⟨r, step⟩ := orphanStep_eq_ok.1 step
      have ho := within o (List.mem_cons_self o rest)
      refine ⟨consistent_addBlockRec inj inv ho step,
        fun o' member => within o' (List.mem_cons_of_mem o member), ?_⟩
      rcases hx with first | known
      · rcases List.mem_cons.1 first with rfl | later
        · exact .inr (ih st o.2 st' r inv ho (.inl rfl) step)
        · exact .inl later
      · exact .inr (ih st o.2 st' r inv ho (.inr known) step)

private theorem storedAdmitted_insert {genesis : Block} {S : Block → Prop} {s stored chosen : Blockchain}
    {b parent : Block} (shape : TreeOK C s) (admitted : StoredAdmitted C now genesis S s) (hb : S b)
    (signed : C.verifyBlock b = true) (depth : b.depth ≠ 0)
    (found : getBlock s.blocks b.prevHash (b.depth - 1) = some parent)
    (older : parent.timeslot < b.timeslot) (due : b.timeslot ≤ now)
    (hstored : (s.grow b.depth).insertBlock b = .ok stored)
    (hchosen : forkChoice C (stored.removeTransactions b.transactions) b = .ok chosen) :
    StoredAdmitted C now genesis S (chosen.takeOrphans b.hash).2 := by
  obtain ⟨blocks, -, -, -⟩ := cascade_start hstored hchosen
  intro d h x member
  rw [blocks] at member
  rcases mem_levelAt_stored hstored member with ⟨-, same⟩ | ⟨old, -⟩
  · obtain ⟨-, rfl⟩ := Prod.mk.inj same
    have parentMember := mem_levelAt_of_getBlock found
    obtain ⟨parentHash, parentDepth⟩ := shape.entries _ _ _ parentMember
    exact .child hb signed depth (admitted _ _ _ parentMember) parentHash parentDepth older due
  · exact admitted d h x old

/-! ## Runs from `start` -/

/-- The blocks in play in a run from `genesis` that submits `blocks`. -/
def InPlay (genesis : Block) (blocks : List Block) (b : Block) : Prop := b = genesis ∨ b ∈ blocks

private theorem mem_of_inPlay {genesis b : Block} {blocks : List Block} (genesisDepth : genesis.depth = 0)
    (hb : InPlay genesis blocks b) (depth : b.depth ≠ 0) : b ∈ blocks := by
  rcases hb with rfl | member
  · exact absurd genesisDepth depth
  · exact member

private theorem levelInjective_inPlay {genesis : Block} {blocks : List Block} (genesisDepth : genesis.depth = 0)
    (distinct : HashInjective (· ∈ blocks)) : LevelInjective (InPlay genesis blocks) :=
  fun b c hb hc hash level depth =>
    distinct b c (mem_of_inPlay genesisDepth hb depth) (mem_of_inPlay genesisDepth hc (level ▸ depth)) hash

/-- What holds along a run from `genesis` submitting `blocks`: the shape, `Consistent`, and that
the tree stores only admitted blocks. -/
def RunInvariant (C : Crypto) (now : Nat) (genesis : Block) (blocks : List Block) (s : Blockchain) :
    Prop :=
  TreeOK C s ∧ Consistent (InPlay genesis blocks) s ∧ StoredAdmitted C now genesis (· ∈ blocks) s

private theorem runInvariant_addBlock {genesis : Block} {blocks : List Block} (genesisDepth : genesis.depth = 0)
    (distinct : HashInjective (· ∈ blocks)) {s s' : Blockchain} {b : Block} {extended : Bool}
    (inv : RunInvariant C now genesis blocks s) (hb : InPlay genesis blocks b)
    (h : addBlock C (fun _ => now) s b = .ok (s', extended)) : RunInvariant C now genesis blocks s' :=
  addBlockRec_preserves_within (InPlay genesis blocks) (fun clock => ∀ p, clock p = now)
    (fun _ i fixed p => fixed (i :: p)) (RunInvariant C now genesis blocks)
    (fun _ inv => inv.2.1.orphansWithin)
    (fun _ _ inv hb _ _ missing => ⟨treeOK_park inv.1 missing, consistent_park inv.2.1 hb, inv.2.2⟩)
    (fun _ _ _ _ _ _ fixed inv hb signed depth found older due hstored hchosen =>
      ⟨treeOK_insert inv.1 signed depth found hstored hchosen,
        consistent_insert (levelInjective_inPlay genesisDepth distinct) inv.1 inv.2.1 hb depth found
          older hstored hchosen,
        storedAdmitted_insert inv.1 inv.2.2 (mem_of_inPlay genesisDepth hb depth) signed depth found
          older (fixed [] ▸ due) hstored hchosen⟩)
    _ _ s b s' extended (fun _ => rfl) inv hb h

theorem accounted_run (inj : LevelInjective U) (x : Block) :
    ∀ (ops : List Op) (s s' : Blockchain), TreeOK C s ∧ Consistent U s → (∀ b ∈ Op.blocks ops, U b) →
      (x ∈ Op.blocks ops ∨ Accounted C now s x) → run C now s ops = .ok s' → Accounted C now s' x
  | [], s, s', _, _, hx, h => by
    cases h
    exact hx.resolve_left (List.not_mem_nil x)
  | .block b :: ops, s, s', inv, within, hx, h => by
    obtain ⟨⟨s₁, extended⟩, step, h⟩ := bind_eq_ok.1 h
    have hb := within b (List.mem_cons_self b _)
    refine accounted_run inj x ops s₁ s' (consistent_addBlockRec inj inv hb step)
      (fun c hc => within c (List.mem_cons_of_mem b hc)) ?_ h
    rcases hx with first | known
    · rcases List.mem_cons.1 first with rfl | later
      · exact .inr (accounted_addBlockRec inj x _ s x s₁ extended inv hb (.inl rfl) step)
      · exact .inl later
    · exact .inr (accounted_addBlockRec inj x _ s b s₁ extended inv hb (.inr known) step)
  | .transaction t :: ops, s, s', inv, within, hx, h => by
    obtain ⟨blocks, head, orphans, -, roots⟩ := addTransaction_frame C s t
    refine accounted_run inj x ops _ s' ⟨inv.1.of_frame blocks orphans roots head,
      inv.2.of_frame blocks orphans head⟩ within ?_ h
    rcases hx with later | known
    · exact .inl later
    · exact .inr (by unfold Accounted; rwa [blocks, orphans])

private theorem run_settles {rootAccounts : List Nat} {seedHash hash value p : Nat} {ops : List Op}
    {s : Blockchain} (distinct : HashInjective (· ∈ Op.blocks ops)) (first : rootAccounts.head? = some p)
    (h : runFromStart C now rootAccounts seedHash hash value ops = .ok s) :
    RunInvariant C now (genesisBlock p seedHash hash value) (Op.blocks ops) s ∧
      ∀ x ∈ Op.blocks ops, Accounted C now s x := by
  obtain ⟨s₀, started, h⟩ := runFromStart_ok h
  have genesisIn : ∀ q ∈ rootAccounts.head?,
      InPlay (genesisBlock p seedHash hash value) (Op.blocks ops) (genesisBlock q seedHash hash value) := by
    intro q member
    rw [first, Option.mem_some_iff] at member
    exact .inl (by rw [member])
  have within : ∀ b ∈ Op.blocks ops, InPlay (genesisBlock p seedHash hash value) (Op.blocks ops) b :=
    fun b member => .inr member
  have inj : LevelInjective (InPlay (genesisBlock p seedHash hash value) (Op.blocks ops)) :=
    levelInjective_inPlay rfl distinct
  have admitted : StoredAdmitted C now (genesisBlock p seedHash hash value) (· ∈ Op.blocks ops) s₀ := by
    obtain ⟨q, first', rfl⟩ := start_ok started
    obtain rfl : q = p := Option.some.inj (first'.symm.trans first)
    intro d h b member
    rw [(Prod.mk.inj (mem_levelAt_single.1 member).2).2]
    exact .genesis
  have inv₀ : RunInvariant C now (genesisBlock p seedHash hash value) (Op.blocks ops) s₀ :=
    ⟨treeOK_start started, consistent_start started genesisIn, admitted⟩
  exact ⟨run_preserves (RunInvariant C now (genesisBlock p seedHash hash value) (Op.blocks ops))
      (fun _ _ _ _ inv hb step => runInvariant_addBlock rfl distinct inv hb step)
      (fun s t inv => by
        obtain ⟨blocks, head, orphans, -, roots⟩ := addTransaction_frame C s t
        exact ⟨inv.1.of_frame blocks orphans roots head, inv.2.1.of_frame blocks orphans head,
          by unfold StoredAdmitted; rw [blocks]; exact inv.2.2⟩)
      ops inv₀ within h,
    fun x member => accounted_run inj x ops s₀ s ⟨inv₀.1, inv₀.2.1⟩ within (.inl member) h⟩

/-! ## The tree is the admitted blocks -/

private theorem eq_genesis_of_admitted {genesis b : Block} {S : Block → Prop}
    (admitted : Admitted C now genesis S b) (depth : b.depth = 0) : b = genesis := by
  cases admitted with
  | genesis => rfl
  | child _ _ positive => exact absurd depth positive

private theorem getBlock_of_admitted {genesis : Block} {blocks : List Block} {s : Blockchain}
    (shape : TreeOK C s) (genesisFound : getBlock s.blocks genesis.hash genesis.depth = some genesis)
    (accounted : ∀ x ∈ blocks, Accounted C now s x) {b : Block}
    (admitted : Admitted C now genesis (· ∈ blocks) b) : getBlock s.blocks b.hash b.depth = some b := by
  induction admitted with
  | genesis => exact genesisFound
  | @child b p hb signed depth _ parentHash parentDepth older due ih =>
    have parent : getBlock s.blocks b.prevHash (b.depth - 1) = some p := by
      rw [← parentHash, ← parentDepth]
      exact ih
    rcases accounted b hb with stored | parked | unsigned | ⟨p', found, window⟩
    · exact stored
    · obtain ⟨os, listed, member⟩ := exists_mem_of_mem_lookup parked
      rw [(shape.orphans _ os listed b member).2 depth] at parent
      cases parent
    · rw [signed] at unsigned
      cases unsigned
    · rw [parent] at found
      cases found
      omega

/-- After every run from `start` that does not panic, the tree stores exactly the blocks
admitted out of the submitted ones, each at its depth under its hash, whatever the order they
arrived in. -/
theorem getBlock_iff_admitted {rootAccounts : List Nat} {seedHash hash value p : Nat} {ops : List Op}
    {s : Blockchain} (distinct : HashInjective (· ∈ Op.blocks ops)) (first : rootAccounts.head? = some p)
    (h : runFromStart C now rootAccounts seedHash hash value ops = .ok s) (d k : Nat) (b : Block) :
    getBlock s.blocks k d = some b ↔
      Admitted C now (genesisBlock p seedHash hash value) (· ∈ Op.blocks ops) b ∧ b.hash = k ∧ b.depth = d := by
  obtain ⟨⟨shape, -, admitted⟩, accounted⟩ := run_settles distinct first h
  constructor
  · intro found
    have member := mem_levelAt_of_getBlock found
    exact ⟨admitted d k b member, shape.entries d k b member⟩
  · rintro ⟨isAdmitted, rfl, rfl⟩
    refine getBlock_of_admitted shape ?_ accounted isAdmitted
    obtain ⟨q, seed, hash', value', -, zero⟩ := shape.genesis
    have member : (hash', genesisBlock q seed hash' value') ∈ levelAt s.blocks 0 := by simp [zero]
    have same := eq_genesis_of_admitted (admitted 0 _ _ member) rfl
    rw [show (genesisBlock p seedHash hash value).depth = 0 from rfl, getBlock_eq_lookup, zero, ← same]
    simp [genesisBlock]

/-- `forkA`, then `earlyChild` below it, then the competitor `forkB`. -/
def arrivalOps : List Op := [.block forkA, .block earlyChild, .block forkB]

/-- The state after `arrivalOps`. -/
def arrivalState : Blockchain := Except.state (runFromStart acceptAll 10 [1, 2] 0 100 0 arrivalOps)

theorem getBlock_iff_admitted_after_arrival :
    HashInjective (· ∈ Op.blocks arrivalOps) ∧ [1, 2].head? = some 1 ∧
      runFromStart acceptAll 10 [1, 2] 0 100 0 arrivalOps = .ok arrivalState ∧
      (getBlock arrivalState.blocks earlyChild.hash 2 = some earlyChild ↔
        Admitted acceptAll 10 (genesisBlock 1 0 100 0) (· ∈ Op.blocks arrivalOps) earlyChild ∧
          earlyChild.hash = earlyChild.hash ∧ earlyChild.depth = 2) := by
  have distinct := hashInjective_of_nodup (Op.blocks arrivalOps) (by decide)
  have first : [1, 2].head? = some 1 := rfl
  have h : runFromStart acceptAll 10 [1, 2] 0 100 0 arrivalOps = .ok arrivalState := rfl
  exact ⟨distinct, first, h, getBlock_iff_admitted distinct first h 2 earlyChild.hash earlyChild⟩

/-! ## Two runs -/

private theorem length_eq_of_same_tree {s s' : Blockchain} (shape : TreeOK C s) (shape' : TreeOK C s')
    (same : ∀ d k, getBlock s.blocks k d = getBlock s'.blocks k d) :
    s.blocks.length = s'.blocks.length := by
  have bound : ∀ {t t' : Blockchain}, TreeOK C t →
      (∀ d k, getBlock t.blocks k d = getBlock t'.blocks k d) → t.blocks.length ≤ t'.blocks.length := by
    intro t t' shape same
    by_contra longer
    obtain ⟨⟨k, b⟩, member⟩ := List.exists_mem_of_ne_nil _ (shape.levels t'.blocks.length (by omega))
    obtain ⟨x, found⟩ := exists_getBlock_of_mem member
    rw [same] at found
    exact lt_irrefl _ (lt_length_of_getBlock found)
  exact le_antisymm (bound shape same) (bound shape' fun d k => (same d k).symm)

private theorem head_eq_of_same_tree {U U' : Block → Prop} {s s' : Blockchain} (shape : TreeOK C s)
    (shape' : TreeOK C s') (ok : Consistent U s) (ok' : Consistent U' s')
    (same : ∀ d k, getBlock s.blocks k d = getBlock s'.blocks k d) :
    s.bestPathHead = s'.bestPathHead := by
  have depth : s.bestPathHead.2 = s'.bestPathHead.2 := by
    have := length_eq_of_same_tree shape shape' same
    have := ok.headDepth
    have := ok'.headDepth
    omega
  obtain ⟨tip, found, best⟩ := ok.headBest
  obtain ⟨tip', found', best'⟩ := ok'.headBest
  have cross : (s.bestPathHead.1, tip) ∈ levelAt s'.blocks s'.bestPathHead.2 := by
    rw [← depth]
    exact mem_levelAt_of_getBlock (by rw [← same]; exact found)
  have cross' : (s'.bestPathHead.1, tip') ∈ levelAt s.blocks s.bestPathHead.2 := by
    rw [depth]
    exact mem_levelAt_of_getBlock (by rw [same]; exact found')
  have tips : tip = tip' := by
    by_contra differ
    have beaten := isBetterThan_asymm (best _ _ cross' (Ne.symm differ))
    rw [best' _ _ cross differ] at beaten
    cases beaten
  obtain ⟨hash, -⟩ := shape.entries _ _ _ (mem_levelAt_of_getBlock found)
  obtain ⟨hash', -⟩ := shape'.entries _ _ _ (mem_levelAt_of_getBlock found')
  exact Prod.ext (by rw [← hash, ← hash', tips]) depth

/-- Fork choice does not depend on arrival order: two runs from one `start`, with one clock, that
submit the same blocks with distinct hashes in any two orders, with any transactions between
them, and do not panic, end with the same tree, level by level, and the same head. -/
theorem fork_choice_ignores_arrival_order {rootAccounts : List Nat} {seedHash hash value : Nat}
    {ops ops' : List Op} {s s' : Blockchain} (distinct : HashInjective (· ∈ Op.blocks ops))
    (permuted : (Op.blocks ops).Perm (Op.blocks ops'))
    (h : runFromStart C now rootAccounts seedHash hash value ops = .ok s)
    (h' : runFromStart C now rootAccounts seedHash hash value ops' = .ok s') :
    s.blocks.length = s'.blocks.length ∧ (∀ d k, getBlock s.blocks k d = getBlock s'.blocks k d) ∧
      s.bestPathHead = s'.bestPathHead := by
  obtain ⟨s₀, started, -⟩ := runFromStart_ok h
  obtain ⟨p, first, -⟩ := start_ok started
  have members : (· ∈ Op.blocks ops) = (· ∈ Op.blocks ops') := funext fun b => propext permuted.mem_iff
  have distinct' : HashInjective (· ∈ Op.blocks ops') := members ▸ distinct
  have same : ∀ d k, getBlock s.blocks k d = getBlock s'.blocks k d := by
    intro d k
    apply Option.ext
    intro b
    rw [Option.mem_def, Option.mem_def, getBlock_iff_admitted distinct first h,
      getBlock_iff_admitted distinct' first h', members]
  obtain ⟨⟨shape, ok, -⟩, -⟩ := run_settles distinct first h
  obtain ⟨⟨shape', ok', -⟩, -⟩ := run_settles distinct' first h'
  exact ⟨length_eq_of_same_tree shape shape' same, same, head_eq_of_same_tree shape shape' ok ok' same⟩

/-- The blocks of `arrivalOps`, the child first and a transaction between them. -/
def reorderedOps : List Op := [.block earlyChild, .transaction ⟨1, 2, 10, 1⟩, .block forkB, .block forkA]

/-- The state after `reorderedOps`. -/
def reorderedState : Blockchain := Except.state (runFromStart acceptAll 10 [1, 2] 0 100 0 reorderedOps)

theorem fork_choice_ignores_arrival_order_of_three :
    HashInjective (· ∈ Op.blocks arrivalOps) ∧ (Op.blocks arrivalOps).Perm (Op.blocks reorderedOps) ∧
      runFromStart acceptAll 10 [1, 2] 0 100 0 arrivalOps = .ok arrivalState ∧
      runFromStart acceptAll 10 [1, 2] 0 100 0 reorderedOps = .ok reorderedState ∧
      arrivalState.bestPathHead = (earlyChild.hash, 2) ∧
      arrivalState.blocks.length = reorderedState.blocks.length ∧
      (∀ d k, getBlock arrivalState.blocks k d = getBlock reorderedState.blocks k d) ∧
      arrivalState.bestPathHead = reorderedState.bestPathHead := by
  have distinct := hashInjective_of_nodup (Op.blocks arrivalOps) (by decide)
  have permuted : (Op.blocks arrivalOps).Perm (Op.blocks reorderedOps) := by decide
  have h : runFromStart acceptAll 10 [1, 2] 0 100 0 arrivalOps = .ok arrivalState := rfl
  have h' : runFromStart acceptAll 10 [1, 2] 0 100 0 reorderedOps = .ok reorderedState := rfl
  exact ⟨distinct, permuted, h, h', rfl, fork_choice_ignores_arrival_order distinct permuted h h'⟩

end Lassecoin.Chain.Arrival
