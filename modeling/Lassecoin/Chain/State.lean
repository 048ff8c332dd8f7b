import Lassecoin.Balances

/-!
# The engine's state

`Blockchain` and the small operations `add_block` and `rollback` make on it: looking a block up
by depth and hash, growing the level vector, storing a block, parking and collecting orphans, and
editing the transaction buffer. `start_time` is left out: it only feeds `calculate_timeslot`, whose
reading `add_block` takes as an argument.
-/

set_option autoImplicit false
set_option relaxedAutoImplicit false

namespace Lassecoin.Chain.State

open Lassecoin.Types Lassecoin.Balances

/-- One level of `blocks`: a `HashMap<[u8; 32], Block>` of every block known at that depth. -/
abbrev Level := List (Nat × Block)

/-- `Blockchain`, without `start_time`. -/
structure Blockchain where
  blocks : List Level
  bestPathHead : Nat × Nat
  ledger : Ledger
  rootAccounts : List Nat
  orphans : List (Nat × List Block)
  transactionBuffer : List Transaction

/-- The block that `blocks[depth]` stores under `hash`: `blocks.get(depth)?.get(hash)`. -/
def getBlock (blocks : List Level) (hash depth : Nat) : Option Block :=
  blocks[depth]?.bind (·.lookup hash)

/-- `blocks[depth]`, an empty level past the end. -/
def levelAt (blocks : List Level) (depth : Nat) : Level := blocks[depth]?.getD []

theorem getBlock_eq_lookup (blocks : List Level) (hash depth : Nat) :
    getBlock blocks hash depth = (levelAt blocks depth).lookup hash := by
  unfold getBlock levelAt
  cases blocks[depth]? <;> rfl

theorem levelAt_append_replicate (blocks : List Level) (k d : Nat) :
    levelAt (blocks ++ List.replicate k []) d = levelAt blocks d := by
  unfold levelAt
  by_cases hd : d < blocks.length
  · rw [List.getElem?_append_left hd]
  · rw [List.getElem?_append_right (by omega), List.getElem?_replicate,
      List.getElem?_eq_none (by omega)]
    split <;> rfl

private theorem levelAt_set {blocks : List Level} {i : Nat} (level : Level) (hi : i < blocks.length)
    (d : Nat) : levelAt (blocks.set i level) d = if d = i then level else levelAt blocks d := by
  unfold levelAt
  rw [List.getElem?_set]
  by_cases h : i = d
  · subst h
    simp [hi]
  · simp [h, Ne.symm h]

theorem getElem?_eq_levelAt {blocks : List Level} {d : Nat} (hd : d < blocks.length) :
    blocks[d]? = some (levelAt blocks d) := by
  simp [levelAt, List.getElem?_eq_getElem hd]

theorem lt_length_of_mem_levelAt {blocks : List Level} {d : Nat} {e : Nat × Block}
    (member : e ∈ levelAt blocks d) : d < blocks.length := by
  by_contra past
  simp [levelAt, List.getElem?_eq_none (Nat.le_of_not_lt past)] at member

theorem mem_levelAt_of_getBlock {blocks : List Level} {hash d : Nat} {b : Block}
    (found : getBlock blocks hash d = some b) : (hash, b) ∈ levelAt blocks d := by
  rw [getBlock_eq_lookup] at found
  exact mem_of_lookup_eq_some found

theorem exists_getBlock_of_mem {blocks : List Level} {hash d : Nat} {b : Block}
    (member : (hash, b) ∈ levelAt blocks d) : ∃ x, getBlock blocks hash d = some x := by
  rw [getBlock_eq_lookup]
  exact exists_lookup_of_mem member

theorem lt_length_of_getBlock {blocks : List Level} {hash d : Nat} {b : Block}
    (found : getBlock blocks hash d = some b) : d < blocks.length :=
  lt_length_of_mem_levelAt (mem_levelAt_of_getBlock found)

/-- `get_block(..).unwrap()`: the lookup, panicking on a missing level or block. -/
def getBlockOrPanic (blocks : List Level) (hash depth : Nat) : Except Panic Block :=
  match getBlock blocks hash depth with
  | some block => .ok block
  | none => .error .unwrapNone

theorem getBlockOrPanic_of_getBlock {blocks : List Level} {hash depth : Nat} {b : Block}
    (found : getBlock blocks hash depth = some b) : getBlockOrPanic blocks hash depth = .ok b := by
  simp [getBlockOrPanic, found]

/-- Modelled from the spec: the genesis block `Block::new(0, seed_hash, 0, producer, [], sk)`;
its hash and draw value are what the signing primitives return. -/
def genesisBlock (producer seedHash hash value : Nat) : Block :=
  { timeslot := 0, prevHash := seedHash, depth := 0, draw := ⟨0, producer, seedHash, value⟩,
    transactions := [], hash }

/-- The ledger `start` builds: `ROOT_AMOUNT` credited to each root account in turn. -/
def genesisLedger (rootAccounts : List Nat) : Ledger :=
  rootAccounts.foldl (fun ledger account => ledger.rewardWinner account rootAmount) Ledger.new

/-- `Blockchain::start`; `root_accounts.get(0).unwrap()` panics without a root account. -/
def start (rootAccounts : List Nat) (seedHash hash value : Nat) : Except Panic Blockchain :=
  match rootAccounts.head? with
  | none => .error .unwrapNone
  | some producer =>
    let block := genesisBlock producer seedHash hash value
    .ok { blocks := [[(block.hash, block)]], bestPathHead := (block.hash, 0),
          ledger := genesisLedger rootAccounts, rootAccounts, orphans := [],
          transactionBuffer := [] }

theorem start_ok {rootAccounts : List Nat} {seedHash hash value : Nat} {s : Blockchain}
    (h : start rootAccounts seedHash hash value = .ok s) :
    ∃ p, rootAccounts.head? = some p ∧
      s = { blocks := [[(hash, genesisBlock p seedHash hash value)]], bestPathHead := (hash, 0),
            ledger := genesisLedger rootAccounts, rootAccounts, orphans := [], transactionBuffer := [] } := by
  unfold start at h
  split at h
  · cases h
  · cases h
    exact ⟨_, ‹_›, rfl⟩

theorem mem_levelAt_single {hash d : Nat} {g : Block} {e : Nat × Block} :
    e ∈ levelAt [[(hash, g)]] d ↔ d = 0 ∧ e = (hash, g) := by
  cases d <;> simp [levelAt]

namespace Blockchain

/-- `while depth >= self.blocks.len() { self.blocks.push(HashMap::new()) }`. -/
def grow (s : Blockchain) (depth : Nat) : Blockchain :=
  { s with blocks := s.blocks ++ List.replicate (depth + 1 - s.blocks.length) [] }

/-- `self.blocks.get_mut(depth).expect("unreachable").insert(block.hash, block)`. -/
def insertBlock (s : Blockchain) (block : Block) : Except Panic Blockchain :=
  match s.blocks[block.depth]? with
  | none => .error .unwrapNone
  | some level => .ok { s with blocks := s.blocks.set block.depth (upsert level block.hash block) }

/-- `for t in transactions { self.transaction_buffer.remove(t) }`. -/
def removeTransactions (s : Blockchain) (transactions : List Transaction) : Blockchain :=
  { s with transactionBuffer :=
      transactions.foldl (fun buffer t => buffer.filter (· != t)) s.transactionBuffer }

/-- Park an orphan under its missing parent: push onto `orphans[prev_hash]`, or start it. -/
def park (s : Blockchain) (block : Block) : Blockchain :=
  { s with orphans :=
      upsert s.orphans block.prevHash ((s.orphans.lookup block.prevHash).getD [] ++ [block]) }

/-- `self.orphans.remove(&hash)`: the children parked under `hash`, and the state without them. -/
def takeOrphans (s : Blockchain) (hash : Nat) : List Block × Blockchain :=
  ((s.orphans.lookup hash).getD [], { s with orphans := eraseKey s.orphans hash })

/-- The number of parked blocks, each counted once. -/
def orphanCount (s : Blockchain) : Nat := (s.orphans.map (·.2.length)).sum

@[simp] theorem grow_blocks (s : Blockchain) (depth : Nat) :
    (s.grow depth).blocks = s.blocks ++ List.replicate (depth + 1 - s.blocks.length) [] := rfl

@[simp] theorem removeTransactions_blocks (s : Blockchain) (ts : List Transaction) :
    (s.removeTransactions ts).blocks = s.blocks := rfl

@[simp] theorem removeTransactions_orphans (s : Blockchain) (ts : List Transaction) :
    (s.removeTransactions ts).orphans = s.orphans := rfl

@[simp] theorem removeTransactions_bestPathHead (s : Blockchain) (ts : List Transaction) :
    (s.removeTransactions ts).bestPathHead = s.bestPathHead := rfl

@[simp] theorem removeTransactions_rootAccounts (s : Blockchain) (ts : List Transaction) :
    (s.removeTransactions ts).rootAccounts = s.rootAccounts := rfl

@[simp] theorem park_rootAccounts (s : Blockchain) (block : Block) :
    (s.park block).rootAccounts = s.rootAccounts := rfl

@[simp] theorem park_blocks (s : Blockchain) (block : Block) : (s.park block).blocks = s.blocks := rfl

@[simp] theorem park_bestPathHead (s : Blockchain) (block : Block) :
    (s.park block).bestPathHead = s.bestPathHead := rfl

@[simp] theorem takeOrphans_blocks (s : Blockchain) (hash : Nat) :
    (s.takeOrphans hash).2.blocks = s.blocks := rfl

@[simp] theorem takeOrphans_bestPathHead (s : Blockchain) (hash : Nat) :
    (s.takeOrphans hash).2.bestPathHead = s.bestPathHead := rfl

@[simp] theorem removeTransactions_ledger (s : Blockchain) (ts : List Transaction) :
    (s.removeTransactions ts).ledger = s.ledger := rfl

@[simp] theorem park_ledger (s : Blockchain) (block : Block) : (s.park block).ledger = s.ledger := rfl

@[simp] theorem takeOrphans_ledger (s : Blockchain) (hash : Nat) :
    (s.takeOrphans hash).2.ledger = s.ledger := rfl

theorem orphanCount_park_le (s : Blockchain) (block : Block) :
    (s.park block).orphanCount ≤ s.orphanCount + 1 := by
  have erased := sum_eraseKey_add_lookup_le s.orphans block.prevHash
  simp only [orphanCount, park, upsert, List.map_cons, List.sum_cons, List.length_append,
    List.length_singleton] at erased ⊢
  unfold eraseKey at erased
  omega

theorem orphanCount_takeOrphans (s : Blockchain) (hash : Nat) :
    (s.takeOrphans hash).2.orphanCount + (s.takeOrphans hash).1.length ≤ s.orphanCount :=
  sum_eraseKey_add_lookup_le s.orphans hash

theorem grow_insertBlock (s : Blockchain) (b : Block) :
    (s.grow b.depth).insertBlock b = .ok { s with
      blocks := (s.grow b.depth).blocks.set b.depth (upsert (levelAt s.blocks b.depth) b.hash b) } := by
  have inRange : b.depth < (s.grow b.depth).blocks.length := by simp; omega
  rw [insertBlock, getElem?_eq_levelAt inRange, grow_blocks, levelAt_append_replicate]
  rfl

theorem levelAt_stored {s s' : Blockchain} {b : Block} (h : (s.grow b.depth).insertBlock b = .ok s')
    (d : Nat) : levelAt s'.blocks d =
      if d = b.depth then upsert (levelAt s.blocks b.depth) b.hash b else levelAt s.blocks d := by
  rw [grow_insertBlock] at h
  cases h
  have inRange : b.depth < (s.grow b.depth).blocks.length := by simp; omega
  rw [levelAt_set _ inRange, grow_blocks, levelAt_append_replicate]

theorem length_stored {s s' : Blockchain} {b : Block} (h : (s.grow b.depth).insertBlock b = .ok s') :
    s'.blocks.length = max s.blocks.length (b.depth + 1) := by
  rw [grow_insertBlock] at h
  cases h
  simp only [List.length_set, grow_blocks, List.length_append, List.length_replicate]
  omega

theorem stored_frame {s s' : Blockchain} {b : Block} (h : (s.grow b.depth).insertBlock b = .ok s') :
    s'.bestPathHead = s.bestPathHead ∧ s'.orphans = s.orphans ∧ s'.ledger = s.ledger ∧
      s'.rootAccounts = s.rootAccounts ∧ s'.transactionBuffer = s.transactionBuffer := by
  rw [grow_insertBlock] at h
  cases h
  exact ⟨rfl, rfl, rfl, rfl, rfl⟩

end Blockchain

end Lassecoin.Chain.State
