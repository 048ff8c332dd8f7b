import Mathlib

/-!
# Accounts, transactions, draws and blocks

The value types of the chain engine: the constants of `lib.rs` and the records of the
`transaction`, `draw` and `block` modules, which are not part of the source tree. Public keys,
hashes (`[u8; 32]` read big-endian), timeslots, depths and balances are natural numbers.
Signatures are not data here: whether one verifies is asked of `Crypto`, the black-box
primitives of the spec.

The engine's `HashMap`s are association lists whose newest binding of a key comes first
(`upsert`); `lookup` then reads them as the map does.

Arithmetic follows a build with overflow checks: a `u64` or `usize` subtraction below zero, or
an `unwrap` of a missing entry, panics, and `Panic` says which.
-/

set_option autoImplicit false
set_option relaxedAutoImplicit false

namespace Lassecoin.Types

/-- `TRANSACTION_FEE`, burned by every applied transaction. -/
def transactionFee : Nat := 1

/-- `BLOCK_REWARD`, credited to the producer of every block on the best path. -/
def blockReward : Nat := 50

/-- `ROOT_AMOUNT`, credited to every root account at genesis. -/
def rootAmount : Nat := 300

/-- A transfer `{ from, to, amount, timeslot }`; its signature is judged by `Crypto`. -/
structure Transaction where
  sender : Nat
  receiver : Nat
  amount : Nat
  timeslot : Nat
  deriving DecidableEq, Repr

/-- A staking draw; `value` is the hash of its signature, the number the lottery reads. -/
structure Draw where
  timeslot : Nat
  signedBy : Nat
  prevHash : Nat
  value : Nat
  deriving DecidableEq, Repr

/-- A block. Its producer is `draw.signedBy`, and `hash` is the key the tree stores it under. -/
structure Block where
  timeslot : Nat
  prevHash : Nat
  depth : Nat
  draw : Draw
  transactions : List Transaction
  hash : Nat
  deriving DecidableEq, Repr

/-- The signature checks the engine calls: `Block::verify_signature` and
`Transaction::verify_signature`. -/
structure Crypto where
  verifyBlock : Block → Bool
  verifyTransaction : Transaction → Bool

/-- Why a call panics. -/
inductive Panic where
  /-- `attempt to subtract with overflow` on a depth (`usize` or `u64`). -/
  | depthUnderflow
  /-- `attempt to subtract with overflow` on a `u64` balance. -/
  | balanceUnderflow
  /-- `unwrap` or `expect` on an absent level, block or root account. -/
  | unwrapNone
  /-- The fuel of a loop ran out before the loop ended. -/
  | outOfFuel
  deriving DecidableEq, Repr

theorem bind_eq_ok {ε α β : Type} {x : Except ε α} {f : α → Except ε β} {b : β} :
    x >>= f = .ok b ↔ ∃ a, x = .ok a ∧ f a = .ok b := by
  cases x <;> simp [bind, Except.bind]

/-- Modelled from the spec: `Block::is_better_than` (§4.2) prefers the higher draw value and,
on a tie, the lexicographically higher hash. -/
def Block.isBetterThan (b c : Block) : Bool :=
  decide (c.draw.value < b.draw.value) || (decide (c.draw.value = b.draw.value) && decide (c.hash < b.hash))

theorem isBetterThan_iff (b c : Block) : b.isBetterThan c = true ↔
    c.draw.value < b.draw.value ∨ (c.draw.value = b.draw.value ∧ c.hash < b.hash) := by
  simp [Block.isBetterThan]

theorem isBetterThan_irrefl (b : Block) : b.isBetterThan b = false := by
  simp [Block.isBetterThan]

theorem isBetterThan_trans {a b c : Block} (hab : a.isBetterThan b = true)
    (hbc : b.isBetterThan c = true) : a.isBetterThan c = true := by
  rw [isBetterThan_iff] at *
  omega

theorem isBetterThan_asymm {b c : Block} (hbc : b.isBetterThan c = true) :
    c.isBetterThan b = false := by
  rw [isBetterThan_iff] at hbc
  simp only [Block.isBetterThan, Bool.or_eq_false_iff, Bool.and_eq_false_imp, decide_eq_false_iff_not,
    decide_eq_true_eq]
  omega

theorem isBetterThan_total {b c : Block} (hash_ne : b.hash ≠ c.hash) :
    b.isBetterThan c = true ∨ c.isBetterThan b = true := by
  simp only [isBetterThan_iff]
  omega

/-! ## Association lists -/

section Assoc

variable {κ ν : Type} [DecidableEq κ]

/-- `HashMap::insert`: the new binding replaces any binding of the key. -/
def upsert (m : List (κ × ν)) (k : κ) (v : ν) : List (κ × ν) :=
  (k, v) :: m.filter (fun e => !(e.1 == k))

/-- `HashMap::remove`, keeping only the other keys. -/
def eraseKey (m : List (κ × ν)) (k : κ) : List (κ × ν) :=
  m.filter (fun e => !(e.1 == k))

private theorem lookup_cons_ne {m : List (κ × ν)} {a k' : κ} (b : ν) (hk : k' ≠ a) :
    ((a, b) :: m).lookup k' = m.lookup k' := by
  simp [List.lookup_cons, beq_eq_false_iff_ne.mpr hk]

@[simp] theorem lookup_eraseKey (m : List (κ × ν)) (k k' : κ) :
    (eraseKey m k).lookup k' = if k' = k then none else m.lookup k' := by
  induction m with
  | nil => simp [eraseKey]
  | cons e m ih =>
    obtain ⟨a, b⟩ := e
    unfold eraseKey at ih ⊢
    by_cases hak : a = k
    · subst hak
      rw [List.filter_cons_of_neg (by simp), ih]
      by_cases hk : k' = a
      · simp [hk]
      · simp [hk, lookup_cons_ne b hk]
    · rw [List.filter_cons_of_pos (by simpa using hak)]
      by_cases hk : k' = a
      · subst hk
        simp [List.lookup_cons, hak]
      · rw [lookup_cons_ne b hk, lookup_cons_ne b hk, ih]

@[simp] theorem lookup_upsert (m : List (κ × ν)) (k k' : κ) (v : ν) :
    (upsert m k v).lookup k' = if k' = k then some v else m.lookup k' := by
  by_cases hk : k' = k
  · simp [upsert, List.lookup_cons, hk]
  · have erased := lookup_eraseKey m k k'
    rw [if_neg hk] at erased
    rw [upsert, lookup_cons_ne v hk, if_neg hk]
    exact erased

theorem mem_eraseKey {m : List (κ × ν)} {k : κ} {e : κ × ν} :
    e ∈ eraseKey m k ↔ e ∈ m ∧ e.1 ≠ k := by
  simp [eraseKey]

theorem mem_upsert {m : List (κ × ν)} {k : κ} {v : ν} {e : κ × ν} :
    e ∈ upsert m k v ↔ e = (k, v) ∨ (e ∈ m ∧ e.1 ≠ k) := by
  simp [upsert]

theorem mem_of_lookup_eq_some {m : List (κ × ν)} {k : κ} {v : ν} (found : m.lookup k = some v) :
    (k, v) ∈ m := by
  induction m with
  | nil => simp at found
  | cons e m ih =>
    obtain ⟨a, b⟩ := e
    by_cases hk : k = a
    · subst hk
      simp_all [List.lookup_cons]
    · rw [lookup_cons_ne b hk] at found
      exact List.mem_cons_of_mem _ (ih found)

theorem exists_lookup_of_mem {m : List (κ × ν)} {k : κ} {v : ν} (member : (k, v) ∈ m) :
    ∃ w, m.lookup k = some w := by
  induction m with
  | nil => simp at member
  | cons e m ih =>
    obtain ⟨a, b⟩ := e
    by_cases hk : k = a
    · subst hk
      exact ⟨b, by simp [List.lookup_cons]⟩
    · rw [lookup_cons_ne b hk]
      exact ih (by simpa [hk] using member)

theorem lookup_eq_none_of_not_mem {m : List (κ × ν)} {k : κ} (absent : k ∉ m.map Prod.fst) :
    m.lookup k = none := by
  cases found : m.lookup k with
  | none => rfl
  | some v => exact absurd (List.mem_map.2 ⟨(k, v), mem_of_lookup_eq_some found, rfl⟩) absent

theorem exists_mem_of_mem_lookup {α : Type} {m : List (κ × List α)} {k : κ} {a : α}
    (member : a ∈ (m.lookup k).getD []) : ∃ l, (k, l) ∈ m ∧ a ∈ l := by
  cases found : m.lookup k with
  | none => simp [found] at member
  | some l => exact ⟨l, mem_of_lookup_eq_some found, by simpa [found] using member⟩

theorem sum_eraseKey_add_lookup_le {α : Type} (m : List (κ × List α)) (k : κ) :
    ((eraseKey m k).map (·.2.length)).sum + ((m.lookup k).getD []).length ≤ (m.map (·.2.length)).sum := by
  induction m with
  | nil => simp [eraseKey]
  | cons e m ih =>
    obtain ⟨a, l⟩ := e
    by_cases hk : k = a
    · subst hk
      simp only [eraseKey, List.filter_cons, beq_self_eq_true, Bool.not_true, List.lookup_cons,
        Option.getD_some, List.map_cons, List.sum_cons] at ih ⊢
      simp only [Bool.false_eq_true, if_false]
      omega
    · rw [lookup_cons_ne l hk]
      simp only [eraseKey, List.filter_cons, List.map_cons, List.sum_cons] at ih ⊢
      rw [if_pos (by simpa using Ne.symm hk)]
      simp only [List.map_cons, List.sum_cons]
      omega

end Assoc

end Lassecoin.Types
