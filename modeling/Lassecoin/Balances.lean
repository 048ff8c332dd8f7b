import Lassecoin.Types

/-!
# The ledger

The `ledger` module is not part of the source tree, so the ledger is modelled from the spec
(§4.1). Balances are a map from account to `u64`, a missing entry being a balance of zero.
For the replay guard, the ledger keeps per sender the timeslots of its applied transactions,
newest first: the head is the sender's high-water mark, and rolling a transaction back pops it,
which restores the prior mark.

Applying a transaction that fails leaves the ledger as it was. Rolling one back credits the
sender before it debits the receiver, and a debit below zero panics, as a `u64` does.
-/

set_option autoImplicit false
set_option relaxedAutoImplicit false

namespace Lassecoin.Balances

open Lassecoin.Types

/-- Modelled from the spec: `Ledger`, balances and the applied timeslots of each sender. -/
structure Ledger where
  map : List (Nat × Nat)
  slots : List (Nat × List Nat)
  deriving DecidableEq, Repr

namespace Ledger

/-- Modelled from the spec: `Ledger::new()`, with no accounts. -/
def new : Ledger := ⟨[], []⟩

/-- Modelled from the spec: `get_balance`, zero for an account without an entry. -/
def getBalance (l : Ledger) (a : Nat) : Nat := (l.map.lookup a).getD 0

/-- The timeslots of the sender's applied transactions, newest first. -/
def history (l : Ledger) (a : Nat) : List Nat := (l.slots.lookup a).getD []

/-- Store a balance. -/
def setBalance (l : Ledger) (a v : Nat) : Ledger := { l with map := upsert l.map a v }

/-- Store the applied timeslots of a sender. -/
def setHistory (l : Ledger) (a : Nat) (slots : List Nat) : Ledger := { l with slots := upsert l.slots a slots }

/-- Modelled from the spec: `reward_winner`, an unconditional credit. -/
def rewardWinner (l : Ledger) (a amount : Nat) : Ledger := l.setBalance a (l.getBalance a + amount)

/-- A `u64` debit: below zero it panics. -/
def debit (l : Ledger) (a amount : Nat) : Except Panic Ledger :=
  if amount ≤ l.getBalance a then .ok (l.setBalance a (l.getBalance a - amount))
  else .error .balanceUnderflow

/-- Modelled from the spec: `rollback_reward`, taking `BLOCK_REWARD` back from an account. -/
def rollbackReward (l : Ledger) (a : Nat) : Except Panic Ledger := l.debit a blockReward

/-- Modelled from the spec: `is_transaction_possible`, the three conditions of applying. -/
def isTransactionPossible (C : Crypto) (l : Ledger) (t : Transaction) : Bool :=
  C.verifyTransaction t && decide (t.amount + transactionFee ≤ l.getBalance t.sender) &&
    (l.history t.sender).head?.all (· < t.timeslot)

/-- Modelled from the spec: `process_transaction`; a failure leaves the ledger untouched. -/
def processTransaction (C : Crypto) (l : Ledger) (t : Transaction) : Ledger × Bool :=
  if l.isTransactionPossible C t then
    let paid := l.setBalance t.sender (l.getBalance t.sender - (t.amount + transactionFee))
    ((paid.rewardWinner t.receiver t.amount).setHistory t.sender (t.timeslot :: l.history t.sender), true)
  else (l, false)

/-- Modelled from the spec: `rollback_transaction`, the inverse of applying `t`. -/
def rollbackTransaction (l : Ledger) (t : Transaction) : Except Panic Ledger := do
  let refunded := l.rewardWinner t.sender (t.amount + transactionFee)
  let taken ← refunded.debit t.receiver t.amount
  pure (taken.setHistory t.sender (l.history t.sender).tail)

/-- Modelled from the spec: `get_total_money_in_ledger`, the sum of all balances. -/
def getTotalMoneyInLedger (l : Ledger) : Nat := (l.map.map Prod.snd).sum

/-- The accounts a ledger binds, in both of its maps, with repeats. -/
def keys (l : Ledger) : List Nat := l.map.map Prod.fst ++ l.slots.map Prod.fst

/-- Modelled from the spec: `==` on ledgers, the same balance and the same applied timeslots for
every account, a missing entry reading as a zero balance with no history. -/
def sameAs (l l' : Ledger) : Bool :=
  (l.keys ++ l'.keys).all fun a => l.getBalance a == l'.getBalance a && l.history a == l'.history a

@[simp] theorem getBalance_new (a : Nat) : new.getBalance a = 0 := rfl

@[simp] theorem getBalance_setBalance (l : Ledger) (a b v : Nat) :
    (l.setBalance a v).getBalance b = if b = a then v else l.getBalance b := by
  by_cases hb : b = a <;> simp [getBalance, setBalance, hb]

@[simp] theorem history_setBalance (l : Ledger) (a v : Nat) :
    (l.setBalance a v).history = l.history := rfl

@[simp] theorem getBalance_setHistory (l : Ledger) (a : Nat) (slots : List Nat) :
    (l.setHistory a slots).getBalance = l.getBalance := rfl

@[simp] theorem history_setHistory (l : Ledger) (a b : Nat) (slots : List Nat) :
    (l.setHistory a slots).history b = if b = a then slots else l.history b := by
  by_cases hb : b = a <;> simp [history, setHistory, hb]

@[simp] theorem getBalance_rewardWinner (l : Ledger) (a b amount : Nat) :
    (l.rewardWinner a amount).getBalance b = if b = a then l.getBalance a + amount else l.getBalance b := by
  simp [rewardWinner]

@[simp] theorem history_rewardWinner (l : Ledger) (a amount : Nat) :
    (l.rewardWinner a amount).history = l.history := rfl

private theorem processTransaction_of_not_possible {C : Crypto} {l : Ledger} {t : Transaction}
    (impossible : l.isTransactionPossible C t = false) : l.processTransaction C t = (l, false) := by
  simp [processTransaction, impossible]

theorem possible_of_applied {C : Crypto} {l : Ledger} {t : Transaction}
    (applied : (l.processTransaction C t).2 = true) : l.isTransactionPossible C t = true := by
  by_contra impossible
  rw [processTransaction_of_not_possible (by simpa using impossible)] at applied
  cases applied

theorem processTransaction_of_possible {C : Crypto} {l : Ledger} {t : Transaction}
    (possible : l.isTransactionPossible C t = true) :
    l.processTransaction C t = (((l.setBalance t.sender (l.getBalance t.sender - (t.amount + transactionFee))).rewardWinner
      t.receiver t.amount).setHistory t.sender (t.timeslot :: l.history t.sender), true) := by
  simp [processTransaction, possible]

theorem funded_of_possible {C : Crypto} {l : Ledger} {t : Transaction} (possible : l.isTransactionPossible C t = true) :
    t.amount + transactionFee ≤ l.getBalance t.sender := by
  simp only [isTransactionPossible, Bool.and_eq_true, decide_eq_true_eq] at possible
  exact possible.1.2

theorem processTransaction_eq_or (C : Crypto) (l : Ledger) (t : Transaction) :
    l.processTransaction C t = (l, false) ∨ (l.processTransaction C t).2 = true := by
  cases possible : l.isTransactionPossible C t
  · exact .inl (processTransaction_of_not_possible possible)
  · simp [processTransaction, possible]

/-! ## Ledger equality

`sameAs` reads a ledger only through `getBalance` and `history`, so it is an equivalence, and
every operation of the ledger reads the same on ledgers it equates. -/

theorem sameAs_iff (l l' : Ledger) : l.sameAs l' = true ↔
    ∀ a, l.getBalance a = l'.getBalance a ∧ l.history a = l'.history a := by
  simp only [sameAs, List.all_eq_true, Bool.and_eq_true, beq_iff_eq]
  refine ⟨fun agree a => ?_, fun agree a _ => agree a⟩
  by_cases listed : a ∈ l.keys ++ l'.keys
  · exact agree a listed
  · simp only [keys, List.mem_append, not_or] at listed
    simp only [getBalance, history, lookup_eq_none_of_not_mem listed.1.1, lookup_eq_none_of_not_mem listed.2.1,
      lookup_eq_none_of_not_mem listed.1.2, lookup_eq_none_of_not_mem listed.2.2, and_self]

theorem getBalance_eq_of_sameAs {l l' : Ledger} (same : l.sameAs l' = true) (a : Nat) :
    l.getBalance a = l'.getBalance a :=
  ((sameAs_iff l l').1 same a).1

private theorem history_eq_of_sameAs {l l' : Ledger} (same : l.sameAs l' = true) (a : Nat) :
    l.history a = l'.history a :=
  ((sameAs_iff l l').1 same a).2

theorem sameAs_refl (l : Ledger) : l.sameAs l = true := (sameAs_iff l l).2 fun _ => ⟨rfl, rfl⟩

theorem sameAs_trans {l l' l'' : Ledger} (same : l.sameAs l' = true) (same' : l'.sameAs l'' = true) :
    l.sameAs l'' = true :=
  (sameAs_iff l l'').2 fun a => ⟨(getBalance_eq_of_sameAs same a).trans (getBalance_eq_of_sameAs same' a),
    (history_eq_of_sameAs same a).trans (history_eq_of_sameAs same' a)⟩

section Congr

variable {l l' : Ledger} (same : l.sameAs l' = true)
include same

private theorem sameAs_setBalance (a v : Nat) : (l.setBalance a v).sameAs (l'.setBalance a v) = true :=
  (sameAs_iff _ _).2 fun b => by simp [getBalance_eq_of_sameAs same, history_eq_of_sameAs same]

private theorem sameAs_setHistory (a : Nat) (slots : List Nat) :
    (l.setHistory a slots).sameAs (l'.setHistory a slots) = true :=
  (sameAs_iff _ _).2 fun b => by simp [getBalance_eq_of_sameAs same, history_eq_of_sameAs same]

theorem sameAs_rewardWinner (a amount : Nat) :
    (l.rewardWinner a amount).sameAs (l'.rewardWinner a amount) = true := by
  rw [rewardWinner, rewardWinner, getBalance_eq_of_sameAs same]
  exact sameAs_setBalance same _ _

private theorem isTransactionPossible_congr (C : Crypto) (t : Transaction) :
    l.isTransactionPossible C t = l'.isTransactionPossible C t := by
  simp only [isTransactionPossible, getBalance_eq_of_sameAs same, history_eq_of_sameAs same]

theorem sameAs_processTransaction (C : Crypto) (t : Transaction) :
    (l.processTransaction C t).1.sameAs (l'.processTransaction C t).1 = true ∧
      (l.processTransaction C t).2 = (l'.processTransaction C t).2 := by
  simp only [processTransaction, isTransactionPossible_congr same]
  split
  · rw [getBalance_eq_of_sameAs same, history_eq_of_sameAs same]
    exact ⟨sameAs_setHistory (sameAs_rewardWinner (sameAs_setBalance same _ _) _ _) _ _, rfl⟩
  · exact ⟨same, rfl⟩

theorem sameAs_rollbackTransaction {t : Transaction} {x : Ledger} (h : l'.rollbackTransaction t = .ok x) :
    ∃ y, l.rollbackTransaction t = .ok y ∧ y.sameAs x = true := by
  have refunded := sameAs_rewardWinner same t.sender (t.amount + transactionFee)
  simp only [rollbackTransaction, debit, getBalance_eq_of_sameAs refunded, history_eq_of_sameAs same] at h ⊢
  split at h
  · cases h
    rw [if_pos ‹_›]
    exact ⟨_, rfl, sameAs_setHistory (sameAs_setBalance refunded _ _) _ _⟩
  · cases h

end Congr

/-! ## Rolling back is the inverse of applying -/

/-- Rolling back a transaction that was applied gives back the ledger it was applied to. -/
theorem rollbackTransaction_processTransaction {C : Crypto} {l : Ledger} {t : Transaction}
    (applied : (l.processTransaction C t).2 = true) :
    ∃ l', (l.processTransaction C t).1.rollbackTransaction t = .ok l' ∧ l'.sameAs l = true := by
  have possible := possible_of_applied applied
  have funded := funded_of_possible possible
  simp only [processTransaction_of_possible possible, rollbackTransaction, debit, bind, Except.bind]
  rw [if_pos (by by_cases hr : t.receiver = t.sender <;> simp [hr]; omega)]
  refine ⟨_, rfl, (sameAs_iff _ _).2 fun a => ?_⟩
  by_cases hs : a = t.sender <;> by_cases hr : a = t.receiver
  · subst hs
    simp [← hr]
    omega
  · subst hs
    simp [hr, Ne.symm hr]
    omega
  · subst hr
    simp [hs, Ne.symm hs]
  · simp [hs, hr]

/-- Spec §4.1 and §8.2: rolling back a transaction that was applied gives back the ledger it was
applied to, and so does taking back a block reward after crediting it. -/
theorem rollback_inverts_apply (C : Crypto) (l : Ledger) (t : Transaction) (producer : Nat)
    (applied : (l.processTransaction C t).2 = true) :
    (∃ l', (l.processTransaction C t).1.rollbackTransaction t = .ok l' ∧ l'.sameAs l = true) ∧
      ∃ l', (l.rewardWinner producer blockReward).rollbackReward producer = .ok l' ∧ l'.sameAs l = true :=
  ⟨rollbackTransaction_processTransaction applied, _, if_pos (by simp),
    (sameAs_iff _ _).2 fun a => by by_cases ha : a = producer <;> simp [ha]⟩

/-- The ledger of a single holder of `ROOT_AMOUNT`. -/
def holderLedger : Ledger := new.rewardWinner 1 rootAmount

/-- A transfer of 10 from the holder to account 2, which holds nothing. -/
def holderTransfer : Transaction := ⟨1, 2, 10, 1⟩

theorem rollback_inverts_apply_on_transfer :
    (holderLedger.processTransaction ⟨fun _ => true, fun _ => true⟩ holderTransfer).2 = true ∧
      (∃ l', (holderLedger.processTransaction ⟨fun _ => true, fun _ => true⟩ holderTransfer).1.rollbackTransaction
          holderTransfer = .ok l' ∧ l'.sameAs holderLedger = true) ∧
      ∃ l', (holderLedger.rewardWinner 1 blockReward).rollbackReward 1 = .ok l' ∧ l'.sameAs holderLedger = true :=
  ⟨rfl, rollback_inverts_apply _ _ _ 1 rfl⟩

end Ledger

end Lassecoin.Balances
