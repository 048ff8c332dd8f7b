import Lassecoin.Balances

/-!
# The stake lottery

`is_winner` of `lib.rs`, evaluated in unbounded precision as the source does with `BigUint`.
A draw value is a 256-bit hash; the producer wins when the value, scaled by the producer's share
of the money plus a floor of `hardness`, beats the fixed target `hardness · 2^256`.
The `always_win` test feature, which makes every draw win, is not modelled.
-/

set_option autoImplicit false
set_option relaxedAutoImplicit false

namespace Lassecoin.Lottery

open Lassecoin.Types Lassecoin.Balances

/-- `hardness` in `is_winner`: the whole network wins a timeslot with a chance of about 10%. -/
def hardness : Nat := 10421 * 10 ^ 73

/-- `max_hash` in `is_winner`, the number of draw values. -/
def maxHash : Nat := 2 ^ 256

/-- `is_winner`: whether `wallet`'s draw wins against the stake recorded in `ledger`. -/
def isWinner (ledger : Ledger) (draw : Draw) (wallet : Nat) : Bool :=
  let balance := ledger.getBalance wallet
  let totalMoney := ledger.getTotalMoneyInLedger
  let multFactor := hardness * totalMoney + balance * (maxHash - hardness)
  decide (hardness * totalMoney * maxHash < draw.value * multFactor)

/-! ## The laws of the lottery

With the balance `b` and the total `T` the ledger records, `is_winner` compares
`hardness · T · 2^256` with `value · (hardness · T + b · (2^256 - hardness))`. A draw value is
below `2^256`, so a wallet without stake never wins; the right side grows with the value and the
balance; and a wallet that holds all the money wins exactly when its value exceeds `hardness`. -/

private theorem hardness_lt_maxHash : hardness < maxHash := by decide

theorem isWinner_iff (ledger : Ledger) (draw : Draw) (wallet : Nat) :
    isWinner ledger draw wallet = true ↔
      hardness * ledger.getTotalMoneyInLedger * maxHash < draw.value *
        (hardness * ledger.getTotalMoneyInLedger + ledger.getBalance wallet * (maxHash - hardness)) := by
  simp [isWinner]

private theorem isWinner_of_zero_balance {ledger : Ledger} {draw : Draw} {wallet : Nat} (bounded : draw.value < maxHash)
    (broke : ledger.getBalance wallet = 0) : isWinner ledger draw wallet = false := by
  rw [← Bool.not_eq_true, isWinner_iff, broke, Nat.zero_mul, Nat.add_zero, Nat.not_lt]
  calc draw.value * (hardness * ledger.getTotalMoneyInLedger)
      ≤ maxHash * (hardness * ledger.getTotalMoneyInLedger) := Nat.mul_le_mul_right _ bounded.le
    _ = hardness * ledger.getTotalMoneyInLedger * maxHash := Nat.mul_comm _ _

private theorem isWinner_mono {ledger ledger' : Ledger} {draw draw' : Draw} {wallet wallet' : Nat}
    (won : isWinner ledger draw wallet = true) (sameTotal : ledger'.getTotalMoneyInLedger = ledger.getTotalMoneyInLedger)
    (richer : ledger.getBalance wallet ≤ ledger'.getBalance wallet') (higher : draw.value ≤ draw'.value) :
    isWinner ledger' draw' wallet' = true := by
  rw [isWinner_iff] at won ⊢
  rw [sameTotal]
  exact won.trans_le (Nat.mul_le_mul higher (Nat.add_le_add_left (Nat.mul_le_mul_right _ richer) _))

private theorem isWinner_of_whole_stake {ledger : Ledger} {draw : Draw} {wallet : Nat}
    (whole : ledger.getBalance wallet = ledger.getTotalMoneyInLedger) (positive : 0 < ledger.getTotalMoneyInLedger) :
    isWinner ledger draw wallet = true ↔ hardness < draw.value := by
  have factor : hardness * ledger.getTotalMoneyInLedger + ledger.getTotalMoneyInLedger * (maxHash - hardness) =
      ledger.getTotalMoneyInLedger * maxHash := by
    rw [Nat.mul_comm hardness, ← Nat.mul_add, Nat.add_sub_cancel' hardness_lt_maxHash.le]
  rw [isWinner_iff, whole, factor, Nat.mul_assoc]
  exact Nat.mul_lt_mul_right (Nat.mul_pos positive (by decide))

/-- The lottery laws for a draw value below `2^256`: no stake never wins, more stake or a higher
value against the same total keeps a win, and the holder of all the money wins exactly above
`hardness`. -/
theorem stake_lottery_sound (ledger : Ledger) (wallet : Nat) (draw : Draw) (bounded : draw.value < maxHash) :
    (ledger.getBalance wallet = 0 → isWinner ledger draw wallet = false) ∧
    (isWinner ledger draw wallet = true → ∀ (ledger' : Ledger) (wallet' : Nat) (draw' : Draw),
      ledger'.getTotalMoneyInLedger = ledger.getTotalMoneyInLedger →
      ledger.getBalance wallet ≤ ledger'.getBalance wallet' → draw.value ≤ draw'.value →
      isWinner ledger' draw' wallet' = true) ∧
    (ledger.getBalance wallet = ledger.getTotalMoneyInLedger → 0 < ledger.getBalance wallet →
      (isWinner ledger draw wallet = true ↔ hardness < draw.value)) :=
  ⟨isWinner_of_zero_balance bounded, fun won _ _ _ sameTotal richer higher =>
    isWinner_mono won sameTotal richer higher, fun whole positive => isWinner_of_whole_stake whole (whole ▸ positive)⟩

/-- A ledger in which account 1 holds all 300 coins. -/
def soleHolderLedger : Ledger := Ledger.new.rewardWinner 1 300

theorem sole_holder_wins_above_hardness :
    isWinner soleHolderLedger ⟨1, 1, 100, hardness + 1⟩ 1 = true ∧ isWinner soleHolderLedger ⟨1, 1, 100, hardness⟩ 1 = false :=
  ⟨((stake_lottery_sound soleHolderLedger 1 ⟨1, 1, 100, hardness + 1⟩ (by decide)).2.2 (by decide) (by decide)).2
      (Nat.lt_succ_self _),
    Bool.eq_false_iff.2 fun won => Nat.lt_irrefl hardness
      (((stake_lottery_sound soleHolderLedger 1 ⟨1, 1, 100, hardness⟩ (by decide)).2.2 (by decide) (by decide)).1 won)⟩

end Lassecoin.Lottery
