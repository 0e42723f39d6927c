import Fastbook.Common.Types
import Mathlib.Data.Nat.Bitwise

/-!
# Shards

The constants of `common/event_queue.hpp` and the choice of the shard of an
instrument.  The number of shards is a power of two.
-/

namespace Fastbook

/-- `N_SHARDS`, for the exponent `k`. -/
def nShards (k : ℕ) : UInt32 :=
  UInt32.ofNat (2 ^ k)

/-- `instrument & (N_SHARDS - 1)`. -/
def shardOf (k : ℕ) (instrument : Instrument) : UInt32 :=
  instrument &&& (nShards k - 1)

theorem toNat_shardOf {k : ℕ} (hk : k < 32) (instrument : Instrument) :
    (shardOf k instrument).toNat = instrument.toNat % 2 ^ k := by
  have hpow : 2 ^ k < 2 ^ 32 := Nat.pow_lt_pow_right (by decide) hk
  have hpos : 0 < 2 ^ k := Nat.two_pow_pos k
  have hshards : (nShards k).toNat = 2 ^ k := by
    rw [nShards, UInt32.toNat_ofNat']
    exact Nat.mod_eq_of_lt hpow
  have hmask : (nShards k - 1).toNat = 2 ^ k - 1 := by
    rw [UInt32.toNat_sub_of_le _ _ (by
      change (1 : UInt32).toNat ≤ (nShards k).toNat
      rw [hshards]
      exact hpos), hshards]
    rfl
  rw [shardOf, UInt32.toNat_and, hmask, Nat.and_two_pow_sub_one_eq_mod]

end Fastbook
