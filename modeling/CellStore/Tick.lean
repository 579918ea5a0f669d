/-! # Transaction ids and ticks

A transaction id is a 64-bit word. It is also the timestamp of every version its
transaction writes, and it is minted from the clock: one millisecond holds a
million ids. A duration therefore has a length in ids, and time arithmetic on
ids saturates at both ends of the word.
-/
namespace CellStore

abbrev TxId := UInt64

namespace TxId

/-- The largest id. -/
def last : TxId := UInt64.ofNat (UInt64.size - 1)

/-- Reserved for the reader of flushes and compactions, never minted. -/
def synthetic : TxId := last

/-- The id just below, with nothing below zero. -/
def pred (id : TxId) : TxId := if id = 0 then 0 else id - 1

/-- Subtraction that stops at zero. -/
def saturatingSub (a b : TxId) : TxId := if b ≤ a then a - b else 0

/-- A number as an id, the largest id standing for all that do not fit. -/
def ofNatSaturating (n : Nat) : TxId := if n < UInt64.size then UInt64.ofNat n else last

theorem ofNatSaturating_toNat (n : Nat) :
    (ofNatSaturating n).toNat = min n (UInt64.size - 1) := by
  unfold ofNatSaturating last
  split
  · rw [UInt64.toNat_ofNat', Nat.mod_eq_of_lt ‹_›]; omega
  · rw [UInt64.toNat_ofNat', Nat.mod_eq_of_lt (by decide)]; omega

theorem saturatingSub_toNat (a b : TxId) : (saturatingSub a b).toNat = a.toNat - b.toNat := by
  unfold saturatingSub
  split
  · rename_i h
    exact UInt64.toNat_sub_of_le _ _ h
  · rename_i h
    rw [UInt64.le_iff_toNat_le] at h
    simp; omega

theorem pred_toNat (id : TxId) : (pred id).toNat = id.toNat - 1 := by
  unfold pred
  split
  · simp [*]
  · rename_i h
    have hpos : (1 : UInt64) ≤ id := by
      rw [UInt64.le_iff_toNat_le]
      have : id.toNat ≠ 0 := fun h0 => h (UInt64.toNat_inj.1 h0)
      simp; omega
    rw [UInt64.toNat_sub_of_le _ _ hpos]; rfl

end TxId

/-! ## Ticks -/

namespace Tick

/-- How many ids one millisecond holds. -/
def perMilli : Nat := 1000000

/-- The first id of a millisecond. -/
def ofMillis (millis : Nat) : TxId := TxId.ofNatSaturating (millis * perMilli)

/-- The millisecond in which an id was minted. -/
def toMillis (id : TxId) : Nat := id.toNat / perMilli

/-- The id a clock stands at, given its milliseconds since the epoch: zero before the epoch, and the
milliseconds are cut to a word before they become ids. -/
def ofClock (millis : Int) : TxId := ofMillis (millis.toNat % UInt64.size)

theorem ofMillis_toNat (millis : Nat) :
    (ofMillis millis).toNat = min (millis * 1000000) (UInt64.size - 1) :=
  TxId.ofNatSaturating_toNat _

end Tick

end CellStore
