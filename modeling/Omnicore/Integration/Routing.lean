import Mathlib.Algebra.Group.Int.Defs
import Mathlib.Algebra.Group.Nat.Defs
import Mathlib.Tactic.SplitIfs

/-!
# Routing messages to workers

The consumer pool sends a message to a worker by a hash of its key, so that one worker gets all
messages of an aggregate.  The hash wraps at 64 bits and loses its sign before it is reduced.  The
least integer keeps its sign, and what remains of it is negative.

## Main results

* `bucket_in_range_iff` : the worker exists, exactly when the key does not hash to the least integer
  or the number of workers divides it.
-/

namespace Omnicore.Integration

structure Message where
  topic : String
  key : List UInt8
  value : List UInt8
  headers : List (String × String)

def bucketOfMessage (msg : Message) (workers : Int64) : Int64 :=
  if workers ≤ 1 then 0
  else
    let sum := msg.key.foldl (fun sum b => sum * 31 + .ofNat b.toNat) 0
    let sum := if sum < 0 then -sum else sum
    -- the remainder has the sign of the sum
    sum % workers

/-- The bytes of a key as digits to the base 31. -/
def keyNumber (key : List UInt8) : ℕ := key.foldl (fun n b => n * 31 + b.toNat) 0

theorem foldl_key (key : List UInt8) :
    key.foldl (fun sum b => sum * 31 + Int64.ofNat b.toNat) 0 = .ofNat (keyNumber key) := by
  refine List.foldl_hom Int64.ofNat fun n b => ?_
  rw [Int64.ofNat_add, Int64.ofNat_mul]
  rfl

theorem toInt_abs (n : ℕ) :
    let sum := Int64.ofNat n
    (n % 2 ^ 64 = 2 ^ 63 → (if sum < 0 then -sum else sum).toInt = -2 ^ 63) ∧
      (n % 2 ^ 64 ≠ 2 ^ 63 → 0 ≤ (if sum < 0 then -sum else sum).toInt) := by
  intro sum
  have hsum : sum.toInt = (n : ℤ).bmod (2 ^ 64) := Int64.toInt_ofNat'
  rw [Int.bmod_def] at hsum
  split_ifs with hneg
  · rw [Int64.lt_iff_toInt_lt, Int64.toInt_zero] at hneg
    rw [Int64.toInt_neg, Int.bmod_def]
    omega
  · rw [Int64.lt_iff_toInt_lt, Int64.toInt_zero] at hneg
    omega

/-- **The worker of a message.**  Its index is one of the workers, and the same for all messages of
one key, exactly when the key is not congruent to `2 ^ 63` modulo `2 ^ 64`, or the number of workers
divides that. -/
theorem bucket_in_range_iff (msg : Message) (workers : {n : Int64 // 1 ≤ n}) :
    (0 ≤ bucketOfMessage msg workers ∧ bucketOfMessage msg workers < workers ∧
      ∀ msg' : Message, msg'.key = msg.key →
        bucketOfMessage msg' workers = bucketOfMessage msg workers) ↔
    (keyNumber msg.key % 2 ^ 64 = 2 ^ 63 → workers.1.toInt ∣ 2 ^ 63) := by
  obtain ⟨workers, h⟩ := workers
  have hkey : ∀ msg' : Message, msg'.key = msg.key →
      bucketOfMessage msg' workers = bucketOfMessage msg workers := by
    intro msg' hkey
    rw [bucketOfMessage, hkey, bucketOfMessage]
  rw [Int64.le_iff_toInt_le] at h
  rw [and_iff_left hkey, Int64.le_iff_toInt_le, Int64.lt_iff_toInt_lt]
  by_cases hone : workers ≤ 1
  · rw [bucketOfMessage, if_pos hone]
    rw [Int64.le_iff_toInt_le] at hone
    simp [Int.le_antisymm hone h]
  · rw [bucketOfMessage, if_neg hone]
    simp only [foldl_key, Int64.toInt_mod, Int64.toInt_zero]
    rw [Int64.toInt_one] at h
    obtain ⟨hleast, hother⟩ := toInt_abs (keyNumber msg.key)
    by_cases hn : keyNumber msg.key % 2 ^ 64 = 2 ^ 63
    · have hpos : 0 ≤ Int.tmod (2 ^ 63) workers.toInt := Int.tmod_nonneg _ (by decide)
      rw [hleast hn, Int.neg_tmod, Int.dvd_iff_tmod_eq_zero]
      omega
    · exact iff_of_true ⟨Int.tmod_nonneg _ (hother hn), Int.tmod_lt_of_pos _ (by omega)⟩
        fun hc => absurd hc hn

/-- A key that hashes to the least integer, and three workers. -/
theorem least_hash_out_of_range :
    bucketOfMessage ⟨"orders", [11, 22, 0, 3, 18, 9, 5, 17, 18, 10, 4, 3, 8], [], []⟩ 3 = -2 := by
  decide +kernel

end Omnicore.Integration
