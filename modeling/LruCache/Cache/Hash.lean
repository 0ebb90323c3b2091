import LruCache.Cache.Frame
import LruCache.Lib.Mixing

/-!
# The hash function is fair

`mix` is a bijection: each of its steps can be undone, and `unmix` undoes them in turn. So every
bucket of a table is the home of equally many keys (`hash_uniform`), and no two keys are mixed to
the same word. The constructor only makes tables for which this holds.

Main results:

* `mix_bijective` — mixing is a bijection of the 64-bit words.
* `hash_uniform` — every bucket has equally many keys, and two keys share a bucket exactly if their
  mixed words agree in the lowest bits.
* `slots_fair` — this is so for the tables that the constructor makes, after any calls.

Deliberate scope limits:

* Fair means: over all keys. A program may still use keys that all have the same home; the costs of
  a search are in `LruCache.Cache.Probes` and `LruCache.Cache.MeanCosts`.
-/

namespace LruCache

open Mixing Transition

/-! ## The mixing -/

/-- `key ^= key >> 33`. -/
def xorShift : UInt64 → UInt64 := xorWith (· >>> 33)

/-- The steps of `mix` backwards; the constants are the inverses of those of `mix`. -/
def unmix (key : UInt64) : UInt64 :=
  xorShift (xorShift (xorShift key * 0x9cb4b2f8129337db) * 0x4f74430c22a54005)

/-- The three shifts of the finalizer and the two multiplications between them. -/
theorem mix_eq (key : UInt64) : mix key =
    xorShift (xorShift (xorShift key * 0xff51afd7ed558ccd) * 0xc4ceb9fe1a85ec53) := rfl

/-- Nothing is left of a word that is shifted by 33 bits twice. -/
theorem shiftRight_shiftRight (key : UInt64) : key >>> 33 >>> 33 = 0 := by
  apply UInt64.toBitVec_inj.mp
  have hshift : key.toBitVec >>> 33 >>> 33 = 0#64 := by
    rw [← BitVec.shiftRight_add, BitVec.ushiftRight_eq_zero (by decide)]
  exact hshift

/-- So a word that is combined with its upper half is restored by doing it again. -/
theorem xorShift_involutive : Function.Involutive xorShift :=
  xorWith_involutive (fun _ _ => UInt64.shiftRight_xor) shiftRight_shiftRight

/-- A multiplication by an odd number is undone by its inverse modulo 2^64. -/
theorem mul_mul_of_inverse {a b : UInt64} (h : a * b = 1) (key : UInt64) : key * a * b = key := by
  rw [UInt64.mul_assoc, h, UInt64.mul_one]

/-- Mixing can be undone, -/
theorem unmix_mix (key : UInt64) : unmix (mix key) = key := by
  rw [mix_eq, unmix, xorShift_involutive, mul_mul_of_inverse (by decide), xorShift_involutive,
    mul_mul_of_inverse (by decide), xorShift_involutive]

/-- and every word is that of some key. -/
theorem mix_unmix (key : UInt64) : mix (unmix key) = key := by
  rw [mix_eq, unmix, xorShift_involutive, mul_mul_of_inverse (by decide), xorShift_involutive,
    mul_mul_of_inverse (by decide), xorShift_involutive]

theorem mix_bijective : Function.Bijective mix :=
  Function.bijective_iff_has_inverse.mpr ⟨unmix, unmix_mix, mix_unmix⟩

/-! ## Buckets -/

section Buckets

variable {m bucket : Nat}

/-- No two keys are mixed to the same number. -/
theorem mix_toNat_injective : Function.Injective fun key => (mix key).toNat :=
  fun _ _ h => mix_bijective.injective (UInt64.toNat_inj.mp h)

/-- All numbers below 2^64 occur. -/
theorem range_mix_toNat : (Set.range fun key => (mix key).toNat) = Set.Iio (2 ^ 64) := by
  ext n
  constructor
  · rintro ⟨key, rfl⟩
    exact (mix key).toNat_lt
  · intro hn
    exact ⟨unmix (UInt64.ofNat n), by simp only [mix_unmix, UInt64.toNat_ofNat_of_lt' hn]⟩

/-- The mask takes the lowest bits, which is the remainder. -/
theorem hashKey_eq_mod (m : Nat) (key : UInt64) :
    hashKey (2 ^ m - 1) key = (mix key).toNat % 2 ^ m := by
  rw [hashKey, Nat.and_two_pow_sub_one_eq_mod]

/-- Every bucket is the home of the same number of keys. -/
theorem bucket_ncard (hm : m ≤ 64) (hbucket : bucket < 2 ^ m) :
    {key | hashKey (2 ^ m - 1) key = bucket}.ncard = 2 ^ (64 - m) := by
  have hsplit : 2 ^ 64 = 2 ^ m * 2 ^ (64 - m) := by
    rw [← Nat.pow_add, Nat.add_sub_cancel' hm]
  simp only [hashKey_eq_mod]
  exact ncard_mod_eq mix_toNat_injective (hsplit ▸ range_mix_toNat) hbucket

/-- Two keys in one bucket are mixed to words that differ in a bit that the mask takes away. -/
theorem exists_masked_bit {key key' : UInt64} (hne : key ≠ key')
    (hsame : hashKey (2 ^ m - 1) key = hashKey (2 ^ m - 1) key') :
    ∃ i, m ≤ i ∧ i < 64 ∧ (mix key).toNat.testBit i ≠ (mix key').toNat.testBit i := by
  rw [hashKey_eq_mod, hashKey_eq_mod] at hsame
  exact exists_testBit_ne (mix key).toNat_lt (mix key').toNat_lt
    (mix_toNat_injective.ne hne) hsame

/-- **Uniform hashing.** The mixing loses nothing: for every mask `2 ^ m - 1` all buckets are
the homes of equally many keys, and distinct keys share one only because the mask takes away a
bit in which their mixed words differ. -/
theorem hash_uniform :
    Function.Bijective mix ∧ ∀ m ≤ 64,
      (∀ key, hashKey (2 ^ m - 1) key < 2 ^ m) ∧
      (∀ bucket < 2 ^ m, {key | hashKey (2 ^ m - 1) key = bucket}.ncard = 2 ^ (64 - m)) ∧
      ∀ key key', key ≠ key' → hashKey (2 ^ m - 1) key = hashKey (2 ^ m - 1) key' →
        ∃ i, m ≤ i ∧ i < 64 ∧ (mix key).toNat.testBit i ≠ (mix key').toNat.testBit i := by
  refine ⟨mix_bijective, ?_⟩
  intro m hm
  exact ⟨hashKey_lt rfl, fun _ hbucket => bucket_ncard hm hbucket,
    fun _ _ hne hsame => exists_masked_bit hne hsame⟩

end Buckets

/-! ## The tables of a cache -/

section Tables

variable {hash : UInt64 → Nat} {C : Nat} {c₀ c : Cache}

/-- Once all bits are lost, the doubling loop does not end. -/
theorem nextPowerOfTwoLoop_zero {n : Nat} (hn : 0 < n) (fuel : Nat) :
    nextPowerOfTwoLoop n fuel 0 = .error .diverges := by
  induction fuel with
  | zero => rfl
  | succ fuel ih =>
    rw [nextPowerOfTwoLoop, if_pos hn]
    exact ih

/-- Whatever is asked for, the loop only ends with a power of two. -/
theorem nextPowerOfTwoLoop_pow {n fuel k size : Nat} (hk : k ≤ 63)
    (h : nextPowerOfTwoLoop n fuel (2 ^ k) = .ok size) : ∃ m ≤ 63, size = 2 ^ m := by
  induction fuel generalizing k with
  | zero => cases h
  | succ fuel ih =>
    rw [nextPowerOfTwoLoop] at h
    by_cases hless : 2 ^ k < n
    · rw [if_pos hless] at h
      rcases Nat.lt_or_eq_of_le hk with hlt | rfl
      · rw [wrap_double hlt] at h
        exact ih hlt h
      · have hlost : wrap (2 ^ 63 * 2) = 0 := by decide
        rw [hlost, nextPowerOfTwoLoop_zero (Nat.zero_lt_of_lt hless)] at h
        cases h
    · rw [if_neg hless] at h
      exact ⟨k, hk, (Except.ok.inj h).symm⟩

/-- For every capacity that the constructor takes, the table has a power of two of slots, and
the mask fits. -/
theorem Cache.table_of_new (h : Cache.new C = .ok c₀) :
    ∃ m ≤ 63, c₀.hashTable.length = 2 ^ m ∧ c₀.hashMask = 2 ^ m - 1 := by
  by_cases hzero : C = 0
  · rw [Cache.new, if_pos hzero] at h
    cases h
  · rw [Cache.new, if_neg hzero] at h
    rcases bind_eq_ok h with ⟨nodes, _, h⟩
    rcases bind_eq_ok h with ⟨size, hsize, hc⟩
    cases hc
    rcases nextPowerOfTwoLoop_pow (k := 0) (Nat.zero_le _) hsize with ⟨m, hm, rfl⟩
    exact ⟨m, hm, List.length_replicate, rfl⟩

/-- **Fair tables.** In every cache that can be reached, each slot of the table is the home of
the same number of keys. -/
theorem slots_fair {ops : List Call} {rs : List Returned} (hnew : Cache.new C = .ok c₀)
    (hrun : run (Cache.step hash) ops c₀ = .ok (rs, c)) {slot : Nat}
    (hslot : slot < c.hashTable.length) :
    c.hashTable.length * {key | hashKey c.hashMask key = slot}.ncard = 2 ^ 64 := by
  have hshape := run_shape hrun
  rcases Cache.table_of_new hnew with ⟨m, hm, hlen, hmask⟩
  have hm64 : m ≤ 64 := Nat.le_trans hm (by decide)
  rw [hshape.table, hlen] at hslot ⊢
  rw [hshape.mask, hmask, bucket_ncard hm64 hslot, ← Nat.pow_add, Nat.add_sub_cancel' hm64]

end Tables

end LruCache
