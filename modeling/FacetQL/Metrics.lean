import Mathlib

/-!
# Latencies

How `metrics.rs` sorts the latencies of requests into buckets, on the hot path and without a lock. A
sample is a `u64` of microseconds. Below `subBuckets` every sample has a bucket of its own; from there
on, each octave is cut into `subBuckets` buckets.
-/

namespace FacetQL

/-! ## The latency histogram -/

/-- The bits of a sample that are kept below its leading one. -/
def subBits : Nat := 3

/-- The buckets of one power of two. -/
def subBuckets : Nat := 1 <<< subBits

/-- The buckets of a histogram. -/
def bucketCount : Nat := 512

/-- The leading zeros of a 64-bit number. -/
def leadingZeros (us : Nat) : Nat := 64 - us.size

/-- The place of a sample of at least `subBuckets`, before it is clamped. -/
def bucketPlace (us : Nat) : Nat :=
  let msb := 63 - leadingZeros us
  let sub := (us >>> (msb - subBits)) &&& (subBuckets - 1)
  (msb - subBits + 1) * subBuckets + sub

/-- The bucket of a duration. -/
def bucketIndex (us : Nat) : Nat :=
  if us < subBuckets then us else min (bucketPlace us) (bucketCount - 1)

/-- How far the significant bits of a bucket of index at least `subBuckets` are shifted. -/
def bucketShift (index : Nat) : Nat := index / subBuckets + subBits - 1 - subBits

/-- The largest sample of a bucket, in the arithmetic of `u64`. -/
def bucketUpperUs (index : Nat) : Nat :=
  if index < subBuckets then index
  else
    let width := (1 <<< bucketShift index) % 2 ^ 64
    let base := ((subBuckets + index % subBuckets) <<< bucketShift index) % 2 ^ 64
    min (base + (width - 1)) (2 ^ 64 - 1)

section Histogram

variable {us vs s t : Nat}

/-- The octave of a sample: its four leading bits stand at `s`, or it has no more than four. -/
def Octave (us s : Nat) : Prop := s ≤ 60 ∧ us < 16 * 2 ^ s ∧ (s = 0 ∨ 8 * 2 ^ s ≤ us)

theorem exists_octave (h : us < 2 ^ 64) : ∃ s, Octave us s := by
  refine ⟨us.size - 4, ?_, ?_, ?_⟩
  · have := Nat.size_le.2 h
    omega
  · have := Nat.size_le.1 (show us.size ≤ us.size - 4 + 4 by omega)
    rwa [pow_add, mul_comm] at this
  · by_cases hsize : us.size ≤ 4
    · exact .inl (by omega)
    · have := Nat.lt_size.1 (show us.size - 4 + 3 < us.size by omega)
      rw [pow_add, mul_comm] at this
      exact .inr this

section

variable (h : Octave us s)
include h

theorem Octave.bucketPlace (hus : subBuckets ≤ us) : bucketPlace us = 8 * s + us / 2 ^ s := by
  obtain ⟨hs, hlt, hle⟩ := h
  have hbuckets : subBuckets = 2 ^ 3 := rfl
  have hle : 8 * 2 ^ s ≤ us := hle.elim (fun hs => by subst hs; omega) id
  have hsize : us.size = s + 4 := by
    refine le_antisymm (Nat.size_le.2 ?_) (Nat.lt_size.2 ?_) <;> rw [pow_add] <;> omega
  have hmsb : 63 - leadingZeros us = s + 3 := by
    rw [leadingZeros, hsize]
    omega
  have hq := (Nat.le_div_iff_mul_le (Nat.two_pow_pos s)).2 hle
  have hq' := (Nat.div_lt_iff_lt_mul (Nat.two_pow_pos s)).2 hlt
  simp only [FacetQL.bucketPlace, hmsb]
  rw [hbuckets, Nat.and_two_pow_sub_one_eq_mod, Nat.shiftRight_eq_div_pow, subBits,
    Nat.add_sub_cancel]
  omega

theorem Octave.div_lt : us / 2 ^ s < 16 ∧ (s = 0 ∨ 8 ≤ us / 2 ^ s) :=
  ⟨(Nat.div_lt_iff_lt_mul (Nat.two_pow_pos s)).2 h.2.1,
    h.2.2.imp_right (Nat.le_div_iff_mul_le (Nat.two_pow_pos s)).2⟩

theorem Octave.bucketIndex : bucketIndex us = 8 * s + us / 2 ^ s := by
  have hdiv := h.div_lt
  have hs := h.1
  unfold FacetQL.bucketIndex
  split_ifs with hus
  · have : us < 8 := hus
    obtain rfl : s = 0 := h.2.2.resolve_right fun hle => by
      have := Nat.two_pow_pos s
      omega
    simp
  · rw [h.bucketPlace (not_lt.1 hus), bucketCount]
    omega

end

/-- The bound of a bucket, and the arithmetic it takes. -/
theorem bucketUpperUs_eq {q : Nat} (hs : s ≤ 60) (hq : q < 16) (hq' : s = 0 ∨ 8 ≤ q) :
    bucketUpperUs (8 * s + q) = q * 2 ^ s + (2 ^ s - 1) ∧
      (subBuckets ≤ 8 * s + q → bucketShift (8 * s + q) = s ∧
        subBuckets + (8 * s + q) % subBuckets = q) ∧ q * 2 ^ s + (2 ^ s - 1) < 2 ^ 64 := by
  have hbuckets : subBuckets = 8 := rfl
  have hpos := Nat.two_pow_pos s
  have hpow : 2 ^ s ≤ 2 ^ 60 := Nat.pow_le_pow_right (by decide) hs
  have hmul : q * 2 ^ s ≤ 15 * 2 ^ s := Nat.mul_le_mul_right _ (by omega)
  have hparts (hle : 8 ≤ 8 * s + q) : bucketShift (8 * s + q) = s ∧ 8 + (8 * s + q) % 8 = q := by
    rw [bucketShift, hbuckets, subBits]
    omega
  refine ⟨?_, hparts, by omega⟩
  unfold bucketUpperUs
  split_ifs with hlt
  · obtain rfl : s = 0 := by omega
    simp
  · obtain ⟨hshift, hsub⟩ := hparts (not_lt.1 hlt)
    simp only [hshift, hbuckets, hsub, Nat.shiftLeft_eq]
    omega

theorem Octave.index_mono (hu : Octave us s) (hv : Octave vs t) (h : us ≤ vs) :
    8 * s + us / 2 ^ s ≤ 8 * t + vs / 2 ^ t := by
  obtain ⟨hlt, -⟩ := hu.div_lt
  obtain ⟨-, hge⟩ := hv.div_lt
  rcases lt_trichotomy s t with hst | rfl | hst
  · omega
  · exact Nat.add_le_add_left (Nat.div_le_div_right h) _
  · -- The octave of the larger sample would end below the smaller one.
    have hpow : 2 ^ (t + 1) ≤ 2 ^ s := Nat.pow_le_pow_right (by decide) hst
    have := hu.2.2.resolve_left (by omega)
    have := hv.2.1
    omega

end Histogram

/-- The bound of a bucket is the largest sample in it, and exceeds none of them by more than
    an eighth. -/
theorem bucketIndex_tight (us vs : Fin (2 ^ 64)) :
    (us ≤ vs → bucketIndex us ≤ bucketIndex vs) ∧
      bucketIndex us < bucketCount ∧ (subBuckets ≤ us → bucketIndex us = bucketPlace us) ∧
      us ≤ bucketUpperUs (bucketIndex us) ∧
      bucketUpperUs (bucketIndex us) - us ≤ us / 8 ∧
      bucketIndex (bucketUpperUs (bucketIndex us)) = bucketIndex us ∧
      (subBuckets ≤ bucketIndex us → bucketShift (bucketIndex us) < 64 ∧
        ((subBuckets + bucketIndex us % subBuckets) <<< bucketShift (bucketIndex us)) +
          (1 <<< bucketShift (bucketIndex us) - 1) < 2 ^ 64) := by
  obtain ⟨s, hu⟩ := exists_octave us.isLt
  obtain ⟨t, hv⟩ := exists_octave vs.isLt
  obtain ⟨hq, hq'⟩ := hu.div_lt
  obtain ⟨hupper, hparts, hbound⟩ := bucketUpperUs_eq hu.1 hq hq'
  have hpos := Nat.two_pow_pos s
  have hdiv := Nat.div_add_mod us.val (2 ^ s)
  have hmod := Nat.mod_lt us.val hpos
  rw [mul_comm] at hdiv
  rw [hu.bucketIndex, hv.bucketIndex, hupper]
  generalize hx : us.val / 2 ^ s * 2 ^ s + (2 ^ s - 1) = upper at *
  have hle : us ≤ upper := by omega
  refine ⟨hu.index_mono hv, ?_, fun hus => (hu.bucketPlace hus).symm, hle, ?_, ?_, fun hindex => ?_⟩
  · have := hu.1
    rw [bucketCount]
    omega
  · rcases hu.2.2 with rfl | hge
    · simp only [pow_zero] at hx hdiv
      omega
    · omega
  · have hsame : upper / 2 ^ s = us.val / 2 ^ s := by
      rw [← hx, mul_comm, Nat.mul_add_div hpos,
        Nat.div_eq_of_lt (Nat.sub_lt hpos Nat.one_pos), add_zero]
    have hlt : upper < 16 * 2 ^ s := (Nat.div_lt_iff_lt_mul hpos).1 (hsame ▸ hq)
    rw [Octave.bucketIndex ⟨hu.1, hlt, hu.2.2.imp_right fun h => h.trans hle⟩, hsame]
  · obtain ⟨hshift, hsub⟩ := hparts hindex
    rw [hshift, hsub, Nat.shiftLeft_eq, Nat.shiftLeft_eq, one_mul, hx]
    exact ⟨by have := hu.1; omega, hbound⟩

end FacetQL
