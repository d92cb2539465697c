import Mathlib.Data.Int.GCD
import Mathlib.Data.Nat.Prime.Basic

/-!
# Probe sequences

`probe start step cap n` is the place that a probe sequence with the given start
and step comes to after `n` steps, in a cycle of `cap` places. If the step and the
length of the cycle have no common factor, the first `cap` places of the sequence
are all the places there are.
-/

namespace Probe

def probe (start step cap n : ℕ) : ℕ := (start + n * step) % cap

variable {start step cap : ℕ}

theorem probe_lt (hcap : 0 < cap) (n : ℕ) : probe start step cap n < cap := Nat.mod_lt _ hcap

theorem probe_zero : probe start step cap 0 = start % cap := by simp [probe]

theorem probe_succ (n : ℕ) :
    probe start step cap (n + 1) = (probe start step cap n + step) % cap := by
  rw [probe, probe, Nat.mod_add_mod]
  congr 1
  rw [Nat.succ_mul, Nat.add_assoc]

/-- A step without a common factor with the length of the cycle visits every place. -/
theorem exists_probe_eq (start : ℕ) (hcop : Nat.Coprime step cap) {i : ℕ} (hi : i < cap) :
    ∃ n < cap, probe start step cap n = i := by
  have hcap : cap ≠ 0 := by omega
  obtain ⟨n, hn, hmod⟩ := Nat.exists_mul_mod_eq_of_coprime (i + (cap - start % cap)) hcop hcap
  refine ⟨n, hn, ?_⟩
  have hle : start % cap ≤ cap := (Nat.mod_lt _ (by omega)).le
  calc (start + n * step) % cap
      = (start % cap + step * n % cap) % cap := by rw [Nat.mul_comm n, Nat.add_mod]
    _ = (start % cap + (i + (cap - start % cap)) % cap) % cap := by rw [hmod]
    _ = (start % cap + (i + (cap - start % cap))) % cap := by rw [Nat.add_mod_mod]
    _ = (i + cap) % cap := by congr 1; omega
    _ = i := by rw [Nat.add_mod_right, Nat.mod_eq_of_lt hi]

theorem coprime_two_pow (hodd : step % 2 = 1) (k : ℕ) : Nat.Coprime step (2 ^ k) :=
  Nat.Coprime.pow_right k (Nat.coprime_two_right.mpr (Nat.odd_iff.mpr hodd))

end Probe
