import Mathlib.Data.List.Prime
import Mathlib.NumberTheory.LucasPrimality
import Mathlib.Tactic.NormNum.Prime
import TokenLedger.Proofs.Residues

/-!
# The modulus is prime

A number is prime if some residue has its order one below the number. That
order is certified by the prime factors below: the powers are taken by
squaring and multiplying over the bits of the exponent, as products of
elements are by doubling and adding, and small enough for evaluation. A few
smaller primes lead up to the modulus.
-/

set_option autoImplicit false

namespace TokenLedger.Primality

def powStep (m a r : Nat) (bit : Bool) : Nat := if bit then r * r % m * a % m else r * r % m

def power (m a n : Nat) : Nat := ((List.range 256).reverse.map n.testBit).foldl (powStep m a) 1

variable {p a m n : Nat}

theorem powStep_modEq {r : Nat} (bit : Bool) (h : r ≡ a ^ n [MOD m]) :
    powStep m a r bit ≡ a ^ (2 * n + bit.toNat) [MOD m] := by
  have hsquare : r * r % m ≡ a ^ (2 * n) [MOD m] := by
    rw [Nat.two_mul, Nat.pow_add]
    exact (Nat.mod_modEq _ _).trans (h.mul h)
  cases bit with
  | false => exact hsquare
  | true =>
    rw [Bool.toNat_true, Nat.pow_succ]
    exact (Nat.mod_modEq _ _).trans (hsquare.mul_right a)

theorem foldl_powStep_modEq (bits : List Bool) {r : Nat} (h : r ≡ a ^ n [MOD m]) :
    bits.foldl (powStep m a) r ≡ a ^ Scalar.spelled n bits [MOD m] := by
  induction bits generalizing r n with
  | nil => exact h
  | cons bit bits ih => exact ih (powStep_modEq bit h)

theorem power_modEq (h : n < 2 ^ 256) : power m a n ≡ a ^ n [MOD m] := by
  have hbits : Scalar.spelled 0 ((List.range 256).reverse.map n.testBit) = n := by
    rw [Scalar.spelled_testBit, Nat.zero_mul, Nat.zero_add, Nat.mod_eq_of_lt h]
  have hpower : power m a n ≡ a ^ Scalar.spelled 0 ((List.range 256).reverse.map n.testBit)
      [MOD m] := foldl_powStep_modEq _ (Nat.ModEq.refl _)
  rwa [hbits] at hpower

theorem power_modEq_one_iff (h : n < 2 ^ 256) :
    power m a n ≡ 1 [MOD m] ↔ (a : ZMod m) ^ n = 1 := by
  have hcast : (a : ZMod m) ^ n = 1 ↔ a ^ n ≡ 1 [MOD m] := by
    rw [← ZMod.natCast_eq_natCast_iff, Nat.cast_pow, Nat.cast_one]
  rw [hcast]
  exact ⟨(power_modEq h).symm.trans, (power_modEq h).trans⟩

theorem mem_of_dvd_prod_pow {qs : List Nat} {q k : Nat} (hq : q.Prime) (hqs : ∀ r ∈ qs, r.Prime)
    (h : q ∣ qs.prod ^ k) : q ∈ qs := by
  obtain ⟨r, hr, hdvd⟩ := (Prime.dvd_prod_iff hq.prime).1 (hq.dvd_of_dvd_pow h)
  rwa [(Nat.prime_dvd_prime_iff_eq hq (hqs r hr)).1 hdvd]

/-- The primes `qs` are all that divide the number below `p`, and modulo `p` the order of `a`
misses none of them. -/
structure Certifies (p a : Nat) (qs : List Nat) : Prop where
  small : p < 2 ^ 256
  factors : p - 1 ∣ qs.prod ^ 64
  fermat : power p a (p - 1) ≡ 1 [MOD p]
  order : ∀ q ∈ qs, ¬power p a ((p - 1) / q) ≡ 1 [MOD p]

instance (p a : Nat) (qs : List Nat) : Decidable (Certifies p a qs) :=
  decidable_of_iff (p < 2 ^ 256 ∧ p - 1 ∣ qs.prod ^ 64 ∧ power p a (p - 1) ≡ 1 [MOD p] ∧
      ∀ q ∈ qs, ¬power p a ((p - 1) / q) ≡ 1 [MOD p])
    ⟨fun ⟨hs, hf, h, ho⟩ => ⟨hs, hf, h, ho⟩, fun ⟨hs, hf, h, ho⟩ => ⟨hs, hf, h, ho⟩⟩

theorem Certifies.prime {qs : List Nat} (h : Certifies p a qs) (hqs : ∀ q ∈ qs, q.Prime) :
    p.Prime := by
  have hlt {k : Nat} (hk : k ≤ p - 1) : k < 2 ^ 256 := by
    have := h.small
    omega
  apply lucas_primality p (a : ZMod p)
  · exact (power_modEq_one_iff (hlt (Nat.le_refl _))).1 h.fermat
  · intro q hq hdvd hone
    have hmem := mem_of_dvd_prod_pow hq hqs (hdvd.trans h.factors)
    exact h.order q hmem ((power_modEq_one_iff (hlt (Nat.div_le_self _ _))).2 hone)

theorem prime_1832756501 : Nat.Prime 1832756501 := by
  have h : Certifies 1832756501 2 [2, 5, 29, 126397] := by decide +kernel
  apply h.prime
  simp only [List.forall_mem_cons]
  norm_num

theorem prime_49484425527001 : Nat.Prime 49484425527001 := by
  have h : Certifies 49484425527001 14 [2, 3, 5, 1832756501] := by decide +kernel
  apply h.prime
  simp only [List.forall_mem_cons]
  exact ⟨Nat.prime_two, Nat.prime_three, Nat.prime_five, prime_1832756501, nofun⟩

theorem prime_958612291309063373 : Nat.Prime 958612291309063373 := by
  have h : Certifies 958612291309063373 2 [2, 29, 167, 49484425527001] := by decide +kernel
  apply h.prime
  simp only [List.forall_mem_cons]
  exact ⟨Nat.prime_two, by norm_num, by norm_num, prime_49484425527001, nofun⟩

theorem prime_9586122913090633729 : Nat.Prime 9586122913090633729 := by
  have h : Certifies 9586122913090633729 11 [2, 3, 7, 13, 499] := by decide +kernel
  apply h.prime
  simp only [List.forall_mem_cons]
  norm_num

/-- The number below the modulus is `x * x * (x - 1) * (x + 1)` for the last prime of these. -/
theorem prime_modulus : Scalar.modulus.Prime := by
  have h : Certifies Scalar.modulus 22
      [2, 3, 5, 7, 13, 499, 958612291309063373, 9586122913090633729] := by decide +kernel
  apply h.prime
  simp only [List.forall_mem_cons]
  exact ⟨Nat.prime_two, Nat.prime_three, Nat.prime_five, by norm_num, by norm_num, by norm_num,
    prime_958612291309063373, prime_9586122913090633729, nofun⟩

end TokenLedger.Primality
