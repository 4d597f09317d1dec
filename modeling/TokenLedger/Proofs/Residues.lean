import Mathlib.Data.ZMod.Basic
import Mathlib.Tactic.Ring
import TokenLedger.Scalar.Literal

/-!
# Field elements are residues

An element stands for the residue of its number. Sums, differences and the
product by doubling and adding are those of residues, and since every
element is reduced, two elements with one residue have the same limbs. The
laws of a commutative ring come over from the residues.
-/

set_option autoImplicit false

namespace TokenLedger.Scalar

/-! ## Bits -/

/-- The number that bits spell behind a number, highest bit first. -/
def spelled (n : Nat) (bits : List Bool) : Nat := bits.foldl (fun n bit => 2 * n + bit.toNat) n

theorem spelled_testBit (w n k : Nat) :
    spelled n ((List.range k).reverse.map w.testBit) = n * 2 ^ k + w % 2 ^ k := by
  induction k generalizing n with
  | zero => simp [spelled, Nat.mod_one]
  | succ k ih =>
    have hcons : (List.range (k + 1)).reverse.map w.testBit =
        w.testBit k :: (List.range k).reverse.map w.testBit := by
      rw [List.range_succ, List.reverse_append]
      rfl
    have hstep : spelled n ((List.range (k + 1)).reverse.map w.testBit) =
        spelled (2 * n + (w.testBit k).toNat) ((List.range k).reverse.map w.testBit) := by
      rw [hcons]
      rfl
    rw [hstep, ih, Nat.toNat_testBit, Nat.pow_succ, Nat.mod_mul]
    ring

theorem spelled_append (n : Nat) (bits rest : List Bool) :
    spelled n (bits ++ rest) = spelled (spelled n bits) rest := List.foldl_append

theorem spelled_bits (a : Limbs) : spelled 0 a.bits = a.toNat := by
  have hword (w : UInt64) (n : Nat) :
      spelled n ((List.range 64).reverse.map fun i => w.toNat.testBit i) =
        n * UInt64.size + w.toNat := by
    have hw : w.toNat % 2 ^ 64 = w.toNat := Nat.mod_eq_of_lt w.toNat_lt
    rw [spelled_testBit, hw]
    rfl
  simp only [Limbs.bits, List.flatMap_cons, List.flatMap_nil, List.append_nil, spelled_append,
    hword, Limbs.toNat]
  ring

/-! ## Residues -/

instance : NeZero modulus := ⟨modulus_pos.ne'⟩

def residue (a : Scalar) : ZMod modulus := a.toNat

variable {a b : Scalar}

theorem val_residue (a : Scalar) : a.residue.val = a.toNat := ZMod.val_cast_of_lt a.toNat_lt

theorem residue_inj (h : a.residue = b.residue) : a = b := by
  apply toNat_inj
  rw [← val_residue, ← val_residue, h]

theorem residue_ofUInt64 (n : UInt64) : (ofUInt64 n).residue = (n.toNat : ZMod modulus) := by
  have hn : (ofUInt64 n).toNat = n.toNat := by simp [ofUInt64, toNat, Limbs.toNat]
  rw [residue, hn]

theorem residue_zero : zero.residue = 0 := by
  rw [zero, residue_ofUInt64]
  exact Nat.cast_zero

theorem residue_one : (ofUInt64 1).residue = 1 := by
  rw [residue_ofUInt64]
  exact Nat.cast_one

theorem residue_add (a b : Scalar) : (a + b).residue = a.residue + b.residue := by
  rw [residue, toNat_add, ZMod.natCast_mod, Nat.cast_add]
  rfl

theorem residue_sub (a b : Scalar) : (a - b).residue = a.residue - b.residue := by
  rw [residue, toNat_sub, ZMod.natCast_mod, Nat.cast_add, Nat.cast_sub b.toNat_lt.le,
    ZMod.natCast_self, zero_sub, ← sub_eq_add_neg]
  rfl

theorem residue_neg (a : Scalar) : (-a).residue = -a.residue := by
  have hneg : -a = zero - a := rfl
  rw [hneg, residue_sub, residue_zero, zero_sub]

theorem residue_double (a : Scalar) : a.double.residue = 2 * a.residue := by
  rw [double, residue_add, two_mul]

theorem mul_def (a b : Scalar) : a * b = b.limbs.bits.foldl (mulStep a) zero := by
  show Scalar.mul a b = _
  rw [Scalar.mul]

theorem residue_foldl_mulStep (a acc : Scalar) (bits : List Bool) (n : Nat)
    (h : acc.residue = a.residue * n) :
    (bits.foldl (mulStep a) acc).residue = a.residue * (spelled n bits : Nat) := by
  induction bits generalizing acc n with
  | nil => exact h
  | cons bit bits ih =>
    have hstep : (mulStep a acc bit).residue = a.residue * (2 * n + bit.toNat : Nat) := by
      cases bit with
      | false =>
        rw [mulStep, if_neg Bool.false_ne_true, residue_double, h, Bool.toNat_false]
        push_cast
        ring
      | true =>
        rw [mulStep, if_pos rfl, residue_add, residue_double, h, Bool.toNat_true]
        push_cast
        ring
    exact ih _ _ hstep

theorem residue_mul (a b : Scalar) : (a * b).residue = a.residue * b.residue := by
  have hstart : zero.residue = a.residue * (0 : Nat) := by rw [residue_zero, Nat.cast_zero, mul_zero]
  rw [mul_def, residue_foldl_mulStep a zero _ 0 hstart, spelled_bits]
  rfl

theorem toNat_mul (a b : Scalar) : (a * b).toNat = a.toNat * b.toNat % modulus := by
  rw [← val_residue, residue_mul, ZMod.val_mul, val_residue, val_residue]

theorem toNat_double (a : Scalar) : a.double.toNat = 2 * a.toNat % modulus := by
  rw [double, toNat_add, two_mul]

theorem toNat_zero : zero.toNat = 0 := by
  rw [← val_residue, residue_zero, ZMod.val_zero]

theorem toNat_sub_int (a b : Scalar) :
    ((a - b).toNat : Int) = ((a.toNat : Int) - b.toNat) % (modulus : Int) := by
  have hb : b.toNat ≤ modulus := b.toNat_lt.le
  have hsum : ((a.toNat + (modulus - b.toNat) : Nat) : Int) = a.toNat - b.toNat + modulus := by
    omega
  rw [toNat_sub, Int.natCast_mod, hsum, Int.add_emod_right]

theorem toNat_neg_int (a : Scalar) : ((-a).toNat : Int) = (-(a.toNat : Int)) % (modulus : Int) := by
  have hneg : -a = zero - a := rfl
  rw [hneg, toNat_sub_int, toNat_zero, Nat.cast_zero, zero_sub]

/-! ## Limbs alone -/

def mulLimbs (a b : Limbs) : Limbs :=
  b.bits.foldl (fun acc bit => if bit then addLimbs (addLimbs acc acc) a else addLimbs acc acc)
    ⟨0, 0, 0, 0⟩

theorem limbs_foldl_mulStep (a acc : Scalar) (bits : List Bool) :
    (bits.foldl (mulStep a) acc).limbs = bits.foldl
      (fun acc bit => if bit then addLimbs (addLimbs acc acc) a.limbs else addLimbs acc acc)
      acc.limbs := by
  induction bits generalizing acc with
  | nil => rfl
  | cons bit bits ih =>
    rw [List.foldl_cons, List.foldl_cons, ih]
    cases bit <;> rfl

theorem limbs_mul (a b : Scalar) : (a * b).limbs = mulLimbs a.limbs b.limbs := by
  rw [mul_def, limbs_foldl_mulStep]
  rfl

/-- The limbs that come out of the constructors and the operators: a word, limbs that were
compared with the modulus, sums, differences and products. A negative is a difference from
zero, a double is a sum, and a literal ends in the comparison. -/
inductive Built : Limbs → Prop where
  | word (n : UInt64) : Built ⟨n, 0, 0, 0⟩
  | compared {a : Limbs} (h : a.isBelow modulusLimbs = true) : Built a
  | add {a b : Limbs} (ha : Built a) (hb : Built b) : Built (addLimbs a b)
  | sub {a b : Limbs} (ha : Built a) (hb : Built b) : Built (subLimbs a b)
  | mul {a b : Limbs} (ha : Built a) (hb : Built b) : Built (mulLimbs a b)

theorem Built.exists_scalar {a : Limbs} (h : Built a) : ∃ x : Scalar, x.limbs = a := by
  induction h with
  | word n => exact ⟨ofUInt64 n, rfl⟩
  | compared h => exact ⟨⟨_, isBelow_modulus_iff.1 h⟩, rfl⟩
  | add _ _ iha ihb =>
    obtain ⟨x, rfl⟩ := iha
    obtain ⟨y, rfl⟩ := ihb
    exact ⟨x + y, rfl⟩
  | sub _ _ iha ihb =>
    obtain ⟨x, rfl⟩ := iha
    obtain ⟨y, rfl⟩ := ihb
    exact ⟨x - y, rfl⟩
  | mul _ _ iha ihb =>
    obtain ⟨x, rfl⟩ := iha
    obtain ⟨y, rfl⟩ := ihb
    exact ⟨x * y, limbs_mul x y⟩

theorem built_iff {a : Limbs} : Built a ↔ a.toNat < modulus := by
  constructor
  · intro h
    obtain ⟨x, rfl⟩ := h.exists_scalar
    exact x.reduced
  · exact fun h => .compared (isBelow_modulus_iff.2 h)

/-! ## All laws -/

/-- The arithmetic of the elements is that of the integers modulo the modulus. -/
structure ModularArithmetic : Prop where
  ofLimbs : ∀ a : Limbs, (∃ x, ofLimbs? a = some x) ↔ a.toNat < modulus
  ofLimbs_limbs : ∀ (a : Limbs) x, ofLimbs? a = some x → x.limbs = a
  add : ∀ a b : Scalar, (a + b).toNat = (a.toNat + b.toNat) % modulus
  sub : ∀ a b : Scalar, ((a - b).toNat : Int) = ((a.toNat : Int) - b.toNat) % (modulus : Int)
  neg : ∀ a : Scalar, ((-a).toNat : Int) = (-(a.toNat : Int)) % (modulus : Int)
  double : ∀ a : Scalar, a.double.toNat = 2 * a.toNat % modulus
  mul : ∀ a b : Scalar, (a * b).toNat = a.toNat * b.toNat % modulus
  reduced : ∀ a : Limbs, Built a → a.toNat < modulus
  limbs_eq_iff : ∀ a b : Scalar, a.limbs = b.limbs ↔ a.toNat ≡ b.toNat [MOD modulus]
  add_comm : ∀ a b : Scalar, a + b = b + a
  add_assoc : ∀ a b c : Scalar, a + b + c = a + (b + c)
  zero_add : ∀ a : Scalar, zero + a = a
  neg_add : ∀ a : Scalar, -a + a = zero
  sub_eq : ∀ a b : Scalar, a - b = a + -b
  mul_comm : ∀ a b : Scalar, a * b = b * a
  mul_assoc : ∀ a b c : Scalar, a * b * c = a * (b * c)
  one_mul : ∀ a : Scalar, ofUInt64 1 * a = a
  mul_add : ∀ a b c : Scalar, a * (b + c) = a * b + a * c

theorem modularArithmetic : ModularArithmetic where
  ofLimbs a := by
    constructor
    · rintro ⟨x, hx⟩
      exact ofLimbs?_eq_some.1 hx ▸ x.reduced
    · exact fun h => ⟨⟨a, h⟩, ofLimbs?_eq_some.2 rfl⟩
  ofLimbs_limbs _ _ := ofLimbs?_eq_some.1
  add := toNat_add
  sub := toNat_sub_int
  neg := toNat_neg_int
  double := toNat_double
  mul := toNat_mul
  reduced _ := built_iff.1
  limbs_eq_iff a b := by
    constructor
    · intro h
      rw [toNat, toNat, h]
    · intro h
      have heq := Nat.ModEq.eq_of_lt_of_lt h a.toNat_lt b.toNat_lt
      exact congrArg limbs (toNat_inj heq)
  add_comm a b := residue_inj (by rw [residue_add, residue_add, add_comm])
  add_assoc a b c := residue_inj (by simp only [residue_add]; ring)
  zero_add a := residue_inj (by rw [residue_add, residue_zero, zero_add])
  neg_add a := residue_inj (by rw [residue_add, residue_neg, residue_zero, neg_add_cancel])
  sub_eq a b := residue_inj (by rw [residue_sub, residue_add, residue_neg, sub_eq_add_neg])
  mul_comm a b := residue_inj (by rw [residue_mul, residue_mul, mul_comm])
  mul_assoc a b c := residue_inj (by simp only [residue_mul]; ring)
  one_mul a := residue_inj (by rw [residue_mul, residue_one, one_mul])
  mul_add a b c := residue_inj (by simp only [residue_mul, residue_add]; ring)

end TokenLedger.Scalar
