import TokenLedger.Scalar.Limbs

/-!
# The scalar field

Elements of a prime field of 253 bits, kept reduced below the modulus. Sums
and differences of limbs are corrected by one subtraction or addition of the
modulus; products are built by doubling and adding over the bits of the
second factor.
-/

set_option autoImplicit false

namespace TokenLedger

namespace Scalar

/-- The order of the scalar field of the curve BLS12-377. -/
def modulus : Nat :=
  8444461749428370424248824938781546531375899335154063827935233455917409239041

def modulusLimbs : Limbs :=
  ⟨0x0a11800000000001, 0x59aa76fed0000001, 0x60b44d1e5c37b001, 0x12ab655e9a2ca556⟩

theorem toNat_modulusLimbs : modulusLimbs.toNat = modulus := by decide

end Scalar

structure Scalar where
  limbs : Scalar.Limbs
  reduced : limbs.toNat < Scalar.modulus
  deriving DecidableEq

namespace Scalar

def toNat (a : Scalar) : Nat := a.limbs.toNat

theorem toNat_lt (a : Scalar) : a.toNat < modulus := a.reduced

theorem toNat_inj {a b : Scalar} (h : a.toNat = b.toNat) : a = b := by
  cases a; cases b; simpa using Limbs.toNat_inj h

def ofLimbs? (a : Limbs) : Option Scalar :=
  if h : a.isBelow modulusLimbs = true then
    some ⟨a, toNat_modulusLimbs ▸ Limbs.isBelow_iff.1 h⟩
  else none

theorem isBelow_modulus_iff {a : Limbs} :
    a.isBelow modulusLimbs = true ↔ a.toNat < modulus := by
  rw [Limbs.isBelow_iff, toNat_modulusLimbs]

theorem ofLimbs?_eq_some {a : Limbs} {x : Scalar} : ofLimbs? a = some x ↔ x.limbs = a := by
  rw [ofLimbs?]
  split
  · next h =>
    rw [Option.some.injEq]
    constructor
    · rintro rfl
      rfl
    · rintro rfl
      rfl
  · next h =>
    constructor
    · intro hnone
      cases hnone
    · rintro rfl
      exact absurd (isBelow_modulus_iff.2 x.reduced) h

def ofUInt64 (n : UInt64) : Scalar :=
  ⟨⟨n, 0, 0, 0⟩, by have := n.toNat_lt; simp [Limbs.toNat, modulus]; omega⟩

instance : Inhabited Scalar := ⟨ofUInt64 0⟩

def zero : Scalar := ofUInt64 0

def isZero (a : Scalar) : Bool := a.limbs == ⟨0, 0, 0, 0⟩

def addLimbs (a b : Limbs) : Limbs :=
  let s := a.add b
  if s.2 || !s.1.isBelow modulusLimbs then (s.1.sub modulusLimbs).1 else s.1

def subLimbs (a b : Limbs) : Limbs :=
  let d := a.sub b
  if d.2 then (d.1.add modulusLimbs).1 else d.1

theorem toNat_addLimbs {a b : Limbs} (ha : a.toNat < modulus) (hb : b.toNat < modulus) :
    (addLimbs a b).toNat = (a.toNat + b.toNat) % modulus := by
  have hs := Limbs.toNat_add a b
  have hd := Limbs.toNat_sub (a.add b).1 modulusLimbs
  have hl := (a.add b).1.toNat_lt
  have hl' := ((a.add b).1.sub modulusLimbs).1.toNat_lt
  have hlt := Limbs.isBelow_iff (a := (a.add b).1) (b := modulusLimbs)
  rw [toNat_modulusLimbs] at hd hlt
  rw [Limbs.size_eq] at hs hd hl hl'
  have hm : modulus < 2 ^ 253 := by decide
  have hc : (a.add b).2 = false := by
    cases h : (a.add b).2 with
    | false => rfl
    | true => simp only [h, Bool.toNat_true] at hs; omega
  simp only [addLimbs, hc, Bool.false_or]
  simp only [hc, Bool.toNat_false] at hs
  cases hb' : (a.add b).1.isBelow modulusLimbs with
  | true =>
    have := hlt.1 hb'
    simp only [Bool.not_true, Bool.false_eq_true, if_false]
    rw [Nat.mod_eq_of_lt (by omega)]
    omega
  | false =>
    have hge : modulus ≤ (a.add b).1.toNat := by
      rcases Nat.lt_or_ge (a.add b).1.toNat modulus with h | h
      · rw [hlt.2 h] at hb'; cases hb'
      · exact h
    simp only [Bool.not_false, if_true]
    rw [Nat.mod_eq_sub_mod (by omega), Nat.mod_eq_of_lt (by omega)]
    cases h : ((a.add b).1.sub modulusLimbs).2 <;>
      simp only [h, Bool.toNat_true, Bool.toNat_false] at hd <;> omega

theorem toNat_subLimbs {a b : Limbs} (ha : a.toNat < modulus) (hb : b.toNat < modulus) :
    (subLimbs a b).toNat = (a.toNat + (modulus - b.toNat)) % modulus := by
  have hd := Limbs.toNat_sub a b
  have hs := Limbs.toNat_add (a.sub b).1 modulusLimbs
  have hl := (a.sub b).1.toNat_lt
  have hl' := ((a.sub b).1.add modulusLimbs).1.toNat_lt
  rw [toNat_modulusLimbs] at hs
  rw [Limbs.size_eq] at hs hd hl hl'
  have hm : modulus < 2 ^ 253 := by decide
  cases h : (a.sub b).2 with
  | false =>
    simp only [subLimbs, h, Bool.false_eq_true, if_false]
    simp only [h, Bool.toNat_false] at hd
    rw [Nat.mod_eq_sub_mod (by omega), Nat.mod_eq_of_lt (by omega)]
    omega
  | true =>
    simp only [subLimbs, h, if_true]
    simp only [h, Bool.toNat_true] at hd
    rw [Nat.mod_eq_of_lt (by omega)]
    cases h' : ((a.sub b).1.add modulusLimbs).2 <;>
      simp only [h', Bool.toNat_true, Bool.toNat_false] at hs <;> omega

theorem modulus_pos : 0 < modulus := by decide

protected def add (a b : Scalar) : Scalar :=
  ⟨addLimbs a.limbs b.limbs, by
    rw [toNat_addLimbs a.reduced b.reduced]; exact Nat.mod_lt _ modulus_pos⟩

protected def sub (a b : Scalar) : Scalar :=
  ⟨subLimbs a.limbs b.limbs, by
    rw [toNat_subLimbs a.reduced b.reduced]; exact Nat.mod_lt _ modulus_pos⟩

instance : Add Scalar := ⟨Scalar.add⟩
instance : Sub Scalar := ⟨Scalar.sub⟩
instance : Neg Scalar := ⟨fun a => zero - a⟩

def double (a : Scalar) : Scalar := a + a

/-- One bit of the second factor: the product so far is doubled, and the first
factor is added if the bit is set. -/
def mulStep (a acc : Scalar) (bit : Bool) : Scalar :=
  if bit then acc.double + a else acc.double

protected def mul (a b : Scalar) : Scalar := b.limbs.bits.foldl (mulStep a) zero

instance : Mul Scalar := ⟨Scalar.mul⟩

def square (a : Scalar) : Scalar := a * a

theorem toNat_add (a b : Scalar) : (a + b).toNat = (a.toNat + b.toNat) % modulus :=
  toNat_addLimbs a.reduced b.reduced

theorem toNat_sub (a b : Scalar) : (a - b).toNat = (a.toNat + (modulus - b.toNat)) % modulus :=
  toNat_subLimbs a.reduced b.reduced

end Scalar

end TokenLedger
