/-!
# Four-limb numbers

Numbers below 2^256 as four words, least first, with addition and
subtraction by carry and borrow chains. `toNat_add` and `toNat_sub` say what
a chain computes, and `cmp_eq_lt` what a comparison from the top limb down
finds. A decimal digit is put behind a number and taken off it again by two
more chains, `timesTen` and `tenth`.
-/

set_option autoImplicit false

namespace TokenLedger.Scalar

structure Limbs where
  l0 : UInt64
  l1 : UInt64
  l2 : UInt64
  l3 : UInt64
  deriving DecidableEq

namespace Limbs

def size : Nat := UInt64.size * (UInt64.size * (UInt64.size * UInt64.size))

def toNat (a : Limbs) : Nat :=
  a.l0.toNat + UInt64.size * (a.l1.toNat + UInt64.size * (a.l2.toNat + UInt64.size * a.l3.toNat))

def ofNat (n : Nat) : Limbs :=
  ⟨UInt64.ofNat n, UInt64.ofNat (n / UInt64.size), UInt64.ofNat (n / UInt64.size / UInt64.size),
    UInt64.ofNat (n / UInt64.size / UInt64.size / UInt64.size)⟩

theorem size_eq : size =
    115792089237316195423570985008687907853269984665640564039457584007913129639936 := by decide

theorem toNat_ofNat {n : Nat} (h : n < size) : (ofNat n).toNat = n := by
  simp only [ofNat, toNat, UInt64.toNat_ofNat', size, UInt64.size] at *
  omega

theorem toNat_lt (a : Limbs) : a.toNat < size := by
  have := a.l0.toNat_lt
  have := a.l1.toNat_lt
  have := a.l2.toNat_lt
  have := a.l3.toNat_lt
  simp only [toNat, size, UInt64.size]
  omega

theorem toNat_inj {a b : Limbs} (h : a.toNat = b.toNat) : a = b := by
  have := a.l0.toNat_lt
  have := a.l1.toNat_lt
  have := a.l2.toNat_lt
  have := b.l0.toNat_lt
  have := b.l1.toNat_lt
  have := b.l2.toNat_lt
  obtain ⟨a0, a1, a2, a3⟩ := a
  obtain ⟨b0, b1, b2, b3⟩ := b
  simp only [toNat, UInt64.size] at *
  simp only [mk.injEq, ← UInt64.toNat_inj]
  omega

def carryWord (c : Bool) : UInt64 := if c then 1 else 0

theorem toNat_carryWord (c : Bool) : (carryWord c).toNat = c.toNat := by cases c <;> rfl

def addWord (a b : UInt64) (c : Bool) : UInt64 × Bool :=
  let s := a + b
  let t := s + carryWord c
  (t, s < a || t < s)

def subWord (a b : UInt64) (c : Bool) : UInt64 × Bool :=
  let d := a - b
  (d - carryWord c, a < b || d < carryWord c)

theorem addWord_eq (a b : UInt64) (c : Bool) :
    (addWord a b c).1.toNat + UInt64.size * (addWord a b c).2.toNat =
      a.toNat + b.toNat + c.toNat := by
  have ha := a.toNat_lt
  have hb := b.toNat_lt
  have hc := toNat_carryWord c
  have hc' : c.toNat ≤ 1 := Bool.toNat_le c
  simp only [addWord, UInt64.lt_iff_toNat_lt, UInt64.toNat_add, hc, UInt64.size]
  by_cases h1 : (a.toNat + b.toNat) % 2 ^ 64 < a.toNat <;>
    by_cases h2 : ((a.toNat + b.toNat) % 2 ^ 64 + c.toNat) % 2 ^ 64 <
      (a.toNat + b.toNat) % 2 ^ 64 <;>
    simp only [h1, h2, decide_true, decide_false, Bool.or_true, Bool.or_false,
      Bool.toNat_true, Bool.toNat_false] <;> omega

theorem subWord_eq (a b : UInt64) (c : Bool) :
    (subWord a b c).1.toNat + b.toNat + c.toNat =
      a.toNat + UInt64.size * (subWord a b c).2.toNat := by
  have ha := a.toNat_lt
  have hb := b.toNat_lt
  have hc := toNat_carryWord c
  have hc' : c.toNat ≤ 1 := Bool.toNat_le c
  simp only [subWord, UInt64.lt_iff_toNat_lt, UInt64.toNat_sub, hc, UInt64.size]
  by_cases h1 : a.toNat < b.toNat <;>
    by_cases h2 : (2 ^ 64 - b.toNat + a.toNat) % 2 ^ 64 < c.toNat <;>
    simp only [h1, h2, decide_true, decide_false, Bool.or_true, Bool.or_false,
      Bool.toNat_true, Bool.toNat_false] <;> omega

def add (a b : Limbs) : Limbs × Bool :=
  let s0 := addWord a.l0 b.l0 false
  let s1 := addWord a.l1 b.l1 s0.2
  let s2 := addWord a.l2 b.l2 s1.2
  let s3 := addWord a.l3 b.l3 s2.2
  (⟨s0.1, s1.1, s2.1, s3.1⟩, s3.2)

def sub (a b : Limbs) : Limbs × Bool :=
  let d0 := subWord a.l0 b.l0 false
  let d1 := subWord a.l1 b.l1 d0.2
  let d2 := subWord a.l2 b.l2 d1.2
  let d3 := subWord a.l3 b.l3 d2.2
  (⟨d0.1, d1.1, d2.1, d3.1⟩, d3.2)

theorem toNat_add (a b : Limbs) :
    (a.add b).1.toNat + size * (a.add b).2.toNat = a.toNat + b.toNat := by
  have h0 := addWord_eq a.l0 b.l0 false
  have h1 := addWord_eq a.l1 b.l1 (addWord a.l0 b.l0 false).2
  have h2 := addWord_eq a.l2 b.l2 (addWord a.l1 b.l1 (addWord a.l0 b.l0 false).2).2
  have h3 := addWord_eq a.l3 b.l3
    (addWord a.l2 b.l2 (addWord a.l1 b.l1 (addWord a.l0 b.l0 false).2).2).2
  simp only [add, toNat, Bool.toNat_false, size, UInt64.size] at *
  omega

theorem toNat_sub (a b : Limbs) :
    (a.sub b).1.toNat + b.toNat = a.toNat + size * (a.sub b).2.toNat := by
  have h0 := subWord_eq a.l0 b.l0 false
  have h1 := subWord_eq a.l1 b.l1 (subWord a.l0 b.l0 false).2
  have h2 := subWord_eq a.l2 b.l2 (subWord a.l1 b.l1 (subWord a.l0 b.l0 false).2).2
  have h3 := subWord_eq a.l3 b.l3
    (subWord a.l2 b.l2 (subWord a.l1 b.l1 (subWord a.l0 b.l0 false).2).2).2
  simp only [sub, toNat, Bool.toNat_false, size, UInt64.size] at *
  omega

/-- Numbers compare as the highest limbs in which they differ. -/
def cmp (a b : Limbs) : Ordering :=
  (compare a.l3 b.l3).then
    ((compare a.l2 b.l2).then ((compare a.l1 b.l1).then (compare a.l0 b.l0)))

def isBelow (a b : Limbs) : Bool := a.cmp b == .lt

theorem cmp_eq_lt {a b : Limbs} : a.cmp b = .lt ↔ a.toNat < b.toNat := by
  have := a.l0.toNat_lt
  have := a.l1.toNat_lt
  have := a.l2.toNat_lt
  have := b.l0.toNat_lt
  have := b.l1.toNat_lt
  have := b.l2.toNat_lt
  simp only [cmp, Ordering.then_eq_lt, Std.compare_eq_lt, Std.compare_eq_iff_eq,
    UInt64.lt_iff_toNat_lt, ← UInt64.toNat_inj, toNat, UInt64.size]
  omega

theorem isBelow_iff {a b : Limbs} : a.isBelow b = true ↔ a.toNat < b.toNat := by
  rw [isBelow, beq_iff_eq, cmp_eq_lt]

def timesTenWord (a : UInt64) (carry : Nat) : UInt64 × Nat :=
  let wide := a.toNat * 10 + carry
  (UInt64.ofNat wide, wide / UInt64.size)

def tenthWord (rem : Nat) (a : UInt64) : UInt64 × Nat :=
  let wide := rem * UInt64.size + a.toNat
  (UInt64.ofNat (wide / 10), wide % 10)

theorem timesTenWord_eq (a : UInt64) (carry : Nat) :
    (timesTenWord a carry).1.toNat + UInt64.size * (timesTenWord a carry).2 =
      a.toNat * 10 + carry := by
  simp only [timesTenWord, UInt64.toNat_ofNat', UInt64.size]
  omega

theorem tenthWord_eq {rem : Nat} (h : rem < 10) (a : UInt64) :
    10 * (tenthWord rem a).1.toNat + (tenthWord rem a).2 = rem * UInt64.size + a.toNat := by
  have ha := a.toNat_lt
  simp only [tenthWord, UInt64.toNat_ofNat', UInt64.size]
  omega

theorem tenthWord_lt (rem : Nat) (a : UInt64) : (tenthWord rem a).2 < 10 :=
  Nat.mod_lt _ (by decide)

/-- Ten times a number and a digit more, from the lowest limb up: what stays in the limbs
and what is carried out of the top. -/
def timesTen (a : Limbs) (digit : Nat) : Limbs × Nat :=
  let w0 := timesTenWord a.l0 digit
  let w1 := timesTenWord a.l1 w0.2
  let w2 := timesTenWord a.l2 w1.2
  let w3 := timesTenWord a.l3 w2.2
  (⟨w0.1, w1.1, w2.1, w3.1⟩, w3.2)

/-- A tenth of a number, from the top limb down, and its last decimal digit. -/
def tenth (a : Limbs) : Limbs × Nat :=
  let w3 := tenthWord 0 a.l3
  let w2 := tenthWord w3.2 a.l2
  let w1 := tenthWord w2.2 a.l1
  let w0 := tenthWord w1.2 a.l0
  (⟨w0.1, w1.1, w2.1, w3.1⟩, w0.2)

theorem toNat_timesTen (a : Limbs) (digit : Nat) :
    (a.timesTen digit).1.toNat + size * (a.timesTen digit).2 = 10 * a.toNat + digit := by
  have h0 := timesTenWord_eq a.l0 digit
  have h1 := timesTenWord_eq a.l1 (timesTenWord a.l0 digit).2
  have h2 := timesTenWord_eq a.l2 (timesTenWord a.l1 (timesTenWord a.l0 digit).2).2
  have h3 := timesTenWord_eq a.l3
    (timesTenWord a.l2 (timesTenWord a.l1 (timesTenWord a.l0 digit).2).2).2
  simp only [timesTen, toNat, size, UInt64.size] at *
  omega

theorem toNat_tenth (a : Limbs) : 10 * a.tenth.1.toNat + a.tenth.2 = a.toNat := by
  have h3 := tenthWord_eq (show 0 < 10 by decide) a.l3
  have h2 := tenthWord_eq (tenthWord_lt 0 a.l3) a.l2
  have h1 := tenthWord_eq (tenthWord_lt (tenthWord 0 a.l3).2 a.l2) a.l1
  have h0 := tenthWord_eq (tenthWord_lt (tenthWord (tenthWord 0 a.l3).2 a.l2).2 a.l1) a.l0
  simp only [tenth, toNat, UInt64.size] at *
  omega

theorem tenth_lt (a : Limbs) : a.tenth.2 < 10 := tenthWord_lt _ _

theorem toNat_eq_zero {a : Limbs} : a.toNat = 0 ↔ a = ⟨0, 0, 0, 0⟩ := by
  constructor
  · exact fun h => toNat_inj h
  · rintro rfl
    rfl

theorem tenth_descends {a : Limbs} (h : a ≠ ⟨0, 0, 0, 0⟩) : a.tenth.1.toNat < a.toNat := by
  have hpos : a.toNat ≠ 0 := mt toNat_eq_zero.1 h
  have := a.toNat_tenth
  omega

def bits (a : Limbs) : List Bool :=
  [a.l3, a.l2, a.l1, a.l0].flatMap fun w => (List.range 64).reverse.map fun i => w.toNat.testBit i

end Limbs

end TokenLedger.Scalar
