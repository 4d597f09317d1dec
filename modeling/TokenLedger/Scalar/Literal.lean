import TokenLedger.Scalar.Basic
import TokenLedger.LiteralError

/-!
# Field literals

An element is written in decimal with the suffix `field`. When read the
suffix may be absent, leading zeros do not count, and a number that reaches
the modulus is refused rather than reduced. Reading puts one digit after the
other behind the limbs, writing takes them off again.
-/

set_option autoImplicit false

namespace TokenLedger.Scalar

def suffixChars : List Char := "field".toList

def stripSuffix (cs : List Char) : List Char :=
  if cs.drop (cs.length - 5) = suffixChars then cs.take (cs.length - 5) else cs

def readDigits (acc : Limbs) : List Char → Option Limbs
  | [] => some acc
  | c :: cs =>
    let next := acc.timesTen (c.toNat - '0'.toNat)
    if next.2 = 0 then readDigits next.1 cs else none

def ofDigits? (cs : List Char) : Option Scalar := (readDigits ⟨0, 0, 0, 0⟩ cs).bind ofLimbs?

def parse (raw : String) : Except LiteralError Scalar :=
  let digits := stripSuffix raw.toList
  if digits.isEmpty || !digits.all Char.isDigit then .error (.scalar raw)
  else
    match ofDigits? digits with
    | some a => .ok a
    | none => .error (.scalarRange raw)

/-- The digits of a number in front of others, taken off its end; none for zero. -/
def writeDigits (a : Limbs) (cs : List Char) : List Char :=
  if _ : a = ⟨0, 0, 0, 0⟩ then cs
  else writeDigits a.tenth.1 (Nat.digitChar a.tenth.2 :: cs)
termination_by a.toNat
decreasing_by exact Limbs.tenth_descends ‹_›

def chars (a : Scalar) : List Char :=
  (if a.isZero then ['0'] else writeDigits a.limbs []) ++ suffixChars

def text (a : Scalar) : String := String.ofList a.chars

theorem le_ofDigitChars (n : Nat) (cs : List Char) : n ≤ Nat.ofDigitChars 10 cs n := by
  induction cs generalizing n with
  | nil => exact Nat.le_refl n
  | cons c cs ih =>
    rw [Nat.ofDigitChars_cons]
    exact Nat.le_trans (by omega) (ih _)

/-- Reading gives the number behind the digits, and gives up on those that the limbs cannot hold:
a number that has outgrown them does not come back with more digits. -/
theorem readDigits_eq_some {acc b : Limbs} {cs : List Char} :
    readDigits acc cs = some b ↔ b.toNat = Nat.ofDigitChars 10 cs acc.toNat := by
  induction cs generalizing acc with
  | nil =>
    rw [readDigits, Option.some.injEq]
    exact ⟨fun h => h ▸ rfl, fun h => Limbs.toNat_inj h.symm⟩
  | cons c cs ih =>
    have hnext := acc.toNat_timesTen (c.toNat - '0'.toNat)
    rw [readDigits, Nat.ofDigitChars_cons, ← hnext]
    by_cases hcarry : (acc.timesTen (c.toNat - '0'.toNat)).2 = 0
    · rw [if_pos hcarry, ih, hcarry, Nat.mul_zero, Nat.add_zero]
    · rw [if_neg hcarry]
      have hle := le_ofDigitChars ((acc.timesTen (c.toNat - '0'.toNat)).1.toNat +
        Limbs.size * (acc.timesTen (c.toNat - '0'.toNat)).2) cs
      have hsize : Limbs.size ≤ Limbs.size * (acc.timesTen (c.toNat - '0'.toNat)).2 :=
        Nat.le_mul_of_pos_right _ (Nat.pos_of_ne_zero hcarry)
      have hb := b.toNat_lt
      constructor
      · exact nofun
      · omega

theorem ofDigits?_eq_some {cs : List Char} {x : Scalar} :
    ofDigits? cs = some x ↔ x.toNat = Nat.ofDigitChars 10 cs 0 := by
  simp only [ofDigits?, Option.bind_eq_some_iff, readDigits_eq_some, ofLimbs?_eq_some]
  constructor
  · rintro ⟨_, hread, rfl⟩
    exact hread
  · exact fun h => ⟨x.limbs, h, rfl⟩

theorem writeDigits_eq {a : Limbs} (h : a ≠ ⟨0, 0, 0, 0⟩) (cs : List Char) :
    writeDigits a cs = Nat.toDigits 10 a.toNat ++ cs := by
  induction a, cs using writeDigits.induct with
  | case1 cs => exact absurd rfl h
  | case2 a cs _ ih =>
    have htenth := a.toNat_tenth
    have hlt := a.tenth_lt
    rw [writeDigits, dif_neg h, Nat.toDigits_eq_if (by decide)]
    by_cases hrest : a.tenth.1 = ⟨0, 0, 0, 0⟩
    · have hzero := Limbs.toNat_eq_zero.2 hrest
      have hdigit : a.tenth.2 = a.toNat := by omega
      rw [if_pos (by omega), hrest, hdigit, writeDigits, dif_pos rfl, List.singleton_append]
    · have hpos : a.tenth.1.toNat ≠ 0 := mt Limbs.toNat_eq_zero.1 hrest
      have hquot : a.toNat / 10 = a.tenth.1.toNat := by omega
      have hrem : a.toNat % 10 = a.tenth.2 := by omega
      rw [if_neg (by omega), ih hrest, hquot, hrem, List.append_assoc, List.singleton_append]

theorem chars_eq (a : Scalar) : a.chars = Nat.toDigits 10 a.toNat ++ suffixChars := by
  rw [chars]
  cases hzero : a.isZero with
  | true =>
    have hnat : a.toNat = 0 := Limbs.toNat_eq_zero.2 (eq_of_beq hzero)
    rw [if_pos rfl, hnat, Nat.toDigits_zero]
  | false =>
    have hne : a.limbs ≠ ⟨0, 0, 0, 0⟩ := ne_of_beq_false hzero
    rw [if_neg Bool.false_ne_true, writeDigits_eq hne, List.append_nil, toNat]

theorem stripSuffix_append (cs : List Char) : stripSuffix (cs ++ suffixChars) = cs := by
  have : suffixChars.length = 5 := by decide
  simp [stripSuffix, this]

theorem parse_text (a : Scalar) : parse a.text = .ok a := by
  have hne : Nat.toDigits 10 a.toNat ≠ [] := Nat.toDigits_ne_nil
  have hd : (Nat.toDigits 10 a.toNat).all Char.isDigit = true :=
    List.all_eq_true.2 fun c hc => Nat.isDigit_of_mem_toDigits (by decide) (by decide) hc
  have hread : ofDigits? (Nat.toDigits 10 a.toNat) = some a :=
    ofDigits?_eq_some.2 Nat.ofDigitChars_ten_toDigits.symm
  simp [parse, text, chars_eq, stripSuffix_append, hne, hd, hread]

theorem toNat_lt_of_mem_chars {a : Scalar} {c : Char} (h : c ∈ a.chars) : c.toNat < 128 := by
  have hsuffix : (suffixChars.all fun d => decide (d.toNat < 128)) = true := by decide
  rw [chars_eq] at h
  rcases List.mem_append.1 h with h | h
  · have hdigit := Nat.isDigit_of_mem_toDigits (by decide) (by decide) h
    have hle : c.toNat ≤ 57 := (Char.isDigit_iff_toNat.1 hdigit).2
    omega
  · exact of_decide_eq_true (List.all_eq_true.1 hsuffix c h)

theorem length_chars_le (a : Scalar) : a.chars.length ≤ 82 := by
  have hlt : a.toNat < 10 ^ 77 := Nat.lt_trans a.toNat_lt (by decide)
  have hdigits : (Nat.toDigits 10 a.toNat).length ≤ 77 :=
    (Nat.length_toDigits_le_iff (by decide) (by decide)).2 hlt
  have hsuffix : suffixChars.length = 5 := by decide
  rw [chars_eq, List.length_append]
  omega

end TokenLedger.Scalar
