import Mathlib.Data.List.Nodup
import Mathlib.Data.Nat.Bitwise
import TokenLedger.Seeds

/-!
# Draws of a cycle

A round is put over the last eight bytes of a seed by exclusive or. That
keeps the draws of one seed apart, and the draws of one round, as long as the
seeds are different. Between two seeds that differ in these bytes only it does
not: the round of the one may make up for what they differ in.
-/

set_option autoImplicit false

namespace TokenLedger

/-! ## Words under exclusive or -/

namespace Bytes

theorem wordValue_cons (b : UInt8) (bs : Bytes) :
    wordValue (b :: bs) = b.toNat + 256 * wordValue bs := rfl

theorem xor_add_mul {a b : Nat} (ha : a < 256) (hb : b < 256) (m n : Nat) :
    (a + 256 * m) ^^^ (b + 256 * n) = (a ^^^ b) + 256 * (m ^^^ n) := by
  have hlow : ((a + 256 * m) ^^^ (b + 256 * n)) % 2 ^ 8 = a ^^^ b := by
    rw [Nat.xor_mod_two_pow]
    congr 1 <;> omega
  have hhigh : ((a + 256 * m) ^^^ (b + 256 * n)) / 2 ^ 8 = m ^^^ n := by
    rw [Nat.xor_div_two_pow]
    congr 1 <;> omega
  rw [← hlow, ← hhigh]
  exact (Nat.mod_add_div _ (2 ^ 8)).symm

theorem wordValue_xorBytes {a b : Bytes} (h : a.length = b.length) :
    wordValue (SeedCycle.xorBytes a b) = wordValue a ^^^ wordValue b := by
  induction a generalizing b with
  | nil =>
    cases b with
    | nil => rfl
    | cons y b => cases h
  | cons x a ih =>
    cases b with
    | nil => cases h
    | cons y b =>
      have htail := ih (Nat.succ.inj h)
      rw [SeedCycle.xorBytes, List.zipWith_cons_cons, wordValue_cons, wordValue_cons,
        wordValue_cons, xor_add_mul x.toNat_lt y.toNat_lt, ← htail, UInt8.toNat_xor]
      rfl

theorem wordValue_inj {a b : Bytes} (hlength : a.length = b.length)
    (h : wordValue a = wordValue b) : a = b := by
  rw [← word_wordValue a, ← word_wordValue b, hlength, h]

end Bytes

namespace SeedCycle

def kept (seed : Bytes32) : Bytes := seed.toList.take 24

def mark (seed : Bytes32) : Nat := Bytes.wordValue (seed.toList.drop 24)

theorem xor_eq_xor_iff {a b m n : Nat} : a ^^^ m = b ^^^ n ↔ a ^^^ b = m ^^^ n := by
  constructor <;>
  · intro h
    apply Nat.eq_of_testBit_eq
    intro i
    have hi := congrArg (Nat.testBit · i) h
    simp only [Nat.testBit_xor] at hi ⊢
    grind

theorem inRound_eq_iff {a b : Bytes32} {m n : Nat} (hm : m < 2 ^ 64) (hn : n < 2 ^ 64) :
    inRound a m = inRound b n ↔ kept a = kept b ∧ mark a ^^^ mark b = m ^^^ n := by
  have htail (s : Bytes32) (r : Nat) : (s.toList.drop 24).length = (Bytes.word 8 r).length := by
    simp [s.length_toList]
  have hvalue (s : Bytes32) {r : Nat} (hr : r < 2 ^ 64) :
      Bytes.wordValue (xorBytes (s.toList.drop 24) (Bytes.word 8 r)) = mark s ^^^ r := by
    rw [Bytes.wordValue_xorBytes (htail s r), Bytes.wordValue_word]
    exact congrArg (mark s ^^^ ·) (Nat.mod_eq_of_lt hr)
  have hkept : (kept a).length = (kept b).length := by
    simp [kept, a.length_toList, b.length_toList]
  have hxor : (xorBytes (a.toList.drop 24) (Bytes.word 8 m)).length =
      (xorBytes (b.toList.drop 24) (Bytes.word 8 n)).length := by
    simp [xorBytes, a.length_toList, b.length_toList]
  rw [← xor_eq_xor_iff, ← hvalue a hm, ← hvalue b hn, Bytes32.ext_iff]
  constructor
  · intro h
    obtain ⟨hhead, hlast⟩ := List.append_inj h hkept
    exact ⟨hhead, congrArg Bytes.wordValue hlast⟩
  · rintro ⟨hhead, hlast⟩
    exact congrArg₂ (· ++ ·) hhead (Bytes.wordValue_inj hxor hlast)

end SeedCycle

/-! ## The draws -/

theorem SeedSource.drawMany_source (s : SeedSource) (n : Nat) :
    (s.drawMany n).2 = { s with drawn := s.drawn + n } := by
  induction n generalizing s with
  | zero => rfl
  | succ n ih =>
    rw [drawMany]
    show (s.draw.2.drawMany n).2 = _
    rw [ih, draw, Nat.add_assoc, Nat.add_comm 1]

namespace SeedCycle

variable (c : SeedCycle)

def drawn (i : Nat) : Except ProgramError Bytes32 :=
  ((c.source fun _ => false).drawMany i).2.draw.1

theorem slot_lt (i : Nat) : i % c.seeds.length < c.seeds.length :=
  Nat.mod_lt _ (List.length_pos_iff.2 c.nonempty)

def slot (i : Nat) : Fin c.seeds.length := ⟨i % c.seeds.length, c.slot_lt i⟩

def round (i : Nat) : Nat := i / c.seeds.length

def base (i : Nat) : Bytes32 := c.seeds.get (c.slot i)

def NeverRepeats : Prop :=
  ∀ i j, i < 2 ^ 64 → j < 2 ^ 64 → i ≠ j → c.drawn i ≠ c.drawn j

/-- Seeds that are the same in all the bytes outside the mark have marks that differ in so high
a bit that no round in reach has it. -/
def Apart (seeds : List Bytes32) : Prop :=
  ∀ p q : Fin seeds.length, p.val < q.val → kept (seeds.get p) = kept (seeds.get q) →
    2 ^ 64 ≤ 2 ^ (mark (seeds.get p) ^^^ mark (seeds.get q)).log2 * seeds.length + p

instance (seeds : List Bytes32) : Decidable (Apart seeds) := inferInstanceAs (Decidable (∀ _, _))

variable {c}

theorem served_never (n : Nat) : served (fun _ => false) n = n := by
  simp [served]

theorem drawn_eq (i : Nat) : c.drawn i = .ok (c.nth i) := by
  rw [drawn, SeedSource.drawMany_source, SeedSource.draw]
  simp [source, served_never]

theorem round_mul_add_slot (i : Nat) : c.round i * c.seeds.length + c.slot i = i := by
  rw [Nat.mul_comm]
  exact Nat.div_add_mod i c.seeds.length

theorem slot_at (r : Nat) (p : Fin c.seeds.length) : c.slot (r * c.seeds.length + p) = p := by
  apply Fin.ext
  show (r * c.seeds.length + p) % c.seeds.length = p
  rw [Nat.mul_add_mod', Nat.mod_eq_of_lt p.isLt]

theorem base_at (r : Nat) (p : Fin c.seeds.length) :
    c.base (r * c.seeds.length + p) = c.seeds.get p := by
  rw [base, slot_at]

theorem round_at (r : Nat) (p : Fin c.seeds.length) : c.round (r * c.seeds.length + p) = r := by
  rw [round, Nat.mul_comm, Nat.mul_add_div (Nat.zero_lt_of_lt p.isLt),
    Nat.div_eq_of_lt p.isLt, Nat.add_zero]

theorem nth_eq_iff {i j : Nat} (hi : i < 2 ^ 64) (hj : j < 2 ^ 64) :
    c.nth i = c.nth j ↔ kept (c.base i) = kept (c.base j) ∧
      mark (c.base i) ^^^ mark (c.base j) = c.round i ^^^ c.round j :=
  inRound_eq_iff (Nat.lt_of_le_of_lt (Nat.div_le_self ..) hi)
    (Nat.lt_of_le_of_lt (Nat.div_le_self ..) hj)

theorem eq_of_kept_of_mark {a b : Bytes32} (hkept : kept a = kept b) (hmark : mark a = mark b) :
    a = b := by
  have hlast : a.toList.drop 24 = b.toList.drop 24 :=
    Bytes.wordValue_inj (by simp [a.length_toList, b.length_toList]) hmark
  apply Bytes32.ext
  rw [← List.take_append_drop 24 a.toList, ← List.take_append_drop 24 b.toList, hlast]
  exact congrArg (· ++ _) hkept

theorem mark_ne_of_kept (h : c.seeds.Nodup) {p q : Fin c.seeds.length} (hpq : p ≠ q)
    (hkept : kept (c.seeds.get p) = kept (c.seeds.get q)) :
    mark (c.seeds.get p) ≠ mark (c.seeds.get q) := by
  intro hmark
  exact hpq (List.nodup_iff_injective_get.1 h (eq_of_kept_of_mark hkept hmark))

/-! ### The highest bit in which two rounds differ -/

theorem two_pow_log2_le_or {m n : Nat} (h : m ^^^ n ≠ 0) :
    2 ^ (m ^^^ n).log2 ≤ m ∨ 2 ^ (m ^^^ n).log2 ≤ n := by
  have hbit := Nat.testBit_log2 h
  rw [Nat.testBit_xor] at hbit
  cases hm : m.testBit (m ^^^ n).log2 with
  | true => exact .inl (Nat.ge_two_pow_of_testBit hm)
  | false =>
    rw [hm, Bool.false_xor] at hbit
    exact .inr (Nat.ge_two_pow_of_testBit hbit)

theorem xor_two_pow_log2_lt {n : Nat} (h : n ≠ 0) : n ^^^ 2 ^ n.log2 < 2 ^ n.log2 := by
  have hone : n / 2 ^ n.log2 = 1 := by
    have hlow := Nat.log2_self_le h
    have hhigh : n < 2 ^ (n.log2 + 1) := Nat.lt_log2_self
    rw [Nat.pow_succ] at hhigh
    rw [Nat.div_eq_iff (Nat.two_pow_pos _)]
    omega
  have hdiv : (n ^^^ 2 ^ n.log2) / 2 ^ n.log2 = 0 := by
    rw [Nat.xor_div_two_pow, hone, Nat.div_self (Nat.two_pow_pos _), Nat.xor_self]
  exact (Nat.div_eq_zero_iff.1 hdiv).resolve_left (Nat.two_pow_pos _).ne'

/-! ### When draws are repeated -/

theorem eq_of_slot {i j : Nat} (hi : i < 2 ^ 64) (hj : j < 2 ^ 64) (hslot : c.slot i = c.slot j)
    (h : c.nth i = c.nth j) : i = j := by
  obtain ⟨-, hmark⟩ := (nth_eq_iff hi hj).1 h
  rw [base, base, hslot, Nat.xor_self] at hmark
  have hround : c.round i = c.round j := Nat.xor_eq_zero_iff.1 hmark.symm
  rw [← round_mul_add_slot i, ← round_mul_add_slot j, hslot, hround]

theorem eq_of_round (hseeds : c.seeds.Nodup) {i j : Nat} (hi : i < 2 ^ 64) (hj : j < 2 ^ 64)
    (hround : c.round i = c.round j) (h : c.nth i = c.nth j) : i = j := by
  obtain ⟨hkept, hmark⟩ := (nth_eq_iff hi hj).1 h
  rw [hround, Nat.xor_self, Nat.xor_eq_zero_iff] at hmark
  have hslot : c.slot i = c.slot j := by
    by_contra hne
    exact mark_ne_of_kept hseeds hne hkept hmark
  rw [← round_mul_add_slot i, ← round_mul_add_slot j, hslot, hround]

/-- Two rounds that make up for a difference of marks differ in its highest bit, so the round
that has this bit is out of reach. -/
theorem nth_ne_of_slot_lt (hseeds : c.seeds.Nodup) (hapart : Apart c.seeds) {i j : Nat}
    (hi : i < 2 ^ 64) (hj : j < 2 ^ 64) (hslot : (c.slot i).val < (c.slot j).val) :
    c.nth i ≠ c.nth j := by
  intro h
  obtain ⟨hkept, hmark⟩ := (nth_eq_iff hi hj).1 h
  have hfar := hapart _ _ hslot hkept
  have hne : c.round i ^^^ c.round j ≠ 0 := by
    rw [← hmark, Ne, Nat.xor_eq_zero_iff]
    exact mark_ne_of_kept hseeds (Fin.ne_of_lt hslot) hkept
  rw [← base, ← base, hmark] at hfar
  -- whichever round has the bit, its draw is no earlier than the bound
  have hati := round_mul_add_slot (c := c) i
  have hatj := round_mul_add_slot (c := c) j
  rcases two_pow_log2_le_or hne with hround | hround
  · have hbound := Nat.mul_le_mul_right c.seeds.length hround
    omega
  · have hbound := Nat.mul_le_mul_right c.seeds.length hround
    omega

/-- One seed in the round of the highest bit in which the marks differ is the other seed in the
round of the lower bits. -/
theorem exists_repeat {p q : Fin c.seeds.length} (hpq : p ≠ q)
    (hkept : kept (c.seeds.get p) = kept (c.seeds.get q))
    (hne : mark (c.seeds.get p) ^^^ mark (c.seeds.get q) ≠ 0)
    (hreach : 2 ^ (mark (c.seeds.get p) ^^^ mark (c.seeds.get q)).log2 * c.seeds.length + p <
      2 ^ 64) :
    ∃ i j, i < 2 ^ 64 ∧ j < 2 ^ 64 ∧ i ≠ j ∧ c.nth i = c.nth j := by
  -- the one in the round of the highest bit of the difference, the other in that of the rest
  set x := mark (c.seeds.get p) ^^^ mark (c.seeds.get q) with hx
  have hlow : x ^^^ 2 ^ x.log2 < 2 ^ x.log2 := xor_two_pow_log2_lt hne
  have hj : (x ^^^ 2 ^ x.log2) * c.seeds.length + q < 2 ^ 64 := by
    have hq := q.isLt
    have hnext := Nat.mul_le_mul_right c.seeds.length (Nat.succ_le_of_lt hlow)
    rw [Nat.succ_mul] at hnext
    omega
  refine ⟨_, _, hreach, hj, fun h => hpq ?_, (nth_eq_iff hreach hj).2 ?_⟩
  · rw [← slot_at (2 ^ x.log2) p, h, slot_at]
  · rw [base_at, base_at, round_at, round_at, ← hx]
    refine ⟨hkept, ?_⟩
    rw [Nat.xor_comm x, ← Nat.xor_assoc, Nat.xor_self, Nat.zero_xor]

theorem neverRepeats_iff_nth :
    c.NeverRepeats ↔ ∀ i j, i < 2 ^ 64 → j < 2 ^ 64 → i ≠ j → c.nth i ≠ c.nth j := by
  simp only [NeverRepeats, drawn_eq, ne_eq, Except.ok.injEq]

theorem neverRepeats_iff_apart (hseeds : c.seeds.Nodup) : c.NeverRepeats ↔ Apart c.seeds := by
  rw [neverRepeats_iff_nth]
  constructor
  · intro hnever p q hpq hkept
    by_contra hreach
    have hne : mark (c.seeds.get p) ^^^ mark (c.seeds.get q) ≠ 0 :=
      fun h => mark_ne_of_kept hseeds (Fin.ne_of_lt hpq) hkept (Nat.xor_eq_zero_iff.1 h)
    obtain ⟨i, j, hi, hj, hij, hsame⟩ :=
      exists_repeat (Fin.ne_of_lt hpq) hkept hne (Nat.lt_of_not_le hreach)
    exact hnever i j hi hj hij hsame
  · intro hapart i j hi hj hij hsame
    rcases Nat.lt_trichotomy (c.slot i) (c.slot j) with hslot | hslot | hslot
    · exact nth_ne_of_slot_lt hseeds hapart hi hj hslot hsame
    · exact hij (eq_of_slot hi hj (Fin.ext hslot) hsame)
    · exact nth_ne_of_slot_lt hseeds hapart hj hi hslot hsame.symm

theorem neverRepeats_single (seed : Bytes32) : (single seed).NeverRepeats := by
  refine (neverRepeats_iff_apart (List.nodup_singleton seed)).2 fun p q hpq => ?_
  have hp : p.val < 1 := p.isLt
  have hq : q.val < 1 := q.isLt
  have hlt : p.val < q.val := hpq
  omega

/-- Which draws of a cycle are the same. -/
structure Draws (c : SeedCycle) : Prop where
  answer : ∀ i, c.drawn i = .ok (inRound (c.base i) (c.round i))
  same_iff : ∀ i j, i < 2 ^ 64 → j < 2 ^ 64 → (c.drawn i = c.drawn j ↔
    kept (c.base i) = kept (c.base j) ∧
      mark (c.base i) ^^^ mark (c.base j) = c.round i ^^^ c.round j)
  slot : ∀ i j, i < 2 ^ 64 → j < 2 ^ 64 → c.slot i = c.slot j → c.drawn i = c.drawn j → i = j
  round : ∀ i j, i < 2 ^ 64 → j < 2 ^ 64 → c.round i = c.round j → c.drawn i = c.drawn j → i = j
  never : c.NeverRepeats ↔ Apart c.seeds

theorem draws_of_nodup (hseeds : c.seeds.Nodup) : c.Draws where
  answer := drawn_eq
  same_iff i j hi hj := by
    rw [drawn_eq, drawn_eq, Except.ok.injEq, nth_eq_iff hi hj]
  slot i j hi hj hslot h := by
    rw [drawn_eq, drawn_eq, Except.ok.injEq] at h
    exact eq_of_slot hi hj hslot h
  round i j hi hj hround h := by
    rw [drawn_eq, drawn_eq, Except.ok.injEq] at h
    exact eq_of_round hseeds hi hj hround h
  never := neverRepeats_iff_apart hseeds

def distant : SeedCycle where
  seeds := [Bytes32.replicate 0, ⟨List.replicate 31 0 ++ [128], by decide⟩]
  nonempty := nofun

theorem draws_distant : distant.seeds.Nodup ∧ distant.Draws ∧ distant.NeverRepeats := by
  have hseeds : distant.seeds.Nodup := by decide
  have hdraws : distant.Draws := draws_of_nodup hseeds
  exact ⟨hseeds, hdraws, hdraws.never.2 (by decide)⟩

def neighbours : SeedCycle where
  seeds := [Bytes32.replicate 0, ⟨List.replicate 24 0 ++ 1 :: List.replicate 7 0, by decide⟩]
  nonempty := nofun

theorem not_neverRepeats_neighbours :
    neighbours.seeds.Nodup ∧ neighbours.drawn 1 = neighbours.drawn 2 ∧
      ¬neighbours.NeverRepeats := by
  have hsame : neighbours.drawn 1 = neighbours.drawn 2 := by
    rw [drawn_eq, drawn_eq]
    exact congrArg Except.ok (by decide)
  refine ⟨by decide, hsame, fun hnever => ?_⟩
  exact hnever 1 2 (by decide) (by decide) (by decide) hsame

end SeedCycle

end TokenLedger
