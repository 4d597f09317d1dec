import Mathlib.Tactic.ByContra
import TokenLedger.Proofs.CanonicalText

/-!
# Typing errors are caught

Two valid words of no more than 58 symbols differ in at least three places.
The register is linear, so the difference of two valid words leads it from
zero back to zero; it is never zero after one symbol, and after a second one
only if the first has come back to its own five bits, which takes longer. So
no text of an account becomes another one by changing one or two characters.
-/

set_option autoImplicit false

namespace TokenLedger

/-! ## Distance -/

def distance {α : Type} [DecidableEq α] (u w : List α) : Nat :=
  (u.zip w).countP fun p => p.1 ≠ p.2

section Distance

variable {α : Type} [DecidableEq α] {u v w : List α}

theorem distance_cons (a b : α) (u w : List α) :
    distance (a :: u) (b :: w) = distance u w + if a = b then 0 else 1 := by
  by_cases h : a = b <;> simp [distance, h]

theorem distance_self (u : List α) : distance u u = 0 := by
  induction u with
  | nil => rfl
  | cons a u ih => rw [distance_cons, ih, if_pos rfl]

theorem eq_of_distance_eq_zero (hlength : u.length = w.length) (h : distance u w = 0) : u = w := by
  induction u generalizing w with
  | nil => exact (List.eq_nil_of_length_eq_zero hlength.symm).symm
  | cons a u ih =>
    cases w with
    | nil => cases hlength
    | cons b w =>
      rw [distance_cons] at h
      have htail := ih (Nat.succ.inj hlength) (by omega)
      by_cases hab : a = b
      · rw [hab, htail]
      · rw [if_neg hab] at h
        omega

theorem distance_triangle (h : u.length = v.length) (h' : v.length = w.length) :
    distance u w ≤ distance u v + distance v w := by
  induction u generalizing v w with
  | nil => exact Nat.zero_le _
  | cons a u ih =>
    cases v with
    | nil => cases h
    | cons b v =>
      cases w with
      | nil => cases h'
      | cons c w =>
        have htail := ih (Nat.succ.inj h) (Nat.succ.inj h')
        rw [distance_cons, distance_cons, distance_cons]
        by_cases hab : a = b
        · rw [if_pos hab, hab]
          omega
        · rw [if_neg hab]
          split <;> omega

theorem distance_set_le (u : List α) (i : Nat) (a : α) : distance u (u.set i a) ≤ 1 := by
  induction u generalizing i with
  | nil => exact Nat.zero_le _
  | cons b u ih =>
    cases i with
    | zero =>
      rw [List.set_cons_zero, distance_cons, distance_self]
      split <;> omega
    | succ i =>
      rw [List.set_cons_succ, distance_cons, if_pos rfl]
      exact ih i

theorem distance_append_left (v u w : List α) : distance (v ++ u) (v ++ w) = distance u w := by
  induction v with
  | nil => rfl
  | cons a v ih =>
    rw [List.cons_append, List.cons_append, distance_cons, ih, if_pos rfl, Nat.add_zero]

theorem distance_map {β : Type} [DecidableEq β] {f : α → β} (hf : Function.Injective f)
    (u w : List α) : distance (u.map f) (w.map f) = distance u w := by
  rw [distance, List.zip_map, List.countP_map]
  apply List.countP_congr
  rintro ⟨a, b⟩ _
  simp [hf.eq_iff]

end Distance

namespace Bech32m

/-! ## The register over an error -/

def weight (es : List Symbol) : Nat := es.countP (· ≠ 0)

theorem weight_cons (e : Symbol) (es : List Symbol) :
    weight (e :: es) = weight es + if e = 0 then 0 else 1 := by
  rw [weight, List.countP_cons, weight]
  by_cases h : e = 0
  · rw [if_neg (by simp [h]), if_pos h]
  · rw [if_pos (decide_eq_true h), if_neg h]

theorem weight_zipWith {u w : List Symbol} (hlength : u.length = w.length) :
    weight (List.zipWith (· ^^^ ·) u w) = distance u w := by
  induction u generalizing w with
  | nil => rfl
  | cons a u ih =>
    cases w with
    | nil => cases hlength
    | cons b w =>
      rw [List.zipWith_cons_cons, weight_cons, distance_cons, ih (Nat.succ.inj hlength)]
      exact congrArg _ (if_congr BitVec.xor_eq_zero_iff rfl rfl)

theorem foldl_step_zipWith (r x : Remainder) {u w : List Symbol} (hlength : u.length = w.length) :
    (List.zipWith (· ^^^ ·) u w).foldl step (r ^^^ x) = u.foldl step r ^^^ w.foldl step x := by
  induction u generalizing r x w with
  | nil =>
    rw [List.eq_nil_of_length_eq_zero hlength.symm]
    rfl
  | cons a u ih =>
    cases w with
    | nil => cases hlength
    | cons b w =>
      rw [List.zipWith_cons_cons, List.foldl_cons, step_xor, ih _ _ (Nat.succ.inj hlength)]
      rfl

theorem step_eq (r : Remainder) (s : Symbol) : step r s = step r 0 ^^^ s.setWidth 30 := by
  have hblank : step 0 s = s.setWidth 30 := by
    revert s
    decide
  have hsplit : step (r ^^^ 0) (0 ^^^ s) = step r 0 ^^^ step 0 s := step_xor r 0 0 s
  have hr : r ^^^ 0 = r := BitVec.xor_zero
  have hs : 0 ^^^ s = s := BitVec.zero_xor
  rwa [hr, hs, hblank] at hsplit

theorem step_zero_ne_zero {r : Remainder} (h : r ≠ 0) : step r 0 ≠ 0 := by
  intro hstep
  have hlow (top : Symbol) : (feedback top).extractLsb' 0 5 = 0 → top = 0 := by
    revert top
    decide
  have htop : r.extractLsb' 25 5 = 0 := by
    apply hlow
    have hzero : (step r 0).extractLsb' 0 5 = 0 := by
      rw [hstep]
      rfl
    rw [← hzero, step]
    ext i hi
    simp [hi]
  -- a register without a top symbol has only moved up, so its other symbols are blank as well
  have hzero : symbols 0 = [0, 0, 0, 0, 0, 0] := by decide
  have hmoved := symbols_step htop 0
  rw [hstep, hzero] at hmoved
  have hblank : symbols r = symbols 0 := by
    rw [hzero]
    simp only [symbols, List.tail_cons, List.cons_append, List.nil_append, List.cons.injEq]
      at hmoved ⊢
    exact ⟨htop, hmoved.1.symm, hmoved.2.1.symm, hmoved.2.2.1.symm, hmoved.2.2.2.1.symm,
      hmoved.2.2.2.2.1.symm, trivial⟩
  rw [← foldl_step_symbols r, hblank, foldl_step_symbols] at h
  exact h rfl

/-- For some steps over zeros the register holds more than its last symbol. -/
def outgrows : Nat → Remainder → Bool
  | 0, _ => true
  | n + 1, r => decide (32 ≤ (step r 0).toNat) && outgrows n (step r 0)

theorem outgrows_of_le {m n : Nat} {r : Remainder} (hle : m ≤ n) (h : outgrows n r = true) :
    outgrows m r = true := by
  induction m generalizing n r with
  | zero => rfl
  | succ m ih =>
    cases n with
    | zero => omega
    | succ n =>
      obtain ⟨hlarge, hrest⟩ := Bool.and_eq_true_iff.1 h
      exact Bool.and_eq_true_iff.2 ⟨hlarge, ih (by omega) hrest⟩

/-- A symbol alone does not come back to its own place within 57 steps. -/
theorem outgrows_symbol {s : Symbol} (h : s ≠ 0) : outgrows 57 (s.setWidth 30) = true := by
  revert s
  decide +kernel

theorem foldl_step_blank {r : Remainder} (hr : r ≠ 0) {es : List Symbol} (h : weight es = 0) :
    es.foldl step r ≠ 0 := by
  induction es generalizing r with
  | nil => exact hr
  | cons e es ih =>
    rw [weight_cons] at h
    have he : e = 0 := by
      by_contra hne
      rw [if_neg hne] at h
      omega
    rw [List.foldl_cons, he]
    exact ih (step_zero_ne_zero hr) (by omega)

/-- One more symbol does not make up for what the register has outgrown. -/
theorem foldl_step_outgrown {r : Remainder} (hr : r ≠ 0) {es : List Symbol}
    (hgrown : outgrows es.length r = true) (h : weight es ≤ 1) : es.foldl step r ≠ 0 := by
  induction es generalizing r with
  | nil => exact hr
  | cons e es ih =>
    obtain ⟨hlarge, hrest⟩ := Bool.and_eq_true_iff.1 hgrown
    have hle : 32 ≤ (step r 0).toNat := of_decide_eq_true hlarge
    rw [weight_cons] at h
    rw [List.foldl_cons]
    by_cases he : e = 0
    · rw [he]
      exact ih (step_zero_ne_zero hr) hrest (by omega)
    · rw [if_neg he] at h
      -- this was the only change left, and the register holds more than it can cancel
      apply foldl_step_blank _ (by omega)
      rw [step_eq]
      intro heq
      have hsame := congrArg BitVec.toNat (BitVec.xor_eq_zero_iff.1 heq)
      rw [BitVec.toNat_setWidth] at hsame
      have := e.isLt
      omega

theorem syndrome_ne_zero {es : List Symbol} (hpos : 0 < weight es) (hle : weight es ≤ 2)
    (hlength : es.length ≤ 58) : es.foldl step 0 ≠ 0 := by
  induction es with
  | nil => cases hpos
  | cons e es ih =>
    have hblank : step 0 0 = 0 := by decide
    rw [weight_cons] at hpos hle
    rw [List.foldl_cons]
    -- unchanged symbols leave the register blank up to the first that is changed
    by_cases he : e = 0
    · rw [if_pos he] at hpos hle
      rw [he, hblank]
      exact ih hpos hle (Nat.le_of_succ_le hlength)
    · rw [if_neg he] at hle
      have hsymbol : step 0 e = e.setWidth 30 := by
        rw [step_eq, hblank]
        exact BitVec.zero_xor
      have hvisible : ∀ s : Symbol, s ≠ 0 → s.setWidth 30 ≠ (0 : Remainder) := by decide
      rw [hsymbol]
      apply foldl_step_outgrown (hvisible e he) _ (by omega)
      exact outgrows_of_le (Nat.le_of_succ_le_succ hlength) (outgrows_symbol he)

theorem three_le_distance {label : List Char} {u w : List Symbol} (hu : isValid label u = true)
    (hw : isValid label w = true) (hlength : u.length = w.length) (hle : u.length ≤ 58)
    (hne : u ≠ w) : 3 ≤ distance u w := by
  by_contra hlt
  have hweight := weight_zipWith hlength
  have hpos : distance u w ≠ 0 := fun h => hne (eq_of_distance_eq_zero hlength h)
  have hsyndrome := foldl_step_zipWith (remainder (expand label)) (remainder (expand label)) hlength
  have hu' : u.foldl step (remainder (expand label)) = constant := by
    rw [remainder, ← List.foldl_append]
    exact eq_of_beq hu
  have hw' : w.foldl step (remainder (expand label)) = constant := by
    rw [remainder, ← List.foldl_append]
    exact eq_of_beq hw
  rw [BitVec.xor_self, hu', hw', BitVec.xor_self] at hsyndrome
  refine syndrome_ne_zero (by omega) (by omega) ?_ hsyndrome
  rw [List.length_zipWith]
  omega

end Bech32m

/-! ## Texts of accounts -/

namespace Address

open Bech32m

theorem char_injective : Function.Injective char := fun s t h =>
  Option.some.inj (by rw [← symbol?_char s, h, symbol?_char])

theorem three_le_distance_chars {a b : Address} (h : a ≠ b) : 3 ≤ distance a.chars b.chars := by
  have hlength (key : Bytes32) :
      (keySymbols key ++ checksum label (keySymbols key)).length = 58 := by
    rw [List.length_append, length_keySymbols]
    rfl
  rw [chars, chars, distance_append_left, distance_map char_injective]
  apply three_le_distance (isValid_checksum label _) (isValid_checksum label _)
  · rw [hlength, hlength]
  · exact Nat.le_of_eq (hlength a.key)
  · intro heq
    apply h
    rw [← text_inj, text, text, chars, chars]
    simp only [heq]

def exchange (cs : List Char) (i j : Fin cs.length) : List Char := (cs.set i cs[j]).set j cs[i]

theorem distance_exchange_le (cs : List Char) (i j : Fin cs.length) :
    distance cs (exchange cs i j) ≤ 2 := by
  have hfirst := distance_set_le cs i cs[j]
  have hsecond := distance_set_le (cs.set i cs[j]) j cs[i]
  have hlength : cs.length = (cs.set i cs[j]).length := List.length_set.symm
  have hlength' : (cs.set i cs[j]).length = (exchange cs i j).length := List.length_set.symm
  exact Nat.le_trans (distance_triangle hlength hlength') (Nat.add_le_add hfirst hsecond)

theorem exchange_ne {cs : List Char} {i j : Fin cs.length} (h : cs[i] ≠ cs[j]) :
    exchange cs i j ≠ cs := by
  intro heq
  have hget : (exchange cs i j)[(j : Nat)]? = cs[(j : Nat)]? := by rw [heq]
  rw [exchange, List.getElem?_set_self (by simp), List.getElem?_eq_getElem j.isLt] at hget
  exact h (Option.some.inj hget)

/-- A text is told apart from all those that differ from it in one or two characters, and so
from those in which two different characters are exchanged. -/
structure CatchesTypos (raw : String) : Prop where
  altered : ∀ other : String, other.toList.length = raw.toList.length →
    (distance raw.toList other.toList = 1 ∨ distance raw.toList other.toList = 2) →
    parse other = .error (.address other)
  swapped : ∀ i j : Fin raw.toList.length, raw.toList[i] ≠ raw.toList[j] →
    parse (String.ofList (exchange raw.toList i j)) =
      .error (.address (String.ofList (exchange raw.toList i j)))

theorem parse_of_near {a : Address} {other : String} (hne : a.text ≠ other)
    (h : distance a.chars other.toList ≤ 2) : parse other = .error (.address other) := by
  unfold parse
  split
  · next b hread =>
    have hchars : b.chars = other.toList := chars_of_ofChars? hread
    have hab : a ≠ b := by
      rintro rfl
      exact hne (by rw [text, hchars, String.ofList_toList])
    have hfar := three_le_distance_chars hab
    rw [hchars] at hfar
    omega
  · rfl

theorem catchesTypos_of_parse {raw : String} {a : Address} (h : parse raw = .ok a) :
    CatchesTypos raw := by
  have htext := text_of_parse h
  have hchars : raw.toList = a.chars := by rw [← htext, text, String.toList_ofList]
  constructor
  · intro other _ hdistance
    apply parse_of_near (a := a)
    · intro heq
      rw [← heq, htext, distance_self] at hdistance
      omega
    · rw [← hchars]
      omega
  · intro i j hij
    apply parse_of_near (a := a)
    · intro heq
      apply exchange_ne hij
      rw [← String.toList_ofList (l := exchange raw.toList i j), ← heq, htext]
    · rw [← hchars, String.toList_ofList]
      exact distance_exchange_le raw.toList i j

theorem catchesTypos_ones :
    parse "aleo1qyqszqgpqyqszqgpqyqszqgpqyqszqgpqyqszqgpqyqszqgpqyqs5dt756" =
        .ok ⟨Bytes32.replicate 1⟩ ∧
      CatchesTypos "aleo1qyqszqgpqyqszqgpqyqszqgpqyqszqgpqyqszqgpqyqszqgpqyqs5dt756" := by
  have h : parse "aleo1qyqszqgpqyqszqgpqyqszqgpqyqszqgpqyqszqgpqyqszqgpqyqs5dt756" =
      .ok ⟨Bytes32.replicate 1⟩ := parse_eq_ok.2 (by decide +kernel)
  exact ⟨h, catchesTypos_of_parse h⟩

end Address

end TokenLedger
