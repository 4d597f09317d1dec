import TokenLedger.Proofs.JsonText
import TokenLedger.Proofs.RecordBody

/-!
# Field literals are read and written exactly

Which texts are refused, and why, is decided by the bytes before the suffix
and by the number that they spell, however many digits there are. What is
written is the one spelling without zeros in front, and it is read back.
-/

set_option autoImplicit false

namespace TokenLedger

/-! ## Digits as bytes -/

namespace Text.Utf8

def IsDigit (b : UInt8) : Prop := 48 ≤ b.toNat ∧ b.toNat ≤ 57

theorem exists_high_byte {c : Char} (h : 128 ≤ c.toNat) :
    ∃ b ∈ String.utf8EncodeChar c, 128 ≤ b.toNat := by
  have hgt : ¬c.val.toNat ≤ 0x7f := by
    show ¬c.toNat ≤ 0x7f
    omega
  have hlast : 128 ≤ (UInt8.ofNat (c.val.toNat % 64 + 128)).toNat := by
    rw [UInt8.toNat_ofNat']
    omega
  -- the last byte of every longer form has its top bit set
  refine ⟨UInt8.ofNat (c.val.toNat % 64 + 128), ?_, hlast⟩
  simp only [String.utf8EncodeChar, hgt, if_false]
  split
  · simp
  · split <;> simp

theorem digit_bytes_iff (cs : List Char) :
    (∀ b ∈ encode cs, IsDigit b) ↔ ∀ c ∈ cs, c.isDigit = true := by
  have hchar (c : Char) : (∀ b ∈ String.utf8EncodeChar c, IsDigit b) ↔ c.isDigit = true := by
    rw [Char.isDigit_iff_toNat]
    by_cases h : c.toNat < 128
    · have hbyte : (UInt8.ofNat c.toNat).toNat = c.toNat := by
        simpa using Nat.mod_eq_of_lt (show c.toNat < 256 by omega)
      rw [encodeChar_ascii h, List.forall_mem_singleton, IsDigit, hbyte]
      rfl
    · obtain ⟨b, hb, hhigh⟩ := exists_high_byte (Nat.le_of_not_lt h)
      constructor
      · intro hall
        have hlow := (hall b hb).2
        omega
      · intro hdigit
        have hle : c.toNat ≤ 57 := hdigit.2
        omega
  simp only [encode, List.mem_flatMap, forall_exists_index, and_imp]
  constructor
  · exact fun h c hc => (hchar c).1 fun b hb => h b c hc hb
  · exact fun h b c hc hb => (hchar c).2 (h c hc) b hb

end Text.Utf8

namespace Scalar

/-! ## Leading zeros -/

theorem digit_lt_ten {c : Char} (h : c.isDigit = true) : c.toNat - '0'.toNat < 10 := by
  have hc := Char.isDigit_iff_toNat.1 h
  have h0 : '0'.toNat = 48 := rfl
  have h9 : '9'.toNat = 57 := rfl
  omega

theorem digitChar_of_isDigit {c : Char} (h : c.isDigit = true) :
    Nat.digitChar (c.toNat - '0'.toNat) = c := by
  have hc := (Char.isDigit_iff_toNat.1 h).1
  have h0 : '0'.toNat = 48 := rfl
  apply Char.toNat_inj.1
  rw [Nat.toNat_digitChar_of_lt_ten (digit_lt_ten h)]
  omega

theorem toDigits_append {n : Nat} (hn : 0 < n) {cs : List Char}
    (h : ∀ c ∈ cs, c.isDigit = true) :
    Nat.toDigits 10 n ++ cs = Nat.toDigits 10 (Nat.ofDigitChars 10 cs n) := by
  induction cs generalizing n with
  | nil => exact List.append_nil _
  | cons c cs ih =>
    have hd := digit_lt_ten (h c List.mem_cons_self)
    have hpush : Nat.toDigits 10 (10 * n + (c.toNat - '0'.toNat)) = Nat.toDigits 10 n ++ [c] := by
      rw [← Nat.toDigits_append_toDigits (by decide) hn hd, Nat.toDigits_of_lt_base hd,
        digitChar_of_isDigit (h c List.mem_cons_self)]
    rw [Nat.ofDigitChars_cons, ← ih (by omega) fun d hd => h d (List.mem_cons_of_mem c hd), hpush,
      List.append_assoc, List.singleton_append]

/-- Digits without the zeros in front of them; a zero stays if there is nothing else. -/
def canonical (cs : List Char) : List Char :=
  match cs.dropWhile (· = '0') with
  | [] => ['0']
  | d :: ds => d :: ds

theorem toDigits_ofDigitChars {cs : List Char} (h : ∀ c ∈ cs, c.isDigit = true) :
    Nat.toDigits 10 (Nat.ofDigitChars 10 cs 0) = canonical cs := by
  induction cs with
  | nil => exact Nat.toDigits_zero 10
  | cons c cs ih =>
    have hcs : ∀ d ∈ cs, d.isDigit = true := fun d hd => h d (List.mem_cons_of_mem c hd)
    by_cases hc : c = '0'
    · have hskip : canonical (c :: cs) = canonical cs := by simp [canonical, hc]
      have hvalue : Nat.ofDigitChars 10 (c :: cs) 0 = Nat.ofDigitChars 10 cs 0 := by
        rw [hc]; rfl
      rw [hskip, hvalue, ih hcs]
    · have hstay : canonical (c :: cs) = c :: cs := by simp [canonical, hc]
      have hdigit := h c List.mem_cons_self
      have hlow := Char.isDigit_iff_toNat.1 hdigit
      have hpos : 0 < c.toNat - '0'.toNat := by
        have hne : c.toNat ≠ '0'.toNat := fun heq => hc (Char.toNat_inj.1 heq)
        omega
      have hvalue : Nat.ofDigitChars 10 (c :: cs) 0 =
          Nat.ofDigitChars 10 cs (c.toNat - '0'.toNat) := by
        rw [Nat.ofDigitChars_cons, Nat.mul_zero, Nat.zero_add]
      rw [hstay, hvalue, ← toDigits_append hpos hcs, Nat.toDigits_of_lt_base (digit_lt_ten hdigit),
        digitChar_of_isDigit hdigit, List.singleton_append]

/-! ## What is read -/

/-- The part of a text that is read as a number: what is in front of one suffix, or all of a
text without the suffix. -/
inductive Stripped : List Char → List Char → Prop where
  | suffixed (ds : List Char) : Stripped (ds ++ suffixChars) ds
  | bare {cs : List Char} (h : ¬suffixChars <:+ cs) : Stripped cs cs

theorem stripped_iff {cs ds : List Char} : Stripped cs ds ↔ stripSuffix cs = ds := by
  have hlength : suffixChars.length = 5 := by decide
  constructor
  · intro h
    cases h with
    | suffixed => exact stripSuffix_append ds
    | bare h =>
      refine if_neg fun hdrop => h ?_
      rw [← hdrop]
      exact List.drop_suffix _ _
  · rintro rfl
    by_cases h : suffixChars <:+ cs
    · obtain ⟨ds, rfl⟩ := h
      rw [stripSuffix_append]
      exact .suffixed ds
    · have hbare : stripSuffix cs = cs := by
        refine if_neg fun hdrop => h ?_
        rw [← hdrop]
        exact List.drop_suffix _ _
      rw [hbare]
      exact .bare h

theorem exists_toNat_eq {n : Nat} (h : n < modulus) : ∃ x : Scalar, x.toNat = n := by
  have hsize : modulus < Limbs.size := by decide
  have hvalue : (Limbs.ofNat n).toNat = n := Limbs.toNat_ofNat (Nat.lt_trans h hsize)
  exact ⟨⟨Limbs.ofNat n, by rwa [hvalue]⟩, hvalue⟩

theorem ofDigits?_cases (cs : List Char) :
    (∃ x, ofDigits? cs = some x ∧ x.toNat = Nat.ofDigitChars 10 cs 0) ∨
      ofDigits? cs = none ∧ modulus ≤ Nat.ofDigitChars 10 cs 0 := by
  cases h : ofDigits? cs with
  | some x => exact .inl ⟨x, rfl, ofDigits?_eq_some.1 h⟩
  | none =>
    refine .inr ⟨rfl, Nat.le_of_not_lt fun hlt => ?_⟩
    obtain ⟨x, hx⟩ := exists_toNat_eq hlt
    rw [ofDigits?_eq_some.2 hx] at h
    cases h

variable {s : String} {ds : List Char}

theorem parse_malformed (hs : Stripped s.toList ds) (h : ds = [] ∨ ¬∀ c ∈ ds, c.isDigit = true) :
    parse s = .error (.scalar s) := by
  have hbad : (ds.isEmpty || !ds.all Char.isDigit) = true := by
    rw [Bool.or_eq_true, List.isEmpty_iff, Bool.not_eq_true', ← Bool.not_eq_true, List.all_eq_true]
    exact h
  simp only [parse, stripped_iff.1 hs, hbad, if_true]

theorem parse_wellFormed (hs : Stripped s.toList ds) (hne : ds ≠ [])
    (h : ∀ c ∈ ds, c.isDigit = true) :
    parse s = match ofDigits? ds with
      | some x => .ok x
      | none => .error (.scalarRange s) := by
  have hgood : (ds.isEmpty || !ds.all Char.isDigit) = false := by
    rw [List.all_eq_true.2 h, Bool.not_true, Bool.or_false, List.isEmpty_eq_false_iff]
    exact hne
  cases hread : ofDigits? ds with
  | none => simp only [parse, stripped_iff.1 hs, hgood, Bool.false_eq_true, if_false, hread]
  | some x => simp only [parse, stripped_iff.1 hs, hgood, Bool.false_eq_true, if_false, hread]

theorem parse_malformed_iff (hs : Stripped s.toList ds) :
    parse s = .error (.scalar s) ↔ ds = [] ∨ ∃ b ∈ Text.Utf8.encode ds, ¬Text.Utf8.IsDigit b := by
  have hbytes : (∃ b ∈ Text.Utf8.encode ds, ¬Text.Utf8.IsDigit b) ↔
      ¬∀ c ∈ ds, c.isDigit = true := by
    rw [← Text.Utf8.digit_bytes_iff]
    push Not
    rfl
  rw [hbytes]
  refine ⟨fun h => ?_, parse_malformed hs⟩
  by_contra hwell
  obtain ⟨hne, hdigits⟩ := not_or.1 hwell
  rw [parse_wellFormed hs hne (not_not.1 hdigits)] at h
  split at h <;> cases h

theorem wellFormed_of_parse (hs : Stripped s.toList ds) {x : Scalar} (h : parse s = .ok x) :
    ds ≠ [] ∧ (∀ c ∈ ds, c.isDigit = true) ∧ ofDigits? ds = some x := by
  have hwell : ds ≠ [] ∧ ∀ c ∈ ds, c.isDigit = true := by
    by_contra hbad
    rw [parse_malformed hs ((Classical.not_and_iff_not_or_not.1 hbad).imp_left not_not.1)] at h
    cases h
  rw [parse_wellFormed hs hwell.1 hwell.2] at h
  cases hread : ofDigits? ds with
  | none => simp [hread] at h
  | some y =>
    rw [hread] at h
    cases h
    exact ⟨hwell.1, hwell.2, rfl⟩

theorem text_of_parse (hs : Stripped s.toList ds) {x : Scalar} (h : parse s = .ok x) :
    x.text = String.ofList (canonical ds ++ suffixChars) := by
  obtain ⟨-, hdigits, hread⟩ := wellFormed_of_parse hs h
  rw [text, chars_eq, ofDigits?_eq_some.1 hread, toDigits_ofDigitChars hdigits]

structure Decimal (n : Nat) (cs : List Char) : Prop where
  digits : ∀ c ∈ cs, c.isDigit = true
  value : Nat.ofDigitChars 10 cs 0 = n
  first : ∀ c ds, cs = c :: ds → c = '0' → ds = []
  nonempty : cs ≠ []

theorem decimal_toDigits (n : Nat) : Decimal n (Nat.toDigits 10 n) where
  digits _ := Nat.isDigit_of_mem_toDigits (by decide) (by decide)
  value := Nat.ofDigitChars_ten_toDigits
  first c ds h hc := by
    subst hc
    have hn := Json.eq_zero_of_toDigits h
    rw [hn, Nat.toDigits_zero] at h
    exact (List.cons.inj h).2.symm
  nonempty := Nat.toDigits_ne_nil

/-- Literals mean the numbers that they spell. -/
structure LiteralsExact : Prop where
  stripped : ∀ s : String, ∃ ds, Stripped s.toList ds
  malformed : ∀ (s : String) ds, Stripped s.toList ds →
    (parse s = .error (.scalar s) ↔ ds = [] ∨ ∃ b ∈ Text.Utf8.encode ds, ¬Text.Utf8.IsDigit b)
  outOfRange : ∀ (s : String) ds, Stripped s.toList ds → ds ≠ [] →
    (∀ b ∈ Text.Utf8.encode ds, Text.Utf8.IsDigit b) →
    (parse s = .error (.scalarRange s) ↔ modulus ≤ Nat.ofDigitChars 10 ds 0)
  value : ∀ (s : String) ds, Stripped s.toList ds → ds ≠ [] →
    (∀ b ∈ Text.Utf8.encode ds, Text.Utf8.IsDigit b) → Nat.ofDigitChars 10 ds 0 < modulus →
    ∃ x, parse s = .ok x ∧ x.toNat = Nat.ofDigitChars 10 ds 0
  written : ∀ x : Scalar, ∃ ds, x.text = String.ofList (ds ++ suffixChars) ∧ Decimal x.toNat ds
  reread : ∀ x : Scalar, parse x.text = .ok x
  rewritten : ∀ (s : String) ds x, Stripped s.toList ds → parse s = .ok x →
    x.text = String.ofList (canonical ds ++ suffixChars)

theorem literalsExact : LiteralsExact where
  stripped s := ⟨_, stripped_iff.2 rfl⟩
  malformed _ _ := parse_malformed_iff
  outOfRange s ds hs hne hdigits := by
    rw [parse_wellFormed hs hne ((Text.Utf8.digit_bytes_iff ds).1 hdigits)]
    rcases ofDigits?_cases ds with ⟨x, hx, hvalue⟩ | ⟨hnone, hle⟩
    · rw [hx, ← hvalue]
      exact ⟨nofun, fun hle => absurd x.toNat_lt (Nat.not_lt.2 hle)⟩
    · rw [hnone]
      exact ⟨fun _ => hle, fun _ => rfl⟩
  value s ds hs hne hdigits hlt := by
    rcases ofDigits?_cases ds with ⟨x, hx, hvalue⟩ | ⟨-, hle⟩
    · refine ⟨x, ?_, hvalue⟩
      rw [parse_wellFormed hs hne ((Text.Utf8.digit_bytes_iff ds).1 hdigits), hx]
    · exact absurd hlt (Nat.not_lt.2 hle)
  written x := ⟨_, by rw [text, chars_eq], decimal_toDigits x.toNat⟩
  reread := parse_text
  rewritten _ _ _ hs := text_of_parse hs

end Scalar

end TokenLedger
