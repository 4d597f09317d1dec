import TokenLedger.Proofs.RecordBody

/-!
# Decoded text is encoded by the same bytes

The decoder admits no overlong form, no surrogate and nothing above the last
plane. So every character that it gives is encoded by the very bytes it was
read from, and bytes that are decoded at all are the encoding of their text.
-/

set_option autoImplicit false

namespace TokenLedger.Text.Utf8

variable {a b c d : UInt8}

theorem isTail_iff : isTail b = true ↔ 128 ≤ b.toNat ∧ b.toNat < 192 := by
  simp [isTail, UInt8.le_iff_toNat_le, UInt8.lt_iff_toNat_lt]

theorem isSecond_bounds (h : isSecond a b = true) :
    (128 ≤ b.toNat ∧ b.toNat < 192) ∧ (a.toNat = 224 → 160 ≤ b.toNat) ∧
      (a.toNat = 237 → b.toNat < 160) ∧ (a.toNat = 240 → 144 ≤ b.toNat) ∧
        (a.toNat = 244 → b.toNat < 144) := by
  simp only [isSecond, isTail, beq_iff_eq, ← UInt8.toNat_inj, UInt8.le_iff_toNat_le,
    UInt8.lt_iff_toNat_lt] at h
  repeat' split at h
  all_goals
    simp at *
    omega

theorem val_ofNat {n : Nat} (h : n.isValidChar) : (Char.ofNat n).val.toNat = n := by
  rw [Char.ofNat, dif_pos h]
  rfl

theorem ofNat_eq {n : Nat} (h : n = a.toNat) : UInt8.ofNat n = a := by
  rw [h, UInt8.ofNat_toNat]

/-! ## Characters of one to four bytes -/

theorem encodeChar_one (ha : a.toNat < 128) :
    String.utf8EncodeChar (Char.ofNat a.toNat) = [a] := by
  have hvalid : a.toNat.isValidChar := by unfold Nat.isValidChar; omega
  have hval := val_ofNat hvalid
  have hle : a.toNat ≤ 127 := by omega
  simp only [String.utf8EncodeChar, hval, hle, if_true]
  rw [ofNat_eq rfl]

theorem encodeChar_two (ha : 194 ≤ a.toNat) (ha' : a.toNat < 224) (hb : isTail b = true) :
    String.utf8EncodeChar (Char.ofNat (a.toNat % 32 * 64 + tailBits b)) = [a, b] := by
  obtain ⟨hb, hb'⟩ := isTail_iff.1 hb
  generalize hn : a.toNat % 32 * 64 + tailBits b = n
  rw [tailBits] at hn
  have hvalid : n.isValidChar := by unfold Nat.isValidChar; omega
  have hval := val_ofNat hvalid
  have h₁ : ¬n ≤ 127 := by omega
  have h₂ : n ≤ 2047 := by omega
  have hfirst : n / 64 % 32 + 192 = a.toNat := by omega
  have hlast : n % 64 + 128 = b.toNat := by omega
  simp only [String.utf8EncodeChar, hval, h₁, h₂, if_true, if_false]
  rw [ofNat_eq hfirst, ofNat_eq hlast]

theorem encodeChar_three (ha : 224 ≤ a.toNat) (ha' : a.toNat < 240) (hb : isSecond a b = true)
    (hc : isTail c = true) :
    String.utf8EncodeChar (Char.ofNat ((a.toNat % 16 * 64 + tailBits b) * 64 + tailBits c)) =
      [a, b, c] := by
  obtain ⟨hb, hlow, hsurrogate, -⟩ := isSecond_bounds hb
  obtain ⟨hc, hc'⟩ := isTail_iff.1 hc
  generalize hn : (a.toNat % 16 * 64 + tailBits b) * 64 + tailBits c = n
  rw [tailBits, tailBits] at hn
  have hvalid : n.isValidChar := by unfold Nat.isValidChar; omega
  have hval := val_ofNat hvalid
  have h₁ : ¬n ≤ 127 := by omega
  have h₂ : ¬n ≤ 2047 := by omega
  have h₃ : n ≤ 65535 := by omega
  have hfirst : n / 4096 % 16 + 224 = a.toNat := by omega
  have hsecond : n / 64 % 64 + 128 = b.toNat := by omega
  have hlast : n % 64 + 128 = c.toNat := by omega
  simp only [String.utf8EncodeChar, hval, h₁, h₂, h₃, if_true, if_false]
  rw [ofNat_eq hfirst, ofNat_eq hsecond, ofNat_eq hlast]

theorem encodeChar_four (ha : 240 ≤ a.toNat) (ha' : a.toNat < 245) (hb : isSecond a b = true)
    (hc : isTail c = true) (hd : isTail d = true) :
    String.utf8EncodeChar (Char.ofNat
      (((a.toNat % 8 * 64 + tailBits b) * 64 + tailBits c) * 64 + tailBits d)) = [a, b, c, d] := by
  obtain ⟨hb, -, -, hlow, hhigh⟩ := isSecond_bounds hb
  obtain ⟨hc, hc'⟩ := isTail_iff.1 hc
  obtain ⟨hd, hd'⟩ := isTail_iff.1 hd
  generalize hn : ((a.toNat % 8 * 64 + tailBits b) * 64 + tailBits c) * 64 + tailBits d = n
  rw [tailBits, tailBits, tailBits] at hn
  have hvalid : n.isValidChar := by unfold Nat.isValidChar; omega
  have hval := val_ofNat hvalid
  have h₁ : ¬n ≤ 127 := by omega
  have h₂ : ¬n ≤ 2047 := by omega
  have h₃ : ¬n ≤ 65535 := by omega
  have hfirst : n / 262144 % 8 + 240 = a.toNat := by omega
  have hsecond : n / 4096 % 64 + 128 = b.toNat := by omega
  have hthird : n / 64 % 64 + 128 = c.toNat := by omega
  have hlast : n % 64 + 128 = d.toNat := by omega
  simp only [String.utf8EncodeChar, hval, h₁, h₂, h₃, if_false]
  rw [ofNat_eq hfirst, ofNat_eq hsecond, ofNat_eq hthird, ofNat_eq hlast]

/-! ## Whole texts -/

theorem encode_of_decodeFrom {i : Nat} {bs : Bytes} {cs : List Char}
    (h : decodeFrom i bs = .ok cs) : encode cs = bs := by
  fun_induction decodeFrom i bs generalizing cs with
  | case1 i =>
    cases h
    rfl
  | case2 i a s ha ih =>
    obtain ⟨ds, hds, rfl⟩ := Answers.map_eq_ok.1 h
    rw [encode_cons, ih hds, encodeChar_one (UInt8.lt_iff_toNat_lt.1 ha)]
    rfl
  | case5 i a _ hlow ha b s hb ih =>
    obtain ⟨ds, hds, rfl⟩ := Answers.map_eq_ok.1 h
    simp only [UInt8.lt_iff_toNat_lt, Nat.not_lt] at hlow ha
    rw [encode_cons, ih hds, encodeChar_two hlow ha hb]
    rfl
  | case9 i a _ _ hlow ha b hb c s hc ih =>
    obtain ⟨ds, hds, rfl⟩ := Answers.map_eq_ok.1 h
    simp only [UInt8.lt_iff_toNat_lt, Nat.not_lt] at hlow ha
    rw [encode_cons, ih hds, encodeChar_three hlow ha hb hc]
    rfl
  | case15 i a _ _ _ hlow ha b hb c hc d s hd ih =>
    obtain ⟨ds, hds, rfl⟩ := Answers.map_eq_ok.1 h
    simp only [UInt8.lt_iff_toNat_lt, Nat.not_lt] at hlow ha
    rw [encode_cons, ih hds, encodeChar_four hlow ha hb hc hd]
    rfl
  -- every other case is a fault
  | _ => cases h

theorem encode_of_decode {bs : Bytes} {cs : List Char} (h : decode bs = .ok cs) :
    encode cs = bs := encode_of_decodeFrom h

end TokenLedger.Text.Utf8
