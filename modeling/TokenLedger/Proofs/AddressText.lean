import TokenLedger.Address
import TokenLedger.Proofs.Checksum
import TokenLedger.Proofs.Regrouping

/-!
# The text of an account reads back

Every key has a text that `parse` accepts, and gets the key back from it. So
texts tell accounts apart, and the order of the texts is an order of the
accounts.
-/

set_option autoImplicit false

namespace TokenLedger.Address

open Bech32m

theorem mapM_symbol?_char (ss : List Symbol) : (ss.map char).mapM symbol? = some ss := by
  induction ss with
  | nil => rfl
  | cons s ss ih => simp [symbol?_char, ih]

theorem length_keySymbols (key : Bytes32) : (keySymbols key).length = 52 := by
  simp [keySymbols, Base32.ofBytes_eq]

theorem length_chars (a : Address) : a.chars.length = 63 := by
  have hlead : lead.length = 5 := rfl
  have hsum : (checksum label (keySymbols a.key)).length = 6 := rfl
  simp [chars, length_keySymbols, hsum, hlead]

/-- The 52 symbols stand for the key with four zero bits behind it. -/
theorem value_keySymbols (key : Bytes32) :
    Radix.value 32 ((keySymbols key).map BitVec.toNat).reverse =
      Bytes.wordValue key.toList.reverse * 16 := by
  have hmap (n : Nat) : ((Radix.digits 32 52 n).map (BitVec.ofNat 5)).map BitVec.toNat =
      Radix.digits 32 52 n := by
    rw [List.map_map, List.map_congr_left (g := id), List.map_id]
    intro d hd
    have hlt := Radix.lt_of_mem_digits (by decide) hd
    simpa using Nat.mod_eq_of_lt hlt
  have hlt := Bytes.wordValue_lt key.toList.reverse
  have hcap : Radix.capacity 256 32 * 16 = Radix.capacity 32 52 := by decide
  rw [List.length_reverse, key.length_toList] at hlt
  rw [keySymbols, Base32.ofBytes_eq, List.map_reverse, List.reverse_reverse, hmap,
    Radix.value_digits]
  exact Nat.mod_eq_of_lt (by omega)

theorem symbolsKey?_keySymbols (key : Bytes32) : symbolsKey? (keySymbols key) = some key := by
  have hword := Bytes.word_wordValue key.toList.reverse
  rw [List.length_reverse, key.length_toList] at hword
  simp only [symbolsKey?, Base32.toBytes?_eq (length_keySymbols key), value_keySymbols,
    Nat.mul_mod_left, if_true, Nat.mul_div_cancel _ (show 0 < 16 by decide)]
  rw [hword, List.reverse_reverse, Bytes32.ofList?_toList]

theorem ofChars?_chars (a : Address) : ofChars? a.chars = some a := by
  have hlen := length_keySymbols a.key
  have htake : a.chars.take 5 = lead := List.take_left' rfl
  have hdrop : a.chars.drop 5 =
      (keySymbols a.key ++ checksum label (keySymbols a.key)).map char := List.drop_left' rfl
  rw [ofChars?, if_pos ⟨htake, length_chars a⟩, hdrop, mapM_symbol?_char]
  simp only [isValid_checksum, if_true, List.take_left' hlen, symbolsKey?_keySymbols]
  rfl

theorem parse_text (a : Address) : parse a.text = .ok a := by
  rw [parse, text, String.toList_ofList, ofChars?_chars]

theorem text_inj {a b : Address} : a.text = b.text ↔ a = b := by
  constructor
  · intro h
    have hp := parse_text a
    rw [h, parse_text b] at hp
    exact (Except.ok.inj hp).symm
  · exact fun h => h ▸ rfl

/-! ## The order of the accounts -/

theorem le_iff {a b : Address} : a.le b = true ↔ a.text ≤ b.text := by
  simp [le]

theorem le_refl (a : Address) : a.le a = true := le_iff.2 (String.le_refl a.text)

theorem le_trans {a b c : Address} (h : a.le b = true) (h' : b.le c = true) :
    a.le c = true := by
  rw [le_iff] at *
  exact String.le_trans h h'

theorem le_antisymm {a b : Address} (h : a.le b = true) (h' : b.le a = true) : a = b := by
  rw [le_iff] at h h'
  exact text_inj.1 (String.le_antisymm h h')

theorem le_of_not_le {a b : Address} (h : ¬a.le b = true) : b.le a = true := by
  rw [le_iff] at *
  exact (String.le_total a.text b.text).resolve_left h

theorem toNat_lt_of_mem_chars {a : Address} {c : Char} (h : c ∈ a.chars) : c.toNat < 128 := by
  have hchar (s : Symbol) : (char s).toNat < 128 := by
    revert s
    decide
  have hlead : (lead.all fun d => decide (d.toNat < 128)) = true := by decide
  rcases List.mem_append.1 h with h | h
  · exact of_decide_eq_true (List.all_eq_true.1 hlead c h)
  · obtain ⟨s, -, rfl⟩ := List.mem_map.1 h
    exact hchar s

end TokenLedger.Address
