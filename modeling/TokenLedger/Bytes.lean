import TokenLedger.Radix

/-!
# Bytes

Byte strings are lists. Words are laid out little-endian in a fixed width;
`word_inj` and `wordValue_word` say that the layout loses nothing. A key, a
digest and a nonce are blocks of exactly 32 bytes.
-/

set_option autoImplicit false

namespace TokenLedger

abbrev Bytes := List UInt8

namespace Bytes

def ascii (s : String) : Bytes := s.toList.map fun c => UInt8.ofNat c.toNat

def word (width n : Nat) : Bytes := (Radix.digits 256 width n).map UInt8.ofNat

def wordValue (bs : Bytes) : Nat := Radix.value 256 (bs.map UInt8.toNat)

@[simp] theorem length_word (width n : Nat) : (word width n).length = width := by simp [word]

theorem wordValue_word (width n : Nat) : wordValue (word width n) = n % Radix.capacity 256 width := by
  have h : (Radix.digits 256 width n).map (UInt8.toNat ∘ UInt8.ofNat) =
      Radix.digits 256 width n := by
    rw [List.map_congr_left (g := id), List.map_id]
    intro d hd
    simpa using Nat.mod_eq_of_lt (Radix.lt_of_mem_digits (by decide) hd)
  rw [wordValue, word, List.map_map, h, Radix.value_digits]

theorem word_wordValue (bs : Bytes) : word bs.length (wordValue bs) = bs := by
  have h := @Radix.digits_value 256 (bs.map UInt8.toNat)
    (by simp only [List.mem_map]; rintro d ⟨b, -, rfl⟩; exact b.toNat_lt)
  rw [List.length_map] at h
  rw [word, wordValue, h, List.map_map, List.map_congr_left (g := id), List.map_id]
  simp

theorem wordValue_lt (bs : Bytes) : wordValue bs < Radix.capacity 256 bs.length := by
  have h := @Radix.value_lt 256 (bs.map UInt8.toNat)
    (by simp only [List.mem_map]; rintro d ⟨b, -, rfl⟩; exact b.toNat_lt)
  simpa [wordValue] using h

theorem word_inj {width m n : Nat} (hm : m < Radix.capacity 256 width)
    (hn : n < Radix.capacity 256 width) (h : word width m = word width n) : m = n := by
  rw [← Nat.mod_eq_of_lt hm, ← Nat.mod_eq_of_lt hn, ← wordValue_word, ← wordValue_word, h]

/-- Byte strings are ordered by their first difference; a proper start comes first. -/
def le : Bytes → Bytes → Bool
  | [], _ => true
  | _ :: _, [] => false
  | a :: as, b :: bs => a < b || (a == b && le as bs)

end Bytes

structure Bytes32 where
  toList : Bytes
  length_toList : toList.length = 32
  deriving DecidableEq

namespace Bytes32

@[ext] theorem ext {a b : Bytes32} (h : a.toList = b.toList) : a = b := by
  cases a; cases b; simp_all

def ofList? (bs : Bytes) : Option Bytes32 :=
  if h : bs.length = 32 then some ⟨bs, h⟩ else none

theorem ofList?_toList (a : Bytes32) : ofList? a.toList = some a := by
  simp [ofList?, a.length_toList]

def replicate (b : UInt8) : Bytes32 := ⟨List.replicate 32 b, by simp⟩

instance : Inhabited Bytes32 := ⟨replicate 0⟩

def le (a b : Bytes32) : Bool := Bytes.le a.toList b.toList

end Bytes32

end TokenLedger
