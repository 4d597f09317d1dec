import TokenLedger.Proofs.AddressText
import TokenLedger.Proofs.Answers
import TokenLedger.Wire.JsonForm

/-!
# Each account has one text

What `parse` accepts is the text of the account that it gives, character for
character: 52 symbols with blank spare bits stand for one key, and only one
checksum completes them. So texts and keys are in bijection, in whichever
way a text was obtained.
-/

set_option autoImplicit false

namespace TokenLedger

theorem Bytes32.toList_of_ofList? {bs : Bytes} {a : Bytes32} (h : ofList? bs = some a) :
    a.toList = bs := by
  unfold ofList? at h
  split at h
  · rw [← Option.some.inj h]
  · cases h

theorem Wire.Reader.literal_eq_ok {α : Type} {parse : String → Except LiteralError α}
    {bs rest : Bytes} {x : α} :
    literal parse bs = .ok (x, rest) ↔ ∃ s, text bs = .ok (s, rest) ∧ parse s = .ok x := by
  rw [literal, Answers.bind_eq_ok]
  constructor
  · rintro ⟨⟨s, left⟩, htext, h⟩
    cases hs : parse s with
    | ok y =>
      simp only [hs, Except.ok.injEq, Prod.mk.injEq] at h
      obtain ⟨rfl, rfl⟩ := h
      exact ⟨s, htext, hs⟩
    | error e =>
      simp only [hs] at h
      cases h
  · rintro ⟨s, htext, hs⟩
    exact ⟨(s, rest), htext, by simp only [hs]⟩

namespace Address

open Bech32m

theorem keySymbols_of_symbolsKey? {data : List Symbol} {key : Bytes32}
    (hlength : data.length = 52) (h : symbolsKey? data = some key) : keySymbols key = data := by
  have hdigits := Base32.map_ofNat_digits data.reverse
  have hlt := Base32.value_lt data.reverse
  rw [List.length_reverse, hlength, List.map_reverse] at hdigits hlt
  rw [symbolsKey?, Base32.toBytes?_eq hlength] at h
  simp only at h
  split at h
  · next hmod =>
    have hkey : key.toList.reverse =
        Bytes.word 32 (Radix.value 32 (data.map BitVec.toNat).reverse / 16) := by
      rw [Bytes32.toList_of_ofList? h, List.reverse_reverse]
    have hcap : Radix.capacity 256 32 * 16 = Radix.capacity 32 52 := by decide
    have hvalue : Bytes.wordValue key.toList.reverse * 16 =
        Radix.value 32 (data.map BitVec.toNat).reverse := by
      rw [hkey, Bytes.wordValue_word, Nat.mod_eq_of_lt (by omega)]
      omega
    rw [keySymbols, Base32.ofBytes_eq, hvalue, hdigits, List.reverse_reverse]
  · cases h

theorem map_char_of_mapM {cs : List Char} {word : List Symbol} (h : cs.mapM symbol? = some word) :
    word.map char = cs := by
  induction cs generalizing word with
  | nil =>
    cases h
    rfl
  | cons c cs ih =>
    rw [List.mapM_cons] at h
    obtain ⟨s, hs, h⟩ := Option.bind_eq_some_iff.1 h
    obtain ⟨ss, hss, h⟩ := Option.bind_eq_some_iff.1 h
    rw [← Option.some.inj h, List.map_cons, ih hss, char_of_symbol? hs]

theorem chars_of_ofChars? {cs : List Char} {a : Address} (h : ofChars? cs = some a) :
    a.chars = cs := by
  unfold ofChars? at h
  split at h
  · next hframe =>
    obtain ⟨hlead, hlength⟩ := hframe
    split at h
    · cases h
    · next word hword =>
      split at h
      · next hvalid =>
        obtain ⟨key, hkey, rfl⟩ := Option.map_eq_some_iff.1 h
        have hchars := map_char_of_mapM hword
        have hlength' : word.length = 58 := by
          have hsame := congrArg List.length hchars
          rw [List.length_map, List.length_drop, hlength] at hsame
          exact hsame
        have hdata := keySymbols_of_symbolsKey? (by simp [hlength']) hkey
        have hcheck : word.drop 52 = checksum label (word.take 52) := by
          apply eq_checksum_of_isValid
          · simp [hlength']
          · rw [List.take_append_drop]
            exact hvalid
        rw [chars]
        simp only [hdata]
        rw [← hcheck, List.take_append_drop, hchars, ← hlead, List.take_append_drop]
      · cases h
  · cases h

theorem text_of_parse {s : String} {a : Address} (h : parse s = .ok a) : a.text = s := by
  unfold parse at h
  split at h
  · next hread =>
    cases h
    rw [text, chars_of_ofChars? hread, String.ofList_toList]
  · cases h

/-! ## Texts held as accounts -/

def keyOf? (s : String) : Option Bytes32 := (ofChars? s.toList).map Address.key

/-- The key behind a text that is held as an account; zeros stand in where there is none. -/
def keyOf (s : String) : Bytes32 := (keyOf? s).getD (Bytes32.replicate 0)

/-- How a text comes to be held as an account: it was parsed, written from a
key, or received in one of the two wire forms. -/
inductive Held : String → Prop where
  | parsed {s : String} {a : Address} (h : parse s = .ok a) : Held s
  | written (key : Bytes32) : Held (text ⟨key⟩)
  | binary {s : String} {bs rest : Bytes} {a : Address}
      (hs : Wire.Reader.text bs = .ok (s, rest)) (h : Wire.get bs = .ok (a, rest)) : Held s
  | json {s : String} {a : Address} (h : Wire.ofJson? (.text s) = some a) : Held s

variable {s : String} {a : Address}

theorem parse_eq_ok : parse s = .ok a ↔ a.text = s := by
  constructor
  · exact text_of_parse
  · rintro rfl
    exact parse_text a

theorem keyOf?_eq_some {key : Bytes32} : keyOf? s = some key ↔ text ⟨key⟩ = s := by
  rw [← parse_eq_ok, parse, keyOf?]
  cases ofChars? s.toList with
  | none => simp
  | some a =>
    obtain ⟨k⟩ := a
    simp

theorem keyOf_text (key : Bytes32) : keyOf (text ⟨key⟩) = key := by
  rw [keyOf, keyOf?_eq_some.2 rfl, Option.getD_some]

theorem Held.eq_text (h : Held s) : ∃ key, s = text ⟨key⟩ := by
  have hparse {a : Address} (h : parse s = .ok a) : ∃ key, s = text ⟨key⟩ :=
    ⟨a.key, (text_of_parse h).symm⟩
  cases h with
  | parsed h => exact hparse h
  | written key => exact ⟨key, rfl⟩
  | binary hs h =>
    obtain ⟨s', hs', hread⟩ := Wire.Reader.literal_eq_ok.1 h
    cases hs.symm.trans hs'
    exact hparse hread
  | json h =>
    simp only [Wire.ofJson?] at h
    cases hread : parse s with
    | ok a => exact hparse hread
    | error e =>
      rw [hread] at h
      cases h

/-- Texts of accounts and keys determine each other. -/
structure TextKeyBijection : Prop where
  parses : ∀ s, (∃ a, parse s = .ok a) ↔ ∃ key, s = text ⟨key⟩
  kept : ∀ s a, parse s = .ok a →
    a.text = s ∧ keyOf s = a.key ∧ ∀ key, s = text ⟨key⟩ ↔ key = a.key
  returned : ∀ key, keyOf (text ⟨key⟩) = key
  held : ∀ s, Held s → keyOf? s = some (keyOf s) ∧ text ⟨keyOf s⟩ = s
  apart : ∀ s s', Held s → Held s' → (s = s' ↔ keyOf s = keyOf s')

theorem textKeyBijection : TextKeyBijection where
  parses s := by
    constructor
    · rintro ⟨a, h⟩
      exact ⟨a.key, (text_of_parse h).symm⟩
    · rintro ⟨key, rfl⟩
      exact ⟨⟨key⟩, parse_text ⟨key⟩⟩
  kept s a h := by
    have htext := text_of_parse h
    subst htext
    refine ⟨rfl, keyOf_text a.key, fun key => ?_⟩
    rw [text_inj]
    constructor
    · rintro rfl
      rfl
    · rintro rfl
      rfl
  returned := keyOf_text
  held s h := by
    obtain ⟨key, rfl⟩ := h.eq_text
    rw [keyOf_text]
    exact ⟨keyOf?_eq_some.2 rfl, rfl⟩
  apart s s' h h' := by
    obtain ⟨key, rfl⟩ := h.eq_text
    obtain ⟨key', rfl⟩ := h'.eq_text
    rw [text_inj, keyOf_text, keyOf_text, Address.mk.injEq]

end Address

end TokenLedger
