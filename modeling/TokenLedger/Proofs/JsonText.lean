import Mathlib.Data.List.Forall2
import Mathlib.Tactic.SplitIfs
import TokenLedger.Json.Parser

/-!
# Written JSON reads back

A value that has no spelling of its own is read back from its text without
blanks. The reading of a value stops where its text ends, as long as what
follows could not continue a number.
-/

set_option autoImplicit false

namespace TokenLedger.Json

/-! ## Strings -/

/-- How a piece of a written string stands for a character: as such, or, for some of the
control characters, by its number. -/
inductive Piece.Is : Piece → Char → Prop where
  | char (c : Char) : Is (.char c) c
  | unit {c : Char} (h : c.toNat < 0x20) : Is (.unit c.toNat) c

theorem escape_cases (c : Char) :
    (∃ e, escape c = ['\\', e] ∧ e ≠ 'u' ∧ escaped? e = some c) ∨
    (c.toNat < 0x20 ∧ escape c =
      ['\\', 'u', '0', '0', Nat.digitChar (c.toNat / 16), Nat.digitChar (c.toNat % 16)]) ∨
    (¬c.toNat < 0x20 ∧ c ≠ '"' ∧ c ≠ '\\' ∧ escape c = [c]) := by
  unfold escape
  split_ifs with hquote hbackslash hn hr ht hb hf hlow
  · exact .inl ⟨'"', rfl, by decide, by rw [hquote]; rfl⟩
  · exact .inl ⟨'\\', rfl, by decide, by rw [hbackslash]; rfl⟩
  · exact .inl ⟨'n', rfl, by decide, by rw [hn]; rfl⟩
  · exact .inl ⟨'r', rfl, by decide, by rw [hr]; rfl⟩
  · exact .inl ⟨'t', rfl, by decide, by rw [ht]; rfl⟩
  · exact .inl ⟨'b', rfl, by decide, by rw [hb]; rfl⟩
  · exact .inl ⟨'f', rfl, by decide, by rw [hf]; rfl⟩
  · exact .inr (.inl ⟨hlow, rfl⟩)
  · exact .inr (.inr ⟨hlow, hquote, hbackslash, rfl⟩)

theorem number?_low : ∀ n < 0x20,
    Text.Hex.number? ['0', '0', Nat.digitChar (n / 16), Nat.digitChar (n % 16)] = some n := by
  decide

theorem pieces_escape (c : Char) : ∃ p : Piece, p.Is c ∧ ∀ cs ps rest,
    pieces cs = some (ps, rest) → pieces (escape c ++ cs) = some (p :: ps, rest) := by
  obtain ⟨e, hesc, hu, he⟩ | ⟨hlow, hesc⟩ | ⟨hlow, hquote, hbackslash, hesc⟩ := escape_cases c
  · refine ⟨.char c, .char c, fun cs ps rest h => ?_⟩
    rw [hesc, List.cons_append, List.cons_append, List.nil_append, pieces.eq_def]
    simp [hu, he, h]
  · refine ⟨.unit c.toNat, .unit hlow, fun cs ps rest h => ?_⟩
    rw [hesc]
    simp [pieces, number?_low _ hlow, h]
  · refine ⟨.char c, .char c, fun cs ps rest h => ?_⟩
    rw [hesc, List.singleton_append, pieces.eq_def]
    simp [hbackslash, hlow, h]

theorem pieces_flatMap_escape (cs rest : List Char) : ∃ ps : List Piece,
    List.Forall₂ Piece.Is ps cs ∧ pieces (cs.flatMap escape ++ '"' :: rest) = some (ps, rest) := by
  induction cs with
  | nil => exact ⟨[], .nil, rfl⟩
  | cons c cs ih =>
    obtain ⟨p, hp, hpieces⟩ := pieces_escape c
    obtain ⟨ps, hps, hrest⟩ := ih
    refine ⟨p :: ps, .cons hp hps, ?_⟩
    rw [List.flatMap_cons, List.append_assoc]
    exact hpieces _ _ _ hrest

theorem pieceChars?_of_is {ps : List Piece} {cs : List Char} (h : List.Forall₂ Piece.Is ps cs) :
    pieceChars? ps = some cs := by
  induction h with
  | nil => rfl
  | @cons p c ps cs hp hps ih =>
    cases hp with
    | char c =>
      rw [pieceChars?, ih]
      rfl
    | unit hlow =>
      have hhigh : isHigh c.toNat = false := by simp [isHigh]; omega
      have hlow' : isLow c.toNat = false := by simp [isLow]; omega
      rw [pieceChars?.eq_def]
      split
      · next h => cases h
      · next h => cases h
      · next h =>
        cases h
        simp [hhigh, hlow', ih]
      · next h =>
        cases h
        simp [hhigh, hlow', ih]

theorem string_quoted (s : String) (rest : List Char) :
    string (s.toList.flatMap escape ++ '"' :: rest) = some (some s, rest) := by
  obtain ⟨ps, hps, hpieces⟩ := pieces_flatMap_escape s.toList rest
  rw [string, hpieces]
  simp [pieceChars?_of_is hps]

/-! ## Numbers -/

def Ends (rest : List Char) : Prop :=
  ∀ c ∈ rest.head?, c.isDigit = false ∧ c ≠ '.' ∧ c ≠ 'e' ∧ c ≠ 'E'

theorem digits_append {ds rest : List Char} (hne : ds ≠ []) (hds : ∀ c ∈ ds, c.isDigit = true)
    (hrest : Ends rest) : digits (ds ++ rest) = some (ds, rest) := by
  have htake : (ds ++ rest).takeWhile Char.isDigit = ds := by
    rw [List.takeWhile_append_of_pos hds]
    cases rest with
    | nil => simp
    | cons c rest => simp [(hrest c rfl).1]
  have hdrop : (ds ++ rest).dropWhile Char.isDigit = rest := by
    rw [List.dropWhile_append_of_pos hds]
    cases rest with
    | nil => rfl
    | cons c rest => simp [(hrest c rfl).1]
  unfold digits
  rw [htake, hdrop]
  cases ds with
  | nil => exact absurd rfl hne
  | cons d ds => rfl

theorem eq_zero_of_toDigits {n : Nat} {ds : List Char} (h : Nat.toDigits 10 n = '0' :: ds) :
    n = 0 := by
  induction n using Nat.strongRecOn generalizing ds with
  | ind n ih =>
    by_cases hn : n < 10
    · rw [Nat.toDigits_of_lt_base hn] at h
      obtain ⟨hdigit, -⟩ := List.cons.inj h
      revert hdigit
      have hall : ∀ m < 10, Nat.digitChar m = '0' → m = 0 := by decide
      exact hall n hn
    · rw [Nat.toDigits_of_base_le (by decide) (by omega)] at h
      cases hds : Nat.toDigits 10 (n / 10) with
      | nil => exact absurd hds Nat.toDigits_ne_nil
      | cons d ds' =>
        rw [hds, List.cons_append] at h
        obtain ⟨rfl, -⟩ := List.cons.inj h
        have := ih (n / 10) (by omega) hds
        omega

theorem integer_append (n : Nat) {rest : List Char} (hrest : Ends rest) :
    integer (Nat.toDigits 10 n ++ rest) = some (Nat.toDigits 10 n, rest) := by
  have hdigits : digits (Nat.toDigits 10 n ++ rest) = some (Nat.toDigits 10 n, rest) :=
    digits_append Nat.toDigits_ne_nil
      (fun c => Nat.isDigit_of_mem_toDigits (by decide) (by decide)) hrest
  unfold integer
  rw [hdigits]
  split
  · next d ds rest' h =>
    have hds : Nat.toDigits 10 n = '0' :: d :: ds := congrArg Prod.fst (Option.some.inj h)
    rw [eq_zero_of_toDigits hds, Nat.toDigits_zero] at hds
    cases hds
  · rfl

theorem fraction_of_ends {rest : List Char} (hrest : Ends rest) :
    fraction rest = some ([], rest) := by
  cases rest with
  | nil => rfl
  | cons c rest =>
    obtain ⟨-, hdot, -, -⟩ := hrest c rfl
    rw [fraction.eq_def]
    simp [hdot]

theorem exponent_of_ends {rest : List Char} (hrest : Ends rest) :
    exponent rest = some ([], rest) := by
  cases rest with
  | nil => rfl
  | cons c rest =>
    obtain ⟨-, -, he, hE⟩ := hrest c rfl
    simp [exponent, he, hE]

theorem unsigned_append (n : Nat) {rest : List Char} (hrest : Ends rest) :
    unsigned (Nat.toDigits 10 n ++ rest) = some (.nat n, rest) := by
  rw [unsigned, integer_append n hrest]
  simp [fraction_of_ends hrest, exponent_of_ends hrest, Nat.ofDigitChars_ten_toDigits]

/-! ## Values -/

/-- Values all of whose numbers are natural and all of whose strings are texts. -/
inductive Plain : Json → Prop where
  | null : Plain .null
  | bool (b : Bool) : Plain (.bool b)
  | nat (n : Nat) : Plain (.nat n)
  | text (s : String) : Plain (.text s)
  | array {js : List Json} (h : ∀ j ∈ js, Plain j) : Plain (.array js)
  | object {ms : List (String × Json)} (h : ∀ m ∈ ms, Plain m.2) : Plain (.object ms)

/-- A value is read from the front of its text, in no more steps than the text allows. -/
def Reread (j : Json) : Prop :=
  ∀ fuel rest, 2 * (chars j).length ≤ fuel → Ends rest →
    value fuel (chars j ++ rest) = some (j, rest)

theorem isBlank_of_isDigit {d : Char} (hd : d.isDigit = true) : isBlank d = false := by
  have hne {c : Char} (hc : c.isDigit = false) : (d == c) = false := by
    rw [beq_eq_false_iff_ne]
    rintro rfl
    exact Bool.noConfusion (hd.symm.trans hc)
  rw [isBlank, hne (by decide), hne (by decide), hne (by decide), hne (by decide)]
  rfl

theorem skipBlanks_cons {c : Char} (hc : isBlank c = false) (cs : List Char) :
    skipBlanks (c :: cs) = c :: cs := List.dropWhile_cons_of_neg (by simp [hc])

theorem value_digit (fuel : Nat) {d : Char} (hd : d.isDigit = true) (cs : List Char) :
    value (fuel + 1) (d :: cs) = unsigned (d :: cs) := by
  have hne {c : Char} (hc : c.isDigit = false) : d ≠ c := by
    rintro rfl
    exact Bool.noConfusion (hd.symm.trans hc)
  have hnumber : number (d :: cs) = unsigned (d :: cs) := by
    rw [number.eq_def]
    split
    · next h => exact absurd (List.cons.inj h).1 (hne (by decide))
    · rfl
  rw [value, skipBlanks_cons (isBlank_of_isDigit hd)]
  split
  · next h => exact absurd (List.cons.inj h).1 (hne (by decide))
  · next h => exact absurd (List.cons.inj h).1 (hne (by decide))
  · next h => exact absurd (List.cons.inj h).1 (hne (by decide))
  · next h => exact absurd (List.cons.inj h).1 (hne (by decide))
  · next h => exact absurd (List.cons.inj h).1 (hne (by decide))
  · next h => exact absurd (List.cons.inj h).1 (hne (by decide))
  · exact hnumber

theorem chars_start {j : Json} (hj : j.Plain) :
    ∃ c cs, chars j = c :: cs ∧ isBlank c = false ∧ c ≠ ']' := by
  cases hj with
  | nat n =>
    cases hds : Nat.toDigits 10 n with
    | nil => exact absurd hds Nat.toDigits_ne_nil
    | cons d ds =>
      have hd : d.isDigit = true :=
        Nat.isDigit_of_mem_toDigits (b := 10) (n := n) (by decide) (by decide) (by simp [hds])
      refine ⟨d, ds, by rw [chars, hds], isBlank_of_isDigit hd, ?_⟩
      rintro rfl
      exact absurd hd (by decide)
  | bool b => cases b <;> exact ⟨_, _, rfl, by decide, by decide⟩
  | _ => exact ⟨_, _, rfl, by decide, by decide⟩

theorem reread_nat (n : Nat) : Reread (.nat n) := by
  intro fuel rest hfuel hrest
  cases hds : Nat.toDigits 10 n with
  | nil => exact absurd hds Nat.toDigits_ne_nil
  | cons d ds =>
    have hd : d.isDigit = true :=
      Nat.isDigit_of_mem_toDigits (b := 10) (n := n) (by decide) (by decide) (by simp [hds])
    rw [chars, hds] at hfuel ⊢
    cases fuel with
    | zero => simp at hfuel
    | succ fuel =>
      rw [List.cons_append, value_digit fuel hd, ← List.cons_append, ← hds,
        unsigned_append n hrest]

theorem quoted_append (s : String) (rest : List Char) :
    quoted s ++ rest = '"' :: (s.toList.flatMap escape ++ '"' :: rest) := by
  simp [quoted]

theorem reread_text (s : String) : Reread (.text s) := by
  intro fuel rest hfuel _
  rw [chars] at hfuel ⊢
  cases fuel with
  | zero => simp [quoted] at hfuel
  | succ fuel =>
    rw [quoted_append, value, skipBlanks_cons (by decide)]
    simp [string_quoted]

theorem ends_cons {c : Char} (hc : c ∈ [',', ']', '}']) (cs : List Char) : Ends (c :: cs) := by
  intro d hd
  cases hd
  have hcases : c = ',' ∨ c = ']' ∨ c = '}' := by simpa using hc
  rcases hcases with rfl | rfl | rfl <;> decide

theorem items_last {fuel : Nat} {cs rest : List Char} {j : Json}
    (h : value fuel cs = some (j, ']' :: rest)) : items (fuel + 1) cs = some ([j], rest) := by
  rw [items, h]
  rfl

theorem items_next {fuel : Nat} {cs more rest : List Char} {j : Json} {js : List Json}
    (h : value fuel cs = some (j, ',' :: more)) (hmore : items fuel more = some (js, rest)) :
    items (fuel + 1) cs = some (j :: js, rest) := by
  rw [items, h]
  show (items fuel more >>= _) = _
  rw [hmore]
  rfl

theorem items_itemChars {js : List Json} (hne : js ≠ []) (hjs : ∀ j ∈ js, Reread j) (fuel : Nat)
    (rest : List Char) (hfuel : 2 * (itemChars js).length ≤ fuel) :
    items fuel (itemChars js ++ rest) = some (js, rest) := by
  induction js generalizing fuel with
  | nil => exact absurd rfl hne
  | cons j js ih =>
    have hj := hjs j (by simp)
    cases fuel with
    | zero => cases js <;> simp [itemChars] at hfuel
    | succ fuel =>
      cases js with
      | nil =>
        have hchars : itemChars [j] ++ rest = chars j ++ ']' :: rest := by simp [itemChars]
        rw [hchars]
        exact items_last (hj fuel _ (by simp [itemChars] at hfuel; omega) (ends_cons (by decide) _))
      | cons j' js =>
        have hchars : itemChars (j :: j' :: js) ++ rest =
            chars j ++ ',' :: (itemChars (j' :: js) ++ rest) := by simp [itemChars]
        have hmore := ih (by simp) (fun i hi => hjs i (by simp [hi])) fuel
          (by simp [itemChars] at hfuel; omega)
        rw [hchars]
        exact items_next (hj fuel _ (by simp [itemChars] at hfuel; omega)
          (ends_cons (by decide) _)) hmore

theorem members_last {fuel : Nat} {cs rest : List Char} {j : Json} (k : String)
    (h : value fuel cs = some (j, '}' :: rest)) :
    members (fuel + 1) (quoted k ++ ':' :: cs) = some ([(some k, j)], rest) := by
  rw [members, quoted_append]
  show (string (k.toList.flatMap escape ++ '"' :: _) >>= _) = _
  rw [string_quoted]
  show (value fuel cs >>= _) = _
  rw [h]
  rfl

theorem members_next {fuel : Nat} {cs more rest : List Char} {j : Json}
    {ms : List (Option String × Json)} (k : String) (h : value fuel cs = some (j, ',' :: more))
    (hmore : members fuel more = some (ms, rest)) :
    members (fuel + 1) (quoted k ++ ':' :: cs) = some ((some k, j) :: ms, rest) := by
  rw [members, quoted_append]
  show (string (k.toList.flatMap escape ++ '"' :: _) >>= _) = _
  rw [string_quoted]
  show (value fuel cs >>= _) = _
  rw [h]
  show (members fuel more >>= _) = _
  rw [hmore]
  rfl

theorem members_memberChars {ms : List (String × Json)} (hne : ms ≠ [])
    (hms : ∀ m ∈ ms, Reread m.2) (fuel : Nat) (rest : List Char)
    (hfuel : 2 * (memberChars ms).length ≤ fuel) :
    members fuel (memberChars ms ++ rest) =
      some (ms.map fun m => (some m.1, m.2), rest) := by
  induction ms generalizing fuel with
  | nil => exact absurd rfl hne
  | cons m ms ih =>
    obtain ⟨k, j⟩ := m
    have hj : Reread j := hms (k, j) (by simp)
    cases fuel with
    | zero => cases ms <;> simp [memberChars, quoted] at hfuel
    | succ fuel =>
      cases ms with
      | nil =>
        have hchars : memberChars [(k, j)] ++ rest = quoted k ++ ':' :: (chars j ++ '}' :: rest) := by
          simp [memberChars]
        rw [hchars]
        exact members_last k (hj fuel _ (by simp [memberChars] at hfuel; omega)
          (ends_cons (by decide) _))
      | cons m' ms =>
        have hchars : memberChars ((k, j) :: m' :: ms) ++ rest =
            quoted k ++ ':' :: (chars j ++ ',' :: (memberChars (m' :: ms) ++ rest)) := by
          simp [memberChars]
        have hmore := ih (by simp) (fun n hn => hms n (by simp [hn])) fuel
          (by simp [memberChars] at hfuel; omega)
        rw [hchars]
        exact members_next k (hj fuel _ (by simp [memberChars] at hfuel; omega)
          (ends_cons (by decide) _)) hmore

theorem reread_array {js : List Json} (hplain : ∀ j ∈ js, Plain j) (hjs : ∀ j ∈ js, Reread j) :
    Reread (.array js) := by
  intro fuel rest hfuel _
  rw [chars] at hfuel ⊢
  cases fuel with
  | zero => simp at hfuel
  | succ fuel =>
    cases js with
    | nil => rfl
    | cons j js =>
      have hitems := items_itemChars (by simp) hjs fuel rest (by simp at hfuel; omega)
      obtain ⟨c, cs, hchars, hblank, hend⟩ := chars_start (hplain j (by simp))
      obtain ⟨tail, htail⟩ : ∃ tail, itemChars (j :: js) ++ rest = c :: tail := by
        cases js <;> simp [itemChars, hchars]
      rw [List.cons_append, htail, value, skipBlanks_cons (by decide)]
      simp only [skipBlanks_cons hblank]
      split
      · next h => exact absurd (List.cons.inj h).1 hend
      · rw [← htail, hitems]
        rfl

theorem mapM_map {α β : Type} {f : β → Option α} {g : α → β} (h : ∀ x, f (g x) = some x)
    (xs : List α) : (xs.map g).mapM f = some xs := by
  induction xs with
  | nil => rfl
  | cons x xs ih =>
    rw [List.map_cons, List.mapM_cons, h, ih]
    rfl

theorem ofMembers_map (cs rest : List Char) (ms : List (String × Json)) :
    ofMembers cs rest (ms.map fun m => (some m.1, m.2)) = .object ms := by
  rw [ofMembers, mapM_map]
  exact fun _ => rfl

theorem reread_object {ms : List (String × Json)} (hms : ∀ m ∈ ms, Reread m.2) :
    Reread (.object ms) := by
  intro fuel rest hfuel _
  rw [chars] at hfuel ⊢
  cases fuel with
  | zero => simp at hfuel
  | succ fuel =>
    cases ms with
    | nil => rfl
    | cons m ms =>
      have hmembers := members_memberChars (by simp) hms fuel rest (by simp at hfuel; omega)
      obtain ⟨tail, htail⟩ : ∃ tail, memberChars (m :: ms) ++ rest = '"' :: tail := by
        cases ms <;> simp [memberChars, quoted]
      rw [htail] at hmembers
      rw [List.cons_append, htail, value]
      show (members fuel ('"' :: tail) >>= _) = _
      rw [hmembers]
      exact congrArg (fun j => some (j, rest)) (ofMembers_map _ rest _)

theorem Plain.reread {j : Json} (hj : j.Plain) : Reread j := by
  induction hj with
  | nat n => exact reread_nat n
  | text s => exact reread_text s
  | array h ih => exact reread_array h ih
  | object h ih => exact reread_object ih
  | null =>
    intro fuel rest hfuel _
    cases fuel with
    | zero => simp [chars] at hfuel
    | succ fuel => rfl
  | bool b =>
    intro fuel rest hfuel _
    cases fuel with
    | zero => cases b <;> simp [chars] at hfuel
    | succ fuel => cases b <;> rfl

theorem parse?_render {j : Json} (hj : j.Plain) : parse? j.render = some j := by
  have hread := hj.reread (2 * (chars j).length + 2) [] (by omega) (by simp [Ends])
  rw [List.append_nil] at hread
  simp only [parse?, render, String.toList_ofList, hread]
  rfl

end TokenLedger.Json
