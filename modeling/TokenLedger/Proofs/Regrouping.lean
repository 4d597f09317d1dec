import Mathlib.Tactic.Ring
import TokenLedger.Base32

/-!
# Regrouped bits are the digits of one number

A register that took digits of one width and gave digits of another holds
the rest of the same number. From this the symbols of 32 bytes are the
digits of the number of the bytes times sixteen, and bytes are read from
symbols exactly if four zero bits are left over.
-/

set_option autoImplicit false

namespace TokenLedger.Base32

open Bech32m (Symbol)

/-! ## The register -/

namespace Register

def pending (r : Register) : Nat := r.buffer.toNat % 2 ^ r.bits.toNat

variable {r : Register} {w x : UInt32}

theorem pending_lt (r : Register) : r.pending < 2 ^ r.bits.toNat :=
  Nat.mod_lt _ (Nat.two_pow_pos _)

theorem toNat_bits_push (x : UInt32) (hfit : r.bits.toNat + w.toNat < 32) :
    (r.push w x).bits.toNat = r.bits.toNat + w.toNat := by
  rw [push, UInt32.toNat_add]
  omega

theorem toNat_bits_pop (hw : w ≤ r.bits) : (r.pop w).bits.toNat = r.bits.toNat - w.toNat :=
  UInt32.toNat_sub_of_le _ _ hw

theorem mul_add_mod_mul {m p q x : Nat} (hx : x < p) : (m * p + x) % (p * q) = m % q * p + x := by
  have hp : 0 < p := by omega
  rw [Nat.mod_mul, Nat.mul_add_mod_self_right, Nat.mod_eq_of_lt hx, Nat.add_comm (m * p) x,
    Nat.add_mul_div_right _ _ hp, Nat.div_eq_of_lt hx, Nat.zero_add, Nat.mul_comm p, Nat.add_comm]

/-- The bits that were taken before are not cleared, but they do not count. -/
theorem pending_push (hx : x.toNat < 2 ^ w.toNat) (hfit : r.bits.toNat + w.toNat < 32) :
    (r.push w x).pending = r.pending * 2 ^ w.toNat + x.toNat := by
  have hw : w.toNat % 32 = w.toNat := Nat.mod_eq_of_lt (by omega)
  have hdvd : 2 ^ (r.bits.toNat + w.toNat) ∣ 2 ^ 32 := Nat.pow_dvd_pow 2 (by omega)
  have hlow : (r.push w x).buffer.toNat % 2 ^ (r.bits.toNat + w.toNat) =
      (r.buffer.toNat * 2 ^ w.toNat + x.toNat) % 2 ^ (r.bits.toNat + w.toNat) := by
    rw [push, UInt32.toNat_or, UInt32.toNat_shiftLeft, hw, Nat.or_mod_two_pow,
      Nat.mod_mod_of_dvd _ hdvd, ← Nat.or_mod_two_pow, ← Nat.shiftLeft_add_eq_or_of_lt hx,
      Nat.shiftLeft_eq]
  rw [pending, toNat_bits_push x hfit, hlow, Nat.add_comm r.bits.toNat, Nat.pow_add,
    mul_add_mod_mul hx, pending]

theorem pending_pop (hw : w ≤ r.bits) :
    (r.pop w).pending = r.pending % 2 ^ (r.bits.toNat - w.toNat) := by
  rw [pending, toNat_bits_pop hw, pending, Nat.mod_mod_of_dvd _ (Nat.pow_dvd_pow 2 (Nat.sub_le ..))]
  rfl

theorem above_pop (hw : w ≤ r.bits) (hfit : r.bits.toNat < 32) :
    (r.pop w).above.toNat % 2 ^ w.toNat = r.pending / 2 ^ (r.bits.toNat - w.toNat) := by
  have hle := UInt32.le_iff_toNat_le.1 hw
  have hshift : (r.pop w).above.toNat = r.buffer.toNat / 2 ^ (r.bits.toNat - w.toNat) := by
    rw [above, UInt32.toNat_shiftRight, toNat_bits_pop hw, Nat.shiftRight_eq_div_pow,
      Nat.mod_eq_of_lt (show r.bits.toNat - w.toNat < 32 by omega)]
    rfl
  have hsplit : 2 ^ r.bits.toNat = 2 ^ (r.bits.toNat - w.toNat) * 2 ^ w.toNat := by
    rw [← Nat.pow_add, Nat.sub_add_cancel hle]
  rw [hshift, pending, hsplit, Nat.mod_mul_right_div_self]

theorem toNat_rest (hfit : r.bits.toNat < 32) : r.rest.toNat = r.pending := by
  have hone : ((1 : UInt32) <<< r.bits).toNat = 2 ^ r.bits.toNat := by
    rw [UInt32.toNat_shiftLeft, Nat.mod_eq_of_lt hfit, Nat.shiftLeft_eq, UInt32.toNat_one,
      Nat.one_mul]
    exact Nat.mod_eq_of_lt (Nat.pow_lt_pow_right (by decide) hfit)
  have hmask : ((1 : UInt32) <<< r.bits - 1).toNat = 2 ^ r.bits.toNat - 1 := by
    rw [UInt32.toNat_sub_of_le, hone]
    · rfl
    · rw [UInt32.le_iff_toNat_le, hone]
      exact Nat.one_le_two_pow
  rw [rest, UInt32.toNat_and, hmask, Nat.and_two_pow_sub_one_eq_mod, pending]

end Register

/-! ## What a register carries over -/

/-- Between the digits of width `w` that were taken and those of width `v` that were given,
both with the last one first, the register holds the rest. -/
structure Carries (w v : UInt32) (taken given : List Nat) (r : Register) : Prop where
  count : taken.length * w.toNat = given.length * v.toNat + r.bits.toNat
  value : Radix.value (2 ^ w.toNat) taken =
    Radix.value (2 ^ v.toNat) given * 2 ^ r.bits.toNat + r.pending

variable {w v x : UInt32} {taken given : List Nat} {r : Register}

theorem carries_nil (w v : UInt32) : Carries w v [] [] {} := ⟨by simp, rfl⟩

theorem Carries.push (h : Carries w v taken given r) (hx : x.toNat < 2 ^ w.toNat)
    (hfit : r.bits.toNat + w.toNat < 32) : Carries w v (x.toNat :: taken) given (r.push w x) where
  count := by
    rw [Register.toNat_bits_push x hfit, List.length_cons, Nat.succ_mul, h.count, Nat.add_assoc]
  value := by
    rw [Register.toNat_bits_push x hfit, Register.pending_push hx hfit, Radix.value, h.value,
      Nat.pow_add]
    ring

theorem Carries.pop (h : Carries w v taken given r) (hv : v ≤ r.bits) (hfit : r.bits.toNat < 32) :
    Carries w v taken ((r.pop v).above.toNat % 2 ^ v.toNat :: given) (r.pop v) := by
  have hle := UInt32.le_iff_toNat_le.1 hv
  have hsplit : 2 ^ r.bits.toNat = 2 ^ v.toNat * 2 ^ (r.bits.toNat - v.toNat) := by
    rw [← Nat.pow_add, Nat.add_sub_cancel' hle]
  constructor
  · rw [Register.toNat_bits_pop hv, h.count, List.length_cons, Nat.succ_mul]
    omega
  · have hheld := Nat.div_add_mod r.pending (2 ^ (r.bits.toNat - v.toNat))
    rw [Register.toNat_bits_pop hv, Register.above_pop hv hfit, Register.pending_pop hv,
      Radix.value, h.value, hsplit]
    calc
      _ = Radix.value (2 ^ v.toNat) given * (2 ^ v.toNat * 2 ^ (r.bits.toNat - v.toNat)) +
          (2 ^ (r.bits.toNat - v.toNat) * (r.pending / 2 ^ (r.bits.toNat - v.toNat)) +
            r.pending % 2 ^ (r.bits.toNat - v.toNat)) := by rw [hheld]
      _ = _ := by ring

/-! ## From bytes to symbols -/

theorem toNat_symbol (x : UInt32) : (symbol x).toNat = x.toNat % 2 ^ 5 := by
  have hmask : (x &&& 31).toNat = x.toNat % 2 ^ 5 := by
    rw [UInt32.toNat_and]
    exact Nat.and_two_pow_sub_one_eq_mod x.toNat 5
  rw [symbol, BitVec.toNat_setWidth, UInt32.toNat_toBitVec, hmask, Nat.mod_mod]

theorem carries_drain {out : List Symbol} (h : Carries 8 5 taken (out.map BitVec.toNat) r)
    (hfit : r.bits.toNat < 32) :
    Carries 8 5 taken ((drain r out).1.map BitVec.toNat) (drain r out).2 ∧
      (drain r out).2.bits.toNat < 5 := by
  induction r, out using drain.induct with
  | case1 r out hfull ih =>
    rw [drain, if_pos hfull]
    apply ih
    · rw [List.map_cons, toNat_symbol]
      exact h.pop hfull hfit
    · rw [Register.toNat_bits_pop hfull]
      omega
  | case2 r out hfull =>
    rw [drain, if_neg hfull]
    exact ⟨h, by rw [UInt32.le_iff_toNat_le] at hfull; exact Nat.lt_of_not_le hfull⟩

theorem carries_foldl_feed (state : List Symbol × Register) (bs : Bytes)
    (h : Carries 8 5 taken (state.1.map BitVec.toNat) state.2) (hbits : state.2.bits.toNat < 5) :
    Carries 8 5 ((bs.map UInt8.toNat).reverse ++ taken)
        ((bs.foldl feed state).1.map BitVec.toNat) (bs.foldl feed state).2 ∧
      (bs.foldl feed state).2.bits.toNat < 5 := by
  induction bs generalizing state taken with
  | nil => exact ⟨h, hbits⟩
  | cons b bs ih =>
    -- at most four bits are left of the bytes before, so one more byte always fits
    have hfit : state.2.bits.toNat + (8 : UInt32).toNat < 32 := by
      have height : (8 : UInt32).toNat = 8 := rfl
      omega
    have hpushed := h.push (x := b.toUInt32) b.toNat_lt hfit
    obtain ⟨hfed, hrest⟩ := carries_drain hpushed (by
      rw [Register.toNat_bits_push _ hfit]
      exact hfit)
    rw [List.map_cons, List.reverse_cons, List.append_assoc]
    exact ih _ hfed hrest

theorem toNat_pad {r : Register} (hbits : r.bits.toNat < 5) :
    (symbol (r.buffer <<< (5 - r.bits))).toNat = r.pending * 2 ^ (5 - r.bits.toNat) := by
  have hle : r.bits ≤ 5 := UInt32.le_iff_toNat_le.2 (Nat.le_of_lt hbits)
  have hshift : (5 - r.bits).toNat % 32 = 5 - r.bits.toNat := by
    rw [UInt32.toNat_sub_of_le _ _ hle, show (5 : UInt32).toNat = 5 from rfl]
    omega
  have hsplit : 2 ^ 5 = 2 ^ r.bits.toNat * 2 ^ (5 - r.bits.toNat) := by
    rw [← Nat.pow_add, Nat.add_sub_cancel' (Nat.le_of_lt hbits)]
  rw [toNat_symbol, UInt32.toNat_shiftLeft, hshift, Nat.shiftLeft_eq,
    Nat.mod_mod_of_dvd _ (Nat.pow_dvd_pow 2 (by decide)), hsplit, Nat.mul_mod_mul_right,
    Register.pending]

theorem lt_of_mem_map (data : List Symbol) : ∀ d ∈ data.map BitVec.toNat, d < 32 := by
  intro d hd
  obtain ⟨s, -, rfl⟩ := List.mem_map.1 hd
  exact s.isLt

theorem value_lt (data : List Symbol) :
    Radix.value 32 (data.map BitVec.toNat) < Radix.capacity 32 data.length := by
  have h := Radix.value_lt (lt_of_mem_map data)
  rwa [List.length_map] at h

theorem map_ofNat_digits (data : List Symbol) :
    (Radix.digits 32 data.length (Radix.value 32 (data.map BitVec.toNat))).map (BitVec.ofNat 5) =
      data := by
  have hdigits := Radix.digits_value (lt_of_mem_map data)
  rw [List.length_map] at hdigits
  rw [hdigits, List.map_map, List.map_congr_left (g := id), List.map_id]
  intro s _
  exact (BitVec.ofNat_toNat 5 s).trans (BitVec.setWidth_eq s)

theorem ofBytes_eq (key : Bytes32) : ofBytes key.toList =
    ((Radix.digits 32 52 (Bytes.wordValue key.toList.reverse * 16)).map
      (BitVec.ofNat 5)).reverse := by
  obtain ⟨hrun, hbits⟩ :=
    carries_foldl_feed ([], {}) key.toList (carries_nil 8 5) (by decide)
  rw [ofBytes]
  generalize key.toList.foldl feed ([], {}) = state at hrun hbits
  obtain ⟨out, r⟩ := state
  simp only at hrun hbits ⊢
  have hcount : 32 * 8 = out.length * 5 + r.bits.toNat := by
    simpa [key.length_toList] using hrun.count
  have hvalue : Bytes.wordValue key.toList.reverse =
      Radix.value 32 (out.map BitVec.toNat) * 2 ^ r.bits.toNat + r.pending := by
    rw [Bytes.wordValue, List.map_reverse, ← List.append_nil (List.reverse _)]
    exact hrun.value
  -- 256 bits fill 51 symbols, and one bit is left over
  have hone : r.bits.toNat = 1 := by omega
  have hpad := toNat_pad hbits
  have hdigits := map_ofNat_digits (symbol (r.buffer <<< (5 - r.bits)) :: out)
  rw [List.map_cons, Radix.value, hpad, hone, List.length_cons,
    show out.length + 1 = 52 by omega] at hdigits
  have hpositive : 0 < r.bits := UInt32.lt_iff_toNat_lt.2 (by rw [hone]; decide)
  have hnumber : r.pending * 2 ^ (5 - 1) + 32 * Radix.value 32 (out.map BitVec.toNat) =
      Bytes.wordValue key.toList.reverse * 16 := by
    rw [hvalue, hone]
    ring
  rw [if_pos hpositive, ← hdigits, hnumber]

/-! ## From symbols to bytes -/

theorem gather_of_room {state : Bytes × Register} (s : Symbol)
    (h : Carries 5 8 taken (state.1.map UInt8.toNat) state.2) (hbits : state.2.bits.toNat < 8)
    (hroom : (taken.length + 1) * 5 < 33 * 8) :
    ∃ state', gather state s = some state' ∧
      Carries 5 8 (s.toNat :: taken) (state'.1.map UInt8.toNat) state'.2 ∧
        state'.2.bits.toNat < 8 := by
  obtain ⟨out, r⟩ := state
  simp only at h hbits
  have hs : (UInt32.ofBitVec (s.setWidth 32)).toNat = s.toNat := by
    rw [UInt32.toNat_ofBitVec, BitVec.toNat_setWidth]
    omega
  have hfive : (5 : UInt32).toNat = 5 := rfl
  have hfit : r.bits.toNat + (5 : UInt32).toNat < 32 := by omega
  have hsum := Register.toNat_bits_push (UInt32.ofBitVec (s.setWidth 32)) hfit
  have hpushed := h.push (hs.trans_lt s.isLt) hfit
  rw [hs] at hpushed
  rw [gather]
  simp only
  generalize r.push 5 (UInt32.ofBitVec (s.setWidth 32)) = r' at hsum hpushed
  by_cases hfull : 8 ≤ r'.bits
  · have hcount := hpushed.count
    have height : (8 : UInt32).toNat = 8 := rfl
    rw [List.length_cons, List.length_map, hfive, height] at hcount
    have hle := UInt32.le_iff_toNat_le.1 hfull
    -- with 32 bytes given and one more byte held, 33 bytes would have been taken
    rw [if_pos hfull, if_pos (by omega)]
    refine ⟨_, rfl, ?_, ?_⟩
    · rw [List.map_cons, UInt32.toNat_toUInt8]
      exact hpushed.pop hfull (by omega)
    · rw [Register.toNat_bits_pop hfull]
      omega
  · rw [if_neg hfull]
    rw [UInt32.le_iff_toNat_le] at hfull
    exact ⟨_, rfl, hpushed, Nat.lt_of_not_le hfull⟩

theorem foldlM_gather_of_room (state : Bytes × Register) (data : List Symbol)
    (h : Carries 5 8 taken (state.1.map UInt8.toNat) state.2) (hbits : state.2.bits.toNat < 8)
    (hroom : (taken.length + data.length) * 5 < 33 * 8) :
    ∃ state', data.foldlM gather state = some state' ∧
      Carries 5 8 ((data.map BitVec.toNat).reverse ++ taken) (state'.1.map UInt8.toNat) state'.2 ∧
        state'.2.bits.toNat < 8 := by
  induction data generalizing state taken with
  | nil => exact ⟨state, rfl, h, hbits⟩
  | cons s data ih =>
    rw [List.length_cons] at hroom
    obtain ⟨state', hstep, h', hbits'⟩ := gather_of_room s h hbits (by omega)
    obtain ⟨state'', hrun, h'', hbits''⟩ := ih state' h' hbits' (by rw [List.length_cons]; omega)
    rw [List.foldlM_cons, hstep, List.map_cons, List.reverse_cons, List.append_assoc]
    exact ⟨state'', hrun, h'', hbits''⟩

/-- From 52 symbols 32 bytes are read exactly if the number of the symbols is divided by
sixteen, and the bytes are those of the quotient. -/
theorem toBytes?_eq {data : List Symbol} (hlength : data.length = 52) :
    toBytes? data =
      let n := Radix.value 32 (data.map BitVec.toNat).reverse
      if n % 16 = 0 then Bytes32.ofList? (Bytes.word 32 (n / 16)).reverse else none := by
  obtain ⟨⟨out, r⟩, hrun, h, hbits⟩ := foldlM_gather_of_room ([], {}) data
    (carries_nil 5 8) (by decide) (by rw [hlength]; decide)
  simp only at h hbits
  have hcount : 52 * 5 = out.length * 8 + r.bits.toNat := by
    simpa [hlength] using h.count
  -- 260 bits make 32 bytes, and four bits are left over
  have hfour : r.bits.toNat = 4 := by omega
  have hvalue : Radix.value 32 (data.map BitVec.toNat).reverse =
      Bytes.wordValue out * 16 + r.pending := by
    have hv := h.value
    rw [List.append_nil, hfour] at hv
    exact hv
  have hlt := r.pending_lt
  rw [hfour] at hlt
  have hrest : r.rest = 0 ↔ r.pending = 0 := by
    rw [← UInt32.toNat_inj, Register.toNat_rest (by omega)]
    rfl
  have hword := Bytes.word_wordValue out
  rw [show out.length = 32 by omega] at hword
  have hdiv : (Bytes.wordValue out * 16 + r.pending) / 16 = Bytes.wordValue out := by omega
  have hmod : (Bytes.wordValue out * 16 + r.pending) % 16 = r.pending := by omega
  have hfive : r.bits < 5 := UInt32.lt_iff_toNat_lt.2 (by rw [hfour]; decide)
  simp only [toBytes?, hrun, Option.bind_eq_bind, Option.bind_some, hvalue, hdiv, hmod, hword,
    hfive, hrest, true_and]

end TokenLedger.Base32
