import TokenLedger.Bech32m

/-!
# The checksum completes every word

The register is linear over exclusive or, and six symbols shifted into a
blank register stand in it unchanged. So the six symbols of `checksum` move
the remainder of any word to the one constant that `isValid` asks for, and
no other six do.
-/

set_option autoImplicit false

namespace TokenLedger.Bech32m

theorem feedback_xor (a b : Symbol) : feedback (a ^^^ b) = feedback a ^^^ feedback b := by
  revert a b
  decide +kernel

theorem feedback_zero : feedback 0 = 0 := by decide

theorem step_xor (r x : Remainder) (s t : Symbol) :
    step (r ^^^ x) (s ^^^ t) = step r s ^^^ step x t := by
  have hx : (r ^^^ x).extractLsb' 25 5 = r.extractLsb' 25 5 ^^^ x.extractLsb' 25 5 := by
    ext i hi
    simp
  have hs : (s ^^^ t).setWidth 30 = s.setWidth 30 ^^^ t.setWidth 30 := by
    ext i hi
    simp
  rw [step, step, step, hx, hs, feedback_xor, BitVec.shiftLeft_xor_distrib]
  ac_rfl

theorem foldl_step_xor (r x : Remainder) (ss : List Symbol) :
    ss.foldl step (r ^^^ x) =
      (List.replicate ss.length 0).foldl step r ^^^ ss.foldl step x := by
  induction ss generalizing r x with
  | nil => rfl
  | cons s ss ih =>
    have hzero : 0 ^^^ s = s := BitVec.zero_xor
    have hs : step (r ^^^ x) s = step r 0 ^^^ step x s := by rw [← step_xor, hzero]
    rw [List.foldl_cons, hs, ih]
    rfl

/-- A register that has moved down by a symbol takes that symbol in again. -/
theorem step_shift (r : Remainder) (n : Nat) :
    step (r >>> (n + 5)) (r.extractLsb' n 5) = r >>> n := by
  have htop : (r >>> (n + 5)).extractLsb' 25 5 = 0 := by
    ext i hi
    have hr : r.getLsbD (n + 5 + (25 + i)) = false := BitVec.getLsbD_of_ge r _ (by omega)
    simp [hr]
  rw [step, htop, feedback_zero]
  ext i hi
  by_cases h : i < 5
  · simp [h]
  · have hn : n + 5 + (i - 5) = n + i := by omega
    simp [h, hn]

theorem foldl_step_symbols (r : Remainder) : (symbols r).foldl step 0 = r := by
  have h30 : r >>> 30 = 0 := by
    ext i hi
    simp
  have h := step_shift r
  simp only [symbols, List.foldl_cons, List.foldl_nil]
  rw [← h30, h 25, h 20, h 15, h 10, h 5, h 0, BitVec.ushiftRight_zero]

theorem length_symbols (r : Remainder) : (symbols r).length = 6 := rfl

theorem remainder_checksum (label : List Char) (data : List Symbol) :
    remainder (expand label ++ data ++ checksum label data) = constant := by
  have hrun (ss : List Symbol) : remainder (expand label ++ data ++ ss) =
      ss.foldl step (remainder (expand label ++ data)) := List.foldl_append ..
  have hzero : remainder (expand label ++ data) ^^^ 0 = remainder (expand label ++ data) :=
    BitVec.xor_zero
  have hsum := foldl_step_xor (remainder (expand label ++ data)) 0 (checksum label data)
  have hlen : (checksum label data).length = 6 := length_symbols _
  rw [hzero, hlen, ← hrun, ← hrun] at hsum
  rw [hsum, checksum, foldl_step_symbols, ← BitVec.xor_assoc, BitVec.xor_self, BitVec.zero_xor]

theorem isValid_checksum (label : List Char) (data : List Symbol) :
    isValid label (data ++ checksum label data) = true := by
  rw [isValid, ← List.append_assoc, remainder_checksum]
  exact beq_self_eq_true _

theorem symbols_step {r : Remainder} (h : r.extractLsb' 25 5 = 0) (s : Symbol) :
    symbols (step r s) = (symbols r).tail ++ [s] := by
  have hstep : step r s = (r <<< 5) ^^^ s.setWidth 30 := by
    rw [step, h, feedback_zero]
    exact BitVec.xor_zero
  -- nothing is fed back, so the step only moves the register up and puts the symbol below
  have hlow : (step r s).extractLsb' 0 5 = s := by
    rw [hstep]
    ext i hi
    have hlt : i < 30 := by omega
    simp [hi, hlt]
  have hshift (n : Nat) (hn : n ≤ 20) :
      (step r s).extractLsb' (n + 5) 5 = r.extractLsb' n 5 := by
    rw [hstep]
    ext i hi
    have hlt : n + 5 + i < 30 := by omega
    have hge : ¬n + 5 + i < 5 := by omega
    have hback : n + 5 + i - 5 = n + i := by omega
    have hs : s.getLsbD (n + 5 + i) = false := BitVec.getLsbD_of_ge s _ (by omega)
    have hr : r.getLsbD (n + i) = r[n + i] := BitVec.getLsbD_eq_getElem (by omega)
    simp [hlt, hge, hback, hs, hr]
  simp only [symbols, List.tail_cons, List.cons_append, List.nil_append]
  rw [hlow, hshift 20 (by decide), hshift 15 (by decide), hshift 10 (by decide),
    hshift 5 (by decide), hshift 0 (by decide)]

theorem symbols_foldl_step {r : Remainder} {ss ts : List Symbol}
    (h : symbols r = List.replicate ss.length 0 ++ ts) : symbols (ss.foldl step r) = ts ++ ss := by
  induction ss generalizing r ts with
  | nil => simpa using h
  | cons s ss ih =>
    rw [List.length_cons, List.replicate_succ, List.cons_append] at h
    have htop : r.extractLsb' 25 5 = 0 := (List.cons.inj h).1
    have hstep : symbols (step r s) = List.replicate ss.length 0 ++ (ts ++ [s]) := by
      rw [symbols_step htop, h, List.tail_cons, List.append_assoc]
    rw [List.foldl_cons, ih hstep, List.append_assoc, List.singleton_append]

/-- No other six symbols complete a word. -/
theorem eq_checksum_of_isValid {label : List Char} {data check : List Symbol}
    (hlength : check.length = 6) (h : isValid label (data ++ check) = true) :
    check = checksum label data := by
  have hrun : check.foldl step (remainder (expand label ++ data)) = constant := by
    rw [remainder, ← List.foldl_append, List.append_assoc]
    exact eq_of_beq h
  have hsum := foldl_step_xor (remainder (expand label ++ data)) 0 check
  have hzero : remainder (expand label ++ data) ^^^ 0 = remainder (expand label ++ data) :=
    BitVec.xor_zero
  have hblank : (List.replicate 6 0).foldl step (remainder (expand label ++ data)) =
      remainder (expand label ++ data ++ List.replicate 6 0) := by
    rw [remainder, remainder, ← List.foldl_append]
  have hregister : check.foldl step 0 =
      remainder (expand label ++ data ++ List.replicate 6 0) ^^^ constant := by
    rw [hzero, hrun, hlength, hblank] at hsum
    rw [hsum, ← BitVec.xor_assoc, BitVec.xor_self, BitVec.zero_xor]
  have hsymbols : symbols 0 = List.replicate check.length 0 ++ [] := by
    rw [hlength]
    decide
  rw [checksum, ← hregister, symbols_foldl_step hsymbols, List.nil_append]

end TokenLedger.Bech32m
