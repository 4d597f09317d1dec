import TokenLedger.Store.Overlay
import TokenLedger.Proofs.Answers
import TokenLedger.Proofs.Balances

/-!
# Settling on the balances themselves

Moves carried out one by one on a list of balances, without changes in
between. A settlement over a store that answers every call succeeds exactly
when the moves do on the balances of the vault, fails with the same error,
and gathers writes that lead to the same balances. From the moves it follows
what every account gains and what the total gains.
-/

set_option autoImplicit false

namespace TokenLedger

namespace Balances

def move (m : Balances) : Move → Except ProgramError Balances
  | .credit key amount => do
    return m.insert key (← checkedAdd ((m.find? key).getD 0) amount)
  | .debit key amount =>
    match m.find? key with
    | some current => do return m.insert key (← checkedSub current amount)
    | none => .error (.missingKey key)

def settle (m : Balances) : List Move → Except ProgramError Balances
  | [] => .ok m
  | mv :: mvs => do settle (← m.move mv) mvs

end Balances

namespace Overlay

/-- An overlay over a vault that leads to given balances, with the records
and serial numbers of given changes. -/
structure Over (v : Vault) (c : Changes) (o : Overlay) (m : Balances) : Prop where
  store : o.store = Store.ofVault v
  records : o.changes.records = c.records
  spent : o.changes.spent = c.spent
  keys : (o.changes.writes.map Prod.fst).Nodup
  balances : v.balances.written o.changes.writes = m

variable {v : Vault} {c : Changes} {o : Overlay} {m : Balances}

theorem Over.read (h : Over v c o m) (key : Address) : o.read key = .ok (m.find? key) := by
  rw [← h.balances, Balances.find?_written h.keys, Overlay.read, Changes.written?, h.store]
  cases o.changes.writes.find? key with
  | some x => rfl
  | none => rfl

theorem Over.set (hv : v.balances.Ordered) (h : Over v c o m) (key : Address) (value : UInt64) :
    Over v c (o.set key value) (m.insert key value) where
  store := h.store
  records := h.records
  spent := h.spent
  keys := Balances.nodup_put h.keys key value
  balances := by
    rw [← h.balances]
    exact Balances.written_put hv h.keys key value

theorem Over.move (hv : v.balances.Ordered) (h : Over v c o m) (mv : Move) :
    (∃ e, o.move mv = .error e ∧ m.move mv = .error e) ∨
      ∃ o' m', o.move mv = .ok o' ∧ m.move mv = .ok m' ∧ Over v c o' m' := by
  cases mv with
  | credit key amount =>
    simp only [Overlay.move, getD, h.read, Balances.move, Answers.ok_bind, Answers.pure_eq]
    cases checkedAdd ((m.find? key).getD 0) amount with
    | error e => exact .inl ⟨e, rfl, rfl⟩
    | ok value => exact .inr ⟨_, _, rfl, rfl, h.set hv key value⟩
  | debit key amount =>
    simp only [Overlay.move, get, h.read, Balances.move, Answers.ok_bind, Answers.pure_eq]
    cases m.find? key with
    | none => exact .inl ⟨_, rfl, rfl⟩
    | some current =>
      simp only [Answers.ok_bind]
      cases checkedSub current amount with
      | error e => exact .inl ⟨e, rfl, rfl⟩
      | ok value => exact .inr ⟨_, _, rfl, rfl, h.set hv key value⟩

theorem Over.run (hv : v.balances.Ordered) (h : Over v c o m) (mvs : List Move) :
    (∃ o' e, o.run mvs = (o', .error e) ∧ m.settle mvs = .error e) ∨
      ∃ o' m', o.run mvs = (o', .ok ()) ∧ m.settle mvs = .ok m' ∧ Over v c o' m' := by
  induction mvs generalizing o m with
  | nil => exact .inr ⟨o, m, rfl, rfl, h⟩
  | cons mv mvs ih =>
    rcases h.move hv mv with ⟨e, ho, hm⟩ | ⟨o', m', ho, hm, h'⟩
    · exact .inl ⟨o, e, by simp only [Overlay.run, ho], by
        simp only [Balances.settle, hm, Answers.error_bind]⟩
    · simp only [Overlay.run, ho, Balances.settle, hm, Answers.ok_bind]
      exact ih h'

theorem over_empty (v : Vault) (c : Changes) (h : c.writes = []) :
    Over v c ⟨Store.ofVault v, c⟩ v.balances where
  store := rfl
  records := rfl
  spent := rfl
  keys := by rw [h]; exact List.nodup_nil
  balances := by rw [h]; rfl

end Overlay

/-! ## Gains -/

namespace Move

def gain (a : Address) : Move → Int
  | .credit key amount => if a = key then amount.toNat else 0
  | .debit key amount => if a = key then -amount.toNat else 0

def delta : Move → Int
  | .credit _ amount => amount.toNat
  | .debit _ amount => -amount.toNat

def gains (a : Address) : List Move → Int
  | [] => 0
  | mv :: mvs => mv.gain a + gains a mvs

def deltas : List Move → Int
  | [] => 0
  | mv :: mvs => mv.delta + deltas mvs

theorem gains_append (a : Address) (ms ns : List Move) :
    gains a (ms ++ ns) = gains a ms + gains a ns := by
  induction ms with
  | nil => simp [gains]
  | cons m ms ih => rw [List.cons_append, gains, gains, ih, Int.add_assoc]

theorem deltas_append (ms ns : List Move) : deltas (ms ++ ns) = deltas ms + deltas ns := by
  induction ms with
  | nil => simp [deltas]
  | cons m ms ih => rw [List.cons_append, deltas, deltas, ih, Int.add_assoc]

end Move

namespace Settlement

def gain (a : Address) (s : Settlement) : Int := Move.gains a s.moves

theorem deltas_moves (s : Settlement) : Move.deltas s.moves = s.supplyDelta := by
  cases s <;> simp only [moves, Move.deltas, Move.delta, supplyDelta] <;> omega

end Settlement

namespace Balances

variable {m m' : Balances}

theorem insert_gain (h : m.Ordered) {key : Address} {value : UInt64} {d : Int}
    (hd : (value.toNat : Int) = m.amount key + d) :
    (m.insert key value).Ordered ∧
      (∀ a, ((m.insert key value).amount a : Int) = m.amount a + if a = key then d else 0) ∧
      ((m.insert key value).total : Int) = m.total + d := by
  refine ⟨ordered_insert h key value, ?_, ?_⟩
  · intro a
    by_cases ha : a = key
    · rw [ha, amount_insert_self, if_pos rfl, hd]
    · rw [amount_insert_of_ne ha, if_neg ha, Int.add_zero]
  · have htotal := total_insert h key value
    omega

theorem move_gain (h : m.Ordered) {mv : Move} (hmv : m.move mv = .ok m') :
    m'.Ordered ∧ (∀ a, (m'.amount a : Int) = m.amount a + mv.gain a) ∧
      (m'.total : Int) = m.total + mv.delta := by
  cases mv with
  | credit key amount =>
    obtain ⟨value, hadd, hm'⟩ := Answers.bind_eq_ok.1 hmv
    cases hm'
    have hvalue := (checkedAdd_ok_iff.1 hadd).2
    exact insert_gain h (by rw [hvalue, Balances.amount]; omega)
  | debit key amount =>
    simp only [move] at hmv
    split at hmv
    · next current hfind =>
      obtain ⟨value, hsub, hm'⟩ := Answers.bind_eq_ok.1 hmv
      cases hm'
      obtain ⟨hle, hvalue⟩ := checkedSub_ok_iff.1 hsub
      exact insert_gain h (by rw [hvalue, Balances.amount, hfind, Option.getD_some]; omega)
    · cases hmv

theorem settle_gain (h : m.Ordered) {mvs : List Move} (hmvs : m.settle mvs = .ok m') :
    m'.Ordered ∧ (∀ a, (m'.amount a : Int) = m.amount a + Move.gains a mvs) ∧
      (m'.total : Int) = m.total + Move.deltas mvs := by
  induction mvs generalizing m with
  | nil =>
    cases hmvs
    simp [h, Move.gains, Move.deltas]
  | cons mv mvs ih =>
    obtain ⟨m₁, hmove, hrest⟩ := Answers.bind_eq_ok.1 hmvs
    obtain ⟨h₁, hgain₁, htotal₁⟩ := move_gain h hmove
    obtain ⟨h', hgain, htotal⟩ := ih h₁ hrest
    refine ⟨h', ?_, ?_⟩
    · intro a
      rw [hgain, hgain₁, Move.gains, Int.add_assoc]
    · rw [htotal, htotal₁, Move.deltas, Int.add_assoc]

end Balances

end TokenLedger
