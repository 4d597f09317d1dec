import TokenLedger.Proofs.GateRoots

/-!
# The check and the evaluation agree

The check of a transaction and the evaluation of a call describe the eight
functions independently of each other. A transaction passes the check exactly
when some call comes to one like it, that is to one with the same function,
caller, inputs and settlement, the same balances of the outputs, and a value
where it has one. Ids, nonces and owners of outputs are not compared.
-/

set_option autoImplicit false

namespace TokenLedger

namespace Token

theorem total_eq_of_balances {ts us : List Token}
    (h : ts.map Token.balance = us.map Token.balance) : total ts = total us := by
  induction ts generalizing us with
  | nil => rw [List.map_eq_nil_iff.1 h.symm]
  | cons t ts ih =>
    obtain ⟨u, us, rfl, hbalance, hrest⟩ := List.map_eq_cons_iff.1 h.symm
    rw [total, total, hbalance, ih hrest.symm]

end Token

theorem gate_ten (b : Scalar) : gate (Scalar.ofUInt64 10) b = .ok (Scalar.ofUInt64 10 + b) := by
  have hten : (Scalar.ofUInt64 10).toNat = 10 := by decide
  rw [gate_eq, if_pos (.inl hten)]

namespace Transaction

/-- Two transactions that the check cannot tell apart. -/
structure Resembles (tx tx' : Transaction) : Prop where
  function : tx.function = tx'.function
  caller : tx.caller = tx'.caller
  consumed : tx.consumed = tx'.consumed
  settlement : tx.settlement = tx'.settlement
  balances : tx.outputs.map Token.balance = tx'.outputs.map Token.balance
  value : tx.value.isSome = tx'.value.isSome

/-- A call comes to such a transaction, under some seed of the caller. -/
def Producible (tx : Transaction) : Prop :=
  ∃ ctx call tx', ctx.caller = tx.caller ∧ Call.evaluate ctx call = .ok tx' ∧ tx'.Resembles tx

variable {tx tx' : Transaction}

theorem Resembles.sound (h : tx.Resembles tx') (hs : tx.Sound) : tx'.Sound where
  consumes := by rw [← h.consumed, ← h.function, hs.consumes]
  issues := by
    have hlength := congrArg List.length h.balances
    rw [List.length_map, List.length_map] at hlength
    rw [← hlength, ← h.function, hs.issues]
  settles := by rw [← h.settlement, ← h.function, hs.settles]
  value := by rw [← h.value, ← h.function, hs.value]
  owners := by
    rw [← h.consumed, ← h.caller]
    exact hs.owners
  debit := by
    rw [← h.settlement, ← h.caller]
    exact hs.debit
  balance := by
    have hin : tx'.consumedTotal = tx.consumedTotal := by rw [consumedTotal, ← h.consumed]; rfl
    have hout : tx'.produced = tx.produced := by
      rw [produced, produced, outputTotal, outputTotal, Token.total_eq_of_balances h.balances,
        h.settlement]
    rw [← h.function, hin, hout]
    exact hs.balance

end Transaction

/-! ## Evaluated calls pass the check -/

namespace Call

variable {ctx : Context} {call : Call} {tx : Transaction} {issued : List (Address × UInt64)}

theorem length_inputs (call : Call) : call.inputs.length = call.function.consumes := by
  cases call <;> rfl

theorem length_issued (h : call.issued ctx = .ok issued) :
    issued.length = call.function.issues := by
  cases call with
  | transferPrivate receiver amount input =>
    obtain ⟨rest, -, h⟩ := Answers.bind_eq_ok.1 h
    cases h
    rfl
  | transferPrivateToPublic receiver amount input =>
    obtain ⟨rest, -, h⟩ := Answers.bind_eq_ok.1 h
    cases h
    rfl
  | join input input2 =>
    obtain ⟨sum, -, h⟩ := Answers.bind_eq_ok.1 h
    cases h
    rfl
  | _ =>
    cases h
    rfl

theorem settlement_function (ctx : Context) (call : Call) :
    (call.settlement ctx).map Settlement.function =
      if call.function.settles then some call.function else none := by
  cases call <;> rfl

theorem value_isSome {value : Option Scalar} (h : call.value = .ok value) :
    value.isSome = (call.function == .gate) := by
  cases call with
  | gate a b =>
    cases hgate : TokenLedger.gate a b with
    | error e => simp [Call.value, hgate] at h
    | ok x =>
      simp only [Call.value, hgate] at h
      cases h
      rfl
  | _ =>
    cases h
    rfl

theorem debited_settlement (ctx : Context) (call : Call) :
    ∀ account ∈ (call.settlement ctx).bind Settlement.debited, account = ctx.caller := by
  cases call <;> simp [Call.settlement, Settlement.debited]

theorem balance_issued (h : call.issued ctx = .ok issued) :
    call.function.creates = true ∨ (Token.total call.inputs : Int) =
      Balances.total issued + ((call.settlement ctx).map Settlement.supplyDelta).getD 0 := by
  cases call with
  | mint amount => exact .inl rfl
  | mintPublic receiver amount => exact .inl rfl
  | transferPrivate receiver amount input =>
    obtain ⟨rest, hrest, h⟩ := Answers.bind_eq_ok.1 h
    cases h
    obtain ⟨hle, hvalue⟩ := checkedSub_ok_iff.1 hrest
    simp only [inputs, Token.total, Balances.total, Call.settlement, Option.map_none,
      Option.getD_none]
    omega
  | transferPrivateToPublic receiver amount input =>
    obtain ⟨rest, hrest, h⟩ := Answers.bind_eq_ok.1 h
    cases h
    obtain ⟨hle, hvalue⟩ := checkedSub_ok_iff.1 hrest
    simp only [inputs, Token.total, Balances.total, Call.settlement, Option.map_some,
      Option.getD_some, Settlement.supplyDelta]
    omega
  | transferPublicToPrivate receiver amount =>
    cases h
    simp only [inputs, Token.total, Balances.total, Call.settlement, Option.map_some,
      Option.getD_some, Settlement.supplyDelta]
    omega
  | join input input2 =>
    obtain ⟨sum, hsum, h⟩ := Answers.bind_eq_ok.1 h
    cases h
    obtain ⟨-, hvalue⟩ := checkedAdd_ok_iff.1 hsum
    simp only [inputs, Token.total, Balances.total, Call.settlement, Option.map_none,
      Option.getD_none]
    omega
  | transferPublic receiver amount =>
    cases h
    exact .inr rfl
  | gate a b =>
    cases h
    exact .inr rfl

theorem balances_mintSlots (id : TransitionId) (slot : Nat) (issued : List (Address × UInt64)) :
    (mintSlots id slot issued).map Token.balance = issued.map Prod.snd := by
  induction issued generalizing slot with
  | nil => rfl
  | cons p issued ih => exact congrArg (p.2 :: ·) (ih (slot + 1))

theorem total_mintSlots (id : TransitionId) (slot : Nat) (issued : List (Address × UInt64)) :
    Token.total (mintSlots id slot issued) = Balances.total issued := by
  induction issued generalizing slot with
  | nil => rfl
  | cons p issued ih => exact congrArg (p.2.toNat + ·) (ih (slot + 1))

theorem evaluate_sound (h : call.evaluate ctx = .ok tx) : tx.Sound := by
  obtain ⟨howners, issued, value, hissued, hvalue, rfl⟩ := evaluate_eq_ok.1 h
  constructor
  · exact length_inputs call
  · have hlength := congrArg List.length (balances_mintSlots (Transcript.id ctx call) 0 issued)
    rw [List.length_map, List.length_map] at hlength
    exact hlength.trans (length_issued hissued)
  · exact settlement_function ctx call
  · exact value_isSome hvalue
  · exact howners
  · exact debited_settlement ctx call
  · rw [Transaction.produced, Transaction.outputTotal, transaction, total_mintSlots]
    exact balance_issued hissued

end Call

/-! ## What passes the check can be evaluated -/

namespace Transaction

variable {tx : Transaction}

theorem producible_of_call (call : Call) {issued : List (Address × UInt64)}
    {value : Option Scalar} (howners : ∀ t ∈ tx.consumed, t.owner = tx.caller)
    (hfunction : call.function = tx.function) (hinputs : call.inputs = tx.consumed)
    (hsettlement : call.settlement ⟨tx.caller, default⟩ = tx.settlement)
    (hissued : call.issued ⟨tx.caller, default⟩ = .ok issued)
    (hbalances : issued.map Prod.snd = tx.outputs.map Token.balance)
    (hvalue : call.value = .ok value) (hsome : value.isSome = tx.value.isSome) :
    tx.Producible := by
  refine ⟨⟨tx.caller, default⟩, call, _, rfl,
    Call.evaluate_eq_ok.2 ⟨hinputs ▸ howners, issued, value, hissued, hvalue, rfl⟩, ?_⟩
  exact ⟨hfunction, rfl, hinputs, hsettlement, (Call.balances_mintSlots _ _ _).trans hbalances,
    hsome⟩

theorem Sound.shape (hs : tx.Sound) {f : Function} (hf : tx.function = f) :
    tx.consumed.length = f.consumes ∧ tx.outputs.length = f.issues ∧
      tx.value.isSome = (f == .gate) := by
  rw [← hf]
  exact ⟨hs.consumes, hs.issues, hs.value⟩

theorem Sound.balanced (hs : tx.Sound) {f : Function} (hf : tx.function = f)
    (hcreates : f.creates = false) : (tx.consumedTotal : Int) = tx.produced := by
  apply hs.balance.resolve_left
  rw [hf, hcreates]
  exact Bool.false_ne_true

theorem Sound.producible_mint (hs : tx.Sound) (hf : tx.function = .mint) : tx.Producible := by
  obtain ⟨hin, hout, hvalue⟩ := hs.shape hf
  have hnone := hs.settlement_eq_none (by rw [hf]; rfl)
  have hi := List.eq_nil_of_length_eq_zero hin
  obtain ⟨o, ho⟩ := List.length_eq_one_iff.1 hout
  exact producible_of_call (.mint o.balance) hs.owners hf.symm hi.symm hnone.symm rfl
    (by rw [ho]; rfl) rfl hvalue.symm

theorem Sound.producible_transferPrivate (hs : tx.Sound) (hf : tx.function = .transferPrivate) :
    tx.Producible := by
  obtain ⟨hin, hout, hvalue⟩ := hs.shape hf
  have hsum := hs.balanced hf rfl
  have hnone := hs.settlement_eq_none (by rw [hf]; rfl)
  obtain ⟨i, hi⟩ := List.length_eq_one_iff.1 hin
  obtain ⟨o, o', ho⟩ := List.length_eq_two.1 hout
  -- the second output is what was sent, so the first is what remained
  simp only [consumedTotal, produced, outputTotal, hi, ho, hnone, Token.total, Option.map_none,
    Option.getD_none] at hsum
  have hrest : checkedSub i.balance o'.balance = .ok o.balance :=
    checkedSub_ok_iff.2 ⟨by omega, by omega⟩
  have hissued : Call.issued ⟨tx.caller, default⟩ (.transferPrivate o'.owner o'.balance i) =
      .ok [(tx.caller, o.balance), (o'.owner, o'.balance)] := by
    rw [Call.issued, hrest]
    rfl
  exact producible_of_call (.transferPrivate o'.owner o'.balance i) hs.owners hf.symm hi.symm
    hnone.symm hissued (by rw [ho]; rfl) rfl hvalue.symm

theorem Sound.producible_transferPrivateToPublic (hs : tx.Sound)
    (hf : tx.function = .transferPrivateToPublic) : tx.Producible := by
  obtain ⟨hin, hout, hvalue⟩ := hs.shape hf
  have hsum := hs.balanced hf rfl
  obtain ⟨s, hsome⟩ := hs.settlement_eq_some (by rw [hf]; rfl)
  have hfun := (hs.function_eq hsome).trans hf
  obtain ⟨i, hi⟩ := List.length_eq_one_iff.1 hin
  obtain ⟨o, ho⟩ := List.length_eq_one_iff.1 hout
  cases s with
  | transferPrivateToPublic receiver amount =>
    simp only [consumedTotal, produced, outputTotal, hi, ho, hsome, Token.total, Option.map_some,
      Option.getD_some, Settlement.supplyDelta] at hsum
    have hrest : checkedSub i.balance amount = .ok o.balance :=
      checkedSub_ok_iff.2 ⟨by omega, by omega⟩
    have hissued : Call.issued ⟨tx.caller, default⟩ (.transferPrivateToPublic receiver amount i) =
        .ok [(tx.caller, o.balance)] := by
      rw [Call.issued, hrest]
      rfl
    exact producible_of_call (.transferPrivateToPublic receiver amount i) hs.owners hf.symm
      hi.symm hsome.symm hissued (by rw [ho]; rfl) rfl hvalue.symm
  | transferPublicToPrivate => cases hfun
  | mintPublic => cases hfun
  | transferPublic => cases hfun

theorem Sound.producible_transferPublicToPrivate (hs : tx.Sound)
    (hf : tx.function = .transferPublicToPrivate) : tx.Producible := by
  obtain ⟨hin, hout, hvalue⟩ := hs.shape hf
  have hsum := hs.balanced hf rfl
  obtain ⟨s, hsome⟩ := hs.settlement_eq_some (by rw [hf]; rfl)
  have hfun := (hs.function_eq hsome).trans hf
  have hi := List.eq_nil_of_length_eq_zero hin
  obtain ⟨o, ho⟩ := List.length_eq_one_iff.1 hout
  cases s with
  | transferPublicToPrivate account amount =>
    have haccount : account = tx.caller := hs.debit account (by rw [hsome]; rfl)
    simp only [consumedTotal, produced, outputTotal, hi, ho, hsome, Token.total, Option.map_some,
      Option.getD_some, Settlement.supplyDelta] at hsum
    have hamount : o.balance = amount := UInt64.toNat_inj.1 (by omega)
    exact producible_of_call (.transferPublicToPrivate o.owner amount) hs.owners hf.symm hi.symm
      (by rw [hsome, haccount]; rfl) rfl (by rw [ho, ← hamount]; rfl) rfl hvalue.symm
  | transferPrivateToPublic => cases hfun
  | mintPublic => cases hfun
  | transferPublic => cases hfun

theorem Sound.producible_join (hs : tx.Sound) (hf : tx.function = .join) : tx.Producible := by
  obtain ⟨hin, hout, hvalue⟩ := hs.shape hf
  have hsum := hs.balanced hf rfl
  have hnone := hs.settlement_eq_none (by rw [hf]; rfl)
  obtain ⟨i, i', hi⟩ := List.length_eq_two.1 hin
  obtain ⟨o, ho⟩ := List.length_eq_one_iff.1 hout
  simp only [consumedTotal, produced, outputTotal, hi, ho, hnone, Token.total, Option.map_none,
    Option.getD_none] at hsum
  -- the output is a word, so the sum of the inputs fits one
  have hadd : checkedAdd i.balance i'.balance = .ok o.balance :=
    checkedAdd_ok_iff.2 ⟨by have := o.balance.toNat_lt_size; omega, by omega⟩
  have hissued : Call.issued ⟨tx.caller, default⟩ (.join i i') =
      .ok [(tx.caller, o.balance)] := by
    rw [Call.issued, hadd]
    rfl
  exact producible_of_call (.join i i') hs.owners hf.symm hi.symm hnone.symm hissued
    (by rw [ho]; rfl) rfl hvalue.symm

theorem Sound.producible_mintPublic (hs : tx.Sound) (hf : tx.function = .mintPublic) :
    tx.Producible := by
  obtain ⟨hin, hout, hvalue⟩ := hs.shape hf
  obtain ⟨s, hsome⟩ := hs.settlement_eq_some (by rw [hf]; rfl)
  have hfun := (hs.function_eq hsome).trans hf
  have hi := List.eq_nil_of_length_eq_zero hin
  have ho := List.eq_nil_of_length_eq_zero hout
  cases s with
  | mintPublic receiver amount =>
    exact producible_of_call (.mintPublic receiver amount) hs.owners hf.symm hi.symm hsome.symm rfl
      (by rw [ho]; rfl) rfl hvalue.symm
  | transferPrivateToPublic => cases hfun
  | transferPublicToPrivate => cases hfun
  | transferPublic => cases hfun

theorem Sound.producible_transferPublic (hs : tx.Sound) (hf : tx.function = .transferPublic) :
    tx.Producible := by
  obtain ⟨hin, hout, hvalue⟩ := hs.shape hf
  obtain ⟨s, hsome⟩ := hs.settlement_eq_some (by rw [hf]; rfl)
  have hfun := (hs.function_eq hsome).trans hf
  have hi := List.eq_nil_of_length_eq_zero hin
  have ho := List.eq_nil_of_length_eq_zero hout
  cases s with
  | transferPublic account receiver amount =>
    have haccount : account = tx.caller := hs.debit account (by rw [hsome]; rfl)
    exact producible_of_call (.transferPublic receiver amount) hs.owners hf.symm hi.symm
      (by rw [hsome, haccount]; rfl) rfl (by rw [ho]; rfl) rfl hvalue.symm
  | transferPrivateToPublic => cases hfun
  | transferPublicToPrivate => cases hfun
  | mintPublic => cases hfun

theorem Sound.producible_gate (hs : tx.Sound) (hf : tx.function = .gate) : tx.Producible := by
  obtain ⟨hin, hout, hvalue⟩ := hs.shape hf
  have hnone := hs.settlement_eq_none (by rw [hf]; rfl)
  have hi := List.eq_nil_of_length_eq_zero hin
  have ho := List.eq_nil_of_length_eq_zero hout
  -- which value the gate returned is not checked, so any pair that passes it will do
  have hreturned : Call.value (.gate (.ofUInt64 10) .zero) =
      .ok (some (Scalar.ofUInt64 10 + .zero)) := by
    rw [Call.value, gate_ten]
    rfl
  exact producible_of_call (.gate (.ofUInt64 10) .zero) hs.owners hf.symm hi.symm hnone.symm rfl
    (by rw [ho]; rfl) hreturned hvalue.symm

theorem Sound.producible (hs : tx.Sound) : tx.Producible := by
  cases hf : tx.function with
  | mint => exact hs.producible_mint hf
  | transferPrivate => exact hs.producible_transferPrivate hf
  | transferPrivateToPublic => exact hs.producible_transferPrivateToPublic hf
  | transferPublicToPrivate => exact hs.producible_transferPublicToPrivate hf
  | join => exact hs.producible_join hf
  | mintPublic => exact hs.producible_mintPublic hf
  | transferPublic => exact hs.producible_transferPublic hf
  | gate => exact hs.producible_gate hf

/-- A transaction passes the check exactly when some call of its caller comes to one like it;
so every transaction that an evaluation gives passes. -/
theorem check_iff_producible (tx : Transaction) :
    (tx.check = .ok () ↔ tx.Producible) ∧
      ((∃ ctx call, Call.evaluate ctx call = .ok tx) → tx.check = .ok ()) := by
  rw [check_ok]
  constructor
  · constructor
    · exact Sound.producible
    · rintro ⟨ctx, call, tx', -, heval, hlike⟩
      exact hlike.sound (Call.evaluate_sound heval)
  · rintro ⟨ctx, call, heval⟩
    exact Call.evaluate_sound heval

end Transaction

end TokenLedger
