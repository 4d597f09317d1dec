import TokenLedger.Evaluation
import TokenLedger.Proofs.Conservation

/-!
# What evaluated transactions do

A call that can be evaluated comes to a transaction that moves exactly the
value that the call names: from the caller to the receiver, or out of
nothing for the two mints. Its outputs have distinct nonces, one for each
slot, so no record is issued twice.
-/

set_option autoImplicit false

namespace TokenLedger

namespace Call

/-- What a call brings to the wealth of an account. -/
def gain (caller a : Address) : Call → Int
  | mint amount => if a = caller then amount.toNat else 0
  | mintPublic receiver amount => if a = receiver then amount.toNat else 0
  | transferPrivate receiver amount _ | transferPrivateToPublic receiver amount _
  | transferPublicToPrivate receiver amount | transferPublic receiver amount =>
    (if a = receiver then (amount.toNat : Int) else 0) - if a = caller then amount.toNat else 0
  | join _ _ | gate _ _ => 0

def minted : Call → Nat
  | mint amount | mintPublic _ amount => amount.toNat
  | transferPrivate _ _ _ | transferPrivateToPublic _ _ _ | transferPublicToPrivate _ _
  | join _ _ | transferPublic _ _ | gate _ _ => 0

structure Evaluates (ctx : Context) (call : Call) (tx : Transaction) : Prop where
  function : tx.function = call.function
  consumed : tx.consumed = call.inputs
  settlement : tx.settlement = call.settlement ctx
  owners : ∀ t ∈ call.inputs, t.owner = ctx.caller
  outputs : ∃ issued, call.issued ctx = .ok issued ∧ tx.outputs = mintSlots tx.id 0 issued

variable {ctx : Context} {call : Call} {tx : Transaction}

theorem checkOwned_ok {inputs : List Token} :
    checkOwned ctx inputs = .ok () ↔ ∀ t ∈ inputs, t.owner = ctx.caller := by
  rw [← Token.find?_foreign_eq_none, checkOwned]
  cases inputs.find? fun t => t.owner ≠ ctx.caller with
  | none => simp
  | some t => simp

def transaction (ctx : Context) (call : Call) (issued : List (Address × UInt64))
    (value : Option Scalar) : Transaction where
  id := Transcript.id ctx call
  function := call.function
  caller := ctx.caller
  consumed := call.inputs
  outputs := mintSlots (Transcript.id ctx call) 0 issued
  settlement := call.settlement ctx
  value := value

theorem evaluate_eq_ok : call.evaluate ctx = .ok tx ↔
    (∀ t ∈ call.inputs, t.owner = ctx.caller) ∧ ∃ issued value,
      call.issued ctx = .ok issued ∧ call.value = .ok value ∧
        tx = call.transaction ctx issued value := by
  constructor
  · intro h
    obtain ⟨⟨⟩, howned, h⟩ := Answers.bind_eq_ok.1 h
    obtain ⟨issued, hissued, h⟩ := Answers.bind_eq_ok.1 h
    obtain ⟨value, hvalue, h⟩ := Answers.bind_eq_ok.1 h
    exact ⟨checkOwned_ok.1 howned, issued, value, hissued, hvalue, (Except.ok.inj h).symm⟩
  · rintro ⟨howners, issued, value, hissued, hvalue, rfl⟩
    rw [evaluate, checkOwned_ok.2 howners, hissued, hvalue]
    rfl

theorem evaluate_ok (h : call.evaluate ctx = .ok tx) : call.Evaluates ctx tx := by
  obtain ⟨howners, issued, value, hissued, -, rfl⟩ := evaluate_eq_ok.1 h
  exact ⟨rfl, rfl, rfl, howners, issued, hissued, rfl⟩

end Call

namespace Token

def owned (a : Address) (ts : List Token) : Nat := total (ts.filter fun t => t.owner = a)

@[simp] theorem owned_nil (a : Address) : owned a [] = 0 := rfl

@[simp] theorem owned_cons (a : Address) (t : Token) (ts : List Token) :
    owned a (t :: ts) = (if a = t.owner then t.balance.toNat else 0) + owned a ts := by
  unfold owned
  by_cases h : t.owner = a
  · simp [h, total]
  · simp [h, Ne.symm h]

theorem owned_append (a : Address) (ts us : List Token) :
    owned a (ts ++ us) = owned a ts + owned a us := by
  rw [owned, List.filter_append, total_append, owned, owned]

end Token

namespace Transaction

/-- What a transaction brings to an account, in records and in public balance. -/
def gain (tx : Transaction) (a : Address) : Int :=
  Move.gains a tx.moves + Token.owned a tx.outputs - Token.owned a tx.consumed

def nonceStrings (tx : Transaction) : List Bytes :=
  (List.range tx.outputs.length).map tx.id.noncePreimage

end Transaction

namespace Call

variable {ctx : Context} {call : Call} {tx : Transaction}

theorem Evaluates.gain_eq (h : call.Evaluates ctx tx) (a : Address) :
    tx.gain a = call.gain ctx.caller a := by
  obtain ⟨-, hconsumed, hsettlement, howners, issued, hissued, houtputs⟩ := h
  rw [Transaction.gain, Transaction.moves, hconsumed, hsettlement, houtputs]
  -- the account may be the caller, the receiver, both or neither, which the splits decide
  cases call with
  | mint amount =>
    cases hissued
    simp only [Call.settlement, inputs, mintSlots, Move.gains, gain, Token.owned_cons,
      Token.owned_nil]
    split <;> omega
  | transferPrivate receiver amount input =>
    have howner := howners input (by simp [inputs])
    obtain ⟨rest, hrest, hissued⟩ := Answers.bind_eq_ok.1 hissued
    cases hissued
    obtain ⟨hle, hvalue⟩ := checkedSub_ok_iff.1 hrest
    simp only [Call.settlement, inputs, mintSlots, Move.gains, gain, Token.owned_cons,
      Token.owned_nil, howner]
    split <;> split <;> omega
  | transferPrivateToPublic receiver amount input =>
    have howner := howners input (by simp [inputs])
    obtain ⟨rest, hrest, hissued⟩ := Answers.bind_eq_ok.1 hissued
    cases hissued
    obtain ⟨hle, hvalue⟩ := checkedSub_ok_iff.1 hrest
    simp only [Call.settlement, Settlement.moves, inputs, mintSlots, Move.gains, Move.gain, gain,
      Token.owned_cons, Token.owned_nil, howner]
    split <;> split <;> omega
  | transferPublicToPrivate receiver amount =>
    cases hissued
    simp only [Call.settlement, Settlement.moves, inputs, mintSlots, Move.gains, Move.gain, gain,
      Token.owned_cons, Token.owned_nil]
    split <;> split <;> omega
  | join input input2 =>
    have howner := howners input (by simp [inputs])
    have howner2 := howners input2 (by simp [inputs])
    obtain ⟨sum, hsum, hissued⟩ := Answers.bind_eq_ok.1 hissued
    cases hissued
    obtain ⟨-, hvalue⟩ := checkedAdd_ok_iff.1 hsum
    simp only [Call.settlement, inputs, mintSlots, Move.gains, gain, Token.owned_cons,
      Token.owned_nil, howner, howner2]
    split <;> omega
  | mintPublic receiver amount =>
    cases hissued
    simp [Call.settlement, Settlement.moves, inputs, mintSlots, Move.gains, Move.gain, gain]
  | transferPublic receiver amount =>
    cases hissued
    simp only [Call.settlement, Settlement.moves, inputs, mintSlots, Move.gains, Move.gain, gain,
      Token.owned_nil]
    split <;> split <;> omega
  | gate x y =>
    cases hissued
    simp [Call.settlement, inputs, mintSlots, Move.gains, gain]

theorem Evaluates.minted_eq (h : call.Evaluates ctx tx) : tx.minted = call.minted := by
  obtain ⟨hfunction, -, hsettlement, -, issued, hissued, houtputs⟩ := h
  rw [Transaction.minted, Transaction.outputTotal, hfunction, hsettlement, houtputs]
  cases call with
  | mint amount =>
    cases hissued
    simp [Call.function, Call.settlement, mintSlots, Token.total, minted]
  | mintPublic receiver amount => simp [Call.function, Call.settlement, minted]
  | _ => simp [Call.function, Call.settlement, minted]

theorem noncePreimage_mem {slot : Nat} (h : slot < tx.outputs.length) :
    tx.id.noncePreimage slot ∈ tx.nonceStrings :=
  List.mem_map_of_mem (List.mem_range.2 h)

theorem nonce_mintSlots {id : TransitionId} {slot i : Nat} {issued : List (Address × UInt64)}
    {t : Token} (h : (mintSlots id slot issued)[i]? = some t) : t.nonce = id.nonce (slot + i) := by
  induction issued generalizing slot i with
  | nil => simp [mintSlots] at h
  | cons p issued ih =>
    cases i with
    | zero =>
      cases h
      rfl
    | succ i =>
      rw [ih h, Nat.add_right_comm]
      rfl

theorem Evaluates.nonce_output (h : call.Evaluates ctx tx) {i : Nat} {t : Token}
    (ht : tx.outputs[i]? = some t) : t.nonce = tx.id.nonce i := by
  obtain ⟨-, -, -, -, issued, -, houtputs⟩ := h
  rw [houtputs] at ht
  rw [nonce_mintSlots ht, Nat.zero_add]

theorem Evaluates.twins_eq_nil (h : call.Evaluates ctx tx)
    (hf : CollisionFree tx.nonceStrings) : tx.twins = [] := by
  unfold Transaction.twins
  split
  · next t u hout =>
    have hne : t ≠ u := by
      rintro rfl
      have hlength : tx.outputs.length = 2 := by rw [hout]; rfl
      have hnonce : tx.id.nonce 0 = tx.id.nonce 1 :=
        (h.nonce_output (by rw [hout]; rfl)).symm.trans (h.nonce_output (by rw [hout]; rfl))
      have hslot := (hf.nonce_eq (by decide) (by decide) (noncePreimage_mem (by omega))
        (noncePreimage_mem (by omega)) hnonce).2
      cases hslot
    exact if_neg hne
  · rfl

end Call

end TokenLedger
