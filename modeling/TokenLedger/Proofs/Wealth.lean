import TokenLedger.Proofs.Evaluating
import TokenLedger.Proofs.Operations

/-!
# Wealth under honest operations

The wealth of an account is its public balance and its unspent records. When
all transactions come from evaluated calls, every accepted call moves wealth
exactly as the call says and a rejected one moves none, so the supply is the
sum of what the accepted mints created.
-/

set_option autoImplicit false

namespace TokenLedger

namespace History

def hashed (h : History) : List Bytes := h.strings ++ h.flatMap Transaction.nonceStrings

def gain (h : History) (a : Address) : Int :=
  Move.gains a h.moves + Token.owned a h.issued - Token.owned a h.consumed

def Evaluated (h : History) : Prop := ∀ tx ∈ h, ∃ ctx call, Call.evaluate ctx call = .ok tx

variable {h : History}

theorem gain_append (h : History) (tx : Transaction) (a : Address) :
    gain (h ++ [tx]) a = h.gain a + tx.gain a := by
  rw [gain, moves_append, issued_append, consumed_append, Move.gains_append, Token.owned_append,
    Token.owned_append, gain, Transaction.gain]
  omega

theorem collisionFree_hashed (ts : List Token) (hsub : h.issued ++ h.consumed ⊆ ts)
    (hnodup : ((ts.flatMap Token.strings ++
      h.flatMap Transaction.nonceStrings).map Blake2b.hash).Nodup) : CollisionFree h.hashed := by
  refine collisionFree_of_nodup (fun x hx => ?_) hnodup
  rcases List.mem_append.1 hx with hx | hx
  · obtain ⟨t, ht, hxt⟩ := List.mem_flatMap.1 hx
    exact List.mem_append_left _ (List.mem_flatMap.2 ⟨t, hsub ht, hxt⟩)
  · exact List.mem_append_right _ hx

theorem strings_of_hashed (hf : CollisionFree h.hashed) : CollisionFree h.strings :=
  hf.mono (List.subset_append_left _ _)

theorem hashed_subset_append (h rest : History) : h.hashed ⊆ hashed (h ++ rest) := by
  rw [hashed, hashed, List.flatMap_append]
  exact List.append_subset.2
    ⟨List.subset_append_of_subset_left _ (strings_subset_append h rest),
      List.subset_append_of_subset_right _ (List.subset_append_left _ _)⟩

theorem Evaluated.append {rest : History} (hh : h.Evaluated) (hrest : Evaluated rest) :
    Evaluated (h ++ rest) := by
  intro tx htx
  rcases List.mem_append.1 htx with htx | htx
  · exact hh tx htx
  · exact hrest tx htx

theorem Evaluated.twins_eq_nil (hh : h.Evaluated) (hf : CollisionFree h.hashed) :
    h.twins = [] := by
  rw [twins, List.flatMap_eq_nil_iff]
  intro tx htx
  obtain ⟨ctx, call, heval⟩ := hh tx htx
  apply (Call.evaluate_ok heval).twins_eq_nil
  apply hf.mono
  intro x hx
  exact List.mem_append_right _ (List.mem_flatMap.2 ⟨tx, htx, hx⟩)

end History

namespace Ledger

/-- The public balance of an account and the balances of its unspent records together. -/
def wealth (l : Ledger) (a : Address) : Except LedgerError Nat := do
  let balance ← l.publicBalance a
  let records ← l.recordsOf a
  return balance.toNat + Token.total records

variable {v : Vault} {h : History}

theorem wealth_history (hk : v.Keeps h) (hh : h.Evaluated) (hf : CollisionFree h.hashed)
    (seeds : SeedSource) (a : Address) :
    ∃ w, (ofVault v seeds).wealth a = .ok w ∧ (w : Int) = h.gain a := by
  have hstrings := History.strings_of_hashed hf
  refine ⟨((v.balances.find? a).getD 0).toNat + Token.owned a h.live, ?_, ?_⟩
  · rw [wealth, publicBalance_ofVault, Answers.ok_bind, recordsOf_keeps hk hstrings,
      Answers.ok_bind]
    rfl
  · have hamount := hk.amounts a
    have hlive := hk.total_live hstrings fun t => t.owner = a
    rw [hh.twins_eq_nil hf, List.filter_nil, Token.total] at hlive
    rw [Balances.amount] at hamount
    rw [History.gain, Token.owned, Token.owned, Token.owned]
    omega

def answerGain (request : Address × Call) (a : Address) : Except LedgerError Receipt → Int
  | .ok _ => request.2.gain request.1 a
  | .error _ => 0

theorem attempt_keeps (hk : v.Keeps h) (seeds : SeedSource) {request : Address × Call}
    {x : Except LedgerError Transaction} (hx : Prepared request x) :
    (∃ e, (ofVault v seeds).attempt x = (.error e, ofVault v seeds) ∧
      (ofVault v seeds).accepted (submitted [x]) = []) ∨
    ∃ tx v' ctx r, v'.Keeps (h ++ [tx]) ∧ ctx.caller = request.1 ∧
      request.2.evaluate ctx = .ok tx ∧ (ofVault v seeds).attempt x = (.ok r, ofVault v' seeds) ∧
      (ofVault v seeds).accepted (submitted [x]) = [tx] := by
  cases x with
  | error e => exact .inl ⟨e, rfl, rfl⟩
  | ok tx =>
    rcases apply_keeps hk seeds tx with ⟨e, happly⟩ | ⟨v', -, hk', happly⟩
    · refine .inl ⟨e, happly, ?_⟩
      simp only [submitted_ok, accepted, happly]
      rfl
    · obtain ⟨ctx, hcaller, heval⟩ := prepared_ok hx
      refine .inr ⟨tx, v', ctx, _, hk', hcaller, heval, happly, ?_⟩
      simp only [submitted_ok, accepted, happly]
      rfl

theorem accepted_submitted_cons (l : Ledger) (x : Except LedgerError Transaction)
    (xs : List (Except LedgerError Transaction)) :
    l.accepted (submitted (x :: xs)) =
      l.accepted (submitted [x]) ++ (l.attempt x).2.accepted (submitted xs) := by
  cases x with
  | error e => rfl
  | ok tx => exact accepted_append l [tx] (submitted xs)

theorem wealth_attempt (hk : v.Keeps h) (hh : h.Evaluated) (seeds : SeedSource)
    {request : Address × Call} {x : Except LedgerError Transaction} (hx : Prepared request x)
    (hf : CollisionFree (History.hashed (h ++ (ofVault v seeds).accepted (submitted [x]))))
    (a : Address) :
    ∃ w w', (ofVault v seeds).wealth a = .ok w ∧ ((ofVault v seeds).attempt x).2.wealth a = .ok w' ∧
      (w' : Int) = w + answerGain request a ((ofVault v seeds).attempt x).1 := by
  rcases attempt_keeps hk seeds hx with ⟨e, hattempt, haccepted⟩ |
    ⟨tx, v', ctx, r, hk', hcaller, heval, hattempt, haccepted⟩
  · rw [haccepted, List.append_nil] at hf
    obtain ⟨w, hw, -⟩ := wealth_history hk hh hf seeds a
    exact ⟨w, w, hw, by rw [hattempt, hw], by rw [hattempt, answerGain, Int.add_zero]⟩
  · rw [haccepted] at hf
    have hh' : History.Evaluated (h ++ [tx]) :=
      hh.append fun t ht => List.mem_singleton.1 ht ▸ ⟨ctx, request.2, heval⟩
    obtain ⟨w, hw, hgain⟩ := wealth_history hk hh
      (hf.mono (History.hashed_subset_append h [tx])) seeds a
    obtain ⟨w', hw', hgain'⟩ := wealth_history hk' hh' hf seeds a
    refine ⟨w, w', hw, by rw [hattempt, hw'], ?_⟩
    rw [hgain', History.gain_append, hattempt, answerGain, hgain,
      (Call.evaluate_ok heval).gain_eq, hcaller]

theorem wealth_applyEach (hk : v.Keeps h) (hh : h.Evaluated) (seeds : SeedSource)
    {requests : List (Address × Call)} {xs : List (Except LedgerError Transaction)}
    (hxs : List.Forall₂ Prepared requests xs)
    (hf : CollisionFree (History.hashed (h ++ (ofVault v seeds).accepted (submitted xs))))
    (a : Address) {k : Nat} {request : Address × Call} {result : Except LedgerError Receipt}
    (hrequest : requests[k]? = some request)
    (hresult : ((ofVault v seeds).applyEach xs).1[k]? = some result) :
    ∃ w w', ((ofVault v seeds).applyEach (xs.take k)).2.wealth a = .ok w ∧
      ((ofVault v seeds).applyEach (xs.take (k + 1))).2.wealth a = .ok w' ∧
      (w' : Int) = w + answerGain request a result := by
  induction hxs generalizing v h k with
  | nil => cases hrequest
  | @cons first x requests xs hx _ ih =>
    -- the call asked about is the first one, or a call of the ledger that the first one leaves
    rw [accepted_submitted_cons, ← List.append_assoc] at hf
    rw [applyEach_cons] at hresult
    cases k with
    | zero =>
      cases hrequest
      cases hresult
      rw [List.take_zero, List.take_succ_cons, List.take_zero, applyEach_singleton]
      exact wealth_attempt hk hh seeds hx (hf.mono (History.hashed_subset_append _ _)) a
    | succ k =>
      rw [List.getElem?_cons_succ] at hrequest hresult
      rw [List.take_succ_cons, List.take_succ_cons, applyEach_cons, applyEach_cons]
      rcases attempt_keeps hk seeds hx with ⟨e, hattempt, haccepted⟩ |
        ⟨tx, v', ctx, r, hk', -, heval, hattempt, haccepted⟩
      · rw [haccepted, List.append_nil, hattempt] at hf
        rw [hattempt] at hresult ⊢
        exact ih hk hh hf hrequest hresult
      · rw [haccepted, hattempt] at hf
        rw [hattempt] at hresult ⊢
        have hh' : History.Evaluated (h ++ [tx]) :=
          hh.append fun t ht => List.mem_singleton.1 ht ▸ ⟨ctx, first.2, heval⟩
        exact ih hk' hh' hf hrequest hresult

/-! ## What was minted -/

def mintedIn : List (Address × Call) → List (Except LedgerError Receipt) → Nat
  | request :: requests, .ok _ :: results => request.2.minted + mintedIn requests results
  | _ :: requests, .error _ :: results => mintedIn requests results
  | _, _ => 0

def mintedAll (l : Ledger) : List Operation → Nat
  | [] => 0
  | op :: ops => mintedIn op.requests (l.perform op).1 + (l.perform op).2.mintedAll ops

theorem minted_applyEach (l : Ledger) {requests : List (Address × Call)}
    {xs : List (Except LedgerError Transaction)} (hxs : List.Forall₂ Prepared requests xs) :
    mintedIn requests (l.applyEach xs).1 = (l.accepted (submitted xs)).minted := by
  induction hxs generalizing l with
  | nil => rfl
  | @cons request x requests xs hx _ ih =>
    rw [accepted_submitted_cons, History.minted_append, applyEach_cons, ← ih]
    cases x with
    | error e =>
      show mintedIn requests _ = 0 + mintedIn requests _
      rw [Nat.zero_add]
    | ok tx =>
      obtain ⟨ctx, -, heval⟩ := prepared_ok hx
      have hminted := (Call.evaluate_ok heval).minted_eq
      rw [attempt]
      cases happly : l.apply tx with
      | mk result l' =>
        cases result with
        | error e => simp [mintedIn, submitted, accepted, happly, History.minted, Except.toOption]
        | ok r =>
          simp [mintedIn, submitted, accepted, happly, History.minted, Except.toOption, hminted]

theorem minted_acceptedAll (l : Ledger) (ops : List Operation) :
    l.mintedAll ops = (l.acceptedAll ops).minted := by
  induction ops generalizing l with
  | nil => rfl
  | cons op ops ih =>
    rw [mintedAll, acceptedAll, History.minted_append, ih, perform_eq,
      minted_applyEach _ (prepared_attempts l op)]

/-! ## Runs of operations -/

/-- What an operation does to the wealth of all accounts, call by call. -/
structure MovesWealth (l : Ledger) (op : Operation) : Prop where
  start : ∀ a, (l.partway op 0).wealth a = l.wealth a
  finish : l.partway op op.requests.length = (l.perform op).2
  answers : (l.perform op).1.length = op.requests.length
  call : ∀ (k : Nat) request result, op.requests[k]? = some request →
    (l.perform op).1[k]? = some result → ∀ a, ∃ w w', (l.partway op k).wealth a = .ok w ∧
      (l.partway op (k + 1)).wealth a = .ok w' ∧ (w' : Int) = w + answerGain request a result

theorem movesWealth_keeps (hk : v.Keeps h) (hh : h.Evaluated) (seeds : SeedSource)
    (op : Operation)
    (hf : CollisionFree (History.hashed (h ++ (ofVault v seeds).acceptedAll [op]))) :
    (ofVault v seeds).MovesWealth op := by
  have hprepared := prepared_attempts (ofVault v seeds) op
  have hlength := hprepared.length_eq
  constructor
  · intro a
    have hf₀ := hf.mono (History.hashed_subset_append _ _)
    obtain ⟨w, hw, hgain⟩ := wealth_history hk hh hf₀ seeds a
    obtain ⟨w', hw', hgain'⟩ := wealth_history hk hh hf₀ ((ofVault v seeds).attempts op).2 a
    have heq : w' = w := Int.ofNat_inj.1 (hgain'.trans hgain.symm)
    rw [hw, ← heq]
    exact hw'
  · rw [partway, hlength, List.take_length, perform_eq]
  · rw [perform_eq, length_applyEach, hlength]
  · intro k request result hrequest hresult a
    rw [acceptedAll, acceptedAll, List.append_nil] at hf
    rw [perform_eq] at hresult
    exact wealth_applyEach hk hh _ hprepared hf a hrequest hresult

/-- In every run of operations from an empty vault accepted calls move wealth
as they say, rejected ones none, and the supply is what was minted. -/
theorem wealth_run (seeds : SeedSource) (ops : List Operation) (op : Operation)
    (hf : CollisionFree ((ofVault Vault.empty seeds).acceptedAll (ops ++ [op])).hashed) :
    ((ofVault Vault.empty seeds).performAll ops).MovesWealth op ∧
      ((ofVault Vault.empty seeds).performAll ops).totalSupply =
        .ok ((ofVault Vault.empty seeds).mintedAll ops) := by
  obtain ⟨v, seeds', hrun, hk⟩ := performAll_keeps Vault.keeps_empty seeds ops
  have hh : ((ofVault Vault.empty seeds).acceptedAll ops).Evaluated := fun _ => evaluated_of_mem
  rw [acceptedAll_append, hrun] at hf
  rw [List.nil_append] at hk
  have hf₀ := hf.mono (History.hashed_subset_append _ _)
  rw [hrun]
  refine ⟨movesWealth_keeps hk hh seeds' op hf, ?_⟩
  obtain ⟨n, hn, hsum⟩ := totalSupply_history hk (History.strings_of_hashed hf₀) seeds'
  have hvanished : ((ofVault Vault.empty seeds).acceptedAll ops).vanished = 0 := by
    rw [History.vanished, hh.twins_eq_nil hf₀]
    rfl
  rw [hn, minted_acceptedAll, ← hsum, hvanished, Nat.add_zero]

end Ledger

namespace Sample

def receiver : Address := ⟨Bytes32.replicate 2⟩

def minting : Context := ⟨owner, Bytes32.replicate 7⟩

def minted : Token := ⟨owner, 100, (Transcript.id minting (.mint 100)).nonce 0⟩

def payment : Call := .transferPrivate receiver 60 minted

def paymentId : TransitionId := Transcript.id ⟨owner, default⟩ payment

def payments : History :=
  [{ transaction .mint [] [minted] with id := Transcript.id minting (.mint 100) },
   { transaction .transferPrivate [minted]
      [⟨owner, 40, paymentId.nonce 0⟩, ⟨receiver, 60, paymentId.nonce 1⟩] with id := paymentId }]

end Sample

namespace Ledger

theorem wealth_payment :
    (ofVault Vault.empty Sample.seeds).acceptedAll
        ([.executeWith Sample.minting (.mint 100)] ++ [.execute Sample.owner Sample.payment]) =
      Sample.payments ∧
    CollisionFree ((ofVault Vault.empty Sample.seeds).acceptedAll
      ([.executeWith Sample.minting (.mint 100)] ++
        [.execute Sample.owner Sample.payment])).hashed ∧
      ((ofVault Vault.empty Sample.seeds).performAll
        [.executeWith Sample.minting (.mint 100)]).MovesWealth
          (.execute Sample.owner Sample.payment) ∧
      ((ofVault Vault.empty Sample.seeds).performAll
        [.executeWith Sample.minting (.mint 100)]).totalSupply =
          .ok ((ofVault Vault.empty Sample.seeds).mintedAll
            [.executeWith Sample.minting (.mint 100)]) := by
  have haccepted : (ofVault Vault.empty Sample.seeds).acceptedAll
      ([.executeWith Sample.minting (.mint 100)] ++ [.execute Sample.owner Sample.payment]) =
        Sample.payments := by decide +kernel
  have hf : CollisionFree Sample.payments.hashed := by
    apply History.collisionFree_hashed Sample.payments.issued
    · decide +kernel
    · decide +kernel
  rw [← haccepted] at hf
  exact ⟨haccepted, hf, wealth_run Sample.seeds _ _ hf⟩

end Ledger

end TokenLedger
