import Mathlib.Data.List.Induction
import TokenLedger.Proofs.Accounts
import TokenLedger.Proofs.Applying
import TokenLedger.Proofs.Ordering

/-!
# When a transaction is accepted, and what it does

For a vault and a transaction there are two cases. Either the transaction is
admissible, and then it is accepted and its outcome is fixed in every part;
or it violates a first condition, and then it is rejected with the error of
that condition and nothing changes. The conditions come in order: the check,
each input, the moves of the settlement, the outputs.
-/

set_option autoImplicit false

namespace TokenLedger

namespace Vault

structure Spendable (v : Vault) (ts : List Token) : Prop where
  distinct : (ts.map Token.commitment).Nodup
  known : ∀ t ∈ ts, v.hasRecord t.commitment = true
  unspent : ∀ t ∈ ts, v.isSpent t.serial = false

/-- What is wrong with an input that follows others, tested in this order. -/
inductive InputFault (v : Vault) (before : List Token) (t : Token) : LedgerError → Prop where
  | duplicate (h : t.commitment ∈ before.map Token.commitment) :
      InputFault v before t (.duplicateInput t.commitment)
  | unknown (hnew : t.commitment ∉ before.map Token.commitment)
      (h : v.hasRecord t.commitment = false) : InputFault v before t (.unknownRecord t.commitment)
  | spent (hnew : t.commitment ∉ before.map Token.commitment)
      (hknown : v.hasRecord t.commitment = true) (h : v.isSpent t.serial = true) :
      InputFault v before t (.alreadySpent t.commitment)

structure Admissible (v : Vault) (tx : Transaction) : Prop where
  check : tx.check = .ok ()
  inputs : v.Spendable tx.consumed
  enabled : Move.AllEnabled v.balance? tx.moves
  fresh : ∀ t ∈ tx.outputs, v.hasRecord t.commitment = false

/-- The first condition that a transaction violates, and its error. -/
inductive Violates (v : Vault) (tx : Transaction) : LedgerError → Prop where
  | check {e : Transaction.CheckError} (h : tx.check = .error e) :
      Violates v tx (LedgerError.ofCheck tx e)
  | input {before after : List Token} {t : Token} {e : LedgerError} (hcheck : tx.check = .ok ())
      (hsplit : tx.consumed = before ++ t :: after) (hbefore : v.Spendable before)
      (h : v.InputFault before t e) : Violates v tx e
  | settlement {e : ProgramError} (hcheck : tx.check = .ok ()) (hinputs : v.Spendable tx.consumed)
      (h : Move.FirstFault v.balance? tx.moves e) : Violates v tx (.program e)
  | output {before after : List Token} {t : Token} (hcheck : tx.check = .ok ())
      (hinputs : v.Spendable tx.consumed) (henabled : Move.AllEnabled v.balance? tx.moves)
      (hsplit : tx.outputs = before ++ t :: after)
      (hbefore : ∀ u ∈ before, v.hasRecord u.commitment = false)
      (h : v.hasRecord t.commitment = true) : Violates v tx (.storage (.recordExists t.commitment))

structure Outcome (v : Vault) (tx : Transaction) (v' : Vault) : Prop where
  ordered : v'.Ordered
  balance : ∀ a, v'.balance? a = Move.effects v.balance? tx.moves a
  untouched : ∀ a, a ∉ tx.moves.map Move.key → v'.balance? a = v.balance? a
  spent : ∀ n, v'.isSpent n = true ↔ v.isSpent n = true ∨ n ∈ tx.consumed.map Token.serial
  records : v'.records = v.records ++ tx.outputs.map Token.stored
  /-- Every owner's list goes on with what is issued to the owner, in the order of the outputs. -/
  owners : ∀ a, v'.recordsOf a =
    v.recordsOf a ++ (tx.outputs.filter fun t => t.owner = a).map Token.commitment
  height : v'.height = v.height + 1

variable {v v' : Vault} {tx : Transaction}

theorem Spendable.append_singleton {ts : List Token} {t : Token} (h : v.Spendable ts)
    (hnew : t.commitment ∉ ts.map Token.commitment) (hknown : v.hasRecord t.commitment = true)
    (hunspent : v.isSpent t.serial = false) : v.Spendable (ts ++ [t]) where
  distinct := by
    rw [List.map_append, List.nodup_append]
    refine ⟨h.distinct, List.nodup_singleton _, ?_⟩
    rintro c hc d hd rfl
    exact hnew (List.mem_singleton.1 hd ▸ hc)
  known u hu := by
    rcases List.mem_append.1 hu with hu | hu
    · exact h.known u hu
    · rw [List.mem_singleton.1 hu, hknown]
  unspent u hu := by
    rcases List.mem_append.1 hu with hu | hu
    · exact h.unspent u hu
    · rw [List.mem_singleton.1 hu, hunspent]

theorem spendable_or_fault (v : Vault) (ts : List Token) :
    v.Spendable ts ∨ ∃ before t after e, ts = before ++ t :: after ∧ v.Spendable before ∧
      v.InputFault before t e := by
  -- from the end: the last input can only be at fault when all before it can be spent
  induction ts using List.reverseRecOn with
  | nil => exact .inl ⟨List.nodup_nil, nofun, nofun⟩
  | append_singleton ts t ih =>
    rcases ih with h | ⟨before, u, after, e, rfl, h, hfault⟩
    · by_cases hmem : t.commitment ∈ ts.map Token.commitment
      · exact .inr ⟨ts, t, [], _, rfl, h, .duplicate hmem⟩
      · cases hknown : v.hasRecord t.commitment with
        | false => exact .inr ⟨ts, t, [], _, rfl, h, .unknown hmem hknown⟩
        | true =>
          cases hspent : v.isSpent t.serial with
          | true => exact .inr ⟨ts, t, [], _, rfl, h, .spent hmem hknown hspent⟩
          | false => exact .inl (h.append_singleton hmem hknown hspent)
    · exact .inr ⟨before, u, after ++ [t], e, by simp, h, hfault⟩

theorem admissible_or_violates (v : Vault) (tx : Transaction) :
    v.Admissible tx ∨ ∃ e, v.Violates tx e := by
  cases hcheck : tx.check with
  | error e => exact .inr ⟨_, .check hcheck⟩
  | ok _ =>
    rcases v.spendable_or_fault tx.consumed with hinputs | ⟨before, t, after, e, hsplit, h, hfault⟩
    · rcases Move.allEnabled_or_firstFault v.balance? tx.moves with henabled | ⟨e, hfault⟩
      · cases hfind : tx.outputs.find? fun t => v.hasRecord t.commitment with
        | none =>
          have hfresh := List.find?_eq_none.1 hfind
          exact .inl ⟨hcheck, hinputs, henabled, fun t ht => eq_false_of_ne_true (hfresh t ht)⟩
        | some t =>
          obtain ⟨hstored, before, after, hsplit, hbefore⟩ :=
            List.find?_eq_some_iff_append.1 hfind
          exact .inr ⟨_, .output hcheck hinputs henabled hsplit
            (fun u hu => by simpa using hbefore u hu) hstored⟩
      · exact .inr ⟨_, .settlement hcheck hinputs hfault⟩
    · exact .inr ⟨e, .input hcheck hsplit h hfault⟩

theorem Accepts.admissible (h : v.Accepts tx v') : v.Admissible tx where
  check := Transaction.check_ok.2 h.sound
  inputs := ⟨h.distinct, h.known, h.unspent⟩
  enabled := by
    rcases Move.allEnabled_or_firstFault v.balance? tx.moves with henabled | ⟨e, hfault⟩
    · exact henabled
    · cases (Balances.settle_of_firstFault hfault).symm.trans h.settled
  fresh := h.fresh

theorem Accepts.outcome (hv : v.Ordered) (h : v.Accepts tx v') : v.Outcome tx v' := by
  obtain ⟨m, hsettle, heffects⟩ := Balances.settle_of_allEnabled h.admissible.enabled
  cases hsettle.symm.trans h.settled
  constructor
  · constructor
    · exact (Balances.settle_gain hv.balances h.settled).1
    · rw [h.spent]
      exact pairwise_foldl_insertSerial hv.spent _
  · exact fun a => congrFun heffects a
  · exact fun a ha => (congrFun heffects a).trans (Move.effects_of_not_mem ha)
  · intro n
    rw [← mem_spent_iff, ← mem_spent_iff, h.spent, mem_foldl_insertSerial]
    exact or_comm
  · exact h.records
  · intro a
    rw [recordsOf, recordsOf, h.records, List.filter_append, List.map_append, List.filter_map,
      List.map_map]
    rfl
  · exact h.height

theorem Outcome.unique {v'' : Vault} (h : v.Outcome tx v') (h' : v.Outcome tx v'') : v' = v'' := by
  apply ext_of_ordered h.ordered h'.ordered
  · intro key
    rw [h.balance, h'.balance]
  · intro n
    rw [h.spent, h'.spent]
  · rw [h.records, h'.records]
  · rw [h.height, h'.height]

end Vault

/-! ## Staging and committing -/

namespace Store

variable {v : Vault} {c : Changes} {tx : Transaction}

theorem stageInputs_append {before : List Token} (h : v.Spendable before)
    {seen : List Commitment} (hseen : ∀ t ∈ before, t.commitment ∉ seen) (c : Changes)
    (rest : List Token) :
    (ofVault v).stageInputs seen c (before ++ rest) =
      (ofVault v).stageInputs ((before.map Token.commitment).reverse ++ seen)
        { c with spent := c.spent ++ before.map Token.serial } rest := by
  induction before generalizing seen c with
  | nil => simp
  | cons t ts ih =>
    obtain ⟨hnew, hdistinct⟩ := List.nodup_cons.1 h.distinct
    have hrest : v.Spendable ts :=
      ⟨hdistinct, fun u hu => h.known u (by simp [hu]), fun u hu => h.unspent u (by simp [hu])⟩
    have hknown : (ofVault v).hasRecord t.commitment = .ok true :=
      congrArg Except.ok (h.known t (by simp))
    have hunspent : (ofVault v).isSpent t.commitment.serial = .ok false :=
      congrArg Except.ok (h.unspent t (by simp))
    have hseen' : ∀ u ∈ ts, u.commitment ∉ t.commitment :: seen := by
      intro u hu hmem
      rcases List.mem_cons.1 hmem with heq | hmem
      · exact hnew (List.mem_map.2 ⟨u, hu, heq⟩)
      · exact hseen u (by simp [hu]) hmem
    rw [List.cons_append, stageInputs, if_neg (hseen t (by simp)), hknown, hunspent]
    simp only [Answers.liftStore_ok, Answers.ok_bind, if_true, Bool.false_eq_true, if_false]
    rw [ih hrest hseen']
    simp [Changes.spend, Token.serial]

theorem stageInputs_of_spendable {ts : List Token} (h : v.Spendable ts) (c : Changes) :
    (ofVault v).stageInputs [] c ts = .ok { c with spent := c.spent ++ ts.map Token.serial } := by
  have happend := stageInputs_append h (fun _ _ => List.not_mem_nil) c []
  rwa [List.append_nil] at happend

theorem stageInputs_of_fault {before after : List Token} {t : Token} {e : LedgerError}
    (hbefore : v.Spendable before) (h : v.InputFault before t e) (c : Changes) :
    (ofVault v).stageInputs [] c (before ++ t :: after) = .error e := by
  have hmem : t.commitment ∈ (before.map Token.commitment).reverse ++ [] ↔
      t.commitment ∈ before.map Token.commitment := by
    rw [List.append_nil, List.mem_reverse]
  rw [stageInputs_append hbefore (fun _ _ => List.not_mem_nil), stageInputs]
  cases h with
  | duplicate h => rw [if_pos (hmem.2 h)]
  | unknown hnew h =>
    have hknown : (ofVault v).hasRecord t.commitment = .ok false := congrArg Except.ok h
    rw [if_neg (mt hmem.1 hnew), hknown]
    rfl
  | spent hnew hknown h =>
    have hknown : (ofVault v).hasRecord t.commitment = .ok true := congrArg Except.ok hknown
    have hspent : (ofVault v).isSpent t.commitment.serial = .ok true := congrArg Except.ok h
    rw [if_neg (mt hmem.1 hnew), hknown, hspent]
    rfl

theorem stageSettlement_of_settle (hv : v.balances.Ordered) (hc : c.writes = [])
    (tx : Transaction) :
    (∃ e, v.balances.settle tx.moves = .error e ∧
      (ofVault v).stageSettlement c tx.settlement = .error (.program e)) ∨
    ∃ m c', v.balances.settle tx.moves = .ok m ∧
      (ofVault v).stageSettlement c tx.settlement = .ok c' := by
  rw [Transaction.moves]
  cases tx.settlement with
  | none => exact .inr ⟨v.balances, c, rfl, rfl⟩
  | some s =>
    rcases (Overlay.over_empty v c hc).run hv s.moves with ⟨o, e, ho, hm⟩ | ⟨o, m, ho, hm, -⟩
    · exact .inl ⟨e, hm, by rw [stageSettlement, Overlay.settle, ho]⟩
    · exact .inr ⟨m, o.changes, hm, by rw [stageSettlement, Overlay.settle, ho]⟩

theorem stage_of_spendable (hv : v.balances.Ordered) (hcheck : tx.check = .ok ())
    (hinputs : v.Spendable tx.consumed) :
    (∃ e, v.balances.settle tx.moves = .error e ∧ (ofVault v).stage tx = .error (.program e)) ∨
    ∃ m c, v.balances.settle tx.moves = .ok m ∧ (ofVault v).stage tx = .ok c := by
  have hin := stageInputs_of_spendable hinputs .empty
  rcases stageSettlement_of_settle hv (c := { Changes.empty with
    spent := Changes.empty.spent ++ tx.consumed.map Token.serial }) rfl tx with
    ⟨e, he, hstage⟩ | ⟨m, c, hm, hstage⟩
  · refine .inl ⟨e, he, ?_⟩
    simp only [stage, hcheck, Answers.mapError_ok, Answers.ok_bind, hin, hstage,
      Answers.error_bind]
  · refine .inr ⟨m, tx.outputs.foldl (fun c t => c.addRecord t.stored) c, hm, ?_⟩
    simp only [stage, hcheck, Answers.mapError_ok, Answers.ok_bind, hin, hstage, Answers.pure_eq]

theorem stage_of_enabled (hv : v.balances.Ordered) (hcheck : tx.check = .ok ())
    (hinputs : v.Spendable tx.consumed) (henabled : Move.AllEnabled v.balance? tx.moves) :
    ∃ c, (ofVault v).stage tx = .ok c ∧ Staged v tx c := by
  obtain ⟨m, hsettle, -⟩ := Balances.settle_of_allEnabled henabled
  rcases stage_of_spendable hv hcheck hinputs with ⟨e, he, -⟩ | ⟨_, c, -, hstage⟩
  · cases he.symm.trans hsettle
  · exact ⟨c, hstage, stage_ok hv hstage⟩

theorem commit_of_staged (h : Staged v tx c) :
    (ofVault v).commit c =
      match tx.outputs.find? fun t => v.hasRecord t.commitment with
      | some t => .error (.recordExists t.commitment)
      | none => .ok (ofVault { v.write c with height := v.height + 1 }) := by
  have hspent : c.spent.find? v.isSpent = none := by
    rw [h.spent, List.find?_eq_none]
    intro n hn
    obtain ⟨t, ht, rfl⟩ := List.mem_map.1 hn
    rw [h.unspent t ht]
    exact Bool.false_ne_true
  have hfind : c.records.find? (fun r => v.hasRecord r.commitment) =
      (tx.outputs.find? fun t => v.hasRecord t.commitment).map Token.stored := by
    rw [h.records, List.find?_map]
    rfl
  have hadmits : v.admits c = match tx.outputs.find? fun t => v.hasRecord t.commitment with
      | some t => .error (.recordExists t.commitment)
      | none => .ok () := by
    rw [Vault.admits, hspent, hfind]
    cases tx.outputs.find? fun t => v.hasRecord t.commitment <;> rfl
  rw [commit, Vault.commit]
  simp only [ofVault, hadmits]
  cases tx.outputs.find? fun t => v.hasRecord t.commitment <;> rfl

end Store

namespace Ledger

variable {v : Vault} {tx : Transaction}

theorem apply_of_admissible (hv : v.Ordered) (h : v.Admissible tx) (seeds : SeedSource) :
    ∃ v', v.Outcome tx v' ∧ (ofVault v seeds).apply tx =
      (.ok ⟨tx.id, tx.function, tx.outputs, tx.value, v'.height⟩, ofVault v' seeds) := by
  obtain ⟨c, hstage, hstaged⟩ := Store.stage_of_enabled hv.balances h.check h.inputs h.enabled
  have hnone : tx.outputs.find? (fun t => v.hasRecord t.commitment) = none :=
    List.find?_eq_none.2 fun t ht => ne_true_of_eq_false (h.fresh t ht)
  have hcommit := Store.commit_of_staged hstaged
  rw [hnone] at hcommit
  obtain ⟨v', ha, happly⟩ := apply_of_commit hv.balances seeds hstage hcommit
  exact ⟨v', ha.outcome hv, happly⟩

theorem apply_of_violates (hv : v.Ordered) {e : LedgerError} (h : v.Violates tx e)
    (seeds : SeedSource) : (ofVault v seeds).apply tx = (.error e, ofVault v seeds) := by
  have hrejected {e : LedgerError} (hstage : (Store.ofVault v).stage tx = .error e) :
      (ofVault v seeds).apply tx = (.error e, ofVault v seeds) := by
    simp only [apply, ofVault, hstage]
  cases h with
  | check h =>
    apply hrejected
    rw [Store.stage, h]
    rfl
  | input hcheck hsplit hbefore h =>
    apply hrejected
    rw [Store.stage, hcheck, hsplit, Store.stageInputs_of_fault hbefore h]
    rfl
  | settlement hcheck hinputs h =>
    apply hrejected
    have hsettle := Balances.settle_of_firstFault h
    rcases Store.stage_of_spendable hv.balances hcheck hinputs with
      ⟨e', he, hstage⟩ | ⟨_, _, he, -⟩
    · cases he.symm.trans hsettle
      exact hstage
    · cases he.symm.trans hsettle
  | @output before after t hcheck hinputs henabled hsplit hbefore h =>
    obtain ⟨c, hstage, hstaged⟩ := Store.stage_of_enabled hv.balances hcheck hinputs henabled
    have hfind : tx.outputs.find? (fun t => v.hasRecord t.commitment) = some t :=
      List.find?_eq_some_iff_append.2 ⟨h, before, after, hsplit, fun u hu => by simp [hbefore u hu]⟩
    have hcommit := Store.commit_of_staged hstaged
    rw [hfind] at hcommit
    simp only [apply, ofVault, hstage, hcommit]

end Ledger

/-- The vault before a transaction says all about applying it: whether it is
accepted, the receipt and the vault after it, or the error. Heights are words:
the one after the greatest is zero. -/
structure Vault.Decides (v : Vault) (seeds : SeedSource) (tx : Transaction) : Prop where
  accepts : (∃ r, ((Ledger.ofVault v seeds).apply tx).1 = .ok r) ↔ v.Admissible tx
  accepted : ∀ r l, (Ledger.ofVault v seeds).apply tx = (.ok r, l) ↔
    v.Admissible tx ∧ r = ⟨tx.id, tx.function, tx.outputs, tx.value, v.height + 1⟩ ∧
      ∃ v', v.Outcome tx v' ∧ l = Ledger.ofVault v' seeds
  rejected : ∀ e l, (Ledger.ofVault v seeds).apply tx = (.error e, l) ↔
    v.Violates tx e ∧ l = Ledger.ofVault v seeds

namespace Ledger

/-- For every vault in order and every transaction, what applying it comes to. -/
theorem decides_of_ordered {v : Vault} (hv : v.Ordered) (seeds : SeedSource) (tx : Transaction) :
    v.Decides seeds tx := by
  rcases v.admissible_or_violates tx with h | ⟨e, h⟩
  · obtain ⟨v', hout, happly⟩ := apply_of_admissible hv h seeds
    constructor
    · exact ⟨fun _ => h, fun _ => ⟨_, by rw [happly]⟩⟩
    · intro r l
      rw [happly, Prod.mk.injEq, Except.ok.injEq, hout.height]
      constructor
      · rintro ⟨rfl, rfl⟩
        exact ⟨h, rfl, v', hout, rfl⟩
      · rintro ⟨-, rfl, v'', hout', rfl⟩
        rw [hout.unique hout']
        exact ⟨rfl, rfl⟩
    · intro e l
      constructor
      · intro hrej
        cases happly.symm.trans hrej
      · rintro ⟨hviolates, -⟩
        cases happly.symm.trans (apply_of_violates hv hviolates seeds)
  · have happly := apply_of_violates hv h seeds
    have hnot : ¬v.Admissible tx := by
      intro hadm
      obtain ⟨v', -, hacc⟩ := apply_of_admissible hv hadm seeds
      cases happly.symm.trans hacc
    constructor
    · constructor
      · rintro ⟨r, hr⟩
        rw [happly] at hr
        cases hr
      · exact fun hadm => absurd hadm hnot
    · intro r l
      constructor
      · intro hacc
        cases happly.symm.trans hacc
      · exact fun hadm => absurd hadm.1 hnot
    · intro e' l
      constructor
      · intro hrej
        rw [happly, Prod.mk.injEq, Except.error.injEq] at hrej
        exact ⟨hrej.1 ▸ h, hrej.2.symm⟩
      · rintro ⟨hviolates, rfl⟩
        exact apply_of_violates hv hviolates seeds

end Ledger

namespace Sample

def coin : Token := ⟨⟨Bytes32.replicate 1⟩, 100, Bytes32.replicate 3⟩

def stocked : Vault := deposited.write ⟨[], [coin.stored], []⟩

def redemption : Transaction where
  id := default
  function := .transferPrivateToPublic
  caller := coin.owner
  consumed := [coin]
  outputs := [{ coin with balance := 60, nonce := Bytes32.replicate 4 }]
  settlement := some (.transferPrivateToPublic ⟨Bytes32.replicate 2⟩ 40)
  value := none

end Sample

theorem Ledger.decides_redemption :
    ((ofVault Sample.stocked ⟨fun _ => .ok default, 0⟩).apply Sample.redemption).1.isOk = true ∧
      Sample.stocked.Ordered ∧
      Sample.stocked.Decides ⟨fun _ => .ok default, 0⟩ Sample.redemption := by
  have hordered : Sample.stocked.Ordered := Sample.ordered_deposited.write _
  exact ⟨by decide +kernel, hordered, decides_of_ordered hordered _ _⟩

end TokenLedger
