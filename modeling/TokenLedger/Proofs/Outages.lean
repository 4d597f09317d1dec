import Mathlib.Logic.Function.Basic
import TokenLedger.Proofs.Batches
import TokenLedger.Proofs.Views

/-!
# What failing calls leave behind

Any call of the store may fail, and which calls do may change from one
transaction to the next. A failure before the commit leaves the ledger as it
was, and so does a commit that fails. Only the height is read after the
commit: when that call fails, the transaction is answered with an error
although all of it was written.
-/

set_option autoImplicit false

namespace TokenLedger

namespace Store

/-- Another store over the same vault that answers all calls that the first
one answers, where the height does not count. -/
structure Covers (s s' : Store) : Prop where
  vault : s'.vault = s.vault
  outage : ∀ a, a ≠ .height → s'.outage a = true → s.outage a = true

variable {s s' : Store} {α : Type}

theorem covers_ofVault (s : Store) : s.Covers (ofVault s.vault) :=
  ⟨rfl, fun _ _ hout => nomatch (hout : false = true)⟩

theorem Covers.answer (h : s.Covers s') {a : Access} (ha : a ≠ .height) {x y : α}
    (hok : s.answer a x = .ok y) : s'.answer a x = .ok y := by
  obtain ⟨hanswered, hx⟩ := answer_eq_ok.1 hok
  refine answer_eq_ok.2 ⟨eq_false_of_ne_true fun hout => ?_, hx⟩
  rw [h.outage a ha hout] at hanswered
  cases hanswered

theorem Covers.hasRecord (h : s.Covers s') {c : Commitment} {b : Bool}
    (hok : s.hasRecord c = .ok b) : s'.hasRecord c = .ok b := by
  rw [Store.hasRecord, h.vault]
  exact h.answer (a := .hasRecord c) nofun hok

theorem Covers.isSpent (h : s.Covers s') {n : SerialNumber} {b : Bool}
    (hok : s.isSpent n = .ok b) : s'.isSpent n = .ok b := by
  rw [Store.isSpent, h.vault]
  exact h.answer (a := .isSpent n) nofun hok

theorem Covers.balance? (h : s.Covers s') {key : Address} {b : Option UInt64}
    (hok : s.balance? key = .ok b) : s'.balance? key = .ok b := by
  rw [Store.balance?, h.vault]
  exact h.answer (a := .balance key) nofun hok

theorem Covers.stageInputs (h : s.Covers s') {seen : List Commitment} {c c' : Changes}
    {ts : List Token} (hok : s.stageInputs seen c ts = .ok c') :
    s'.stageInputs seen c ts = .ok c' := by
  induction ts generalizing seen c with
  | nil => exact hok
  | cons t ts ih =>
    rw [Store.stageInputs] at hok ⊢
    split at hok
    · cases hok
    · next hnew =>
      rw [if_neg hnew]
      obtain ⟨known, hknown, hok⟩ := Answers.bind_eq_ok.1 hok
      rw [h.hasRecord (Answers.mapError_eq_ok.1 hknown), Answers.liftStore_ok, Answers.ok_bind]
      split at hok
      · next hrec =>
        rw [if_pos hrec]
        obtain ⟨spent, hspent, hok⟩ := Answers.bind_eq_ok.1 hok
        rw [h.isSpent (Answers.mapError_eq_ok.1 hspent), Answers.liftStore_ok, Answers.ok_bind]
        split at hok
        · cases hok
        · next hun =>
          rw [if_neg hun]
          exact ih hok
      · cases hok

end Store

namespace Overlay

variable {s s' : Store} {c : Changes} {o : Overlay}

theorem read_of_covers (h : s.Covers s') {key : Address} {b : Option UInt64}
    (hok : (Overlay.mk s c).read key = .ok b) : (Overlay.mk s' c).read key = .ok b := by
  unfold read at hok ⊢
  split at hok
  · next hwritten =>
    simp only [hwritten]
    exact hok
  · next hwritten =>
    simp only [hwritten]
    split at hok
    · next hbalance =>
      rw [h.balance? hbalance]
      exact hok
    · cases hok

theorem move_of_covers (h : s.Covers s') {m : Move} (hok : (Overlay.mk s c).move m = .ok o) :
    ∃ c', o = ⟨s, c'⟩ ∧ (Overlay.mk s' c).move m = .ok ⟨s', c'⟩ := by
  cases m with
  | credit key amount =>
    obtain ⟨current, hget, hok⟩ := Answers.bind_eq_ok.1 hok
    obtain ⟨value, hadd, hok⟩ := Answers.bind_eq_ok.1 hok
    obtain ⟨b, hread, hcurrent⟩ := Answers.bind_eq_ok.1 hget
    cases hok
    cases hcurrent
    refine ⟨c.put key value, rfl, ?_⟩
    rw [move, getD, read_of_covers h hread, Answers.ok_bind, Answers.pure_eq, Answers.ok_bind,
      hadd]
    rfl
  | debit key amount =>
    obtain ⟨current, hget, hok⟩ := Answers.bind_eq_ok.1 hok
    obtain ⟨value, hsub, hok⟩ := Answers.bind_eq_ok.1 hok
    obtain ⟨b, hread, hcurrent⟩ := Answers.bind_eq_ok.1 hget
    cases hok
    cases b with
    | none => cases hcurrent
    | some balance =>
      cases hcurrent
      refine ⟨c.put key value, rfl, ?_⟩
      rw [move, get, read_of_covers h hread, Answers.ok_bind, Answers.ok_bind, hsub]
      rfl

theorem run_of_covers (h : s.Covers s') {ms : List Move}
    (hok : (Overlay.mk s c).run ms = (o, .ok ())) :
    ∃ c', o = ⟨s, c'⟩ ∧ (Overlay.mk s' c).run ms = (⟨s', c'⟩, .ok ()) := by
  induction ms generalizing c with
  | nil =>
    cases hok
    exact ⟨c, rfl, rfl⟩
  | cons m ms ih =>
    rw [run] at hok
    split at hok
    · next o₁ hmove =>
      obtain ⟨c₁, rfl, hmove'⟩ := move_of_covers h hmove
      obtain ⟨c', ho, hrun⟩ := ih hok
      exact ⟨c', ho, by rw [run, hmove']; exact hrun⟩
    · cases hok

end Overlay

namespace Store

variable {s s' : Store} {c c' : Changes} {tx : Transaction} {v : Vault}

theorem Covers.stageSettlement (h : s.Covers s') {settlement : Option Settlement}
    (hok : s.stageSettlement c settlement = .ok c') :
    s'.stageSettlement c settlement = .ok c' := by
  cases settlement with
  | none => exact hok
  | some settlement =>
    rw [Store.stageSettlement] at hok ⊢
    split at hok
    · next o hsettle =>
      cases hok
      obtain ⟨c', rfl, hrun⟩ := Overlay.run_of_covers h hsettle
      rw [Overlay.settle, hrun]
    · cases hok

theorem Covers.stage (h : s.Covers s') (hok : s.stage tx = .ok c) : s'.stage tx = .ok c := by
  obtain ⟨⟨⟩, hcheck, hok⟩ := Answers.bind_eq_ok.1 hok
  obtain ⟨c₁, hinputs, hok⟩ := Answers.bind_eq_ok.1 hok
  obtain ⟨c₂, hsettle, hok⟩ := Answers.bind_eq_ok.1 hok
  rw [Store.stage, hcheck, Answers.ok_bind, h.stageInputs hinputs, Answers.ok_bind,
    h.stageSettlement hsettle, Answers.ok_bind]
  exact hok

theorem Covers.commits (h : s.Covers s') (hc : s.Commits tx v) : s'.Commits tx v := by
  obtain ⟨c, hstage, hcommit⟩ := hc
  obtain ⟨hanswered, w, hw, heq⟩ := commit_eq_ok.1 hcommit
  cases heq
  refine ⟨c, h.stage hstage, commit_eq_ok.2 ⟨?_, v, h.vault ▸ hw, rfl⟩⟩
  refine eq_false_of_ne_true fun hout => ?_
  rw [h.outage .commit nofun hout] at hanswered
  cases hanswered

theorem Commits.height (hc : s.Commits tx v) : v.height = s.vault.height + 1 := by
  obtain ⟨c, -, hcommit⟩ := hc
  obtain ⟨-, w, hw, heq⟩ := commit_eq_ok.1 hcommit
  cases heq
  rw [(Vault.commit_eq_ok.1 hw).2]

theorem Commits.vault_ne (hc : s.Commits tx v) : v ≠ s.vault := by
  intro heq
  have hheight := congrArg UInt64.toNat hc.height
  rw [heq, UInt64.toNat_add, UInt64.toNat_one] at hheight
  have hlt := s.vault.height.toNat_lt
  omega

end Store

namespace Ledger

def withHeight (l : Ledger) : Ledger :=
  l.under (Function.update l.store.outage .height false)

def LeavesTrace (l : Ledger) (answer : Except LedgerError Receipt × Ledger) : Prop :=
  (∃ e, answer.1 = .error e) ∧ answer.2.store.vault ≠ l.store.vault

/-- Of what is rejected only that leaves a trace which is accepted once the height
is answered, and the trace is all that is written then. -/
structure TracedByHeight (l : Ledger)
    (f : Ledger → Except LedgerError Receipt × Ledger) : Prop where
  leaves : l.LeavesTrace (f l) ↔ l.store.outage .height = true ∧ ∃ r, (f l.withHeight).1 = .ok r
  error : l.LeavesTrace (f l) → (f l).1 = .error (.storage (.outage Access.height.name))
  written : (f l).2.store.vault = (f l.withHeight).2.store.vault

variable {l : Ledger} {tx : Transaction} {v : Vault}

theorem outage_withHeight (l : Ledger) {a : Access} (ha : a ≠ .height) :
    l.withHeight.store.outage a = l.store.outage a :=
  Function.update_of_ne ha _ _

theorem commits_withHeight : l.withHeight.store.Commits tx v ↔ l.store.Commits tx v := by
  have hcovers : l.store.Covers l.withHeight.store :=
    ⟨rfl, fun a ha hout => l.outage_withHeight ha ▸ hout⟩
  have hcovered : l.withHeight.store.Covers l.store :=
    ⟨rfl, fun a ha hout => (l.outage_withHeight ha).trans hout⟩
  exact ⟨hcovered.commits, hcovers.commits⟩

theorem apply_withHeight (l : Ledger) (tx : Transaction) :
    (∃ e e', l.apply tx = (.error e, l) ∧ l.withHeight.apply tx = (.error e', l.withHeight)) ∨
      ∃ v, v ≠ l.store.vault ∧
        l.apply tx = (l.answered tx v, { l with store := { l.store with vault := v } }) ∧
        ∃ r, l.withHeight.apply tx = (.ok r,
          { l.withHeight with store := { l.withHeight.store with vault := v } }) := by
  have hwritten {v : Vault} (hc : l.store.Commits tx v) : ∃ r, l.withHeight.apply tx = (.ok r,
      { l.withHeight with store := { l.withHeight.store with vault := v } }) := by
    refine ⟨⟨tx.id, tx.function, tx.outputs, tx.value, v.height⟩, ?_⟩
    have hheight : l.withHeight.store.outage .height = false := by
      simp [withHeight, under]
    rw [apply_of_commits (commits_withHeight.2 hc), answered, hheight]
    rfl
  by_cases hc : ∃ v, l.store.Commits tx v
  · obtain ⟨v, hc⟩ := hc
    exact .inr ⟨v, hc.vault_ne, apply_of_commits hc, hwritten hc⟩
  · have hc' : ¬∃ v, l.withHeight.store.Commits tx v := by
      simpa only [commits_withHeight] using hc
    obtain ⟨e, happly⟩ := (l.apply_kept_or_written tx).resolve_right hc
    obtain ⟨e', happly'⟩ := (l.withHeight.apply_kept_or_written tx).resolve_right hc'
    exact .inl ⟨e, e', happly, happly'⟩

theorem apply_traced (l : Ledger) (tx : Transaction) : l.TracedByHeight (·.apply tx) := by
  rcases l.apply_withHeight tx with ⟨e, e', happly, happly'⟩ | ⟨v, hne, happly, r, happly'⟩
  · have hnone : ¬l.LeavesTrace (l.apply tx) := by
      rintro ⟨-, hne⟩
      rw [happly] at hne
      exact hne rfl
    constructor
    · refine iff_of_false hnone ?_
      rintro ⟨-, r, hr⟩
      rw [happly'] at hr
      cases hr
    · exact fun h => absurd h hnone
    · rw [happly, happly']
      rfl
  · have herror : (∃ e, l.answered tx v = .error e) ↔ l.store.outage .height = true := by
      unfold answered
      cases l.store.outage .height <;> simp
    constructor
    · rw [LeavesTrace, happly, happly', herror]
      exact and_congr_right fun _ => iff_of_true hne ⟨r, rfl⟩
    · rintro ⟨hrejected, -⟩
      rw [happly] at hrejected ⊢
      rw [answered, if_pos (herror.1 hrejected)]
    · rw [happly, happly']

theorem attempt_traced (l : Ledger) (x : Except LedgerError Transaction) :
    l.TracedByHeight (·.attempt x) := by
  cases x with
  | ok tx => exact l.apply_traced tx
  | error e =>
    have hnone : ¬l.LeavesTrace (l.attempt (.error e)) := fun h => h.2 rfl
    refine ⟨iff_of_false hnone ?_, fun h => absurd h hnone, rfl⟩
    rintro ⟨-, r, hr⟩
    cases hr

theorem executeWith_traced (l : Ledger) (ctx : Context) (call : Call) :
    l.TracedByHeight (·.executeWith ctx call) := by
  simp only [executeWith_eq]
  exact l.attempt_traced _

theorem execute_traced (l : Ledger) (caller : Address) (call : Call) :
    l.TracedByHeight (·.execute caller call) := by
  have hattempt :=
    { l with seeds := l.seeds.draw.2 }.attempt_traced (prepare (caller, call) l.seeds.draw.1)
  constructor
  · rw [execute_eq, execute_eq]
    exact hattempt.leaves
  · rw [execute_eq]
    exact hattempt.error
  · rw [execute_eq, execute_eq]
    exact hattempt.written

theorem applyEachUnder_written (l : Ledger) (outages : Nat → Access → Bool)
    (xs : List (Except LedgerError Transaction)) :
    ∃ txs : List Transaction, txs.Sublist (submitted xs) ∧
      (ofVault l.store.vault l.seeds).accepted txs = txs ∧
      (l.applyEachUnder outages xs).2.store.vault =
        ((ofVault l.store.vault l.seeds).run txs).store.vault := by
  induction xs generalizing l outages with
  | nil => exact ⟨[], .slnil, rfl, rfl⟩
  | cons x xs ih =>
    rw [applyEachUnder_cons]
    cases x with
    | error e => exact ih (l.under (outages 0)) fun i => outages (i + 1)
    | ok tx =>
      rcases (l.under (outages 0)).apply_kept_or_written tx with ⟨e, happly⟩ | ⟨v, hc⟩
      · obtain ⟨txs, hsub, haccepted, hvault⟩ :=
          ih (l.under (outages 0)) fun i => outages (i + 1)
        rw [attempt, happly]
        exact ⟨txs, hsub.cons tx, haccepted, hvault⟩
      · -- written, whether or not the receipt can be made out, so it counts as accepted
        let later : Ledger := ⟨⟨v, outages 0⟩, l.seeds⟩
        obtain ⟨txs, hsub, haccepted, hvault⟩ := ih later fun i => outages (i + 1)
        have hattempt : (l.under (outages 0)).attempt (.ok tx) =
            ((l.under (outages 0)).answered tx v, later) := apply_of_commits hc
        have happly : (ofVault l.store.vault l.seeds).apply tx =
            ((ofVault l.store.vault l.seeds).answered tx v, ofVault v l.seeds) :=
          apply_of_commits ((l.under (outages 0)).store.covers_ofVault.commits hc)
        refine ⟨tx :: txs, hsub.cons_cons tx, ?_, ?_⟩
        · rw [accepted, happly]
          exact congrArg (tx :: ·) haccepted
        · rw [hattempt, run, happly]
          exact hvault

/-- What is left of each request when any calls of the store fail, others for each request. -/
structure AllOrNothing (l : Ledger) : Prop where
  apply : ∀ tx, l.TracedByHeight (·.apply tx)
  executeWith : ∀ ctx call, l.TracedByHeight (·.executeWith ctx call)
  execute : ∀ caller call, l.TracedByHeight (·.execute caller call)
  batch : ∀ outages requests,
    l.executeBatchUnder outages requests = l.executeEachUnder outages requests
  attempts : ∀ outages xs, ∃ txs : List Transaction, txs.Sublist (submitted xs) ∧
    (ofVault l.store.vault l.seeds).accepted txs = txs ∧
    (l.applyEachUnder outages xs).2.store.vault =
      ((ofVault l.store.vault l.seeds).run txs).store.vault

theorem allOrNothing (l : Ledger) : l.AllOrNothing :=
  ⟨l.apply_traced, l.executeWith_traced, l.execute_traced, l.executeBatchUnder_eq,
    l.applyEachUnder_written⟩

end Ledger

namespace Sample

def heightless : Ledger := (Ledger.ofVault Vault.empty seeds).under fun a => a = .height

def issue : Transaction := transaction .mint [] [record 100 1]

end Sample

namespace Ledger

/-- A rejected transaction may leave all that it writes. -/
theorem leavesTrace_issue :
    Sample.heightless.LeavesTrace (Sample.heightless.apply Sample.issue) ∧
      ¬∀ (l : Ledger) (tx : Transaction) (e : LedgerError), (l.apply tx).1 = .error e →
        (l.apply tx).2.store.vault = l.store.vault := by
  have haccepted : (Sample.heightless.withHeight.apply Sample.issue).1.isOk = true := by
    decide +kernel
  have htrace : Sample.heightless.LeavesTrace (Sample.heightless.apply Sample.issue) := by
    refine (Sample.heightless.apply_traced Sample.issue).leaves.2 ⟨rfl, ?_⟩
    cases hanswer : (Sample.heightless.withHeight.apply Sample.issue).1 with
    | ok r => exact ⟨r, rfl⟩
    | error e =>
      rw [hanswer] at haccepted
      cases haccepted
  refine ⟨htrace, fun hkept => ?_⟩
  obtain ⟨⟨e, hrejected⟩, hne⟩ := htrace
  exact hne (hkept _ _ e hrejected)

end Ledger

end TokenLedger
