import TokenLedger.Proofs.History

/-!
# Operations and the transactions behind them

A ledger is asked to execute single calls, under drawn or given seeds, or
many at once. Each operation draws its seeds, evaluates its calls and
applies what could be evaluated, in order, so a run of operations is a run
of transactions.
-/

set_option autoImplicit false

namespace TokenLedger

inductive Operation where
  | execute (caller : Address) (call : Call)
  | executeWith (ctx : Context) (call : Call)
  | executeBatch (requests : List (Address × Call))

def Operation.requests : Operation → List (Address × Call)
  | execute caller call => [(caller, call)]
  | executeWith ctx call => [(ctx.caller, call)]
  | executeBatch requests => requests

namespace Ledger

def perform (l : Ledger) : Operation → List (Except LedgerError Receipt) × Ledger
  | .execute caller call => ([(l.execute caller call).1], (l.execute caller call).2)
  | .executeWith ctx call => ([(l.executeWith ctx call).1], (l.executeWith ctx call).2)
  | .executeBatch requests => l.executeBatch requests

def performAll (l : Ledger) : List Operation → Ledger
  | [] => l
  | op :: ops => (l.perform op).2.performAll ops

/-- What the calls of an operation are evaluated to, and the seeds that are left. -/
def attempts (l : Ledger) : Operation → List (Except LedgerError Transaction) × SeedSource
  | .execute caller call => ([prepare (caller, call) l.seeds.draw.1], l.seeds.draw.2)
  | .executeWith ctx call => ([prepare (ctx.caller, call) (.ok ctx.seed)], l.seeds)
  | .executeBatch requests =>
    (List.zipWith prepare requests (l.seeds.drawMany requests.length).1,
      (l.seeds.drawMany requests.length).2)

def drawn (l : Ledger) (op : Operation) : Ledger := { l with seeds := (l.attempts op).2 }

def partway (l : Ledger) (op : Operation) (k : Nat) : Ledger :=
  ((l.drawn op).applyEach ((l.attempts op).1.take k)).2

def attempt (l : Ledger) : Except LedgerError Transaction → Except LedgerError Receipt × Ledger
  | .error e => (.error e, l)
  | .ok tx => l.apply tx

def submitted (attempts : List (Except LedgerError Transaction)) : List Transaction :=
  attempts.filterMap Except.toOption

def acceptedAll (l : Ledger) : List Operation → History
  | [] => []
  | op :: ops =>
    (l.drawn op).accepted (submitted (l.attempts op).1) ++ (l.perform op).2.acceptedAll ops

theorem acceptedAll_append (l : Ledger) (ops rest : List Operation) :
    l.acceptedAll (ops ++ rest) = l.acceptedAll ops ++ (l.performAll ops).acceptedAll rest := by
  induction ops generalizing l with
  | nil => rfl
  | cons op ops ih =>
    rw [List.cons_append, acceptedAll, ih, acceptedAll, performAll, List.append_assoc]

/-! ## Operations as attempts in order -/

theorem applyEach_cons (l : Ledger) (x : Except LedgerError Transaction)
    (xs : List (Except LedgerError Transaction)) :
    l.applyEach (x :: xs) = ((l.attempt x).1 :: ((l.attempt x).2.applyEach xs).1,
      ((l.attempt x).2.applyEach xs).2) := by
  cases x <;> rfl

theorem executeWith_eq (l : Ledger) (ctx : Context) (call : Call) :
    l.executeWith ctx call = l.attempt (prepare (ctx.caller, call) (.ok ctx.seed)) := by
  have hprepare : prepare (ctx.caller, call) (.ok ctx.seed) =
      LedgerError.liftProgram (call.evaluate ctx) := rfl
  rw [hprepare, executeWith]
  cases call.evaluate ctx <;> rfl

theorem execute_eq (l : Ledger) (caller : Address) (call : Call) :
    l.execute caller call =
      { l with seeds := l.seeds.draw.2 }.attempt (prepare (caller, call) l.seeds.draw.1) := by
  unfold execute
  split
  · next e seeds hdraw =>
    rw [hdraw]
    rfl
  · next seed seeds hdraw =>
    rw [hdraw]
    exact executeWith_eq _ ⟨caller, seed⟩ call

theorem applyEach_singleton (l : Ledger) (x : Except LedgerError Transaction) :
    l.applyEach [x] = ([(l.attempt x).1], (l.attempt x).2) := by
  rw [applyEach_cons]
  rfl

theorem perform_eq (l : Ledger) (op : Operation) :
    l.perform op = (l.drawn op).applyEach (l.attempts op).1 := by
  cases op with
  | execute caller call =>
    rw [perform, execute_eq, attempts, applyEach_singleton]
    rfl
  | executeWith ctx call =>
    rw [perform, executeWith_eq, attempts, applyEach_singleton]
    rfl
  | executeBatch requests => rfl

theorem length_drawMany (s : SeedSource) (n : Nat) : (s.drawMany n).1.length = n := by
  induction n generalizing s with
  | zero => rfl
  | succ n ih => exact congrArg Nat.succ (ih _)

/-- An attempt is what a request comes to under some seed. -/
def Prepared (request : Address × Call) (x : Except LedgerError Transaction) : Prop :=
  ∃ seed, x = prepare request seed

theorem prepared_zipWith (requests : List (Address × Call))
    (seeds : List (Except ProgramError Bytes32)) (h : seeds.length = requests.length) :
    List.Forall₂ Prepared requests (List.zipWith prepare requests seeds) := by
  induction requests generalizing seeds with
  | nil => exact .nil
  | cons request requests ih =>
    cases seeds with
    | nil => cases h
    | cons seed seeds => exact .cons ⟨seed, rfl⟩ (ih seeds (Nat.succ.inj h))

theorem prepared_attempts (l : Ledger) (op : Operation) :
    List.Forall₂ Prepared op.requests (l.attempts op).1 := by
  cases op with
  | execute caller call => exact .cons ⟨_, rfl⟩ .nil
  | executeWith ctx call => exact .cons ⟨_, rfl⟩ .nil
  | executeBatch requests => exact prepared_zipWith requests _ (length_drawMany _ _)

theorem prepared_ok {request : Address × Call} {tx : Transaction}
    (h : Prepared request (.ok tx)) :
    ∃ ctx : Context, ctx.caller = request.1 ∧ request.2.evaluate ctx = .ok tx := by
  obtain ⟨seed, h⟩ := h
  obtain ⟨s, -, heval⟩ := Answers.bind_eq_ok.1 (Answers.mapError_eq_ok.1 h.symm)
  exact ⟨⟨request.1, s⟩, rfl, heval⟩

theorem length_applyEach (l : Ledger) (xs : List (Except LedgerError Transaction)) :
    (l.applyEach xs).1.length = xs.length := by
  induction xs generalizing l with
  | nil => rfl
  | cons x xs ih => rw [applyEach_cons, List.length_cons, ih, List.length_cons]

/-! ## Operations as transactions in order -/

theorem submitted_ok (tx : Transaction) (xs : List (Except LedgerError Transaction)) :
    submitted (.ok tx :: xs) = tx :: submitted xs := rfl

theorem applyEach_run (l : Ledger) (xs : List (Except LedgerError Transaction)) :
    (l.applyEach xs).2 = l.run (submitted xs) := by
  induction xs generalizing l with
  | nil => rfl
  | cons x xs ih =>
    rw [applyEach_cons, ih]
    cases x <;> rfl

theorem perform_run (l : Ledger) (op : Operation) :
    (l.perform op).2 = (l.drawn op).run (submitted (l.attempts op).1) := by
  rw [perform_eq, applyEach_run]

theorem accepted_subset (l : Ledger) (txs : List Transaction) : l.accepted txs ⊆ txs := by
  induction txs generalizing l with
  | nil => exact List.Subset.refl _
  | cons tx txs ih =>
    rw [accepted]
    split
    · exact List.cons_subset_cons tx (ih _)
    · exact List.subset_cons_of_subset tx (ih _)

theorem evaluated_of_submitted {requests : List (Address × Call)}
    {xs : List (Except LedgerError Transaction)} (hxs : List.Forall₂ Prepared requests xs)
    {tx : Transaction} (h : tx ∈ submitted xs) : ∃ ctx call, Call.evaluate ctx call = .ok tx := by
  induction hxs with
  | nil => cases h
  | @cons request x requests xs hx _ ih =>
    cases x with
    | error e => exact ih h
    | ok tx' =>
      rcases List.mem_cons.1 h with rfl | h
      · obtain ⟨ctx, -, heval⟩ := prepared_ok hx
        exact ⟨ctx, request.2, heval⟩
      · exact ih h

theorem evaluated_of_mem {l : Ledger} {ops : List Operation} {tx : Transaction}
    (h : tx ∈ l.acceptedAll ops) : ∃ ctx call, Call.evaluate ctx call = .ok tx := by
  induction ops generalizing l with
  | nil => cases h
  | cons op ops ih =>
    rw [acceptedAll] at h
    rcases List.mem_append.1 h with h | h
    · exact evaluated_of_submitted (prepared_attempts l op) (accepted_subset _ _ h)
    · exact ih h

variable {v : Vault} {h : History}

theorem performAll_keeps (hk : v.Keeps h) (seeds : SeedSource) (ops : List Operation) :
    ∃ v' seeds', (ofVault v seeds).performAll ops = ofVault v' seeds' ∧
      v'.Keeps (h ++ (ofVault v seeds).acceptedAll ops) := by
  induction ops generalizing v h seeds with
  | nil => exact ⟨v, seeds, rfl, by simpa [acceptedAll] using hk⟩
  | cons op ops ih =>
    have hdrawn : (ofVault v seeds).drawn op = ofVault v ((ofVault v seeds).attempts op).2 := rfl
    obtain ⟨v', hrun, hk'⟩ :=
      run_keeps hk ((ofVault v seeds).attempts op).2 (submitted ((ofVault v seeds).attempts op).1)
    have hperform : ((ofVault v seeds).perform op).2 =
        ofVault v' ((ofVault v seeds).attempts op).2 := by
      rw [perform_run, hdrawn, hrun]
    obtain ⟨v'', seeds'', hall, hk''⟩ := ih hk' ((ofVault v seeds).attempts op).2
    -- the draws change only the seeds, on which neither the vault nor the history depends
    refine ⟨v'', seeds'', by rw [performAll, hperform, hall], ?_⟩
    rw [acceptedAll, hperform, hdrawn, ← List.append_assoc]
    exact hk''

end Ledger

end TokenLedger
