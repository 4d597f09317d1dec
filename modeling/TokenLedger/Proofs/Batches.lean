import TokenLedger.Proofs.Operations

/-!
# Batches and single calls

A batch draws all its seeds before the first evaluation and applies nothing
before the last one. It answers as its calls would one after another: to
evaluate a call reads no store, and to apply a transaction draws no seed. The
calls of the store that fail may be others for every request.
-/

set_option autoImplicit false

namespace TokenLedger

namespace Ledger

def executeEach (l : Ledger) : List (Address × Call) → List (Except LedgerError Receipt) × Ledger
  | [] => ([], l)
  | (caller, call) :: rest =>
    let (result, l) := l.execute caller call
    let (results, l) := executeEach l rest
    (result :: results, l)

def under (l : Ledger) (outage : Access → Bool) : Ledger :=
  { l with store := { l.store with outage := outage } }

/-- Attempts in order; the calls that fail during each are counted from zero. -/
def applyEachUnder (l : Ledger) (outages : Nat → Access → Bool) :
    List (Except LedgerError Transaction) → List (Except LedgerError Receipt) × Ledger
  | [] => ([], l)
  | x :: rest =>
    let (result, l) := (l.under (outages 0)).attempt x
    let (results, l) := applyEachUnder l (fun i => outages (i + 1)) rest
    (result :: results, l)

def executeBatchUnder (l : Ledger) (outages : Nat → Access → Bool)
    (requests : List (Address × Call)) : List (Except LedgerError Receipt) × Ledger :=
  let (seeds, source) := l.seeds.drawMany requests.length
  { l with seeds := source }.applyEachUnder outages (List.zipWith prepare requests seeds)

def executeEachUnder (l : Ledger) (outages : Nat → Access → Bool) :
    List (Address × Call) → List (Except LedgerError Receipt) × Ledger
  | [] => ([], l)
  | (caller, call) :: rest =>
    let (result, l) := (l.under (outages 0)).execute caller call
    let (results, l) := executeEachUnder l (fun i => outages (i + 1)) rest
    (result :: results, l)

def receipted (xs : List (Except LedgerError Transaction))
    (results : List (Except LedgerError Receipt)) : List Transaction :=
  (xs.zip results).filterMap fun
    | (.ok tx, .ok _) => some tx
    | _ => none

/-! ## Nothing that is applied draws a seed -/

theorem apply_seeds (l : Ledger) (seeds : SeedSource) (tx : Transaction) :
    { l with seeds := seeds }.apply tx =
      ((l.apply tx).1, { (l.apply tx).2 with seeds := seeds }) := by
  unfold apply
  cases l.store.stage tx with
  | error e => rfl
  | ok c =>
    cases hcommit : l.store.commit c with
    | error e => simp only [hcommit]
    | ok s => cases hheight : s.height <;> simp only [hcommit, hheight]

theorem attempt_seeds (l : Ledger) (seeds : SeedSource) (x : Except LedgerError Transaction) :
    { l with seeds := seeds }.attempt x =
      ((l.attempt x).1, { (l.attempt x).2 with seeds := seeds }) := by
  cases x with
  | error e => rfl
  | ok tx => exact apply_seeds l seeds tx

theorem applyEachUnder_cons (l : Ledger) (outages : Nat → Access → Bool)
    (x : Except LedgerError Transaction) (xs : List (Except LedgerError Transaction)) :
    l.applyEachUnder outages (x :: xs) =
      (((l.under (outages 0)).attempt x).1 ::
        (((l.under (outages 0)).attempt x).2.applyEachUnder (fun i => outages (i + 1)) xs).1,
      (((l.under (outages 0)).attempt x).2.applyEachUnder (fun i => outages (i + 1)) xs).2) := rfl

theorem executeBatchUnder_cons (l : Ledger) (outages : Nat → Access → Bool)
    (request : Address × Call) (requests : List (Address × Call)) :
    l.executeBatchUnder outages (request :: requests) =
      (((l.under (outages 0)).execute request.1 request.2).1 ::
        (((l.under (outages 0)).execute request.1 request.2).2.executeBatchUnder
          (fun i => outages (i + 1)) requests).1,
      (((l.under (outages 0)).execute request.1 request.2).2.executeBatchUnder
        (fun i => outages (i + 1)) requests).2) := by
  set x := prepare request l.seeds.draw.1
  set source := (l.seeds.draw.2.drawMany requests.length).2
  set answer := (l.under (outages 0)).attempt x
  -- the attempt is the same with the next seed drawn as with all of them
  have hfirst : (l.under (outages 0)).execute request.1 request.2 =
      (answer.1, { answer.2 with seeds := l.seeds.draw.2 }) := by
    rw [execute_eq]
    exact attempt_seeds (l.under (outages 0)) _ x
  have hattempt : ({ l with seeds := source }.under (outages 0)).attempt x =
      (answer.1, { answer.2 with seeds := source }) :=
    attempt_seeds (l.under (outages 0)) source x
  have hbatch : l.executeBatchUnder outages (request :: requests) =
      { l with seeds := source }.applyEachUnder outages
        (x :: List.zipWith prepare requests (l.seeds.draw.2.drawMany requests.length).1) := rfl
  rw [hbatch, applyEachUnder_cons, hattempt, hfirst]
  rfl

theorem executeBatchUnder_eq (l : Ledger) (outages : Nat → Access → Bool)
    (requests : List (Address × Call)) :
    l.executeBatchUnder outages requests = l.executeEachUnder outages requests := by
  induction requests generalizing l outages with
  | nil => rfl
  | cons request requests ih =>
    rw [executeBatchUnder_cons, ih]
    rfl

/-! ## One store for all requests -/

theorem apply_outage (l : Ledger) (tx : Transaction) :
    (l.apply tx).2.store.outage = l.store.outage := by
  rcases l.apply_kept_or_written tx with ⟨e, happly⟩ | ⟨v, hcommits⟩
  · rw [happly]
  · rw [apply_of_commits hcommits]

theorem attempt_outage (l : Ledger) (x : Except LedgerError Transaction) :
    (l.attempt x).2.store.outage = l.store.outage := by
  cases x with
  | error e => rfl
  | ok tx => exact apply_outage l tx

theorem applyEach_eq_under (l : Ledger) (xs : List (Except LedgerError Transaction)) :
    l.applyEach xs = l.applyEachUnder (fun _ => l.store.outage) xs := by
  induction xs generalizing l with
  | nil => rfl
  | cons x xs ih =>
    have hunder : l.under l.store.outage = l := rfl
    rw [applyEach_cons, ih, applyEachUnder_cons, hunder, attempt_outage]

theorem executeBatch_eq_under (l : Ledger) (requests : List (Address × Call)) :
    l.executeBatch requests = l.executeBatchUnder (fun _ => l.store.outage) requests :=
  applyEach_eq_under _ _

theorem executeEach_eq_under (l : Ledger) (requests : List (Address × Call)) :
    l.executeEach requests = l.executeEachUnder (fun _ => l.store.outage) requests := by
  induction requests generalizing l with
  | nil => rfl
  | cons request requests ih =>
    have hunder : l.under l.store.outage = l := rfl
    have houtage : (l.execute request.1 request.2).2.store.outage = l.store.outage := by
      rw [execute_eq, attempt_outage]
    rw [executeEach, executeEachUnder, hunder]
    simp only [ih, houtage]

theorem executeBatch_eq (l : Ledger) (requests : List (Address × Call)) :
    l.executeBatch requests = l.executeEach requests := by
  rw [executeBatch_eq_under, executeBatchUnder_eq, executeEach_eq_under]

/-! ## Rejected requests can be left out -/

theorem apply_ofVault (v : Vault) (seeds : SeedSource) (tx : Transaction) :
    (∃ e, (ofVault v seeds).apply tx = (.error e, ofVault v seeds)) ∨
      ∃ r v', (ofVault v seeds).apply tx = (.ok r, ofVault v' seeds) := by
  rcases (ofVault v seeds).apply_kept_or_written tx with hrejected | ⟨v', hcommits⟩
  · exact .inl hrejected
  · exact .inr ⟨_, v', apply_of_commits hcommits⟩

theorem receipted_ok (tx : Transaction) (xs : List (Except LedgerError Transaction)) (r : Receipt)
    (results : List (Except LedgerError Receipt)) :
    receipted (.ok tx :: xs) (.ok r :: results) = tx :: receipted xs results := rfl

theorem applyEach_receipted (v : Vault) (seeds : SeedSource)
    (xs : List (Except LedgerError Transaction)) :
    (ofVault v seeds).applyEach
        ((receipted xs ((ofVault v seeds).applyEach xs).1).map Except.ok) =
      (((ofVault v seeds).applyEach xs).1.filter Except.isOk,
        ((ofVault v seeds).applyEach xs).2) := by
  induction xs generalizing v with
  | nil => rfl
  | cons x xs ih =>
    cases x with
    | error e => exact ih v
    | ok tx =>
      rcases apply_ofVault v seeds tx with ⟨e, happly⟩ | ⟨r, v', happly⟩
      · -- the transaction is left out, and the ledger is as it was
        have hattempt : (ofVault v seeds).applyEach (.ok tx :: xs) =
            (.error e :: ((ofVault v seeds).applyEach xs).1, ((ofVault v seeds).applyEach xs).2) := by
          rw [applyEach_cons, attempt, happly]
        rw [hattempt]
        exact ih v
      · have hattempt (ys : List (Except LedgerError Transaction)) :
            (ofVault v seeds).applyEach (.ok tx :: ys) =
            (.ok r :: ((ofVault v' seeds).applyEach ys).1, ((ofVault v' seeds).applyEach ys).2) := by
          rw [applyEach_cons, attempt, happly]
        rw [hattempt xs, receipted_ok, List.map_cons, hattempt, ih v']
        rfl

theorem applyEach_seeds (l : Ledger) (seeds : SeedSource)
    (xs : List (Except LedgerError Transaction)) :
    { l with seeds := seeds }.applyEach xs =
      ((l.applyEach xs).1, { (l.applyEach xs).2 with seeds := seeds }) := by
  induction xs generalizing l with
  | nil => rfl
  | cons x xs ih => rw [applyEach_cons, attempt_seeds, ih, applyEach_cons]

/-- A batch is its calls one after another, whichever draws fail, and what it leaves in
the store comes from the accepted transactions alone. -/
theorem executeBatch_sequential (v : Vault) (seeds : SeedSource)
    (requests : List (Address × Call)) :
    let l := ofVault v seeds
    let answer := l.executeBatch requests
    let accepted := receipted (l.attempts (.executeBatch requests)).1 answer.1
    answer = l.executeEach requests ∧
      l.applyEach (accepted.map .ok) =
        (answer.1.filter Except.isOk, { answer.2 with seeds := seeds }) := by
  intro l answer accepted
  have happly : (ofVault v (seeds.drawMany requests.length).2).applyEach (accepted.map .ok) =
      (answer.1.filter Except.isOk, answer.2) := applyEach_receipted v _ _
  refine ⟨executeBatch_eq l requests, ?_⟩
  have hseeds := applyEach_seeds (ofVault v (seeds.drawMany requests.length).2) seeds
    (accepted.map .ok)
  rw [happly] at hseeds
  exact hseeds

end Ledger

end TokenLedger
