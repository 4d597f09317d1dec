import Mathlib.Data.List.Dedup
import TokenLedger.Proofs.Naming
import TokenLedger.Proofs.Wealth

/-!
# Commands do what the ledger does

A query leaves the ledger as it is. Any other command finds the live records
that its commitments name, or is refused for the first that is not live, then
asks for a caller, and is executed; what is printed is the receipt. Only what
is accepted changes the store, so a state file needs to be written for nothing
else.
-/

set_option autoImplicit false

namespace TokenLedger

namespace Ledger

def Live (l : Ledger) (c : Commitment) (t : Token) : Prop :=
  t.commitment = c ∧ ∃ ts, l.recordsOf t.owner = .ok ts ∧ t ∈ ts

inductive Refuses (l : Ledger) (c : Commitment) : LedgerError → Prop where
  | unknown (h : l.store.hasRecord c = .ok false) : Refuses l c (.unknownRecord c)
  | spent (h : l.store.hasRecord c = .ok true) (hs : l.store.isSpent c.serial = .ok true) :
      Refuses l c (.alreadySpent c)

variable {v : Vault} {c : Commitment} {t : Token}

theorem live_of_token? (hg : v.Genuine) (seeds : SeedSource) (hstored : t ∈ v.issued)
    (htoken : v.token? t.commitment = some t) (hunspent : v.isSpent t.serial = false) :
    (ofVault v seeds).Live t.commitment t := by
  refine ⟨rfl, _, recordsOf_genuine hg seeds t.owner, Vault.mem_unspent.2 ⟨?_, hunspent⟩⟩
  refine List.mem_filterMap.2 ⟨t.commitment, List.mem_map.2 ⟨t.stored, ?_, rfl⟩, htoken⟩
  exact List.mem_filter.2 ⟨hg.mem_issued.1 hstored, decide_eq_true rfl⟩

theorem unspentRecord_live (hg : v.Genuine) (seeds : SeedSource) (c : Commitment) :
    (∃ t, (ofVault v seeds).unspentRecord c = .ok t ∧ (ofVault v seeds).Live c t) ∨
      ∃ e, (ofVault v seeds).unspentRecord c = .error e ∧ (ofVault v seeds).Refuses c e := by
  have hhas : (ofVault v seeds).store.hasRecord c = .ok (v.hasRecord c) := rfl
  have hspent : (ofVault v seeds).store.isSpent c.serial = .ok (v.isSpent c.serial) := rfl
  rw [unspentRecord, hhas, hspent, Answers.liftStore_ok, Answers.liftStore_ok, Answers.ok_bind]
  cases hknown : v.hasRecord c with
  | false => exact .inr ⟨_, rfl, .unknown (hhas.trans (congrArg Except.ok hknown))⟩
  | true =>
    rw [hknown] at hhas
    cases hpublished : v.isSpent c.serial with
    | true => exact .inr ⟨_, rfl, .spent hhas (hspent.trans (congrArg Except.ok hpublished))⟩
    | false =>
      obtain ⟨t, ht, rfl, hrecord, htoken⟩ := hg.stored_of_hasRecord hknown
      exact .inl ⟨t, load_of_record? seeds hrecord, live_of_token? hg seeds ht htoken hpublished⟩

theorem execute_cases (hv : v.Ordered) (seeds : SeedSource) (a : Address) (call : Call) :
    (∃ e, (ofVault v seeds).execute a call = (.error e, ofVault v seeds.draw.2)) ∨
      ∃ tx v', v.Outcome tx v' ∧ (ofVault v seeds).execute a call =
        (.ok ⟨tx.id, tx.function, tx.outputs, tx.value, v'.height⟩, ofVault v' seeds.draw.2) := by
  have hattempt : (ofVault v seeds).execute a call =
      (ofVault v seeds.draw.2).attempt (prepare (a, call) seeds.draw.1) := execute_eq _ a call
  rw [hattempt]
  cases prepare (a, call) seeds.draw.1 with
  | error e => exact .inl ⟨e, rfl⟩
  | ok tx =>
    rcases v.admissible_or_violates tx with ha | ⟨e, hviolates⟩
    · obtain ⟨v', hout, happly⟩ := apply_of_admissible hv ha seeds.draw.2
      exact .inr ⟨tx, v', hout, happly⟩
    · exact .inl ⟨e, apply_of_violates hv hviolates seeds.draw.2⟩

end Ledger

namespace Command

def named : Command → List Commitment
  | transferPrivate _ _ c | transferPrivateToPublic _ _ c => [c]
  | join c c' => [c, c']
  | mint _ | transferPublicToPrivate _ _ | mintPublic _ _ | transferPublic _ _ | gate _ _
  | balance _ | records _ | snapshot => []

/-- The call of a command, with live records for the commitments. -/
inductive Fills (l : Ledger) : Command → Call → Prop where
  | mint (n : UInt64) : Fills l (.mint n) (.mint n)
  | transferPrivate (a : Address) (n : UInt64) {c : Commitment} {t : Token} (h : l.Live c t) :
      Fills l (.transferPrivate a n c) (.transferPrivate a n t)
  | transferPrivateToPublic (a : Address) (n : UInt64) {c : Commitment} {t : Token}
      (h : l.Live c t) : Fills l (.transferPrivateToPublic a n c) (.transferPrivateToPublic a n t)
  | transferPublicToPrivate (a : Address) (n : UInt64) :
      Fills l (.transferPublicToPrivate a n) (.transferPublicToPrivate a n)
  | join {c c' : Commitment} {t t' : Token} (h : l.Live c t) (h' : l.Live c' t') :
      Fills l (.join c c') (.join t t')
  | mintPublic (a : Address) (n : UInt64) : Fills l (.mintPublic a n) (.mintPublic a n)
  | transferPublic (a : Address) (n : UInt64) :
      Fills l (.transferPublic a n) (.transferPublic a n)
  | gate (x y : Scalar) : Fills l (.gate x y) (.gate x y)

inductive Rejects (l : Ledger) (c : Command) (e : LedgerError) : Prop where
  | mk {before after : List Commitment} {d : Commitment} (hnamed : c.named = before ++ d :: after)
      (hlive : ∀ d' ∈ before, ∃ t, l.Live d' t) (h : l.Refuses d e) : Rejects l c e

variable {v : Vault}

theorem live_cases (hg : v.Genuine) (seeds : SeedSource) (d : Commitment) :
    (∃ t, live (Ledger.ofVault v seeds) d = .ok t ∧ (Ledger.ofVault v seeds).Live d t) ∨
      ∃ e, live (Ledger.ofVault v seeds) d = .error (.ledger e) ∧
        (Ledger.ofVault v seeds).Refuses d e := by
  rw [live]
  rcases Ledger.unspentRecord_live hg seeds d with ⟨t, hfound, hlive⟩ | ⟨e, hfound, hrefuses⟩
  · exact .inl ⟨t, by rw [hfound, Answers.mapError_ok], hlive⟩
  · exact .inr ⟨e, by rw [hfound, Answers.mapError_error], hrefuses⟩

theorem plan_of_record (hg : v.Genuine) (seeds : SeedSource) (caller : Option Address)
    {c : Command} {d : Commitment} {call : Token → Call}
    (hplan : c.plan (Ledger.ofVault v seeds) caller = do
      return .call (call (← live (Ledger.ofVault v seeds) d)))
    (hnamed : c.named = [d])
    (hfills : ∀ t, (Ledger.ofVault v seeds).Live d t → c.Fills (Ledger.ofVault v seeds) (call t)) :
    (∃ call, c.plan (Ledger.ofVault v seeds) caller = .ok (.call call) ∧
        c.Fills (Ledger.ofVault v seeds) call) ∨
      ∃ e, c.plan (Ledger.ofVault v seeds) caller = .error (.ledger e) ∧
        c.Rejects (Ledger.ofVault v seeds) e := by
  rw [hplan]
  rcases live_cases hg seeds d with ⟨t, hfound, hlive⟩ | ⟨e, hfound, hrefuses⟩
  · rw [hfound]
    exact .inl ⟨call t, rfl, hfills t hlive⟩
  · rw [hfound]
    exact .inr ⟨e, rfl, .mk (show c.named = [] ++ d :: [] from hnamed) nofun hrefuses⟩

theorem plan_of_call (hg : v.Genuine) (seeds : SeedSource) (caller : Option Address) {c : Command}
    (hc : c.isQuery = false) :
    (∃ call, c.plan (Ledger.ofVault v seeds) caller = .ok (.call call) ∧
        c.Fills (Ledger.ofVault v seeds) call) ∨
      ∃ e, c.plan (Ledger.ofVault v seeds) caller = .error (.ledger e) ∧
        c.Rejects (Ledger.ofVault v seeds) e := by
  cases c with
  | balance _ | records _ | snapshot => cases hc
  | mint n => exact .inl ⟨_, rfl, .mint n⟩
  | transferPublicToPrivate a n => exact .inl ⟨_, rfl, .transferPublicToPrivate a n⟩
  | mintPublic a n => exact .inl ⟨_, rfl, .mintPublic a n⟩
  | transferPublic a n => exact .inl ⟨_, rfl, .transferPublic a n⟩
  | gate x y => exact .inl ⟨_, rfl, .gate x y⟩
  | transferPrivate a n d =>
    exact plan_of_record hg seeds caller rfl rfl fun _ hlive => .transferPrivate a n hlive
  | transferPrivateToPublic a n d =>
    exact plan_of_record hg seeds caller rfl rfl fun _ hlive => .transferPrivateToPublic a n hlive
  | join d d' =>
    rw [plan]
    rcases live_cases hg seeds d with ⟨t, hfound, hlive⟩ | ⟨e, hfound, hrefuses⟩
    · rw [hfound]
      rcases live_cases hg seeds d' with ⟨t', hfound', hlive'⟩ | ⟨e, hfound', hrefuses⟩
      · rw [hfound']
        exact .inl ⟨_, rfl, .join hlive hlive'⟩
      · rw [hfound']
        refine .inr ⟨e, rfl, .mk (show [d, d'] = [d] ++ d' :: [] from rfl) ?_ hrefuses⟩
        intro x hx
        rw [List.mem_singleton.1 hx]
        exact ⟨t, hlive⟩
    · rw [hfound]
      exact .inr ⟨e, rfl, .mk (show [d, d'] = [] ++ d :: [d'] from rfl) nofun hrefuses⟩

theorem plan_of_query {l : Ledger} {caller : Option Address} {c : Command}
    (hc : c.isQuery = true) {p : Plan} (h : c.plan l caller = .ok p) : ∃ j, p = .answer j := by
  cases c with
  | balance account =>
    obtain ⟨a, -, h⟩ := Answers.bind_eq_ok.1 h
    obtain ⟨n, -, h⟩ := Answers.bind_eq_ok.1 h
    cases h
    exact ⟨_, rfl⟩
  | records owner =>
    obtain ⟨a, -, h⟩ := Answers.bind_eq_ok.1 h
    obtain ⟨ts, -, h⟩ := Answers.bind_eq_ok.1 h
    cases h
    exact ⟨_, rfl⟩
  | snapshot =>
    obtain ⟨s, -, h⟩ := Answers.bind_eq_ok.1 h
    cases h
    exact ⟨_, rfl⟩
  | _ => cases hc

theorem run_of_query {l : Ledger} {caller : Option Address} {c : Command}
    (hc : c.isQuery = true) : (c.run l caller).2 = l := by
  cases hplan : c.plan l caller with
  | error e => rw [run_of_error hplan]
  | ok p =>
    obtain ⟨j, rfl⟩ := plan_of_query hc hplan
    rw [run_of_answer hplan]

end Command

/-- A call is accepted: the receipt, the ledger after it, and what the receipt is good for.
The height goes up by one as a word does, so after the last word it is zero. -/
structure Ledger.Executes (l : Ledger) (a : Address) (call : Call) (r : Receipt) (l' : Ledger) :
    Prop where
  execute : l.execute a call = (.ok r, l')
  height : ∃ n, l.height = .ok n ∧ r.height = n + 1 ∧ l'.height = .ok (n + 1)
  names : ∀ t ∈ r.outputs, l'.Names t

theorem Ledger.executes_of_ok {v : Vault} (hv : v.Ordered) (hg : v.Genuine) {seeds : SeedSource}
    {a : Address} {call : Call} {r : Receipt} (h : ((ofVault v seeds).execute a call).1 = .ok r) :
    (ofVault v seeds).Executes a call r ((ofVault v seeds).execute a call).2 := by
  rcases execute_cases hv seeds a call with ⟨e, hexecute⟩ | ⟨tx, v', hout, hexecute⟩
  · rw [hexecute] at h
    cases h
  · rw [hexecute] at h ⊢
    cases h
    have hheight := hout.height
    refine ⟨hexecute, ⟨v.height, rfl, hheight, congrArg Except.ok hheight⟩, fun t ht => ?_⟩
    have hg' := hout.genuine hg
    refine names_of_mem hout.ordered hg' (hg'.mem_issued.2 ?_) seeds.draw.2
    rw [hout.records]
    exact List.mem_append_right _ (List.mem_map_of_mem ht)

def Json.member? (k : String) : Json → Option Json
  | object members => members.lookup k
  | _ => none

namespace Command

structure Shows (j : Json) (t : Token) : Prop where
  commitment : j.member? "commitment" = some (.text t.commitment.text)
  named : record? t.commitment.text = some t.commitment
  owner : j.member? "owner" = some (.text t.owner.text)
  balance : j.member? "balance" = some (.nat t.balance.toNat)

/-- A receipt is printed: every part of it stands under its key, and reads back. -/
structure Prints (j : Json) (r : Receipt) : Prop where
  transition : j.member? "transition" = some (.text r.id.text)
  identified : TransitionId.parse r.id.text = .ok r.id
  function : j.member? "function" = some (.text r.function.name)
  height : j.member? "height" = some (.nat r.height.toNat)
  records : ∃ views, j.member? "records" = some (.array views) ∧
    List.Forall₂ Shows views r.outputs
  valueless : r.value = none → j.member? "value" = some .null
  value : ∀ x, r.value = some x →
    j.member? "value" = some (.text x.text) ∧ element? x.text = some x

structure Lists (j : Json) (a : Address) (ts : List Token) : Prop where
  owner : j.member? "owner" = some (.text a.text)
  records : ∃ views, j.member? "records" = some (.array views) ∧ List.Forall₂ Shows views ts

theorem shows_tokenJson (t : Token) : Shows (tokenJson t) t where
  commitment := rfl
  named := by
    rw [record?, Commitment.parse, Commitment.text, Digest.parse_text]
    rfl
  owner := rfl
  balance := rfl

theorem shows_map_tokenJson (ts : List Token) : List.Forall₂ Shows (ts.map tokenJson) ts := by
  rw [List.forall₂_map_left_iff, List.forall₂_same]
  exact fun t _ => shows_tokenJson t

theorem prints_receiptJson (r : Receipt) : Prints (receiptJson r) r where
  transition := rfl
  identified := by
    rw [TransitionId.parse, TransitionId.text, Digest.parse_text]
    rfl
  function := rfl
  height := rfl
  records := ⟨_, rfl, shows_map_tokenJson r.outputs⟩
  valueless h := by
    rw [receiptJson, h]
    rfl
  value x h := by
    rw [receiptJson, h, element?, Scalar.parse_text]
    exact ⟨rfl, rfl⟩

/-- What a command that is no query comes to: it is rejected for a record, then for want of a
caller, and otherwise executed as a call, which is refused or printed as accepted. -/
inductive Submits (l : Ledger) (caller : Option Address) (c : Command) :
    Except CommandError Json × Ledger → Prop where
  | rejected {e : LedgerError} (h : c.Rejects l e) : Submits l caller c (.error (.ledger e), l)
  | noCaller {call : Call} (h : c.Fills l call) (hc : caller = none) :
      Submits l caller c (.error .noCaller, l)
  | refused {call : Call} {a : Address} {e : LedgerError} (h : c.Fills l call)
      (hc : caller = some a) (he : (l.execute a call).1 = .error e) :
      Submits l caller c (.error (.ledger e), (l.execute a call).2)
  | accepted {call : Call} {a : Address} {r : Receipt} {j : Json} (h : c.Fills l call)
      (hc : caller = some a) (hr : (l.execute a call).1 = .ok r) (hj : Prints j r) :
      Submits l caller c (.ok j, (l.execute a call).2)

/-- A command does to a ledger, and prints, what the ledger does by itself. -/
structure Refines (l : Ledger) (caller : Option Address) (c : Command) : Prop where
  query : c.isQuery = true → (c.run l caller).2 = l
  submits : c.isQuery = false → Submits l caller c (c.run l caller)
  accepted : c.isQuery = false → ∀ j, (c.run l caller).1 = .ok j →
    ∃ a call r, caller = some a ∧ c.Fills l call ∧ l.Executes a call r (c.run l caller).2 ∧
      Prints j r
  listed : ∀ owner j, c = .records owner → (c.run l caller).1 = .ok j →
    ∃ a ts, owner.or caller = some a ∧ l.recordsOf a = .ok ts ∧ Lists j a ts ∧
      ∀ t ∈ ts, l.Names t
  failed : ∀ e, (c.run l caller).1 = .error e → (c.run l caller).2.store = l.store
  unsaved : (c.isQuery = true ∨ ∃ e, (c.run l caller).1 = .error e) →
    StateFile.content (c.run l caller).2 = StateFile.content l

variable {v : Vault} {l : Ledger} {caller : Option Address} {c : Command}

theorem run_submits (hg : v.Genuine) (seeds : SeedSource) (caller : Option Address)
    (hc : c.isQuery = false) :
    Submits (Ledger.ofVault v seeds) caller c (c.run (Ledger.ofVault v seeds) caller) := by
  rcases plan_of_call hg seeds caller hc with ⟨call, hplan, hfills⟩ | ⟨e, hplan, hrejects⟩
  · cases caller with
    | none =>
      rw [run_none hplan]
      exact .noCaller hfills rfl
    | some a =>
      rw [run_some hplan]
      cases hresult : ((Ledger.ofVault v seeds).execute a call).1 with
      | error e => exact .refused hfills rfl hresult
      | ok r => exact .accepted hfills rfl hresult (prints_receiptJson r)
  · rw [run_of_error hplan]
    exact .rejected hrejects

theorem ok_of_submits {result : Except CommandError Json × Ledger}
    (h : Submits l caller c result) {j : Json} (hj : result.1 = .ok j) :
    ∃ a call r, caller = some a ∧ c.Fills l call ∧ (l.execute a call).1 = .ok r ∧
      result.2 = (l.execute a call).2 ∧ Prints j r := by
  cases h with
  | rejected h => cases hj
  | noCaller h hc => cases hj
  | refused h hc he => cases hj
  | accepted h hc hr hprints =>
    cases hj
    exact ⟨_, _, _, hc, h, hr, rfl, hprints⟩

theorem store_of_submits (hv : v.Ordered) {seeds : SeedSource}
    {result : Except CommandError Json × Ledger}
    (h : Submits (Ledger.ofVault v seeds) caller c result) {e : CommandError}
    (he : result.1 = .error e) : result.2.store = Store.ofVault v := by
  cases h with
  | rejected h => rfl
  | noCaller h hc => rfl
  | @refused call a e h hc hrefused =>
    rcases Ledger.execute_cases hv seeds a call with ⟨e', hexecute⟩ | ⟨tx, v', -, hexecute⟩
    · rw [hexecute]
      rfl
    · rw [hexecute] at hrefused
      cases hrefused
  | accepted h hc hr hprints => cases he

theorem mem_issued_of_recordsOf (hg : v.Genuine) {seeds : SeedSource} {a : Address}
    {ts : List Token} (h : (Ledger.ofVault v seeds).recordsOf a = .ok ts) {t : Token}
    (ht : t ∈ ts) : t ∈ v.issued := by
  rw [Ledger.recordsOf_genuine hg] at h
  cases h
  obtain ⟨c, hc, htoken⟩ := List.mem_filterMap.1 (Vault.mem_unspent.1 ht).1
  obtain ⟨u, hu, -, -, hread⟩ := hg.stored_of_hasRecord (Vault.hasRecord_of_mem_recordsOf hc)
  rw [hread] at htoken
  cases htoken
  exact hu

theorem content_of_store {l l' : Ledger} (h : l'.store = l.store) :
    StateFile.content l' = StateFile.content l := by
  obtain ⟨store, seeds⟩ := l
  obtain ⟨store', seeds'⟩ := l'
  cases h
  rfl

theorem listed_of_ok (hv : v.Ordered) (hg : v.Genuine) {seeds : SeedSource}
    {caller owner : Option Address} {j : Json}
    (h : (run (Ledger.ofVault v seeds) caller (.records owner)).1 = .ok j) :
    ∃ a ts, owner.or caller = some a ∧ (Ledger.ofVault v seeds).recordsOf a = .ok ts ∧
      Lists j a ts ∧ ∀ t ∈ ts, (Ledger.ofVault v seeds).Names t := by
  cases hplan : plan (Ledger.ofVault v seeds) caller (.records owner) with
  | error e =>
    rw [run_of_error hplan] at h
    cases h
  | ok p =>
    obtain ⟨a, hsubject, hanswer⟩ := Answers.bind_eq_ok.1 hplan
    obtain ⟨ts, hts, hanswer⟩ := Answers.bind_eq_ok.1 hanswer
    cases hanswer
    rw [run_of_answer hplan] at h
    cases h
    refine ⟨a, ts, ?_, Answers.mapError_eq_ok.1 hts, ⟨rfl, _, rfl, shows_map_tokenJson ts⟩, ?_⟩
    · rw [subject] at hsubject
      split at hsubject
      · next a' ha =>
        cases hsubject
        exact ha
      · cases hsubject
    · intro t ht
      have hmem := mem_issued_of_recordsOf hg (Answers.mapError_eq_ok.1 hts) ht
      exact Ledger.names_of_mem hv hg hmem seeds

theorem refines_of_reached {l : Ledger} (hl : l.Reached) (caller : Option Address) (c : Command) :
    Refines l caller c := by
  obtain ⟨v, seeds, rfl, hv, hg⟩ := hl.vault
  have hfailed (e : CommandError) (he : (c.run (Ledger.ofVault v seeds) caller).1 = .error e) :
      (c.run (Ledger.ofVault v seeds) caller).2.store = Store.ofVault v := by
    cases hc : c.isQuery with
    | true =>
      rw [run_of_query hc]
      rfl
    | false => exact store_of_submits hv (run_submits hg seeds caller hc) he
  refine ⟨run_of_query, run_submits hg seeds caller, ?_, ?_, hfailed, ?_⟩
  · intro hc j hj
    obtain ⟨a, call, r, hcaller, hfills, hr, hafter, hprints⟩ :=
      ok_of_submits (run_submits hg seeds caller hc) hj
    rw [hafter]
    exact ⟨a, call, r, hcaller, hfills, Ledger.executes_of_ok hv hg hr, hprints⟩
  · rintro owner j rfl hj
    exact listed_of_ok hv hg hj
  · rintro (h | ⟨e, he⟩)
    · rw [run_of_query h]
    · exact content_of_store (hfailed e he)

end Command

namespace Sample

def purse : Ledger :=
  ((Ledger.ofVault Vault.empty seeds).perform (.executeWith minting (.mint 100))).2

def payCommand : Command := .transferPrivate receiver 60 minted.commitment

end Sample

theorem Command.refines_payment :
    Sample.purse.Reached ∧
      (Sample.payCommand.run Sample.purse (some Sample.owner)).1.toOption.isSome = true ∧
      CollisionFree (Sample.purse.store.vault.strings ++
        (Sample.payCommand.admitted Sample.purse (some Sample.owner)).strings) ∧
      Refines Sample.purse (some Sample.owner) Sample.payCommand := by
  have hreached : Sample.purse.Reached := (Ledger.Reached.empty Sample.seeds).perform _
  refine ⟨hreached, by decide +kernel, ?_, refines_of_reached hreached _ _⟩
  exact collisionFree_of_nodup (fun _ => List.mem_dedup.2) (by decide +kernel)

end TokenLedger
