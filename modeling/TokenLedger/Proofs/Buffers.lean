import Mathlib.Algebra.BigOperators.Finprod
import TokenLedger.Proofs.Accounts
import TokenLedger.Proofs.Ordering

/-!
# Settlements through one buffer

Changes gathered over a vault stand for balances: under every account the one
written last, or else the stored one. A settlement finds these balances and
moves them as it would move the balances of a vault, whatever was gathered
before. Settlements through one buffer that is committed at the end therefore
lead where they lead when each of them is committed by itself.
-/

set_option autoImplicit false

namespace TokenLedger

/-! ## The sum over all accounts -/

noncomputable def Accounts.total (accounts : Accounts) : Int :=
  ∑ᶠ key, (((accounts key).getD 0).toNat : Int)

namespace Balances

variable {m : Balances}

theorem mem_keys_of_listed {key : Address} (h : m.accounts key ≠ none) : key ∈ m.map Prod.fst := by
  by_contra hmem
  exact h (find?_eq_none fun p hp heq => hmem (List.mem_map.2 ⟨p, hp, heq⟩))

theorem finite_listed (m : Balances) : {key | m.accounts key ≠ none}.Finite :=
  (m.map Prod.fst).toFinset.finite_toSet.subset fun _ h => List.mem_toFinset.2 (mem_keys_of_listed h)

theorem sum_keys (h : (m.map Prod.fst).Nodup) :
    ∑ key ∈ (m.map Prod.fst).toFinset, amount key m = m.total := by
  induction m with
  | nil => rfl
  | cons p m ih =>
    obtain ⟨hp, hm⟩ := List.nodup_cons.1 h
    have hself : amount p.1 (p :: m) = p.2.toNat := by rw [amount, find?, if_pos rfl]; rfl
    have hrest : ∀ key ∈ (m.map Prod.fst).toFinset, amount key (p :: m) = amount key m := by
      intro key hkey
      have hne : p.1 ≠ key := fun heq => hp (heq ▸ List.mem_toFinset.1 hkey)
      rw [amount, find?, if_neg hne, amount]
    rw [List.map_cons, List.toFinset_cons, Finset.sum_insert (mt List.mem_toFinset.1 hp), hself,
      Finset.sum_congr rfl hrest, ih hm, total]

theorem total_accounts (h : m.Ordered) : m.accounts.total = m.total := by
  have hsupport : Function.support (fun key => (((m.accounts key).getD 0).toNat : Int)) ⊆
      (m.map Prod.fst).toFinset := by
    intro key hkey
    refine List.mem_toFinset.2 (mem_keys_of_listed fun hnone => hkey ?_)
    simp [hnone]
  rw [Accounts.total, finsum_eq_sum_of_support_subset _ hsupport, ← sum_keys h.nodup_keys,
    Nat.cast_sum]
  rfl

theorem settle_append (m : Balances) (ms ns : List Move) :
    m.settle (ms ++ ns) = (do (← m.settle ms).settle ns) := by
  induction ms generalizing m with
  | nil => rfl
  | cons mv ms ih =>
    simp only [List.cons_append, settle]
    cases m.move mv with
    | error e => rfl
    | ok m₁ => exact ih m₁

end Balances

namespace Overlay

def seen (o : Overlay) : Accounts := fun key =>
  (o.changes.written? key).or (o.store.vault.balance? key)

/-! ## What fills a buffer -/

def made (o : Overlay) : List Move → List Move
  | [] => []
  | m :: ms =>
    match o.move m with
    | .ok o => m :: o.made ms
    | .error _ => []

def settleAll (o : Overlay) : List Settlement → Overlay × Except ProgramError Unit
  | [] => (o, .ok ())
  | s :: ss =>
    match o.settle s with
    | (o, .ok ()) => o.settleAll ss
    | (o, .error e) => (o, .error e)

theorem move_eq_set {o o' : Overlay} {mv : Move} (h : o.move mv = .ok o') :
    ∃ value, o' = o.set mv.key value := by
  cases mv with
  | credit key amount =>
    obtain ⟨current, -, h⟩ := Answers.bind_eq_ok.1 h
    obtain ⟨value, -, h⟩ := Answers.bind_eq_ok.1 h
    cases h
    exact ⟨value, rfl⟩
  | debit key amount =>
    obtain ⟨current, -, h⟩ := Answers.bind_eq_ok.1 h
    obtain ⟨value, -, h⟩ := Answers.bind_eq_ok.1 h
    cases h
    exact ⟨value, rfl⟩

theorem run_append (o : Overlay) (ms ns : List Move) :
    o.run (ms ++ ns) = match o.run ms with
      | (o', .ok ()) => o'.run ns
      | (o', .error e) => (o', .error e) := by
  induction ms generalizing o with
  | nil => rfl
  | cons mv ms ih =>
    simp only [List.cons_append, run]
    cases o.move mv with
    | error e => rfl
    | ok o' => exact ih o'

theorem settleAll_eq_run (o : Overlay) (ss : List Settlement) :
    o.settleAll ss = o.run (ss.flatMap Settlement.moves) := by
  induction ss generalizing o with
  | nil => rfl
  | cons s ss ih =>
    rw [settleAll, List.flatMap_cons, run_append, settle]
    cases o.run s.moves with
    | mk o' r =>
      cases r with
      | error e => rfl
      | ok u => exact ih o'

theorem made_of_ok {o : Overlay} {ms : List Move} (h : (o.run ms).2 = .ok ()) : o.made ms = ms := by
  induction ms generalizing o with
  | nil => rfl
  | cons mv ms ih =>
    rw [run] at h
    rw [made]
    cases hmove : o.move mv with
    | error e => simp [hmove] at h
    | ok o' =>
      rw [hmove] at h
      exact congrArg (mv :: ·) (ih h)

theorem keys_set {o : Overlay} {log : List Address}
    (h : o.changes.writes.map Prod.fst = log.eraseDups) (key : Address) (value : UInt64) :
    (o.set key value).changes.writes.map Prod.fst = (log ++ [key]).eraseDups := by
  rw [List.eraseDups_append, ← h]
  show (o.changes.writes.put key value).map Prod.fst = _
  by_cases hkey : key ∈ o.changes.writes.map Prod.fst
  · have hlog : key ∈ log := List.mem_eraseDups.1 (h ▸ hkey)
    rw [Balances.keys_put_of_mem hkey]
    simp [List.removeAll, hlog]
  · have hlog : key ∉ log := fun hmem => hkey (h ▸ List.mem_eraseDups.2 hmem)
    rw [Balances.put_of_not_mem hkey]
    simp [List.removeAll, hlog, List.eraseDups_cons]

theorem keys_run {o : Overlay} {log : List Address}
    (h : o.changes.writes.map Prod.fst = log.eraseDups) (ms : List Move) :
    (o.run ms).1.changes.writes.map Prod.fst = (log ++ (o.made ms).map Move.key).eraseDups := by
  induction ms generalizing o log with
  | nil => rw [made, List.map_nil, List.append_nil]; exact h
  | cons mv ms ih =>
    rw [run, made]
    cases hmove : o.move mv with
    | error e => rw [List.map_nil, List.append_nil]; exact h
    | ok o' =>
      obtain ⟨value, rfl⟩ := move_eq_set hmove
      rw [List.map_cons, List.append_cons]
      exact ih (keys_set h mv.key value)

theorem nodup_run {o : Overlay} (h : (o.changes.writes.map Prod.fst).Nodup) (ms : List Move) :
    ((o.run ms).1.changes.writes.map Prod.fst).Nodup := by
  induction ms generalizing o with
  | nil => exact h
  | cons mv ms ih =>
    rw [run]
    cases hmove : o.move mv with
    | error e => exact h
    | ok o' =>
      obtain ⟨value, rfl⟩ := move_eq_set hmove
      exact ih (Balances.nodup_put h mv.key value)

end Overlay

abbrev Vault.overlay (v : Vault) (c : Changes) : Overlay := ⟨Store.ofVault v, c⟩

/-- Changes filled over a vault by single writes and by settlements, those that
fail included, with the accounts written on the way. -/
inductive Changes.Filled (v : Vault) : Changes → List Address → Prop where
  | blank {c : Changes} (h : c.writes = []) : Filled v c []
  | put {c : Changes} {log : List Address} (h : Filled v c log) (key : Address) (value : UInt64) :
      Filled v (c.put key value) (log ++ [key])
  | settle {c : Changes} {log : List Address} (h : Filled v c log) (s : Settlement) :
      Filled v ((v.overlay c).settle s).1.changes
        (log ++ ((v.overlay c).made s.moves).map Move.key)

namespace Changes.Filled

variable {v : Vault} {c : Changes} {log : List Address}

theorem keys (h : Filled v c log) : c.writes.map Prod.fst = log.eraseDups := by
  induction h with
  | blank h => rw [h]; rfl
  | put _ key value ih => exact Overlay.keys_set (o := v.overlay _) ih key value
  | settle _ s ih => exact Overlay.keys_run (o := v.overlay _) ih s.moves

theorem nodup (h : Filled v c log) : (c.writes.map Prod.fst).Nodup := by
  induction h with
  | blank h => rw [h]; exact List.nodup_nil
  | put _ key value ih => exact Balances.nodup_put ih key value
  | settle _ s ih => exact Overlay.nodup_run (o := v.overlay _) ih s.moves

end Changes.Filled

/-! ## One settlement through a filled buffer -/

namespace Overlay

/-- A settlement succeeds when its moves are enabled on what is seen, and fails
with the first of them that is not. -/
structure Decides (o : Overlay) (s : Settlement) : Prop where
  succeeds : (o.settle s).2 = .ok () ↔ Move.AllEnabled o.seen s.moves
  fails : ∀ e, (o.settle s).2 = .error e ↔ Move.FirstFault o.seen s.moves e
  /-- A debited account that is absent is a failed assertion, all else is arithmetic. -/
  kind : ∀ e, (o.settle s).2 = .error e →
    e.kind = .assertion ∧ (∃ a, s.debited = some a ∧ o.seen a = none) ∨
      e.kind = .arithmetic ∧ ∀ a, s.debited = some a → o.seen a ≠ none

structure Moves (o : Overlay) (s : Settlement) (o' : Overlay) : Prop where
  seen : o'.seen = Move.effects o.seen s.moves
  others : ∀ a ∉ s.moves.map Move.key, o'.seen a = o.seen a
  finite : {a | o.seen a ≠ none}.Finite ∧ {a | o'.seen a ≠ none}.Finite
  total : o'.seen.total = o.seen.total + s.supplyDelta
  toSelf : ∀ a amount, s = .transferPublic a a amount → o'.seen = o.seen

variable {v : Vault} {c : Changes} {o : Overlay} {m : Balances}

theorem over_of_nodup (h : (c.writes.map Prod.fst).Nodup) :
    Over v c (v.overlay c) (v.balances.written c.writes) := ⟨rfl, rfl, rfl, h, rfl⟩

theorem Over.seen (h : Over v c o m) : o.seen = m.accounts := by
  funext key
  rw [← h.balances, Balances.accounts, Balances.find?_written h.keys, Overlay.seen, h.store]
  rfl

theorem Over.ordered (hv : v.balances.Ordered) (h : Over v c o m) : m.Ordered :=
  h.balances ▸ Balances.ordered_written hv _

theorem Over.run_of_allEnabled (hv : v.balances.Ordered) (h : Over v c o m) {ms : List Move}
    (hms : Move.AllEnabled o.seen ms) :
    ∃ o' m', o.run ms = (o', .ok ()) ∧ m.settle ms = .ok m' ∧ Over v c o' m' := by
  rw [h.seen] at hms
  obtain ⟨m', hm', -⟩ := Balances.settle_of_allEnabled hms
  rcases h.run hv ms with ⟨o', e, -, hm⟩ | hrun
  · cases hm'.symm.trans hm
  · exact hrun

theorem Over.run_of_firstFault (hv : v.balances.Ordered) (h : Over v c o m) {ms : List Move}
    {e : ProgramError} (hms : Move.FirstFault o.seen ms e) : (o.run ms).2 = .error e := by
  rw [h.seen] at hms
  have hm' := Balances.settle_of_firstFault hms
  rcases h.run hv ms with ⟨o', e', ho, hm⟩ | ⟨o', m', -, hm, -⟩
  · cases hm'.symm.trans hm
    rw [ho]
  · cases hm'.symm.trans hm

end Overlay

theorem Move.kind_of_firstFault {accounts : Accounts} {s : Settlement} {e : ProgramError}
    (h : FirstFault accounts s.moves e) :
    e.kind = .assertion ∧ (∃ a, s.debited = some a ∧ accounts a = none) ∨
      e.kind = .arithmetic ∧ ∀ a, s.debited = some a → accounts a ≠ none := by
  cases s with
  | transferPrivateToPublic receiver amount | mintPublic receiver amount =>
    rcases h with ⟨⟨⟩⟩ | ⟨-, ⟨⟩⟩
    exact .inr ⟨rfl, nofun⟩
  | transferPublicToPrivate caller amount =>
    rcases h with ⟨hnone | hbalance⟩ | ⟨-, ⟨⟩⟩
    · exact .inl ⟨rfl, caller, rfl, hnone⟩
    · exact .inr ⟨rfl, by rintro a ⟨⟩; simp [hbalance]⟩
  | transferPublic caller receiver amount =>
    rcases h with ⟨hnone | hbalance⟩ | ⟨⟨balance, hbalance, -⟩, ⟨⟨⟩⟩ | ⟨-, ⟨⟩⟩⟩
    · exact .inl ⟨rfl, caller, rfl, hnone⟩
    · exact .inr ⟨rfl, by rintro a ⟨⟩; simp [hbalance]⟩
    · exact .inr ⟨rfl, by rintro a ⟨⟩; simp [hbalance]⟩

theorem Move.effects_toSelf {accounts : Accounts} {a : Address} {amount : UInt64}
    (h : AllEnabled accounts [.debit a amount, .credit a amount]) :
    effects accounts [.debit a amount, .credit a amount] = accounts := by
  obtain ⟨⟨balance, hbalance, -⟩, -⟩ := h
  have hback : balance - amount + amount = balance := UInt64.sub_add_cancel balance amount
  simp [effects, effect, hbalance, hback]

namespace Overlay

variable {v : Vault} {c : Changes} {log : List Address}

theorem decides_of_filled (hv : v.balances.Ordered) (hc : c.Filled v log) (s : Settlement) :
    (v.overlay c).Decides s := by
  have h := over_of_nodup (v := v) hc.nodup
  have hfirst : ∀ e, ((v.overlay c).settle s).2 = .error e →
      Move.FirstFault (v.overlay c).seen s.moves e := by
    intro e he
    -- the moves are enabled or one is at fault, and the run tells which
    rcases Move.allEnabled_or_firstFault (v.overlay c).seen s.moves with hall | ⟨e', hfault⟩
    · obtain ⟨o', m', hrun, -⟩ := h.run_of_allEnabled hv hall
      rw [settle, hrun] at he
      cases he
    · cases (h.run_of_firstFault hv hfault).symm.trans he
      exact hfault
  refine ⟨⟨fun hok => ?_, fun hall => ?_⟩, fun e => ⟨hfirst e, h.run_of_firstFault hv⟩,
    fun e he => Move.kind_of_firstFault (hfirst e he)⟩
  · refine (Move.allEnabled_or_firstFault (v.overlay c).seen s.moves).resolve_right ?_
    rintro ⟨e, hfault⟩
    cases (h.run_of_firstFault hv hfault).symm.trans hok
  · obtain ⟨o', m', hrun, -⟩ := h.run_of_allEnabled hv hall
    rw [settle, hrun]

theorem moves_of_filled (hv : v.balances.Ordered) (hc : c.Filled v log) {s : Settlement}
    (hok : ((v.overlay c).settle s).2 = .ok ()) :
    (v.overlay c).Moves s ((v.overlay c).settle s).1 := by
  have h := over_of_nodup (v := v) hc.nodup
  have hall := (decides_of_filled hv hc s).succeeds.1 hok
  obtain ⟨o', m', hrun, hsettle, h'⟩ := h.run_of_allEnabled hv hall
  have hseen : o'.seen = Move.effects (v.overlay c).seen s.moves := by
    rw [h.seen] at hall ⊢
    obtain ⟨m'', hm'', heffects⟩ := Balances.settle_of_allEnabled hall
    cases hm''.symm.trans hsettle
    rw [h'.seen, heffects]
  rw [settle, hrun]
  refine ⟨hseen, fun a ha => ?_, ?_, ?_, ?_⟩
  · rw [hseen, Move.effects_of_not_mem ha]
  · rw [h.seen, h'.seen]
    exact ⟨Balances.finite_listed _, m'.finite_listed⟩
  · have htotal := (Balances.settle_gain (h.ordered hv) hsettle).2.2
    rw [h'.seen, h.seen, Balances.total_accounts (h'.ordered hv),
      Balances.total_accounts (h.ordered hv), htotal, s.deltas_moves]
  · rintro a amount rfl
    rw [hseen]
    exact Move.effects_toSelf hall

end Overlay

/-! ## Many settlements, together and each by itself -/

namespace Vault

def settleTogether (v : Vault) (ss : List Settlement) : Except ProgramError Vault :=
  match (v.overlay .empty).settleAll ss with
  | (o, .ok ()) => (v.commit o.changes).mapError .store
  | (_, .error e) => .error e

def settleEach (v : Vault) : List Settlement → Except ProgramError Vault
  | [] => .ok v
  | s :: ss => do settleEach (← v.settleTogether [s]) ss

variable {v : Vault}

theorem commit_of_writes {c : Changes} (hrecords : c.records = []) (hspent : c.spent = []) :
    v.commit c =
      .ok { v with balances := v.balances.written c.writes, height := v.height + 1 } := by
  have hadmits : v.admits c = .ok () := by rw [admits, hrecords, hspent]; rfl
  have hrest : v.records ++ [] = v.records := List.append_nil _
  rw [commit, hadmits, write, hrecords, hspent, hrest]
  rfl

theorem settleTogether_eq (hv : v.balances.Ordered) (ss : List Settlement) :
    v.settleTogether ss = (fun m => { v with balances := m, height := v.height + 1 }) <$>
      v.balances.settle (ss.flatMap Settlement.moves) := by
  rw [settleTogether, Overlay.settleAll_eq_run]
  rcases (Overlay.over_empty v .empty rfl).run hv (ss.flatMap Settlement.moves) with
    ⟨o', e, ho, hm⟩ | ⟨o', m', ho, hm, h'⟩
  · rw [ho, hm]
    rfl
  · rw [ho, hm, Answers.map_ok]
    show (v.commit o'.changes).mapError ProgramError.store = _
    rw [commit_of_writes h'.records h'.spent, h'.balances, Answers.mapError_ok]

theorem settleEach_eq (hv : v.balances.Ordered) (ss : List Settlement) :
    balances <$> v.settleEach ss = v.balances.settle (ss.flatMap Settlement.moves) := by
  induction ss generalizing v with
  | nil => rfl
  | cons s ss ih =>
    -- the balances stay in order, which is what the next buffer is read over
    rw [settleEach, settleTogether_eq hv, List.flatMap_singleton, List.flatMap_cons,
      Balances.settle_append]
    cases hm : v.balances.settle s.moves with
    | error e => rfl
    | ok m => exact ih (Balances.settle_gain hv hm).1

/-- Settlements through one buffer, against the same settlements each committed by itself. -/
structure SettlesTogether (v : Vault) (ss : List Settlement) : Prop where
  outcome : balances <$> v.settleTogether ss = balances <$> v.settleEach ss
  direct : balances <$> v.settleTogether ss = v.balances.settle (ss.flatMap Settlement.moves)
  keys : ((v.overlay .empty).settleAll ss).2 = .ok () →
    ((v.overlay .empty).settleAll ss).1.changes.writes.map Prod.fst =
      ((ss.flatMap Settlement.moves).map Move.key).eraseDups

theorem settlesTogether_of_ordered (hv : v.balances.Ordered) (ss : List Settlement) :
    v.SettlesTogether ss := by
  have hdirect : balances <$> v.settleTogether ss =
      v.balances.settle (ss.flatMap Settlement.moves) := by
    rw [settleTogether_eq hv]
    cases v.balances.settle (ss.flatMap Settlement.moves) with
    | error e => rfl
    | ok m => rfl
  refine ⟨hdirect.trans (settleEach_eq hv ss).symm, hdirect, fun hok => ?_⟩
  rw [Overlay.settleAll_eq_run] at hok ⊢
  have hblank : (v.overlay .empty).changes.writes.map Prod.fst = [].eraseDups := rfl
  have hkeys := Overlay.keys_run hblank (ss.flatMap Settlement.moves)
  rwa [Overlay.made_of_ok hok, List.nil_append] at hkeys

/-- A buffer over the balances of a vault is as good as the balances themselves. -/
structure BuffersExactly (v : Vault) : Prop where
  entries : ∀ c log, Changes.Filled v c log →
    c.writes.map Prod.fst = log.eraseDups ∧ (c.writes.map Prod.fst).Nodup
  decides : ∀ c log, Changes.Filled v c log → ∀ s, (v.overlay c).Decides s
  moves : ∀ c log, Changes.Filled v c log → ∀ s, ((v.overlay c).settle s).2 = .ok () →
    (v.overlay c).Moves s ((v.overlay c).settle s).1
  together : ∀ ss, v.SettlesTogether ss

theorem buffersExactly_of_ordered (hv : v.balances.Ordered) : v.BuffersExactly where
  entries _ _ hc := ⟨hc.keys, hc.nodup⟩
  decides _ _ hc s := Overlay.decides_of_filled hv hc s
  moves _ _ hc _ hok := Overlay.moves_of_filled hv hc hok
  together := settlesTogether_of_ordered hv

theorem buffersExactly_deposited :
    Sample.deposited.balances.length = 2 ∧ Sample.deposited.balances.Ordered ∧
      BuffersExactly Sample.deposited :=
  have hordered := Sample.ordered_deposited.balances
  ⟨by decide +kernel, hordered, buffersExactly_of_ordered hordered⟩

end Vault

end TokenLedger
