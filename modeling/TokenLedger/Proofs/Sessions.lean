import TokenLedger.Proofs.Admission
import TokenLedger.Proofs.Operations
import TokenLedger.Proofs.Restoring
import TokenLedger.Proofs.Saving

/-!
# Saving and restoring is invisible

A session asks a ledger for one thing after another, and in between the
ledger may be saved as bytes and built again from them. Whatever the hash
does, every state on the way comes back with the same balances, the same
record under every commitment, the same published serial numbers and the same
height, and all replies but the lists of an owner's records are those of the
session without the saves.

The lists are the same too, and the ledger is restored in every part, unless
a transaction issues two distinct tokens under one commitment. A save then
moves the commitment to the list of the owner whose record is read. There are
more tokens than digests, so this exception cannot be proved away.
-/

set_option autoImplicit false

namespace TokenLedger

/-! ## What was stored stays stored -/

namespace Balances

variable {m m' : Balances}

theorem length_le_insert (key : Address) (value : UInt64) (m : Balances) :
    m.length ≤ (insert key value m).length := by
  induction m with
  | nil => exact Nat.zero_le _
  | cons p m ih =>
    rw [insert]
    split
    · exact Nat.le_refl _
    · split
      · exact Nat.le_succ _
      · exact Nat.succ_le_succ ih

theorem length_le_move {mv : Move} (h : m.move mv = .ok m') : m.length ≤ m'.length := by
  cases mv with
  | credit key amount =>
    obtain ⟨value, -, hm'⟩ := Answers.bind_eq_ok.1 h
    cases hm'
    exact length_le_insert key value m
  | debit key amount =>
    simp only [move] at h
    split at h
    · obtain ⟨value, -, hm'⟩ := Answers.bind_eq_ok.1 h
      cases hm'
      exact length_le_insert key value m
    · cases h

theorem length_le_settle {mvs : List Move} (h : m.settle mvs = .ok m') :
    m.length ≤ m'.length := by
  induction mvs generalizing m with
  | nil =>
    cases h
    exact Nat.le_refl _
  | cons mv mvs ih =>
    obtain ⟨m₁, hmove, hrest⟩ := Answers.bind_eq_ok.1 h
    exact Nat.le_trans (length_le_move hmove) (ih hrest)

end Balances

namespace Vault

theorem length_le_insertSerial (s : SerialNumber) (ss : List SerialNumber) :
    ss.length ≤ (insertSerial s ss).length := by
  induction ss with
  | nil => exact Nat.zero_le _
  | cons t ss ih =>
    rw [insertSerial]
    split
    · exact Nat.le_refl _
    · split
      · exact Nat.le_succ _
      · exact Nat.succ_le_succ ih

theorem length_le_foldl_insertSerial (new ss : List SerialNumber) :
    ss.length ≤ (new.foldl (fun ss s => insertSerial s ss) ss).length := by
  induction new generalizing ss with
  | nil => exact Nat.le_refl _
  | cons s new ih => exact Nat.le_trans (length_le_insertSerial s ss) (ih _)

structure Grows (v v' : Vault) : Prop where
  balances : v.balances.length ≤ v'.balances.length
  records : v.records.length ≤ v'.records.length
  spent : v.spent.length ≤ v'.spent.length

variable {v v' v'' : Vault} {h : History} {tx : Transaction}

theorem Grows.refl (v : Vault) : v.Grows v :=
  ⟨Nat.le_refl _, Nat.le_refl _, Nat.le_refl _⟩

theorem Grows.trans (h : v.Grows v') (h' : v'.Grows v'') : v.Grows v'' :=
  ⟨Nat.le_trans h.balances h'.balances, Nat.le_trans h.records h'.records,
    Nat.le_trans h.spent h'.spent⟩

theorem Grows.countable (h : v.Grows v') (hc : v'.Countable) : v.Countable :=
  ⟨Nat.lt_of_le_of_lt h.balances hc.balances, Nat.lt_of_le_of_lt h.records hc.records,
    Nat.lt_of_le_of_lt h.spent hc.spent⟩

theorem Accepts.grows (ha : v.Accepts tx v') : v.Grows v' where
  balances := Balances.length_le_settle ha.settled
  records := by
    rw [ha.records, List.length_append]
    exact Nat.le_add_right _ _
  spent := by
    rw [ha.spent]
    exact length_le_foldl_insertSerial _ _

structure Follows (v : Vault) (h : History) (v' : Vault) : Prop where
  keeps : v'.Keeps h
  ordered : v'.Ordered
  grows : v.Grows v'

end Vault

/-! ## Names within one transaction -/

namespace History

/-- One of the transactions issues under colliding strings. -/
def Clashes (h : History) : Prop :=
  ∃ tx ∈ h, Collides (tx.outputs.map Token.commitmentPreimage)

theorem Named.of_append {h rest : History} (hn : Named (h ++ rest)) : h.Named := by
  have hsub : h.issued ⊆ issued (h ++ rest) := by
    rw [issued, issued, List.flatMap_append]
    exact List.subset_append_left _ _
  exact fun t ht u hu => hn t (hsub ht) u (hsub hu)

end History

theorem Vault.Keeps.genuine {v : Vault} {h : History} (hk : v.Keeps h) : v.Genuine := by
  intro r hr
  rw [hk.records] at hr
  obtain ⟨t, -, rfl⟩ := List.mem_map.1 hr
  exact ⟨t, rfl⟩

theorem Vault.Keeps.named_or_clashes {v : Vault} {h : History} (hk : v.Keeps h) :
    h.Named ∨ h.Clashes := by
  by_cases hclash : h.Clashes
  · exact .inr hclash
  · refine .inl fun t ht u hu heq => ?_
    obtain ⟨a, ha, hta⟩ := List.mem_flatMap.1 ht
    obtain ⟨b, hb, hub⟩ := List.mem_flatMap.1 hu
    -- two transactions never issue under one commitment, whether the hash collides or not
    have hab : a = b := by
      by_contra hne
      have : Std.Symm fun a b : Transaction =>
          ∀ t ∈ a.outputs, ∀ u ∈ b.outputs, t.commitment ≠ u.commitment :=
        ⟨fun _ _ h t ht u hu => (h u hu t ht).symm⟩
      exact hk.fresh.forall ha hb hne t hta u hub heq
    subst hab
    rcases collisionFree_or_collides (a.outputs.map Token.commitmentPreimage) with hf | hcollides
    · exact hf.token_eq (List.mem_map_of_mem hta) (List.mem_map_of_mem hub) heq
    · exact absurd ⟨a, ha, hcollides⟩ hclash

/-! ## Sessions -/

inductive Request where
  | apply (tx : Transaction)
  | perform (op : Operation)
  | publicBalance (a : Address)
  | recordsOf (a : Address)
  | unspentRecord (c : Commitment)
  | isSpent (t : Token)
  | height
  | totalSupply
  | snapshot

inductive Reply where
  | receipts (results : List (Except LedgerError Receipt))
  | amount (answer : Except LedgerError UInt64)
  | tokens (answer : Except LedgerError (List Token))
  | token (answer : Except LedgerError Token)
  | flag (answer : Except LedgerError Bool)
  | height (answer : Except LedgerError UInt64)
  | supply (answer : Except LedgerError Nat)
  | snapshot (answer : Except LedgerError Snapshot)

/-- A reply, with a list of an owner's records left blank. -/
def Reply.withoutLists : Reply → Reply
  | tokens _ => tokens (.ok [])
  | reply => reply

inductive Event where
  | request (r : Request)
  | reload

namespace Ledger

def serve (l : Ledger) : Request → Reply × Ledger
  | .apply tx => (.receipts [(l.apply tx).1], (l.apply tx).2)
  | .perform op => (.receipts (l.perform op).1, (l.perform op).2)
  | .publicBalance a => (.amount (l.publicBalance a), l)
  | .recordsOf a => (.tokens (l.recordsOf a), l)
  | .unspentRecord c => (.token (l.unspentRecord c), l)
  | .isSpent t => (.flag (l.isSpent t), l)
  | .height => (.height l.height, l)
  | .totalSupply => (.supply l.totalSupply, l)
  | .snapshot => (.snapshot l.snapshot, l)

def serveAll (l : Ledger) : List Request → List Reply × Ledger
  | [] => ([], l)
  | r :: rs => ((l.serve r).1 :: ((l.serve r).2.serveAll rs).1, ((l.serve r).2.serveAll rs).2)

def admitted (l : Ledger) : Request → History
  | .apply tx => l.accepted [tx]
  | .perform op => (l.drawn op).accepted (submitted (l.attempts op).1)
  | .publicBalance _ | .recordsOf _ | .unspentRecord _ | .isSpent _ | .height | .totalSupply
  | .snapshot => []

def admittedAll (l : Ledger) : List Request → History
  | [] => []
  | r :: rs => l.admitted r ++ (l.serve r).2.admittedAll rs

def reload (l : Ledger) : Except LedgerError Ledger := do
  let saved ← l.snapshot
  let s ← (Snapshot.ofBytes saved.toBytes).mapError LedgerError.snapshot
  ofSnapshot s (Store.ofVault Vault.empty) l.seeds

def session (l : Ledger) : List Event → Except LedgerError (List Reply × Ledger)
  | [] => .ok ([], l)
  | .request r :: events => do
    let (replies, l') ← (l.serve r).2.session events
    return ((l.serve r).1 :: replies, l')
  | .reload :: events => do (← l.reload).session events

def requests (events : List Event) : List Request :=
  events.filterMap fun
    | .request r => some r
    | .reload => none

theorem serveAll_append (l : Ledger) (before rest : List Request) :
    (l.serveAll (before ++ rest)).2 = ((l.serveAll before).2.serveAll rest).2 := by
  induction before generalizing l with
  | nil => rfl
  | cons r before ih => exact ih _

theorem admittedAll_append (l : Ledger) (before rest : List Request) :
    l.admittedAll (before ++ rest) =
      l.admittedAll before ++ (l.serveAll before).2.admittedAll rest := by
  induction before generalizing l with
  | nil => rfl
  | cons r before ih =>
    rw [List.cons_append, admittedAll, ih, admittedAll, List.append_assoc]
    rfl

theorem Restores.reload_eq {l : Ledger} (h : l.Restores) : l.reload = .ok l := by
  obtain ⟨s, hsnapshot, hread, hrestored⟩ := h
  rw [reload, hsnapshot, Answers.ok_bind, hread, Answers.mapError_ok, Answers.ok_bind, hrestored]

variable {v : Vault} {h : History}

theorem run_follows (hk : v.Keeps h) (hv : v.Ordered) (seeds : SeedSource)
    (txs : List Transaction) :
    ∃ v', (ofVault v seeds).run txs = ofVault v' seeds ∧
      v.Follows (h ++ (ofVault v seeds).accepted txs) v' := by
  have hstep {u u' : Vault} {tx : Transaction} (hu : u.Ordered ∧ v.Grows u)
      (ha : u.Accepts tx u') : u'.Ordered ∧ v.Grows u' :=
    ⟨(ha.outcome hu.1).ordered, hu.2.trans ha.grows⟩
  obtain ⟨v', hrun, hk', hv', hgrows⟩ := run_preserves hk ⟨hv, .refl v⟩ hstep seeds txs
  exact ⟨v', hrun, hk', hv', hgrows⟩

theorem serve_follows (hk : v.Keeps h) (hv : v.Ordered) (seeds : SeedSource) (r : Request) :
    ∃ v' seeds', ((ofVault v seeds).serve r).2 = ofVault v' seeds' ∧
      v.Follows (h ++ (ofVault v seeds).admitted r) v' := by
  cases r with
  | apply tx =>
    obtain ⟨v', hrun, hfollows⟩ := run_follows hk hv seeds [tx]
    exact ⟨v', seeds, hrun, hfollows⟩
  | perform op =>
    obtain ⟨v', hrun, hfollows⟩ := run_follows hk hv ((ofVault v seeds).attempts op).2
      (submitted ((ofVault v seeds).attempts op).1)
    exact ⟨v', _, (perform_run _ op).trans hrun, hfollows⟩
  | _ => exact ⟨v, seeds, rfl, by simpa [admitted] using hk, hv, .refl v⟩

theorem serveAll_follows (hk : v.Keeps h) (hv : v.Ordered) (seeds : SeedSource)
    (rs : List Request) :
    ∃ v' seeds', ((ofVault v seeds).serveAll rs).2 = ofVault v' seeds' ∧
      v.Follows (h ++ (ofVault v seeds).admittedAll rs) v' := by
  induction rs generalizing v h seeds with
  | nil => exact ⟨v, seeds, rfl, by simpa [admittedAll] using hk, hv, .refl v⟩
  | cons r rs ih =>
    obtain ⟨v', seeds', hserve, hfollows⟩ := serve_follows hk hv seeds r
    obtain ⟨v'', seeds'', hall, hfollows'⟩ := ih hfollows.keeps hfollows.ordered seeds'
    rw [serveAll, admittedAll, hserve, ← List.append_assoc]
    exact ⟨v'', seeds'', hall, hfollows'.keeps, hfollows'.ordered,
      hfollows.grows.trans hfollows'.grows⟩

theorem restores_before (hk : v.Keeps h) (hv : v.Ordered) (seeds : SeedSource)
    (before rest : List Request)
    (hn : History.Named (h ++ (ofVault v seeds).admittedAll (before ++ rest)))
    (hc : ((ofVault v seeds).serveAll (before ++ rest)).2.store.vault.Countable) :
    ((ofVault v seeds).serveAll before).2.Restores := by
  obtain ⟨v', seeds', hserve, hfollows⟩ := serveAll_follows hk hv seeds before
  obtain ⟨v'', seeds'', hserve', hfollows'⟩ :=
    serveAll_follows hfollows.keeps hfollows.ordered seeds' rest
  rw [admittedAll_append, ← List.append_assoc] at hn
  rw [serveAll_append, hserve, hserve'] at hc
  rw [hserve]
  exact restores_keeps hfollows.keeps hfollows.ordered hn.of_append
    (hfollows'.grows.countable hc) seeds'

theorem session_keeps (hk : v.Keeps h) (hv : v.Ordered) (seeds : SeedSource)
    (events : List Event)
    (hn : History.Named (h ++ (ofVault v seeds).admittedAll (requests events)))
    (hc : ((ofVault v seeds).serveAll (requests events)).2.store.vault.Countable) :
    (ofVault v seeds).session events = .ok ((ofVault v seeds).serveAll (requests events)) := by
  induction events generalizing v h seeds with
  | nil => rfl
  | cons event events ih =>
    cases event with
    | request r =>
      have hcons : requests (.request r :: events) = r :: requests events := rfl
      obtain ⟨v', seeds', hserve, hfollows⟩ := serve_follows hk hv seeds r
      rw [hcons, admittedAll, hserve, ← List.append_assoc] at hn
      rw [hcons, serveAll, hserve] at hc
      rw [hcons, session, serveAll, hserve, ih hfollows.keeps hfollows.ordered seeds' hn hc]
      rfl
    | reload =>
      have hcons : requests (.reload :: events) = requests events := rfl
      -- the ledger comes back as it is, so the rest goes on from the same vault
      have hrestores : (ofVault v seeds).Restores := restores_before hk hv seeds [] _ hn hc
      rw [hcons] at hn hc ⊢
      rw [session, hrestores.reload_eq, Answers.ok_bind]
      exact ih hk hv seeds hn hc

/-! ### What holds whatever the hash does -/

variable {w : Vault}

theorem serve_tracks (h : v.Tracks w) (seeds : SeedSource) (r : Request) :
    ∃ (v' w' : Vault) (seeds' : SeedSource), ((ofVault v seeds).serve r).2 = ofVault v' seeds' ∧
      ((ofVault w seeds).serve r).2 = ofVault w' seeds' ∧ v'.Tracks w' ∧
        ((ofVault w seeds).serve r).1.withoutLists =
          ((ofVault v seeds).serve r).1.withoutLists := by
  cases r with
  | apply tx =>
    obtain ⟨v', w', hv', hw', h'⟩ := apply_tracks h seeds tx
    exact ⟨v', w', seeds, hv', by rw [serve, hw'], h', by rw [serve, serve, hw']⟩
  | perform op =>
    obtain ⟨v', w', seeds', hv', hw', h'⟩ := perform_tracks h seeds op
    exact ⟨v', w', seeds', hv', by rw [serve, hw'], h', by rw [serve, serve, hw']⟩
  | publicBalance a =>
    refine ⟨v, w, seeds, rfl, rfl, h, ?_⟩
    rw [serve, serve, publicBalance_ofVault, publicBalance_ofVault, h.reading.balances]
  | recordsOf a => exact ⟨v, w, seeds, rfl, rfl, h, rfl⟩
  | unspentRecord c =>
    exact ⟨v, w, seeds, rfl, rfl, h, by rw [serve, serve, unspentRecord_tracks h.reading]⟩
  | isSpent t =>
    refine ⟨v, w, seeds, rfl, rfl, h, ?_⟩
    rw [serve, serve, isSpent_ofVault, isSpent_ofVault, h.reading.isSpent]
  | height =>
    have hheight : (ofVault w seeds).height = (ofVault v seeds).height :=
      congrArg Except.ok h.reading.height.symm
    exact ⟨v, w, seeds, rfl, rfl, h, by rw [serve, serve, hheight]⟩
  | totalSupply =>
    exact ⟨v, w, seeds, rfl, rfl, h, by rw [serve, serve, totalSupply_tracks h]⟩
  | snapshot => exact ⟨v, w, seeds, rfl, rfl, h, by rw [serve, serve, snapshot_tracks h]⟩

theorem reload_tracks (h : v.Tracks w) (hc : v.Countable) (seeds : SeedSource) :
    (ofVault w seeds).reload = .ok (ofVault w.reread seeds) ∧ v.Tracks w.reread := by
  have hcount := h.reading.countable hc
  constructor
  · rw [reload, snapshot_genuine h.genuine', Answers.ok_bind,
      ofBytes_snapshotOf h.genuine' hcount, Answers.mapError_ok, Answers.ok_bind]
    exact ofSnapshot_reread h.ordered' seeds
  · exact ⟨h.reading.trans h.genuine'.sameReading_reread, h.ordered, h.genuine,
      h.ordered'.reread, w.genuine_reread⟩

theorem session_tracks (ht : v.Tracks w) (hk : v.Keeps h) (seeds : SeedSource)
    (events : List Event)
    (hc : ((ofVault v seeds).serveAll (requests events)).2.store.vault.Countable) :
    ∃ replies w', (ofVault w seeds).session events =
        .ok (replies, ofVault w' ((ofVault v seeds).serveAll (requests events)).2.seeds) ∧
      replies.map Reply.withoutLists =
        ((ofVault v seeds).serveAll (requests events)).1.map Reply.withoutLists ∧
      ((ofVault v seeds).serveAll (requests events)).2.store.vault.SameReading w' := by
  induction events generalizing v w h seeds with
  | nil => exact ⟨[], w, rfl, rfl, ht.reading⟩
  | cons event events ih =>
    cases event with
    | request r =>
      have hcons : requests (.request r :: events) = r :: requests events := rfl
      obtain ⟨v', w', seeds', hv', hw', ht', hreply⟩ := serve_tracks ht seeds r
      obtain ⟨v₁, seeds₁, hv₁, hfollows⟩ := serve_follows hk ht.ordered seeds r
      cases hv'.symm.trans hv₁
      rw [hcons, serveAll, hv'] at hc
      obtain ⟨replies, w'', hsession, hreplies, hreading⟩ := ih ht' hfollows.keeps seeds' hc
      rw [hcons, serveAll, hv', session, hw', hsession]
      refine ⟨((ofVault w seeds).serve r).1 :: replies, w'', rfl, ?_, hreading⟩
      rw [List.map_cons, List.map_cons, hreplies, hreply]
    | reload =>
      have hcons : requests (.reload :: events) = requests events := rfl
      rw [hcons] at hc ⊢
      obtain ⟨v', seeds', hserve, hfollows⟩ :=
        serveAll_follows hk ht.ordered seeds (requests events)
      have hc' := hc
      rw [hserve] at hc'
      -- only the vault beside is replaced, by one that still reads the same
      obtain ⟨hreload, ht'⟩ := reload_tracks ht (hfollows.grows.countable hc') seeds
      rw [session, hreload, Answers.ok_bind]
      exact ih ht' hk seeds hc

/-- Every state on the way can be saved and comes back reading the same, and with the saves
the replies are the same but for the lists of an owner's records. -/
structure Enduring (l : Ledger) (events : List Event) : Prop where
  revives : ∀ before rest, requests events = before ++ rest → (l.serveAll before).2.Revives
  replies : ∃ replies v,
    l.session events = .ok (replies, ofVault v (l.serveAll (requests events)).2.seeds) ∧
      replies.map Reply.withoutLists =
        (l.serveAll (requests events)).1.map Reply.withoutLists ∧
      (l.serveAll (requests events)).2.store.vault.SameReading v

/-- Every state on the way restores, and the saves change neither a reply nor the end. -/
structure Seamless (l : Ledger) (events : List Event) : Prop where
  restores : ∀ before rest, requests events = before ++ rest → (l.serveAll before).2.Restores
  replies : l.session events = .ok (l.serveAll (requests events))

variable {events : List Event} {seeds : SeedSource}

theorem enduring_of_countable
    (hc : ((ofVault Vault.empty seeds).serveAll (requests events)).2.store.vault.Countable) :
    (ofVault Vault.empty seeds).Enduring events := by
  have hk := Vault.keeps_empty
  have hv : Vault.empty.Ordered := Vault.Attained.empty.ordered
  refine ⟨fun before rest heq => ?_, session_tracks (.refl hv nofun) hk seeds events hc⟩
  obtain ⟨v, seeds', hserve, hfollows⟩ := serveAll_follows hk hv seeds before
  obtain ⟨v', _, hserve', hfollows'⟩ :=
    serveAll_follows hfollows.keeps hfollows.ordered seeds' rest
  rw [heq, serveAll_append, hserve, hserve'] at hc
  rw [hserve]
  exact revives_genuine hfollows.ordered hfollows.keeps.genuine (hfollows'.grows.countable hc) _

theorem seamless_of_named
    (hn : ((ofVault Vault.empty seeds).admittedAll (requests events)).Named)
    (hc : ((ofVault Vault.empty seeds).serveAll (requests events)).2.store.vault.Countable) :
    (ofVault Vault.empty seeds).Seamless events := by
  have hk := Vault.keeps_empty
  have hv : Vault.empty.Ordered := Vault.Attained.empty.ordered
  refine ⟨fun before rest heq => ?_, session_keeps hk hv seeds events hn hc⟩
  rw [heq] at hn hc
  exact restores_before hk hv seeds before rest hn hc

/-- In every session from an empty vault saves keep all but the owners' lists, wherever they are
made, and the lists as well unless the session shows a collision. -/
theorem seamless_or_clashes (seeds : SeedSource) (events : List Event)
    (hc : ((ofVault Vault.empty seeds).serveAll (requests events)).2.store.vault.Countable) :
    (ofVault Vault.empty seeds).Enduring events ∧
      ((ofVault Vault.empty seeds).Seamless events ∨
        ((ofVault Vault.empty seeds).admittedAll (requests events)).Clashes) := by
  obtain ⟨v, _, -, hfollows⟩ := serveAll_follows Vault.keeps_empty Vault.Attained.empty.ordered
    seeds (requests events)
  exact ⟨enduring_of_countable hc,
    hfollows.keeps.named_or_clashes.imp_left fun hn => seamless_of_named hn hc⟩

def saving : List Event :=
  [.request (.apply (Sample.transaction .mint [] [Sample.record 100 1])), .reload,
   .request (.apply (Sample.transaction .transferPrivate [Sample.record 100 1]
    [Sample.record 60 2, Sample.record 40 3])), .reload, .reload,
   .request (.perform (.execute Sample.owner (.mintPublic Sample.owner 5))), .reload,
   .request .snapshot, .request (.recordsOf Sample.owner)]

theorem seamless_saving :
    ((ofVault Vault.empty Sample.seeds).serveAll (requests saving)).2.store.vault.Countable ∧
      (ofVault Vault.empty Sample.seeds).Enduring saving ∧
        (ofVault Vault.empty Sample.seeds).Seamless saving := by
  have hc : ((ofVault Vault.empty Sample.seeds).serveAll
      (requests saving)).2.store.vault.Countable :=
    ⟨by decide +kernel, by decide +kernel, by decide +kernel⟩
  have hclash : ¬((ofVault Vault.empty Sample.seeds).admittedAll (requests saving)).Clashes := by
    unfold History.Clashes Collides
    decide +kernel
  obtain ⟨henduring, hseamless⟩ := seamless_or_clashes Sample.seeds saving hc
  exact ⟨hc, henduring, hseamless.resolve_right hclash⟩

/-! ### One commitment for two owners -/

theorem apply_unsettled {tx : Transaction} (hv : v.Ordered) (ha : v.Admissible tx)
    (hs : tx.settlement = none) (seeds : SeedSource) :
    ((ofVault v seeds).apply tx).2 = ofVault ⟨v.balances, v.records ++ tx.outputs.map Token.stored,
      (tx.consumed.map Token.serial).foldl (fun ss n => Vault.insertSerial n ss) v.spent,
      v.height + 1⟩ seeds := by
  obtain ⟨v', hout, happly⟩ := apply_of_admissible hv ha seeds
  have hmoves : tx.moves = [] := by rw [Transaction.moves, hs]
  have hbalances : v'.balances = v.balances :=
    Balances.ext_of_ordered hout.ordered.balances hv.balances fun a => by
      have hbalance := hout.balance a
      rwa [hmoves] at hbalance
  have hspent : v'.spent =
      (tx.consumed.map Token.serial).foldl (fun ss n => Vault.insertSerial n ss) v.spent := by
    refine Vault.serials_ext hout.ordered.spent (Vault.pairwise_foldl_insertSerial hv.spent _)
      fun n => ?_
    have hmem := hout.spent n
    rw [← Vault.mem_spent_iff, ← Vault.mem_spent_iff] at hmem
    rw [hmem, Vault.mem_foldl_insertSerial]
    exact or_comm
  rw [happly, ← hbalances, ← hout.records, ← hspent, ← hout.height]

def issuing (r : Token) : Transaction := ⟨default, .mint, r.owner, [], [r], none, none⟩

def splitting (r t u : Token) : Transaction :=
  ⟨default, .transferPrivate, r.owner, [r], [t, u], none, none⟩

def sharing (r t u : Token) : List Event :=
  [.request (.apply (issuing r)), .request (.apply (splitting r t u)), .reload,
   .request (.recordsOf t.owner)]

def sharedVault (r t u : Token) : Vault := ⟨[], [r.stored, t.stored, u.stored], [r.serial], 2⟩

section

variable {r t u : Token}

theorem apply_issuing (r : Token) (seeds : SeedSource) :
    ((ofVault Vault.empty seeds).apply (issuing r)).2 = ofVault ⟨[], [r.stored], [], 1⟩ seeds := by
  have ha : Vault.empty.Admissible (issuing r) := by
    refine ⟨Transaction.check_ok.2 ⟨rfl, rfl, rfl, rfl, nofun, nofun, .inl rfl⟩,
      ⟨List.nodup_nil, nofun, nofun⟩, trivial, fun _ _ => rfl⟩
  exact apply_unsettled Vault.Attained.empty.ordered ha rfl seeds

theorem apply_splitting (hserial : r.serial ≠ t.serial) (hname : t.commitment = u.commitment)
    (hvalue : r.balance.toNat = t.balance.toNat + u.balance.toNat) (seeds : SeedSource) :
    ((ofVault ⟨[], [r.stored], [], 1⟩ seeds).apply (splitting r t u)).2 =
      ofVault (sharedVault r t u) seeds := by
  have hne : r.commitment ≠ t.commitment := fun h => hserial (congrArg Commitment.serial h)
  have ha : Vault.Admissible ⟨[], [r.stored], [], 1⟩ (splitting r t u) := by
    refine ⟨Transaction.check_ok.2 ⟨rfl, rfl, rfl, rfl, ?_, nofun, .inr ?_⟩, ⟨?_, ?_, ?_⟩,
      trivial, ?_⟩
    · intro x hx
      rw [List.mem_singleton.1 hx]
      rfl
    · simp [Transaction.consumedTotal, Transaction.produced, Transaction.outputTotal, splitting,
        Token.total, hvalue]
    · exact List.nodup_singleton _
    · intro x hx
      rw [List.mem_singleton.1 hx]
      simp [Vault.hasRecord, Token.stored]
    · exact fun _ _ => rfl
    · intro x hx
      have hx' : x.commitment = t.commitment := by
        rcases List.mem_pair.1 hx with rfl | rfl
        · rfl
        · exact hname.symm
      simp [Vault.hasRecord, Token.stored, hx', hne]
  have hv : Vault.Ordered ⟨[], [r.stored], [], 1⟩ := ⟨List.Pairwise.nil, List.Pairwise.nil⟩
  exact apply_unsettled hv ha rfl seeds

theorem genuine_sharedVault (r t u : Token) : (sharedVault r t u).Genuine := by
  intro x hx
  simp only [sharedVault, List.mem_cons, List.not_mem_nil, or_false] at hx
  rcases hx with rfl | rfl | rfl <;> exact ⟨_, rfl⟩

theorem countable_sharedVault (r t u : Token) : (sharedVault r t u).Countable :=
  ⟨show 0 < Radix.capacity 256 8 by decide, show 3 < Radix.capacity 256 8 by decide,
    show 1 < Radix.capacity 256 8 by decide⟩

theorem ordered_sharedVault (r t u : Token) : (sharedVault r t u).Ordered :=
  ⟨List.Pairwise.nil, List.pairwise_singleton _ _⟩

/-- What is issued to one owner is read as the record of another, and only the other has it
after a save. -/
theorem recordsOf_sharedVault_ne (hserial : r.serial ≠ t.serial)
    (hname : t.commitment = u.commitment) (howner : t.owner ≠ u.owner) (seeds : SeedSource) :
    (ofVault (sharedVault r t u).reread seeds).recordsOf t.owner ≠
      (ofVault (sharedVault r t u) seeds).recordsOf t.owner := by
  have hg := genuine_sharedVault r t u
  have hrecord : (sharedVault r t u).record? t.commitment = some u.stored := by
    simp [sharedVault, Vault.record?, Token.stored, hname]
  have htoken : (sharedVault r t u).token? t.commitment = some u := by
    rw [Vault.token?, hrecord, Option.bind_some, Token.stored, Token.ofBytes_toBytes]
    rfl
  have hlisted : t.commitment ∈ (sharedVault r t u).recordsOf t.owner :=
    List.mem_map.2 ⟨t.stored, List.mem_filter.2 ⟨by simp [sharedVault], decide_eq_true rfl⟩, rfl⟩
  have hunspent : (sharedVault r t u).isSpent u.serial = false := by
    have hu : u.serial = t.serial := congrArg Commitment.serial hname.symm
    simp [sharedVault, Vault.isSpent, hu, hserial.symm]
  intro heq
  rw [recordsOf_genuine hg, recordsOf_genuine (Vault.genuine_reread _), Except.ok.injEq] at heq
  have hmem : u ∈ (sharedVault r t u).unspent
      (((sharedVault r t u).recordsOf t.owner).filterMap (sharedVault r t u).token?) :=
    Vault.mem_unspent.2 ⟨List.mem_filterMap.2 ⟨_, hlisted, htoken⟩, hunspent⟩
  rw [← heq] at hmem
  obtain ⟨c, hc, hread⟩ := List.mem_filterMap.1 (Vault.mem_unspent.1 hmem).1
  obtain ⟨x, hx, hxowner⟩ := hg.owner_of_mem_reread hc
  rw [← hg.sameReading_reread.token?, hx] at hread
  cases hread
  exact howner hxowner.symm

theorem replies_sharing_ne (hserial : r.serial ≠ t.serial) (hname : t.commitment = u.commitment)
    (howner : t.owner ≠ u.owner) (hvalue : r.balance.toNat = t.balance.toNat + u.balance.toNat)
    (seeds : SeedSource) :
    ((ofVault Vault.empty seeds).session (sharing r t u)).map Prod.fst ≠
      .ok ((ofVault Vault.empty seeds).serveAll (requests (sharing r t u))).1 := by
  intro hreplies
  have hg := genuine_sharedVault r t u
  have hv := ordered_sharedVault r t u
  have hreload := (reload_tracks (.refl hv hg) (countable_sharedVault r t u) seeds).1
  have hserved := apply_splitting hserial hname hvalue seeds
  simp only [sharing, requests, List.filterMap_cons, List.filterMap_nil, serveAll, session, serve,
    apply_issuing, hserved, hreload, Answers.ok_bind, Answers.pure_eq, Except.map,
    Except.ok.injEq, List.cons.injEq, Reply.tokens.injEq, and_true, true_and] at hreplies
  exact recordsOf_sharedVault_ne hserial hname howner seeds hreplies

end

/-- No hash gives every record a commitment of its own, so a session can be made in which a
save shows. -/
theorem not_always_same_replies :
    ¬∀ (seeds : SeedSource) (events : List Event),
      ((ofVault Vault.empty seeds).serveAll (requests events)).2.store.vault.Countable →
        ((ofVault Vault.empty seeds).session events).map Prod.fst =
          .ok ((ofVault Vault.empty seeds).serveAll (requests events)).1 := by
  intro h
  obtain ⟨key, key', nonce, nonce', hne, hname⟩ := exists_shared_commitment
  -- the record to split: of two records with different serial numbers one will do
  obtain ⟨r, hvalue, hserial⟩ : ∃ r : Token, r.balance = 0 ∧
      r.serial ≠ (Sample.blank key nonce).serial := by
    by_cases hs : (Sample.blank default default).serial = (Sample.blank key nonce).serial
    · exact ⟨_, rfl, fun hs' => Sample.serial_blank_ne (hs.trans hs'.symm)⟩
    · exact ⟨_, rfl, hs⟩
  have hvalue' : r.balance.toNat =
      (Sample.blank key nonce).balance.toNat + (Sample.blank key' nonce').balance.toNat := by
    rw [hvalue]
    rfl
  have howner : (Sample.blank key nonce).owner ≠ (Sample.blank key' nonce').owner :=
    fun howner => hne (congrArg Address.key howner)
  refine replies_sharing_ne hserial hname howner hvalue' Sample.seeds (h _ _ ?_)
  simp only [sharing, requests, List.filterMap_cons, List.filterMap_nil, serveAll, serve,
    apply_issuing, apply_splitting hserial hname hvalue']
  exact countable_sharedVault _ _ _

end Ledger

end TokenLedger
