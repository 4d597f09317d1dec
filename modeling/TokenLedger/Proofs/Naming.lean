import TokenLedger.Command.Run
import TokenLedger.Proofs.Reached
import TokenLedger.Proofs.Sessions
import TokenLedger.StateFile

/-!
# A printed commitment names its record

From one ledger others are reached by serving requests, running commands and
going through a state file. Nothing that was stored is lost on the way, so the
text of a commitment, once printed, names the same record in every later
ledger, until that record is consumed.
-/

set_option autoImplicit false

namespace TokenLedger

/-! ## The tokens of a vault -/

namespace Vault

def issued (v : Vault) : List Token :=
  v.records.filterMap fun r => (Token.ofBytes r.bytes).toOption

def strings (v : Vault) : List Bytes := v.issued.flatMap Token.strings

/-- A later vault: the records of a history were added, and its inputs were marked as spent. -/
structure Continues (v : Vault) (h : History) (v' : Vault) : Prop where
  ordered : v'.Ordered
  records : v'.records = v.records ++ h.issued.map Token.stored
  spent : ∀ n, v'.isSpent n = true ↔ v.isSpent n = true ∨ n ∈ h.consumed.map Token.serial

variable {v v' v'' : Vault} {h h' : History} {t : Token} {c : Commitment}

theorem issued_of_records {ts : List Token} (h : v.records = ts.map Token.stored) :
    v.issued = ts := by
  have hread : ((fun r : StoredRecord => (Token.ofBytes r.bytes).toOption) ∘ Token.stored) =
      some := by
    funext t
    simp only [Function.comp_apply, Token.stored, Token.ofBytes_toBytes]
    rfl
  rw [issued, h, List.filterMap_map, hread, List.filterMap_some]

theorem exists_map_stored {rs : List StoredRecord} (h : ∀ r ∈ rs, ∃ t : Token, r = t.stored) :
    ∃ ts : List Token, rs = ts.map Token.stored := by
  induction rs with
  | nil => exact ⟨[], rfl⟩
  | cons r rs ih =>
    obtain ⟨t, rfl⟩ := h r (by simp)
    obtain ⟨ts, rfl⟩ := ih fun r hr => h r (by simp [hr])
    exact ⟨t :: ts, rfl⟩

theorem Genuine.records_eq (hg : v.Genuine) : v.records = v.issued.map Token.stored := by
  obtain ⟨ts, hts⟩ := exists_map_stored hg
  rw [issued_of_records hts, hts]

theorem Genuine.mem_issued (hg : v.Genuine) : t ∈ v.issued ↔ t.stored ∈ v.records := by
  constructor
  · intro ht
    rw [hg.records_eq]
    exact List.mem_map_of_mem ht
  · intro ht
    refine List.mem_filterMap.2 ⟨t.stored, ht, ?_⟩
    simp only [Token.stored, Token.ofBytes_toBytes]
    rfl

theorem Genuine.stored_of_hasRecord (hg : v.Genuine) (hc : v.hasRecord c = true) :
    ∃ t ∈ v.issued, t.commitment = c ∧ v.record? c = some t.stored ∧ v.token? c = some t := by
  obtain ⟨t, hrecord, htoken⟩ := hg.record? hc
  obtain ⟨hmem, hname⟩ := mem_of_record? hrecord
  exact ⟨t, hg.mem_issued.2 hmem, hname, hrecord, htoken⟩

theorem token_eq {strings : List Bytes} (hf : CollisionFree strings) {u : Token}
    (ht : t.strings ⊆ strings) (hu : u.strings ⊆ strings) (h : t.commitment = u.commitment) :
    t = u :=
  hf.token_eq (ht (by simp [Token.strings])) (hu (by simp [Token.strings])) h

theorem strings_subset (ht : t ∈ v.issued) : t.strings ⊆ v.strings :=
  fun _ hx => List.mem_flatMap.2 ⟨t, ht, hx⟩

theorem Genuine.tokens_eq (hg : v.Genuine) (hf : CollisionFree v.strings) :
    v.tokens = v.issued := by
  refine List.filterMap_congr fun r hr => ?_
  obtain ⟨t, rfl⟩ := hg r hr
  obtain ⟨u, hu, hname, -, htoken⟩ := hg.stored_of_hasRecord (hasRecord_of_mem_records hr)
  have ht := hg.mem_issued.2 hr
  rw [htoken, token_eq hf (strings_subset hu) (strings_subset ht) hname, Token.stored,
    Token.ofBytes_toBytes]
  rfl

theorem Continues.refl (hv : v.Ordered) : v.Continues [] v :=
  ⟨hv, by simp [History.issued], by simp [History.consumed]⟩

theorem Continues.trans (hc : v.Continues h v') (hc' : v'.Continues h' v'') :
    v.Continues (h ++ h') v'' where
  ordered := hc'.ordered
  records := by
    rw [hc'.records, hc.records, List.append_assoc, ← List.map_append, History.issued,
      History.issued, ← List.flatMap_append]
    rfl
  spent n := by
    rw [hc'.spent, hc.spent, or_assoc, ← List.mem_append, ← List.map_append, History.consumed,
      History.consumed, ← List.flatMap_append]
    rfl

theorem Outcome.continues {tx : Transaction} (ho : v.Outcome tx v') : v.Continues [tx] v' where
  ordered := ho.ordered
  records := by simpa [History.issued] using ho.records
  spent := by simpa [History.consumed] using ho.spent

theorem Continues.issued (hc : v.Continues h v') (hg : v.Genuine) :
    v'.issued = v.issued ++ h.issued := by
  apply issued_of_records
  rw [hc.records, List.map_append, ← hg.records_eq]

theorem Continues.strings_subset (hc : v.Continues h v') (hg : v.Genuine) :
    v'.strings ⊆ v.strings ++ h.strings := by
  intro x hx
  rw [strings, hc.issued hg, List.flatMap_append] at hx
  rcases List.mem_append.1 hx with hx | hx
  · exact List.mem_append_left _ hx
  · rw [History.strings, List.flatMap_append]
    exact List.mem_append_right _ (List.mem_append_left _ hx)

end Vault

theorem CollisionFree.of_append {xs : List Bytes} {h rest : History}
    (hf : CollisionFree (xs ++ History.strings (h ++ rest))) : CollisionFree (xs ++ h.strings) := by
  refine hf.mono (List.append_subset.2 ⟨List.subset_append_left _ _, ?_⟩)
  exact fun x hx => List.mem_append_right _ (History.strings_subset_append h rest hx)

namespace Command

def admitted (l : Ledger) (caller : Option Address) (c : Command) : History :=
  match c.plan l caller, caller with
  | .ok (.call call), some a => l.admitted (.perform (.execute a call))
  | .ok (.call _), none | .ok (.answer _), _ | .error _, _ => []

variable {c : Command} {l : Ledger} {caller : Option Address} {call : Call}

theorem run_of_error {e : CommandError} (h : c.plan l caller = .error e) :
    c.run l caller = (.error e, l) := by
  rw [run, h]

theorem run_of_answer {j : Json} (h : c.plan l caller = .ok (.answer j)) :
    c.run l caller = (.ok j, l) := by
  rw [run, h]

theorem run_none (h : c.plan l none = .ok (.call call)) :
    c.run l none = (.error .noCaller, l) := by
  rw [run, h]

theorem run_some {a : Address} (h : c.plan l (some a) = .ok (.call call)) :
    c.run l (some a) =
      (((l.execute a call).1.mapError .ledger).map receiptJson, (l.execute a call).2) := by
  rw [run, h]

end Command

namespace Ledger

/-- What a ledger may become while some transactions are accepted: requests are served and
commands run, seeds may come from elsewhere, and a ledger may be written to a state file,
which counts its lists in eight bytes, and read from it again. -/
inductive Leads (l : Ledger) : History → Ledger → Prop where
  | refl : Leads l [] l
  | serve {h : History} {l' : Ledger} (hl : Leads l h l') (r : Request) :
      Leads l (h ++ l'.admitted r) (l'.serve r).2
  | command {h : History} {l' : Ledger} (hl : Leads l h l') (caller : Option Address)
      (c : Command) : Leads l (h ++ c.admitted l' caller) (c.run l' caller).2
  | reseed {h : History} {l' : Ledger} (hl : Leads l h l') (seeds : SeedSource) :
      Leads l h { l' with seeds := seeds }
  | reload {h : History} {l' l'' : Ledger} {seeds : SeedSource} {bytes : Bytes}
      (hl : Leads l h l') (hc : l'.store.vault.Countable)
      (hsave : StateFile.content l' = .ok bytes)
      (hload : StateFile.load seeds (.content bytes) = .ok l'') : Leads l h l''

variable {v : Vault} {h : History} {t : Token}

theorem run_continues (hv : v.Ordered) (seeds : SeedSource) (txs : List Transaction) :
    ∃ v', (ofVault v seeds).run txs = ofVault v' seeds ∧
      v.Continues ((ofVault v seeds).accepted txs) v' := by
  induction txs generalizing v with
  | nil => exact ⟨v, rfl, .refl hv⟩
  | cons tx txs ih =>
    rcases v.admissible_or_violates tx with ha | ⟨e, hviolates⟩
    · obtain ⟨v₁, hout, happly⟩ := apply_of_admissible hv ha seeds
      obtain ⟨v', hrun, hcont⟩ := ih hout.ordered
      rw [run, accepted, happly]
      exact ⟨v', hrun, hout.continues.trans hcont⟩
    · rw [run, accepted, apply_of_violates hv hviolates]
      exact ih hv

theorem serve_continues (hv : v.Ordered) (seeds : SeedSource) (r : Request) :
    ∃ v' seeds', ((ofVault v seeds).serve r).2 = ofVault v' seeds' ∧
      v.Continues ((ofVault v seeds).admitted r) v' := by
  cases r with
  | apply tx =>
    obtain ⟨v', hrun, hcont⟩ := run_continues hv seeds [tx]
    exact ⟨v', seeds, hrun, hcont⟩
  | perform op =>
    obtain ⟨v', hrun, hcont⟩ := run_continues hv ((ofVault v seeds).attempts op).2
      (submitted ((ofVault v seeds).attempts op).1)
    exact ⟨v', _, (perform_run _ op).trans hrun, hcont⟩
  | _ => exact ⟨v, seeds, rfl, .refl hv⟩

theorem command_continues (hv : v.Ordered) (seeds : SeedSource) (caller : Option Address)
    (c : Command) :
    ∃ v' seeds', (c.run (ofVault v seeds) caller).2 = ofVault v' seeds' ∧
      v.Continues (c.admitted (ofVault v seeds) caller) v' := by
  cases hplan : c.plan (ofVault v seeds) caller with
  | error e =>
    simp only [Command.admitted, hplan, Command.run_of_error hplan]
    exact ⟨v, seeds, rfl, .refl hv⟩
  | ok p =>
    cases p with
    | answer j =>
      simp only [Command.admitted, hplan, Command.run_of_answer hplan]
      exact ⟨v, seeds, rfl, .refl hv⟩
    | call call =>
      cases caller with
      | none =>
        simp only [Command.admitted, hplan, Command.run_none hplan]
        exact ⟨v, seeds, rfl, .refl hv⟩
      | some a =>
        simp only [Command.admitted, hplan, Command.run_some hplan]
        exact serve_continues hv seeds (.perform (.execute a call))

theorem load_content (hv : v.Ordered) (hg : v.Genuine) (hf : CollisionFree v.strings)
    (hc : v.Countable) (seeds seeds' : SeedSource) :
    ∃ bytes, StateFile.content (ofVault v seeds) = .ok bytes ∧
      StateFile.load seeds' (.content bytes) = .ok (ofVault v seeds') := by
  have hrecords := hg.records_eq
  have hsnapshot := snapshot_genuine hg seeds
  rw [hg.tokens_eq hf] at hsnapshot
  have hread := Snapshot.ofBytes_toBytes (hc.snapshotOf hrecords) rfl (Snapshot.verify_create ..)
  refine ⟨(v.snapshotOf v.issued).toBytes, ?_, ?_⟩
  · rw [StateFile.content, hsnapshot]
    rfl
  · simp only [StateFile.load, hread, ofSnapshot_snapshotOf hv hrecords]
    rfl

theorem Leads.continues {seeds : SeedSource} {l' : Ledger} (hv : v.Ordered) (hg : v.Genuine)
    (hl : (ofVault v seeds).Leads h l') (hf : CollisionFree (v.strings ++ h.strings)) :
    ∃ v' seeds', l' = ofVault v' seeds' ∧ v.Continues h v' := by
  induction hl with
  | refl => exact ⟨v, seeds, rfl, .refl hv⟩
  | @serve h l' _ r ih =>
    obtain ⟨v₁, seeds₁, rfl, hcont⟩ := ih hf.of_append
    obtain ⟨v', seeds', hserve, hcont'⟩ := serve_continues hcont.ordered seeds₁ r
    exact ⟨v', seeds', hserve, hcont.trans hcont'⟩
  | @command h l' _ caller c ih =>
    obtain ⟨v₁, seeds₁, rfl, hcont⟩ := ih hf.of_append
    obtain ⟨v', seeds', hrun, hcont'⟩ := command_continues hcont.ordered seeds₁ caller c
    exact ⟨v', seeds', hrun, hcont.trans hcont'⟩
  | reseed _ seeds' ih =>
    obtain ⟨v₁, seeds₁, rfl, hcont⟩ := ih hf
    exact ⟨v₁, seeds', rfl, hcont⟩
  | @reload h l' l'' seeds' bytes _ hc hsave hload ih =>
    obtain ⟨v₁, seeds₁, rfl, hcont⟩ := ih hf
    have hg₁ : v₁.Genuine := hg.append hcont.records
    have hf₁ : CollisionFree v₁.strings := hf.mono (hcont.strings_subset hg)
    obtain ⟨bytes', hsave', hload'⟩ := load_content hcont.ordered hg₁ hf₁ hc seeds₁ seeds'
    cases hsave.symm.trans hsave'
    cases hload.symm.trans hload'
    exact ⟨v₁, seeds', rfl, hcont⟩

/-- The text of the commitment is read as the commitment, and in every later ledger the token
is found under it, unless it had been spent before or was consumed since. -/
structure Names (l : Ledger) (t : Token) : Prop where
  read : Command.record? t.commitment.text = some t.commitment
  later : ∀ h l', l.Leads h l' → CollisionFree (l.store.vault.strings ++ h.strings) →
    l'.unspentRecord t.commitment =
      if l.store.vault.isSpent t.serial ∨ t ∈ h.consumed then .error (.alreadySpent t.commitment)
      else .ok t

theorem isSpent_later {v' : Vault} (hcont : v.Continues h v') (ht : t ∈ v.issued)
    (hf : CollisionFree (v.strings ++ h.strings)) :
    v'.isSpent t.serial = true ↔ v.isSpent t.serial = true ∨ t ∈ h.consumed := by
  rw [hcont.spent]
  refine or_congr_right ⟨fun hmem => ?_, fun hmem => List.mem_map_of_mem hmem⟩
  obtain ⟨u, hu, hserial⟩ := List.mem_map.1 hmem
  have ht' : t.strings ⊆ v.strings ++ h.strings :=
    List.subset_append_of_subset_left _ (Vault.strings_subset ht)
  have hu' : u.strings ⊆ v.strings ++ h.strings := fun x hx =>
    List.mem_append_right _ (List.mem_flatMap.2 ⟨u, List.mem_append_right _ hu, hx⟩)
  have hname := hf.commitment_eq (hu' (by simp [Token.strings])) (ht' (by simp [Token.strings]))
    hserial
  rw [← Vault.token_eq hf hu' ht' hname]
  exact hu

theorem names_of_mem (hv : v.Ordered) (hg : v.Genuine) (ht : t ∈ v.issued) (seeds : SeedSource) :
    (ofVault v seeds).Names t := by
  refine ⟨?_, fun h l' hl hf => ?_⟩
  · rw [Command.record?, Commitment.parse, Commitment.text, Digest.parse_text]
    rfl
  · obtain ⟨v', seeds', rfl, hcont⟩ := hl.continues hv hg hf
    have hg' : v'.Genuine := hg.append hcont.records
    have ht' : t ∈ v'.issued := by
      rw [hcont.issued hg]
      exact List.mem_append_left _ ht
    have hknown := Vault.hasRecord_of_mem_records (hg'.mem_issued.1 ht')
    obtain ⟨u, hu, hname, hrecord, -⟩ := hg'.stored_of_hasRecord hknown
    have hsame : u = t := by
      refine Vault.token_eq (hf.mono (hcont.strings_subset hg)) ?_ ?_ hname
      · exact Vault.strings_subset hu
      · exact Vault.strings_subset ht'
    have hhas : (ofVault v' seeds').store.hasRecord t.commitment = .ok true :=
      congrArg Except.ok hknown
    have hspent : (ofVault v' seeds').store.isSpent t.commitment.serial =
        .ok (v'.isSpent t.serial) := rfl
    have hload := load_of_record? seeds' hrecord
    rw [hsame] at hload
    have hiff := isSpent_later hcont ht hf
    rw [unspentRecord, hhas, hspent, Answers.liftStore_ok, Answers.liftStore_ok, Answers.ok_bind,
      if_pos rfl, Answers.ok_bind]
    exact if_congr hiff rfl hload

end Ledger

end TokenLedger
