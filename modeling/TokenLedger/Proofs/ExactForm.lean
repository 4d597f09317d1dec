import TokenLedger.Proofs.CanonicalText
import TokenLedger.Proofs.ExactUtf8
import TokenLedger.Proofs.SnapshotBody

/-!
# Only written forms are read

A reader that succeeds has consumed the written form of the value it gives,
so bytes are read as a value exactly if they start with its written form. For
a snapshot the version and the hash come on top. It follows that no two
snapshots share their bytes and that bytes cut short are never taken for a
snapshot.
-/

set_option autoImplicit false

namespace TokenLedger

namespace Wire

namespace Reader

variable {bs rest w : Bytes} {n m : Nat}

theorem eq_append_of_take (h : take n bs = .ok (w, rest)) : w.length = n ∧ bs = w ++ rest := by
  unfold take at h
  split at h
  · next hle =>
    cases h
    exact ⟨List.length_take_of_le hle, (List.take_append_drop n bs).symm⟩
  · cases h

theorem eq_append_of_word (h : word n bs = .ok (m, rest)) :
    m < Radix.capacity 256 n ∧ bs = Bytes.word n m ++ rest := by
  obtain ⟨⟨w, left⟩, htake, h⟩ := Answers.bind_eq_ok.1 h
  cases h
  obtain ⟨rfl, hbs⟩ := eq_append_of_take htake
  rw [Bytes.word_wordValue]
  exact ⟨Bytes.wordValue_lt w, hbs⟩

theorem eq_append_of_text {s : String} (h : text bs = .ok (s, rest)) : bs = putText s ++ rest := by
  obtain ⟨⟨n, left⟩, hword, h⟩ := Answers.bind_eq_ok.1 h
  obtain ⟨-, hbs⟩ := eq_append_of_word hword
  simp only at h
  split at h
  · next hle =>
    split at h
    · next cs hdecode =>
      cases h
      have hencode := Text.Utf8.encode_of_decode hdecode
      rw [hbs, putText, Text.Utf8.ofString, String.toList_ofList, hencode,
        List.length_take_of_le hle, List.append_assoc, List.take_append_drop]
    · cases h
  · cases h

end Reader

/-- What is read from some bytes is written as their start, up to what is left over. -/
def Exact (α : Type) [Binary α] : Prop :=
  ∀ (bs rest : Bytes) (x : α), get bs = .ok (x, rest) → bs = put x ++ rest

theorem exact_uint32 : Exact UInt32 := by
  intro bs rest n h
  obtain ⟨⟨m, left⟩, hword, h⟩ := Answers.bind_eq_ok.1 h
  cases h
  obtain ⟨hm, hbs⟩ := Reader.eq_append_of_word hword
  have hsame : (UInt32.ofNat m).toNat = m := UInt32.toNat_ofNat_of_lt' hm
  simpa only [put, hsame] using hbs

theorem exact_uint64 : Exact UInt64 := by
  intro bs rest n h
  obtain ⟨⟨m, left⟩, hword, h⟩ := Answers.bind_eq_ok.1 h
  cases h
  obtain ⟨hm, hbs⟩ := Reader.eq_append_of_word hword
  have hsame : (UInt64.ofNat m).toNat = m := UInt64.toNat_ofNat_of_lt' hm
  simpa only [put, hsame] using hbs

theorem exact_bytes32 : Exact Bytes32 := by
  intro bs rest a h
  obtain ⟨⟨w, left⟩, htake, h⟩ := Answers.bind_eq_ok.1 h
  obtain ⟨-, hbs⟩ := Reader.eq_append_of_take htake
  simp only at h
  split at h
  · next a' ha =>
    cases h
    rw [hbs, ← Bytes32.toList_of_ofList? ha]
    rfl
  · cases h

theorem exact_serialNumber : Exact SerialNumber := by
  intro bs rest n h
  obtain ⟨⟨a, left⟩, hread, h⟩ := Answers.bind_eq_ok.1 h
  cases h
  exact exact_bytes32 bs rest a hread

theorem exact_address : Exact Address := by
  intro bs rest a h
  obtain ⟨s, htext, hparse⟩ := Reader.literal_eq_ok.1 h
  rw [Reader.eq_append_of_text htext, ← Address.text_of_parse hparse]
  rfl

theorem exact_token : Exact Token := by
  intro bs rest t h
  obtain ⟨⟨owner, bs₁⟩, howner, h⟩ := Answers.bind_eq_ok.1 h
  obtain ⟨⟨balance, bs₂⟩, hbalance, h⟩ := Answers.bind_eq_ok.1 h
  obtain ⟨⟨nonce, bs₃⟩, hnonce, h⟩ := Answers.bind_eq_ok.1 h
  cases h
  rw [exact_address _ _ _ howner, exact_uint64 _ _ _ hbalance, exact_bytes32 _ _ _ hnonce,
    ← List.append_assoc, ← List.append_assoc]
  rfl

variable {α β : Type} [Binary α] [Binary β]

theorem exact_pair (hα : Exact α) (hβ : Exact β) : Exact (α × β) := by
  intro bs rest p h
  obtain ⟨⟨a, bs₁⟩, ha, h⟩ := Answers.bind_eq_ok.1 h
  obtain ⟨⟨b, bs₂⟩, hb, h⟩ := Answers.bind_eq_ok.1 h
  cases h
  rw [hα _ _ _ ha, hβ _ _ _ hb, ← List.append_assoc]
  rfl

theorem eq_append_of_many (hα : Exact α) {n : Nat} {bs rest : Bytes} {xs : List α}
    (h : Reader.many get n bs = .ok (xs, rest)) : xs.length = n ∧ bs = xs.flatMap put ++ rest := by
  induction n generalizing bs xs with
  | zero =>
    cases h
    exact ⟨rfl, rfl⟩
  | succ n ih =>
    obtain ⟨⟨x, bs₁⟩, hx, h⟩ := Answers.bind_eq_ok.1 h
    obtain ⟨⟨ys, bs₂⟩, hys, h⟩ := Answers.bind_eq_ok.1 h
    cases h
    obtain ⟨hlength, hbs⟩ := ih hys
    rw [hα _ _ _ hx, hbs, List.flatMap_cons, List.append_assoc, List.length_cons, hlength]
    exact ⟨rfl, rfl⟩

theorem eq_append_of_list (hα : Exact α) {bs rest : Bytes} {xs : List α}
    (h : get bs = .ok (xs, rest)) :
    xs.length < Radix.capacity 256 8 ∧ bs = put xs ++ rest := by
  obtain ⟨⟨n, left⟩, hword, h⟩ := Answers.bind_eq_ok.1 h
  obtain ⟨hn, hbs⟩ := Reader.eq_append_of_word hword
  obtain ⟨rfl, hleft⟩ := eq_append_of_many hα h
  refine ⟨hn, ?_⟩
  show bs = Bytes.word 8 xs.length ++ xs.flatMap put ++ rest
  rw [hbs, hleft, List.append_assoc]

theorem eq_append_of_snapshot {bs rest : Bytes} {s : Snapshot} (h : get bs = .ok (s, rest)) :
    s.Countable ∧ bs = put s ++ rest := by
  obtain ⟨⟨hash, bs₁⟩, hhash, h⟩ := Answers.bind_eq_ok.1 h
  obtain ⟨⟨height, bs₂⟩, hheight, h⟩ := Answers.bind_eq_ok.1 h
  obtain ⟨⟨accounts, bs₃⟩, haccounts, h⟩ := Answers.bind_eq_ok.1 h
  obtain ⟨⟨records, bs₄⟩, hrecords, h⟩ := Answers.bind_eq_ok.1 h
  obtain ⟨⟨spent, bs₅⟩, hspent, h⟩ := Answers.bind_eq_ok.1 h
  obtain ⟨⟨version, bs₆⟩, hversion, h⟩ := Answers.bind_eq_ok.1 h
  cases h
  obtain ⟨hmany, haccounts⟩ := eq_append_of_list (exact_pair exact_address exact_uint64) haccounts
  obtain ⟨hmany', hrecords⟩ := eq_append_of_list exact_token hrecords
  obtain ⟨hmany'', hspent⟩ := eq_append_of_list exact_serialNumber hspent
  refine ⟨⟨hmany, hmany', hmany''⟩, ?_⟩
  rw [exact_bytes32 _ _ _ hhash, exact_uint64 _ _ _ hheight, haccounts, hrecords, hspent,
    exact_uint32 _ _ _ hversion]
  simp only [← List.append_assoc]
  rfl

end Wire

/-! ## Bodies and state files -/

theorem Token.ofBytes_eq_ok {bs : Bytes} {t : Token} : ofBytes bs = .ok t ↔ t.toBytes <+: bs := by
  constructor
  · intro h
    unfold ofBytes at h
    split at h
    · next u rest hget =>
      cases h
      exact ⟨rest, (Wire.exact_token _ _ _ hget).symm⟩
    · cases h
  · rintro ⟨rest, rfl⟩
    rw [ofBytes, toBytes, Wire.readsBack_token]

namespace Snapshot

variable {s s' : Snapshot} {bs : Bytes}

theorem ofBytes_eq_ok :
    ofBytes bs = .ok s ↔
      s.Countable ∧ s.version = currentVersion ∧ s.verify = true ∧ s.toBytes <+: bs := by
  constructor
  · intro h
    unfold ofBytes at h
    split at h
    · cases h
    · next s' rest hget =>
      obtain ⟨hs, hbs⟩ := Wire.eq_append_of_snapshot hget
      split at h
      · cases h
      · next hversion =>
        split at h
        · next hverify =>
          cases h
          exact ⟨hs, Decidable.not_not.1 hversion, hverify, rest, hbs.symm⟩
        · cases h
  · rintro ⟨hs, hversion, hverify, rest, rfl⟩
    rw [ofBytes, toBytes, put_append hs rest]
    simp only [hversion, ne_eq, not_true_eq_false, if_false, hverify, if_true]

theorem eq_of_prefix (hs : s.Countable) (hs' : s'.Countable) (h : s.toBytes <+: s'.toBytes) :
    s = s' := by
  obtain ⟨rest, hrest⟩ := h
  have hget := put_append hs rest
  have hget' := put_append hs' []
  rw [← toBytes, hrest] at hget
  rw [← toBytes, List.append_nil, hget] at hget'
  cases hget'
  rfl

structure ExactFormat (s : Snapshot) : Prop where
  reads : ∀ bs, ofBytes bs = .ok s ↔
    s.version = currentVersion ∧ s.verify = true ∧ s.toBytes <+: bs
  created : s = create s.accounts s.records s.spent s.height → ofBytes s.toBytes = .ok s
  apart : ∀ s' : Snapshot, s'.Countable → s.toBytes = s'.toBytes → s = s'
  truncated : ∀ bs, bs <+: s.toBytes → bs ≠ s.toBytes → ∃ fault, ofBytes bs = .error fault

/-- State files are read exactly as they are written, and so are the bodies of records. -/
theorem exactFormat_of_countable (hs : s.Countable) :
    s.ExactFormat ∧ ∀ (t : Token) (bs : Bytes), Token.ofBytes bs = .ok t ↔ t.toBytes <+: bs := by
  refine ⟨?_, fun t bs => Token.ofBytes_eq_ok⟩
  constructor
  · intro bs
    rw [ofBytes_eq_ok, and_iff_right hs]
  · intro hcreated
    have hversion : s.version = currentVersion := by rw [hcreated]; rfl
    have hverify : s.verify = true := by rw [hcreated]; exact verify_create ..
    exact ofBytes_toBytes hs hversion hverify
  · intro s' hs' h
    exact eq_of_prefix hs hs' (h ▸ List.prefix_refl _)
  · intro bs hcut hne
    cases hread : ofBytes bs with
    | error fault => exact ⟨fault, rfl⟩
    | ok s' =>
      obtain ⟨hs', -, -, hstart⟩ := ofBytes_eq_ok.1 hread
      -- what was read would start the longer bytes as well, and so be the snapshot itself
      obtain rfl := eq_of_prefix hs' hs (hstart.trans hcut)
      exact absurd (hcut.eq_of_length_le hstart.length_le) hne

theorem exactFormat_sample :
    sample.Countable ∧ sample.ExactFormat ∧ ofBytes sample.toBytes = .ok sample ∧
      ∀ (t : Token) (bs : Bytes), Token.ofBytes bs = .ok t ↔ t.toBytes <+: bs := by
  obtain ⟨hexact, htokens⟩ := exactFormat_of_countable countable_sample
  exact ⟨countable_sample, hexact, hexact.created rfl, htokens⟩

end Snapshot

end TokenLedger
