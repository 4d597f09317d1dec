import TokenLedger.Snapshot
import TokenLedger.Proofs.RecordBody

/-!
# The bytes of a snapshot read back

Lists stand behind a count of eight bytes, so they read back as long as the
count fits. A snapshot that was made from its content carries the hash of it
and the known version, and is accepted again from its bytes.
-/

set_option autoImplicit false

namespace TokenLedger

namespace Wire

variable {α β : Type} [Binary α] [Binary β]

theorem readsBack_uint32 : ReadsBack UInt32 := by
  intro n rest
  have hn : n.toNat < Radix.capacity 256 4 := n.toNat_lt
  simp only [get, put, Reader.word_append hn]
  simp

theorem readsBack_serialNumber : ReadsBack SerialNumber := by
  intro n rest
  show (get (put n.digest ++ rest) >>= _) = _
  rw [readsBack_bytes32 n.digest rest]
  rfl

theorem readsBack_pair (hα : ReadsBack α) (hβ : ReadsBack β) : ReadsBack (α × β) := by
  intro p rest
  show (get (put p.1 ++ put p.2 ++ rest) >>= _) = _
  have hsecond := hβ p.2 rest
  rw [List.append_assoc, hα]
  simp only [Answers.ok_bind, hsecond, Answers.pure_eq]

theorem many_append (h : ReadsBack α) (xs : List α) (rest : Bytes) :
    Reader.many get xs.length (xs.flatMap put ++ rest) = .ok (xs, rest) := by
  induction xs with
  | nil => rfl
  | cons x xs ih =>
    rw [List.flatMap_cons, List.append_assoc, List.length_cons, Reader.many, h]
    simp only [Answers.ok_bind, ih, Answers.pure_eq]

theorem list_append (h : ReadsBack α) {xs : List α} (hlength : xs.length < Radix.capacity 256 8)
    (rest : Bytes) : get (put xs ++ rest) = .ok (xs, rest) := by
  show (Reader.word 8 (Bytes.word 8 xs.length ++ xs.flatMap put ++ rest) >>= _) = _
  rw [List.append_assoc, Reader.word_append hlength, Answers.ok_bind]
  exact many_append h xs rest

end Wire

namespace Snapshot

/-- All lists are short enough to be counted in eight bytes. -/
structure Countable (s : Snapshot) : Prop where
  accounts : s.accounts.length < Radix.capacity 256 8
  records : s.records.length < Radix.capacity 256 8
  spent : s.spent.length < Radix.capacity 256 8

variable {s : Snapshot}

theorem put_append (hs : s.Countable) (rest : Bytes) :
    Wire.get (Wire.put s ++ rest) = .ok (s, rest) := by
  have hput : Wire.put s ++ rest = Wire.put s.hash ++ (Wire.put s.height ++
      (Wire.put s.accounts ++ (Wire.put s.records ++ (Wire.put s.spent ++
        (Wire.put s.version ++ rest))))) := by
    show Wire.put s.hash ++ Wire.put s.height ++ Wire.put s.accounts ++ Wire.put s.records ++
      Wire.put s.spent ++ Wire.put s.version ++ rest = _
    simp only [List.append_assoc]
  have haccounts := Wire.list_append
    (Wire.readsBack_pair Wire.readsBack_address Wire.readsBack_uint64) hs.accounts
  have hrecords := Wire.list_append Wire.readsBack_token hs.records
  have hspent := Wire.list_append Wire.readsBack_serialNumber hs.spent
  rw [hput]
  show (Wire.get (Wire.put s.hash ++ _) >>= _) = _
  simp only [Wire.readsBack_bytes32 _ _, Wire.readsBack_uint64 _ _, Wire.readsBack_uint32 _ _,
    haccounts, hrecords, hspent, Answers.ok_bind, Answers.pure_eq]

theorem ofBytes_toBytes (hs : s.Countable) (hversion : s.version = currentVersion)
    (hverify : s.verify = true) : ofBytes s.toBytes = .ok s := by
  have hget := put_append hs []
  rw [List.append_nil] at hget
  rw [ofBytes, toBytes, hget]
  simp only [hversion, ne_eq, not_true_eq_false, if_false, hverify, if_true]

theorem verify_create (accounts : Balances) (records : List Token) (spent : List SerialNumber)
    (height : UInt64) : (create accounts records spent height).verify = true :=
  beq_self_eq_true _

def sample : Snapshot :=
  create [(⟨Bytes32.replicate 1⟩, 30), (⟨Bytes32.replicate 2⟩, 0)]
    [⟨⟨Bytes32.replicate 1⟩, 70, Bytes32.replicate 1⟩,
      ⟨⟨Bytes32.replicate 2⟩, 30, Bytes32.replicate 2⟩]
    [Token.serial ⟨⟨Bytes32.replicate 1⟩, 70, Bytes32.replicate 1⟩] 4

theorem countable_sample : sample.Countable := ⟨by decide, by decide, by decide⟩

end Snapshot

end TokenLedger
