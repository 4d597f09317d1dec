import TokenLedger.Proofs.SnapshotBody
import TokenLedger.Wire.Messages

/-!
# The bytes of messages read back

Calls and settlements are read back from the front of any bytes, and so are
transactions and receipts whose lists can be counted in eight bytes.
-/

set_option autoImplicit false

namespace TokenLedger

/-- The lists of records are short enough to be counted in eight bytes. -/
structure Transaction.Countable (tx : Transaction) : Prop where
  consumed : tx.consumed.length < Radix.capacity 256 8
  outputs : tx.outputs.length < Radix.capacity 256 8

def Receipt.Countable (r : Receipt) : Prop := r.outputs.length < Radix.capacity 256 8

namespace Wire

theorem Reader.choice_append {i count : Nat} (hi : i < count) (hcount : count ≤ 8)
    (rest : Bytes) : choice count (putChoice i ++ rest) = .ok (i, rest) := by
  have hcap : 8 < Radix.capacity 256 4 := by decide
  rw [choice, putChoice, word_append (by omega)]
  exact if_pos hi

theorem Reader.choice_bind {α : Type} {i count : Nat} (hi : i < count) (hcount : count ≤ 8)
    (rest : Bytes) (next : Nat × Bytes → Except Fault (α × Bytes)) :
    (choice count (putChoice i ++ rest) >>= next) = next (i, rest) := by
  rw [choice_append hi hcount, Answers.ok_bind]

theorem readsBack_scalar : ReadsBack Scalar := by
  intro a rest
  have hlen : a.chars.length < Radix.capacity 256 8 :=
    Nat.lt_of_le_of_lt a.length_chars_le (by decide)
  have htext := Reader.text_append (fun _ => Scalar.toNat_lt_of_mem_chars) hlen rest
  rw [← Scalar.text] at htext
  simp only [get, put, Reader.literal, htext]
  simp [Scalar.parse_text]

theorem readsBack_transitionId : ReadsBack TransitionId := by
  intro t rest
  show (get (put t.digest ++ rest) >>= _) = _
  rw [readsBack_bytes32 t.digest rest]
  rfl

theorem readsBack_function : ReadsBack Function := by
  intro f rest
  have hindex : Function.all.idxOf f < Function.all.length := by cases f <;> decide
  have hfound : Function.all.getD (Function.all.idxOf f) .mint = f := by cases f <;> decide
  show (Reader.choice Function.all.length (putChoice (Function.all.idxOf f) ++ rest) >>= _) = _
  rw [Reader.choice_append hindex (by decide)]
  show Except.ok (Function.all.getD (Function.all.idxOf f) .mint, rest) = _
  rw [hfound]

theorem readsBack_option {α : Type} [Binary α] (h : ReadsBack α) : ReadsBack (Option α) := by
  intro x rest
  have hmark (m : UInt8) (tail : Bytes) :
      Reader.word 1 (m :: tail) = .ok (m.toNat, tail) := by
    simp [Reader.word, Reader.take, Bytes.wordValue, Radix.value]
  cases x with
  | none =>
    show (Reader.word 1 (0 :: rest) >>= _) = _
    rw [hmark]
    rfl
  | some x =>
    show (Reader.word 1 (1 :: (put x ++ rest)) >>= _) = _
    rw [hmark]
    show (get (put x ++ rest) >>= _) = _
    rw [h]
    rfl

theorem readsBack_settlement : ReadsBack Settlement := by
  intro s rest
  cases s with
  | transferPrivateToPublic receiver amount =>
    show get (putChoice 0 ++ put receiver ++ put amount ++ rest) = _
    simp only [List.append_assoc]
    refine Eq.trans (Reader.choice_bind (by decide) (by decide) _ _) ?_
    simp only [Answers.ok_bind, readsBack_address _ _, readsBack_uint64 _ _, Answers.pure_eq]
  | transferPublicToPrivate caller amount =>
    show get (putChoice 1 ++ put caller ++ put amount ++ rest) = _
    simp only [List.append_assoc]
    refine Eq.trans (Reader.choice_bind (by decide) (by decide) _ _) ?_
    simp only [Answers.ok_bind, readsBack_address _ _, readsBack_uint64 _ _, Answers.pure_eq]
  | mintPublic receiver amount =>
    show get (putChoice 2 ++ put receiver ++ put amount ++ rest) = _
    simp only [List.append_assoc]
    refine Eq.trans (Reader.choice_bind (by decide) (by decide) _ _) ?_
    simp only [Answers.ok_bind, readsBack_address _ _, readsBack_uint64 _ _, Answers.pure_eq]
  | transferPublic caller receiver amount =>
    show get (putChoice 3 ++ put caller ++ put receiver ++ put amount ++ rest) = _
    simp only [List.append_assoc]
    refine Eq.trans (Reader.choice_bind (by decide) (by decide) _ _) ?_
    simp only [Answers.ok_bind, readsBack_address _ _, readsBack_uint64 _ _, Answers.pure_eq]

theorem readsBack_call : ReadsBack Call := by
  intro c rest
  cases c with
  | mint amount =>
    show get (putChoice 0 ++ put amount ++ rest) = _
    simp only [List.append_assoc]
    refine Eq.trans (Reader.choice_bind (by decide) (by decide) _ _) ?_
    simp only [Answers.ok_bind, readsBack_uint64 _ _, Answers.pure_eq]
  | transferPrivate receiver amount input =>
    show get (putChoice 1 ++ put receiver ++ put amount ++ put input ++ rest) = _
    simp only [List.append_assoc]
    refine Eq.trans (Reader.choice_bind (by decide) (by decide) _ _) ?_
    simp only [Answers.ok_bind, readsBack_address _ _, readsBack_uint64 _ _, readsBack_token _ _,
      Answers.pure_eq]
  | transferPrivateToPublic receiver amount input =>
    show get (putChoice 2 ++ put receiver ++ put amount ++ put input ++ rest) = _
    simp only [List.append_assoc]
    refine Eq.trans (Reader.choice_bind (by decide) (by decide) _ _) ?_
    simp only [Answers.ok_bind, readsBack_address _ _, readsBack_uint64 _ _, readsBack_token _ _,
      Answers.pure_eq]
  | transferPublicToPrivate receiver amount =>
    show get (putChoice 3 ++ put receiver ++ put amount ++ rest) = _
    simp only [List.append_assoc]
    refine Eq.trans (Reader.choice_bind (by decide) (by decide) _ _) ?_
    simp only [Answers.ok_bind, readsBack_address _ _, readsBack_uint64 _ _, Answers.pure_eq]
  | join input input2 =>
    show get (putChoice 4 ++ put input ++ put input2 ++ rest) = _
    simp only [List.append_assoc]
    refine Eq.trans (Reader.choice_bind (by decide) (by decide) _ _) ?_
    simp only [Answers.ok_bind, readsBack_token _ _, Answers.pure_eq]
  | mintPublic receiver amount =>
    show get (putChoice 5 ++ put receiver ++ put amount ++ rest) = _
    simp only [List.append_assoc]
    refine Eq.trans (Reader.choice_bind (by decide) (by decide) _ _) ?_
    simp only [Answers.ok_bind, readsBack_address _ _, readsBack_uint64 _ _, Answers.pure_eq]
  | transferPublic receiver amount =>
    show get (putChoice 6 ++ put receiver ++ put amount ++ rest) = _
    simp only [List.append_assoc]
    refine Eq.trans (Reader.choice_bind (by decide) (by decide) _ _) ?_
    simp only [Answers.ok_bind, readsBack_address _ _, readsBack_uint64 _ _, Answers.pure_eq]
  | gate a b =>
    show get (putChoice 7 ++ put a ++ put b ++ rest) = _
    simp only [List.append_assoc]
    refine Eq.trans (Reader.choice_bind (by decide) (by decide) _ _) ?_
    simp only [Answers.ok_bind, readsBack_scalar _ _, Answers.pure_eq]

theorem tokens_append {ts : List Token} (h : ts.length < Radix.capacity 256 8) (rest : Bytes) :
    get (put ts ++ rest) = .ok (ts, rest) := list_append readsBack_token h rest

theorem transaction_append {tx : Transaction} (h : tx.Countable) (rest : Bytes) :
    get (put tx ++ rest) = .ok (tx, rest) := by
  show get (put tx.id ++ put tx.function ++ put tx.caller ++ put tx.consumed ++ put tx.outputs ++
    put tx.settlement ++ put tx.value ++ rest) = _
  simp only [List.append_assoc]
  show (get (put tx.id ++ _) >>= _) = _
  simp only [readsBack_transitionId _ _, readsBack_function _ _, readsBack_address _ _,
    tokens_append h.consumed, tokens_append h.outputs, readsBack_option readsBack_settlement _ _,
    readsBack_option readsBack_scalar _ _, Answers.ok_bind, Answers.pure_eq]

theorem receipt_append {r : Receipt} (h : r.Countable) (rest : Bytes) :
    get (put r ++ rest) = .ok (r, rest) := by
  show get (put r.id ++ put r.function ++ put r.outputs ++ put r.value ++ put r.height ++ rest) = _
  simp only [List.append_assoc]
  show (get (put r.id ++ _) >>= _) = _
  simp only [readsBack_transitionId _ _, readsBack_function _ _, tokens_append h,
    readsBack_option readsBack_scalar _ _, readsBack_uint64 _ _, Answers.ok_bind, Answers.pure_eq]

end Wire

end TokenLedger
