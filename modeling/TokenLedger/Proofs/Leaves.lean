import TokenLedger.Proofs.ExactForm
import TokenLedger.Proofs.Residues
import TokenLedger.Wire.Messages

/-!
# What is checked in the bytes of a message

Accounts and field elements travel as texts, and are checked when they are
read. Whatever bytes are read as a message, the text of each account in it and
a literal of each element stand in the bytes that were used.
-/

set_option autoImplicit false

namespace TokenLedger

open Wire

/-! ## What is checked in a message -/

inductive Leaf where
  | address (a : Address)
  | scalar (x : Scalar)

namespace Leaf

/-- A text from which the part may be read: the text of the account, or digits that stand for
the element itself, so for a number below the modulus. -/
def SpelledBy (s : String) : Leaf → Prop
  | address a => s = a.text
  | scalar x => Scalar.parse s = .ok x ∧
      Nat.ofDigitChars 10 (Scalar.stripSuffix s.toList) 0 = x.toNat ∧ x.toNat < Scalar.modulus

def FoundIn (found : String → Prop) (l : Leaf) : Prop := ∃ s, l.SpelledBy s ∧ found s

theorem FoundIn.mono {found found' : String → Prop} {l : Leaf} (h : l.FoundIn found)
    (hmono : ∀ s, found s → found' s) : l.FoundIn found' := by
  obtain ⟨s, hs, hfound⟩ := h
  exact ⟨s, hs, hmono s hfound⟩

end Leaf

theorem Scalar.spelledBy_of_parse {s : String} {x : Scalar} (h : parse s = .ok x) :
    (Leaf.scalar x).SpelledBy s := by
  refine ⟨h, ?_, x.toNat_lt⟩
  simp only [parse] at h
  split at h
  · cases h
  · split at h
    · next y hy =>
      cases h
      exact (ofDigits?_eq_some.1 hy).symm
    · cases h

def Token.leaves (t : Token) : List Leaf := [.address t.owner]

def Settlement.leaves : Settlement → List Leaf
  | transferPrivateToPublic receiver _ | mintPublic receiver _ => [.address receiver]
  | transferPublicToPrivate caller _ => [.address caller]
  | transferPublic caller receiver _ => [.address caller, .address receiver]

def Call.leaves : Call → List Leaf
  | mint _ => []
  | transferPrivate receiver _ input | transferPrivateToPublic receiver _ input =>
    .address receiver :: input.leaves
  | transferPublicToPrivate receiver _ | mintPublic receiver _ | transferPublic receiver _ =>
    [.address receiver]
  | join input input2 => input.leaves ++ input2.leaves
  | gate a b => [.scalar a, .scalar b]

def Transaction.leaves (tx : Transaction) : List Leaf :=
  .address tx.caller :: tx.consumed.flatMap Token.leaves ++ tx.outputs.flatMap Token.leaves ++
    tx.settlement.toList.flatMap Settlement.leaves ++ tx.value.toList.map .scalar

def Receipt.leaves (r : Receipt) : List Leaf :=
  r.outputs.flatMap Token.leaves ++ r.value.toList.map .scalar

/-! ## Bytes -/

namespace Wire

/-- From one rest of the input to the next the parts are found in the bytes between. -/
def Consumes (bs rest : Bytes) (ls : List Leaf) : Prop :=
  ∃ w, bs = w ++ rest ∧ ∀ l ∈ ls, l.FoundIn fun s => putText s <:+: w

theorem Consumes.trans {bs mid rest : Bytes} {ls ls' : List Leaf} (h : Consumes bs mid ls)
    (h' : Consumes mid rest ls') : Consumes bs rest (ls ++ ls') := by
  obtain ⟨w, rfl, hfound⟩ := h
  obtain ⟨w', rfl, hfound'⟩ := h'
  refine ⟨w ++ w', (List.append_assoc ..).symm, fun l hl => ?_⟩
  rcases List.mem_append.1 hl with hl | hl
  · exact (hfound l hl).mono fun s hs => hs.trans (List.prefix_append w w').isInfix
  · exact (hfound' l hl).mono fun s hs => hs.trans (List.suffix_append w w').isInfix

def Grounded {α : Type} [Binary α] (leaves : α → List Leaf) : Prop :=
  ∀ bs rest x, get bs = .ok (x, rest) → Consumes bs rest (leaves x)

/-- One step of a reader: what it gives is found, and the next step goes on behind it. -/
theorem Grounded.bind {α β : Type} [Binary α] {leaves : α → List Leaf} (hα : Grounded leaves)
    {next : α × Bytes → Except Fault β} {bs : Bytes} {y : β} (h : (get bs >>= next) = .ok y) :
    ∃ x mid, Consumes bs mid (leaves x) ∧ next (x, mid) = .ok y := by
  obtain ⟨⟨x, mid⟩, hx, h⟩ := Answers.bind_eq_ok.1 h
  exact ⟨x, mid, hα _ _ _ hx, h⟩

theorem Exact.grounded {α : Type} [Binary α] (h : Exact α) : Grounded fun _ : α => [] :=
  fun bs rest x hread => ⟨put x, h bs rest x hread, nofun⟩

theorem get_address_iff {bs rest : Bytes} {a : Address} :
    get bs = .ok (a, rest) ↔ bs = putText a.text ++ rest := by
  constructor
  · exact exact_address bs rest a
  · rintro rfl
    exact readsBack_address a rest

theorem spelled_of_get {bs rest : Bytes} {x : Scalar} (h : get bs = .ok (x, rest)) :
    ∃ s, (Leaf.scalar x).SpelledBy s ∧ bs = putText s ++ rest := by
  obtain ⟨s, htext, hparse⟩ := Reader.literal_eq_ok.1 h
  exact ⟨s, Scalar.spelledBy_of_parse hparse, Reader.eq_append_of_text htext⟩

theorem grounded_address : Grounded fun a : Address => [.address a] := by
  intro bs rest a h
  refine ⟨putText a.text, get_address_iff.1 h, fun l hl => ?_⟩
  rw [List.mem_singleton.1 hl]
  exact ⟨a.text, rfl, List.infix_refl _⟩

theorem grounded_scalar : Grounded fun x : Scalar => [.scalar x] := by
  intro bs rest x h
  obtain ⟨s, hs, hbs⟩ := spelled_of_get h
  refine ⟨putText s, hbs, fun l hl => ?_⟩
  rw [List.mem_singleton.1 hl]
  exact ⟨s, hs, List.infix_refl _⟩

theorem exact_transitionId : Exact TransitionId := by
  intro bs rest t h
  obtain ⟨⟨a, left⟩, hread, h⟩ := Answers.bind_eq_ok.1 h
  cases h
  exact exact_bytes32 bs rest a hread

theorem consumes_choice {count i : Nat} {bs rest : Bytes}
    (h : Reader.choice count bs = .ok (i, rest)) : Consumes bs rest [] := by
  obtain ⟨⟨j, left⟩, hword, h⟩ := Answers.bind_eq_ok.1 h
  obtain ⟨-, hbs⟩ := Reader.eq_append_of_word hword
  simp only at h
  split at h
  · cases h
    exact ⟨_, hbs, nofun⟩
  · cases h

theorem grounded_function : Grounded fun _ : Function => [] := by
  intro bs rest f h
  obtain ⟨⟨i, left⟩, hchoice, h⟩ := Answers.bind_eq_ok.1 h
  cases h
  exact consumes_choice hchoice

theorem grounded_token : Grounded Token.leaves := by
  intro bs rest t h
  obtain ⟨owner, bs₁, howner, h⟩ := grounded_address.bind h
  obtain ⟨balance, bs₂, hbalance, h⟩ := exact_uint64.grounded.bind h
  obtain ⟨nonce, bs₃, hnonce, h⟩ := exact_bytes32.grounded.bind h
  cases h
  exact howner.trans (hbalance.trans hnonce)

theorem grounded_many {α : Type} [Binary α] {leaves : α → List Leaf} (hα : Grounded leaves)
    {n : Nat} {bs rest : Bytes} {xs : List α} (h : Reader.many get n bs = .ok (xs, rest)) :
    Consumes bs rest (xs.flatMap leaves) := by
  induction n generalizing bs xs with
  | zero =>
    cases h
    exact ⟨[], rfl, nofun⟩
  | succ n ih =>
    obtain ⟨x, bs₁, hx, h⟩ := hα.bind h
    obtain ⟨⟨ys, bs₂⟩, hys, h⟩ := Answers.bind_eq_ok.1 h
    cases h
    rw [List.flatMap_cons]
    exact hx.trans (ih hys)

theorem grounded_list {α : Type} [Binary α] {leaves : α → List Leaf} (hα : Grounded leaves) :
    Grounded fun xs : List α => xs.flatMap leaves := by
  intro bs rest xs h
  obtain ⟨⟨n, left⟩, hword, h⟩ := Answers.bind_eq_ok.1 h
  obtain ⟨-, hbs⟩ := Reader.eq_append_of_word hword
  have hcount : Consumes bs left [] := ⟨_, hbs, nofun⟩
  exact hcount.trans (grounded_many hα h)

theorem grounded_option {α : Type} [Binary α] {leaves : α → List Leaf} (hα : Grounded leaves) :
    Grounded fun x : Option α => x.toList.flatMap leaves := by
  intro bs rest x h
  obtain ⟨⟨mark, left⟩, hword, h⟩ := Answers.bind_eq_ok.1 h
  obtain ⟨-, hbs⟩ := Reader.eq_append_of_word hword
  have hmark : Consumes bs left [] := ⟨_, hbs, nofun⟩
  simp only at h
  split at h
  · cases h
    exact hmark
  · obtain ⟨y, left', hy, h⟩ := hα.bind h
    cases h
    show Consumes bs left' ([y].flatMap leaves)
    rw [List.flatMap_singleton]
    exact hmark.trans hy
  · cases h

theorem grounded_settlement : Grounded Settlement.leaves := by
  intro bs rest s h
  obtain ⟨⟨i, left⟩, hchoice, h⟩ := Answers.bind_eq_ok.1 h
  have hstart := consumes_choice hchoice
  simp only at h
  split at h
  case h_4 =>
    obtain ⟨caller, bs₁, hcaller, h⟩ := grounded_address.bind h
    obtain ⟨receiver, bs₂, hreceiver, h⟩ := grounded_address.bind h
    obtain ⟨amount, bs₃, hamount, h⟩ := exact_uint64.grounded.bind h
    cases h
    exact hstart.trans (hcaller.trans (hreceiver.trans hamount))
  all_goals
    obtain ⟨account, bs₁, haccount, h⟩ := grounded_address.bind h
    obtain ⟨amount, bs₂, hamount, h⟩ := exact_uint64.grounded.bind h
    cases h
    exact hstart.trans (haccount.trans hamount)

theorem grounded_call : Grounded Call.leaves := by
  intro bs rest c h
  obtain ⟨⟨i, left⟩, hchoice, h⟩ := Answers.bind_eq_ok.1 h
  have hstart := consumes_choice hchoice
  simp only at h
  split at h
  case h_1 =>
    obtain ⟨amount, bs₁, hamount, h⟩ := exact_uint64.grounded.bind h
    cases h
    exact hstart.trans hamount
  case h_5 =>
    obtain ⟨input, bs₁, hinput, h⟩ := grounded_token.bind h
    obtain ⟨input2, bs₂, hinput2, h⟩ := grounded_token.bind h
    cases h
    exact hstart.trans (hinput.trans hinput2)
  case h_8 =>
    obtain ⟨a, bs₁, ha, h⟩ := grounded_scalar.bind h
    obtain ⟨b, bs₂, hb, h⟩ := grounded_scalar.bind h
    cases h
    exact hstart.trans (ha.trans hb)
  -- payments out of a record
  case h_2 | h_3 =>
    obtain ⟨receiver, bs₁, hreceiver, h⟩ := grounded_address.bind h
    obtain ⟨amount, bs₂, hamount, h⟩ := exact_uint64.grounded.bind h
    obtain ⟨input, bs₃, hinput, h⟩ := grounded_token.bind h
    cases h
    exact hstart.trans (hreceiver.trans (hamount.trans hinput))
  all_goals
    obtain ⟨receiver, bs₁, hreceiver, h⟩ := grounded_address.bind h
    obtain ⟨amount, bs₂, hamount, h⟩ := exact_uint64.grounded.bind h
    cases h
    exact hstart.trans (hreceiver.trans hamount)

theorem grounded_value : Grounded fun x : Option Scalar => x.toList.map .scalar := by
  intro bs rest x h
  have hread := grounded_option grounded_scalar _ _ _ h
  cases x with
  | none => exact hread
  | some x => exact hread

theorem grounded_transaction : Grounded Transaction.leaves := by
  intro bs rest tx h
  have htokens := grounded_list grounded_token
  have hsettles := grounded_option grounded_settlement
  obtain ⟨id, bs₁, hid, h⟩ := exact_transitionId.grounded.bind h
  obtain ⟨function, bs₂, hfunction, h⟩ := grounded_function.bind h
  obtain ⟨caller, bs₃, hcaller, h⟩ := grounded_address.bind h
  obtain ⟨consumed, bs₄, hconsumed, h⟩ := htokens.bind h
  obtain ⟨outputs, bs₅, houtputs, h⟩ := htokens.bind h
  obtain ⟨settlement, bs₆, hsettlement, h⟩ := hsettles.bind h
  obtain ⟨value, bs₇, hvalue, h⟩ := grounded_value.bind h
  cases h
  have hhead := hid.trans (hfunction.trans hcaller)
  exact (((hhead.trans hconsumed).trans houtputs).trans hsettlement).trans hvalue

theorem grounded_receipt : Grounded Receipt.leaves := by
  intro bs rest r h
  obtain ⟨id, bs₁, hid, h⟩ := exact_transitionId.grounded.bind h
  obtain ⟨function, bs₂, hfunction, h⟩ := grounded_function.bind h
  obtain ⟨outputs, bs₃, houtputs, h⟩ := (grounded_list grounded_token).bind h
  obtain ⟨value, bs₄, hvalue, h⟩ := grounded_value.bind h
  obtain ⟨height, bs₅, hheight, h⟩ := exact_uint64.grounded.bind h
  cases h
  have hread := (((hid.trans hfunction).trans houtputs).trans hvalue).trans hheight
  rw [List.append_nil] at hread
  exact hread

end Wire

end TokenLedger
