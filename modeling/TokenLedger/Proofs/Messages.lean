import TokenLedger.Proofs.JsonForms
import TokenLedger.Proofs.Leaves
import TokenLedger.Proofs.MessageBody

/-!
# Messages in both forms

Calls, settlements, transactions and receipts read back from their bytes and
from their JSON texts. In whatever is read the texts of accounts and field
elements have been checked: for every account that a message names the input
has its text, and for every element it has a literal below the modulus. What
a call evaluates to has the fields of a transaction in the same order, so it
is one here and has the same forms.
-/

set_option autoImplicit false

namespace TokenLedger

/-! ## JSON -/

inductive Json.Contains : Json → String → Prop where
  | text (s : String) : Contains (.text s) s
  | item {js : List Json} {j : Json} {s : String} (hj : j ∈ js) (h : Contains j s) :
      Contains (.array js) s
  | member {ms : List (String × Json)} {m : String × Json} {s : String} (hm : m ∈ ms)
      (h : Contains m.2 s) : Contains (.object ms) s

theorem Json.contains_of_fields? {j j' : Json} {names : List String} {slots : List (Option Json)}
    (hfields : j.fields? names = some slots) (hslot : some j' ∈ slots) {s : String}
    (h : j'.Contains s) : j.Contains s := by
  cases j with
  | array items =>
    simp only [fields?] at hfields
    split at hfields
    · cases hfields
      obtain ⟨i, hi, heq⟩ := List.mem_map.1 hslot
      cases heq
      exact .item hi h
    · cases hfields
  | object members =>
    simp only [fields?] at hfields
    split at hfields
    · cases hfields
      obtain ⟨name, -, hlookup⟩ := List.mem_map.1 hslot
      obtain ⟨before, after, hmembers, -⟩ := List.lookup_eq_some_iff.1 hlookup
      have hm : (name, j') ∈ members := by rw [hmembers]; simp
      exact .member hm h
    · cases hfields
  | _ => cases hfields

namespace Wire

/-- The parts of what is read are found in the value that it is read from. -/
def JsonGrounded {α : Type} [JsonForm α] (leaves : α → List Leaf) : Prop :=
  ∀ j x, ofJson? j = some x → ∀ l ∈ leaves x, l.FoundIn j.Contains

section Slots

variable {α : Type} [JsonForm α] {leaves : α → List Leaf} {j : Json} {names : List String}
  {slots : List (Option Json)} {slot : Option Json}

theorem JsonGrounded.required (hα : JsonGrounded leaves) (hfields : j.fields? names = some slots)
    (hslot : slot ∈ slots) {x : α} (h : required slot = some x) :
    ∀ l ∈ leaves x, l.FoundIn j.Contains := by
  obtain ⟨j', rfl, hread⟩ := Option.bind_eq_some_iff.1 h
  exact fun l hl => (hα j' x hread l hl).mono fun s hs =>
    Json.contains_of_fields? hfields hslot hs

theorem JsonGrounded.optional (hα : JsonGrounded leaves) (hfields : j.fields? names = some slots)
    (hslot : slot ∈ slots) {x : Option α} (h : optional slot = some x) :
    ∀ l ∈ x.toList.flatMap leaves, l.FoundIn j.Contains := by
  unfold Wire.optional at h
  split at h
  · cases h
    nofun
  · cases h
    nofun
  · next j' _ =>
    obtain ⟨y, hread, rfl⟩ := Option.map_eq_some_iff.1 h
    intro l hl
    have hl' : l ∈ leaves y := by simpa using hl
    exact (hα j' y hread l hl').mono fun s hs => Json.contains_of_fields? hfields hslot hs

end Slots

theorem ofJson?_address_iff {j : Json} {a : Address} : ofJson? j = some a ↔ j = .text a.text := by
  constructor
  · intro h
    simp only [ofJson?] at h
    split at h
    · next s =>
      cases hparse : Address.parse s with
      | ok a' =>
        rw [hparse] at h
        cases h
        rw [Address.text_of_parse hparse]
      | error e =>
        rw [hparse] at h
        cases h
    · cases h
  · rintro rfl
    exact lossless_address.back a

theorem spelled_of_ofJson? {j : Json} {x : Scalar} (h : ofJson? j = some x) :
    ∃ s, (Leaf.scalar x).SpelledBy s ∧ j = .text s := by
  simp only [ofJson?] at h
  split at h
  · next s =>
    cases hparse : Scalar.parse s with
    | ok x' =>
      rw [hparse] at h
      cases h
      exact ⟨s, Scalar.spelledBy_of_parse hparse, rfl⟩
    | error e =>
      rw [hparse] at h
      cases h
  · cases h

theorem jsonGrounded_address : JsonGrounded fun a : Address => [.address a] := by
  intro j a h l hl
  rw [List.mem_singleton.1 hl, ofJson?_address_iff.1 h]
  exact ⟨a.text, rfl, .text a.text⟩

theorem jsonGrounded_scalar : JsonGrounded fun x : Scalar => [.scalar x] := by
  intro j x h l hl
  obtain ⟨s, hs, rfl⟩ := spelled_of_ofJson? h
  rw [List.mem_singleton.1 hl]
  exact ⟨s, hs, .text s⟩

theorem exists_of_mapM {α : Type} {f : Json → Option α} {js : List Json} {xs : List α}
    (h : js.mapM f = some xs) {x : α} (hx : x ∈ xs) : ∃ j ∈ js, f j = some x := by
  induction js generalizing xs with
  | nil =>
    cases h
    cases hx
  | cons j js ih =>
    rw [List.mapM_cons] at h
    obtain ⟨y, hy, h⟩ := Option.bind_eq_some_iff.1 h
    obtain ⟨ys, hys, h⟩ := Option.bind_eq_some_iff.1 h
    cases h
    rcases List.mem_cons.1 hx with rfl | hx
    · exact ⟨j, by simp, hy⟩
    · obtain ⟨j', hj', hread⟩ := ih hys hx
      exact ⟨j', by simp [hj'], hread⟩

theorem jsonGrounded_list {α : Type} [JsonForm α] {leaves : α → List Leaf}
    (hα : JsonGrounded leaves) : JsonGrounded fun xs : List α => xs.flatMap leaves := by
  intro j xs h l hl
  cases j with
  | array js =>
    obtain ⟨x, hx, hl⟩ := List.mem_flatMap.1 hl
    obtain ⟨j', hj', hread⟩ := exists_of_mapM h hx
    exact (hα j' x hread l hl).mono fun s hs => .item hj' hs
  | _ => cases h

theorem jsonGrounded_token : JsonGrounded Token.leaves := by
  intro j t h
  obtain ⟨slots, hfields, h⟩ := Option.bind_eq_some_iff.1 h
  split at h
  · next owner balance nonce =>
    obtain ⟨o, howner, h⟩ := Option.bind_eq_some_iff.1 h
    obtain ⟨b, -, h⟩ := Option.bind_eq_some_iff.1 h
    obtain ⟨n, -, h⟩ := Option.bind_eq_some_iff.1 h
    cases h
    exact jsonGrounded_address.required hfields (by simp) howner
  · cases h

theorem foundIn_accountAmount {name : String} {j : Json} {a : Address} {n : UInt64}
    (h : accountAmount? name j = some (a, n)) :
    ∀ l ∈ [Leaf.address a], l.FoundIn j.Contains := by
  obtain ⟨slots, hfields, h⟩ := Option.bind_eq_some_iff.1 h
  split at h
  · next account amount =>
    obtain ⟨a', haccount, h⟩ := Option.bind_eq_some_iff.1 h
    obtain ⟨n', -, h⟩ := Option.bind_eq_some_iff.1 h
    cases h
    exact jsonGrounded_address.required hfields (by simp) haccount
  · cases h

theorem foundIn_payment {j : Json} {a : Address} {n : UInt64} {t : Token}
    (h : payment? j = some (a, n, t)) :
    ∀ l ∈ Leaf.address a :: t.leaves, l.FoundIn j.Contains := by
  obtain ⟨slots, hfields, h⟩ := Option.bind_eq_some_iff.1 h
  split at h
  · next receiver amount input =>
    obtain ⟨a', hreceiver, h⟩ := Option.bind_eq_some_iff.1 h
    obtain ⟨n', -, h⟩ := Option.bind_eq_some_iff.1 h
    obtain ⟨t', hinput, h⟩ := Option.bind_eq_some_iff.1 h
    cases h
    have haddress := jsonGrounded_address.required hfields (by simp) hreceiver
    have htoken := jsonGrounded_token.required hfields (by simp) hinput
    exact List.forall_mem_cons.2 ⟨haddress _ (by simp), htoken⟩
  · cases h

theorem contains_of_choice? {j body : Json} {tag : String} (h : j.choice? = some (tag, body))
    {s : String} (hs : body.Contains s) : j.Contains s := by
  unfold Json.choice? at h
  split at h
  · cases h
    exact .member (List.mem_singleton_self _) hs
  · cases h

theorem foundIn_settlementBody {j : Json} {f : Function} {s : Settlement}
    (h : settlementOfBody? j f = some s) : ∀ l ∈ s.leaves, l.FoundIn j.Contains := by
  cases f
  case transferPublic =>
    obtain ⟨slots, hfields, h⟩ := Option.bind_eq_some_iff.1 h
    split at h
    · next caller receiver amount =>
      obtain ⟨c, hcaller, h⟩ := Option.bind_eq_some_iff.1 h
      obtain ⟨r, hreceiver, h⟩ := Option.bind_eq_some_iff.1 h
      obtain ⟨n, -, h⟩ := Option.bind_eq_some_iff.1 h
      cases h
      have hfirst := jsonGrounded_address.required hfields (by simp) hcaller
      have hsecond := jsonGrounded_address.required hfields (by simp) hreceiver
      exact List.forall_mem_cons.2 ⟨hfirst _ (by simp), hsecond⟩
    · cases h
  case transferPrivateToPublic | transferPublicToPrivate | mintPublic =>
    obtain ⟨⟨a, n⟩, haccount, h⟩ := Option.bind_eq_some_iff.1 h
    cases h
    exact foundIn_accountAmount haccount
  all_goals cases h

theorem jsonGrounded_settlement : JsonGrounded Settlement.leaves := by
  intro j s h l hl
  obtain ⟨⟨tag, body⟩, hchoice, h⟩ := Option.bind_eq_some_iff.1 h
  obtain ⟨f, -, h⟩ := Option.bind_eq_some_iff.1 h
  exact (foundIn_settlementBody h l hl).mono fun s hs => contains_of_choice? hchoice hs

theorem foundIn_callBody {j : Json} {f : Function} {c : Call}
    (h : callOfBody? j f = some c) : ∀ l ∈ c.leaves, l.FoundIn j.Contains := by
  cases f
  case mint =>
    obtain ⟨slots, hfields, h⟩ := Option.bind_eq_some_iff.1 h
    split at h
    · obtain ⟨n, -, h⟩ := Option.bind_eq_some_iff.1 h
      cases h
      nofun
    · cases h
  case transferPrivate | transferPrivateToPublic =>
    obtain ⟨⟨a, n, t⟩, hpayment, h⟩ := Option.bind_eq_some_iff.1 h
    cases h
    exact foundIn_payment hpayment
  case transferPublicToPrivate | mintPublic | transferPublic =>
    obtain ⟨⟨a, n⟩, haccount, h⟩ := Option.bind_eq_some_iff.1 h
    cases h
    exact foundIn_accountAmount haccount
  case join =>
    obtain ⟨slots, hfields, h⟩ := Option.bind_eq_some_iff.1 h
    split at h
    · obtain ⟨t, hinput, h⟩ := Option.bind_eq_some_iff.1 h
      obtain ⟨t', hinput2, h⟩ := Option.bind_eq_some_iff.1 h
      cases h
      have hfirst := jsonGrounded_token.required hfields (by simp) hinput
      have hsecond := jsonGrounded_token.required hfields (by simp) hinput2
      exact List.forall_mem_append.2 ⟨hfirst, hsecond⟩
    · cases h
  case gate =>
    obtain ⟨slots, hfields, h⟩ := Option.bind_eq_some_iff.1 h
    split at h
    · obtain ⟨a, ha, h⟩ := Option.bind_eq_some_iff.1 h
      obtain ⟨b, hb, h⟩ := Option.bind_eq_some_iff.1 h
      cases h
      have hfirst := jsonGrounded_scalar.required hfields (by simp) ha
      have hsecond := jsonGrounded_scalar.required hfields (by simp) hb
      exact List.forall_mem_cons.2 ⟨hfirst _ (by simp), hsecond⟩
    · cases h

theorem jsonGrounded_call : JsonGrounded Call.leaves := by
  intro j c h l hl
  obtain ⟨⟨tag, body⟩, hchoice, h⟩ := Option.bind_eq_some_iff.1 h
  obtain ⟨f, -, h⟩ := Option.bind_eq_some_iff.1 h
  exact (foundIn_callBody h l hl).mono fun s hs => contains_of_choice? hchoice hs

theorem jsonGrounded_transaction : JsonGrounded Transaction.leaves := by
  intro j tx h
  obtain ⟨slots, hfields, h⟩ := Option.bind_eq_some_iff.1 h
  split at h
  · obtain ⟨id, -, h⟩ := Option.bind_eq_some_iff.1 h
    obtain ⟨function, -, h⟩ := Option.bind_eq_some_iff.1 h
    obtain ⟨caller, hcaller, h⟩ := Option.bind_eq_some_iff.1 h
    obtain ⟨consumed, hconsumed, h⟩ := Option.bind_eq_some_iff.1 h
    obtain ⟨outputs, houtputs, h⟩ := Option.bind_eq_some_iff.1 h
    obtain ⟨settlement, hsettlement, h⟩ := Option.bind_eq_some_iff.1 h
    obtain ⟨value, hvalue, h⟩ := Option.bind_eq_some_iff.1 h
    cases h
    have htokens := jsonGrounded_list jsonGrounded_token
    have hcaller := jsonGrounded_address.required hfields (by simp) hcaller
    have hconsumed := htokens.required hfields (by simp) hconsumed
    have houtputs := htokens.required hfields (by simp) houtputs
    have hsettlement := jsonGrounded_settlement.optional hfields (by simp) hsettlement
    have hvalue := jsonGrounded_scalar.optional hfields (by simp) hvalue
    rw [← List.map_eq_flatMap] at hvalue
    simp only [Transaction.leaves, List.cons_append, List.forall_mem_cons, List.forall_mem_append]
    exact ⟨hcaller _ (by simp), ⟨⟨hconsumed, houtputs⟩, hsettlement⟩, hvalue⟩
  · cases h

theorem jsonGrounded_receipt : JsonGrounded Receipt.leaves := by
  intro j r h
  obtain ⟨slots, hfields, h⟩ := Option.bind_eq_some_iff.1 h
  split at h
  · obtain ⟨id, -, h⟩ := Option.bind_eq_some_iff.1 h
    obtain ⟨function, -, h⟩ := Option.bind_eq_some_iff.1 h
    obtain ⟨outputs, houtputs, h⟩ := Option.bind_eq_some_iff.1 h
    obtain ⟨value, hvalue, h⟩ := Option.bind_eq_some_iff.1 h
    obtain ⟨height, -, h⟩ := Option.bind_eq_some_iff.1 h
    cases h
    have houtputs := (jsonGrounded_list jsonGrounded_token).required hfields (by simp) houtputs
    have hvalue := jsonGrounded_scalar.optional hfields (by simp) hvalue
    rw [← List.map_eq_flatMap] at hvalue
    exact List.forall_mem_append.2 ⟨houtputs, hvalue⟩
  · cases h

/-! ## Both forms -/

/-- What the two forms of a kind of message guarantee. -/
structure Faithful (α : Type) [Binary α] [JsonForm α] (Counted : α → Prop)
    (leaves : α → List Leaf) : Prop where
  binary : ∀ x, Counted x → ∀ rest, get (put x ++ rest) = .ok (x, rest)
  json : ∀ x, ((Json.parse? (toJson x).render).bind ofJson? : Option α) = some x
  /-- Whatever bytes are read, the parts stand checked in those that were used. -/
  binary_checked : ∀ bs rest x, get bs = .ok (x, rest) →
    ∃ w, bs = w ++ rest ∧ ∀ l ∈ leaves x, l.FoundIn fun s => putText s <:+: w
  json_checked : ∀ j x, ofJson? j = some x → ∀ l ∈ leaves x, l.FoundIn j.Contains

structure LeavesExact : Prop where
  address : ∀ (a : Address) bs rest, get bs = .ok (a, rest) ↔ bs = putText a.text ++ rest
  address_json : ∀ (a : Address) j, ofJson? j = some a ↔ j = .text a.text
  scalar : ∀ (x : Scalar) bs rest, get bs = .ok (x, rest) →
    ∃ s, (Leaf.scalar x).SpelledBy s ∧ bs = putText s ++ rest
  scalar_json : ∀ (x : Scalar) j, ofJson? j = some x →
    ∃ s, (Leaf.scalar x).SpelledBy s ∧ j = .text s

theorem faithful_messages :
    LeavesExact ∧
    Faithful Call (fun _ => True) Call.leaves ∧
    Faithful Settlement (fun _ => True) Settlement.leaves ∧
    Faithful Transaction Transaction.Countable Transaction.leaves ∧
    Faithful Receipt Receipt.Countable Receipt.leaves := by
  refine ⟨?_, ?_, ?_, ?_, ?_⟩
  · exact ⟨fun _ _ _ => get_address_iff, fun _ _ => ofJson?_address_iff,
      fun _ _ _ => spelled_of_get, fun _ _ => spelled_of_ofJson?⟩
  · exact ⟨fun c _ => readsBack_call c, lossless_call.parse?_render, grounded_call,
      jsonGrounded_call⟩
  · exact ⟨fun s _ => readsBack_settlement s, lossless_settlement.parse?_render,
      grounded_settlement, jsonGrounded_settlement⟩
  · exact ⟨fun _ => transaction_append, lossless_transaction.parse?_render,
      grounded_transaction, jsonGrounded_transaction⟩
  · exact ⟨fun _ => receipt_append, lossless_receipt.parse?_render, grounded_receipt,
      jsonGrounded_receipt⟩

end Wire

end TokenLedger
