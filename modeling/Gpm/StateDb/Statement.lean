import Gpm.StateDb.Authorisation
import Gpm.StateDb.Keys

namespace Gpm

namespace Command

def credit (genName A S : Name) : Command → ℕ
  | .issue s => if S = s ∧ A = s then issuedAmount else 0
  | .transfer tr =>
    if S = tr.stockName ∧ A = Ledger.recipient genName tr ∧
      A ≠ tr.fromName then tr.amount.toNat
    else 0
  | _ => 0

def debit (A S : Name) : Command → ℕ
  | .transfer tr => if S = tr.stockName ∧ A = tr.fromName then tr.amount.toNat else 0
  | _ => 0

end Command

def creditedTo (A S : Name) (run : List (SignedTransaction × Name)) : ℕ :=
  (run.map fun r => (r.1.trx.commands.map (Command.credit r.2 A S)).sum).sum

def debitedFrom (A S : Name) (run : List (SignedTransaction × Name)) : ℕ :=
  (run.map fun r => (r.1.trx.commands.map (Command.debit A S)).sum).sum

namespace Ledger

variable {E : Externals} {v v₀ : Ledger} {trx : SignedTransaction} {genName : Name} {trxPos : ℕ}
  {minted burnt : Name → ℕ} {es : List Posting} {c : Command} {cs : List Command}

section Statement

variable (A S : Name)

theorem Books.bal_of_null (h : Books v minted burnt) {S : Name} (hnull : (v.balance S S).2 = none) :
    v.bal S S = 0 := by
  have htotal := h.total S
  have hle := bal_le_supply h.coherent S S
  rw [h.minted_of_null hnull] at htotal
  omega

theorem Books.statement (h : Books v minted burnt)
    (hc : Ledger.command E trx genName trxPos v c = some es) :
    (v.posts E es).bal A S + c.debit A S = v.bal A S + c.credit genName A S := by
  cases c with
  | registerName n k =>
    rw [bal, balance_registerName h.coherent hc]
    rfl
  | issue s =>
    obtain ⟨k, -, hnull, -⟩ := of_issueStock hc
    have hbal := balance_issueStock h.coherent hc A S
    by_cases hs : S = s ∧ A = s
    · obtain ⟨rfl, rfl⟩ := hs
      have hnone : (Command.issue A).debit A A = 0 := rfl
      rw [bal, hbal, if_pos ⟨rfl, rfl⟩, h.bal_of_null hnull, hnone, Command.credit,
        if_pos ⟨rfl, rfl⟩, Nat.add_zero, Nat.zero_add]
      rfl
    · rw [bal, hbal, if_neg hs, Command.credit, if_neg hs]
      rfl
  | transfer tr =>
    obtain ⟨loc, hbal⟩ := balance_transferStock h.coherent hc
    by_cases hfrom : S = tr.stockName ∧ A = tr.fromName
    · obtain ⟨rfl, rfl⟩ := hfrom
      obtain ⟨hle, hnew⟩ := bal_source h.coherent hc
      rw [hnew, Command.debit, if_pos ⟨rfl, rfl⟩, Command.credit, if_neg fun hto => hto.2.2 rfl]
      omega
    · by_cases hto : S = tr.stockName ∧ A = recipient genName tr
      · obtain ⟨rfl, rfl⟩ := hto
        have hself : recipient genName tr ≠ tr.fromName := fun he => hfrom ⟨rfl, he⟩
        rw [h.bal_recipient hc hself, Command.debit, if_neg hfrom, Command.credit,
          if_pos ⟨rfl, rfl, hself⟩]
        rfl
      · rw [bal, hbal, if_neg hfrom, if_neg hto, Command.debit, if_neg hfrom, Command.credit,
          if_neg fun hcredit => hto ⟨hcredit.1, hcredit.2.1⟩]
        rfl
  | other => cases hc

theorem Books.statement_commands (h : Books v minted burnt)
    (hok : (Ledger.commands E trx genName trxPos v cs).1) :
    (v.posts E (Ledger.commands E trx genName trxPos v cs).2).bal A S +
        (cs.map (Command.debit A S)).sum =
      v.bal A S + (cs.map (Command.credit genName A S)).sum := by
  induction cs generalizing v minted burnt with
  | nil => rfl
  | cons c cs ih =>
    simp only [Ledger.commands] at hok ⊢
    cases hc : Ledger.command E trx genName trxPos v c with
    | none => simp [hc] at hok
    | some es =>
      simp only [hc] at hok ⊢
      have hone := h.statement A S hc
      have hrest := ih (h.command hc) hok
      rw [posts_append, List.map_cons, List.map_cons, List.sum_cons, List.sum_cons]
      omega

theorem Books.statement_transaction (h : Books v minted burnt)
    (hok : (Ledger.transaction E trx genName v).1) :
    (v.posts E (Ledger.transaction E trx genName v).2).bal A S +
        (trx.trx.commands.map (Command.debit A S)).sum =
      v.bal A S + (trx.trx.commands.map (Command.credit genName A S)).sum := by
  have hstart : (v.post E (Ledger.startTrx E trx)).bal A S = v.bal A S := by
    rw [bal, bal, balance_post_of_accounts_nil h.coherent admits_startTrx rfl]
  rw [← hstart]
  exact h.startTrx.statement_commands A S hok

end Statement

section Guards

variable {A : Name} {K : PublicKey}

structure Guards (v₀ : Ledger) (A : Name) (K : PublicKey) (v : Ledger) : Prop where
  books : ∃ minted burnt, v.Books minted burnt
  key : v.key A = some K
  bal : ∀ S, v₀.bal A S ≤ v.bal A S

namespace Guards

theorem refl (hbooks : ∃ minted burnt, v.Books minted burnt) (hkey : v.key A = some K) :
    v.Guards A K v :=
  ⟨hbooks, hkey, fun _ => Nat.le_refl _⟩

theorem post {e : Posting} (h : v₀.Guards A K v) (ha : v.Admits e) (hacc : e.record.accounts = [])
    (hname : e.name = none) : v₀.Guards A K (v.post E e) := by
  obtain ⟨minted, burnt, hbooks⟩ := h.books
  refine ⟨⟨minted, burnt, hbooks.post_of_accounts_nil ha hacc⟩, ?_, fun S => ?_⟩
  · rw [key_post_of_name_none hname]
    exact h.key
  · rw [Ledger.bal, Ledger.bal, balance_post_of_accounts_nil hbooks.coherent ha hacc]
    exact h.bal S

theorem transaction (h : v₀.Guards A K v) (hA : ∀ P, E.encodeAddress P = A → P = K)
    (hno : ¬ trx.verify E K) : v₀.Guards A K (v.posts E (transaction E trx genName v).2) := by
  have hstart : v₀.Guards A K (v.post E (startTrx E trx)) := h.post admits_startTrx rfl rfl
  obtain ⟨minted, burnt, hbooks⟩ := hstart.books
  have hkey : ∀ cs, ((v.post E (startTrx E trx)).posts E
      (commands E trx genName v.size (v.post E (startTrx E trx)) cs).2).key A = some K := fun cs =>
    key_commands_of_not_verify hstart.key hno fun P _ hP => hA P hP
  refine ⟨hbooks.commands_any trx.trx.commands, hkey _, fun S => (hstart.bal S).trans ?_⟩
  by_contra hlt
  obtain ⟨pre, tr, post, k, -, -, -, -, hk, hverify, -⟩ :=
    hbooks.commands_debit trx.trx.commands (Nat.lt_of_not_le hlt)
  cases (hkey pre).symm.trans hk
  exact hno hverify

theorem answers {db db' : Database} (h : (db.ledger E).Guards A K (db'.ledger E))
    (hdb : WellFormed E db) (hdb' : WellFormed E db') :
    Lib.returned (DbM.getPublicKey E A db') = some (some K) ∧
      ∀ S, ∃ x y, db.balance E A S = some x ∧ db'.balance E A S = some y ∧ x ≤ y := by
  refine ⟨?_, fun S => ⟨_, _, hdb.balance_eq A S, hdb'.balance_eq A S, h.bal S⟩⟩
  rw [hdb'.getPublicKey_eq, h.key]

end Guards

end Guards

end Ledger

end Gpm
