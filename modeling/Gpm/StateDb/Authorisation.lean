import Gpm.StateDb.Supply

namespace Gpm

def Command.touches (genName A : Name) : Command → Prop
  | .transfer tr => A = tr.fromName ∨ A = Ledger.recipient genName tr
  | .issue s => A = s
  | _ => False

def DbM.applyUpTo (E : Externals) (trx : SignedTransaction) (genName : Name)
    (cs : List Command) : DbM Bool := do
  let trxPos := (← get).size
  discard <| appendRecord E (.startTrx (E.hashTrx trx.trx) trx.trx.utcTime)
  applyCommands E trx genName trxPos cs

namespace Ledger

variable {E : Externals} {v : Ledger} {trx : SignedTransaction} {genName : Name} {trxPos : ℕ}
  {minted burnt : Name → ℕ} {es : List Posting} {c : Command} {A S : Name}

theorem Books.debit (h : Books v minted burnt)
    (hc : Ledger.command E trx genName trxPos v c = some es)
    (hlt : (v.posts E es).bal A S < v.bal A S) :
    ∃ tr k, c = .transfer tr ∧ tr.fromName = A ∧ tr.stockName = S ∧ v.key A = some k ∧
      trx.verify E k := by
  cases c with
  | registerName n k =>
    rw [bal, balance_registerName h.coherent hc] at hlt
    exact absurd hlt (Nat.lt_irrefl _)
  | issue s =>
    rw [bal, balance_issueStock h.coherent hc] at hlt
    split at hlt
    · have hmax := (v.balance A S).1.toNat_lt
      have hone : (-1 : UInt64).toNat = 2 ^ 64 - 1 := rfl
      simp only [bal, hone] at hlt
      omega
    · exact absurd hlt (Nat.lt_irrefl _)
  | transfer tr =>
    obtain ⟨loc, hbal⟩ := balance_transferStock h.coherent hc
    obtain ⟨k, k', fs, hk, -, -, hverify, -, -, -⟩ := of_transferStock hc
    by_cases hfrom : S = tr.stockName ∧ A = tr.fromName
    · obtain ⟨rfl, rfl⟩ := hfrom
      exact ⟨tr, k, rfl, rfl, rfl, hk, hverify⟩
    · by_cases hto : S = tr.stockName ∧ A = recipient genName tr
      · obtain ⟨rfl, rfl⟩ := hto
        have hself : recipient genName tr ≠ tr.fromName := fun he => hfrom ⟨rfl, he⟩
        rw [h.bal_recipient hc hself] at hlt
        omega
      · rw [bal, hbal, if_neg hfrom, if_neg hto] at hlt
        exact absurd hlt (Nat.lt_irrefl _)
  | other => cases hc

theorem balance_of_not_touches (h : v.Coherent)
    (hc : command E trx genName trxPos v c = some es) (ht : ¬ c.touches genName A) :
    (v.posts E es).balance A S = v.balance A S := by
  cases c with
  | registerName n k => exact balance_registerName h hc A S
  | issue s => rw [balance_issueStock h hc, if_neg fun he => ht he.2]
  | transfer tr =>
    obtain ⟨loc, hbal⟩ := balance_transferStock h hc
    rw [hbal, if_neg fun he => ht (Or.inl he.2), if_neg fun he => ht (Or.inr he.2)]
  | other => cases hc

theorem Books.commands_debit (h : Books v minted burnt) (cs : List Command)
    (hlt : (v.posts E (Ledger.commands E trx genName trxPos v cs).2).bal A S < v.bal A S) :
    ∃ pre tr post k, cs = pre ++ .transfer tr :: post ∧ tr.fromName = A ∧ tr.stockName = S ∧
      (Ledger.commands E trx genName trxPos v pre).1 = true ∧
      (v.posts E (Ledger.commands E trx genName trxPos v pre).2).key A = some k ∧
      trx.verify E k ∧
      (Ledger.command E trx genName trxPos
        (v.posts E (Ledger.commands E trx genName trxPos v pre).2) (.transfer tr)).isSome := by
  induction cs generalizing v minted burnt with
  | nil => exact absurd hlt (Nat.lt_irrefl _)
  | cons c cs ih =>
    simp only [Ledger.commands] at hlt
    cases hc : Ledger.command E trx genName trxPos v c with
    | none =>
      rw [hc] at hlt
      exact absurd hlt (Nat.lt_irrefl _)
    | some es =>
      rw [hc] at hlt
      simp only [posts_append] at hlt
      by_cases hnow : (v.posts E es).bal A S < v.bal A S
      · obtain ⟨tr, k, rfl, hA, hS, hk, hverify⟩ := h.debit hc hnow
        exact ⟨[], tr, cs, k, rfl, hA, hS, rfl, hk, hverify,
          by rw [Ledger.commands, posts_nil, hc]; rfl⟩
      · obtain ⟨pre, tr, post, k, rfl, hA, hS, hok, hk, hverify, hsome⟩ :=
          ih (h.command hc) (Nat.lt_of_lt_of_le hlt (Nat.not_lt.mp hnow))
        have hpre : Ledger.commands E trx genName trxPos v (c :: pre) =
            ((Ledger.commands E trx genName trxPos (v.posts E es) pre).1,
              es ++ (Ledger.commands E trx genName trxPos (v.posts E es) pre).2) := by
          rw [Ledger.commands, hc]
        refine ⟨c :: pre, tr, post, k, rfl, hA, hS, ?_, ?_, hverify, ?_⟩
        · rw [hpre]
          exact hok
        · rw [hpre, posts_append]
          exact hk
        · rw [hpre, posts_append]
          exact hsome

theorem commands_balance_of_not_touches (h : v.Coherent) (cs : List Command)
    (ht : ∀ c ∈ cs, ¬ c.touches genName A) :
    (v.posts E (commands E trx genName trxPos v cs).2).balance A S = v.balance A S := by
  induction cs generalizing v with
  | nil => rfl
  | cons c cs ih =>
    simp only [commands]
    cases hc : command E trx genName trxPos v c with
    | none => rfl
    | some es =>
      rw [posts_append, ih (h.posts (admitsAll_command h hc))
        fun c' hc' => ht c' (List.mem_cons_of_mem c hc')]
      exact balance_of_not_touches h hc (ht c List.mem_cons_self)

end Ledger

namespace Database

variable {E : Externals} {db db' : Database}

theorem Reachable.books (h : Reachable E db) :
    ∃ minted burnt, (db.ledger E).Books minted burnt := by
  induction h with
  | blank h =>
    rw [h.ledger]
    exact ⟨_, _, Ledger.books_empty⟩
  | apply hr ha ih =>
    obtain ⟨minted, burnt, hb⟩ := ih
    rw [(hr.wellFormed.apply ha).2.1]
    exact hb.transaction_any
  | overlay hr ih => rwa [ledger_overlay hr.wellFormed]
  | @merge base l hr ih =>
    have hbase : base.Rooted := hr.rooted.1
    rwa [(Carries.merge hbase.ne_null).ledger hr.wellFormed]

end Database

structure Authorised (E : Externals) (trx : SignedTransaction) (genName : Name)
    (db db' : Database) : Prop where
  returns : ∀ A S, ∃ x y, db.balance E A S = some x ∧ db'.balance E A S = some y
  debit : ∀ A S x y, db.balance E A S = some x → db'.balance E A S = some y → y < x →
    ∃ pre tr post db₁ k, trx.trx.commands = pre ++ .transfer tr :: post ∧
      tr.fromName = A ∧ tr.stockName = S ∧
      DbM.applyUpTo E trx genName pre db = .ok true db₁ ∧
      Lib.returned (DbM.getPublicKey E A db₁) = some (some k) ∧ trx.verify E k ∧
      Lib.returned (DbM.applyCommand E trx genName db.size (.transfer tr) db₁) = some true
  credit : ∀ pre tr post db₁ db₂, trx.trx.commands = pre ++ .transfer tr :: post →
    DbM.applyUpTo E trx genName pre db = .ok true db₁ →
    DbM.applyCommand E trx genName db.size (.transfer tr) db₁ = .ok true db₂ →
    Ledger.recipient genName tr ≠ tr.fromName →
    ∃ x y, db₁.balance E (Ledger.recipient genName tr) tr.stockName = some x ∧
      db₂.balance E (Ledger.recipient genName tr) tr.stockName = some y ∧
      y.toNat = x.toNat + tr.amount.toNat
  frame : ∀ A, (∀ c ∈ trx.trx.commands, ¬ c.touches genName A) →
    ∀ S, db'.balance E A S = db.balance E A S

section Apply

variable {E : Externals} {db : Database}

theorem WellFormed.applyUpTo (h : WellFormed E db) (trx : SignedTransaction) (genName : Name)
    (cs : List Command) :
    ∃ db₁, DbM.applyUpTo E trx genName cs db = .ok
        (Ledger.commands E trx genName db.size
          ((db.ledger E).post E (Ledger.startTrx E trx)) cs).1 db₁ ∧
      db₁.ledger E = ((db.ledger E).post E (Ledger.startTrx E trx)).posts E
        (Ledger.commands E trx genName db.size
          ((db.ledger E).post E (Ledger.startTrx E trx)) cs).2 ∧
      WellFormed E db₁ := by
  have hstart : (db.ledger E).AdmitsAll E [Ledger.startTrx E trx] :=
    ⟨Ledger.admits_startTrx, trivial⟩
  have hruns : Lib.Runs (trace E) (DbM.applyUpTo E trx genName cs) db
      (Ledger.commands E trx genName db.size
        ((db.ledger E).post E (Ledger.startTrx E trx)) cs).1
      ([Ledger.startTrx E trx] ++ (Ledger.commands E trx genName db.size
        ((db.ledger E).post E (Ledger.startTrx E trx)) cs).2) := by
    apply Lib.Runs.get_bind
    apply (DbM.appendRecord_runs rfl).discard.bind
    intro s₁ h₁
    obtain ⟨hv₁, h₁⟩ := h.leads hstart h₁
    have hcs := DbM.applyCommands_runs trx genName db.size h₁ cs
    rwa [hv₁] at hcs
  obtain ⟨db₁, hdb, hl⟩ := hruns
  exact ⟨db₁, hdb, h.leads (Ledger.admitsAll_append hstart
    (Ledger.admitsAll_commands (h.coherent.posts hstart) cs)) hl⟩

theorem apply_authorised (hr : Database.Reachable E db) (trx : SignedTransaction)
    (genName : Name) :
    ∃ b db', DbM.apply E trx genName db = .ok b db' ∧ Authorised E trx genName db db' := by
  have h := hr.wellFormed
  obtain ⟨minted, burnt, hbooks⟩ := hr.books
  have hadm : (db.ledger E).Admits (Ledger.startTrx E trx) := Ledger.admits_startTrx
  have hstart : ((db.ledger E).post E (Ledger.startTrx E trx)).Books minted burnt :=
    hbooks.startTrx
  have hbal := Ledger.balance_post_of_accounts_nil (E := E) h.coherent hadm rfl
  obtain ⟨db', hdb, hv, h'⟩ := h.applyUpTo trx genName trx.trx.commands
  refine ⟨_, db', hdb, ⟨?_, ?_, ?_, ?_⟩⟩
  · intro A S
    exact ⟨_, _, h.balance_eq A S, h'.balance_eq A S⟩
  · intro A S x y hx hy hlt
    rw [h.balance_eq] at hx
    rw [h'.balance_eq, hv] at hy
    cases hx
    cases hy
    obtain ⟨pre, tr, post, k, hcs, hA, hS, hok, hk, hverify, hsome⟩ :=
      hstart.commands_debit trx.trx.commands (by rw [Ledger.bal, Ledger.bal, hbal]; exact hlt)
    obtain ⟨db₁, hdb₁, hv₁, h₁⟩ := h.applyUpTo trx genName pre
    rw [← hv₁] at hk hsome
    obtain ⟨_, hkey, -⟩ := DbM.getPublicKey_runs h₁.indexed A
    obtain ⟨_, hcmd, -⟩ := DbM.applyCommand_answers trx genName db.size h₁ (.transfer tr)
    refine ⟨pre, tr, post, db₁, k, hcs, hA, hS, ?_, ?_, hverify, ?_⟩
    · rw [hdb₁, hok]
    · rw [hkey, Lib.returned, hk]
    · rw [hcmd, Lib.returned, hsome]
  · intro pre tr post db₁ db₂ _ hdb₁ hdb₂ hself
    obtain ⟨s₁, hs₁, hv₁, h₁⟩ := h.applyUpTo trx genName pre
    rw [hdb₁] at hs₁
    obtain ⟨hok, rfl⟩ : true = _ ∧ db₁ = s₁ := by simpa using hs₁
    have hbooks₁ := hstart.commands pre hok.symm
    rw [← hv₁] at hbooks₁
    obtain ⟨s₂, hs₂, hl⟩ := DbM.applyCommand_answers trx genName db.size h₁ (.transfer tr)
    rw [hdb₂] at hs₂
    obtain ⟨hsome, rfl⟩ : true = _ ∧ db₂ = s₂ := by simpa using hs₂
    obtain ⟨es, hes⟩ := Option.isSome_iff_exists.mp hsome.symm
    rw [hes] at hl
    obtain ⟨hv₂, h₂⟩ := h₁.leads (Ledger.admitsAll_command h₁.coherent hes) hl
    refine ⟨_, _, h₁.balance_eq _ _, h₂.balance_eq _ _, ?_⟩
    rw [hv₂]
    exact hbooks₁.bal_recipient hes hself
  · intro A ht S
    rw [h.balance_eq, h'.balance_eq, hv,
      Ledger.commands_balance_of_not_touches hstart.coherent _ ht, hbal]

end Apply

def payment : SignedTransaction where
  trx := { utcTime := 1, commands := [.registerName [2] 8, .transfer ⟨7, [1], [1], [2]⟩] }
  sigs := [7]

theorem apply_authorised_payment :
    ∃ b db', DbM.apply (Wire.externals fun _ => 0) payment [3] (paidState 0) = .ok b db' ∧
      Authorised (Wire.externals fun _ => 0) payment [3] (paidState 0) db' :=
  apply_authorised (.apply (.blank Database.blank_fresh)
    (Lib.eq_ok_of_returned (a := true) (by decide +kernel)))
    payment [3]

end Gpm
