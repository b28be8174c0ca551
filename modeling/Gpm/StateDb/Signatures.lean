import Gpm.StateDb.Keys

namespace Gpm

def Externals.trusting (E : Externals) : Externals := { E with keyVerify := fun _ _ _ => true }

namespace SignedTransaction

variable {E : Externals} {t : SignedTransaction}

def endorsed (t : SignedTransaction) : SignedTransaction := { t with sigs := 0 :: t.sigs }

@[simp] theorem verify_endorsed (k : PublicKey) : t.endorsed.verify E.trusting k = true := rfl

end SignedTransaction

def Command.signer : Command → Option Name
  | .registerName name _ => some name
  | .issue stockName => some stockName
  | .transfer tr => some tr.fromName
  | .other _ => none

namespace DbM

variable (E : Externals)

/-- The key whose signature `apply` looks for in a command, after the checks in front. -/
def askedKey : Command → DbM (Option PublicKey)
  | .registerName name pubKey =>
    if name = E.encodeAddress pubKey then return none else getPublicKey E name
  | .issue stockName => do
    match ← getPublicKey E stockName with
    | none => return none
    | some typeKey =>
      let (_, loc) ← getBalance E stockName stockName
      return if loc.isSome then none else some typeKey
  | .transfer tr => do
    if tr.toName ≠ [] ∧ tr.fromName = tr.toName then return none
    else
      match ← getPublicKey E tr.fromName with
      | none => return none
      | some fromKey =>
        match ← getPublicKey E tr.stockName with
        | none => return none
        | some _ => return some fromKey
  | .other _ => return none

/-- The command loop of `apply` comes to a signature that is not there. -/
def commandsUnsigned (trx : SignedTransaction) (genName : Name) (trxPos : ℕ) :
    List Command → DbM Bool
  | [] => return false
  | c :: cs => do
    if (← askedKey E c).any fun k => !trx.verify E k then return true
    else if ← applyCommand E trx genName trxPos c then commandsUnsigned trx genName trxPos cs
    else return false

def applyUnsigned (trx : SignedTransaction) (genName : Name) : DbM Bool := do
  let trxPos := (← get).size
  discard <| appendRecord E (.startTrx (E.hashTrx trx.trx) trx.trx.utcTime)
  commandsUnsigned E trx genName trxPos trx.trx.commands

end DbM

namespace Ledger

variable (E : Externals) (trx : SignedTransaction) (genName : Name) (trxPos : ℕ)

def askedKey (v : Ledger) : Command → Option PublicKey
  | .registerName name pubKey => if name = E.encodeAddress pubKey then none else v.key name
  | .issue stockName => if (v.balance stockName stockName).2.isSome then none else v.key stockName
  | .transfer tr =>
    if tr.toName ≠ [] ∧ tr.fromName = tr.toName ∨ v.key tr.stockName = none then none
    else v.key tr.fromName
  | .other _ => none

def commandsUnsigned : Ledger → List Command → Bool
  | _, [] => false
  | v, c :: cs =>
    if (askedKey E v c).any fun k => !trx.verify E k then true
    else
      match command E trx genName trxPos v c with
      | none => false
      | some es => commandsUnsigned (v.posts E es) cs

def Asks (v : Ledger) (pre : List Command) (c : Command) (k : PublicKey) : Prop :=
  (commands E.trusting trx.endorsed genName trxPos v pre).1 = true ∧
    askedKey E (v.posts E (commands E.trusting trx.endorsed genName trxPos v pre).2) c = some k

variable {E trx genName trxPos} {v : Ledger} {c : Command} {cs pre : List Command}
  {es : List Posting} {k : PublicKey}

theorem command_eq : command E trx genName trxPos v c =
    if (askedKey E v c).any fun k => !trx.verify E k then none
    else command E.trusting trx.endorsed genName trxPos v c := by
  cases c with
  | registerName n p =>
    have haddress : E.trusting.encodeAddress = E.encodeAddress := rfl
    simp only [command, registerName, askedKey, haddress]
    split
    · rfl
    · cases v.key n with
      | none => rfl
      | some k => cases hk : trx.verify E k <;> simp [hk]
  | issue s =>
    simp only [command, issueStock, askedKey]
    obtain hs | ⟨k, hs⟩ := Option.eq_none_or_eq_some (v.key s)
    · simp [hs]
    · by_cases hloc : (v.balance s s).2.isSome = true
      · simp [hs, hloc]
      · cases hk : trx.verify E k <;> simp [hs, hloc, hk]
  | transfer tr =>
    simp only [command, transferStock, askedKey]
    by_cases hloop : tr.toName ≠ [] ∧ tr.fromName = tr.toName
    · simp [hloop]
    · rw [if_neg hloop, if_neg hloop]
      obtain hf | ⟨k, hf⟩ := Option.eq_none_or_eq_some (v.key tr.fromName)
      · simp [hf]
      obtain hs | ⟨k', hs⟩ := Option.eq_none_or_eq_some (v.key tr.stockName)
      · simp [hf, hs]
      have hdestination : destination E.trusting = destination E := rfl
      have hposts : v.posts E.trusting = v.posts E := rfl
      cases hk : trx.verify E k with
      | false => simp [hloop, hf, hs, hk]
      | true => simp [hloop, hf, hs, hk, hdestination, hposts]
  | other => rfl

theorem of_askedKey (h : askedKey E v c = some k) :
    ∃ N, c.signer = some N ∧ v.key N = some k ∧
      ∀ p, c = .registerName N p → N ≠ E.encodeAddress p := by
  cases c with
  | registerName n p =>
    rw [askedKey, Option.ite_none_left_eq_some] at h
    refine ⟨n, rfl, h.2, fun q hq => ?_⟩
    cases hq
    exact h.1
  | issue s =>
    rw [askedKey, Option.ite_none_left_eq_some] at h
    exact ⟨s, rfl, h.2, fun _ hq => by cases hq⟩
  | transfer tr =>
    rw [askedKey, Option.ite_none_left_eq_some] at h
    exact ⟨tr.fromName, rfl, h.2, fun _ hq => by cases hq⟩
  | other => cases h

theorem commands_endorsed (trx trx' : SignedTransaction) (v : Ledger) (cs : List Command) :
    commands E.trusting trx.endorsed genName trxPos v cs =
      commands E.trusting trx'.endorsed genName trxPos v cs := by
  induction cs generalizing v with
  | nil => rfl
  | cons c cs ih =>
    have hc : command E.trusting trx.endorsed genName trxPos v c =
        command E.trusting trx'.endorsed genName trxPos v c := by
      cases c <;> rfl
    rw [commands, commands, hc]
    simp only [ih]

theorem Asks.key_eq {N : Name} {K : PublicKey} (h : Asks E trx genName trxPos v pre c k)
    (hsigner : c.signer = some N) (hkey : v.key N = some K) (hregs : registrations N pre = []) :
    k = K := by
  obtain ⟨hok, hasked⟩ := h
  obtain ⟨M, hM, hk, -⟩ := of_askedKey hasked
  obtain rfl := Option.some.inj (hM.symm.trans hsigner)
  have hlast := key_commands hkey hok
  rw [hregs, List.getLastD_nil] at hlast
  exact Option.some.inj (hk.symm.trans hlast)

theorem asks_nil : Asks E trx genName trxPos v [] c k ↔ askedKey E v c = some k := by
  simp [Asks, commands]

theorem asks_cons {d : Command} : Asks E trx genName trxPos v (d :: pre) c k ↔
    ∃ es, command E.trusting trx.endorsed genName trxPos v d = some es ∧
      Asks E trx genName trxPos (v.posts E es) pre c k := by
  unfold Asks
  rw [commands]
  cases command E.trusting trx.endorsed genName trxPos v d with
  | none => simp
  | some es =>
    have hraw : v.posts E.trusting es = v.posts E es := rfl
    simp [hraw]

theorem commandsUnsigned_eq_false_iff : commandsUnsigned E trx genName trxPos v cs = false ↔
    ∀ pre c post k, cs = pre ++ c :: post → Asks E trx genName trxPos v pre c k →
      trx.verify E k = true := by
  induction cs generalizing v with
  | nil => simp [commandsUnsigned]
  | cons d cs ih =>
    have hsplit : (∀ pre c post k, d :: cs = pre ++ c :: post →
          Asks E trx genName trxPos v pre c k → trx.verify E k = true) ↔
        (∀ k, askedKey E v d = some k → trx.verify E k = true) ∧
          ∀ es, command E.trusting trx.endorsed genName trxPos v d = some es →
            ∀ pre c post k, cs = pre ++ c :: post →
              Asks E trx genName trxPos (v.posts E es) pre c k → trx.verify E k = true := by
      constructor
      · intro h
        refine ⟨fun k hk => h [] d cs k rfl (asks_nil.mpr hk), ?_⟩
        rintro es hes pre c post k rfl hasks
        exact h (d :: pre) c post k rfl (asks_cons.mpr ⟨es, hes, hasks⟩)
      · rintro ⟨hfirst, hrest⟩ pre c post k heq hasks
        cases pre with
        | nil =>
          cases heq
          exact hfirst k (asks_nil.mp hasks)
        | cons d' pre =>
          cases heq
          obtain ⟨es, hes, hasks⟩ := asks_cons.mp hasks
          exact hrest es hes pre c post k rfl hasks
    have hany : ((askedKey E v d).any fun k => !trx.verify E k) = false ↔
        ∀ k, askedKey E v d = some k → trx.verify E k = true := by
      cases askedKey E v d <;> simp
    rw [hsplit, ← hany, commandsUnsigned, command_eq]
    cases (askedKey E v d).any fun k => !trx.verify E k with
    | true => simp
    | false =>
      cases command E.trusting trx.endorsed genName trxPos v d with
      | none => simp
      | some es => simpa using ih

theorem commands_eq_of_not_unsigned (h : commandsUnsigned E trx genName trxPos v cs = false) :
    commands E trx genName trxPos v cs = commands E.trusting trx.endorsed genName trxPos v cs := by
  induction cs generalizing v with
  | nil => rfl
  | cons c cs ih =>
    rw [commandsUnsigned] at h
    rw [commands, commands]
    have hc : command E trx genName trxPos v c = _ := command_eq
    split at h
    · cases h
    · rename_i hasked
      rw [if_neg hasked] at hc
      rw [hc] at h ⊢
      cases he : command E.trusting trx.endorsed genName trxPos v c with
      | none => rfl
      | some es =>
        rw [he] at h
        dsimp only at h ⊢
        rw [ih h]
        rfl

theorem commands_of_unsigned (h : commandsUnsigned E trx genName trxPos v cs = true) :
    (commands E trx genName trxPos v cs).1 = false := by
  induction cs generalizing v with
  | nil => cases h
  | cons c cs ih =>
    rw [commandsUnsigned] at h
    rw [commands]
    split at h
    · rename_i hasked
      rw [command_eq, if_pos hasked]
    · cases he : command E trx genName trxPos v c with
      | none => rfl
      | some es =>
        rw [he] at h
        exact ih h

end Ledger

variable {E : Externals} {db : Database} {trx : SignedTransaction} {genName : Name}

theorem WellFormed.trusting (h : WellFormed E db) : WellFormed E.trusting db :=
  ⟨h.live, h.account_isSome, h.coherent⟩

namespace DbM

open Lib (Runs)

theorem askedKey_runs (h : WellFormed E db) (c : Command) :
    Runs (trace E) (askedKey E c) db (Ledger.askedKey E (db.ledger E) c) [] := by
  cases c with
  | registerName n k =>
    simp only [askedKey, Ledger.askedKey]
    split
    · exact Runs.pure
    · exact getPublicKey_runs h.indexed n
  | issue s =>
    simp only [askedKey, Ledger.askedKey]
    apply (getPublicKey_runs h.indexed s).bind_nil
    intro s₁ h₁
    obtain ⟨hv₁, h₁⟩ := h.leads_nil h₁
    cases (db.ledger E).key s with
    | none =>
      rw [ite_self]
      exact Runs.pure
    | some k =>
      rw [← hv₁]
      exact (getBalance_runs h₁.indexed s s).bind_pure rfl
  | transfer tr =>
    simp only [askedKey, Ledger.askedKey]
    by_cases hloop : tr.toName ≠ [] ∧ tr.fromName = tr.toName
    · rw [if_pos hloop, if_pos (Or.inl hloop)]
      exact Runs.pure
    · rw [if_neg hloop]
      simp only [hloop, false_or]
      apply (getPublicKey_runs h.indexed tr.fromName).bind_nil
      intro s₁ h₁
      obtain ⟨hv₁, h₁⟩ := h.leads_nil h₁
      cases (db.ledger E).key tr.fromName with
      | none =>
        rw [ite_self]
        exact Runs.pure
      | some k =>
        rw [← hv₁]
        apply (getPublicKey_runs h₁.indexed tr.stockName).bind_pure
        cases (s₁.ledger E).key tr.stockName <;> rfl
  | other => exact Runs.pure

theorem returned_commandsUnsigned (h : WellFormed E db) (trxPos : ℕ) (cs : List Command) :
    Lib.returned (commandsUnsigned E trx genName trxPos cs db) =
      some (Ledger.commandsUnsigned E trx genName trxPos (db.ledger E) cs) := by
  induction cs generalizing db with
  | nil => rfl
  | cons c cs ih =>
    obtain ⟨s₁, hs₁, h₁⟩ := askedKey_runs h c
    obtain ⟨hv₁, h₁⟩ := h.leads_nil h₁
    rw [commandsUnsigned, Ledger.commandsUnsigned, Lib.bind_ok hs₁]
    by_cases hany : (Ledger.askedKey E (db.ledger E) c).any (fun k => !trx.verify E k) = true
    · rw [if_pos hany, if_pos hany]
      rfl
    · rw [if_neg hany, if_neg hany]
      obtain ⟨s₂, hs₂, h₂⟩ := applyCommand_answers trx genName trxPos h₁ c
      rw [Lib.bind_ok hs₂]
      rw [hv₁] at hs₂ h₂ ⊢
      cases hc : Ledger.command E trx genName trxPos (db.ledger E) c with
      | none => rfl
      | some es =>
        rw [hc] at h₂
        rw [← hv₁] at hc
        obtain ⟨hv₂, h₂⟩ := h₁.leads (Ledger.admitsAll_command h₁.coherent hc) h₂
        rw [hv₁] at hv₂
        simp only [Option.isSome_some, if_true]
        rw [ih h₂, hv₂]

theorem returned_applyUnsigned (h : WellFormed E db) :
    Lib.returned (applyUnsigned E trx genName db) =
      some (Ledger.commandsUnsigned E trx genName db.size
        ((db.ledger E).post E (Ledger.startTrx E trx)) trx.trx.commands) := by
  have hstart : Lib.Runs (trace E)
      (discard <| appendRecord E (.startTrx (E.hashTrx trx.trx) trx.trx.utcTime)) db ()
      [Ledger.startTrx E trx] := (appendRecord_runs rfl).discard
  obtain ⟨s₁, hs₁, h₁⟩ := hstart
  have hadmits : (db.ledger E).AdmitsAll E [Ledger.startTrx E trx] :=
    ⟨Ledger.admits_startTrx, trivial⟩
  obtain ⟨hv₁, h₁⟩ := h.leads hadmits h₁
  rw [applyUnsigned, Lib.get_bind, Lib.bind_ok hs₁, returned_commandsUnsigned h₁, hv₁]
  rfl

theorem apply_of_unsigned (h : WellFormed E db)
    (hunsigned : Lib.returned (applyUnsigned E trx genName db) = some true) :
    Lib.returned (apply E trx genName db) = some false := by
  rw [returned_applyUnsigned h, Option.some_inj] at hunsigned
  obtain ⟨s', hs, -⟩ := apply_runs trx genName h
  rw [hs]
  exact congrArg some (Ledger.commands_of_unsigned hunsigned)

theorem apply_of_not_unsigned (h : WellFormed E db)
    (hunsigned : Lib.returned (applyUnsigned E trx genName db) = some false) :
    Lib.returned (apply E trx genName db) =
      Lib.returned (apply E.trusting trx.endorsed genName db) := by
  rw [returned_applyUnsigned h, Option.some_inj] at hunsigned
  obtain ⟨s', hs, -⟩ := apply_runs trx genName h
  obtain ⟨s'', hs', -⟩ := apply_runs trx.endorsed genName h.trusting
  rw [hs, hs']
  exact congrArg (fun r => some r.1) (Ledger.commands_eq_of_not_unsigned hunsigned)

end DbM

end Gpm
