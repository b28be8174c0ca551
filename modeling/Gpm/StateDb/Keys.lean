import Gpm.StateDb.Log
import Gpm.StateDb.Supply

namespace Gpm

def Command.registration (N : Name) : Command → Option PublicKey
  | .registerName n k => if n = N then some k else none
  | _ => none

def Command.keyAfter (genName N : Name) (key : Option PublicKey) : Command → Option PublicKey
  | .registerName n k => if n = N then some k else key
  | .transfer tr =>
    if key = none ∧ Ledger.recipient genName tr = N then some .empty else key
  | _ => key

def registrations (N : Name) (cs : List Command) : List PublicKey :=
  cs.filterMap (Command.registration N)

namespace Ledger

variable {E : Externals} {v : Ledger} {trx : SignedTransaction} {genName : Name} {trxPos : ℕ}
  {es : List Posting} {c : Command} {cs : List Command} {N : Name} {K : PublicKey}

theorem key_post (v : Ledger) (e : Posting) (N : Name) :
    (v.post E e).key N =
      if e.name = some N then (e.record.named v.size).map Prod.snd else v.key N := by
  simp only [key, post]
  split <;> rfl

theorem key_setKey (v : Ledger) (n : Name) (k : PublicKey) (N : Name) :
    (v.post E (v.setKey n k)).key N = if n = N then some k else v.key N := by
  have hname : (v.setKey n k).name = some n := rfl
  rw [key_post, hname]
  simp only [Option.some.injEq]
  split
  · unfold setKey
    cases v.index n <;> rfl
  · rfl

theorem key_destination {n : Name} (hd : destination E v n = some es) (N : Name) :
    (v.posts E es).key N = if v.index n = none ∧ n = N then some .empty else v.key N := by
  obtain ⟨⟨i, hi⟩, rfl⟩ | ⟨hi, rfl⟩ := of_destination hd
  · simp [hi]
  · rw [posts_cons, posts_nil, key_post]
    simp [hi, Record.named]

theorem key_eq_none_iff : v.key N = none ↔ v.index N = none := by simp [key, index]

theorem key_command (hc : command E trx genName trxPos v c = some es) (N : Name) :
    (v.posts E es).key N = c.keyAfter genName N (v.key N) := by
  cases c with
  | registerName n k =>
    rw [of_registerName hc]
    exact key_setKey v n k N
  | issue s =>
    obtain ⟨k, -, -, -, rfl⟩ := of_issueStock hc
    exact key_post_of_name_none rfl N
  | transfer tr =>
    obtain ⟨k, k', fs, -, -, -, -, -, hd, rfl⟩ := of_transferStock hc
    rw [posts_append, posts_cons, posts_nil, key_post_of_name_none rfl, key_destination hd]
    have hiff : v.index (recipient genName tr) = none ∧ recipient genName tr = N ↔
        v.key N = none ∧ recipient genName tr = N := by
      rw [key_eq_none_iff]
      constructor
      · rintro ⟨hn, rfl⟩
        exact ⟨hn, rfl⟩
      · rintro ⟨hn, rfl⟩
        exact ⟨hn, rfl⟩
    simp only [hiff, Command.keyAfter]
  | other => cases hc

theorem key_command_of_key (hc : command E trx genName trxPos v c = some es)
    (hkey : v.key N = some K) :
    (v.posts E es).key N = some ((c.registration N).getD K) := by
  rw [key_command hc]
  cases c with
  | registerName n k =>
    simp only [Command.keyAfter, Command.registration]
    split
    · rfl
    · exact hkey
  | transfer tr => simp [hkey, Command.keyAfter, Command.registration]
  | _ => exact hkey

theorem key_commands (hkey : v.key N = some K)
    (hok : (commands E trx genName trxPos v cs).1 = true) :
    (v.posts E (commands E trx genName trxPos v cs).2).key N =
      some ((registrations N cs).getLastD K) := by
  induction cs generalizing v K with
  | nil => exact hkey
  | cons c cs ih =>
    unfold commands at hok ⊢
    cases hc : command E trx genName trxPos v c with
    | none => simp [hc] at hok
    | some es =>
      simp only [hc] at hok ⊢
      rw [posts_append, ih (key_command_of_key hc hkey) hok, registrations, registrations,
        List.filterMap_cons]
      cases c.registration N with
      | none => rfl
      | some k => rw [List.getLastD_cons, Option.getD_some]

theorem key_commands_of_not_verify (hkey : v.key N = some K) (hno : ¬ trx.verify E K)
    (hcs : ∀ P, .registerName N P ∈ cs → E.encodeAddress P = N → P = K) :
    (v.posts E (commands E trx genName trxPos v cs).2).key N = some K := by
  induction cs generalizing v with
  | nil => exact hkey
  | cons c cs ih =>
    unfold commands
    cases hc : command E trx genName trxPos v c with
    | none => exact hkey
    | some es =>
      simp only [posts_append]
      apply ih _ fun P hP => hcs P (List.mem_cons_of_mem c hP)
      rw [key_command_of_key hc hkey]
      cases c with
      | registerName n k =>
        simp only [Command.registration]
        split
        · rename_i hn
          subst hn
          simp only [command, registerName, hkey, hno] at hc
          split at hc
          · rename_i haddr
            rw [hcs k List.mem_cons_self haddr.symm, Option.getD_some]
          · cases hc
        · rfl
      | _ => rfl

end Ledger

variable {E : Externals} {db db' : Database}

theorem WellFormed.getPublicKey_eq (h : WellFormed E db) (N : Name) :
    Lib.returned (DbM.getPublicKey E N db) = some ((db.ledger E).key N) := by
  obtain ⟨s', hs, -⟩ := DbM.getPublicKey_runs h.indexed N
  rw [hs, Lib.returned]

theorem WellFormed.getNameIndex_eq (h : WellFormed E db) (N : Name) :
    Lib.returned (DbM.getNameIndex E N db) = some ((db.ledger E).index N) := by
  obtain ⟨s', hs, -⟩ := DbM.getNameIndex_runs h.indexed N
  rw [hs, Lib.returned]

/-- A change of key is authorised, but for the registration of an address under its own key:
that one asks nobody. -/
theorem key_change_authorised_iff (hr : Database.Reachable E db) {trx : SignedTransaction}
    {genName N : Name} {K : PublicKey}
    (hkey : Lib.returned (DbM.getPublicKey E N db) = some (some K))
    (hok : DbM.apply E trx genName db = .ok true db') :
    (Lib.returned (DbM.getPublicKey E N db') ≠ some (some K) → trx.verify E K) ↔
      trx.verify E K ∨
      (∀ P, .registerName N P ∈ trx.trx.commands → E.encodeAddress P = N → P = K) ∨
      (registrations N trx.trx.commands).getLast? = some K := by
  have hdb := hr.wellFormed
  obtain ⟨haccept, hv, hdb'⟩ := hdb.apply hok
  rw [hdb.getPublicKey_eq, Option.some_inj] at hkey
  rw [hdb'.getPublicKey_eq, ne_eq, Option.some_inj, hv]
  have hstart : ((db.ledger E).post E (Ledger.startTrx E trx)).key N = some K := by
    rw [Ledger.key_post_of_name_none rfl, hkey]
  simp only [Ledger.transaction, Ledger.posts_cons] at haccept ⊢
  constructor
  · intro h
    by_cases hverify : trx.verify E K
    · exact Or.inl hverify
    · refine Or.inr ?_
      have hsame := not_imp_comm.mp h hverify
      rw [Ledger.key_commands hstart haccept.symm, Option.some_inj] at hsame
      cases hregs : (registrations N trx.trx.commands).getLast? with
      | none =>
        refine Or.inl fun P hP _ => ?_
        have hmem : P ∈ registrations N trx.trx.commands :=
          List.mem_filterMap.mpr ⟨_, hP, by simp [Command.registration]⟩
        rw [List.getLast?_eq_none_iff.mp hregs] at hmem
        cases hmem
      | some k =>
        rw [List.getLastD_eq_getLast?, hregs, Option.getD_some] at hsame
        exact Or.inr (congrArg some hsame)
  · rintro (hverify | haddr | hlast) hne
    · exact hverify
    · by_contra hverify
      exact hne (Ledger.key_commands_of_not_verify hstart hverify haddr)
    · rw [Ledger.key_commands hstart haccept.symm, List.getLastD_eq_getLast?, hlast] at hne
      exact absurd rfl hne

def passAddressOn : SignedTransaction where
  trx :=
    { utcTime := 0
      commands := [.registerName (Wire.address 7) 7, .registerName (Wire.address 7) 8] }
  sigs := [7]

def passedOn : Database :=
  Lib.finalState (DbM.apply (Wire.externals fun _ => 0) passAddressOn [] (.trx (.file {}) {}))

def takeAddressBack : SignedTransaction where
  trx := { utcTime := 1, commands := [.registerName (Wire.address 7) 7] }
  sigs := []

def takenBack : Database :=
  Lib.finalState (DbM.apply (Wire.externals fun _ => 0) takeAddressBack [] passedOn)

theorem reachable_passedOn : Database.Reachable (Wire.externals fun _ => 0) passedOn :=
  .apply (.blank Database.blank_fresh) (Lib.eq_ok_of_returned (a := true) (by decide +kernel))

theorem apply_takeAddressBack :
    DbM.apply (Wire.externals fun _ => 0) takeAddressBack [] passedOn = .ok true takenBack :=
  Lib.eq_ok_of_returned (by decide +kernel)

theorem key_changed_unsigned :
    ¬ ∀ (db db' : Database) (trx : SignedTransaction) (genName N : Name) (K : PublicKey),
      Database.Reachable (Wire.externals fun _ => 0) db → K ≠ .empty →
      Lib.returned (DbM.getPublicKey (Wire.externals fun _ => 0) N db) = some (some K) →
      DbM.apply (Wire.externals fun _ => 0) trx genName db = .ok true db' →
      Lib.returned (DbM.getPublicKey (Wire.externals fun _ => 0) N db') ≠ some (some K) →
      trx.verify (Wire.externals fun _ => 0) K := by
  intro h
  have hverify := h passedOn takenBack takeAddressBack [] (Wire.address 7) 8 reachable_passedOn
    (by decide +kernel) (by decide +kernel) apply_takeAddressBack (by decide +kernel)
  revert hverify
  decide +kernel

theorem key_change_authorised_iff_takenBack :
    (Lib.returned (DbM.getPublicKey (Wire.externals fun _ => 0) (Wire.address 7) takenBack) ≠
        some (some 8) → takeAddressBack.verify (Wire.externals fun _ => 0) 8) ↔
      takeAddressBack.verify (Wire.externals fun _ => 0) 8 ∨
      (∀ P, .registerName (Wire.address 7) P ∈ takeAddressBack.trx.commands →
        (Wire.externals fun _ => 0).encodeAddress P = Wire.address 7 → P = 8) ∨
      (registrations (Wire.address 7) takeAddressBack.trx.commands).getLast? = some 8 :=
  key_change_authorised_iff reachable_passedOn (by decide +kernel) apply_takeAddressBack

end Gpm
