import Gpm.StateDb.Keys

namespace Gpm

def Record.issues (i : ℕ) : Record → Bool
  | .transferLog tl =>
    tl.typeName = some i && tl.fromName = some i && tl.toName = some i && tl.amount = -1 &&
      tl.newFromBal = -1
  | _ => false

namespace Ledger

variable {E : Externals} {v : Ledger}

theorem account_posts_isSome (es : List Posting) (a : AccountKey) :
    ((v.posts E es).account a).isSome ↔
      (v.account a).isSome ∨ ∃ e ∈ es, a ∈ e.record.accounts := by
  induction es generalizing v with
  | nil => simp
  | cons e es ih =>
    have hpost : ((v.post E e).account a).isSome ↔
        (v.account a).isSome ∨ a ∈ e.record.accounts := by
      simp only [post]
      split
      · rename_i hmem
        simp [hmem, Record.balanceOf_isSome hmem]
      · rename_i hmem
        simp [hmem]
    rw [posts_cons, ih, hpost, or_assoc]
    simp only [List.exists_mem_cons_iff]

end Ledger

def Issued (E : Externals) (S : Name) (db : Database) : Prop :=
  ∃ i, Lib.returned (DbM.getNameIndex E S db) = some (some i) ∧
    ∃ r ∈ db.log E, r.data.issues i

def Touched (E : Externals) (S : Name) (db : Database) : Prop :=
  ∃ i, Lib.returned (DbM.getNameIndex E S db) = some (some i) ∧
    ∃ r ∈ db.log E, (⟨some i, some i⟩ : AccountKey) ∈ r.data.accounts

theorem Record.mem_accounts_of_issues {r : Record} {i : ℕ} (h : r.issues i) :
    (⟨some i, some i⟩ : AccountKey) ∈ r.accounts := by
  cases r with
  | transferLog tl =>
    simp only [Record.issues, Bool.and_eq_true, decide_eq_true_eq] at h
    simp [Record.accounts, h.1.1.1.1, h.1.1.1.2]
  | _ => cases h

variable {E : Externals} {db : Database} {S : Name}

theorem Issued.touched (h : Issued E S db) : Touched E S db := by
  obtain ⟨i, hi, r, hr, hissues⟩ := h
  exact ⟨i, hi, r, hr, Record.mem_accounts_of_issues hissues⟩

theorem touched_iff (hr : Database.Reachable E db) {i : ℕ} (hi : (db.ledger E).index S = some i) :
    Touched E S db ↔ ((db.ledger E).balance S S).2.isSome := by
  obtain ⟨es, hlogs, -⟩ := hr.reachableBy.logs (fun _ => True) trivial
    fun _ _ _ _ => trivial
  have hdb := hr.wellFormed
  have hmem : (∃ r ∈ db.log E, (⟨some i, some i⟩ : AccountKey) ∈ r.data.accounts) ↔
      ∃ e ∈ es, (⟨some i, some i⟩ : AccountKey) ∈ e.record.accounts := by
    have hdata : (db.log E).map StateRecord.data = es.map Posting.record := by
      rw [hlogs.log, map_data_postRecords]
    constructor
    · rintro ⟨r, hr, ha⟩
      obtain ⟨e, he, heq⟩ := List.mem_map.mp (hdata ▸ List.mem_map_of_mem hr)
      exact ⟨e, he, heq ▸ ha⟩
    · rintro ⟨e, he, ha⟩
      obtain ⟨r, hr, heq⟩ := List.mem_map.mp (hdata ▸ List.mem_map_of_mem he)
      exact ⟨r, hr, heq ▸ ha⟩
  have hacc : ((db.ledger E).balance S S).2.isSome ↔
      ((db.ledger E).account ⟨some i, some i⟩).isSome := by
    simp only [Ledger.balance, hi]
    cases (db.ledger E).account ⟨some i, some i⟩ <;> rfl
  simp only [Touched, hdb.getNameIndex_eq, hi, Option.some.injEq, exists_eq_left', hmem, hacc]
  rw [hlogs.ledger, Ledger.account_posts_isSome]
  simp [Ledger.empty]

/-- A signed issue is accepted exactly when the stock has not been issued, unless somebody moved
nothing of it before there was anything to move. -/
theorem issue_accepted_iff (hr : Database.Reachable E db) {K : PublicKey}
    (hkey : Lib.returned (DbM.getPublicKey E S db) = some (some K)) {trx : SignedTransaction}
    (hcs : trx.trx.commands = [.issue S]) (hverify : trx.verify E K) (genName : Name) :
    (Lib.returned (DbM.apply E trx genName db) = some true ↔ ¬ Issued E S db) ↔
      (Touched E S db → Issued E S db) := by
  have hdb := hr.wellFormed
  rw [hdb.getPublicKey_eq, Option.some_inj] at hkey
  obtain ⟨i, hi⟩ := Ledger.index_of_key hkey
  obtain ⟨s', happ, -⟩ := DbM.apply_runs trx genName hdb
  have hadm : (db.ledger E).Admits (Ledger.startTrx E trx) := Ledger.admits_startTrx
  have haccept : (Ledger.transaction E trx genName (db.ledger E)).1 ↔ ¬ Touched E S db := by
    rw [touched_iff hr hi]
    simp only [Ledger.transaction, hcs, Ledger.commands, Ledger.command, Ledger.issueStock,
      Ledger.key_post_of_name_none (E := E) (v := db.ledger E) (e := Ledger.startTrx E trx) rfl,
      hkey, Ledger.balance_post_of_accounts_nil (E := E) hdb.coherent hadm rfl, hverify]
    cases ((db.ledger E).balance S S).2 <;> simp
  rw [happ, Lib.returned, Option.some_inj, haccept]
  constructor
  · intro h htouched
    by_contra hissued
    exact h.mpr hissued htouched
  · intro h
    exact ⟨fun hno hissued => hno hissued.touched, fun hno htouched => hno (h htouched)⟩

def payNothing : SignedTransaction where
  trx :=
    { utcTime := 0
      commands := [.registerName [1] 7, .registerName [2] 8, .transfer ⟨0, [1], [2], [1]⟩] }
  sigs := [8]

def blocked : Database :=
  Lib.finalState (DbM.apply (Wire.externals fun _ => 0) payNothing [3] (.trx (.file {}) {}))

def issueFirst : SignedTransaction where
  trx := { utcTime := 1, commands := [.issue [1]] }
  sigs := [7]

theorem reachable_blocked : Database.Reachable (Wire.externals fun _ => 0) blocked :=
  .apply (.blank Database.blank_fresh) (Lib.eq_ok_of_returned (a := true) (by decide +kernel))

theorem issue_blocked :
    ¬ ∀ (db : Database) (S : Name) (K : PublicKey) (trx : SignedTransaction) (genName : Name),
      Database.Reachable (Wire.externals fun _ => 0) db → K ≠ .empty →
      Lib.returned (DbM.getPublicKey (Wire.externals fun _ => 0) S db) = some (some K) →
      trx.trx.commands = [.issue S] → trx.verify (Wire.externals fun _ => 0) K →
      (Lib.returned (DbM.apply (Wire.externals fun _ => 0) trx genName db) = some true ↔
        ¬ Issued (Wire.externals fun _ => 0) S db) := by
  intro h
  have hnot : ¬ Issued (Wire.externals fun _ => 0) [1] blocked := by
    rintro ⟨i, hi, r, hr, hissues⟩
    have hindex : Lib.returned (DbM.getNameIndex (Wire.externals fun _ => 0) [1] blocked) =
        some (some 55) := by decide +kernel
    cases hi.symm.trans hindex
    have hnone : ∀ r ∈ blocked.log (Wire.externals fun _ => 0), r.data.issues 55 = false := by
      decide +kernel
    exact Bool.false_ne_true ((hnone r hr).symm.trans hissues)
  have haccept := (h blocked [1] 7 issueFirst [3] reachable_blocked (by decide +kernel)
    (by decide +kernel) rfl (by decide +kernel)).mpr hnot
  revert haccept
  decide +kernel

theorem issue_accepted_iff_blocked :
    (Lib.returned (DbM.apply (Wire.externals fun _ => 0) issueFirst [3] blocked) = some true ↔
        ¬ Issued (Wire.externals fun _ => 0) [1] blocked) ↔
      (Touched (Wire.externals fun _ => 0) [1] blocked →
        Issued (Wire.externals fun _ => 0) [1] blocked) :=
  issue_accepted_iff reachable_blocked (K := 7) (by decide +kernel) rfl (by decide +kernel) [3]

end Gpm
