import Gpm.FreeMarket.Registration
import Gpm.StateDb.Supply

namespace Gpm

open Lib (returned outcome)

variable {E : Externals} {Private : Type} {S : PrivateKeys E Private} {n : Node}
  {trx : SignedTransaction} {genName stockName : Name} {v : Ledger}

theorem Node.hasBalance_runs (h : WellFormed E n.genDb) (account type : Name) :
    ∃ p, hasBalance E account type n =
      .ok ((n.genDb.ledger E).balance account type).2.isSome (n.moved p) := by
  obtain ⟨p, hp⟩ := call_runs (DbM.getBalance_runs h.indexed account type)
  refine ⟨p, ?_⟩
  rw [hasBalance, map_eq_pure_bind, Lib.bind_ok hp]
  rfl

namespace FreeMarket

theorem accepted_issue (h : v.Coherent) (hcs : trx.trx.commands = [.issue stockName]) :
    (Ledger.transaction E trx genName v).1 = true ↔
      (∃ k, v.key stockName = some k ∧ trx.verify E k = true) ∧
        (v.balance stockName stockName).2 = none := by
  rw [Ledger.transaction, hcs]
  simp only [Ledger.commands_singleton, Ledger.command, Ledger.issueStock, Ledger.key_startTrx,
    Ledger.balance_startTrx h]
  cases v.key stockName with
  | none => exact iff_of_false Bool.false_ne_true fun hacc => by simp at hacc
  | some k =>
    cases (v.balance stockName stockName).2 with
    | some i => simp
    | none => cases trx.verify E k <;> simp

theorem balance_issue (h : v.Coherent) (hcs : trx.trx.commands = [.issue stockName])
    (hok : (Ledger.transaction E trx genName v).1 = true) :
    ((v.posts E (Ledger.transaction E trx genName v).2).balance stockName stockName).1 = -1 := by
  have hstart : (v.post E (Ledger.startTrx E trx)).Coherent := h.post Ledger.admits_startTrx
  rw [Ledger.transaction, hcs] at hok ⊢
  simp only [Ledger.commands] at hok ⊢
  cases hc : Ledger.command E trx genName v.size (v.post E (Ledger.startTrx E trx))
      (.issue stockName) with
  | none =>
    rw [hc] at hok
    cases hok
  | some es =>
    simp only [Ledger.posts_cons, List.append_nil]
    rw [Ledger.balance_issueStock hstart hc, if_pos ⟨rfl, rfl⟩]

variable {c : Client Private} {utcTime : UInt64}

theorem Client.run_issue (h : WellFormed E n.genDb) (hkc : c.keychain.Matches S) :
    ∃ p r, sign S c.keychain
        ⟨⟨utcTime, if ((n.genDb.ledger E).balance stockName stockName).2.isSome then []
          else [.issue stockName]⟩, []⟩ n = .ok r (n.moved p) ∧
      (c.run S [(n, .start), (n, .issue stockName), (n, .commit utcTime)]).submitted =
        c.submitted ++ r.toList := by
  obtain ⟨p, hp⟩ := Node.hasBalance_runs h stockName stockName
  obtain ⟨q, r, hq, -⟩ := sign_runs h hkc
    ⟨⟨utcTime, if ((n.genDb.ledger E).balance stockName stockName).2.isSome then []
      else [.issue stockName]⟩, []⟩
  refine ⟨q, r, hq, ?_⟩
  have hstart : c.line S .start n = .ok { c with trx := .blank } n := rfl
  have hissue : Client.line S { c with trx := .blank } (.issue stockName) n = .ok { c with
      trx := ⟨⟨0, if ((n.genDb.ledger E).balance stockName stockName).2.isSome then []
        else [.issue stockName]⟩, []⟩ } (n.moved p) := by
    rw [Client.line, Lib.bind_ok hp]
    cases ((n.genDb.ledger E).balance stockName stockName).2 <;> rfl
  have hcommit : Client.line S { c with
      trx := ⟨⟨0, if ((n.genDb.ledger E).balance stockName stockName).2.isSome then []
        else [.issue stockName]⟩, []⟩ } (.commit utcTime) n =
      .ok { c with trx := .blank, submitted := c.submitted ++ r.toList } (n.moved q) := by
    rw [Client.line, Lib.bind_ok hq]
    cases r with
    | none => rw [Option.toList_none, List.append_nil]; rfl
    | some t => rfl
  simp only [Client.run, hstart, hissue, hcommit, outcome]

/-- A stock that is issued and committed is accepted just where nobody has an account of it under
its own name, and there is a private key to the key of that name; then all of it is there. -/
theorem issuing_accepted_iff (hinj : Function.Injective E.encodeAddress)
    (hkc : c.keychain.Sound S) (hr : Node.Reachable E n) (stockName : Name) (utcTime : UInt64)
    (genName : Name) :
    (∃ t db, (c.run S [(n, .start), (n, .issue stockName), (n, .commit utcTime)]).submitted =
        c.submitted ++ [t] ∧
      t.trx.commands = [.issue stockName] ∧
      DbM.apply E t genName n.genDb = .ok true db ∧
      ((db.ledger E).balance stockName stockName).1 = -1) ↔
      (∃ k, (n.genDb.ledger E).key stockName = some k ∧ Held E c.keychain k) ∧
        ((n.genDb.ledger E).balance stockName stockName).2 = none := by
  have h : WellFormed E n.genDb := hr.booked.gen.wellFormed
  have hmatches := hkc.matches_ hinj
  obtain ⟨p, r, hsign, hrun⟩ :=
    @Client.run_issue E Private S n stockName c utcTime h hmatches
  rw [hrun]
  obtain ⟨q, r', hsign', hpasses⟩ := sign_runs h hmatches
    ⟨⟨utcTime, if ((n.genDb.ledger E).balance stockName stockName).2.isSome then []
      else [.issue stockName]⟩, []⟩
  rw [hsign] at hsign'
  cases hsign'
  cases hbal : ((n.genDb.ledger E).balance stockName stockName).2 with
  | some i =>
    refine iff_of_false ?_ fun hno => by simp at hno
    rintro ⟨t, db, hsubmitted, hcs, -⟩
    obtain rfl : r = some t :=
      Option.toList_eq_singleton_iff.mp (List.append_cancel_left hsubmitted)
    rw [hbal] at hsign
    rw [(of_sign_fresh h hmatches rfl hsign).1] at hcs
    cases hcs
  | none =>
    rw [hbal] at hsign hpasses
    simp only [Option.isSome_none, Bool.false_eq_true, if_false] at hsign hpasses
    have hsignable : r.isSome = true ↔
        ∃ k, (n.genDb.ledger E).key stockName = some k ∧ Held E c.keychain k := by
      rw [hpasses, Passes, if_neg (by simp [Command.signer]), Passes, and_true, Signable]
    rw [← hsignable, and_iff_left rfl]
    constructor
    · rintro ⟨t, db, hsubmitted, -⟩
      rw [Option.toList_eq_singleton_iff.mp (List.append_cancel_left hsubmitted)]
      rfl
    · intro hsome
      obtain ⟨t, rfl⟩ := Option.isSome_iff_exists.mp hsome
      obtain ⟨k, hk, -⟩ := hsignable.mp hsome
      obtain ⟨hbody, hverify⟩ := of_sign_fresh h hmatches rfl hsign
      have hcs : t.trx.commands = [.issue stockName] := by rw [hbody]
      have hok : (Ledger.transaction E t genName (n.genDb.ledger E)).1 = true := by
        refine (accepted_issue h.coherent hcs).mpr ⟨⟨k, hk, (hverify k).mpr ?_⟩, hbal⟩
        rw [signingKeys, if_neg (by simp [Command.signer]), signingKey, hk]
        exact List.mem_cons_self
      obtain ⟨db, hdb, -⟩ := DbM.apply_runs t genName h
      rw [hok] at hdb
      refine ⟨t, db, rfl, hcs, hdb, ?_⟩
      rw [(h.apply hdb).2.1]
      exact balance_issue h.coherent hcs hok

def clientOf8 : Client PublicKey :=
  Client.run wireKeys {} [(namedNode, .genkey [2] 8)]

theorem issuing_accepted_iff_clientOf8 : ∃ t db,
    (clientOf8.run wireKeys [(namedNode, .start), (namedNode, .issue [2]),
      (namedNode, .commit 20)]).submitted = clientOf8.submitted ++ [t] ∧
    t.trx.commands = [.issue [2]] ∧
    DbM.apply (Wire.externals nonceHash) t [] namedNode.genDb = .ok true db ∧
    ((db.ledger (Wire.externals nonceHash)).balance [2] [2]).1 = -1 :=
  (issuing_accepted_iff address_injective (Client.run_stocked Keychain.Sound.empty _).1
    reachable_namedNode [2] 20 []).mpr
      ⟨⟨8, by decide +kernel, by rw [Held]; decide +kernel⟩, by decide +kernel⟩

end FreeMarket

end Gpm
