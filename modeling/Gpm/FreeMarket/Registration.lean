import Gpm.FreeMarket.Payment

namespace Gpm

open Lib (returned outcome)

variable {E : Externals} {Private : Type} {S : PrivateKeys E Private} {kc : Keychain Private}
  {n n' : Node} {trx trx' : SignedTransaction} {k : PublicKey} {genName name : Name}
  {v : Ledger}

namespace FreeMarket

theorem accepted_registerName (hcs : trx.trx.commands = [.registerName name k]) :
    (Ledger.transaction E trx genName v).1 = true ↔
      name = E.encodeAddress k ∨ ∀ k', v.key name = some k' → trx.verify E k' = true := by
  rw [Ledger.transaction, hcs]
  simp only [Ledger.commands_singleton, Ledger.command, Ledger.registerName, Ledger.key_startTrx]
  by_cases hown : name = E.encodeAddress k
  · rw [if_pos hown]
    exact iff_of_true rfl (Or.inl hown)
  · rw [if_neg hown, or_iff_right hown]
    cases v.key name with
    | none => exact iff_of_true rfl fun k' hk' => by cases hk'
    | some k' =>
      simp only [Option.some.injEq, forall_eq']
      cases trx.verify E k' with
      | true => exact iff_of_true rfl rfl
      | false => exact iff_of_false Bool.false_ne_true Bool.false_ne_true

theorem key_registerName (hcs : trx.trx.commands = [.registerName name k])
    (hok : (Ledger.transaction E trx genName v).1 = true) :
    (v.posts E (Ledger.transaction E trx genName v).2).key name = some k := by
  rw [Ledger.transaction, hcs] at hok ⊢
  simp only [Ledger.commands] at hok ⊢
  cases hc : Ledger.command E trx genName v.size (v.post E (Ledger.startTrx E trx))
      (.registerName name k) with
  | none =>
    rw [hc] at hok
    cases hok
  | some es =>
    rw [Ledger.of_registerName hc]
    simp only [Ledger.posts_cons, Ledger.posts_nil, List.append_nil]
    rw [Ledger.key_setKey, if_pos rfl]

theorem sign_registerName (h : WellFormed E n.genDb) (hkc : kc.Matches S)
    (hcs : trx.trx.commands = [.registerName name k])
    (hheld : ∀ k', (n.genDb.ledger E).key name = some k' → Held E kc k') :
    ∃ p t, sign S kc trx n = .ok (some t) (n.moved p) ∧ t.trx = trx.trx ∧
      (name = E.encodeAddress k ∨
        ∀ k', (n.genDb.ledger E).key name = some k' → t.verify E k' = true) := by
  obtain ⟨p, r, hsign, hr⟩ := sign_runs h hkc trx
  have hpasses : Passes E kc (n.genDb.ledger E).key [] trx.trx.commands := by
    rw [hcs, Passes, if_neg (by simp [Command.signer])]
    exact ⟨Or.inr hheld, trivial⟩
  obtain ⟨t, rfl⟩ := Option.isSome_iff_exists.mp (hr.mpr hpasses)
  obtain ⟨-, hbody, hverify⟩ := of_signCommands h hkc (of_sign hsign)
  refine ⟨p, t, hsign, hbody, or_iff_not_imp_left.mpr fun hown k' hk' => ?_⟩
  rw [hverify, hcs, signingKeys, if_neg (by simp [Command.signer]), signingKey, if_neg hown, hk']
  exact Or.inr List.mem_cons_self

variable {c : Client Private} {priv : Private} {utcTime : UInt64}

def Client.stocked (S : PrivateKeys E Private) (c : Client Private) (name : Name) (priv : Private) :
    Keychain Private :=
  c.keychain.set E ⟨E.encodeAddress (S.publicKey priv)⟩ (Keychain.newRecord S name priv)

theorem Client.run_refused (h : WellFormed E n.genDb) (hkey : (n.genDb.ledger E).key name = some k)
    (hheld : ¬ Held E c.keychain k) :
    (c.run S [(n, .start), (n, .register name priv), (n, .commit utcTime)]).submitted =
      c.submitted ++ [⟨⟨utcTime, []⟩, []⟩] := by
  obtain ⟨p, hp⟩ := Node.getKeyForName_runs h name
  rw [hkey] at hp
  have hnone : c.keychain.get E ⟨E.encodeAddress k⟩ = none :=
    Option.not_isSome_iff_eq_none.mp hheld
  have hstart : c.line S .start n = .ok { c with trx := .blank } n := rfl
  have hregister : Client.line S { c with trx := .blank } (.register name priv) n =
      .ok { c with trx := .blank } (n.moved p) := by
    rw [Client.line, Client.register, Lib.bind_ok hp]
    simp only [hnone]
    rfl
  have hcommit : Client.line S { c with trx := .blank } (.commit utcTime) n = .ok { c with
      trx := .blank, submitted := c.submitted ++ [⟨⟨utcTime, []⟩, []⟩] } n := rfl
  simp only [Client.run, hstart, hregister, hcommit, outcome]

theorem Client.run_register (h : WellFormed E n.genDb) (hkc : c.keychain.Sound S)
    (hinj : Function.Injective E.encodeAddress)
    (hheld : ∀ k, (n.genDb.ledger E).key name = some k → Held E c.keychain k) :
    ∃ t, c.run S [(n, .start), (n, .register name priv), (n, .commit utcTime)] =
        { c with
          keychain := c.stocked S name priv
          trx := .blank
          submitted := c.submitted ++ [t] } ∧
      t.trx = ⟨utcTime, [.registerName name (S.publicKey priv)]⟩ ∧
      (name = E.encodeAddress (S.publicKey priv) ∨
        ∀ k', (n.genDb.ledger E).key name = some k' → t.verify E k' = true) := by
  obtain ⟨p, hp⟩ := Node.getKeyForName_runs h name
  have hstart : c.line S .start n = .ok { c with trx := .blank } n := rfl
  have hregister : ∃ sigs, Client.line S { c with trx := .blank } (.register name priv) n =
      .ok { c with
        keychain := c.stocked S name priv
        trx := ⟨⟨0, [.registerName name (S.publicKey priv)]⟩, sigs⟩ } (n.moved p) := by
    rw [Client.line, Client.register, Lib.bind_ok hp]
    cases hkey : (n.genDb.ledger E).key name with
    | none => exact ⟨[], rfl⟩
    | some k =>
      obtain ⟨old, hold⟩ := Option.isSome_iff_exists.mp (hheld k hkey)
      simp only [hold]
      exact ⟨_, rfl⟩
  obtain ⟨sigs, hregister⟩ := hregister
  have hstocks : Stocks S c.keychain (c.stocked S name priv) := .more name priv
  have hheld' : ∀ k, (n.genDb.ledger E).key name = some k → Held E (c.stocked S name priv) k :=
    fun k hk => hstocks.kept hkc (hheld k hk)
  obtain ⟨q, t, hsign, hbody, hverify⟩ :=
      @sign_registerName E Private S (c.stocked S name priv) n
    ⟨⟨utcTime, [.registerName name (S.publicKey priv)]⟩, sigs⟩ _ name h
    ((hstocks.sound hkc).matches_ hinj) rfl hheld'
  refine ⟨t, ?_, hbody, hverify⟩
  have hcommit : Client.line S { c with
      keychain := c.stocked S name priv
      trx := ⟨⟨0, [.registerName name (S.publicKey priv)]⟩, sigs⟩ } (.commit utcTime) n =
      .ok { c with
        keychain := c.stocked S name priv
        trx := .blank
        submitted := c.submitted ++ [t] } (n.moved q) := by
    rw [Client.line, Lib.bind_ok hsign]
    rfl
  simp only [Client.run, hstart, hregister, hcommit, outcome]

/-- A name that is registered and committed is accepted just where there is a private key to the
key it has, and then there is one to the key it gets. -/
theorem registration_accepted_iff (hinj : Function.Injective E.encodeAddress)
    (hvalid : ∀ k, E.validateAddressFormat (E.encodeAddress k) = true)
    (hkc : c.keychain.Sound S) (hr : Node.Reachable E n) (name : Name) (priv : Private)
    (utcTime : UInt64) (genName : Name) :
    (∃ c' t db, c.run S [(n, .start), (n, .register name priv), (n, .commit utcTime)] = c' ∧
      c'.submitted = c.submitted ++ [t] ∧
      t.trx.commands = [.registerName name (S.publicKey priv)] ∧
      DbM.apply E t genName n.genDb = .ok true db ∧
      (db.ledger E).key name = some (S.publicKey priv) ∧
      Held E c'.keychain (S.publicKey priv)) ↔
      ∀ k, (n.genDb.ledger E).key name = some k → Held E c.keychain k := by
  have h : WellFormed E n.genDb := hr.booked.gen.wellFormed
  constructor
  · rintro ⟨_, t, db, rfl, hsubmitted, hcommands, -⟩ k hk
    by_contra hheld
    rw [Client.run_refused h hk hheld] at hsubmitted
    obtain rfl := List.singleton_inj.mp (List.append_cancel_left hsubmitted)
    cases hcommands
  · intro hheld
    obtain ⟨t, hrun, hbody, hverify⟩ := Client.run_register h hkc hinj hheld
    have hcs : t.trx.commands = [.registerName name (S.publicKey priv)] := by rw [hbody]
    have hok : (Ledger.transaction E t genName (n.genDb.ledger E)).1 = true :=
      (accepted_registerName hcs).mpr hverify
    obtain ⟨db, hdb, -⟩ := DbM.apply_runs t genName h
    rw [hok] at hdb
    refine ⟨_, t, db, hrun, rfl, hcs, hdb, ?_, ?_⟩
    · rw [(h.apply hdb).2.1]
      exact key_registerName hcs hok
    · rw [Held, Client.stocked, hkc.get_set (hvalid _), if_pos rfl]
      rfl

theorem held_namedNode {k : PublicKey}
    (hk : (namedNode.genDb.ledger (Wire.externals nonceHash)).key [1] = some k) :
    Held (Wire.externals nonceHash) clientOf7.keychain k := by
  have hkey : (namedNode.genDb.ledger (Wire.externals nonceHash)).key [1] = some 7 := by
    decide +kernel
  obtain rfl := Option.some.inj (hkey.symm.trans hk)
  rw [Held]
  decide +kernel

theorem registration_accepted_iff_clientOf7 : ∃ c' t db,
    clientOf7.run wireKeys [(namedNode, .start), (namedNode, .register [1] 9),
      (namedNode, .commit 20)] = c' ∧
    c'.submitted = clientOf7.submitted ++ [t] ∧
    t.trx.commands = [.registerName [1] (wireKeys.publicKey 9)] ∧
    DbM.apply (Wire.externals nonceHash) t [] namedNode.genDb = .ok true db ∧
    (db.ledger (Wire.externals nonceHash)).key [1] = some (wireKeys.publicKey 9) ∧
    Held (Wire.externals nonceHash) c'.keychain (wireKeys.publicKey 9) :=
  (registration_accepted_iff address_injective (fun _ => rfl)
    (Client.run_stocked Keychain.Sound.empty _).1 reachable_namedNode [1] 9 20 []).mpr
      fun _ => held_namedNode

end FreeMarket

end Gpm
