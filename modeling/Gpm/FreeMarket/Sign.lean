import Gpm.Bdb.KeyvalueDb
import Gpm.Node.TransactionLog
import Gpm.StateDb.Addresses
import Gpm.StateDb.Signatures

namespace Gpm

open Lib (returned)

/-- What `private_key_t` takes from the cryptography. -/
structure PrivateKeys (E : Externals) (Private : Type) where
  sign : Private → Hashcode → Signature
  publicKey : Private → PublicKey
  keyVerify_sign : ∀ k h p, E.keyVerify k h (sign p h) = true ↔ publicKey p = k

structure KeychainRecord (Private : Type) where
  alias_ : Name
  pub : PublicKey
  priv : Private

abbrev Keychain (Private : Type) := Bdb.KeyvalueDb KeychainAddress (KeychainRecord Private)

variable {E : Externals} {Private : Type}

namespace SignedTransaction

def sign (S : PrivateKeys E Private) (t : SignedTransaction) (pk : Private) : SignedTransaction :=
  { t with sigs := t.sigs ++ [S.sign pk (E.hashTrx t.trx)] }

theorem verify_sign (S : PrivateKeys E Private) (t : SignedTransaction) (p : Private)
    (k : PublicKey) :
    (t.sign S p).verify E k = true ↔ t.verify E k = true ∨ S.publicKey p = k := by
  rw [verify, sign, List.any_append, Bool.or_eq_true, ← S.keyVerify_sign k (E.hashTrx t.trx) p]
  simp [verify]

end SignedTransaction

namespace Keychain

variable (E) in
def get (kc : Keychain Private) (k : KeychainAddress) : Option (KeychainRecord Private) :=
  if !E.validateAddressFormat k.address then none
  else (kc.find (Bdb.compareKeys KeychainAddress.gt KeychainAddress.eq) k).map Prod.snd

theorem mem_of_get {kc : Keychain Private} {a : KeychainAddress} {r : KeychainRecord Private}
    (h : kc.get E a = some r) : (a, r) ∈ kc.entries := by
  rw [get, Option.ite_none_left_eq_some] at h
  obtain ⟨⟨b, r'⟩, he, rfl⟩ := Option.map_eq_some_iff.mp h.2
  obtain ⟨hrange, hcmp⟩ := Option.filter_eq_some_iff.mp he
  have hab : a = b := by
    rw [decide_eq_true_iff, Bdb.compareKeys_keychainAddress] at hcmp
    cases hord : KeychainAddress.cmp a b with
    | eq => exact Std.LawfulEqCmp.eq_of_compare hord
    | lt => rw [hord] at hcmp; cases hcmp
    | gt => rw [hord] at hcmp; cases hcmp
  rw [hab]
  exact List.mem_of_find?_eq_some hrange

def Matches (S : PrivateKeys E Private) (kc : Keychain Private) : Prop :=
  ∀ k r, kc.get E ⟨E.encodeAddress k⟩ = some r → S.publicKey r.priv = k

end Keychain

def Node.getKeyForName (E : Externals) (name : Name) : NodeM (Option PublicKey) :=
  DbPtr.genTrx.call (DbM.getPublicKey E name)

namespace FreeMarket

variable (S : PrivateKeys E Private) (kc : Keychain Private)

/-- One turn of the loop of `sign`, with the names in `sigs`; there is no result where `sign`
returns false. -/
def signCommand (sigs : List Name) (trx : SignedTransaction) :
    Command → NodeM (Option (List Name × SignedTransaction))
  | .registerName name pubKey => do
    if name ∈ sigs then return some (sigs, trx)
    else if name = E.encodeAddress pubKey then
      match kc.get E ⟨name⟩ with
      | some ki => return some (sigs ++ [name], trx.sign S ki.priv)
      | none => return some (sigs, trx)
    else
      match ← Node.getKeyForName E name with
      | some oldPublicKey =>
        return (kc.get E ⟨E.encodeAddress oldPublicKey⟩).map fun ki =>
          (sigs, trx.sign S ki.priv)
      | none => return some (sigs, trx)
  | .transfer tr => do
    if tr.fromName ∈ sigs then return some (sigs, trx)
    else if tr.fromName = [] then return some (sigs, trx)
    else
      match ← Node.getKeyForName E tr.fromName with
      | some oldPublicKey =>
        return (kc.get E ⟨E.encodeAddress oldPublicKey⟩).map fun ki =>
          (sigs ++ [tr.fromName], trx.sign S ki.priv)
      | none => return none
  | .issue stockName => do
    if stockName ∈ sigs then return some (sigs, trx)
    else
      match ← Node.getKeyForName E stockName with
      | some oldPublicKey =>
        return (kc.get E ⟨E.encodeAddress oldPublicKey⟩).map fun ki =>
          (sigs ++ [stockName], trx.sign S ki.priv)
      | none => return none
  | .other _ => return none

def signCommands : List Name → SignedTransaction → List Command →
    NodeM (Option SignedTransaction)
  | _, trx, [] => return some trx
  | sigs, trx, c :: cs => do
    match ← signCommand S kc sigs trx c with
    | some (sigs, trx) => signCommands sigs trx cs
    | none => return none

/-- What is thrown is caught, and `sign` returns false. -/
def sign (trx : SignedTransaction) : NodeM (Option SignedTransaction) := fun n =>
  match signCommands S kc [] trx trx.trx.commands n with
  | .error (.exception _) n' => .ok none n'
  | .error .unpack n' => .ok none n'
  | r => r

def signingKey (key : Name → Option PublicKey) : Command → Option PublicKey
  | .registerName name pubKey =>
    if name = E.encodeAddress pubKey then (kc.get E ⟨name⟩).map fun _ => pubKey else key name
  | .transfer tr => if tr.fromName = [] then none else key tr.fromName
  | .issue stockName => key stockName
  | .other _ => none

def notedName : Command → Option Name
  | .registerName name pubKey =>
    if name = E.encodeAddress pubKey then (kc.get E ⟨name⟩).map fun _ => name else none
  | .transfer tr => if tr.fromName = [] then none else some tr.fromName
  | .issue stockName => some stockName
  | .other _ => none

variable (E) in
def signingKeys (key : Name → Option PublicKey) : List Name → List Command → List PublicKey
  | _, [] => []
  | sigs, c :: cs =>
    if c.signer.any (· ∈ sigs) then signingKeys key sigs cs
    else
      (signingKey (E := E) kc key c).toList ++
        signingKeys key (sigs ++ (notedName (E := E) kc c).toList) cs

end FreeMarket

variable {S : PrivateKeys E Private} {kc : Keychain Private} {n n' : Node}
  {trx trx' : SignedTransaction} {c : Command} {cs pre : List Command} {sigs sigs' : List Name}
  {N : Name} {k : PublicKey}

theorem Node.of_getKeyForName {α : Type} {f : Option PublicKey → NodeM α} {a : α}
    (h : WellFormed E n.genDb) (hrun : (getKeyForName E N >>= f) n = .ok a n') :
    ∃ p, f ((n.genDb.ledger E).key N) (n.moved p) = .ok a n' := by
  obtain ⟨db, hdb, p, rfl⟩ := DbM.getPublicKey_runs h.indexed N
  have hget : DbPtr.genTrx.get n = n.genDb := rfl
  have hkey : getKeyForName E N n = .ok ((n.genDb.ledger E).key N) (n.moved p) := by
    rw [getKeyForName, DbPtr.call, hget, hdb]
    rfl
  rw [Lib.bind_ok hkey] at hrun
  exact ⟨p, hrun⟩

namespace FreeMarket

/-- What one turn of the loop adds. -/
structure Signs (S : PrivateKeys E Private) (kc : Keychain Private)
    (key : Name → Option PublicKey)
    (sigs : List Name) (trx : SignedTransaction) (c : Command) (sigs' : List Name)
    (trx' : SignedTransaction) : Prop where
  body : trx'.trx = trx.trx
  noted : sigs' = if c.signer.any (· ∈ sigs) then sigs
    else sigs ++ (notedName (E := E) kc c).toList
  verify : ∀ k, trx'.verify E k = true ↔ trx.verify E k = true ∨
    k ∈ if c.signer.any (· ∈ sigs) then [] else (signingKey (E := E) kc key c).toList

namespace Signs

variable {key : Name → Option PublicKey} {p : Private}

theorem skip (h : c.signer.any (· ∈ sigs) = true) : Signs S kc key sigs trx c sigs trx where
  body := rfl
  noted := by rw [if_pos h]
  verify k := by simp [h]

theorem nothing (h : ¬ c.signer.any (· ∈ sigs) = true)
    (hkey : signingKey (E := E) kc key c = none)
    (hname : notedName (E := E) kc c = none) : Signs S kc key sigs trx c sigs trx where
  body := rfl
  noted := by rw [if_neg h, hname, Option.toList_none, List.append_nil]
  verify k := by simp [h, hkey]

theorem signed (h : ¬ c.signer.any (· ∈ sigs) = true)
    (hkey : signingKey (E := E) kc key c = some (S.publicKey p))
    (hname : sigs' = sigs ++ (notedName (E := E) kc c).toList) :
    Signs S kc key sigs trx c sigs' (trx.sign S p) where
  body := rfl
  noted := by rw [if_neg h, hname]
  verify k := by
    rw [if_neg h, hkey, SignedTransaction.verify_sign, Option.toList_some, List.mem_singleton,
      eq_comm (a := k)]

end Signs

theorem signer_of_noted (h : notedName (E := E) kc c = some N) : c.signer = some N := by
  cases c with
  | registerName n p =>
    rw [notedName] at h
    split at h
    · obtain ⟨_, -, rfl⟩ := Option.map_eq_some_iff.mp h
      rfl
    · cases h
  | issue s => exact h
  | transfer tr =>
    rw [notedName, Option.ite_none_left_eq_some] at h
    exact h.2
  | other => cases h

theorem of_oldKey {f : Option PublicKey → NodeM (Option (List Name × SignedTransaction))}
    {l : List Name} (h : WellFormed E n.genDb) (hkc : kc.Matches S)
    (hf : ∀ k, f (some k) =
      pure ((kc.get E ⟨E.encodeAddress k⟩).map fun ki => (l, trx.sign S ki.priv)))
    (hsign : (Node.getKeyForName E N >>= f) n = .ok (some (sigs', trx')) n') :
    (∃ p, (n.genDb.ledger E).key N = none ∧ f none (n.moved p) =
      .ok (some (sigs', trx')) n') ∨
      ∃ p q, n' = n.moved p ∧ (n.genDb.ledger E).key N = some (S.publicKey q) ∧ sigs' = l ∧
        trx' = trx.sign S q := by
  obtain ⟨p, hsign⟩ := Node.of_getKeyForName h hsign
  cases hkey : (n.genDb.ledger E).key N with
  | none =>
    rw [hkey] at hsign
    exact Or.inl ⟨p, rfl, hsign⟩
  | some k =>
    rw [hkey, hf] at hsign
    cases hki : kc.get E ⟨E.encodeAddress k⟩ with
    | none =>
      rw [hki] at hsign
      cases hsign
    | some ki =>
      rw [hki] at hsign
      cases hsign
      rw [← hkc k ki hki]
      exact Or.inr ⟨p, ki.priv, rfl, rfl, rfl, rfl⟩

theorem of_registerName {name : Name} {pubKey : PublicKey} (h : WellFormed E n.genDb)
    (hkc : kc.Matches S)
    (hsigner : ¬ (Command.registerName name pubKey).signer.any (· ∈ sigs) = true)
    (hsign : signCommand S kc sigs trx (.registerName name pubKey) n =
      .ok (some (sigs', trx')) n') :
    (∃ p, n' = n.moved p) ∧
      Signs S kc (n.genDb.ledger E).key sigs trx (.registerName name pubKey) sigs' trx' := by
  have hname : name ∉ sigs := by simpa [Command.signer] using hsigner
  rw [signCommand, if_neg hname] at hsign
  by_cases hown : name = E.encodeAddress pubKey
  · rw [if_pos hown] at hsign
    cases hki : kc.get E ⟨name⟩ with
    | none =>
      rw [hki] at hsign
      cases hsign
      exact ⟨⟨_, rfl⟩, .nothing hsigner (by simp [signingKey, ← hown, hki])
        (by simp [notedName, ← hown, hki])⟩
    | some ki =>
      rw [hki] at hsign
      cases hsign
      have hpub : S.publicKey ki.priv = pubKey := hkc pubKey ki (hown ▸ hki)
      exact ⟨⟨_, rfl⟩, .signed hsigner (by simp [signingKey, ← hown, hki, hpub])
        (by simp [notedName, ← hown, hki])⟩
  · rw [if_neg hown] at hsign
    have hnoted : notedName (E := E) kc (.registerName name pubKey) = none := if_neg hown
    obtain ⟨p, hkey, hsign⟩ | ⟨p, q, rfl, hkey, rfl, rfl⟩ :=
        of_oldKey h hkc (fun _ => rfl) hsign
    · cases hsign
      exact ⟨⟨p, rfl⟩, .nothing hsigner (by rw [signingKey, if_neg hown, hkey]) hnoted⟩
    · exact ⟨⟨p, rfl⟩, .signed hsigner (by rw [signingKey, if_neg hown, hkey])
        (by rw [hnoted, Option.toList_none, List.append_nil])⟩

theorem of_signCommand (h : WellFormed E n.genDb) (hkc : kc.Matches S)
    (hsign : signCommand S kc sigs trx c n = .ok (some (sigs', trx')) n') :
    (∃ p, n' = n.moved p) ∧ Signs S kc (n.genDb.ledger E).key sigs trx c sigs' trx' := by
  by_cases hsigner : c.signer.any (· ∈ sigs) = true
  · have hskip : signCommand S kc sigs trx c n = .ok (some (sigs, trx)) n := by
      cases c with
      | other => cases hsigner
      | _ =>
        simp only [Command.signer, Option.any_some, decide_eq_true_eq] at hsigner
        rw [signCommand, if_pos hsigner]
        rfl
    rw [hskip] at hsign
    cases hsign
    exact ⟨⟨_, rfl⟩, .skip hsigner⟩
  cases c with
  | registerName name pubKey => exact of_registerName h hkc hsigner hsign
  | issue stockName =>
    have hname : stockName ∉ sigs := by simpa [Command.signer] using hsigner
    rw [signCommand, if_neg hname] at hsign
    obtain ⟨p, hkey, hsign⟩ | ⟨p, q, rfl, hkey, rfl, rfl⟩ :=
        of_oldKey h hkc (fun _ => rfl) hsign
    · cases hsign
    · exact ⟨⟨p, rfl⟩, .signed hsigner hkey rfl⟩
  | transfer tr =>
    have hname : tr.fromName ∉ sigs := by simpa [Command.signer] using hsigner
    rw [signCommand, if_neg hname] at hsign
    by_cases hempty : tr.fromName = []
    · rw [if_pos hempty] at hsign
      cases hsign
      exact ⟨⟨_, rfl⟩, .nothing hsigner (by rw [signingKey, if_pos hempty])
        (by rw [notedName, if_pos hempty])⟩
    · rw [if_neg hempty] at hsign
      obtain ⟨p, hkey, hsign⟩ | ⟨p, q, rfl, hkey, rfl, rfl⟩ :=
          of_oldKey h hkc (fun _ => rfl) hsign
      · cases hsign
      · exact ⟨⟨p, rfl⟩, .signed hsigner (by rw [signingKey, if_neg hempty, hkey])
          (by rw [notedName, if_neg hempty, Option.toList_some])⟩
  | other => cases hsign

theorem of_signCommands (h : WellFormed E n.genDb) (hkc : kc.Matches S)
    (hsign : signCommands S kc sigs trx cs n = .ok (some trx') n') :
    (∃ p, n' = n.moved p) ∧ trx'.trx = trx.trx ∧ ∀ k, trx'.verify E k = true ↔
      trx.verify E k = true ∨ k ∈ signingKeys E kc (n.genDb.ledger E).key sigs cs := by
  induction cs generalizing n sigs trx with
  | nil =>
    cases hsign
    exact ⟨⟨_, rfl⟩, rfl, fun k => by simp [signingKeys]⟩
  | cons c cs ih =>
    obtain ⟨r, n₁, hc, hcs⟩ := Lib.of_bind_ok hsign
    obtain rfl | ⟨⟨sigs₁, trx₁⟩, rfl⟩ := Option.eq_none_or_eq_some r
    · cases hcs
    · obtain ⟨⟨p, rfl⟩, hturn⟩ := of_signCommand h hkc hc
      have h₁ : WellFormed E (n.moved p).genDb := h.moved p
      obtain ⟨⟨q, rfl⟩, hbody, hverify⟩ := ih h₁ hcs
      refine ⟨⟨q, rfl⟩, hbody.trans hturn.body, fun k => ?_⟩
      have hledger : (n.moved p).genDb.ledger E = n.genDb.ledger E := by
        rw [Node.genDb_moved, Database.ledger_moved]
      rw [hverify, hledger, hturn.verify, hturn.noted, signingKeys]
      split
      · simp
      · rw [List.mem_append, or_assoc]

theorem signingKey_eq {key : Name → Option PublicKey} (hsigner : c.signer = some N)
    (hother : ∀ p, c = .registerName N p → N ≠ E.encodeAddress p) (hne : N ≠ []) :
    signingKey (E := E) kc key c = key N := by
  cases c with
  | registerName n p =>
    cases hsigner
    exact if_neg (hother p rfl)
  | issue s =>
    cases hsigner
    rfl
  | transfer tr =>
    cases hsigner
    exact if_neg hne
  | other => cases hsigner

theorem mem_signingKeys {key : Name → Option PublicKey} {post : List Command}
    (hsigner : c.signer = some N) (hother : ∀ p, c = .registerName N p →
      N ≠ E.encodeAddress p)
    (hne : N ≠ []) (hkey : key N = some k) (hsigs : N ∉ sigs)
    (hregs : registrations N pre = []) :
    k ∈ signingKeys E kc key sigs (pre ++ c :: post) := by
  induction pre generalizing sigs with
  | nil =>
    have hnew : ¬ c.signer.any (· ∈ sigs) = true := by simpa [hsigner] using hsigs
    rw [List.nil_append, signingKeys, if_neg hnew, signingKey_eq hsigner hother hne, hkey]
    exact List.mem_cons_self
  | cons d pre ih =>
    have hforeign : ∀ p, d ≠ .registerName N p := by
      rintro p rfl
      simp [registrations, Command.registration] at hregs
    have hrest : registrations N pre = [] := by
      rw [registrations, List.filterMap_eq_nil_iff] at hregs ⊢
      exact fun e he => hregs e (List.mem_cons_of_mem _ he)
    rw [List.cons_append, signingKeys]
    split
    · exact ih hsigs hrest
    · by_cases hd : d.signer = some N
      · rw [signingKey_eq hd (fun p hp => absurd hp (hforeign p)) hne, hkey]
        exact List.mem_append_left _ (List.mem_singleton.mpr rfl)
      · apply List.mem_append_right
        apply ih _ hrest
        rw [List.mem_append, Option.mem_toList]
        rintro (hmem | hnoted)
        · exact hsigs hmem
        · exact hd (signer_of_noted hnoted)

theorem of_sign (hsign : sign S kc trx n = .ok (some trx') n') :
    signCommands S kc [] trx trx.trx.commands n = .ok (some trx') n' := by
  rw [sign] at hsign
  split at hsign
  · cases hsign
  · cases hsign
  · exact hsign

variable (E) in
def Covered (kc : Keychain Private) (trx : SignedTransaction) (genName : Name) (v : Ledger) :
    Prop :=
  ∀ pre c post N k, trx.trx.commands = pre ++ c :: post → c.signer = some N →
    N = [] ∨ v.key N = none ∨ registrations N pre ≠ [] →
    Ledger.Asks E trx genName v.size (v.post E (Ledger.startTrx E trx)) pre c k →
      trx.verify E k = true ∨ k ∈ signingKeys E kc v.key [] trx.trx.commands

/-- What `sign` signs for is what `apply` asks for, but for the names whose keys are of the
transaction's own making. -/
theorem sign_authorises_iff (hr : Node.Reachable E n) (hkc : kc.Matches S)
    (hsign : sign S kc trx n = .ok (some trx') n') (genName : Name) :
    returned (DbM.applyUnsigned E trx' genName n'.genDb) = some false ↔
      Covered E kc trx genName (n.genDb.ledger E) := by
  have h : WellFormed E n.genDb := hr.booked.gen.wellFormed
  obtain ⟨⟨p, rfl⟩, hbody, hverify⟩ := of_signCommands h hkc (of_sign hsign)
  have h' : WellFormed E (n.moved p).genDb := h.moved p
  have hledger : (n.moved p).genDb.ledger E = n.genDb.ledger E := by
    rw [Node.genDb_moved, Database.ledger_moved]
  have hsize : (n.moved p).genDb.size = (n.genDb.ledger E).size := by
    rw [Node.genDb_moved, Database.size_moved]
    rfl
  have hstart : Ledger.startTrx E trx' = Ledger.startTrx E trx := by
    rw [Ledger.startTrx, Ledger.startTrx, hbody]
  have hasks : ∀ v trxPos pre c k, Ledger.Asks E trx' genName trxPos v pre c k ↔
      Ledger.Asks E trx genName trxPos v pre c k := by
    intro v trxPos pre c k
    rw [Ledger.Asks, Ledger.Asks, Ledger.commands_endorsed trx' trx]
  rw [DbM.returned_applyUnsigned h', Option.some_inj, Ledger.commandsUnsigned_eq_false_iff, hbody,
    hledger, hsize, hstart]
  constructor
  · intro hall pre c post N k heq _ _ hasked
    exact (hverify k).mp (hall pre c post k heq ((hasks _ _ _ _ _).mpr hasked))
  · intro hcovered pre c post k heq hasked
    rw [hasks] at hasked
    rw [hverify]
    obtain ⟨N, hsigner, -, hother⟩ := Ledger.of_askedKey hasked.2
    by_cases hown : N = [] ∨ (n.genDb.ledger E).key N = none ∨ registrations N pre ≠ []
    · exact hcovered pre c post N k heq hsigner hown hasked
    · right
      simp only [not_or, not_not] at hown
      obtain ⟨hne, hkey, hregs⟩ := hown
      obtain ⟨K, hK⟩ := Option.ne_none_iff_exists'.mp hkey
      have hstartKey : ((n.genDb.ledger E).post E (Ledger.startTrx E trx)).key N = some K := by
        rw [Ledger.key_post_of_name_none rfl, hK]
      rw [hasked.key_eq hsigner hstartKey hregs, heq]
      exact mem_signingKeys hsigner hother hne hK (List.not_mem_nil) hregs

section

open Node

def wireKeys : PrivateKeys (Wire.externals nonceHash) PublicKey where
  sign p _ := p
  publicKey p := p
  keyVerify_sign _ _ _ := decide_eq_true_iff

def keychainOf7 : Keychain PublicKey where
  entries := [(⟨Wire.address 7⟩, { alias_ := [1], pub := 7, priv := 7 })]

theorem keychainOf7_matches : keychainOf7.Matches wireKeys := by
  intro k r h
  have hmem := Keychain.mem_of_get h
  rw [keychainOf7, List.mem_singleton, Prod.mk.injEq, KeychainAddress.mk.injEq] at hmem
  rw [hmem.2]
  exact (address_injective hmem.1).symm

def namedNode : Node :=
  Lib.finalState ((Call.addTransaction (issueAt 10)).run (Wire.externals nonceHash) noon firstNode)

theorem reachable_namedNode : Node.Reachable (Wire.externals nonceHash) namedNode :=
  .call reachable_firstNode trivial (Lib.eq_ok_of_returned (by decide +kernel))

def payment : Command :=
  .transfer { amount := 5, stockName := [1], fromName := [1], toName := [2] }

def keepAndPay : SignedTransaction where
  trx := { utcTime := 20, commands := [.registerName [1] 7, payment] }
  sigs := []

theorem sign_keepAndPay : sign wireKeys keychainOf7 keepAndPay namedNode =
    .ok (some { keepAndPay with sigs := [7, 7] })
      (Lib.finalState (sign wireKeys keychainOf7 keepAndPay namedNode)) :=
  Lib.eq_ok_of_returned (by decide +kernel)

theorem sign_authorises_iff_keepAndPay :
    Covered (Wire.externals nonceHash) keychainOf7 keepAndPay []
      (namedNode.genDb.ledger (Wire.externals nonceHash)) :=
  (sign_authorises_iff reachable_namedNode keychainOf7_matches sign_keepAndPay []).mp
    (by decide +kernel)

def passAndPay : SignedTransaction where
  trx := { utcTime := 20, commands := [.registerName [1] 8, payment] }
  sigs := []

theorem sign_unauthorised :
    ¬ ∀ (n n' : Node) (kc : Keychain PublicKey) (trx trx' : SignedTransaction) (genName : Name),
      Reachable (Wire.externals nonceHash) n → kc.Matches wireKeys →
      sign wireKeys kc trx n = .ok (some trx') n' →
      returned (DbM.applyUnsigned (Wire.externals nonceHash) trx' genName n'.genDb) =
        some false := by
  intro h
  have hsigned : returned (sign wireKeys keychainOf7 passAndPay namedNode) =
      some (some { passAndPay with sigs := [7, 7] }) := by decide +kernel
  have hfalse := h namedNode _ keychainOf7 passAndPay _ [] reachable_namedNode
    keychainOf7_matches (Lib.eq_ok_of_returned hsigned)
  have htrue : returned (DbM.applyUnsigned (Wire.externals nonceHash)
      { passAndPay with sigs := [7, 7] } []
      (Lib.finalState (sign wireKeys keychainOf7 passAndPay namedNode)).genDb) = some true := by
    decide +kernel
  rw [hfalse] at htrue
  cases htrue

end

end FreeMarket

end Gpm
