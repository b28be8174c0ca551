import Gpm.FreeMarket.Client

namespace Gpm

open Lib (returned)

variable {E : Externals} {Private : Type} {S : PrivateKeys E Private} {kc : Keychain Private}
  {n n' : Node} {trx trx' : SignedTransaction} {sigs : List Name} {c : Command} {cs : List Command}

namespace Node

theorem call_runs {α : Type} {x : DbM α} {a : α}
    (h : Lib.Runs (trace E) x n.genDb a []) :
    ∃ p, DbPtr.genTrx.call x n = .ok a (n.moved p) := by
  obtain ⟨db, hdb, p, rfl⟩ := h
  have hget : DbPtr.genTrx.get n = n.genDb := rfl
  refine ⟨p, ?_⟩
  rw [DbPtr.call, hget, hdb]
  rfl

theorem getKeyForName_runs (h : WellFormed E n.genDb) (N : Name) :
    ∃ p, getKeyForName E N n = .ok ((n.genDb.ledger E).key N) (n.moved p) :=
  call_runs (DbM.getPublicKey_runs h.indexed N)

theorem getBalance_runs (h : WellFormed E n.genDb) (account type : Name) :
    ∃ p, getBalance E account type n =
      .ok ((n.genDb.ledger E).balance account type).1 (n.moved p) := by
  obtain ⟨p, hp⟩ := call_runs (DbM.getBalance_runs h.indexed account type)
  refine ⟨p, ?_⟩
  rw [getBalance, map_eq_pure_bind, Lib.bind_ok hp]
  rfl

theorem ledger_genDb_moved (n : Node) (p : ℕ) :
    (n.moved p).genDb.ledger E = n.genDb.ledger E := by
  rw [genDb_moved, Database.ledger_moved]

end Node

namespace FreeMarket

def Held (E : Externals) (kc : Keychain Private) (k : PublicKey) : Prop :=
  (kc.get E ⟨E.encodeAddress k⟩).isSome

/-- A command that does not keep `sign` from its end. -/
def Signable (E : Externals) (kc : Keychain Private) (key : Name → Option PublicKey) :
    Command → Prop
  | .registerName name pubKey =>
    name = E.encodeAddress pubKey ∨ ∀ k, key name = some k → Held E kc k
  | .transfer tr => tr.fromName = [] ∨ ∃ k, key tr.fromName = some k ∧ Held E kc k
  | .issue stockName => ∃ k, key stockName = some k ∧ Held E kc k
  | .other _ => False

/-- The loop of `sign` gets past the commands. -/
def Passes (E : Externals) (kc : Keychain Private) (key : Name → Option PublicKey) :
    List Name → List Command → Prop
  | _, [] => True
  | sigs, c :: cs => if c.signer.any (sigs.contains ·) then Passes E kc key sigs cs
    else Signable E kc key c ∧ Passes E kc key (sigs ++ (notedName (E := E) kc c).toList) cs

theorem oldKey_runs {N : Name}
    {f : Option PublicKey → NodeM (Option (List Name × SignedTransaction))} {l : List Name}
    {other : Option (List Name × SignedTransaction)} {P : Prop}
    (h : WellFormed E n.genDb)
    (hf : ∀ k, f (some k) =
      pure ((kc.get E ⟨E.encodeAddress k⟩).map fun ki => (l, trx.sign S ki.priv)))
    (hother : f none = pure other)
    (hsome : ∀ k, (n.genDb.ledger E).key N = some k → (Held E kc k ↔ P))
    (hnone : (n.genDb.ledger E).key N = none → (other.isSome = true ↔ P)) :
    ∃ p r, (Node.getKeyForName E N >>= f) n = .ok r (n.moved p) ∧ (r.isSome = true ↔ P) := by
  obtain ⟨p, hp⟩ := Node.getKeyForName_runs h N
  rw [Lib.bind_ok hp]
  cases hkey : (n.genDb.ledger E).key N with
  | none =>
    rw [hother]
    exact ⟨p, _, rfl, hnone hkey⟩
  | some k =>
    rw [hf]
    refine ⟨p, _, rfl, ?_⟩
    rw [Option.isSome_map]
    exact hsome k hkey

theorem heldKey_runs {N : Name}
    {f : Option PublicKey → NodeM (Option (List Name × SignedTransaction))} {l : List Name}
    (h : WellFormed E n.genDb)
    (hf : ∀ k, f (some k) =
      pure ((kc.get E ⟨E.encodeAddress k⟩).map fun ki => (l, trx.sign S ki.priv)))
    (hnone : f none = pure none) :
    ∃ p r, (Node.getKeyForName E N >>= f) n = .ok r (n.moved p) ∧
      (r.isSome = true ↔ ∃ k, (n.genDb.ledger E).key N = some k ∧ Held E kc k) := by
  apply oldKey_runs h hf hnone
  · intro k hkey
    rw [hkey]
    refine ⟨fun hk => ⟨k, rfl, hk⟩, ?_⟩
    rintro ⟨k', hk', hheld⟩
    exact Option.some.inj hk' ▸ hheld
  · intro hkey
    rw [hkey]
    refine iff_of_false Bool.false_ne_true ?_
    rintro ⟨k, hk, -⟩
    cases hk

theorem signedBefore_runs {N : Name} {sigs : List Name} {signer : Option Name}
    {m : NodeM (Option (List Name × SignedTransaction))} {P : Prop} (hsigner : signer = some N)
    (hm : ∃ p r, m n = .ok r (n.moved p) ∧ (r.isSome = true ↔ P)) :
    ∃ p r, (if N ∈ sigs then pure (some (sigs, trx)) else m) n = .ok r (n.moved p) ∧
      (r.isSome = true ↔ signer.any (· ∈ sigs) = true ∨ P) := by
  rw [hsigner, Option.any_some, decide_eq_true_eq]
  split
  · rename_i hsigs
    exact ⟨_, _, rfl, iff_of_true rfl (Or.inl hsigs)⟩
  · rename_i hsigs
    rwa [or_iff_right hsigs]

theorem signCommand_registerName_runs (h : WellFormed E n.genDb) (sigs : List Name)
    (trx : SignedTransaction) (name : Name) (pubKey : PublicKey) :
    ∃ p r, signCommand S kc sigs trx (.registerName name pubKey) n = .ok r (n.moved p) ∧
      (r.isSome = true ↔ (some name).any (· ∈ sigs) = true ∨
        Signable E kc (n.genDb.ledger E).key (.registerName name pubKey)) := by
  apply signedBefore_runs rfl
  by_cases hown : name = E.encodeAddress pubKey
  · rw [if_pos hown]
    cases kc.get E ⟨name⟩ with
    | none => exact ⟨_, _, rfl, iff_of_true rfl (Or.inl hown)⟩
    | some ki => exact ⟨_, _, rfl, iff_of_true rfl (Or.inl hown)⟩
  · rw [if_neg hown, Signable, or_iff_right hown]
    apply oldKey_runs h (fun _ => rfl) rfl
    · intro k hkey
      rw [hkey]
      exact ⟨fun hk k' hk' => Option.some.inj hk' ▸ hk, fun hall => hall k rfl⟩
    · intro hkey
      rw [hkey]
      exact iff_of_true rfl fun k hk => by cases hk

theorem signCommand_transfer_runs (h : WellFormed E n.genDb) (sigs : List Name)
    (trx : SignedTransaction) (tr : Transfer) :
    ∃ p r, signCommand S kc sigs trx (.transfer tr) n = .ok r (n.moved p) ∧
      (r.isSome = true ↔ (some tr.fromName).any (· ∈ sigs) = true ∨
        Signable E kc (n.genDb.ledger E).key (.transfer tr)) := by
  apply signedBefore_runs rfl
  by_cases hempty : tr.fromName = []
  · rw [if_pos hempty]
    exact ⟨_, _, rfl, iff_of_true rfl (Or.inl hempty)⟩
  · rw [if_neg hempty, Signable, or_iff_right hempty]
    exact heldKey_runs h (fun _ => rfl) rfl

theorem signCommand_runs (h : WellFormed E n.genDb) (sigs : List Name) (trx : SignedTransaction)
    (c : Command) :
    ∃ p r, signCommand S kc sigs trx c n = .ok r (n.moved p) ∧ (r.isSome = true ↔
      c.signer.any (· ∈ sigs) = true ∨ Signable E kc (n.genDb.ledger E).key c) := by
  cases c with
  | registerName name pubKey => exact signCommand_registerName_runs h sigs trx name pubKey
  | issue stockName => exact signedBefore_runs rfl (heldKey_runs h (fun _ => rfl) rfl)
  | transfer tr => exact signCommand_transfer_runs h sigs trx tr
  | other i =>
    refine ⟨_, _, rfl, iff_of_false Bool.false_ne_true fun h => ?_⟩
    exact h.elim (by simp [Command.signer]) id

theorem signCommands_runs (h : WellFormed E n.genDb) (hkc : kc.Matches S) (sigs : List Name)
    (trx : SignedTransaction) (cs : List Command) :
    ∃ p r, signCommands S kc sigs trx cs n = .ok r (n.moved p) ∧
      (r.isSome = true ↔ Passes E kc (n.genDb.ledger E).key sigs cs) := by
  induction cs generalizing n sigs trx with
  | nil => exact ⟨_, _, rfl, iff_of_true rfl trivial⟩
  | cons c cs ih =>
    obtain ⟨p, r, hc, hr⟩ := @signCommand_runs _ _ S kc _ h sigs trx c
    rw [signCommands, Lib.bind_ok hc, Passes]
    simp only [List.contains_eq_mem]
    cases r with
    | none =>
      have hno := not_or.mp (hr.not.mp Bool.false_ne_true)
      rw [if_neg hno.1]
      exact ⟨p, none, rfl, iff_of_false Bool.false_ne_true fun hpass => hno.2 hpass.1⟩
    | some r =>
      obtain ⟨sigs₁, trx₁⟩ := r
      have h₁ : WellFormed E (n.moved p).genDb := h.moved p
      obtain ⟨q, r', hrun, hr'⟩ := ih h₁ sigs₁ trx₁
      refine ⟨q, r', hrun, hr'.trans ?_⟩
      obtain ⟨-, hturn⟩ := of_signCommand h hkc hc
      rw [Node.ledger_genDb_moved, hturn.noted]
      have hyes := hr.mp rfl
      split
      · exact Iff.rfl
      · rename_i hnot
        exact (and_iff_right (hyes.resolve_left hnot)).symm

theorem sign_runs (h : WellFormed E n.genDb) (hkc : kc.Matches S) (trx : SignedTransaction) :
    ∃ p r, sign S kc trx n = .ok r (n.moved p) ∧
      (r.isSome = true ↔ Passes E kc (n.genDb.ledger E).key [] trx.trx.commands) := by
  obtain ⟨p, r, hrun, hr⟩ := signCommands_runs h hkc [] trx trx.trx.commands
  refine ⟨p, r, ?_, hr⟩
  rw [sign, hrun]

theorem of_sign_fresh (h : WellFormed E n.genDb) (hkc : kc.Matches S) (hsigs : trx.sigs = [])
    (hsign : sign S kc trx n = .ok (some trx') n') :
    trx'.trx = trx.trx ∧ ∀ k, trx'.verify E k = true ↔
      k ∈ signingKeys E kc (n.genDb.ledger E).key [] trx.trx.commands := by
  obtain ⟨-, hbody, hverify⟩ := of_signCommands h hkc (of_sign hsign)
  refine ⟨hbody, fun k => (hverify k).trans (or_iff_right ?_)⟩
  rw [SignedTransaction.verify, hsigs]
  exact Bool.false_ne_true

end FreeMarket

namespace Ledger

variable {v : Ledger} {genName : Name} {trxPos : ℕ}

theorem destination_isSome_iff {N : Name} : (destination E v N).isSome = true ↔
    (v.key N).isSome = true ∨ E.validateAddressFormat N = true := by
  have hkey : (v.key N).isSome = (v.index N).isSome := by
    rw [key, index, Option.isSome_map, Option.isSome_map]
  rw [hkey, destination]
  cases v.index N with
  | some i => exact iff_of_true rfl (Or.inl rfl)
  | none =>
    cases E.validateAddressFormat N with
    | true => exact iff_of_true rfl (Or.inr rfl)
    | false => exact iff_of_false Bool.false_ne_true fun h => h.elim (by simp) (by simp)

theorem transferStock_isSome_iff {tr : Transfer} :
    (transferStock E trx genName trxPos v tr).isSome = true ↔
      (tr.toName = [] ∨ tr.fromName ≠ tr.toName) ∧
        (∃ k, v.key tr.fromName = some k ∧ trx.verify E k = true) ∧
        (v.key tr.stockName).isSome = true ∧
        tr.amount ≤ (v.balance tr.fromName tr.stockName).1 ∧
        ((v.key (recipient genName tr)).isSome = true ∨
          E.validateAddressFormat (recipient genName tr) = true) := by
  rw [← destination_isSome_iff, Option.isSome_iff_exists]
  constructor
  · rintro ⟨es, hes⟩
    obtain ⟨k, k', fs, hk, hk', hself, hverify, hfunds, hd, -⟩ := of_transferStock hes
    refine ⟨?_, ⟨k, hk, hverify⟩, by rw [hk']; rfl, UInt64.not_lt.mp hfunds,
      by rw [hd]; rfl⟩
    rw [not_and_or, not_not] at hself
    exact hself
  · rintro ⟨hself, ⟨k, hk, hverify⟩, hshares, hfunds, hd⟩
    obtain ⟨k', hk'⟩ := Option.isSome_iff_exists.mp hshares
    obtain ⟨fs, hfs⟩ := Option.isSome_iff_exists.mp hd
    have hself' : ¬ (tr.toName ≠ [] ∧ tr.fromName = tr.toName) := by
      rw [not_and_or, not_not]
      exact hself
    have hopen : ¬ ((!trx.verify E k) = true ∨
        (v.balance tr.fromName tr.stockName).1 < tr.amount) := by
      rw [hverify]
      exact not_or.mpr ⟨Bool.false_ne_true, UInt64.not_lt.mpr hfunds⟩
    rw [transferStock, if_neg hself', hk, hk']
    simp only
    rw [if_neg hopen, hfs]
    exact ⟨_, rfl⟩

theorem commands_singleton (v : Ledger) (c : Command) :
    (commands E trx genName trxPos v [c]).1 = (command E trx genName trxPos v c).isSome := by
  rw [commands]
  cases command E trx genName trxPos v c <;> rfl

theorem commands_cons_of_some {es : List Posting}
    (h : command E trx genName trxPos v c = some es) :
    (commands E trx genName trxPos v (c :: cs)).1 =
      (commands E trx genName trxPos (v.posts E es) cs).1 := by
  rw [commands, h]

theorem key_startTrx (v : Ledger) (trx : SignedTransaction) (N : Name) :
    (v.post E (startTrx E trx)).key N = v.key N := key_post_of_name_none rfl N

theorem balance_startTrx (h : v.Coherent) (trx : SignedTransaction) (A T : Name) :
    (v.post E (startTrx E trx)).balance A T = v.balance A T :=
  balance_post_of_accounts_nil h admits_startTrx rfl A T

end Ledger

namespace FreeMarket

variable {v : Ledger} {genName : Name} {tr : Transfer} {k : PublicKey}

theorem accepted_transfer (h : v.Coherent) (hcs : trx.trx.commands = [.transfer tr])
    (hkey : v.key tr.fromName = some k) :
    (Ledger.transaction E trx genName v).1 = true ↔
      (tr.toName = [] ∨ tr.fromName ≠ tr.toName) ∧ trx.verify E k = true ∧
        (v.key tr.stockName).isSome = true ∧
        tr.amount ≤ (v.balance tr.fromName tr.stockName).1 ∧
        ((v.key (Ledger.recipient genName tr)).isSome = true ∨
          E.validateAddressFormat (Ledger.recipient genName tr) = true) := by
  rw [Ledger.transaction, hcs]
  simp only [Ledger.commands_singleton, Ledger.command, Ledger.transferStock_isSome_iff,
    Ledger.key_startTrx, Ledger.balance_startTrx h, hkey, Option.some.injEq, exists_eq_left']

theorem accepted_registered (h : v.Coherent)
    (hcs : trx.trx.commands = [.registerName (E.encodeAddress k) k, .transfer tr])
    (hfrom : tr.fromName = E.encodeAddress k) (hknown : (v.key tr.fromName).isSome = true) :
    (Ledger.transaction E trx genName v).1 = true ↔
      (tr.toName = [] ∨ tr.fromName ≠ tr.toName) ∧ trx.verify E k = true ∧
        (v.key tr.stockName).isSome = true ∧
        tr.amount ≤ (v.balance tr.fromName tr.stockName).1 ∧
        ((v.key (Ledger.recipient genName tr)).isSome = true ∨
          E.validateAddressFormat (Ledger.recipient genName tr) = true) := by
  have h₁ : (v.post E (Ledger.startTrx E trx)).Coherent := h.post Ledger.admits_startTrx
  have hreg : Ledger.command E trx genName v.size (v.post E (Ledger.startTrx E trx))
      (.registerName (E.encodeAddress k) k) =
      some [(v.post E (Ledger.startTrx E trx)).setKey (E.encodeAddress k) k] := if_pos rfl
  generalize hw : (v.post E (Ledger.startTrx E trx)).posts E
    [(v.post E (Ledger.startTrx E trx)).setKey (E.encodeAddress k) k] = w
  have hbalance : ∀ A T, w.balance A T = v.balance A T := fun A T => by
    rw [← hw]
    exact (Ledger.balance_registerName h₁ hreg A T).trans (Ledger.balance_startTrx h trx A T)
  have hkey : ∀ N, w.key N = if E.encodeAddress k = N then some k else v.key N := fun N => by
    rw [← hw, Ledger.posts_cons, Ledger.posts_nil, Ledger.key_setKey, Ledger.key_startTrx]
  have hknown' : ∀ N, (w.key N).isSome = (v.key N).isSome := by
    intro N
    rw [hkey]
    split
    · rename_i hN
      rw [← hN, ← hfrom, hknown]
      rfl
    · rfl
  have hsource : w.key tr.fromName = some k := by rw [hkey, if_pos hfrom.symm]
  rw [Ledger.transaction, hcs]
  simp only [Ledger.commands_cons_of_some hreg, hw, Ledger.commands_singleton, Ledger.command,
    Ledger.transferStock_isSome_iff, hknown', hbalance, hsource, Option.some.injEq,
    exists_eq_left']

section

variable (E kc) in
def commandsOf (v : Ledger) (amnt : UInt64) (shares from_ to_ : Name) : List Command :=
  if (to_ ≠ gen ∧ !E.validateAddressFormat to_) ∧ v.key to_ = none then []
  else if v.key shares = none then []
  else
    match v.key from_ with
    | none => []
    | some fromPubKey =>
      if (v.balance from_ shares).1 < amnt then []
      else
        match kc.get E ⟨E.encodeAddress fromPubKey⟩ with
        | some _ => [.transfer (paymentOf amnt shares from_ to_)]
        | none =>
          if E.validateAddressFormat from_ then
            match kc.get E ⟨from_⟩ with
            | none => []
            | some ki =>
              [.registerName from_ ki.pub, .transfer (paymentOf amnt shares from_ to_)]
          else [.transfer (paymentOf amnt shares from_ to_)]

theorem unknownDestination_runs (h : WellFormed E n.genDb) (to_ : Name) :
    ∃ p, unknownDestination E to_ n =
      .ok (decide ((to_ ≠ gen ∧ !E.validateAddressFormat to_) ∧
      (n.genDb.ledger E).key to_ = none)) (n.moved p) := by
  by_cases hasked : to_ ≠ gen ∧ !E.validateAddressFormat to_
  · obtain ⟨p, hp⟩ := Node.getKeyForName_runs h to_
    refine ⟨p, ?_⟩
    rw [unknownDestination, if_pos hasked, map_eq_pure_bind, Lib.bind_ok hp]
    cases (n.genDb.ledger E).key to_ with
    | none => rw [decide_eq_true ⟨hasked, rfl⟩]; rfl
    | some k => rw [decide_eq_false fun hk => by cases hk.2]; rfl
  · refine ⟨n.mStateDb.mFile.pos, ?_⟩
    rw [unknownDestination, if_neg hasked, decide_eq_false fun hk => hasked hk.1]
    rfl

theorem transfer_runs (h : WellFormed E n.genDb) (amnt : UInt64) (shares from_ to_ : Name) :
    ∃ p, transfer E kc amnt shares from_ to_ n =
      .ok (commandsOf E kc (n.genDb.ledger E) amnt shares from_ to_) (n.moved p) := by
  obtain ⟨p, hp⟩ := unknownDestination_runs h to_
  rw [transfer, Lib.bind_ok hp, commandsOf]
  by_cases hno : (to_ ≠ gen ∧ !E.validateAddressFormat to_) ∧
    (n.genDb.ledger E).key to_ = none
  · rw [if_pos hno, decide_eq_true hno]
    exact ⟨p, rfl⟩
  have h₁ : WellFormed E (n.moved p).genDb := h.moved p
  obtain ⟨q, hq⟩ := Node.getKeyForName_runs h₁ shares
  rw [Node.ledger_genDb_moved] at hq
  rw [if_neg hno, decide_eq_false hno, if_neg Bool.false_ne_true, Lib.bind_ok hq]
  cases (n.genDb.ledger E).key shares with
  | none => exact ⟨q, rfl⟩
  | some sharePubKey =>
    have h₂ : WellFormed E (n.moved q).genDb := h.moved q
    obtain ⟨r, hr⟩ := Node.getKeyForName_runs h₂ from_
    rw [Node.ledger_genDb_moved] at hr
    simp only [Node.moved_moved]
    rw [Lib.bind_ok hr, if_neg (Option.some_ne_none _)]
    cases (n.genDb.ledger E).key from_ with
    | none => exact ⟨r, rfl⟩
    | some fromPubKey =>
      have h₃ : WellFormed E (n.moved r).genDb := h.moved r
      obtain ⟨s, hs⟩ := Node.getBalance_runs h₃ from_ shares
      rw [Node.ledger_genDb_moved] at hs
      simp only [Node.moved_moved]
      rw [Lib.bind_ok hs]
      refine ⟨s, ?_⟩
      split
      · rfl
      · cases kc.get E ⟨E.encodeAddress fromPubKey⟩ with
        | some ki => rfl
        | none =>
          cases E.validateAddressFormat from_ with
          | false => rfl
          | true => cases kc.get E ⟨from_⟩ <;> rfl

end

/-- What the state of the ledger has to say to a transfer, whoever signs for it. -/
structure Covers (E : Externals) (v : Ledger) (genName : Name) (tr : Transfer) : Prop where
  apart : tr.toName = [] ∨ tr.fromName ≠ tr.toName
  shares : (v.key tr.stockName).isSome = true
  funds : tr.amount ≤ (v.balance tr.fromName tr.stockName).1
  recipient : (v.key (Ledger.recipient genName tr)).isSome = true ∨
    E.validateAddressFormat (Ledger.recipient genName tr) = true

def Accepted (S : PrivateKeys E Private) (kc : Keychain Private) (n : Node) (genName : Name)
    (trx : SignedTransaction) : Prop :=
  ∃ t n', sign S kc trx n = .ok (some t) n' ∧
    returned (DbM.apply E t genName n.genDb) = some true

theorem accepted_iff_of_transfer (h : WellFormed E n.genDb) (hkc : kc.Matches S)
    (hsigs : trx.sigs = []) (hcs : trx.trx.commands = [.transfer tr])
    (hkey : (n.genDb.ledger E).key tr.fromName = some k) :
    Accepted S kc n genName trx ↔
      (Held E kc k ∧ tr.fromName ≠ []) ∧ Covers E (n.genDb.ledger E) genName tr := by
  have hpasses : Passes E kc (n.genDb.ledger E).key [] trx.trx.commands ↔
      tr.fromName = [] ∨ Held E kc k := by
    rw [hcs, Passes, if_neg (by simp [Command.signer]), Passes, and_true, Signable, hkey]
    simp
  have hkeys : k ∈ signingKeys E kc (n.genDb.ledger E).key [] trx.trx.commands ↔
      tr.fromName ≠ [] := by
    rw [hcs, signingKeys, if_neg (by simp [Command.signer]), signingKeys, signingKey]
    split
    · simp [*]
    · simp [*]
  obtain ⟨p, r, hsign, hr⟩ := sign_runs h hkc trx
  rw [hpasses] at hr
  constructor
  · rintro ⟨t, n', hsign', happ⟩
    rw [hsign] at hsign'
    cases hsign'
    obtain ⟨hbody, hverify⟩ := of_sign_fresh h hkc hsigs hsign
    rw [DbM.returned_apply _ _ h, Option.some_inj,
      accepted_transfer h.coherent (hbody ▸ hcs) hkey,
      hverify, hkeys] at happ
    obtain ⟨hapart, hne, hshares, hfunds, hrecipient⟩ := happ
    exact ⟨⟨(hr.mp rfl).resolve_left hne, hne⟩, hapart, hshares, hfunds, hrecipient⟩
  · rintro ⟨⟨hheld, hne⟩, hcovers⟩
    obtain ⟨t, rfl⟩ := Option.isSome_iff_exists.mp (hr.mpr (Or.inr hheld))
    obtain ⟨hbody, hverify⟩ := of_sign_fresh h hkc hsigs hsign
    refine ⟨t, _, hsign, ?_⟩
    rw [DbM.returned_apply _ _ h, Option.some_inj,
      accepted_transfer h.coherent (hbody ▸ hcs) hkey,
      hverify, hkeys]
    exact ⟨hcovers.apart, hne, hcovers.shares, hcovers.funds, hcovers.recipient⟩

theorem accepted_iff_of_registered (h : WellFormed E n.genDb) (hkc : kc.Matches S)
    (hsigs : trx.sigs = [])
    (hcs : trx.trx.commands = [.registerName (E.encodeAddress k) k, .transfer tr])
    (hfrom : tr.fromName = E.encodeAddress k) (hheld : Held E kc k)
    (hknown : ((n.genDb.ledger E).key tr.fromName).isSome = true) :
    Accepted S kc n genName trx ↔ Covers E (n.genDb.ledger E) genName tr := by
  have hnoted : notedName (E := E) kc (.registerName (E.encodeAddress k) k) =
      some (E.encodeAddress k) := by
    obtain ⟨ki, hki⟩ := Option.isSome_iff_exists.mp hheld
    rw [notedName, if_pos rfl, hki]
    rfl
  have hpasses : Passes E kc (n.genDb.ledger E).key [] trx.trx.commands := by
    rw [hcs, Passes, if_neg (by simp [Command.signer]), hnoted, Option.toList_some, List.nil_append,
      Passes, if_pos (by simp [Command.signer, hfrom])]
    exact ⟨Or.inl rfl, trivial⟩
  have hkeys : k ∈ signingKeys E kc (n.genDb.ledger E).key [] trx.trx.commands := by
    obtain ⟨ki, hki⟩ := Option.isSome_iff_exists.mp hheld
    rw [hcs, signingKeys, if_neg (by simp [Command.signer]), signingKey, if_pos rfl, hki]
    exact List.mem_append_left _ (List.mem_singleton.mpr rfl)
  obtain ⟨p, r, hsign, hr⟩ := sign_runs h hkc trx
  obtain ⟨t, rfl⟩ := Option.isSome_iff_exists.mp (hr.mpr hpasses)
  obtain ⟨hbody, hverify⟩ := of_sign_fresh h hkc hsigs hsign
  have happ : returned (DbM.apply E t genName n.genDb) = some true ↔
      Covers E (n.genDb.ledger E) genName tr := by
    rw [DbM.returned_apply _ _ h, Option.some_inj,
      accepted_registered h.coherent (hbody ▸ hcs) hfrom hknown]
    constructor
    · rintro ⟨hapart, -, hshares, hfunds, hrecipient⟩
      exact ⟨hapart, hshares, hfunds, hrecipient⟩
    · exact fun hc => ⟨hc.apart, (hverify k).mpr hkeys, hc.shares, hc.funds, hc.recipient⟩
  rw [← happ]
  constructor
  · rintro ⟨t', n', hsign', happ'⟩
    rw [hsign] at hsign'
    cases hsign'
    exact happ'
  · exact fun happ' => ⟨t, _, hsign, happ'⟩

def HoldsSource (E : Externals) (kc : Keychain Private) (v : Ledger) (from_ : Name) : Prop :=
  ∃ k, v.key from_ = some k ∧
    (Held E kc k ∧ from_ ≠ [] ∨ ¬ Held E kc k ∧ (kc.get E ⟨from_⟩).isSome = true)

/-- A payment that can be typed in, signed for and accepted. -/
structure Payable (E : Externals) (kc : Keychain Private) (v : Ledger) (genName : Name)
    (amnt : UInt64) (shares from_ to_ : Name) : Prop where
  known : to_ = gen ∨ E.validateAddressFormat to_ = true ∨ (v.key to_).isSome = true
  source : HoldsSource E kc v from_
  covers : Covers E v genName (paymentOf amnt shares from_ to_)

theorem validate_of_get {a : Name} (h : (kc.get E ⟨a⟩).isSome = true) :
    E.validateAddressFormat a = true := by
  by_contra hno
  rw [Bool.not_eq_true] at hno
  rw [Keychain.get, hno] at h
  cases h

section

variable {amnt : UInt64} {shares from_ to_ : Name}

theorem holdsSource_iff (hk : v.key from_ = some k) : HoldsSource E kc v from_ ↔
    Held E kc k ∧ from_ ≠ [] ∨ ¬ Held E kc k ∧ (kc.get E ⟨from_⟩).isSome = true := by
  rw [HoldsSource, hk]
  simp only [Option.some.injEq, exists_eq_left']

theorem known_iff : to_ = gen ∨ E.validateAddressFormat to_ = true ∨
    (v.key to_).isSome = true ↔
    ¬ ((to_ ≠ gen ∧ !E.validateAddressFormat to_) ∧ v.key to_ = none) := by
  rw [not_and_or, not_and_or, not_ne_iff, Bool.not_eq_true', Bool.not_eq_false, or_assoc,
    Option.isSome_iff_ne_none]

theorem Payable.shares_ne_none (hp : Payable E kc v genName amnt shares from_ to_) :
    v.key shares ≠ none :=
  Option.isSome_iff_ne_none.mp hp.covers.shares

theorem Payable.from_ne_none (hp : Payable E kc v genName amnt shares from_ to_) :
    v.key from_ ≠ none := by
  obtain ⟨k, hk, -⟩ := hp.source
  rw [hk]
  exact Option.some_ne_none k

theorem commandsOf_cases (E : Externals) (kc : Keychain Private) (v : Ledger) (genName : Name)
    (amnt : UInt64) (shares from_ to_ : Name) :
    commandsOf E kc v amnt shares from_ to_ = [] ∧
        ¬ Payable E kc v genName amnt shares from_ to_ ∨
      (to_ = gen ∨ E.validateAddressFormat to_ = true ∨ (v.key to_).isSome = true) ∧
        ∃ k, v.key from_ = some k ∧
          ((Held E kc k ∨ ¬ (kc.get E ⟨from_⟩).isSome = true) ∧
              commandsOf E kc v amnt shares from_ to_ =
                [.transfer (paymentOf amnt shares from_ to_)] ∨
            ¬ Held E kc k ∧ ∃ ki, kc.get E ⟨from_⟩ = some ki ∧
              commandsOf E kc v amnt shares from_ to_ =
                [.registerName from_ ki.pub, .transfer (paymentOf amnt shares from_ to_)]) := by
  rw [commandsOf]
  by_cases hto : (to_ ≠ gen ∧ !E.validateAddressFormat to_) ∧ v.key to_ = none
  · rw [if_pos hto]
    exact Or.inl ⟨rfl, fun hp => known_iff.mp hp.known hto⟩
  rw [if_neg hto]
  by_cases hshares : v.key shares = none
  · rw [if_pos hshares]
    exact Or.inl ⟨rfl, fun hp => hp.shares_ne_none hshares⟩
  rw [if_neg hshares]
  cases hk : v.key from_ with
  | none => exact Or.inl ⟨rfl, fun hp => hp.from_ne_none hk⟩
  | some k =>
    simp only
    by_cases hfunds : (v.balance from_ shares).1 < amnt
    · rw [if_pos hfunds]
      exact Or.inl ⟨rfl, fun hp => UInt64.not_lt.mpr hp.covers.funds hfunds⟩
    rw [if_neg hfunds]
    cases hki : kc.get E ⟨E.encodeAddress k⟩ with
    | some ki =>
      have hheld : Held E kc k := by rw [Held, hki]; rfl
      exact Or.inr ⟨known_iff.mpr hto, k, rfl, Or.inl ⟨Or.inl hheld, rfl⟩⟩
    | none =>
      have hheld : ¬ Held E kc k := by rw [Held, hki]; exact Bool.false_ne_true
      simp only
      split
      · cases hfrom : kc.get E ⟨from_⟩ with
        | none =>
          refine Or.inl ⟨rfl, fun hp => ?_⟩
          have hown := ((holdsSource_iff hk).mp hp.source).resolve_left fun hown => hheld hown.1
          rw [hfrom] at hown
          exact Bool.false_ne_true hown.2
        | some ki => exact Or.inr ⟨known_iff.mpr hto, k, rfl, Or.inr ⟨hheld, ki, rfl, rfl⟩⟩
      · rename_i hformat
        exact Or.inr ⟨known_iff.mpr hto, k, rfl,
          Or.inl ⟨Or.inr fun hget => hformat (validate_of_get hget), rfl⟩⟩

end

theorem commandsOf_accepted_iff (h : WellFormed E n.genDb)
    (hinj : Function.Injective E.encodeAddress) (hkc : kc.Sound S) (amnt : UInt64)
    (shares from_ to_ : Name) (utcTime : UInt64) :
    .transfer (paymentOf amnt shares from_ to_) ∈
        commandsOf E kc (n.genDb.ledger E) amnt shares from_ to_ ∧
      Accepted S kc n genName
        ⟨⟨utcTime, commandsOf E kc (n.genDb.ledger E) amnt shares from_ to_⟩, []⟩ ↔
      Payable E kc (n.genDb.ledger E) genName amnt shares from_ to_ := by
  have hmatches := hkc.matches_ hinj
  obtain ⟨hcs, hno⟩ | ⟨hknown, k, hk, ⟨hown, hcs⟩ | ⟨hheld, ki, hfrom, hcs⟩⟩ :=
    commandsOf_cases E kc (n.genDb.ledger E) genName amnt shares from_ to_
  · rw [hcs]
    exact iff_of_false (fun hin => by cases hin.1) hno
  · have hlone : Accepted S kc n genName
        ⟨⟨utcTime, [.transfer (paymentOf amnt shares from_ to_)]⟩, []⟩ ↔ _ :=
      accepted_iff_of_transfer h hmatches rfl rfl hk
    rw [hcs, hlone]
    constructor
    · rintro ⟨-, hown, hcovers⟩
      exact ⟨hknown, (holdsSource_iff hk).mpr (Or.inl hown), hcovers⟩
    · rintro ⟨-, hs, hcovers⟩
      have hfirst : ¬ (¬ Held E kc k ∧ (kc.get E ⟨from_⟩).isSome = true) :=
        fun hsecond => hown.elim hsecond.1 fun hget => hget hsecond.2
      exact ⟨List.mem_singleton.mpr rfl, ((holdsSource_iff hk).mp hs).resolve_right hfirst,
        hcovers⟩
  · have haddr : from_ = E.encodeAddress ki.pub := hkc.address _ _ (Keychain.mem_of_get hfrom)
    have hheld' : Held E kc ki.pub := by rw [Held, ← haddr, hfrom]; rfl
    have hfront : Accepted S kc n genName ⟨⟨utcTime,
        [.registerName from_ ki.pub, .transfer (paymentOf amnt shares from_ to_)]⟩, []⟩ ↔ _ :=
      accepted_iff_of_registered h hmatches rfl (by rw [← haddr]) haddr hheld'
        (by rw [paymentOf, hk]; rfl)
    rw [hcs, hfront]
    constructor
    · rintro ⟨-, hcovers⟩
      have hsource : HoldsSource E kc (n.genDb.ledger E) from_ :=
        (holdsSource_iff hk).mpr (Or.inr ⟨hheld, by rw [hfrom]; rfl⟩)
      exact ⟨hknown, hsource, hcovers⟩
    · rintro ⟨-, -, hcovers⟩
      exact ⟨List.mem_cons_of_mem _ (List.mem_singleton.mpr rfl), hcovers⟩

variable {c : Client Private}

theorem Client.run_payment (h : WellFormed E n.genDb) (hkc : c.keychain.Matches S) (amnt : UInt64)
    (shares from_ to_ : Name) (utcTime : UInt64) :
    ∃ p r, sign S c.keychain
        ⟨⟨utcTime, commandsOf E c.keychain (n.genDb.ledger E) amnt shares from_ to_⟩, []⟩ n =
          .ok r (n.moved p) ∧
      (c.run S [(n, .start), (n, .transfer amnt shares from_ to_),
        (n, .commit utcTime)]).submitted = c.submitted ++ r.toList := by
  obtain ⟨p, hp⟩ := @transfer_runs E Private c.keychain n h amnt shares from_ to_
  obtain ⟨q, r, hq, -⟩ := sign_runs h hkc
    ⟨⟨utcTime, commandsOf E c.keychain (n.genDb.ledger E) amnt shares from_ to_⟩, []⟩
  refine ⟨q, r, hq, ?_⟩
  have hstart : c.line S .start n = .ok { c with trx := .blank } n := rfl
  have htransfer : Client.line S { c with trx := .blank } (.transfer amnt shares from_ to_) n =
      .ok { c with
        trx := ⟨⟨0, commandsOf E c.keychain (n.genDb.ledger E) amnt shares from_ to_⟩, []⟩ }
      (n.moved p) := by
    rw [Client.line, Lib.bind_ok hp]
    rfl
  have hcommit : Client.line S { c with
      trx := ⟨⟨0, commandsOf E c.keychain (n.genDb.ledger E) amnt shares from_ to_⟩, []⟩ }
      (.commit utcTime) n =
      .ok { c with trx := .blank, submitted := c.submitted ++ r.toList } (n.moved q) := by
    rw [Client.line, Lib.bind_ok hq]
    cases r with
    | none => rw [Option.toList_none, List.append_nil]; rfl
    | some t => rfl
  simp only [Client.run, hstart, htransfer, hcommit, Lib.outcome]

/-- A payment that is typed in and committed is accepted just where the keychain and the ledger
allow it. -/
theorem payment_accepted_iff (hinj : Function.Injective E.encodeAddress)
    (hkc : c.keychain.Sound S) (hr : Node.Reachable E n) (amnt : UInt64)
    (shares from_ to_ : Name) (utcTime : UInt64) (genName : Name) :
    (∃ t, (c.run S [(n, .start), (n, .transfer amnt shares from_ to_),
        (n, .commit utcTime)]).submitted = c.submitted ++ [t] ∧
      .transfer (paymentOf amnt shares from_ to_) ∈ t.trx.commands ∧
      returned (DbM.apply E t genName n.genDb) = some true) ↔
      Payable E c.keychain (n.genDb.ledger E) genName amnt shares from_ to_ := by
  have h : WellFormed E n.genDb := hr.booked.gen.wellFormed
  have hmatches := hkc.matches_ hinj
  obtain ⟨p, r, hsign, hrun⟩ := Client.run_payment h hmatches amnt shares from_ to_ utcTime
  rw [hrun, ← commandsOf_accepted_iff h hinj hkc amnt shares from_ to_ utcTime]
  constructor
  · rintro ⟨t, hsubmitted, hmem, happ⟩
    have hr : r = some t := Option.toList_eq_singleton_iff.mp (List.append_cancel_left hsubmitted)
    subst hr
    have hbody := (of_sign_fresh h hmatches rfl hsign).1
    rw [hbody] at hmem
    exact ⟨hmem, t, _, hsign, happ⟩
  · rintro ⟨hmem, t, n', hsign', happ⟩
    rw [hsign] at hsign'
    cases hsign'
    have hbody := (of_sign_fresh h hmatches rfl hsign).1
    exact ⟨t, rfl, by rw [hbody]; exact hmem, happ⟩

def clientOf7 : Client PublicKey :=
  Client.run wireKeys {} [(namedNode, .genkey [1] 7)]

theorem payment_accepted_iff_clientOf7 :
    Payable (Wire.externals nonceHash) clientOf7.keychain
      (namedNode.genDb.ledger (Wire.externals nonceHash)) [] 5 [1] [1] [2] :=
  (payment_accepted_iff address_injective (Client.run_stocked Keychain.Sound.empty _).1
    reachable_namedNode 5 [1] [1] [2] 20 []).mp
      ⟨⟨⟨20, [payment]⟩, [7]⟩, by decide +kernel, by decide +kernel, by decide +kernel⟩

end FreeMarket

end Gpm
