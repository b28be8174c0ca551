import Gpm.FreeMarket.Sign

namespace Gpm

open Lib (outcome returned)

variable {E : Externals} {Private : Type}

namespace SignedTransaction

def blank : SignedTransaction := ⟨⟨0, []⟩, []⟩

def push (trx : SignedTransaction) (cs : List Command) : SignedTransaction :=
  { trx with trx := { trx.trx with commands := trx.trx.commands ++ cs } }

end SignedTransaction

namespace Keychain

variable (E) in
def set (kc : Keychain Private) (k : KeychainAddress) (v : KeychainRecord Private) :
    Keychain Private :=
  if !E.validateAddressFormat k.address then kc
  else (kc.step (Bdb.compareKeys KeychainAddress.gt KeychainAddress.eq) (.set k v)).2

structure Sound (S : PrivateKeys E Private) (kc : Keychain Private) : Prop where
  holds : ∃ f, Lib.Btree.Holds KeychainAddress.cmp f kc.entries
  address : ∀ a r, (a, r) ∈ kc.entries → a.address = E.encodeAddress r.pub
  priv : ∀ a r, (a, r) ∈ kc.entries → S.publicKey r.priv = r.pub

def newRecord (S : PrivateKeys E Private) (alias_ : Name) (priv : Private) :
    KeychainRecord Private where
  alias_ := alias_
  pub := S.publicKey priv
  priv := priv

variable {S : PrivateKeys E Private} {kc : Keychain Private} {a b : KeychainAddress}
  {r r' : KeychainRecord Private}

theorem orders (k : KeychainAddress) (es : List (KeychainAddress × KeychainRecord Private)) :
    Lib.Btree.Orders KeychainAddress.cmp
      (Bdb.compareKeys KeychainAddress.gt KeychainAddress.eq) k es :=
  fun _ _ => Bdb.compareKeys_keychainAddress _ _

theorem get_eq {f : KeychainAddress → Option (KeychainRecord Private)}
    (h : Lib.Btree.Holds KeychainAddress.cmp f kc.entries) (a : KeychainAddress) :
    kc.get E a = if E.validateAddressFormat a.address then f a else none := by
  rw [get, Bdb.KeyvalueDb.find, h.get (orders a _)]
  cases E.validateAddressFormat a.address with
  | true =>
    simp only [Bool.not_true, Bool.false_eq_true, if_false, if_true, Option.map_map]
    exact Option.map_id'
  | false => rfl

namespace Sound

theorem empty : Sound S ({} : Keychain Private) :=
  ⟨⟨_, Lib.Btree.holds_nil⟩, fun _ _ h => absurd h List.not_mem_nil,
    fun _ _ h => absurd h List.not_mem_nil⟩

theorem get_set (h : kc.Sound S) (ha : E.validateAddressFormat a.address = true) :
    (kc.set E a r).get E b = if b = a then some r else kc.get E b := by
  obtain ⟨f, hf⟩ := h.holds
  have hset : Lib.Btree.Holds KeychainAddress.cmp (Function.update f a (some r))
      (kc.set E a r).entries := by
    rw [set, ha]
    exact hf.put (orders a _) r
  rw [get_eq hset, get_eq hf, Function.update_apply]
  by_cases hb : b = a
  · rw [if_pos hb, if_pos hb, hb, ha]
    rfl
  · rw [if_neg hb, if_neg hb]

theorem set (h : kc.Sound S) (alias_ : Name) (priv : Private) :
    (kc.set E ⟨E.encodeAddress (S.publicKey priv)⟩ (newRecord S alias_ priv)).Sound S := by
  obtain ⟨f, hf⟩ := h.holds
  by_cases hvalid : E.validateAddressFormat (E.encodeAddress (S.publicKey priv)) = true
  · have hmem : ∀ {a r}, (a, r) ∈ (kc.set E ⟨E.encodeAddress (S.publicKey priv)⟩
        (newRecord S alias_ priv)).entries →
        a = ⟨E.encodeAddress (S.publicKey priv)⟩ ∧ r = newRecord S alias_ priv ∨
          (a, r) ∈ kc.entries := by
      intro a r har
      rw [Keychain.set, hvalid] at har
      have har' := ((hf.put (orders _ _) (newRecord S alias_ priv)).mem_iff a r).mp har
      rw [Function.update_apply] at har'
      split at har'
      · exact Or.inl ⟨‹_›, (Option.some.inj har').symm⟩
      · exact Or.inr ((hf.mem_iff a r).mpr har')
    refine ⟨⟨Function.update f ⟨E.encodeAddress (S.publicKey priv)⟩
      (some (newRecord S alias_ priv)), ?_⟩, fun a r har => ?_, fun a r har => ?_⟩
    · rw [Keychain.set, hvalid]
      exact hf.put (orders _ _) _
    · obtain ⟨rfl, rfl⟩ | har := hmem har
      · rfl
      · exact h.address a r har
    · obtain ⟨rfl, rfl⟩ | har := hmem har
      · rfl
      · exact h.priv a r har
  · rw [Bool.not_eq_true] at hvalid
    rw [Keychain.set, hvalid]
    exact h

theorem matches_ (h : kc.Sound S) (hinj : Function.Injective E.encodeAddress) : kc.Matches S := by
  intro k r hget
  have hmem := mem_of_get hget
  rw [h.priv _ r hmem]
  exact (hinj (h.address _ r hmem)).symm

end Sound

end Keychain

namespace Node

variable (E)

def getBalance (account type : Name) : NodeM UInt64 :=
  Prod.fst <$> DbPtr.genTrx.call (DbM.getBalance E account type)

def hasBalance (account type : Name) : NodeM Bool :=
  (fun b => b.2.isSome) <$> DbPtr.genTrx.call (DbM.getBalance E account type)

end Node

namespace FreeMarket

def gen : Name := "gen".toUTF8.toList

variable (S : PrivateKeys E Private) (kc : Keychain Private)

def paymentOf (amnt : UInt64) (shares from_ to_ : Name) : Transfer where
  amount := amnt
  stockName := shares
  fromName := from_
  toName := if to_ ≠ gen then to_ else []

variable (E) in
/-- The first test of `transfer`. -/
def unknownDestination (to_ : Name) : NodeM Bool :=
  if to_ ≠ gen ∧ !E.validateAddressFormat to_ then Option.isNone <$> Node.getKeyForName E to_
  else return false

variable (E) in
def transfer (amnt : UInt64) (shares from_ to_ : Name) : NodeM (List Command) := do
  if ← unknownDestination E to_ then return []
  else
    match ← Node.getKeyForName E shares with
    | none => return []
    | some _ =>
      match ← Node.getKeyForName E from_ with
      | none => return []
      | some fromPubKey =>
        let fromBal ← Node.getBalance E from_ shares
        if fromBal < amnt then return []
        else
          match kc.get E ⟨E.encodeAddress fromPubKey⟩ with
          | some _ => return [.transfer (paymentOf amnt shares from_ to_)]
          | none =>
            if E.validateAddressFormat from_ then
              match kc.get E ⟨from_⟩ with
              | none => return []
              | some ki =>
                return [.registerName from_ ki.pub, .transfer (paymentOf amnt shares from_ to_)]
            -- that there is no private key is told, and is no reason to return
            else return [.transfer (paymentOf amnt shares from_ to_)]

inductive Line (Private : Type)
  | start
  | abort
  | genkey (alias_ : Name) (priv : Private)
  | register (name : Name) (priv : Private)
  | issue (stockName : Name)
  | transfer (amnt : UInt64) (shares from_ to_ : Name)
  | commit (utcTime : UInt64)

/-- The keychain, the transaction that is being put together, and those that were given to the
node. -/
structure Client (Private : Type) where
  keychain : Keychain Private := {}
  trx : SignedTransaction := .blank
  submitted : List SignedTransaction := []

namespace Client

def register (name : Name) (priv : Private) (c : Client Private) : NodeM (Client Private) := do
  let ki := Keychain.newRecord S name priv
  let keychain := c.keychain.set E ⟨E.encodeAddress ki.pub⟩ ki
  let trx := c.trx.push [.registerName name ki.pub]
  match ← Node.getKeyForName E name with
  | some oldPublicKey =>
    match c.keychain.get E ⟨E.encodeAddress oldPublicKey⟩ with
    | some old => return { c with keychain, trx := trx.sign S old.priv }
    | none => return c
  | none => return { c with keychain, trx }

def line (c : Client Private) : Line Private → NodeM (Client Private)
  | .start | .abort => return { c with trx := .blank }
  | .genkey alias_ priv =>
    let ki := Keychain.newRecord S alias_ priv
    return { c with keychain := c.keychain.set E ⟨E.encodeAddress ki.pub⟩ ki }
  | .register name priv => c.register S name priv
  | .issue stockName => do
    if ← Node.hasBalance E stockName stockName then return c
    else return { c with trx := c.trx.push [.issue stockName] }
  | .transfer amnt shares from_ to_ => do
    let cs ← FreeMarket.transfer E c.keychain amnt shares from_ to_
    return { c with trx := c.trx.push cs }
  | .commit utcTime => do
    match ← sign S c.keychain { c.trx with trx := { c.trx.trx with utcTime } } with
    | some trx => return { c with trx := .blank, submitted := c.submitted ++ [trx] }
    | none => return { c with trx := .blank }

def run (c : Client Private) : List (Node × Line Private) → Client Private
  | [] => c
  | (n, l) :: ls =>
    match outcome (c.line S l n) with
    | .ok c' => run c' ls
    | .error _ => c

end Client

variable {S : PrivateKeys E Private} {c c' : Client Private} {n n' : Node} {l : Line Private}

inductive Stocks (S : PrivateKeys E Private) (kc : Keychain Private) : Keychain Private → Prop
  | same : Stocks S kc kc
  | more (alias_ : Name) (priv : Private) :
      Stocks S kc (kc.set E ⟨E.encodeAddress (S.publicKey priv)⟩
        (Keychain.newRecord S alias_ priv))

namespace Stocks

variable {kc kc' : Keychain Private}

theorem sound (h : Stocks S kc kc') (hkc : kc.Sound S) : kc'.Sound S := by
  cases h with
  | same => exact hkc
  | more alias_ priv => exact hkc.set alias_ priv

theorem kept (h : Stocks S kc kc') (hkc : kc.Sound S) {a : KeychainAddress}
    (ha : (kc.get E a).isSome) : (kc'.get E a).isSome := by
  cases h with
  | same => exact ha
  | more alias_ priv =>
    by_cases hvalid : E.validateAddressFormat (E.encodeAddress (S.publicKey priv)) = true
    · rw [hkc.get_set hvalid]
      split
      · rfl
      · exact ha
    · rw [Bool.not_eq_true] at hvalid
      rwa [Keychain.set, hvalid]

end Stocks

namespace Client

theorem of_register {name : Name} {priv : Private}
    (hok : c.register S name priv n = .ok c' n') : Stocks S c.keychain c'.keychain := by
  obtain ⟨old, n₁, -, hok⟩ := Lib.of_bind_ok hok
  cases old with
  | none =>
    cases hok
    exact .more name priv
  | some k =>
    cases hget : c.keychain.get E ⟨E.encodeAddress k⟩ with
    | none =>
      simp only [hget] at hok
      cases hok
      exact .same
    | some old =>
      simp only [hget] at hok
      cases hok
      exact .more name priv

theorem of_line (hok : c.line S l n = .ok c' n') : Stocks S c.keychain c'.keychain := by
  cases l with
  | start => cases hok; exact .same
  | abort => cases hok; exact .same
  | genkey alias_ priv => cases hok; exact .more alias_ priv
  | register name priv => exact of_register hok
  | issue stockName =>
    obtain ⟨b, n₁, -, hok⟩ := Lib.of_bind_ok hok
    split at hok
    · cases hok; exact .same
    · cases hok; exact .same
  | transfer amnt shares from_ to_ =>
    obtain ⟨cs, n₁, -, hok⟩ := Lib.of_bind_ok hok
    cases hok
    exact .same
  | commit utcTime =>
    obtain ⟨r, n₁, -, hok⟩ := Lib.of_bind_ok hok
    cases r with
    | none => cases hok; exact .same
    | some trx => cases hok; exact .same

theorem run_stocked (hkc : c.keychain.Sound S) (ls : List (Node × Line Private)) :
    (c.run S ls).keychain.Sound S ∧ ∀ a, (c.keychain.get E a).isSome →
      ((c.run S ls).keychain.get E a).isSome := by
  induction ls generalizing c with
  | nil => exact ⟨hkc, fun _ ha => ha⟩
  | cons l ls ih =>
    rw [run]
    cases hl : c.line S l.2 l.1 with
    | error e n' => exact ⟨hkc, fun _ ha => ha⟩
    | ok c' n' =>
      have hstocks := of_line hl
      obtain ⟨hsound, hkept⟩ := ih (hstocks.sound hkc)
      exact ⟨hsound, fun a ha => hkept a (hstocks.kept hkc ha)⟩

/-- Over a session every record stays under the address of its keys, which belong together, and no
private key is lost. -/
theorem run_keychain (hinj : Function.Injective E.encodeAddress) (hkc : c.keychain.Sound S)
    (ls : List (Node × Line Private)) :
    (c.run S ls).keychain.Sound S ∧ (c.run S ls).keychain.Matches S ∧
      ∀ k r, c.keychain.get E ⟨E.encodeAddress k⟩ = some r →
        ∃ r', (c.run S ls).keychain.get E ⟨E.encodeAddress k⟩ = some r' ∧
          S.publicKey r'.priv = S.publicKey r.priv := by
  obtain ⟨hsound, hkept⟩ := run_stocked hkc ls
  have hmatches := hsound.matches_ hinj
  refine ⟨hsound, hmatches, fun k r hr => ?_⟩
  obtain ⟨r', hr'⟩ := Option.isSome_iff_exists.mp (hkept ⟨E.encodeAddress k⟩
      (by rw [hr]; rfl))
  exact ⟨r', hr', (hmatches k r' hr').trans (hkc.matches_ hinj k r hr).symm⟩

def keyed : Client PublicKey where
  keychain := Keychain.set (Wire.externals nonceHash) {}
    ⟨(Wire.externals nonceHash).encodeAddress (wireKeys.publicKey 7)⟩
    (Keychain.newRecord wireKeys [1] 7)

theorem keyed_sound : keyed.keychain.Sound wireKeys := by
  unfold keyed
  exact Keychain.Sound.empty.set [1] 7

theorem get_keyed : (keyed.keychain.get (Wire.externals nonceHash)
    ⟨(Wire.externals nonceHash).encodeAddress 7⟩).map (fun r => r.priv) = some 7 := by
  decide +kernel

theorem run_keychain_passed : ∃ r', (keyed.run wireKeys [(namedNode, .start),
      (namedNode, .register [1] 9)]).keychain.get (Wire.externals nonceHash)
        ⟨(Wire.externals nonceHash).encodeAddress 7⟩ = some r' ∧
          wireKeys.publicKey r'.priv = 7 := by
  obtain ⟨r, hr, hpriv⟩ := Option.map_eq_some_iff.mp get_keyed
  obtain ⟨-, -, hkept⟩ := run_keychain address_injective keyed_sound
    [(namedNode, .start), (namedNode, .register [1] 9)]
  obtain ⟨r', hr', hsame⟩ := hkept 7 r hr
  exact ⟨r', hr', hsame.trans hpriv⟩

end Client

end FreeMarket

end Gpm
