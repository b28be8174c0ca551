import Gpm.BlockChain.Address
import Gpm.StateDb.Keys

namespace Gpm

namespace Record

theorem named_snd (r : Record) (p q : ℕ) :
    (r.named p).map Prod.snd = (r.named q).map Prod.snd := by
  cases r with
  | updateName i k l => cases i <;> rfl
  | _ => rfl

end Record

def recordedKeys (i : ℕ) (log : List StateRecord) : List PublicKey :=
  log.filterMap fun r => ((r.data.named r.previous).filter fun x => x.1 = i).map Prod.snd

def postedKeys (N : Name) (es : List Posting) : List PublicKey :=
  es.filterMap fun e => if e.name = some N then (e.record.named 0).map Prod.snd else none

def FirstIs (P : PublicKey) (keys : List PublicKey) : Prop :=
  ∀ k, keys.find? (· ≠ .empty) = some k → k = P

def Posting.Named (e : Posting) : Prop := ∀ p x, e.record.named p = some x → e.name.isSome

namespace Ledger

variable {E : Externals} {v : Ledger} {trx : SignedTransaction} {genName : Name} {trxPos : ℕ}
  {es : List Posting} {c : Command} {cs : List Command} {N : Name}

theorem named_transaction : ∀ e ∈ (transaction E trx genName v).2, e.Named := by
  apply forall_transaction (P := Posting.Named)
  · intro v n k
    simp [Posting.Named, setKey]
  · exact fun _ => by simp [Posting.Named]
  · exact fun _ => by simp [Posting.Named, Record.named]
  · simp [Posting.Named, startTrx, Record.named]

theorem key_posts (ha : v.AdmitsAll E es) :
    (v.posts E es).key N = (postedKeys N es).getLast?.or (v.key N) := by
  induction es generalizing v with
  | nil => rfl
  | cons e es ih =>
    rw [posts_cons, ih ha.2, key_post, postedKeys, postedKeys, List.filterMap_cons]
    split
    · rename_i he
      obtain ⟨i, k, hk, -⟩ := ha.1.name N he
      have hk' : (e.record.named 0).map Prod.snd = some k := by
        rw [e.record.named_snd 0 v.size, hk, Option.map_some]
      rw [hk', hk, List.getLast?_cons]
      simp [Option.or_some]
    · rfl

theorem index_post_of_named {e : Posting} (hn : e.Named) {x : ℕ × PublicKey}
    (hx : e.record.named v.size = some x) :
    ∃ n, e.name = some n ∧ (v.post E e).index n = some x.1 := by
  obtain ⟨n, hname⟩ := Option.isSome_iff_exists.mp (hn v.size x hx)
  exact ⟨n, hname, by rw [Ledger.index_post, if_pos hname, hx, Option.map_some]⟩

structure Legible (N : Name) (v : Ledger) (es : List Posting) (log : List StateRecord) : Prop where
  fresh : ∀ r ∈ log, ∀ x, r.data.named r.previous = some x → x.1 < v.size
  unknown : v.index N = none → postedKeys N es = []
  keys : ∀ i, v.index N = some i → recordedKeys i log = postedKeys N es

namespace Legible

variable {e : Posting} {log : List StateRecord}

theorem recordedKeys_size (h : Legible N v es log) : recordedKeys v.size log = [] := by
  apply List.filterMap_eq_nil_iff.mpr
  intro r hr
  cases hx : r.data.named r.previous with
  | none => rfl
  | some x => simp [Option.filter, (h.fresh r hr x hx).ne]

theorem recordedKeys_other (hcoh : (v.post E e).Coherent) (hn : e.Named) (hname : e.name ≠ some N)
    {i : ℕ} (hi : (v.post E e).index N = some i) :
    recordedKeys i [⟨e.record, v.size⟩] = [] := by
  apply List.filterMap_eq_nil_iff.mpr
  intro r hr
  rw [List.mem_singleton] at hr
  subst hr
  cases hx : e.record.named v.size with
  | none => rfl
  | some x =>
    obtain ⟨n, hn', hidx⟩ := index_post_of_named (E := E) hn hx
    have hne : x.1 ≠ i := by
      rintro rfl
      exact hname (hcoh.index_inj hidx hi ▸ hn')
    simp [Option.filter, hne]

theorem post (h : Legible N v es log) (hcoh : v.Coherent) (ha : v.Admits e) (hn : e.Named) :
    Legible N (v.post E e) (es ++ [e]) (log ++ [⟨e.record, v.size⟩]) where
  fresh r hr x hx := by
    cases List.mem_append.mp hr with
    | inl hr => exact Nat.lt_trans (h.fresh r hr x hx) size_post_lt
    | inr hr =>
      rw [List.mem_singleton] at hr
      subst hr
      obtain ⟨n, -, hidx⟩ := index_post_of_named (E := E) hn hx
      exact (hcoh.post ha).index_lt hidx
  unknown hN := by
    have hname : e.name ≠ some N := by
      intro hname
      obtain ⟨i, k, hik, -⟩ := ha.name N hname
      rw [index_post, if_pos hname, hik] at hN
      cases hN
    rw [index_post, if_neg hname] at hN
    rw [postedKeys, List.filterMap_append, ← postedKeys, h.unknown hN]
    simp [hname]
  keys i hi := by
    have hposted : postedKeys N (es ++ [e]) = postedKeys N es ++ postedKeys N [e] :=
      List.filterMap_append
    have hrecorded : recordedKeys i (log ++ [⟨e.record, v.size⟩]) =
        recordedKeys i log ++ recordedKeys i [⟨e.record, v.size⟩] := List.filterMap_append
    rw [hposted, hrecorded]
    by_cases hname : e.name = some N
    · obtain ⟨j, k, hik, hold⟩ := ha.name N hname
      rw [index_post, if_pos hname, hik] at hi
      cases hi
      have hk : (e.record.named 0).map Prod.snd = some k := by
        rw [e.record.named_snd 0 v.size, hik, Option.map_some]
      have hlast : recordedKeys j [⟨e.record, v.size⟩] = postedKeys N [e] := by
        simp [recordedKeys, postedKeys, hik, hname, hk]
      rw [hlast]
      cases hold with
      | inl hold => rw [h.keys j hold]
      | inr hold => rw [hold.2, h.recordedKeys_size, h.unknown hold.1]
    · rw [recordedKeys_other (hcoh.post ha) hn hname hi]
      rw [index_post, if_neg hname] at hi
      rw [h.keys i hi]
      simp [postedKeys, hname]

end Legible

theorem legible (ha : empty.AdmitsAll E es) (hn : ∀ e ∈ es, e.Named) (N : Name) :
    Legible N (empty.posts E es) es (postRecords E 0 es) := by
  induction es using List.reverseRecOn with
  | nil => exact ⟨by simp [postRecords], fun _ => rfl, by simp [empty, index]⟩
  | append_singleton es e ih =>
    obtain ⟨hes, he⟩ := of_admitsAll_append ha
    have hstep := (ih hes fun e' he' => hn e' (List.mem_append_left _ he')).post (E := E)
      (coherent_empty.posts hes) he.1 (hn e (List.mem_append_right _ List.mem_cons_self))
    rw [size_empty_posts] at hstep
    rw [posts_append, postRecords_append, Nat.zero_add]
    exact hstep

theorem of_mem_postedKeys (hc : command E trx genName trxPos v c = some es) {k : PublicKey}
    (hk : k ∈ postedKeys N es) (hne : k ≠ .empty) : c = .registerName N k := by
  obtain ⟨e, he, hek⟩ := List.mem_filterMap.mp hk
  obtain ⟨hname, hek⟩ := Option.ite_none_right_eq_some.mp hek
  cases c with
  | registerName n k' =>
    rw [of_registerName hc, List.mem_singleton] at he
    subst he
    cases hname
    unfold setKey at hek
    cases hi : v.index N <;> simp_all [Record.named]
  | issue s =>
    obtain ⟨k', -, -, -, rfl⟩ := of_issueStock hc
    rw [List.mem_singleton] at he
    subst he
    cases hname
  | transfer tr =>
    obtain ⟨k', k'', fs, -, -, -, -, -, hd, rfl⟩ := of_transferStock hc
    rw [List.mem_append, List.mem_singleton] at he
    cases he with
    | inl he =>
      obtain ⟨-, rfl⟩ | ⟨-, rfl⟩ := of_destination hd
      · cases he
      · rw [List.mem_singleton] at he
        subst he
        exact absurd (Option.some.inj hek).symm hne
    | inr he =>
      subst he
      cases hname
  | other => cases hc

section Owned

variable {P : PublicKey} {keys : List PublicKey}
  (hinj : Function.Injective E.encodeAddress)
  (hempty : ∀ h s, E.keyVerify .empty h s = false)

include hinj hempty

theorem firstIs_command (hc : command E trx genName trxPos v c = some es)
    (hkey : v.key (E.encodeAddress P) = keys.getLast?) (hfirst : FirstIs P keys)
    (hcond : ∀ Q, c = .registerName (E.encodeAddress P) Q → Q ≠ P → Q ≠ .empty →
      (v.key (E.encodeAddress P)).isSome) :
    FirstIs P (keys ++ postedKeys (E.encodeAddress P) es) := by
  intro k hk
  rw [List.find?_append] at hk
  cases hold : keys.find? (· ≠ .empty) with
  | some k' =>
    rw [hold, Option.some_or, Option.some_inj] at hk
    exact hk ▸ hfirst k' hold
  | none =>
    rw [hold, Option.none_or] at hk
    have hne : k ≠ .empty := by simpa using List.find?_some hk
    obtain rfl := of_mem_postedKeys hc (List.mem_of_find?_eq_some hk) hne
    by_contra hkP
    have hsome := hcond k rfl hkP hne
    obtain ⟨key, hkey'⟩ := Option.isSome_iff_exists.mp hsome
    have hlast := hkey.symm.trans hkey'
    have hkeyempty : key = .empty := by
      have hall := List.find?_eq_none.mp hold key (List.mem_of_getLast? hlast)
      simpa using hall
    have hverify : trx.verify E key = false := by
      rw [hkeyempty, SignedTransaction.verify, List.any_eq_false]
      intro s _
      simp [hempty]
    have haddr : E.encodeAddress P ≠ E.encodeAddress k := fun he => hkP (hinj he).symm
    simp [command, registerName, haddr, hkey', hverify] at hc

theorem firstIs_commands (hcoh : v.Coherent)
    (hkey : v.key (E.encodeAddress P) = keys.getLast?) (hfirst : FirstIs P keys)
    (hcond : ∀ pre Q post, cs = pre ++ .registerName (E.encodeAddress P) Q :: post → Q ≠ P →
      Q ≠ .empty → (v.key (E.encodeAddress P)).isSome ∨
        ∃ c ∈ pre, (c.keyAfter genName (E.encodeAddress P) none).isSome) :
    FirstIs P (keys ++
      postedKeys (E.encodeAddress P) (commands E trx genName trxPos v cs).2) := by
  induction cs generalizing v keys with
  | nil => simpa [commands, postedKeys] using hfirst
  | cons c cs ih =>
    unfold commands
    cases hc : command E trx genName trxPos v c with
    | none => simpa [postedKeys] using hfirst
    | some es =>
      have hadmits := admitsAll_command hcoh hc
      have hposted : postedKeys (E.encodeAddress P)
          (es ++ (commands E trx genName trxPos (v.posts E es) cs).2) =
          postedKeys (E.encodeAddress P) es ++ postedKeys (E.encodeAddress P)
            (commands E trx genName trxPos (v.posts E es) cs).2 := List.filterMap_append
      simp only [hposted]
      rw [← List.append_assoc]
      apply ih (hcoh.posts hadmits)
      · rw [key_posts hadmits, hkey, List.getLast?_append]
      · apply firstIs_command hinj hempty hc hkey hfirst
        rintro Q rfl hQP hQ
        obtain hsome | ⟨c, hmem, -⟩ := hcond [] Q cs rfl hQP hQ
        · exact hsome
        · cases hmem
      · rintro pre Q post rfl hQP hQ
        have hlater := key_command hc (E.encodeAddress P)
        obtain hsome | ⟨c', hmem, hafter⟩ := hcond (c :: pre) Q post rfl hQP hQ
        · obtain ⟨K, hK⟩ := Option.isSome_iff_exists.mp hsome
          exact Or.inl (by rw [key_command_of_key hc hK]; rfl)
        · cases List.mem_cons.mp hmem with
          | inl he =>
            subst he
            refine Or.inl ?_
            cases hK : v.key (E.encodeAddress P) with
            | none => rwa [hlater, hK]
            | some K => rw [key_command_of_key hc hK]; rfl
          | inr he => exact Or.inr ⟨c', he, hafter⟩

end Owned

end Ledger

def RespectsAddresses (E : Externals) (db : Database) (trx : SignedTransaction)
    (genName : Name) : Prop :=
  ∀ P Q pre post, trx.trx.commands = pre ++ .registerName (E.encodeAddress P) Q :: post →
    Q ≠ P → Q ≠ .empty →
      Lib.returned (DbM.getPublicKey E (E.encodeAddress P) db) ≠ some none ∨
        ∃ c ∈ pre, (c.keyAfter genName (E.encodeAddress P) none).isSome

variable {E : Externals} {db : Database}

section Owned

variable (hinj : Function.Injective E.encodeAddress)
  (hempty : ∀ h s, E.keyVerify .empty h s = false)

include hinj hempty

theorem RespectsAddresses.firstIs {trx : SignedTransaction} {genName : Name} {es : List Posting}
    {P : PublicKey} (h : RespectsAddresses E db trx genName) (hdb : WellFormed E db)
    (hlogs : db.Logs E es) (hfirst : FirstIs P (postedKeys (E.encodeAddress P) es)) :
    FirstIs P (postedKeys (E.encodeAddress P)
      (es ++ (Ledger.transaction E trx genName (db.ledger E)).2)) := by
  have hkey : (db.ledger E).key (E.encodeAddress P) =
      (postedKeys (E.encodeAddress P) es).getLast? := by
    rw [hlogs.ledger, Ledger.key_posts hlogs.admits]
    simp [Ledger.key, Ledger.empty]
  have hposted : postedKeys (E.encodeAddress P)
      (es ++ (Ledger.transaction E trx genName (db.ledger E)).2) =
      postedKeys (E.encodeAddress P) es ++ postedKeys (E.encodeAddress P)
        (Ledger.commands E trx genName (db.ledger E).size
          ((db.ledger E).post E (Ledger.startTrx E trx)) trx.trx.commands).2 := by
    rw [postedKeys, List.filterMap_append]
    rfl
  have hstart := Ledger.key_post_of_name_none (E := E) (v := db.ledger E)
    (e := Ledger.startTrx E trx) rfl (E.encodeAddress P)
  rw [hposted]
  apply Ledger.firstIs_commands hinj hempty (hdb.coherent.post Ledger.admits_startTrx)
    (hstart.trans hkey) hfirst
  intro pre Q post hcs hQP hQ
  refine (h P Q pre post hcs hQP hQ).imp_left fun hne => ?_
  rw [hdb.getPublicKey_eq, ne_eq, Option.some_inj, ← ne_eq, Option.ne_none_iff_isSome] at hne
  rwa [hstart]

/-- An address comes to its key first. -/
theorem address_owned (hr : db.ReachableBy E (RespectsAddresses E)) {P : PublicKey} {i : ℕ}
    (hi : Lib.returned (DbM.getNameIndex E (E.encodeAddress P) db) = some (some i)) :
    FirstIs P (recordedKeys i (db.log E)) := by
  obtain ⟨es, hlogs, hnamed, hfirst⟩ := hr.logs
    (fun es => (∀ e ∈ es, e.Named) ∧
      FirstIs P (postedKeys (E.encodeAddress P) es))
    ⟨by simp, by simp [FirstIs, postedKeys]⟩
    (by
      rintro db es trx genName hdb hlogs ⟨hnamed, hfirst⟩ hallow
      refine ⟨fun e he => ?_, hallow.firstIs hinj hempty hdb hlogs hfirst⟩
      cases List.mem_append.mp he with
      | inl he => exact hnamed e he
      | inr he => exact Ledger.named_transaction e he)
  have hdb := hr.reachable.wellFormed
  rw [hdb.getNameIndex_eq, Option.some_inj, hlogs.ledger] at hi
  rwa [hlogs.log, (Ledger.legible hlogs.admits hnamed _).keys i hi]

end Owned

def squat : SignedTransaction where
  trx := { utcTime := 0, commands := [.registerName (Wire.address 7) 8] }
  sigs := []

def squatted : Database :=
  Lib.finalState (DbM.apply (Wire.externals fun _ => 0) squat [] (.trx (.file {}) {}))

theorem address_squatted :
    ¬ ∀ (db : Database) (P : PublicKey) (i : ℕ),
      Database.Reachable (Wire.externals fun _ => 0) db →
      Lib.returned (DbM.getNameIndex (Wire.externals fun _ => 0) (Wire.address P) db) =
        some (some i) → FirstIs P (recordedKeys i (db.log (Wire.externals fun _ => 0))) := by
  intro h
  have hreach : Database.Reachable (Wire.externals fun _ => 0) squatted :=
    .apply (.blank Database.blank_fresh) (Lib.eq_ok_of_returned (a := true) (by decide +kernel))
  have hkey := h squatted 7 33 hreach (by decide +kernel) 8 (by decide +kernel)
  revert hkey
  decide +kernel

def sealedExternals : Externals :=
  { Wire.externals fun _ => 0 with keyVerify := fun k _ s => k ≠ .empty && s = k }

def claimAddress : SignedTransaction where
  trx := { utcTime := 0, commands := [.registerName (Wire.address 7) 7] }
  sigs := []

def claimed : Database :=
  Lib.finalState (DbM.apply sealedExternals claimAddress [] (.trx (.file {}) {}))

theorem address_injective : Function.Injective Wire.address := by
  intro k k' h
  exact Wire.publicKey.pack_injective (List.cons.inj h).2

theorem address_owned_claimed :
    FirstIs 7 (recordedKeys 33 (claimed.log sealedExternals)) := by
  have hallow : RespectsAddresses sealedExternals (.trx (.file {}) {}) claimAddress [] := by
    rintro P Q pre post hcs hQP -
    cases pre with
    | nil =>
      obtain ⟨haddr, rfl⟩ := Command.registerName.inj (List.cons.inj hcs).1
      exact absurd (address_injective haddr) hQP
    | cons c pre => simp [claimAddress] at hcs
  have hok : DbM.apply sealedExternals claimAddress [] (.trx (.file {}) {}) = .ok true claimed :=
    Lib.eq_ok_of_returned (by decide +kernel)
  exact address_owned (E := sealedExternals) address_injective
    (fun h s => by simp [sealedExternals])
    (.apply (.blank Database.blank_fresh) hallow hok) (by decide +kernel)

section Destinations

variable {E : Externals} {L : AddressLibrary} {db db' : Database}

theorem defineDestination_undefined {to_ : Name}
    (hnone : DbM.getNameIndex E to_ db = .ok none db') :
    Lib.returned (DbM.defineDestination E to_ db) = some (E.validateAddressFormat to_) := by
  rw [DbM.defineDestination, Lib.bind_ok hnone]
  cases hvalid : E.validateAddressFormat to_ with
  | false => rfl
  | true => rfl

theorem claimable_of_defineDestination {d : List UInt8}
    (hE : E.validateAddressFormat = L.validateAddressFormat) (hshort : ¬ L.Overlong d)
    (hnone : DbM.getNameIndex E (L.base64Encode d) db = .ok none db')
    (hdefined : Lib.returned (DbM.defineDestination E (L.base64Encode d) db) = some true) :
    ∃ hc, L.encodeHash hc = L.base64Encode d := by
  rw [defineDestination_undefined hnone, hE, Option.some.injEq] at hdefined
  exact AddressLibrary.claimable hshort hdefined

end Destinations

end Gpm
