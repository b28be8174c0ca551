import Mathlib.Data.Finset.Option
import Mathlib.Data.Finset.Lattice.Basic
import Gpm.StateDb.Record

namespace Gpm

structure Posting where
  record : Record
  name : Option Name := none
  deriving DecidableEq

namespace Record

def named (i : ℕ) : Record → Option (ℕ × PublicKey)
  | .defineName _ key => some (i, key)
  | .updateName (some j) key _ => some (j, key)
  | _ => none

def accounts : Record → List AccountKey
  | .transferLog tl => [⟨tl.fromName, tl.typeName⟩, ⟨tl.toName, tl.typeName⟩]
  | _ => []

def balanceOf (a : AccountKey) : Record → Option UInt64
  | .transferLog tl =>
    if tl.typeName ≠ a.typeName then none
    else if tl.fromName = a.accountName then some tl.newFromBal
    else if tl.toName = a.accountName then some tl.newToBal
    else none
  | _ => none

theorem balanceOf_isSome {a : AccountKey} {r : Record} (h : a ∈ r.accounts) :
    (r.balanceOf a).isSome := by
  cases r with
  | transferLog tl =>
    simp only [accounts, List.mem_cons, List.not_mem_nil, or_false] at h
    cases h with
    | inl h => simp [balanceOf, h]
    | inr h =>
      simp only [balanceOf, h, ne_eq, not_true, if_false]
      split
      · rfl
      · simp
  | _ => simp [accounts] at h

end Record

structure Ledger where
  size : ℕ
  names : Finset Name
  edit : Name → Index
  name : Name → Option (ℕ × PublicKey)
  account : AccountKey → Option (UInt64 × ℕ)

namespace Ledger

def index (v : Ledger) (n : Name) : Index := (v.name n).map Prod.fst

def key (v : Ledger) (n : Name) : Option PublicKey := (v.name n).map Prod.snd

def balance (v : Ledger) (account type : Name) : UInt64 × Index :=
  match v.account ⟨v.index account, v.index type⟩ with
  | none => (0, none)
  | some (b, i) => (b, some i)

variable (E : Externals)

def post (v : Ledger) (e : Posting) : Ledger where
  size := v.size + (E.raw.pack ⟨e.record, v.size⟩).length
  names := v.names ∪ e.name.toFinset
  edit n := if e.name = some n then some v.size else v.edit n
  name n := if e.name = some n then e.record.named v.size else v.name n
  account a :=
    if a ∈ e.record.accounts then (e.record.balanceOf a).map fun b => (b, v.size)
    else v.account a

def posts (v : Ledger) (es : List Posting) : Ledger := es.foldl (post E) v

section Commands

variable (trx : SignedTransaction) (genName : Name) (trxPos : ℕ) (v : Ledger)

def setKey (name : Name) (pk : PublicKey) : Posting where
  record :=
    match v.index name with
    | none => .defineName name pk
    | some i => .updateName (some i) pk (v.edit name)
  name := some name

def transferRecord (from_ to_ type : Name) (amnt : UInt64) (trxPos : Index) : Record :=
  .transferLog
    { amount := amnt
      typeName := v.index type
      fromName := v.index from_
      toName := v.index to_
      newFromBal := (v.balance from_ type).1 - amnt
      newToBal := (v.balance to_ type).1 + amnt
      lastFromTrx := (v.balance from_ type).2
      lastToTrx := (v.balance to_ type).2
      trxIdx := trxPos }

def issueRecord (type : Name) (trxPos : Index) : Record :=
  .transferLog
    { amount := -1
      typeName := v.index type
      fromName := v.index type
      toName := v.index type
      newFromBal := -1
      newToBal := -1
      lastFromTrx := (v.balance type type).2
      lastToTrx := none
      trxIdx := trxPos }

def registerName (name : Name) (pubKey : PublicKey) : Option (List Posting) :=
  if name = E.encodeAddress pubKey then some [v.setKey name pubKey]
  else
    match v.key name with
    | some key => if trx.verify E key then some [v.setKey name pubKey] else none
    | none => some [v.setKey name pubKey]

def issueStock (stockName : Name) : Option (List Posting) :=
  match v.key stockName with
  | none => none
  | some typeKey =>
    if (v.balance stockName stockName).2.isSome ∨ !trx.verify E typeKey then none
    else some [⟨v.issueRecord stockName (some trxPos), none⟩]

def destination (to_ : Name) : Option (List Posting) :=
  match v.index to_ with
  | some _ => some []
  | none =>
    if E.validateAddressFormat to_ then some [⟨.defineName to_ .empty, some to_⟩] else none

def recipient (genName : Name) (tr : Transfer) : Name :=
  if tr.toName = [] then genName else tr.toName

def transferStock (tr : Transfer) : Option (List Posting) :=
  if tr.toName ≠ [] ∧ tr.fromName = tr.toName then none
  else
    match v.key tr.fromName, v.key tr.stockName with
    | some fromKey, some _ =>
      if !trx.verify E fromKey ∨ (v.balance tr.fromName tr.stockName).1 < tr.amount then none
      else
        (destination E v (recipient genName tr)).map fun es =>
          es ++ [⟨(v.posts E es).transferRecord tr.fromName (recipient genName tr) tr.stockName
            tr.amount (some trxPos), none⟩]
    | _, _ => none

def command : Command → Option (List Posting)
  | .registerName name pubKey => registerName E trx v name pubKey
  | .issue stockName => issueStock E trx trxPos v stockName
  | .transfer tr => transferStock E trx genName trxPos v tr
  | .other _ => none

def commands : Ledger → List Command → Bool × List Posting
  | _, [] => (true, [])
  | v, c :: cs =>
    match command E trx genName trxPos v c with
    | none => (false, [])
    | some es => ((commands (v.posts E es) cs).1, es ++ (commands (v.posts E es) cs).2)

def startTrx : Posting where
  record := .startTrx (E.hashTrx trx.trx) trx.trx.utcTime

def transaction : Bool × List Posting :=
  let r := commands E trx genName v.size (v.post E (startTrx E trx)) trx.trx.commands
  (r.1, startTrx E trx :: r.2)

end Commands

structure Apart (v : Ledger) : Prop where
  mem_names : ∀ n, n ∈ v.names ↔ (v.index n).isSome
  edit_isSome : ∀ n, (v.edit n).isSome ↔ (v.index n).isSome
  index_inj : ∀ {m n i}, v.index m = some i → v.index n = some i → m = n
  index_lt : ∀ {n i}, v.index n = some i → i < v.size

structure Coherent (v : Ledger) : Prop extends Apart v where
  account_lt : ∀ {a}, (v.account a).isSome →
    ∃ i j, a = ⟨some i, some j⟩ ∧ i < v.size ∧ j < v.size

structure AdmitsName (v : Ledger) (e : Posting) : Prop where
  name : ∀ n, e.name = some n → ∃ i k, e.record.named v.size = some (i, k) ∧
    (v.index n = some i ∨ v.index n = none ∧ i = v.size)

structure Admits (v : Ledger) (e : Posting) : Prop extends AdmitsName v e where
  account : ∀ a ∈ e.record.accounts, ∃ i j, a = ⟨some i, some j⟩ ∧
    i < v.size ∧ j < v.size

def AdmitsAll (v : Ledger) : List Posting → Prop
  | [] => True
  | e :: es => v.Admits e ∧ (v.post E e).AdmitsAll es

def empty : Ledger where
  size := 0
  names := ∅
  edit _ := none
  name _ := none
  account _ := none

theorem coherent_empty : empty.Coherent where
  mem_names := by simp [empty, index]
  edit_isSome := by simp [empty, index]
  index_inj := by simp [empty, index]
  index_lt := by simp [empty, index]
  account_lt := by simp [empty]

section Posts

variable {E} {v : Ledger} {e : Posting} {es fs : List Posting}

@[simp] theorem posts_nil : v.posts E [] = v := rfl

@[simp] theorem posts_cons : v.posts E (e :: es) = (v.post E e).posts E es := rfl

@[simp] theorem posts_append : v.posts E (es ++ fs) = (v.posts E es).posts E fs :=
  List.foldl_append

theorem admitsAll_append (h : v.AdmitsAll E es) (h' : (v.posts E es).AdmitsAll E fs) :
    v.AdmitsAll E (es ++ fs) := by
  induction es generalizing v with
  | nil => exact h'
  | cons e es ih => exact ⟨h.1, ih h.2 h'⟩

theorem size_post_lt : v.size < (v.post E e).size :=
  Nat.lt_add_of_pos_right (List.length_pos_iff.mpr (E.pack_ne_nil _))

theorem index_post (n : Name) :
    (v.post E e).index n =
      if e.name = some n then (e.record.named v.size).map Prod.fst else v.index n := by
  simp only [index, post]
  split <;> rfl

theorem index_post_of_name_none (h : e.name = none) (n : Name) :
    (v.post E e).index n = v.index n := by
  simp [index_post, h]

theorem key_post_of_name_none (h : e.name = none) (n : Name) :
    (v.post E e).key n = v.key n := by
  simp [key, post, h]

theorem AdmitsName.index_post (ha : v.AdmitsName e) {n : Name} {i : ℕ} (h : v.index n = some i) :
    (v.post E e).index n = some i := by
  rw [Ledger.index_post]
  split
  · rename_i he
    obtain ⟨j, k, hj, hi⟩ := ha.name n he
    cases hi with
    | inl hi =>
      rw [hj, Option.map_some, ← h, hi]
    | inr hi =>
      rw [hi.1] at h
      cases h
  · exact h

theorem AdmitsName.index_post_cases (ha : v.AdmitsName e) (n : Name) :
    (v.post E e).index n = v.index n ∨ v.index n = none ∧ (v.post E e).index n =
      some v.size := by
  rw [Ledger.index_post]
  split
  · rename_i he
    obtain ⟨i, k, hi, hold⟩ := ha.name n he
    rw [hi, Option.map_some]
    cases hold with
    | inl hold => exact Or.inl hold.symm
    | inr hold => exact Or.inr ⟨hold.1, congrArg some hold.2⟩
  · exact Or.inl rfl

theorem Coherent.account_eq_none (h : v.Coherent) {a : AccountKey}
    (ha : ∀ i j, a = ⟨some i, some j⟩ → ¬ (i < v.size ∧ j < v.size)) :
    v.account a = none := by
  apply Option.not_isSome_iff_eq_none.mp
  intro hs
  obtain ⟨i, j, rfl, hlt⟩ := h.account_lt hs
  exact ha i j rfl hlt

theorem balance_post_of_accounts_nil (h : v.Coherent) (ha : v.Admits e)
    (hacc : e.record.accounts = []) (A S : Name) :
    (v.post E e).balance A S = v.balance A S := by
  have haccount : ∀ a, (v.post E e).account a = v.account a := by
    intro a
    simp [Ledger.post, hacc]
  have hnone : ∀ i, v.account ⟨none, i⟩ = none ∧ v.account ⟨i, none⟩ = none ∧
      v.account ⟨some v.size, i⟩ = none ∧ v.account ⟨i, some v.size⟩ = none := by
    intro i
    refine ⟨?_, ?_, ?_, ?_⟩ <;>
    · apply h.account_eq_none
      intro j k hjk hlt
      grind
  simp only [balance, haccount]
  cases ha.index_post_cases (E := E) A with
  | inr hA => rw [hA.1, hA.2, (hnone _).1, (hnone _).2.2.1]
  | inl hA =>
    cases ha.index_post_cases (E := E) S with
    | inr hS => rw [hA, hS.1, hS.2, (hnone _).2.1, (hnone _).2.2.2]
    | inl hS => rw [hA, hS]

theorem Apart.post (h : v.Apart) (ha : v.AdmitsName e) : (v.post E e).Apart where
  mem_names n := by
    rw [index_post]
    simp only [Ledger.post, Finset.mem_union, Option.mem_toFinset, Option.mem_def]
    split
    · rename_i he
      obtain ⟨i, k, hi, -⟩ := ha.name n he
      simp [he, hi]
    · rename_i he
      simp [he, h.mem_names]
  edit_isSome n := by
    rw [index_post]
    simp only [Ledger.post]
    split
    · rename_i he
      obtain ⟨i, k, hi, -⟩ := ha.name n he
      simp [hi]
    · exact h.edit_isSome n
  index_inj := by
    intro m n i hm hn
    have key : ∀ {m i}, (v.post E e).index m = some i →
        v.index m = some i ∨ e.name = some m ∧ i = v.size := by
      intro m i hm
      rw [index_post] at hm
      split at hm
      · rename_i he
        obtain ⟨j, k, hj, hi⟩ := ha.name m he
        rw [hj] at hm
        cases hm
        cases hi with
        | inl hi => exact Or.inl hi
        | inr hi => exact Or.inr ⟨he, hi.2⟩
      · exact Or.inl hm
    cases key hm with
    | inl hm =>
      cases key hn with
      | inl hn => exact h.index_inj hm hn
      | inr hn => exact absurd (h.index_lt hm) (hn.2 ▸ Nat.lt_irrefl _)
    | inr hm =>
      cases key hn with
      | inl hn => exact absurd (h.index_lt hn) (hm.2 ▸ Nat.lt_irrefl _)
      | inr hn => exact Option.some.inj (hm.1.symm.trans hn.1)
  index_lt := by
    intro n i hn
    apply Nat.lt_of_le_of_lt _ (size_post_lt (E := E) (v := v) (e := e))
    rw [index_post] at hn
    split at hn
    · rename_i he
      obtain ⟨j, k, hj, hi⟩ := ha.name n he
      rw [hj] at hn
      cases hn
      cases hi with
      | inl hi => exact Nat.le_of_lt (h.index_lt hi)
      | inr hi => exact Nat.le_of_eq hi.2
    · exact Nat.le_of_lt (h.index_lt hn)

theorem Coherent.post (h : v.Coherent) (ha : v.Admits e) : (v.post E e).Coherent where
  toApart := h.toApart.post ha.toAdmitsName
  account_lt := by
    intro a hacc
    have hlt := size_post_lt (E := E) (v := v) (e := e)
    have hold : ∃ i j, a = ⟨some i, some j⟩ ∧ i < v.size ∧ j < v.size := by
      simp only [Ledger.post] at hacc
      split at hacc
      · rename_i hmem
        exact ha.account a hmem
      · exact h.account_lt hacc
    obtain ⟨i, j, rfl, hi, hj⟩ := hold
    exact ⟨i, j, rfl, Nat.lt_trans hi hlt, Nat.lt_trans hj hlt⟩

theorem Coherent.posts (h : v.Coherent) (ha : v.AdmitsAll E es) : (v.posts E es).Coherent := by
  induction es generalizing v with
  | nil => exact h
  | cons e es ih => exact ih (h.post ha.1) ha.2

end Posts

section Admitted

variable {E} {v : Ledger} {trx : SignedTransaction} {genName : Name} {trxPos : ℕ}

theorem index_of_key {n : Name} {k : PublicKey} (h : v.key n = some k) :
    ∃ i, v.index n = some i := by
  obtain ⟨x, hx, rfl⟩ := Option.map_eq_some_iff.mp h
  exact ⟨x.1, by rw [index, hx, Option.map_some]⟩

theorem admits_startTrx : v.Admits (startTrx E trx) where
  name := by simp [startTrx]
  account := by simp [startTrx, Record.accounts]

theorem admits_define {n : Name} (k : PublicKey) (h : v.index n = none) :
    v.Admits ⟨.defineName n k, some n⟩ where
  name := by
    rintro m ⟨⟩
    exact ⟨v.size, k, rfl, Or.inr ⟨h, rfl⟩⟩
  account := by simp [Record.accounts]

theorem admits_setKey (n : Name) (k : PublicKey) : v.Admits (v.setKey n k) := by
  unfold setKey
  cases hi : v.index n with
  | none => exact admits_define k hi
  | some i =>
    refine ⟨⟨?_⟩, ?_⟩
    · rintro m ⟨⟩
      exact ⟨i, k, rfl, Or.inl hi⟩
    · simp [Record.accounts]

theorem admits_transferLog {tl : TransferLog} {i j k : ℕ} (hi : tl.fromName = some i)
    (hj : tl.toName = some j) (hk : tl.typeName = some k) (hi' : i < v.size) (hj' : j < v.size)
    (hk' : k < v.size) : v.Admits ⟨.transferLog tl, none⟩ where
  name := by simp
  account := by
    intro a ha
    simp only [Record.accounts, hi, hj, hk, List.mem_cons, List.not_mem_nil, or_false] at ha
    cases ha with
    | inl ha => exact ⟨i, k, ha, hi', hk'⟩
    | inr ha => exact ⟨j, k, ha, hj', hk'⟩

theorem of_destination {n : Name} {es : List Posting} (hd : destination E v n = some es) :
    (∃ i, v.index n = some i) ∧ es = [] ∨
      v.index n = none ∧ es = [⟨.defineName n .empty, some n⟩] := by
  unfold destination at hd
  cases hi : v.index n with
  | some i =>
    simp only [hi, Option.some.injEq] at hd
    exact Or.inl ⟨⟨i, rfl⟩, hd.symm⟩
  | none =>
    simp only [hi, Option.ite_none_right_eq_some, Option.some.injEq] at hd
    exact Or.inr ⟨rfl, hd.2.symm⟩

theorem admitsAll_destination {n : Name} {es : List Posting}
    (hd : destination E v n = some es) : v.AdmitsAll E es := by
  obtain ⟨-, rfl⟩ | ⟨hi, rfl⟩ := of_destination hd
  · trivial
  · exact ⟨admits_define _ hi, trivial⟩

theorem index_destination {n : Name} {es : List Posting} (hd : destination E v n = some es) :
    (∃ i, (v.posts E es).index n = some i) ∧
      ∀ m i, v.index m = some i → (v.posts E es).index m = some i := by
  obtain ⟨hi, rfl⟩ | ⟨hi, rfl⟩ := of_destination hd
  · exact ⟨hi, fun m j hm => hm⟩
  · refine ⟨⟨v.size, ?_⟩, fun m j hm => (admits_define _ hi).index_post hm⟩
    simp [index_post, Record.named]

theorem balance_destination (h : v.Coherent) {n : Name} {es : List Posting}
    (hd : destination E v n = some es) (A S : Name) :
    (v.posts E es).balance A S = v.balance A S := by
  obtain ⟨-, rfl⟩ | ⟨hi, rfl⟩ := of_destination hd
  · rfl
  · exact balance_post_of_accounts_nil h (admits_define _ hi) rfl A S

theorem of_registerName {n : Name} {k : PublicKey} {es : List Posting}
    (hc : registerName E trx v n k = some es) : es = [v.setKey n k] := by
  unfold registerName at hc
  split at hc
  · exact (Option.some.inj hc).symm
  · split at hc
    · split at hc
      · exact (Option.some.inj hc).symm
      · cases hc
    · exact (Option.some.inj hc).symm

theorem of_issueStock {s : Name} {es : List Posting}
    (hc : issueStock E trx trxPos v s = some es) :
    ∃ k, v.key s = some k ∧ (v.balance s s).2 = none ∧ trx.verify E k ∧
      es = [⟨v.issueRecord s (some trxPos), none⟩] := by
  unfold issueStock at hc
  cases hk : v.key s with
  | none => simp [hk] at hc
  | some k =>
    simp only [hk, Option.ite_none_left_eq_some, Option.some.injEq, not_or, Bool.not_eq_true,
      Option.isSome_eq_false_iff, Option.isNone_iff_eq_none, Bool.not_eq_false'] at hc
    exact ⟨k, rfl, hc.1.1, hc.1.2, hc.2.symm⟩

theorem of_transferStock {tr : Transfer} {es : List Posting}
    (hc : transferStock E trx genName trxPos v tr = some es) :
    ∃ k k' fs, v.key tr.fromName = some k ∧ v.key tr.stockName = some k' ∧
      ¬ (tr.toName ≠ [] ∧ tr.fromName = tr.toName) ∧ trx.verify E k ∧
      ¬ (v.balance tr.fromName tr.stockName).1 < tr.amount ∧
      destination E v (recipient genName tr) = some fs ∧
      es = fs ++ [⟨(v.posts E fs).transferRecord tr.fromName (recipient genName tr) tr.stockName
        tr.amount (some trxPos), none⟩] := by
  unfold transferStock at hc
  split at hc
  · cases hc
  · rename_i hne
    cases hf : v.key tr.fromName with
    | none => simp [hf] at hc
    | some k =>
      cases hs : v.key tr.stockName with
      | none => simp [hf, hs] at hc
      | some k' =>
        simp only [hf, hs, Option.ite_none_left_eq_some, not_or, Bool.not_eq_true,
          Bool.not_eq_false'] at hc
        obtain ⟨⟨hv, hb⟩, hes⟩ := hc
        obtain ⟨fs, hd, rfl⟩ := Option.map_eq_some_iff.mp hes
        exact ⟨k, k', fs, rfl, rfl, hne, hv, hb, hd, rfl⟩

theorem admitsAll_command (h : v.Coherent) {c : Command} {es : List Posting}
    (hc : command E trx genName trxPos v c = some es) : v.AdmitsAll E es := by
  cases c with
  | registerName n k =>
    rw [of_registerName hc]
    exact ⟨admits_setKey n k, trivial⟩
  | issue s =>
    obtain ⟨k, hk, -, -, rfl⟩ := of_issueStock hc
    obtain ⟨i, hi⟩ := index_of_key hk
    have hlt := h.index_lt hi
    exact ⟨admits_transferLog hi hi hi hlt hlt hlt, trivial⟩
  | transfer tr =>
    obtain ⟨k, k', fs, hf, hs, -, -, -, hd, rfl⟩ := of_transferStock hc
    obtain ⟨⟨j, hj⟩, hold⟩ := index_destination hd
    obtain ⟨i, hi⟩ := index_of_key hf
    obtain ⟨t, ht⟩ := index_of_key hs
    have hcoh := h.posts (admitsAll_destination hd)
    have hi' := hold _ i hi
    have ht' := hold _ t ht
    exact admitsAll_append (admitsAll_destination hd)
      ⟨admits_transferLog hi' hj ht' (hcoh.index_lt hi') (hcoh.index_lt hj)
        (hcoh.index_lt ht'), trivial⟩
  | other => cases hc

theorem admitsAll_commands (h : v.Coherent) (cs : List Command) :
    v.AdmitsAll E (commands E trx genName trxPos v cs).2 := by
  induction cs generalizing v with
  | nil => trivial
  | cons c cs ih =>
    unfold commands
    cases hc : command E trx genName trxPos v c with
    | none => trivial
    | some es =>
      have hes := admitsAll_command h hc
      exact admitsAll_append hes (ih (h.posts hes))

theorem admitsAll_transaction (h : v.Coherent) :
    v.AdmitsAll E (transaction E trx genName v).2 :=
  ⟨admits_startTrx, admitsAll_commands (h.post admits_startTrx) _⟩

end Admitted

section Kinds

variable {E : Externals} {trx : SignedTransaction} {genName : Name} {trxPos : ℕ}
    {P : Posting → Prop}
  (hkey : ∀ (v : Ledger) n k, P (v.setKey n k))
  (hdefine : ∀ n, P ⟨.defineName n .empty, some n⟩)
  (htransfer : ∀ tl, P ⟨.transferLog tl, none⟩)

include hkey hdefine htransfer

theorem forall_command {v : Ledger} {c : Command} {es : List Posting}
    (hc : command E trx genName trxPos v c = some es) : ∀ e ∈ es, P e := by
  cases c with
  | registerName n k =>
    rw [of_registerName hc, List.forall_mem_singleton]
    exact hkey v n k
  | issue s =>
    obtain ⟨k, -, -, -, rfl⟩ := of_issueStock hc
    rw [List.forall_mem_singleton]
    exact htransfer _
  | transfer tr =>
    obtain ⟨k, k', fs, -, -, -, -, -, hd, rfl⟩ := of_transferStock hc
    rw [List.forall_mem_append, List.forall_mem_singleton]
    refine ⟨?_, htransfer _⟩
    obtain ⟨-, rfl⟩ | ⟨-, rfl⟩ := of_destination hd
    · exact List.forall_mem_nil _
    · rw [List.forall_mem_singleton]
      exact hdefine _
  | other => cases hc

theorem forall_commands (v : Ledger) (cs : List Command) :
    ∀ e ∈ (commands E trx genName trxPos v cs).2, P e := by
  induction cs generalizing v with
  | nil => exact List.forall_mem_nil _
  | cons c cs ih =>
    unfold commands
    cases hc : command E trx genName trxPos v c with
    | none => exact List.forall_mem_nil _
    | some es =>
      rw [List.forall_mem_append]
      exact ⟨forall_command hkey hdefine htransfer hc, ih _⟩

theorem forall_transaction (v : Ledger) (hstart : P (startTrx E trx)) :
    ∀ e ∈ (transaction E trx genName v).2, P e := by
  rw [transaction, List.forall_mem_cons]
  exact ⟨hstart, forall_commands hkey hdefine htransfer _ _⟩

end Kinds

end Ledger

end Gpm
