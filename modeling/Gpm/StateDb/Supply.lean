import Gpm.Lib.Accounts
import Gpm.StateDb.Reachable
import Gpm.StateDb.Wire

namespace Gpm

def issuedAmount : ℕ := 2 ^ 64 - 1

namespace Ledger

def bal (v : Ledger) (A S : Name) : ℕ := (v.balance A S).1.toNat

def supply (v : Ledger) (S : Name) : ℕ := ∑ A ∈ v.names, v.bal A S

variable {E : Externals} {v : Ledger} {trx : SignedTransaction} {genName : Name} {trxPos : ℕ}

theorem Coherent.index_eq_iff (h : v.Coherent) {A F : Name} {i : ℕ} (hF : v.index F = some i) :
    v.index A = some i ↔ A = F := by
  constructor
  · intro hA
    exact h.index_inj hA hF
  · rintro rfl
    exact hF

theorem balance_post_transferLog (h : v.Coherent) {F D S : Name} {i j k : ℕ}
    (hF : v.index F = some i) (hD : v.index D = some j) (hS : v.index S = some k)
    {tl : TransferLog} (hi : tl.fromName = some i) (hj : tl.toName = some j)
    (hk : tl.typeName = some k) (A T : Name) :
    (v.post E ⟨.transferLog tl, none⟩).balance A T =
      if T = S ∧ A = F then (tl.newFromBal, some v.size)
      else if T = S ∧ A = D then (tl.newToBal, some v.size)
      else v.balance A T := by
  have hindex := index_post_of_name_none (E := E) (v := v) (e := ⟨.transferLog tl, none⟩) rfl
  have hmem : (⟨v.index A, v.index T⟩ : AccountKey) ∈ (Record.transferLog tl).accounts ↔
      T = S ∧ (A = F ∨ A = D) := by
    simp only [Record.accounts, hi, hj, hk, List.mem_cons, List.not_mem_nil, or_false,
      AccountKey.mk.injEq, h.index_eq_iff hF, h.index_eq_iff hD, h.index_eq_iff hS]
    grind
  simp only [balance, hindex]
  simp only [post, hmem]
  by_cases hT : T = S
  · by_cases hA : A = F
    · simp [hT, hA, hF, hS, Record.balanceOf, hi, hk]
    · by_cases hA' : A = D
      · have hij : i ≠ j := by
          rintro rfl
          exact hA (hA' ▸ h.index_inj hD hF)
        have hDF : D ≠ F := hA' ▸ hA
        simp [hT, hA', hDF, hD, hS, Record.balanceOf, hi, hj, hk, hij]
      · simp [hT, hA, hA']
  · simp [hT]

theorem names_subset_posts (v : Ledger) (es : List Posting) : v.names ⊆ (v.posts E es).names := by
  induction es generalizing v with
  | nil => exact Finset.Subset.refl _
  | cons e es ih => exact Finset.Subset.trans Finset.subset_union_left (ih (v.post E e))

theorem bal_of_not_mem (h : v.Coherent) {A : Name} (hA : A ∉ v.names) (S : Name) :
    v.bal A S = 0 := by
  have hindex : v.index A = none := by
    rw [h.mem_names] at hA
    simpa using hA
  have hacc : v.account ⟨v.index A, v.index S⟩ = none := by
    apply h.account_eq_none
    rw [hindex]
    rintro i j ⟨⟩
  simp [bal, balance, hacc]

theorem supply_eq_sum (h : v.Coherent) {s : Finset Name} (hs : v.names ⊆ s) (S : Name) :
    v.supply S = ∑ A ∈ s, v.bal A S :=
  Finset.sum_subset hs fun _ _ hA => bal_of_not_mem h hA S

theorem bal_le_supply (h : v.Coherent) (A S : Name) : v.bal A S ≤ v.supply S := by
  rw [supply_eq_sum h (Finset.subset_insert A v.names)]
  exact Lib.le_sum (f := fun A => v.bal A S) (Finset.mem_insert_self A v.names)

theorem balance_registerName (h : v.Coherent) {n : Name} {k : PublicKey} {es : List Posting}
    (hc : registerName E trx v n k = some es) (A S : Name) :
    (v.posts E es).balance A S = v.balance A S := by
  rw [of_registerName hc]
  apply balance_post_of_accounts_nil h (admits_setKey n k)
  unfold setKey
  cases v.index n <;> rfl

theorem balance_post_issueRecord (h : v.Coherent) {S : Name} {i : ℕ} (hi : v.index S = some i)
    (pos : Index) (A T : Name) :
    (v.post E ⟨v.issueRecord S pos, none⟩).balance A T =
      if T = S ∧ A = S then (-1, some v.size) else v.balance A T := by
  rw [issueRecord, balance_post_transferLog h hi hi hi hi hi hi]
  split
  · rfl
  · rfl

theorem balance_post_transferRecord (h : v.Coherent) {F D S : Name} {i j k : ℕ}
    (hF : v.index F = some i) (hD : v.index D = some j) (hS : v.index S = some k)
    (amnt : UInt64) (pos : Index) (A T : Name) :
    (v.post E ⟨v.transferRecord F D S amnt pos, none⟩).balance A T =
      if T = S ∧ A = F then ((v.balance F S).1 - amnt, some v.size)
      else if T = S ∧ A = D then ((v.balance D S).1 + amnt, some v.size)
      else v.balance A T := by
  rw [transferRecord, balance_post_transferLog h hF hD hS hF hD hS]

theorem balance_issueStock (h : v.Coherent) {s : Name} {es : List Posting}
    (hc : issueStock E trx trxPos v s = some es) (A S : Name) :
    (v.posts E es).balance A S =
      if S = s ∧ A = s then (-1, some v.size) else v.balance A S := by
  obtain ⟨k, hk, -, -, rfl⟩ := of_issueStock hc
  obtain ⟨i, hi⟩ := index_of_key hk
  rw [posts_cons, posts_nil, balance_post_issueRecord h hi]

theorem transferStock_posting {tr : Transfer} {es : List Posting}
    (hc : transferStock E trx genName trxPos v tr = some es) :
    ∃ fs i j k, destination E v (recipient genName tr) = some fs ∧
      (v.posts E fs).index tr.fromName = some i ∧
      (v.posts E fs).index (recipient genName tr) = some j ∧
      (v.posts E fs).index tr.stockName = some k ∧
      es = fs ++ [⟨(v.posts E fs).transferRecord tr.fromName (recipient genName tr) tr.stockName
        tr.amount (some trxPos), none⟩] := by
  obtain ⟨_, _, fs, hf, hs, -, -, -, hd, rfl⟩ := of_transferStock hc
  obtain ⟨⟨j, hj⟩, hold⟩ := index_destination hd
  obtain ⟨i, hi⟩ := index_of_key hf
  obtain ⟨k, hk⟩ := index_of_key hs
  exact ⟨fs, i, j, k, hd, hold _ i hi, hj, hold _ k hk, rfl⟩

theorem balance_transferStock (h : v.Coherent) {tr : Transfer} {es : List Posting}
    (hc : transferStock E trx genName trxPos v tr = some es) :
    ∃ i, ∀ A S, (v.posts E es).balance A S =
      if S = tr.stockName ∧ A = tr.fromName then
        ((v.balance tr.fromName tr.stockName).1 - tr.amount, some i)
      else if S = tr.stockName ∧ A = recipient genName tr then
        ((v.balance (recipient genName tr) tr.stockName).1 + tr.amount, some i)
      else v.balance A S := by
  obtain ⟨fs, i, j, k, hd, hi, hj, hk, rfl⟩ := transferStock_posting hc
  have hcoh := h.posts (admitsAll_destination hd)
  refine ⟨(v.posts E fs).size, fun A S => ?_⟩
  rw [posts_append, posts_cons, posts_nil, balance_post_transferRecord hcoh hi hj hk]
  simp only [balance_destination h hd]

end Ledger

namespace Command

def minted (S : Name) : Command → ℕ
  | .issue s => if s = S then issuedAmount else 0
  | _ => 0

def burnt (genName S : Name) : Command → ℕ
  | .transfer tr =>
    if tr.stockName = S ∧ tr.toName = [] ∧ tr.fromName = genName then tr.amount.toNat else 0
  | _ => 0

end Command

namespace Ledger

structure Books (v : Ledger) (minted burnt : Name → ℕ) : Prop where
  coherent : v.Coherent
  total : ∀ S, v.supply S + burnt S = minted S
  once : ∀ S, minted S = 0 ∨ minted S = issuedAmount ∧ (v.balance S S).2.isSome

variable {E : Externals} {v : Ledger} {trx : SignedTransaction} {genName : Name} {trxPos : ℕ}
  {minted burnt : Name → ℕ} {es : List Posting}

theorem Books.congr (h : Books v minted burnt) {minted' burnt' : Name → ℕ}
    (hm : ∀ S, minted S = minted' S) (hb : ∀ S, burnt S = burnt' S) : Books v minted' burnt' :=
  funext hm ▸ funext hb ▸ h

theorem Books.supply_le (h : Books v minted burnt) (S : Name) : v.supply S ≤ issuedAmount := by
  have htotal := h.total S
  cases h.once S with
  | inl h0 => omega
  | inr h1 => omega

theorem Books.minted_of_null (h : Books v minted burnt) {S : Name}
    (hn : (v.balance S S).2 = none) : minted S = 0 := by
  cases h.once S with
  | inl h0 => exact h0
  | inr h1 => simp [hn] at h1

theorem supply_of_balance_eq (h : v.Coherent) {S : Name}
    (hb : ∀ A, (v.posts E es).balance A S = v.balance A S) :
    (v.posts E es).supply S = v.supply S := by
  rw [supply_eq_sum h (names_subset_posts (E := E) v es), supply]
  apply Finset.sum_congr rfl
  intro A _
  rw [bal, hb, bal]

theorem mem_names_posts (h : v.Coherent) {A : Name} {i : ℕ} (hA : v.index A = some i) :
    A ∈ (v.posts E es).names :=
  names_subset_posts v es ((h.mem_names A).mpr (by rw [hA]; rfl))

theorem Books.post_of_accounts_nil (h : Books v minted burnt) {e : Posting} (ha : v.Admits e)
    (hacc : e.record.accounts = []) : Books (v.post E e) minted burnt := by
  have hbal := balance_post_of_accounts_nil (E := E) h.coherent ha hacc
  refine ⟨h.coherent.post ha, fun S => ?_, fun S => ?_⟩
  · have hsupply : (v.posts E [e]).supply S = v.supply S :=
      supply_of_balance_eq h.coherent fun A => hbal A S
    rw [posts_cons, posts_nil] at hsupply
    rw [hsupply]
    exact h.total S
  · rw [hbal]
    exact h.once S

theorem Books.post_issueRecord (h : Books v minted burnt) {s : Name} {i : ℕ}
    (hi : v.index s = some i) (hnull : (v.balance s s).2 = none) (pos : Index) :
    Books (v.post E ⟨v.issueRecord s pos, none⟩)
      (fun S => minted S + if s = S then issuedAmount else 0) burnt := by
  have hbal := balance_post_issueRecord (E := E) h.coherent hi pos
  have hlt := h.coherent.index_lt hi
  have hadm : v.Admits ⟨v.issueRecord s pos, none⟩ := admits_transferLog hi hi hi hlt hlt hlt
  have hzero := h.minted_of_null hnull
  refine ⟨h.coherent.post hadm, fun S => ?_, fun S => ?_⟩
  · by_cases hs : s = S
    · subst hs
      have hmem : s ∈ (v.posts E [⟨v.issueRecord s pos, none⟩]).names :=
        mem_names_posts h.coherent hi
      have hsum := Lib.sum_change (f := fun A => v.bal A s)
        (g := fun A => (v.post E ⟨v.issueRecord s pos, none⟩).bal A s) hmem (by
          intro A hA
          simp only [bal, hbal, hA, and_false, if_false])
      have hself : (v.post E ⟨v.issueRecord s pos, none⟩).bal s s = issuedAmount := by
        rw [bal, hbal, if_pos ⟨rfl, rfl⟩]
        rfl
      rw [← supply_eq_sum h.coherent (names_subset_posts (E := E) v _), hself] at hsum
      have hle := bal_le_supply h.coherent s s
      have htotal := h.total s
      rw [posts_cons, posts_nil] at hsum
      rw [supply, if_pos rfl]
      omega
    · have hsupply : (v.posts E [⟨v.issueRecord s pos, none⟩]).supply S = v.supply S :=
        supply_of_balance_eq h.coherent fun A => by
          rw [posts_cons, posts_nil, hbal, if_neg fun he => hs he.1.symm]
      rw [posts_cons, posts_nil] at hsupply
      rw [if_neg hs, hsupply]
      exact h.total S
  · by_cases hs : s = S
    · subst hs
      exact Or.inr ⟨by rw [if_pos rfl, hzero, Nat.zero_add],
        by rw [hbal, if_pos ⟨rfl, rfl⟩]; rfl⟩
    · rw [hbal, if_neg hs, Nat.add_zero, if_neg fun he => hs he.1.symm]
      exact h.once S

section Transfer

variable {F D S : Name} {i j k : ℕ} {amnt : UInt64}

theorem bal_post_source (h : v.Coherent) (hF : v.index F = some i) (hD : v.index D = some j)
    (hS : v.index S = some k) (hle : amnt ≤ (v.balance F S).1) (pos : Index) :
    (v.post E ⟨v.transferRecord F D S amnt pos, none⟩).bal F S = v.bal F S - amnt.toNat := by
  rw [bal, balance_post_transferRecord h hF hD hS, if_pos ⟨rfl, rfl⟩]
  exact UInt64.toNat_sub_of_le _ _ hle

theorem Books.room (h : Books v minted burnt) (hF : v.index F = some i) (hD : v.index D = some j)
    (hle : amnt ≤ (v.balance F S).1) (hne : F ≠ D) : v.bal D S + amnt.toNat < 2 ^ 64 := by
  have hfrom : F ∈ v.names := (h.coherent.mem_names F).mpr (by rw [hF]; rfl)
  have hto : D ∈ v.names := (h.coherent.mem_names D).mpr (by rw [hD]; rfl)
  have hroom := Lib.add_le_sum (f := fun A => v.bal A S) hfrom hto hne
  have hcap := h.supply_le S
  have hamount : amnt.toNat ≤ v.bal F S := hle
  rw [supply, issuedAmount] at hcap
  omega

theorem Books.bal_post_destination (h : Books v minted burnt) (hF : v.index F = some i)
    (hD : v.index D = some j) (hS : v.index S = some k) (hle : amnt ≤ (v.balance F S).1)
    (hne : F ≠ D) (pos : Index) :
    (v.post E ⟨v.transferRecord F D S amnt pos, none⟩).bal D S = v.bal D S + amnt.toNat := by
  rw [bal, balance_post_transferRecord h.coherent hF hD hS, if_neg fun he => hne he.2.symm,
    if_pos ⟨rfl, rfl⟩, UInt64.toNat_add]
  exact Nat.mod_eq_of_lt (h.room hF hD hle hne)

theorem Books.post_transferRecord (h : Books v minted burnt) (hF : v.index F = some i)
    (hD : v.index D = some j) (hS : v.index S = some k) (hle : amnt ≤ (v.balance F S).1)
    (pos : Index) :
    Books (v.post E ⟨v.transferRecord F D S amnt pos, none⟩) minted
      (fun T => burnt T + if T = S ∧ F = D then amnt.toNat else 0) := by
  have hbal := balance_post_transferRecord (E := E) h.coherent hF hD hS amnt pos
  have hadm : v.Admits ⟨v.transferRecord F D S amnt pos, none⟩ :=
    admits_transferLog hF hD hS (h.coherent.index_lt hF) (h.coherent.index_lt hD)
      (h.coherent.index_lt hS)
  have hnew := bal_post_source (E := E) h.coherent hF hD hS hle pos
  have hamount : amnt.toNat ≤ v.bal F S := hle
  have hfrom : F ∈ (v.posts E [⟨v.transferRecord F D S amnt pos, none⟩]).names :=
    mem_names_posts h.coherent hF
  have hto : D ∈ (v.posts E [⟨v.transferRecord F D S amnt pos, none⟩]).names :=
    mem_names_posts h.coherent hD
  rw [posts_cons, posts_nil] at hfrom hto
  have hsub : v.names ⊆ (v.post E ⟨v.transferRecord F D S amnt pos, none⟩).names :=
    names_subset_posts (E := E) v [_]
  refine ⟨h.coherent.post hadm, fun T => ?_, fun T => ?_⟩
  · have htotal := h.total T
    by_cases hT : T = S
    · subst hT
      rw [supply_eq_sum h.coherent hsub] at htotal
      by_cases hself : F = D
      · subst hself
        rw [if_pos ⟨rfl, rfl⟩]
        have hsum := Lib.sum_change (f := fun A => v.bal A T)
          (g := fun A => (v.post E ⟨v.transferRecord F F T amnt pos, none⟩).bal A T) hfrom (by
            intro A hA
            simp only [bal, hbal, hA, and_false, if_false])
        rw [hnew] at hsum
        rw [supply]
        omega
      · rw [if_neg fun he => hself he.2]
        have hsum := Lib.sum_change₂ (f := fun A => v.bal A T)
          (g := fun A => (v.post E ⟨v.transferRecord F D T amnt pos, none⟩).bal A T)
            hfrom hto hself
          (by
            intro A hA hA'
            simp only [bal, hbal, hA, hA', and_false, if_false])
        rw [hnew, h.bal_post_destination hF hD hS hle hself pos] at hsum
        rw [supply]
        omega
    · have hsupply : (v.posts E [⟨v.transferRecord F D S amnt pos, none⟩]).supply T =
          v.supply T :=
        supply_of_balance_eq h.coherent fun A => by
          rw [posts_cons, posts_nil, hbal, if_neg fun he => hT he.1, if_neg fun he => hT he.1]
      rw [posts_cons, posts_nil] at hsupply
      rw [if_neg fun he => hT he.1, hsupply]
      exact htotal
  · cases h.once T with
    | inl h0 => exact Or.inl h0
    | inr h1 =>
      refine Or.inr ⟨h1.1, ?_⟩
      rw [hbal]
      split
      · rfl
      · split
        · rfl
        · exact h1.2

end Transfer

theorem Books.destination (h : Books v minted burnt) {n : Name}
    (hd : destination E v n = some es) : Books (v.posts E es) minted burnt := by
  obtain ⟨-, rfl⟩ | ⟨hi, rfl⟩ := of_destination hd
  · exact h
  · exact h.post_of_accounts_nil (admits_define _ hi) rfl

theorem Books.registerName (h : Books v minted burnt) {n : Name} {k : PublicKey}
    (hc : registerName E trx v n k = some es) : Books (v.posts E es) minted burnt := by
  rw [of_registerName hc]
  apply h.post_of_accounts_nil (admits_setKey n k)
  unfold setKey
  cases v.index n <;> rfl

theorem Books.issueStock (h : Books v minted burnt) {s : Name}
    (hc : issueStock E trx trxPos v s = some es) :
    Books (v.posts E es) (fun S => minted S + Command.minted S (.issue s)) burnt := by
  obtain ⟨k, hk, hnull, -, rfl⟩ := of_issueStock hc
  obtain ⟨i, hi⟩ := index_of_key hk
  exact h.post_issueRecord hi hnull (some trxPos)

theorem recipient_eq_iff {tr : Transfer} (h : ¬ (tr.toName ≠ [] ∧ tr.fromName = tr.toName)) :
    recipient genName tr = tr.fromName ↔ tr.toName = [] ∧ tr.fromName = genName := by
  unfold recipient
  split
  · rename_i hnil
    simp [hnil, eq_comm]
  · rename_i hnil
    constructor
    · intro he
      exact absurd ⟨hnil, he.symm⟩ h
    · intro he
      exact absurd he.1 hnil

theorem bal_source (h : v.Coherent) {tr : Transfer}
    (hc : transferStock E trx genName trxPos v tr = some es) :
    tr.amount.toNat ≤ v.bal tr.fromName tr.stockName ∧
      (v.posts E es).bal tr.fromName tr.stockName =
        v.bal tr.fromName tr.stockName - tr.amount.toNat := by
  obtain ⟨loc, hbal⟩ := balance_transferStock h hc
  obtain ⟨k, k', fs, -, -, -, -, hamount, -, -⟩ := of_transferStock hc
  have hle : tr.amount ≤ (v.balance tr.fromName tr.stockName).1 := UInt64.not_lt.mp hamount
  refine ⟨hle, ?_⟩
  rw [bal, hbal, if_pos ⟨rfl, rfl⟩]
  exact UInt64.toNat_sub_of_le _ _ hle

theorem Books.bal_recipient (h : Books v minted burnt) {tr : Transfer}
    (hc : transferStock E trx genName trxPos v tr = some es)
    (hself : recipient genName tr ≠ tr.fromName) :
    (v.posts E es).bal (recipient genName tr) tr.stockName =
      v.bal (recipient genName tr) tr.stockName + tr.amount.toNat := by
  obtain ⟨hle, -⟩ := bal_source h.coherent hc
  obtain ⟨fs, i, j, k, hd, hi, hj, hk, rfl⟩ := transferStock_posting hc
  have hbal := balance_destination h.coherent hd
  have hroom : tr.amount ≤ ((v.posts E fs).balance tr.fromName tr.stockName).1 := by
    rw [hbal]
    exact hle
  rw [posts_append, posts_cons, posts_nil,
    (h.destination hd).bal_post_destination hi hj hk hroom (Ne.symm hself), bal, hbal, bal]

theorem Books.transferStock (h : Books v minted burnt) {tr : Transfer}
    (hc : transferStock E trx genName trxPos v tr = some es) :
    Books (v.posts E es) minted (fun S => burnt S + Command.burnt genName S (.transfer tr)) := by
  obtain ⟨hle, -⟩ := bal_source h.coherent hc
  obtain ⟨k, k', fs, -, -, hne, -, -, -, -⟩ := of_transferStock hc
  obtain ⟨fs, i, j, k, hd, hi, hj, hk, rfl⟩ := transferStock_posting hc
  have hroom : tr.amount ≤ ((v.posts E fs).balance tr.fromName tr.stockName).1 := by
    rw [balance_destination h.coherent hd]
    exact hle
  rw [posts_append, posts_cons, posts_nil]
  apply ((h.destination hd).post_transferRecord hi hj hk hroom (some trxPos)).congr fun _ => rfl
  intro S
  have hcond : S = tr.stockName ∧ tr.fromName = recipient genName tr ↔
      tr.stockName = S ∧ tr.toName = [] ∧ tr.fromName = genName :=
    and_congr eq_comm (eq_comm.trans (recipient_eq_iff hne))
  simp only [Command.burnt, hcond]

theorem Books.command (h : Books v minted burnt) {c : Command}
    (hc : command E trx genName trxPos v c = some es) :
    Books (v.posts E es) (fun S => minted S + c.minted S)
      (fun S => burnt S + c.burnt genName S) := by
  cases c with
  | registerName n k => exact h.registerName hc
  | issue s => exact h.issueStock hc
  | transfer tr => exact h.transferStock hc
  | other => cases hc

theorem Books.startTrx (h : Books v minted burnt) :
    Books (v.post E (startTrx E trx)) minted burnt :=
  h.post_of_accounts_nil admits_startTrx rfl

theorem Books.commands (h : Books v minted burnt) (cs : List Command)
    (hok : (Ledger.commands E trx genName trxPos v cs).1) :
    Books (v.posts E (Ledger.commands E trx genName trxPos v cs).2)
      (fun S => minted S + (cs.map (Command.minted S)).sum)
      (fun S => burnt S + (cs.map (Command.burnt genName S)).sum) := by
  induction cs generalizing v minted burnt with
  | nil => exact h.congr (fun _ => rfl) (fun _ => rfl)
  | cons c cs ih =>
    simp only [Ledger.commands] at hok ⊢
    cases hc : Ledger.command E trx genName trxPos v c with
    | none => simp [hc] at hok
    | some es =>
      simp only [hc] at hok ⊢
      rw [posts_append]
      apply (ih (h.command hc) hok).congr
      · intro S
        rw [List.map_cons, List.sum_cons, Nat.add_assoc]
      · intro S
        rw [List.map_cons, List.sum_cons, Nat.add_assoc]

theorem Books.commands_any (h : Books v minted burnt) (cs : List Command) :
    ∃ minted' burnt', Books (v.posts E (Ledger.commands E trx genName trxPos v cs).2)
      minted' burnt' := by
  induction cs generalizing v minted burnt with
  | nil => exact ⟨minted, burnt, h⟩
  | cons c cs ih =>
    simp only [Ledger.commands]
    cases hc : Ledger.command E trx genName trxPos v c with
    | none => exact ⟨minted, burnt, h⟩
    | some es =>
      rw [posts_append]
      exact ih (h.command hc)

theorem Books.transaction (h : Books v minted burnt)
    (hok : (Ledger.transaction E trx genName v).1) :
    Books (v.posts E (Ledger.transaction E trx genName v).2)
      (fun S => minted S + (trx.trx.commands.map (Command.minted S)).sum)
      (fun S => burnt S + (trx.trx.commands.map (Command.burnt genName S)).sum) :=
  h.startTrx.commands trx.trx.commands hok

theorem Books.transaction_any (h : Books v minted burnt) :
    ∃ minted' burnt', Books (v.posts E (Ledger.transaction E trx genName v).2) minted' burnt' :=
  h.startTrx.commands_any trx.trx.commands

theorem books_empty : Books empty (fun _ => 0) (fun _ => 0) where
  coherent := coherent_empty
  total _ := rfl
  once _ := Or.inl rfl

end Ledger

def Database.balance (E : Externals) (A S : Name) (db : Database) : Option UInt64 :=
  (Lib.returned (DbM.getBalance E A S db)).map Prod.fst

def Database.supply (E : Externals) (S : Name) (db : Database) : Option ℕ :=
  (db.names.mapM fun A => (db.balance E A S).map UInt64.toNat).map List.sum

inductive Accepted (E : Externals) :
    List (SignedTransaction × Name) → Database → Database → Prop
  | nil {db} : Accepted E [] db db
  | cons {trx genName run db db' db''} : DbM.apply E trx genName db = .ok true db' →
      Accepted E run db' db'' → Accepted E ((trx, genName) :: run) db db''

def issued (S : Name) (run : List (SignedTransaction × Name)) : Bool :=
  run.any fun r => r.1.trx.commands.contains (.issue S)

def mintedBy (S : Name) (run : List (SignedTransaction × Name)) : ℕ :=
  (run.map fun r => (r.1.trx.commands.map (Command.minted S)).sum).sum

def burntBy (S : Name) (run : List (SignedTransaction × Name)) : ℕ :=
  (run.map fun r => (r.1.trx.commands.map (Command.burnt r.2 S)).sum).sum

section Run

variable {E : Externals} {db db' : Database} {run : List (SignedTransaction × Name)}

theorem WellFormed.balance_eq (h : WellFormed E db) (A S : Name) :
    db.balance E A S = some ((db.ledger E).balance A S).1 := by
  obtain ⟨s', hs, -⟩ := DbM.getBalance_runs h.indexed A S
  rw [Database.balance, hs, Lib.returned, Option.map_some]

theorem WellFormed.supply_eq (h : WellFormed E db) (S : Name) :
    db.supply E S = some ((db.ledger E).supply S) := by
  have hbal : ∀ A, (db.balance E A S).map UInt64.toNat = some ((db.ledger E).bal A S) := by
    intro A
    rw [h.balance_eq]
    rfl
  have hsum : ((db.names.map fun A => (db.ledger E).bal A S).sum) = (db.ledger E).supply S :=
    (List.sum_toFinset _ db.names_nodup).symm
  rw [Database.supply, funext hbal, ← hsum]
  exact congrArg _ (List.mapM_pure (m := Option))

theorem WellFormed.apply (h : WellFormed E db) {trx : SignedTransaction} {genName : Name} {b : Bool}
    (ha : DbM.apply E trx genName db = .ok b db') :
    b = (Ledger.transaction E trx genName (db.ledger E)).1 ∧
      db'.ledger E = (db.ledger E).posts E (Ledger.transaction E trx genName (db.ledger E)).2 ∧
        WellFormed E db' := by
  obtain ⟨s', hs, hl⟩ := DbM.apply_runs trx genName h
  rw [ha] at hs
  cases hs
  exact ⟨rfl, h.leads (Ledger.admitsAll_transaction h.coherent) hl⟩

theorem Accepted.books (hrun : Accepted E run db db') (h : WellFormed E db)
    {minted burnt : Name → ℕ} (hb : (db.ledger E).Books minted burnt) :
    WellFormed E db' ∧ (db'.ledger E).Books (fun S => minted S + mintedBy S run)
      (fun S => burnt S + burntBy S run) := by
  induction hrun generalizing minted burnt with
  | nil => exact ⟨h, hb.congr (fun _ => rfl) (fun _ => rfl)⟩
  | cons ha _ ih =>
    obtain ⟨hok, hv, h'⟩ := h.apply ha
    have hstep := hb.transaction hok.symm
    rw [← hv] at hstep
    obtain ⟨hwf, hbooks⟩ := ih h' hstep
    refine ⟨hwf, hbooks.congr ?_ ?_⟩
    · intro S
      rw [mintedBy, mintedBy, List.map_cons, List.sum_cons, Nat.add_assoc]
    · intro S
      rw [burntBy, burntBy, List.map_cons, List.sum_cons, Nat.add_assoc]

theorem mintedBy_eq_zero_iff (S : Name) : mintedBy S run = 0 ↔ issued S run = false := by
  simp only [mintedBy, issued, List.sum_eq_zero_iff_forall_eq_nat, List.mem_map,
    forall_exists_index, and_imp, forall_apply_eq_imp_iff₂, List.any_eq_false,
    List.contains_iff_mem]
  constructor
  · intro h r hr hmem
    have := h r hr _ hmem
    simp [Command.minted, issuedAmount] at this
  · intro h r hr c hc
    cases c with
    | issue s =>
      by_cases hs : s = S
      · exact absurd (hs ▸ hc) (h r hr)
      · simp [Command.minted, hs]
    | _ => rfl

theorem burntBy_eq_zero_iff (S : Name) : burntBy S run = 0 ↔
    ∀ t g tr, (t, g) ∈ run → .transfer tr ∈ t.trx.commands → tr.stockName = S →
      tr.toName = [] → tr.fromName = g → tr.amount = 0 := by
  simp only [burntBy, List.sum_eq_zero_iff_forall_eq_nat, List.mem_map,
    forall_exists_index, and_imp,
    forall_apply_eq_imp_iff₂]
  constructor
  · intro h t g tr hr hmem hS hto hfrom
    have := h (t, g) hr _ hmem
    rw [Command.burnt, if_pos ⟨hS, hto, hfrom⟩] at this
    exact UInt64.toNat_inj.mp this
  · intro h r hr c hc
    cases c with
    | transfer tr =>
      simp only [Command.burnt]
      split
      · rename_i hcond
        rw [h r.1 r.2 tr hr hc hcond.1 hcond.2.1 hcond.2.2]
        rfl
      · rfl
    | _ => rfl

/-- The total of a stock is what was issued of it exactly when no generator has paid
itself by leaving the destination of a transfer empty. -/
theorem supply_eq_issued_iff (hblank : db.Blank) (hrun : Accepted E run db db') :
    (∀ S, db'.supply E S = some (if issued S run then issuedAmount else 0)) ↔
      ∀ t g tr, (t, g) ∈ run → .transfer tr ∈ t.trx.commands → tr.toName = [] →
        tr.fromName = g → tr.amount = 0 := by
  have hbooks : (db.ledger E).Books (fun _ => 0) (fun _ => 0) := by
    rw [hblank.ledger]
    exact Ledger.books_empty
  obtain ⟨hwf, hb⟩ := hrun.books hblank.wellFormed hbooks
  simp only [Nat.zero_add] at hb
  have hminted : ∀ S, mintedBy S run = if issued S run then issuedAmount else 0 := by
    intro S
    cases hi : issued S run with
    | false => exact (mintedBy_eq_zero_iff S).mpr hi
    | true =>
      cases hb.once S with
      | inl h0 => rw [(mintedBy_eq_zero_iff S).mp h0] at hi; cases hi
      | inr h1 => exact h1.1
  have hburnt : ∀ S, db'.supply E S = some (if issued S run then issuedAmount else 0) ↔
      burntBy S run = 0 := by
    intro S
    have htotal := hb.total S
    rw [hwf.supply_eq, ← hminted, Option.some_inj]
    omega
  simp only [hburnt, burntBy_eq_zero_iff]
  constructor
  · intro h t g tr hr hmem
    exact h tr.stockName t g tr hr hmem rfl
  · intro h S t g tr hr hmem _
    exact h t g tr hr hmem

end Run

def selfPayment (amount : UInt64) : SignedTransaction where
  trx :=
    { utcTime := 0
      commands := [.registerName [1] 7, .issue [1], .transfer ⟨amount, [1], [1], []⟩] }
  sigs := [7]

def paidState (amount : UInt64) : Database :=
  Lib.finalState (DbM.apply (Wire.externals fun _ => 0) (selfPayment amount) [1]
    (.trx (.file {}) {}))

theorem accepted_selfPayment {amount : UInt64}
    (h : Lib.returned (DbM.apply (Wire.externals fun _ => 0) (selfPayment amount) [1]
      (.trx (.file {}) {})) = some true) :
    Accepted (Wire.externals fun _ => 0) [(selfPayment amount, [1])] (.trx (.file {}) {})
      (paidState amount) :=
  .cons (Lib.eq_ok_of_returned h) .nil

theorem supply_lost : ¬ ∀ db db' run, db.Blank →
    Accepted (Wire.externals fun _ => 0) run db db' →
    ∀ S, db'.supply (Wire.externals fun _ => 0) S =
      some (if issued S run then issuedAmount else 0) := by
  intro h
  have hacc : Accepted (Wire.externals fun _ => 0) [(selfPayment 5, [1])] (.trx (.file {}) {})
      (paidState 5) := accepted_selfPayment (by decide +kernel)
  have hsum := h _ _ _ Database.blank_fresh hacc [1]
  have hlost : (paidState 5).supply (Wire.externals fun _ => 0) [1] = some (issuedAmount - 5) := by
    decide +kernel
  rw [hlost] at hsum
  revert hsum
  decide

theorem supply_eq_issued_iff_selfPayment :
    (∀ S, (paidState 0).supply (Wire.externals fun _ => 0) S =
      some (if issued S [(selfPayment 0, [1])] then issuedAmount else 0)) ↔
      ∀ t g tr, (t, g) ∈ [(selfPayment 0, ([1] : Name))] → .transfer tr ∈ t.trx.commands →
        tr.toName = [] → tr.fromName = g → tr.amount = 0 :=
  supply_eq_issued_iff Database.blank_fresh
    (accepted_selfPayment (by decide +kernel))

end Gpm
