import Gpm.StateDb.History

namespace Gpm

open Lib (outcome)

structure TrxLog where
  from_ : Name
  to_ : Name
  type : Name
  amnt : UInt64
  toBal : UInt64
  fromBal : UInt64
  date : UInt64
  deriving DecidableEq

namespace Tran

def trxLog (t : Tran) : TrxLog where
  from_ := t.mFrom
  to_ := t.mTo
  type := t.mType
  amnt := t.mAmount
  toBal := t.mToBal
  fromBal := t.mFromBal
  date := t.mTime

variable (E : Externals) (fuel : ℕ) (account : Name) (startDate endDate : UInt64)

/-- The loop of `get_transaction_log`. -/
def logLoop : ℕ → Tran → DbM (List TrxLog)
  | 0, _ => throw .diverges
  | n + 1, t =>
    if t.mIndex = none then return []
    else if t.mTime < startDate then return []
    else do
      let r ← previous E fuel account t
      let log ← logLoop n r.2
      return if t.mTime ≤ endDate then t.trxLog :: log else log

def inRange (t : Tran) : Bool := startDate ≤ t.mTime && t.mTime ≤ endDate

end Tran

def DbM.getTransactionLog (E : Externals) (fuel : ℕ) (account type : Name)
    (startDate endDate : UInt64) : DbM (List TrxLog) := do
  let tran ← getLastTransfer E fuel account type
  tran.logLoop E fuel account startDate endDate fuel

def Database.transactionLog (E : Externals) (account type : Name) (startDate endDate : UInt64)
    (db : Database) : List TrxLog :=
  (((db.transfersOf E account type).reverse.map (db.transferAt E)).filter
    (Tran.inRange startDate endDate)).map Tran.trxLog

def Record.isIssue : Record → Bool
  | .transferLog tl => tl.amount = -1 && tl.newFromBal = -1
  | _ => false

def Database.Timely (E : Externals) (account type : Name) (startDate endDate : UInt64)
    (db : Database) : Prop :=
  ((db.transfersOf E account type).reverse.map (db.transferAt E)).Pairwise fun t t' =>
    t.mTime < startDate → ¬ Tran.inRange startDate endDate t'

variable {E : Externals} {allowed : List StateRecord → Index → Prop} {db db' : Database}
  {es : List Posting} {A S : Name} {i s fuel n : ℕ} {startDate endDate : UInt64}

namespace Tran

theorem logLoop_of_walk {t : Tran} {ts : List Tran} (h : walk E fuel A n t db = .ok ts db') :
    outcome (logLoop E fuel A startDate endDate n t db) =
      .ok (((ts.takeWhile fun t => startDate ≤ t.mTime).filter
        (inRange startDate endDate)).map trxLog) := by
  induction n generalizing t ts db db' with
  | zero => cases h
  | succ n ih =>
    rw [walk] at h
    rw [logLoop]
    split at h
    · rename_i hend
      cases h
      rw [if_pos hend]
      rfl
    · rename_i hend
      rw [if_neg hend]
      obtain ⟨r, db₁, hprev, h⟩ := Lib.of_bind_ok h
      obtain ⟨rest, db₂, hrest, h⟩ := Lib.of_bind_ok h
      cases h
      by_cases hold : t.mTime < startDate
      · rw [if_pos hold, List.takeWhile_cons_of_neg (by simpa using hold)]
        rfl
      · have hnew : startDate ≤ t.mTime := UInt64.not_lt.mp hold
        have hlog := ih hrest
        rw [if_neg hold, Lib.bind_ok hprev, List.takeWhile_cons_of_pos (by simpa using hnew)]
        cases hloop : logLoop E fuel A startDate endDate n r.2 db₁ with
        | error e db₃ =>
          rw [hloop] at hlog
          cases hlog
        | ok log db₃ =>
          rw [hloop, outcome, Except.ok.injEq] at hlog
          rw [Lib.bind_ok hloop, hlog]
          by_cases hin : t.mTime ≤ endDate
          · rw [if_pos hin, List.filter_cons_of_pos (by simp [inRange, hnew, hin]), List.map_cons]
            rfl
          · rw [if_neg hin, List.filter_cons_of_neg (by simp [inRange, hin])]
            rfl

end Tran

theorem DbM.getTransactionLog_of_history {ts : List Tran}
    (h : outcome (transferHistory E fuel A S db) = .ok ts) :
    outcome (getTransactionLog E fuel A S startDate endDate db) =
      .ok (((ts.takeWhile fun t => startDate ≤ t.mTime).filter
        (Tran.inRange startDate endDate)).map Tran.trxLog) := by
  cases hrun : transferHistory E fuel A S db with
  | error e db₁ =>
    rw [hrun] at h
    cases h
  | ok ts' db₁ =>
    rw [hrun, outcome, Except.ok.injEq] at h
    subst h
    obtain ⟨t, db₂, hlast, hwalk⟩ := Lib.of_bind_ok hrun
    rw [getTransactionLog, Lib.bind_ok hlast]
    exact Tran.logLoop_of_walk hwalk

theorem Ledger.accountRecords_eq_nil {a : AccountKey} (h : (empty.posts E es).account a = none) :
    accountRecords E es a = [] := by
  rw [← Option.map_eq_none_iff (f := Prod.snd)] at h
  induction es using List.reverseRecOn with
  | nil => rfl
  | append_singleton es e ih =>
    rw [position_concat] at h
    rw [accountRecords_concat]
    by_cases hk : a ∈ e.record.accounts
    · rw [if_pos hk] at h
      cases h
    · rw [if_neg hk] at h ⊢
      rw [List.append_nil]
      exact ih h

namespace Journal

theorem not_isIssue (h : Journal E allowed es) (hA : (Ledger.empty.posts E es).index A = some i)
    (hS : (Ledger.empty.posts E es).index S = some s) :
    ∀ r ∈ (accountRecords E es ⟨some i, some s⟩).tail, ¬ r.data.isIssue := by
  suffices hall : ∀ fs gs, fs ++ gs = es →
      ∀ r ∈ (accountRecords E fs ⟨some i, some s⟩).tail, ¬ r.data.isIssue by
    exact hall es [] (List.append_nil es)
  intro fs
  induction fs using List.reverseRecOn with
  | nil => exact fun _ _ _ hr => absurd hr List.not_mem_nil
  | append_singleton fs e ih =>
    rintro gs rfl
    have hrest := ih ([e] ++ gs) (by simp)
    rw [Ledger.accountRecords_concat]
    by_cases hk : ⟨some i, some s⟩ ∈ e.record.accounts
    · rw [if_pos hk]
      by_cases hnil : accountRecords E fs ⟨some i, some s⟩ = []
      · rw [hnil]
        exact fun _ hr => absurd hr List.not_mem_nil
      · rw [List.tail_append_of_ne_nil hnil, List.forall_mem_append, List.forall_mem_singleton]
        refine ⟨hrest, ?_⟩
        rw [List.append_assoc] at h hA hS
        obtain ⟨hA', hS', hmoves⟩ := h.moves_of_mem hA hS hk
        cases hmoves with
        | issue hself hnull _ =>
          rw [Ledger.balance_snd, hA', hS', Option.map_eq_none_iff] at hnull
          exact absurd (Ledger.accountRecords_eq_nil hnull) hnil
        | @transfer F D j k amnt pos _ _ _ hle hrecord =>
          simp only [hrecord, Ledger.transferRecord, Record.isIssue, Bool.and_eq_true,
            decide_eq_true_eq, not_and]
          rintro rfl hleft
          generalize ((Ledger.empty.posts E fs).balance F S).1 = b at hle hleft
          have hb : b = -1 := UInt64.le_antisymm (by
            rw [UInt64.le_iff_toNat_le]
            exact Nat.le_of_lt_succ b.toNat_lt) hle
          rw [hb] at hleft
          exact absurd hleft (by decide)
    · rw [if_neg hk, List.append_nil]
      exact hrest

end Journal

namespace Filed

theorem getTransactionLog_iff (h : Filed E db es) (hes : Journal E Begun es) (hA : A ∈ db.names)
    (hS : S ∈ db.names) (hloop : ∀ r ∈ db.log E, r.data.isLoop → r.data.isIssue)
    (hfuel : (db.log E).length < fuel) :
    outcome (DbM.getTransactionLog E fuel A S startDate endDate db) =
        .ok (db.transactionLog E A S startDate endDate) ↔
      db.Timely E A S startDate endDate := by
  obtain ⟨i, hi⟩ := Option.isSome_iff_exists.mp ((h.index_isSome_iff hes).mpr hA)
  obtain ⟨s, hs⟩ := Option.isSome_iff_exists.mp ((h.index_isSome_iff hes).mpr hS)
  rw [h.log, length_postRecords] at hfuel
  have htail : ∀ r ∈ (db.transfersOf E A S).tail, ¬ r.data.isLoop := by
    intro r hr hback
    have hmem : r ∈ db.log E := List.mem_of_mem_filter (List.mem_of_mem_tail hr)
    rw [h.transfersOf_eq hi hs] at hr
    rw [h.ledger] at hi hs
    exact hes.not_isIssue hi hs r hr (hloop r hmem hback)
  have hall : visited (db.transfersOf E A S).reverse = (db.transfersOf E A S).reverse := by
    rw [visited_eq_iff, List.dropLast_reverse]
    simpa using htail
  have hrun := h.transferHistory_runs (hes.mono Begun.timed) hi hs hfuel (by
    intro r hr hundated
    rw [hall, List.mem_reverse, h.transfersOf_eq hi hs] at hr
    exact absurd hundated (hes.not_undated (List.mem_of_mem_filter hr)))
  rw [hall] at hrun
  rw [DbM.getTransactionLog_of_history hrun, Database.transactionLog, Database.Timely,
    Except.ok.injEq]
  have hqp : ∀ t : Tran, Tran.inRange startDate endDate t → decide (startDate ≤ t.mTime) := by
    intro t ht
    rw [Tran.inRange, Bool.and_eq_true] at ht
    exact ht.1
  have hiff := Lib.filter_takeWhile_iff hqp
    ((db.transfersOf E A S).reverse.map (db.transferAt E))
  simp only [decide_eq_true_eq, UInt64.not_le] at hiff
  rw [← hiff]
  constructor
  · intro heq
    have hlen := congrArg List.length heq
    rw [List.length_map, List.length_map] at hlen
    exact ((List.takeWhile_sublist _).filter _).eq_of_length hlen
  · intro heq
    rw [heq]

end Filed

end Gpm
