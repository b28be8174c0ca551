import Gpm.StateDb.ContentsIdx
import Gpm.StateDb.Transfers

namespace Gpm

open Lib (Runs outcome)

namespace Tran

def balanceOf (account : Name) (t : Tran) : UInt64 :=
  if t.mFrom = account then t.mFromBal else t.mToBal

def issues (t : Tran) : Bool :=
  t.mFrom = t.mType && t.mTo = t.mType && t.mAmount = -1 && t.mFromBal = -1

def received (account : Name) (t : Tran) : ℕ := if t.mTo = account then t.mAmount.toNat else 0

def sent (account : Name) (t : Tran) : ℕ :=
  if t.issues then 0 else if t.mFrom = account then t.mAmount.toNat else 0

def latest (account : Name) : List Tran → ℕ
  | [] => 0
  | t :: _ => (t.balanceOf account).toNat

def Balanced (account : Name) : List Tran → Prop
  | [] => True
  | t :: ts =>
    (t.balanceOf account).toNat + t.sent account = latest account ts + t.received account ∧
      Balanced account ts

theorem not_issues {t : Tran} (h : t.mFrom ≠ t.mTo) : t.issues = false := by
  by_contra hissues
  simp only [issues, Bool.not_eq_false, Bool.and_eq_true, decide_eq_true_eq] at hissues
  exact h (hissues.1.1.1.trans hissues.1.1.2.symm)

section AddsUp

variable {account : Name} {t : Tran} {b : UInt64}

theorem adds_up_source (hne : t.mFrom ≠ t.mTo) (hA : t.mFrom = account)
    (hb : t.mFromBal = b - t.mAmount) (hle : t.mAmount ≤ b) :
    (t.balanceOf account).toNat + t.sent account = b.toNat + t.received account := by
  have hto : t.mTo ≠ account := fun h => hne (hA.trans h.symm)
  rw [balanceOf, sent, received, not_issues hne, if_pos hA, if_neg Bool.false_ne_true, if_pos hA,
    if_neg hto, hb, UInt64.toNat_sub_of_le _ _ hle]
  exact Nat.sub_add_cancel hle

theorem adds_up_destination (hne : t.mFrom ≠ t.mTo) (hA : t.mTo = account)
    (hb : t.mToBal = b + t.mAmount) (hroom : b.toNat + t.mAmount.toNat < 2 ^ 64) :
    (t.balanceOf account).toNat + t.sent account = b.toNat + t.received account := by
  have hfrom : t.mFrom ≠ account := fun h => hne (h.trans hA.symm)
  rw [balanceOf, sent, received, not_issues hne, if_neg hfrom, if_neg Bool.false_ne_true,
    if_neg hfrom, if_pos hA, hb, UInt64.toNat_add, Nat.mod_eq_of_lt hroom, Nat.add_zero]

end AddsUp

end Tran

structure HistoryComplete (E : Externals) (fuel : ℕ) (A S : Name) (db : Database) : Prop where
  visits : outcome (DbM.transferHistory E fuel A S db) =
    .ok ((db.transfersOf E A S).reverse.map (db.transferAt E))
  balanced : Tran.Balanced A ((db.transfersOf E A S).reverse.map (db.transferAt E))

def Begun (rs : List StateRecord) (pos : Index) : Prop :=
  ∃ hash time p, pos = some p ∧ (⟨.startTrx hash time, p⟩ : StateRecord) ∈ rs

theorem startsAllowed_begun : StartsAllowed Begun := fun h => ⟨_, _, _, rfl, h⟩

theorem startsAllowed_timed : StartsAllowed Timed := by
  rintro rs hash time p h _ ⟨rfl⟩
  exact ⟨hash, time, h⟩

theorem Begun.timed {rs : List StateRecord} {pos : Index} (h : Begun rs pos) : Timed rs pos := by
  obtain ⟨hash, time, p, rfl, hmem⟩ := h
  rintro _ ⟨rfl⟩
  exact ⟨hash, time, hmem⟩

variable {E : Externals} {allowed : List StateRecord → Index → Prop} {db : Database}
  {es fs : List Posting} {A S : Name} {i s fuel : ℕ}

namespace Journal

theorem mono {allowed' : List StateRecord → Index → Prop}
    (hsub : ∀ {rs pos}, allowed rs pos → allowed' rs pos) (h : Journal E allowed es) :
    Journal E allowed' es := by
  induction h with
  | nil => exact .nil
  | snoc _ he ih =>
    refine ih.snoc ?_
    cases he with
    | setKey n k => exact .setKey n k
    | startTrx hash time => exact .startTrx hash time
    | endBlock b gen => exact .endBlock b gen
    | issue hS hnull hpos => exact .issue hS hnull (hsub hpos)
    | transfer hA hB hS hle hpos => exact .transfer hA hB hS hle (hsub hpos)

theorem books (h : Journal E allowed es) :
    ∃ minted burnt, (Ledger.empty.posts E es).Books minted burnt := by
  induction h with
  | nil => exact ⟨_, _, Ledger.books_empty⟩
  | @snoc es e hes he ih =>
    obtain ⟨minted, burnt, hbooks⟩ := ih
    have hadm := he.admits hes.coherent
    rw [Ledger.posts_append, Ledger.posts_cons, Ledger.posts_nil]
    cases he with
    | setKey n k =>
      refine ⟨_, _, hbooks.post_of_accounts_nil hadm ?_⟩
      unfold Ledger.setKey
      cases (Ledger.empty.posts E es).index n <;> rfl
    | startTrx => exact ⟨_, _, hbooks.post_of_accounts_nil hadm rfl⟩
    | endBlock => exact ⟨_, _, hbooks.post_of_accounts_nil hadm rfl⟩
    | issue hS hnull _ =>
      obtain ⟨i, hi⟩ := Option.isSome_iff_exists.mp hS
      exact ⟨_, _, hbooks.post_issueRecord hi hnull _⟩
    | transfer hF hD hS hle _ =>
      obtain ⟨i, hi⟩ := Option.isSome_iff_exists.mp hF
      obtain ⟨j, hj⟩ := Option.isSome_iff_exists.mp hD
      obtain ⟨k, hk⟩ := Option.isSome_iff_exists.mp hS
      exact ⟨_, _, hbooks.post_transferRecord hi hj hk hle _⟩

theorem not_undated (h : Journal E Begun es) {r : StateRecord} (hr : r ∈ postRecords E 0 es) :
    ¬ r.data.isUndated := by
  obtain ⟨e, he, hrecord⟩ := mem_of_mem_postRecords hr
  rw [← hrecord]
  clear hr hrecord
  induction h with
  | nil => cases he
  | @snoc es e' hes hentry ih =>
    obtain he | he := List.mem_append.mp he
    · exact ih he
    · rw [List.mem_singleton.mp he]
      cases hentry with
      | setKey n k =>
        unfold Ledger.setKey
        cases (Ledger.empty.posts E es).index n <;> simp [Record.isUndated]
      | startTrx => simp [Record.isUndated]
      | endBlock => simp [Gpm.endBlock, Record.isUndated]
      | issue _ _ hpos =>
        obtain ⟨_, _, p, rfl, -⟩ := hpos
        simp [Ledger.issueRecord, Record.isUndated]
      | transfer _ _ _ _ hpos =>
        obtain ⟨_, _, p, rfl, -⟩ := hpos
        simp [Ledger.transferRecord, Record.isUndated]

end Journal

namespace Filed

theorem transfersOf_eq (h : Filed E db es) (hA : (db.ledger E).index A = some i)
    (hS : (db.ledger E).index S = some s) :
    db.transfersOf E A S = accountRecords E es ⟨some i, some s⟩ := by
  rw [Database.transfersOf, accountRecords, hA, hS, h.log]

variable (fuel) in
theorem transferHistory_eq (h : Filed E db es) (hA : (db.ledger E).index A = some i)
    (hS : (db.ledger E).index S = some s) :
    ∃ q, DbM.transferHistory E fuel A S db = Tran.follow E fuel A fuel
      { mIndex := ((Ledger.empty.posts E es).account ⟨some i, some s⟩).map Prod.snd }
        (db.moved q) := by
  obtain ⟨db₁, hrun₁, q₁, rfl⟩ := DbM.getNameIndex_runs h.indexed A
  obtain ⟨db₂, hrun₂, q₂, rfl⟩ := DbM.getNameIndex_runs (h.moved q₁).indexed S
  simp only [Database.posts_nil, Database.moved_moved, Database.ledger_moved, hA,
    hS] at hrun₁ hrun₂
  refine ⟨q₂, ?_⟩
  have hlast := h.getLastTransferIndex_eq ⟨some i, some s⟩
  rw [DbM.transferHistory, DbM.getLastTransfer, bind_assoc, Lib.bind_ok hrun₁, bind_assoc,
    Lib.bind_ok hrun₂, bind_assoc, Lib.get_bind, Database.getLastTransferIndex_moved, hlast,
    bind_assoc]
  simp only [pure_bind]
  rfl

theorem transferHistory_runs (h : Filed E db es) (hes : Journal E Timed es)
    (hA : (db.ledger E).index A = some i) (hS : (db.ledger E).index S = some s)
    (hfuel : es.length < fuel)
    (hread : ∀ r ∈ visited (db.transfersOf E A S).reverse, r.data.isUndated →
      ¬ db.Misreads) :
    outcome (DbM.transferHistory E fuel A S db) =
      .ok ((visited (db.transfersOf E A S).reverse).map (db.transferAt E)) := by
  obtain ⟨fuel, rfl⟩ : ∃ fuel', fuel = fuel' + 1 := ⟨fuel - 1, by omega⟩
  obtain ⟨q, hq⟩ := h.transferHistory_eq (fuel + 1) hA hS
  rw [h.transfersOf_eq hA hS] at hread ⊢
  have hfiled : Filed E (db.moved q) (es ++ []) := by
    rw [List.append_nil]
    exact h.moved q
  rw [← List.append_nil es] at hes
  have hrun := hfiled.follow_runs fuel hes (by simpa using hA) (by simpa using hS) hfuel
    (t := { mIndex := ((Ledger.empty.posts E es).account ⟨some i, some s⟩).map Prod.snd }) rfl
    (by simpa using hread)
  rw [hq, hrun.outcome_eq, funext (Database.transferAt_moved q)]

theorem transferHistory_error (h : Filed E db es) (hes : Journal E Timed es)
    (hA : (db.ledger E).index A = some i) (hS : (db.ledger E).index S = some s)
    (hfuel : es.length < fuel) (hmisreads : db.Misreads)
    (hread : ∃ r ∈ visited (db.transfersOf E A S).reverse, r.data.isUndated) :
    outcome (DbM.transferHistory E fuel A S db) = .error .outOfBounds := by
  obtain ⟨fuel, rfl⟩ : ∃ fuel', fuel = fuel' + 1 := ⟨fuel - 1, by omega⟩
  obtain ⟨q, hq⟩ := h.transferHistory_eq (fuel + 1) hA hS
  rw [h.transfersOf_eq hA hS] at hread
  have hfiled : Filed E (db.moved q) (es ++ []) := by
    rw [List.append_nil]
    exact h.moved q
  rw [← List.append_nil es] at hes
  rw [hq]
  exact hfiled.follow_error hes (by simpa using hA) (by simpa using hS) hfuel
    (t := { mIndex := ((Ledger.empty.posts E es).account ⟨some i, some s⟩).map Prod.snd }) rfl
    (by simpa using hmisreads) hread

theorem balanceOf_shown (h : Filed E db es) (hes : Journal E allowed es)
    (hA : (db.ledger E).index A = some i) {tl : TransferLog} {p : ℕ}
    (hr : ⟨.transferLog tl, p⟩ ∈ postRecords E 0 es)
    (hk : ⟨some i, some s⟩ ∈ (Record.transferLog tl).accounts) :
    (Record.transferLog tl).balanceOf ⟨some i, some s⟩ =
      some ((db.shown E p tl).balanceOf A) := by
  obtain ⟨-, hfrom, -⟩ := h.shown_names hes hA hr
  simp only [Record.accounts, List.mem_cons, AccountKey.mk.injEq, List.not_mem_nil, or_false] at hk
  have htype : tl.typeName = some s := hk.elim (fun h => h.2.symm) fun h => h.2.symm
  rw [Record.balanceOf, if_neg (not_not.mpr htype), Tran.balanceOf]
  by_cases hout : tl.fromName = some i
  · rw [if_pos hout, if_pos (hfrom.mpr hout).symm]
    rfl
  · have hin : tl.toName = some i := hk.elim (fun h => absurd h.1.symm hout) fun h => h.1.symm
    rw [if_neg hout, if_pos hin, if_neg fun heq => hout (hfrom.mp heq.symm)]
    rfl

theorem latest_eq (h : Filed E db (es ++ fs)) (hes : Journal E allowed (es ++ fs))
    (hA : (db.ledger E).index A = some i) :
    Tran.latest A ((accountRecords E es ⟨some i, some s⟩).reverse.map (db.transferAt E)) =
      ((Ledger.empty.posts E es).account ⟨some i, some s⟩).elim 0 fun x => x.1.toNat := by
  induction es using List.reverseRecOn generalizing fs with
  | nil => rfl
  | append_singleton es e ih =>
    rw [List.append_assoc] at h hes
    rw [Ledger.accountRecords_concat, Ledger.posts_append, Ledger.posts_cons, Ledger.posts_nil]
    simp only [Ledger.post]
    by_cases hk : ⟨some i, some s⟩ ∈ e.record.accounts
    · obtain ⟨tl, hrecord⟩ := Record.exists_transferLog hk
      have hr := Ledger.mem_postRecords_concat (E := E) es fs hrecord
      rw [if_pos hk, if_pos hk, List.reverse_concat, List.map_cons, Tran.latest, hrecord,
        h.balanceOf_shown hes hA hr (by rwa [hrecord] at hk)]
      rfl
    · rw [if_neg hk, if_neg hk, List.append_nil]
      exact ih h hes

end Filed

theorem Ledger.account_eq_none {a : AccountKey} (h : accountRecords E es a = []) :
    (empty.posts E es).account a = none := by
  rw [← Option.map_eq_none_iff (f := Prod.snd)]
  induction es using List.reverseRecOn with
  | nil => rfl
  | append_singleton es e ih =>
    rw [position_concat]
    rw [accountRecords_concat] at h
    by_cases hk : a ∈ e.record.accounts
    · rw [if_pos hk] at h
      simp at h
    · rw [if_neg hk, List.append_nil] at h
      rw [if_neg hk]
      exact ih h

theorem Ledger.balance_of_null {v : Ledger} (h : (v.balance A S).2 = none) :
    (v.balance A S).1 = 0 := by
  unfold balance at h ⊢
  cases hacc : v.account ⟨v.index A, v.index S⟩ with
  | none => rfl
  | some x =>
    rw [hacc] at h
    cases h

theorem Ledger.balance_fst {v : Ledger} (hA : v.index A = some i) (hS : v.index S = some s) :
    (v.balance A S).1.toNat = (v.account ⟨some i, some s⟩).elim 0 fun x => x.1.toNat := by
  rw [Ledger.balance, hA, hS]
  cases v.account ⟨some i, some s⟩ <;> rfl

namespace Filed

variable {e : Posting} {tl : TransferLog}

theorem nameOf_append (h : Filed E db (es ++ fs)) (hes : Journal E allowed (es ++ fs)) {n : Name}
    {j : ℕ} (hj : (Ledger.empty.posts E es).index n = some j) : db.nameOf E (some j) = n := by
  apply h.nameOf_eq hes
  rw [h.ledger]
  exact hes.index_append hj

theorem balanced_shown (h : Filed E db (es ++ ([e] ++ fs)))
    (hes : Journal E allowed (es ++ ([e] ++ fs)))
    (hA : (db.ledger E).index A = some i) (hS : (db.ledger E).index S = some s)
    (hk : ⟨some i, some s⟩ ∈ e.record.accounts) (hrecord : e.record = .transferLog tl)
    (hloop : e.record.isLoop → (Ledger.empty.posts E es).account ⟨some i, some s⟩ = none) :
    ((db.shown E (Ledger.empty.posts E es).size tl).balanceOf A).toNat +
        (db.shown E (Ledger.empty.posts E es).size tl).sent A =
      (((Ledger.empty.posts E es).account ⟨some i, some s⟩).elim 0 fun x => x.1.toNat) +
        (db.shown E (Ledger.empty.posts E es).size tl).received A := by
  have hname : ∀ {n : Name} {j : ℕ}, (Ledger.empty.posts E es).index n = some j →
      db.nameOf E (some j) = n := fun hj => h.nameOf_append hes hj
  obtain ⟨minted, burnt, hbooks⟩ := hes.of_append.books
  rw [h.ledger] at hA hS
  obtain ⟨hA', hS', hmoves⟩ := hes.moves_of_mem hA hS hk
  rw [← Ledger.balance_fst hA' hS']
  cases hmoves with
  | @issue pos heq hnull hissue =>
    subst heq
    have htl := hrecord.symm.trans hissue
    rw [Ledger.issueRecord, Record.transferLog.injEq] at htl
    subst htl
    rw [Ledger.balance_of_null hnull]
    simp [Tran.balanceOf, Tran.sent, Tran.received, Tran.issues, Database.shown, hA', hname hA']
  | @transfer F D j k amnt pos hF hD hself hle htransfer =>
    have htl := hrecord.symm.trans htransfer
    rw [Ledger.transferRecord, Record.transferLog.injEq] at htl
    subst htl
    by_cases hback : F = D
    · subst hback
      obtain rfl : A = F := hself.elim id id
      have hloop' : e.record.isLoop := by
        rw [hrecord]
        exact decide_eq_true rfl
      have hnull : ((Ledger.empty.posts E es).balance A S).2 = none := by
        rw [Ledger.balance_snd, hA', hS', hloop hloop']
        rfl
      rw [Ledger.balance_of_null hnull] at hle
      have hzero : amnt = 0 := UInt64.le_zero_iff.mp hle
      simp [Tran.balanceOf, Tran.sent, Tran.received, Database.shown, hA', hname hA', hzero,
        Ledger.balance_of_null hnull]
    · have hfrom : db.nameOf E ((Ledger.empty.posts E es).index F) = F := by
        rw [hF]
        exact hname hF
      have hto : db.nameOf E ((Ledger.empty.posts E es).index D) = D := by
        rw [hD]
        exact hname hD
      have hne : db.nameOf E ((Ledger.empty.posts E es).index F) ≠
          db.nameOf E ((Ledger.empty.posts E es).index D) := by rwa [hfrom, hto]
      obtain rfl | rfl := hself
      · exact Tran.adds_up_source hne hfrom rfl hle
      · exact Tran.adds_up_destination hne hto rfl (hbooks.room hF hD hle hback)

theorem balanced (h : Filed E db (es ++ fs)) (hes : Journal E allowed (es ++ fs))
    (hA : (db.ledger E).index A = some i) (hS : (db.ledger E).index S = some s)
    (hfirst : ∀ r ∈ (accountRecords E es ⟨some i, some s⟩).tail, ¬ r.data.isLoop) :
    Tran.Balanced A ((accountRecords E es ⟨some i, some s⟩).reverse.map (db.transferAt E)) := by
  induction es using List.reverseRecOn generalizing fs with
  | nil => trivial
  | append_singleton es e ih =>
    rw [List.append_assoc] at h hes
    rw [Ledger.accountRecords_concat] at hfirst ⊢
    by_cases hk : ⟨some i, some s⟩ ∈ e.record.accounts
    · obtain ⟨tl, hrecord⟩ := Record.exists_transferLog hk
      rw [if_pos hk] at hfirst ⊢
      have hat : db.transferAt E ⟨e.record, (Ledger.empty.posts E es).size⟩ =
          db.shown E (Ledger.empty.posts E es).size tl := by
        rw [Database.transferAt, hrecord]
      rw [List.reverse_concat, List.map_cons, hat, Tran.Balanced, h.latest_eq hes hA]
      by_cases hnil : accountRecords E es ⟨some i, some s⟩ = []
      · refine ⟨h.balanced_shown hes hA hS hk hrecord fun _ => Ledger.account_eq_none hnil, ?_⟩
        rw [hnil]
        trivial
      · rw [List.tail_append_of_ne_nil hnil, List.forall_mem_append, List.forall_mem_singleton]
          at hfirst
        exact ⟨h.balanced_shown hes hA hS hk hrecord fun hloop => absurd hloop hfirst.2,
          ih h hes hfirst.1⟩
    · rw [if_neg hk, List.append_nil] at hfirst ⊢
      exact ih h hes hfirst

end Filed

/-- The walk over the transfers of an account is complete exactly where, but for the first, none
of them goes back to where it comes from. -/
theorem transferHistory_complete_iff (h : Traded E Begun db) (hA : A ∈ db.names)
    (hS : S ∈ db.names) (hfuel : (db.log E).length < fuel) :
    HistoryComplete E fuel A S db ↔ ∀ r ∈ (db.transfersOf E A S).tail, ¬ r.data.isLoop := by
  obtain ⟨es, hes, hjournal⟩ := h.journal startsAllowed_begun
  have htimed : Journal E Timed es := hjournal.mono Begun.timed
  rw [hes.log, length_postRecords] at hfuel
  obtain ⟨i, hi⟩ := Option.isSome_iff_exists.mp ((hes.index_isSome_iff hjournal).mpr hA)
  obtain ⟨s, hs⟩ := Option.isSome_iff_exists.mp ((hes.index_isSome_iff hjournal).mpr hS)
  have hdated : ∀ r ∈ visited (db.transfersOf E A S).reverse, r.data.isUndated →
      ¬ db.Misreads := by
    intro r hr hundated
    have hmem := (visited_leading _).mem hr
    rw [List.mem_reverse, hes.transfersOf_eq hi hs] at hmem
    exact absurd hundated (hjournal.not_undated (List.mem_of_mem_filter hmem))
  have hrun := hes.transferHistory_runs htimed hi hs hfuel hdated
  have hall : (∀ r ∈ (db.transfersOf E A S).tail, ¬ r.data.isLoop) ↔
      visited (db.transfersOf E A S).reverse = (db.transfersOf E A S).reverse := by
    rw [visited_eq_iff, List.dropLast_reverse]
    simp only [List.mem_reverse]
  constructor
  · rintro ⟨hvisits, -⟩
    rw [hrun, Except.ok.injEq] at hvisits
    have hlen := congrArg List.length hvisits
    rw [List.length_map, List.length_map] at hlen
    exact hall.mpr ((visited_leading _).eq_of_length hlen)
  · intro hfirst
    refine ⟨by rw [hrun, hall.mp hfirst], ?_⟩
    rw [hes.transfersOf_eq hi hs] at hfirst ⊢
    rw [← List.append_nil es] at hes hjournal
    exact hes.balanced hjournal hi hs hfirst

theorem Database.Reachable.traded (h : Reachable E db) : Traded E allowed db := by
  induction h with
  | blank h => exact .blank h
  | @apply db db' trx genName b _ happ ih =>
    have hstep : Update.step E db (.apply trx genName) = db' := by
      rw [Update.step, Update.call, Lib.finalState_discard, happ]
      rfl
    rw [← hstep]
    exact ih.update (.apply trx genName) trivial
  | overlay _ ih => exact ih.overlay
  | merge _ ih => exact ih.settle .merge

theorem reachable_selfPayment : Database.Reachable (Wire.externals fun _ => 0) (paidState 5) :=
  .apply (.blank Database.blank_fresh) (Lib.eq_ok_of_returned (a := true) (by decide +kernel))

theorem transferHistory_selfPayment :
    ¬ ∀ (db : Database) (A S : Name) (fuel : ℕ),
      Database.Reachable (Wire.externals fun _ => 0) db → A ∈ db.names → S ∈ db.names →
        (db.log (Wire.externals fun _ => 0)).length < fuel →
          HistoryComplete (Wire.externals fun _ => 0) fuel A S db := by
  intro h
  have hvisits := (h (paidState 5) [1] [1] 9 reachable_selfPayment (by decide +kernel)
    (by decide +kernel) (by decide +kernel)).visits
  have hone : (outcome (DbM.transferHistory (Wire.externals fun _ => 0) 9 [1] [1]
      (paidState 5))).toOption.map List.length = some 1 := by decide +kernel
  have htwo : ((paidState 5).transfersOf (Wire.externals fun _ => 0) [1] [1]).length = 2 := by
    decide +kernel
  rw [hvisits, Except.toOption, Option.map_some, List.length_map, List.length_reverse, htwo] at hone
  cases hone

theorem transferHistory_complete_iff_selfPayment :
    HistoryComplete (Wire.externals fun _ => 0) 9 [1] [1] (paidState 5) ↔
      ∀ r ∈ ((paidState 5).transfersOf (Wire.externals fun _ => 0) [1] [1]).tail,
        ¬ r.data.isLoop :=
  transferHistory_complete_iff reachable_selfPayment.traded (by decide +kernel) (by decide +kernel)
    (by decide +kernel)

/-- The walk stays inside the log exactly where no record that it visits lacks a transaction, or
nothing is taken from the memory of a `state_database`. -/
theorem transferHistory_inside_iff (h : Traded E Timed db) (hA : A ∈ db.names)
    (hS : S ∈ db.names)
    (hfuel : (db.log E).length < fuel) :
    outcome (DbM.transferHistory E fuel A S db) ≠ .error .outOfBounds ↔
      (db.Misreads → ∀ r ∈ visited (db.transfersOf E A S).reverse, ¬ r.data.isUndated) := by
  obtain ⟨es, hes, hjournal⟩ := h.journal startsAllowed_timed
  rw [hes.log, length_postRecords] at hfuel
  obtain ⟨i, hi⟩ := Option.isSome_iff_exists.mp ((hes.index_isSome_iff hjournal).mpr hA)
  obtain ⟨s, hs⟩ := Option.isSome_iff_exists.mp ((hes.index_isSome_iff hjournal).mpr hS)
  constructor
  · intro hinside hmisreads r hr hundated
    exact hinside (hes.transferHistory_error hjournal hi hs hfuel hmisreads ⟨r, hr, hundated⟩)
  · intro hread
    rw [hes.transferHistory_runs hjournal hi hs hfuel fun r hr hundated hmisreads =>
      hread hmisreads r hr hundated]
    simp

theorem traded_paid_timed : Traded (Wire.externals fun _ => 0) Timed paid := by
  have hnone : ∀ rs, Timed rs none := fun _ _ h => by cases h
  refine .update (.transferBalance [1] [2] [1] 5 none) (.update (.issue [1] none)
    (.update (.setPublicKey [2] 8) (.update (.setPublicKey [1] 7) (.blank ?_) trivial) trivial)
    ⟨?_, hnone _⟩) ⟨?_, ?_, ?_, hnone _⟩
  · exact ⟨rfl, rfl, rfl, rfl, rfl, rfl⟩
  all_goals decide +kernel

theorem transferHistory_paid :
    ¬ ∀ (db : Database) (A S : Name) (fuel : ℕ),
      Traded (Wire.externals fun _ => 0) Timed db →
      A ∈ db.names → S ∈ db.names → (db.log (Wire.externals fun _ => 0)).length < fuel →
        outcome (DbM.transferHistory (Wire.externals fun _ => 0) fuel A S db) ≠
          .error .outOfBounds := by
  intro h
  have hinside := h paid [2] [1] 9 traded_paid_timed (by decide +kernel) (by decide +kernel)
    (by decide +kernel)
  apply hinside
  have hnone : (outcome (DbM.transferHistory (Wire.externals fun _ => 0) 9 [2] [1] paid)) =
      .error .outOfBounds := by decide +kernel
  exact hnone

theorem transferHistory_inside_iff_paid :
    outcome (DbM.transferHistory (Wire.externals fun _ => 0) 9 [2] [1] paid) ≠
        .error .outOfBounds ↔
      (paid.Misreads → ∀ r ∈ visited (paid.transfersOf (Wire.externals fun _ => 0)
        [2] [1]).reverse,
        ¬ r.data.isUndated) :=
  transferHistory_inside_iff traded_paid_timed (by decide +kernel) (by decide +kernel)
    (by decide +kernel)

end Gpm
