import Gpm.StateDb.Contents

namespace Gpm

open Lib (Runs outcome)

/-- `abstract_state_database::transfer`; what it iterates over is the database at hand. -/
structure Tran where
  mIndex : Index := none
  mFrom : Name := []
  mTo : Name := []
  mType : Name := []
  mPrevFrom : Index := none
  mPrevTo : Index := none
  mAmount : UInt64 := 0
  mFromBal : UInt64 := 0
  mToBal : UInt64 := 0
  mTime : UInt64 := 0
  deriving DecidableEq

namespace Tran

def timeOf : Option StateRecord → UInt64
  | none => -1
  | some ⟨.startTrx _ utcTime, _⟩ => utcTime
  | some _ => 1000000 * 60 * 60 * 24

variable (E : Externals) (fuel : ℕ)

def update (t : Tran) : DbM (Bool × Tran) :=
  match t.mIndex with
  | none => return (false, t)
  | some i => do
    match ← DbM.getRecord E (some i) with
    | some (⟨.transferLog tl, _⟩, _) =>
      let mFrom ← DbM.getNameForIndex E fuel tl.fromName
      let mTo ← DbM.getNameForIndex E fuel tl.toName
      let mType ← DbM.getNameForIndex E fuel tl.typeName
      let trxr ← DbM.getRecord E tl.trxIdx
      return (true,
        { t with
          mFrom, mTo, mType
          mFromBal := tl.newFromBal
          mToBal := tl.newToBal
          mAmount := tl.amount
          mPrevFrom := tl.lastFromTrx
          mPrevTo := tl.lastToTrx
          mTime := timeOf (trxr.map Prod.fst) })
    | _ => return (false, t)

def previous (account : Name) (t : Tran) : DbM (Bool × Tran) :=
  if t.mTo = t.mFrom then return (false, { t with mIndex := none })
  else if account = t.mTo then
    if (Index.cmp t.mPrevTo t.mIndex).isLT then update E fuel { t with mIndex := t.mPrevTo }
    else return (false, { t with mIndex := none })
  else if account = t.mFrom then
    if (Index.cmp t.mPrevFrom t.mIndex).isLT then update E fuel { t with mIndex := t.mPrevFrom }
    else return (false, { t with mIndex := none })
  else return (false, { t with mIndex := none })

def walk (account : Name) : ℕ → Tran → DbM (List Tran)
  | 0, _ => throw .diverges
  | n + 1, t =>
    if t.mIndex = none then return []
    else do
      let r ← previous E fuel account t
      let ts ← walk account n r.2
      return t :: ts

def follow (account : Name) (n : ℕ) (t : Tran) : DbM (List Tran) := do
  let r ← update E fuel t
  walk E fuel account n r.2

end Tran

namespace DbM

variable (E : Externals) (fuel : ℕ)

def getLastTransfer (account type : Name) : DbM Tran := do
  let a ← getNameIndex E account
  let s ← getNameIndex E type
  let db ← get
  let r ← Tran.update E fuel { mIndex := db.getLastTransferIndex ⟨a, s⟩ }
  return r.2

def transferHistory (account type : Name) : DbM (List Tran) := do
  let t ← getLastTransfer E fuel account type
  t.walk E fuel account fuel

end DbM

namespace Record

def isLoop : Record → Bool
  | .transferLog tl => tl.fromName = tl.toName
  | _ => false

def isUndated : Record → Bool
  | .transferLog tl => tl.trxIdx = none
  | _ => false

end Record

namespace Database

variable (E : Externals)

def transfersOf (account type : Name) (db : Database) : List StateRecord :=
  (db.log E).filter fun r =>
    ⟨(db.ledger E).index account, (db.ledger E).index type⟩ ∈ r.data.accounts

def shown (db : Database) (p : ℕ) (tl : TransferLog) : Tran where
  mIndex := some p
  mFrom := db.nameOf E tl.fromName
  mTo := db.nameOf E tl.toName
  mType := db.nameOf E tl.typeName
  mPrevFrom := tl.lastFromTrx
  mPrevTo := tl.lastToTrx
  mAmount := tl.amount
  mFromBal := tl.newFromBal
  mToBal := tl.newToBal
  mTime := Tran.timeOf (tl.trxIdx.bind fun i => db.recordAt E.raw i)

def transferAt (db : Database) (r : StateRecord) : Tran :=
  match r.data with
  | .transferLog tl => db.shown E r.previous tl
  | _ => {}

def Misreads : Database → Prop
  | .file d => d.localChanges ≠ []
  | _ => False

end Database

def visited : List StateRecord → List StateRecord
  | [] => []
  | r :: rs => if r.data.isLoop then [r] else r :: visited rs

def accountRecords (E : Externals) (es : List Posting) (a : AccountKey) : List StateRecord :=
  (postRecords E 0 es).filter fun r => a ∈ r.data.accounts

def Timed (rs : List StateRecord) (pos : Index) : Prop :=
  ∀ p, pos = some p → ∃ hash time, (⟨.startTrx hash time, p⟩ : StateRecord) ∈ rs

section Visited

variable {r : StateRecord} {rs : List StateRecord}

theorem visited_leading (rs : List StateRecord) : visited rs <+: rs := by
  induction rs with
  | nil => exact List.prefix_rfl
  | cons r rs ih =>
    rw [visited]
    split
    · exact List.prefix_append [r] rs
    · exact List.prefix_cons_inj r |>.mpr ih

theorem visited_eq_iff : visited rs = rs ↔ ∀ r ∈ rs.dropLast, ¬ r.data.isLoop := by
  induction rs with
  | nil => simp [visited]
  | cons r rs ih =>
    rw [visited]
    cases rs with
    | nil => simp [visited]
    | cons r' rs =>
      rw [List.dropLast_cons_cons, List.forall_mem_cons, ← ih]
      split
      · rename_i hloop
        simp [hloop]
      · rename_i hloop
        simp [hloop]

end Visited

variable {E : Externals} {allowed : List StateRecord → Index → Prop} {db : Database}
  {es fs : List Posting} {fuel : ℕ}

theorem mem_of_mem_postRecords {size : ℕ} {r : StateRecord} (hr : r ∈ postRecords E size es) :
    ∃ e ∈ es, e.record = r.data := by
  have hdata : (postRecords E size es).map StateRecord.data = es.map Posting.record :=
    map_data_postRecords size
  have hmem : r.data ∈ (postRecords E size es).map StateRecord.data := List.mem_map_of_mem hr
  rwa [hdata, List.mem_map] at hmem

theorem Timed.mono {rs rs' : List StateRecord} {pos : Index} (h : Timed rs pos)
    (hsub : ∀ r ∈ rs, r ∈ rs') : Timed rs' pos := by
  intro p hp
  obtain ⟨hash, time, hmem⟩ := h p hp
  exact ⟨hash, time, hsub _ hmem⟩

theorem Journal.timed (h : Journal E Timed es) {tl : TransferLog} {p : ℕ}
    (hr : ⟨.transferLog tl, p⟩ ∈ postRecords E 0 es) :
    Timed (postRecords E 0 es) tl.trxIdx := by
  induction h with
  | nil => cases hr
  | @snoc es e hes he ih =>
    have hsub : ∀ r ∈ postRecords E 0 es, r ∈ postRecords E 0 (es ++ [e]) := by
      intro r hr
      rw [Ledger.postRecords_concat]
      exact List.mem_append_left _ hr
    rw [Ledger.postRecords_concat, List.mem_append, List.mem_singleton] at hr
    obtain hr | hr := hr
    · exact (ih hr).mono hsub
    · have hrecord : e.record = .transferLog tl := (congrArg StateRecord.data hr).symm
      cases he with
      | setKey n k =>
        unfold Ledger.setKey at hrecord
        cases hi : (Ledger.empty.posts E es).index n <;> simp [hi] at hrecord
      | startTrx => cases hrecord
      | endBlock => cases hrecord
      | issue _ _ hpos =>
        cases hrecord
        exact hpos.mono hsub
      | transfer _ _ _ _ hpos =>
        cases hrecord
        exact hpos.mono hsub

namespace Database

theorem getRecord_none (h : ¬ db.Misreads) : DbM.getRecord E none db = .ok none db := by
  cases db with
  | null => rfl
  | file d =>
    have hempty : d.localChanges = [] := not_not.mp h
    simp [DbM.getRecord, getRecord, StateDatabase.getRecord, hempty]
  | trx base l => rfl

theorem getRecord_none_error (h : db.Misreads) :
    DbM.getRecord E none db = .error .outOfBounds db := by
  cases db with
  | null => exact h.elim
  | file d =>
    have hfull : d.localChanges ≠ [] := h
    simp [DbM.getRecord, getRecord, StateDatabase.getRecord, hfull]
  | trx base l => exact h.elim

@[simp] theorem misreads_moved (p : ℕ) : (db.moved p).Misreads ↔ db.Misreads := by
  cases db <;> rfl

end Database

namespace Filed

variable {tl : TransferLog} {p : ℕ}

theorem names_of_transferLog (h : Filed E db es) (hes : Journal E allowed es)
    (hr : ⟨.transferLog tl, p⟩ ∈ postRecords E 0 es) :
    ∃ F D S i j k, (db.ledger E).index F = some i ∧ (db.ledger E).index D = some j ∧
      (db.ledger E).index S = some k ∧ tl.fromName = some i ∧ tl.toName = some j ∧
        tl.typeName = some k := by
  obtain ⟨e, he, hrecord⟩ := mem_of_mem_postRecords hr
  have hfrom : (⟨tl.fromName, tl.typeName⟩ : AccountKey) ∈ e.record.accounts := by
    simp [hrecord, Record.accounts]
  have hto : (⟨tl.toName, tl.typeName⟩ : AccountKey) ∈ e.record.accounts := by
    simp [hrecord, Record.accounts]
  obtain ⟨F, S, i, k, hF, hS, hkey⟩ := hes.names_of_accounts he hfrom
  obtain ⟨D, _, j, _, hD, -, hkey'⟩ := hes.names_of_accounts he hto
  rw [AccountKey.mk.injEq] at hkey hkey'
  rw [← h.ledger] at hF hD hS
  exact ⟨F, D, S, i, j, k, hF, hD, hS, hkey.1, hkey'.1, hkey.2⟩

variable (fuel) in
theorem update_eq (h : Filed E db es) (hes : Journal E allowed es)
    (hr : ⟨.transferLog tl, p⟩ ∈ postRecords E 0 es) {t : Tran} (ht : t.mIndex = some p) :
    ∃ q, Tran.update E (fuel + 1) t db =
      (DbM.getRecord E tl.trxIdx >>= fun trxr => pure (true,
        { db.shown E p tl with mTime := Tran.timeOf (trxr.map Prod.fst) })) (db.moved q) := by
  obtain ⟨F, D, S, i, j, k, hF, hD, hS, hi, hj, hk⟩ := h.names_of_transferLog hes hr
  obtain ⟨db₁, hrun₁, q₁, rfl⟩ := h.getRecord_runs hr
  obtain ⟨db₂, hrun₂, q₂, rfl⟩ :=
      (h.moved q₁).getNameForIndex_runs fuel (by simpa using hF)
  obtain ⟨db₃, hrun₃, q₃, rfl⟩ :=
      (h.moved q₂).getNameForIndex_runs fuel (by simpa using hD)
  obtain ⟨db₄, hrun₄, q₄, rfl⟩ :=
      (h.moved q₃).getNameForIndex_runs fuel (by simpa using hS)
  simp only [Database.posts_nil, Database.moved_moved] at hrun₁ hrun₂ hrun₃ hrun₄
  refine ⟨q₄, ?_⟩
  obtain ⟨mIndex, _, _, _, _, _, _, _, _, _⟩ := t
  cases ht
  unfold Tran.update
  simp only [Lib.bind_ok hrun₁, hi, hj, hk, Lib.bind_ok hrun₂, Lib.bind_ok hrun₃,
    Lib.bind_ok hrun₄]
  simp only [Database.shown, hi, hj, hk, h.nameOf_eq hes hF, h.nameOf_eq hes hD, h.nameOf_eq hes hS]

variable (fuel) in
theorem update_runs (h : Filed E db es) (hes : Journal E Timed es)
    (hr : ⟨.transferLog tl, p⟩ ∈ postRecords E 0 es) {t : Tran} (ht : t.mIndex = some p)
    (hread : tl.trxIdx = none → ¬ db.Misreads) :
    Runs (trace E) (Tran.update E (fuel + 1) t) db (true, db.shown E p tl) [] := by
  obtain ⟨q, hq⟩ := h.update_eq fuel hes hr ht
  cases hi : tl.trxIdx with
  | none =>
    have hreads : ¬ (db.moved q).Misreads := by simpa using hread hi
    have hnone := Database.getRecord_none (E := E) hreads
    rw [hi, Lib.bind_ok hnone] at hq
    refine ⟨db.moved q, hq.trans ?_, q, rfl⟩
    simp only [Database.shown, hi]
    rfl
  | some i =>
    obtain ⟨hash, time, hstart⟩ := hes.timed hr i hi
    obtain ⟨db', hrun, q', rfl⟩ := (h.moved q).getRecord_runs hstart
    rw [Database.moved_moved] at hrun
    have hat := (h.stands _ hstart).recordAt
    rw [hi, Lib.bind_ok hrun] at hq
    refine ⟨_, hq.trans ?_, q', rfl⟩
    simp only at hat
    simp only [Database.shown, hi, Option.bind_some, hat]
    rfl

theorem update_error (h : Filed E db es) (hes : Journal E allowed es)
    (hr : ⟨.transferLog tl, p⟩ ∈ postRecords E 0 es) {t : Tran} (ht : t.mIndex = some p)
    (hnone : tl.trxIdx = none) (hread : db.Misreads) :
    outcome (Tran.update E (fuel + 1) t db) = .error .outOfBounds := by
  obtain ⟨q, hq⟩ := h.update_eq fuel hes hr ht
  have hmoved : (db.moved q).Misreads := by simpa using hread
  have herror := Database.getRecord_none_error (E := E) hmoved
  rw [hnone] at hq
  rw [hq, Lib.bind_error herror]
  rfl

end Filed

theorem Journal.of_append (h : Journal E allowed (es ++ fs)) : Journal E allowed es := by
  induction fs using List.reverseRecOn with
  | nil => rwa [List.append_nil] at h
  | append_singleton fs e ih =>
    rw [← List.append_assoc] at h
    exact ih h.of_snoc.1

theorem Journal.index_append (h : Journal E allowed (es ++ fs)) {n : Name} {i : ℕ}
    (hi : (Ledger.empty.posts E es).index n = some i) :
    (Ledger.empty.posts E (es ++ fs)).index n = some i := by
  rw [Ledger.posts_append]
  exact (Ledger.editsAll_append.mp h.edits).2.index_posts hi

theorem Journal.Entry.moves {e : Posting} (h : Journal.Entry E allowed es e) {k : AccountKey}
    (hk : k ∈ e.record.accounts) :
    (∃ S i pos, (Ledger.empty.posts E es).index S = some i ∧
        ((Ledger.empty.posts E es).balance S S).2 = none ∧
        e.record = (Ledger.empty.posts E es).issueRecord S pos) ∨
      ∃ F D S i j s amnt pos, (Ledger.empty.posts E es).index F = some i ∧
        (Ledger.empty.posts E es).index D = some j ∧
        (Ledger.empty.posts E es).index S = some s ∧
        amnt ≤ ((Ledger.empty.posts E es).balance F S).1 ∧
        e.record = (Ledger.empty.posts E es).transferRecord F D S amnt pos := by
  cases h with
  | setKey n k' =>
    unfold Ledger.setKey at hk
    cases hi : (Ledger.empty.posts E es).index n <;> simp [hi, Record.accounts] at hk
  | startTrx hash time => simp [Record.accounts] at hk
  | endBlock b gen => simp [Gpm.endBlock, Record.accounts] at hk
  | issue hS hnull _ =>
    obtain ⟨i, hi⟩ := Option.isSome_iff_exists.mp hS
    exact Or.inl ⟨_, i, _, hi, hnull, rfl⟩
  | transfer hF hD hS hle _ =>
    obtain ⟨i, hi⟩ := Option.isSome_iff_exists.mp hF
    obtain ⟨j, hj⟩ := Option.isSome_iff_exists.mp hD
    obtain ⟨s, hs⟩ := Option.isSome_iff_exists.mp hS
    exact Or.inr ⟨_, _, _, i, j, s, _, _, hi, hj, hs, hle, rfl⟩

inductive MovesStock (v : Ledger) (A S : Name) (r : Record) : Prop
  | issue {pos : Index} : A = S → (v.balance A S).2 = none → r = v.issueRecord S pos →
    MovesStock v A S r
  | transfer {F D : Name} {j k : ℕ} {amnt : UInt64} {pos : Index} : v.index F = some j →
      v.index D = some k → A = F ∨ A = D → amnt ≤ (v.balance F S).1 →
      r = v.transferRecord F D S amnt pos → MovesStock v A S r

namespace Ledger

variable {v : Ledger}

theorem balance_snd (A S : Name) :
    (v.balance A S).2 = (v.account ⟨v.index A, v.index S⟩).map Prod.snd := by
  unfold balance
  cases v.account ⟨v.index A, v.index S⟩ <;> rfl

theorem position_lt (es : List Posting) {a : AccountKey} {x : UInt64 × ℕ}
    (h : (empty.posts E es).account a = some x) : x.2 < (empty.posts E es).size := by
  induction es using List.reverseRecOn with
  | nil => cases h
  | append_singleton es e ih =>
    rw [posts_append, posts_cons, posts_nil] at h ⊢
    have hlt := size_post_lt (E := E) (v := empty.posts E es) (e := e)
    simp only [post] at h
    split at h
    · obtain ⟨b, -, rfl⟩ := Option.map_eq_some_iff.mp h
      exact hlt
    · exact Nat.lt_trans (ih h) hlt

end Ledger

theorem Tran.update_back {t : Tran} {prev last : Index} {size : ℕ} (ht : t.mIndex = some size)
    (hlast : last = prev) (hlt : ∀ x, prev = some x → x < size) :
    (if (Index.cmp last t.mIndex).isLT then Tran.update E fuel { t with mIndex := last }
      else pure (false, { t with mIndex := none })) =
        Tran.update E fuel { t with mIndex := prev } := by
  rw [hlast]
  cases prev with
  | none =>
    rw [ht, Index.cmp_none, if_neg (by decide)]
    rfl
  | some x =>
    rw [ht, Index.cmp_some, if_pos]
    rw [Ordering.isLT_iff_eq_lt, Nat.compare_eq_lt]
    exact hlt x rfl

namespace Journal

variable {e : Posting} {A S : Name} {i s : ℕ}

theorem moves_of_mem (h : Journal E allowed (es ++ ([e] ++ fs)))
    (hA : (Ledger.empty.posts E (es ++ ([e] ++ fs))).index A = some i)
    (hS : (Ledger.empty.posts E (es ++ ([e] ++ fs))).index S = some s)
    (hk : ⟨some i, some s⟩ ∈ e.record.accounts) :
    (Ledger.empty.posts E es).index A = some i ∧ (Ledger.empty.posts E es).index S = some s ∧
      MovesStock (Ledger.empty.posts E es) A S e.record := by
  have hentry : Journal.Entry E allowed es e := by
    rw [← List.append_assoc] at h
    exact h.of_append.of_snoc.2
  have hsame : ∀ {m n : Name} {j : ℕ},
      (Ledger.empty.posts E (es ++ ([e] ++ fs))).index m = some j →
        (Ledger.empty.posts E es).index n = some j → m = n := fun hm hn =>
    h.coherent.index_inj hm (h.index_append hn)
  obtain ⟨T, j, pos, hT, hnull, hrecord⟩ | ⟨F, D, T, j, k, t, amnt, pos, hF, hD, hT,
      hle, hrecord⟩ :=
    hentry.moves hk
  · rw [hrecord] at hk
    simp only [Ledger.issueRecord, Record.accounts, hT, List.mem_cons, AccountKey.mk.injEq,
      Option.some.injEq, List.not_mem_nil, or_false, or_self] at hk
    obtain ⟨rfl, rfl⟩ := hk
    obtain rfl := hsame hA hT
    obtain rfl := hsame hS hT
    exact ⟨hT, hT, .issue rfl hnull hrecord⟩
  · rw [hrecord] at hk
    simp only [Ledger.transferRecord, Record.accounts, hF, hD, hT, List.mem_cons,
      AccountKey.mk.injEq, Option.some.injEq, List.not_mem_nil, or_false] at hk
    obtain ⟨rfl, rfl⟩ | ⟨rfl, rfl⟩ := hk
    · obtain rfl := hsame hA hF
      obtain rfl := hsame hS hT
      exact ⟨hF, hT, .transfer hF hD (Or.inl rfl) hle hrecord⟩
    · obtain rfl := hsame hA hD
      obtain rfl := hsame hS hT
      exact ⟨hD, hT, .transfer hF hD (Or.inr rfl) hle hrecord⟩

theorem last_eq (h : Journal E allowed (es ++ ([e] ++ fs)))
    (hA : (Ledger.empty.posts E (es ++ ([e] ++ fs))).index A = some i)
    (hS : (Ledger.empty.posts E (es ++ ([e] ++ fs))).index S = some s)
    (hk : ⟨some i, some s⟩ ∈ e.record.accounts) {tl : TransferLog}
    (hrecord : e.record = .transferLog tl) (hne : tl.fromName ≠ tl.toName) :
    (tl.fromName = some i →
        tl.lastFromTrx = ((Ledger.empty.posts E es).account ⟨some i, some s⟩).map Prod.snd) ∧
      (tl.toName = some i →
        tl.lastToTrx = ((Ledger.empty.posts E es).account ⟨some i, some s⟩).map Prod.snd) := by
  obtain ⟨-, hS', hmoves⟩ := h.moves_of_mem hA hS hk
  cases hmoves with
  | issue _ _ hissue =>
    have htl := hrecord.symm.trans hissue
    rw [Ledger.issueRecord, Record.transferLog.injEq] at htl
    rw [htl] at hne
    exact absurd rfl hne
  | transfer _ _ _ _ htransfer =>
    have htl := hrecord.symm.trans htransfer
    rw [Ledger.transferRecord, Record.transferLog.injEq] at htl
    rw [htl]
    simp only [Ledger.balance_snd, hS']
    constructor
    · intro hfrom
      rw [hfrom]
    · intro hto
      rw [hto]

end Journal

theorem Ledger.mem_postRecords_concat (es fs : List Posting) {e : Posting} {r : Record}
    (hrecord : e.record = r) :
    ⟨r, (empty.posts E es).size⟩ ∈ postRecords E 0 (es ++ ([e] ++ fs)) := by
  rw [← List.append_assoc, postRecords_append, postRecords_concat, ← hrecord]
  exact List.mem_append_left _ (List.mem_append_right _ (List.mem_singleton.mpr rfl))

namespace Filed

variable {e : Posting} {A S : Name} {i s p : ℕ} {tl : TransferLog}

theorem shown_names (h : Filed E db es) (hes : Journal E allowed es)
    (hA : (db.ledger E).index A = some i) (hr : ⟨.transferLog tl, p⟩ ∈ postRecords E 0 es) :
    ((db.shown E p tl).mTo = (db.shown E p tl).mFrom ↔ tl.fromName = tl.toName) ∧
      (A = (db.shown E p tl).mFrom ↔ tl.fromName = some i) ∧
      (A = (db.shown E p tl).mTo ↔ tl.toName = some i) := by
  obtain ⟨F, D, _, j, k, _, hF, hD, -, hj, hk, -⟩ := h.names_of_transferLog hes hr
  have hinj := fun {m n i} => (h.wellFormed hes).coherent.index_inj (m := m) (n := n) (i := i)
  have hfrom : (db.shown E p tl).mFrom = F := by
    rw [Database.shown, hj]
    exact h.nameOf_eq hes hF
  have hto : (db.shown E p tl).mTo = D := by
    rw [Database.shown, hk]
    exact h.nameOf_eq hes hD
  rw [hfrom, hto, hj, hk]
  refine ⟨⟨?_, ?_⟩, ⟨?_, ?_⟩, ⟨?_, ?_⟩⟩
  · rintro rfl
    rw [← hF, ← hD]
  · intro heq
    rw [heq] at hF
    exact hinj hD hF
  · rintro rfl
    rw [← hF, ← hA]
  · intro heq
    rw [heq] at hF
    exact hinj hA hF
  · rintro rfl
    rw [← hD, ← hA]
  · intro heq
    rw [heq] at hD
    exact hinj hA hD

variable (fuel) in
theorem previous_eq (h : Filed E db (es ++ ([e] ++ fs)))
    (hes : Journal E allowed (es ++ ([e] ++ fs)))
    (hA : (db.ledger E).index A = some i) (hS : (db.ledger E).index S = some s)
    (hk : ⟨some i, some s⟩ ∈ e.record.accounts) (hrecord : e.record = .transferLog tl) :
    Tran.previous E fuel A (db.shown E (Ledger.empty.posts E es).size tl) =
      Tran.update E fuel { db.shown E (Ledger.empty.posts E es).size tl with
        mIndex := if e.record.isLoop then none
          else ((Ledger.empty.posts E es).account ⟨some i, some s⟩).map Prod.snd } := by
  have hr := Ledger.mem_postRecords_concat (E := E) es fs hrecord
  obtain ⟨hloop, hfrom, hto⟩ := h.shown_names hes hA hr
  have hlt : ∀ x, ((Ledger.empty.posts E es).account ⟨some i, some s⟩).map Prod.snd =
      some x →
      x < (Ledger.empty.posts E es).size := by
    intro x hx
    obtain ⟨y, hy, rfl⟩ := Option.map_eq_some_iff.mp hx
    exact Ledger.position_lt es hy
  rw [Tran.previous, hrecord, Record.isLoop]
  simp only [hloop, hfrom, hto, decide_eq_true_eq]
  by_cases hback : tl.fromName = tl.toName
  · rw [if_pos hback, if_pos hback]
    rfl
  · rw [h.ledger] at hA hS
    obtain ⟨hlastFrom, hlastTo⟩ := hes.last_eq hA hS hk hrecord hback
    rw [if_neg hback, if_neg hback]
    by_cases hin : tl.toName = some i
    · have hprev : (db.shown E (Ledger.empty.posts E es).size tl).mPrevTo = _ := hlastTo hin
      rw [if_pos hin]
      exact Tran.update_back rfl hprev hlt
    · have hout : tl.fromName = some i := by
        rw [hrecord] at hk
        simp only [Record.accounts, List.mem_cons, AccountKey.mk.injEq, List.not_mem_nil,
          or_false] at hk
        obtain ⟨hout, -⟩ | ⟨hin', -⟩ := hk
        · exact hout.symm
        · exact absurd hin'.symm hin
      have hprev : (db.shown E (Ledger.empty.posts E es).size tl).mPrevFrom = _ := hlastFrom hout
      rw [if_neg hin, if_pos hout]
      exact Tran.update_back rfl hprev hlt

end Filed

namespace Ledger

variable {e : Posting} {a : AccountKey}

theorem position_concat :
    ((empty.posts E (es ++ [e])).account a).map Prod.snd =
      if a ∈ e.record.accounts then some (empty.posts E es).size
      else ((empty.posts E es).account a).map Prod.snd := by
  rw [posts_append, posts_cons, posts_nil]
  simp only [post]
  split
  · rename_i hmem
    obtain ⟨b, hb⟩ := Option.isSome_iff_exists.mp (Record.balanceOf_isSome hmem)
    rw [hb]
    rfl
  · rfl

theorem accountRecords_concat : accountRecords E (es ++ [e]) a = accountRecords E es a ++
    if a ∈ e.record.accounts then [⟨e.record, (empty.posts E es).size⟩] else [] := by
  rw [accountRecords, accountRecords, postRecords_concat, List.filter_append, List.filter_singleton]
  simp only [Bool.cond_eq_ite, decide_eq_true_iff]

end Ledger

namespace Tran

variable {A : Name} {n : ℕ} {t t' : Tran}

theorem follow_none (ht : t.mIndex = none) : follow E fuel A (n + 1) t = pure [] := by
  have hupdate : update E fuel t = pure (false, t) := by
    unfold update
    rw [ht]
  rw [follow, hupdate, pure_bind, walk, if_pos ht]

theorem follow_eq {db' : Database} {p : ℕ} {next : Tran}
    (hrun : update E fuel t db = .ok (true, t') db') (ht : t'.mIndex = some p)
    (hnext : previous E fuel A t' = update E fuel next) :
    follow E fuel A (n + 1) t db =
      (follow E fuel A n next >>= fun ts => pure (t' :: ts)) db' := by
  rw [follow, Lib.bind_ok hrun, walk, if_neg (by rw [ht]; exact Option.some_ne_none p),
    hnext, follow, bind_assoc]

end Tran

theorem Record.exists_transferLog {a : AccountKey} {r : Record} (h : a ∈ r.accounts) :
    ∃ tl, r = .transferLog tl := by
  cases r with
  | transferLog tl => exact ⟨tl, rfl⟩
  | _ => simp [accounts] at h

@[simp] theorem Database.shown_moved (q p : ℕ) (tl : TransferLog) :
    (db.moved q).shown E p tl = db.shown E p tl := by
  simp [shown]

@[simp] theorem Database.transferAt_moved (q : ℕ) (r : StateRecord) :
    (db.moved q).transferAt E r = db.transferAt E r := by
  unfold transferAt
  cases r.data <;> simp

namespace Filed

variable {A S : Name} {i s n : ℕ} {t : Tran}

variable (fuel) in
theorem follow_concat {e : Posting} {tl : TransferLog} (h : Filed E db (es ++ ([e] ++ fs)))
    (hes : Journal E Timed (es ++ ([e] ++ fs)))
    (hA : (db.ledger E).index A = some i) (hS : (db.ledger E).index S = some s)
    (hk : ⟨some i, some s⟩ ∈ e.record.accounts) (hrecord : e.record = .transferLog tl)
    (ht : t.mIndex = some (Ledger.empty.posts E es).size)
    (hread : tl.trxIdx = none → ¬ db.Misreads) :
    ∃ q, Tran.follow E (fuel + 1) A (n + 1) t db =
      (Tran.follow E (fuel + 1) A n { db.shown E (Ledger.empty.posts E es).size tl with
        mIndex := if e.record.isLoop then none
          else ((Ledger.empty.posts E es).account ⟨some i, some s⟩).map Prod.snd } >>= fun ts =>
            pure (db.transferAt E ⟨e.record, (Ledger.empty.posts E es).size⟩ :: ts))
              (db.moved q) := by
  have hr := Ledger.mem_postRecords_concat (E := E) es fs hrecord
  obtain ⟨db', hrun, q, rfl⟩ := h.update_runs fuel hes hr ht hread
  have hnext := h.previous_eq (fuel + 1) hes hA hS hk hrecord
  have hat : db.transferAt E ⟨e.record, (Ledger.empty.posts E es).size⟩ =
      db.shown E (Ledger.empty.posts E es).size tl := by
    rw [Database.transferAt, hrecord]
  rw [hat]
  exact ⟨q, Tran.follow_eq hrun rfl hnext⟩

variable (fuel) in
theorem follow_runs (h : Filed E db (es ++ fs)) (hes : Journal E Timed (es ++ fs))
    (hA : (db.ledger E).index A = some i) (hS : (db.ledger E).index S = some s)
    (hn : es.length < n)
    (ht : t.mIndex = ((Ledger.empty.posts E es).account ⟨some i, some s⟩).map Prod.snd)
    (hread : ∀ r ∈ visited (accountRecords E es ⟨some i, some s⟩).reverse,
      r.data.isUndated →
      ¬ db.Misreads) :
    Runs (trace E) (Tran.follow E (fuel + 1) A n t) db
      ((visited (accountRecords E es ⟨some i, some s⟩).reverse).map (db.transferAt E)) [] := by
  induction es using List.reverseRecOn generalizing db fs n t with
  | nil =>
    obtain ⟨n, rfl⟩ : ∃ n', n = n' + 1 := ⟨n - 1, by omega⟩
    rw [Tran.follow_none ht]
    exact Runs.pure
  | append_singleton es e ih =>
    rw [List.length_append, List.length_singleton] at hn
    rw [Ledger.position_concat] at ht
    rw [Ledger.accountRecords_concat] at hread ⊢
    rw [List.append_assoc] at h hes
    by_cases hk : ⟨some i, some s⟩ ∈ e.record.accounts
    · rw [if_pos hk] at ht
      rw [if_pos hk, List.reverse_concat] at hread ⊢
      obtain ⟨tl, hrecord⟩ := Record.exists_transferLog hk
      obtain ⟨n, rfl⟩ : ∃ n', n = n' + 2 := ⟨n - 2, by omega⟩
      have hfirst : tl.trxIdx = none → ¬ db.Misreads := by
        intro hnone
        apply hread ⟨e.record, (Ledger.empty.posts E es).size⟩
        · rw [visited]
          split
          · exact List.mem_singleton.mpr rfl
          · exact List.mem_cons_self
        · rw [hrecord]
          exact decide_eq_true hnone
      obtain ⟨q, hq⟩ := h.follow_concat fuel (n := n + 1) hes hA hS hk hrecord ht hfirst
      rw [visited] at hread ⊢
      by_cases hloop : e.record.isLoop
      · simp only [hloop, if_true, Tran.follow_none] at hq
        rw [if_pos hloop]
        exact ⟨db.moved q, hq, q, rfl⟩
      · rw [if_neg hloop] at hq
        rw [if_neg hloop] at hread ⊢
        have hrest : ∀ r ∈ visited (accountRecords E es ⟨some i, some s⟩).reverse,
            r.data.isUndated → ¬ (db.moved q).Misreads := by
          intro r hr hundated
          rw [Database.misreads_moved]
          exact hread r (List.mem_cons_of_mem _ hr) hundated
        obtain ⟨db', hrun, q', rfl⟩ := ih (h.moved q) hes (by simpa using hA)
            (by simpa using hS)
          (Nat.lt_of_succ_lt_succ hn)
          (t := { db.shown E (Ledger.empty.posts E es).size tl with
            mIndex := ((Ledger.empty.posts E es).account ⟨some i, some s⟩).map Prod.snd })
              rfl hrest
        rw [Database.moved_moved] at hrun
        rw [Lib.bind_ok hrun, funext (Database.transferAt_moved q)] at hq
        exact ⟨_, hq, q', rfl⟩
    · rw [if_neg hk] at ht
      rw [if_neg hk, List.append_nil] at hread ⊢
      exact ih h hes hA hS (by omega) ht hread

theorem follow_error (h : Filed E db (es ++ fs)) (hes : Journal E Timed (es ++ fs))
    (hA : (db.ledger E).index A = some i) (hS : (db.ledger E).index S = some s)
    (hn : es.length < n)
    (ht : t.mIndex = ((Ledger.empty.posts E es).account ⟨some i, some s⟩).map Prod.snd)
    (hmisreads : db.Misreads)
    (hread : ∃ r ∈ visited (accountRecords E es ⟨some i, some s⟩).reverse,
      r.data.isUndated) :
    outcome (Tran.follow E (fuel + 1) A n t db) = .error .outOfBounds := by
  induction es using List.reverseRecOn generalizing db fs n t with
  | nil =>
    obtain ⟨r, hr, -⟩ := hread
    cases hr
  | append_singleton es e ih =>
    rw [List.length_append, List.length_singleton] at hn
    rw [Ledger.position_concat] at ht
    rw [Ledger.accountRecords_concat] at hread
    rw [List.append_assoc] at h hes
    by_cases hk : ⟨some i, some s⟩ ∈ e.record.accounts
    · rw [if_pos hk] at ht
      rw [if_pos hk, List.reverse_concat, visited] at hread
      obtain ⟨tl, hrecord⟩ := Record.exists_transferLog hk
      obtain ⟨n, rfl⟩ : ∃ n', n = n' + 2 := ⟨n - 2, by omega⟩
      by_cases hundated : tl.trxIdx = none
      · exact Lib.outcome_bind_error
          (h.update_error hes (Ledger.mem_postRecords_concat es fs hrecord) ht hundated hmisreads)
      · obtain ⟨q, hq⟩ := h.follow_concat fuel (n := n + 1) hes hA hS hk hrecord ht
          fun hnone => absurd hnone hundated
        have hdated : ¬ e.record.isUndated := by
          rw [hrecord]
          simpa [Record.isUndated] using hundated
        by_cases hloop : e.record.isLoop
        · rw [if_pos hloop] at hread
          obtain ⟨r, hr, hr'⟩ := hread
          rw [List.mem_singleton.mp hr] at hr'
          exact absurd hr' hdated
        · rw [if_neg hloop] at hq hread
          obtain ⟨r, hr, hr'⟩ := hread
          obtain rfl | hr := List.mem_cons.mp hr
          · exact absurd hr' hdated
          rw [hq]
          apply Lib.outcome_bind_error
          exact ih (h.moved q) hes (by simpa using hA) (by simpa using hS)
            (Nat.lt_of_succ_lt_succ hn) rfl (by simpa using hmisreads) ⟨r, hr, hr'⟩
    · rw [if_neg hk] at ht
      rw [if_neg hk, List.append_nil] at hread
      exact ih h hes hA hS (by omega) ht hmisreads hread

end Filed

end Gpm
