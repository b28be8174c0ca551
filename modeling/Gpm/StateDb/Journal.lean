import Gpm.StateDb.NameQuery
import Gpm.StateDb.Queries
import Gpm.StateDb.Supply

namespace Gpm

open Lib (Keeps Runs)

variable (E : Externals)

/-- What may be entered behind some postings.  What may be given as the position of a
transaction is left open. -/
inductive Journal.Entry (allowed : List StateRecord → Index → Prop) (es : List Posting) :
    Posting → Prop
  | setKey (n : Name) (k : PublicKey) :
  Journal.Entry allowed es ((Ledger.empty.posts E es).setKey n k)
  | startTrx (hash : Hashcode) (time : UInt64) :
  Journal.Entry allowed es ⟨.startTrx hash time, none⟩
  | endBlock (b : Block) (gen : Name) : Journal.Entry allowed es (endBlock b gen)
  | issue {S : Name} {pos : Index} : ((Ledger.empty.posts E es).index S).isSome →
      ((Ledger.empty.posts E es).balance S S).2 = none → allowed (postRecords E 0 es) pos →
      Journal.Entry allowed es ⟨(Ledger.empty.posts E es).issueRecord S pos, none⟩
  | transfer {A B S : Name} {amnt : UInt64} {pos : Index} :
      ((Ledger.empty.posts E es).index A).isSome → ((Ledger.empty.posts E es).index B).isSome →
      ((Ledger.empty.posts E es).index S).isSome →
      amnt ≤ ((Ledger.empty.posts E es).balance A S).1 → allowed (postRecords E 0 es) pos →
      Journal.Entry allowed es ⟨(Ledger.empty.posts E es).transferRecord A B S amnt pos, none⟩

inductive Journal (allowed : List StateRecord → Index → Prop) : List Posting → Prop
  | nil : Journal allowed []
  | snoc {es : List Posting} {e : Posting} : Journal allowed es → Journal.Entry E allowed es e →
      Journal allowed (es ++ [e])

def AnyPosition (_ : List StateRecord) (_ : Index) : Prop := True

def StartsAllowed (allowed : List StateRecord → Index → Prop) : Prop :=
  ∀ {rs hash time p}, (⟨.startTrx hash time, p⟩ : StateRecord) ∈ rs → allowed rs (some p)

namespace Update

def Writes (v : Ledger) (fs : List Posting) : Update → Prop
  | .setPublicKey name pk => fs = [v.setKey name pk]
  | .issue type trxPos =>
    fs = [] ∨ (v.balance type type).2 = none ∧ fs = [⟨v.issueRecord type trxPos, none⟩]
  | .transferBalance from_ to_ type amnt trxPos =>
    fs = [] ∨ amnt ≤ (v.balance from_ type).1 ∧
      fs = [⟨v.transferRecord from_ to_ type amnt trxPos, none⟩]
  | .apply trx genName => fs = (Ledger.transaction E trx genName v).2
  | .applyBlock b gen trxs _ =>
    fs = (Ledger.applyAll E gen v trxs).2 ∨ fs = (Ledger.applyAll E gen v trxs).2 ++
    [endBlock b gen]

def Proper (allowed : List StateRecord → Index → Prop) (db : Database) : Update → Prop
  | .issue type trxPos => type ∈ db.names ∧ allowed (db.log E) trxPos
  | .transferBalance from_ to_ type _ trxPos =>
    from_ ∈ db.names ∧ to_ ∈ db.names ∧ type ∈ db.names ∧ allowed (db.log E) trxPos
  | _ => True

end Update

inductive Traded (allowed : List StateRecord → Index → Prop) : Database → Prop
  | blank {db : Database} : db.Blank → Traded allowed db
  | update {db : Database} (u : Update) : Traded allowed db → u.Proper E allowed db →
      Traded allowed (u.step E db)
  | read {db : Database} (p : ℕ) : Traded allowed db → Traded allowed (db.moved p)
  | overlay {db : Database} : Traded allowed db → Traded allowed (.trx db {})
  | settle {db db' : Database} : Traded allowed db → db.Settles db' → Traded allowed db'

theorem startsAllowed_anyPosition : StartsAllowed AnyPosition := fun _ => trivial

variable {E} {allowed : List StateRecord → Index → Prop} {db base : Database} {l : Layer}
  {es fs : List Posting} {trx : SignedTransaction} {genName : Name} {trxPos : ℕ}

namespace DbM

theorem transferBalance_leads_nil (h : Indexed E db) (from_ to_ type : Name) {amnt : UInt64}
    (trxPos : Index) (ha : ((db.ledger E).balance from_ type).1 < amnt) :
    (trace E).leads [] db
      (Lib.finalState (transferBalance E from_ to_ type amnt trxPos db)) := by
  apply (getNameIndex_runs h from_).leads_bind_nil
  intro s₁ h₁
  obtain ⟨hv₁, h₁⟩ := h.leads_nil h₁
  apply (getNameIndex_runs h₁ to_).leads_bind_nil
  intro s₂ h₂
  obtain ⟨hv₂, h₂⟩ := h₁.leads_nil h₂
  apply (getNameIndex_runs h₂ type).leads_bind_nil
  intro s₃ h₃
  obtain ⟨hv₃, h₃⟩ := h₂.leads_nil h₃
  have hfrom := getBalance_runs h₃ from_ type
  rw [hv₃, hv₂, hv₁] at hfrom
  generalize (db.ledger E).balance from_ type = x at ha hfrom
  apply hfrom.leads_bind_nil
  intro s₄ h₄
  obtain ⟨hv₄, h₄⟩ := h₃.leads_nil h₄
  have hto := getBalance_runs h₄ to_ type
  apply hto.leads_bind_nil
  intro s₅ h₅
  simp only [if_pos ha]
  exact (trace E).nil s₅

theorem issue_leads_nil (h : Indexed E db) (type : Name) (trxPos : Index)
    (hn : ((db.ledger E).balance type type).2 ≠ none) :
    (trace E).leads [] db (Lib.finalState (issue E type trxPos db)) := by
  apply (getNameIndex_runs h type).leads_bind_nil
  intro s₁ h₁
  obtain ⟨hv₁, h₁⟩ := h.leads_nil h₁
  apply (getNameIndex_runs h₁ type).leads_bind_nil
  intro s₂ h₂
  obtain ⟨hv₂, h₂⟩ := h₁.leads_nil h₂
  apply (getNameIndex_runs h₂ type).leads_bind_nil
  intro s₃ h₃
  obtain ⟨hv₃, h₃⟩ := h₂.leads_nil h₃
  have hbal := getBalance_runs h₃ type type
  rw [hv₃, hv₂, hv₁] at hbal
  generalize (db.ledger E).balance type type = x at hn hbal
  apply hbal.leads_bind_nil
  intro s₄ h₄
  simp only [if_pos (Option.isSome_iff_ne_none.mpr hn)]
  exact (trace E).nil s₄

theorem calculateStateHash_leads_nil :
    Keeps ((trace E).leads []) (calculateStateHash E) := by
  refine calculateStateHash_keeps (trace E).nil (fun h h' => (trace E).append h h') ?_
  intro len db
  obtain ⟨p, -, hp⟩ := db.read_moves 0 len
  exact ⟨p, hp⟩

theorem applyBlock_leads (h : WellFormed E db) (b : Block) (gen : Name)
    (ts : List SignedTransaction) (checksum : Hashcode) :
    (trace E).leads (Ledger.applyAll E gen (db.ledger E) ts).2 db
        (Lib.finalState (applyBlock E b gen ts checksum db)) ∨
      (trace E).leads ((Ledger.applyAll E gen (db.ledger E) ts).2 ++ [endBlock b gen]) db
        (Lib.finalState (applyBlock E b gen ts checksum db)) := by
  obtain ⟨db₁, hall, hl₁⟩ := applyAll_runs gen ts h
  unfold applyBlock
  rw [Lib.bind_ok hall]
  cases (Ledger.applyAll E gen (db.ledger E) ts).1 with
  | false => exact Or.inl hl₁
  | true =>
    rw [if_pos rfl]
    have hhash := calculateStateHash_leads_nil (E := E) db₁
    cases hcheck : calculateStateHash E db₁ with
    | error e db₂ =>
      rw [Lib.bind_error hcheck]
      rw [hcheck] at hhash
      left
      rw [← List.append_nil (Ledger.applyAll E gen (db.ledger E) ts).2]
      exact (trace E).append hl₁ hhash
    | ok check db₂ =>
      rw [Lib.bind_ok hcheck]
      rw [hcheck] at hhash
      split
      · left
        rw [← List.append_nil (Ledger.applyAll E gen (db.ledger E) ts).2]
        exact (trace E).append hl₁ hhash
      · right
        have hend : (trace E).leads [endBlock b gen] db₂
            (Lib.finalState (appendRecord E (.endBlock b gen) db₂)) :=
          (appendRecord_runs rfl).leads
        exact (trace E).append hl₁ ((trace E).append hhash hend)

end DbM

theorem Update.step_leads (h : WellFormed E db) (u : Update) :
    ∃ fs, u.Writes E (db.ledger E) fs ∧ (trace E).leads fs db (u.step E db) := by
  cases u with
  | setPublicKey name pk =>
    refine ⟨_, rfl, ?_⟩
    exact (DbM.setPublicKey_runs h.indexed name pk).discard.leads
  | issue type trxPos =>
    by_cases hnull : ((db.ledger E).balance type type).2 = none
    · exact ⟨_, Or.inr ⟨hnull, rfl⟩, (DbM.issue_runs h.indexed type trxPos hnull).leads⟩
    · exact ⟨[], Or.inl rfl, DbM.issue_leads_nil h.indexed type trxPos hnull⟩
  | transferBalance from_ to_ type amnt trxPos =>
    by_cases hlt : ((db.ledger E).balance from_ type).1 < amnt
    · exact ⟨[], Or.inl rfl, DbM.transferBalance_leads_nil h.indexed from_ to_ type trxPos hlt⟩
    · refine ⟨_, Or.inr ⟨UInt64.not_lt.mp hlt, rfl⟩, ?_⟩
      exact (DbM.transferBalance_runs h.indexed from_ to_ type trxPos hlt).leads
  | apply trx genName =>
    exact ⟨_, rfl, (DbM.apply_runs trx genName h).discard.leads⟩
  | applyBlock b gen trxs checksum =>
    have hblock := DbM.applyBlock_leads h b gen trxs checksum
    rw [Update.step, Update.call, Lib.finalState_discard]
    obtain hl | hl := hblock
    · exact ⟨_, Or.inl rfl, hl⟩
    · exact ⟨_, Or.inr rfl, hl⟩

namespace Journal.Entry

variable {e : Posting}

theorem edits (h : Journal.Entry E allowed es e) : (Ledger.empty.posts E es).Edits e := by
  cases h with
  | setKey n k => exact ⟨k, rfl⟩
  | _ => exact fun _ => rfl

theorem names_of_accounts (h : Journal.Entry E allowed es e) {k : AccountKey}
    (hk : k ∈ e.record.accounts) :
    ∃ A S i j, (Ledger.empty.posts E es).index A = some i ∧
      (Ledger.empty.posts E es).index S = some j ∧ k = ⟨some i, some j⟩ := by
  cases h with
  | setKey n k' =>
    unfold Ledger.setKey at hk
    cases hi : (Ledger.empty.posts E es).index n with
    | none => simp [hi, Record.accounts] at hk
    | some i => simp [hi, Record.accounts] at hk
  | startTrx hash time => simp [Record.accounts] at hk
  | endBlock b gen => simp [Gpm.endBlock, Record.accounts] at hk
  | @issue S pos hS =>
    obtain ⟨i, hi⟩ := Option.isSome_iff_exists.mp hS
    simp only [Ledger.issueRecord, Record.accounts, hi, List.mem_cons, List.not_mem_nil, or_false,
      or_self] at hk
    exact ⟨S, S, i, i, hi, hi, hk⟩
  | @transfer A B S _ _ hA hB hS =>
    obtain ⟨i, hi⟩ := Option.isSome_iff_exists.mp hA
    obtain ⟨j, hj⟩ := Option.isSome_iff_exists.mp hB
    obtain ⟨t, ht⟩ := Option.isSome_iff_exists.mp hS
    simp only [Ledger.transferRecord, Record.accounts, hi, hj, ht, List.mem_cons, List.not_mem_nil,
      or_false] at hk
    obtain rfl | rfl := hk
    · exact ⟨A, S, i, t, hi, ht, rfl⟩
    · exact ⟨B, S, j, t, hj, ht, rfl⟩

theorem admits (h : Journal.Entry E allowed es e) (hes : (Ledger.empty.posts E es).Coherent) :
    (Ledger.empty.posts E es).Admits e where
  toAdmitsName := h.edits.admitsName
  account k hk := by
    obtain ⟨A, S, i, j, hi, hj, rfl⟩ := h.names_of_accounts hk
    exact ⟨i, j, rfl, hes.index_lt hi, hes.index_lt hj⟩

end Journal.Entry

namespace Journal

theorem of_snoc {e : Posting} (h : Journal E allowed (es ++ [e])) :
    Journal E allowed es ∧ Journal.Entry E allowed es e := by
  generalize hfs : es ++ [e] = fs at h
  cases h with
  | nil => simp at hfs
  | snoc hes he =>
    obtain ⟨rfl, heq⟩ := List.append_inj' hfs rfl
    cases heq
    exact ⟨hes, he⟩

theorem edits (h : Journal E allowed es) : Ledger.empty.EditsAll E es := by
  induction h with
  | nil => trivial
  | snoc _ he ih => exact Ledger.editsAll_append.mpr ⟨ih, he.edits, trivial⟩

theorem admits (h : Journal E allowed es) : Ledger.empty.AdmitsAll E es := by
  induction h with
  | nil => trivial
  | snoc _ he ih =>
    exact Ledger.admitsAll_append ih ⟨he.admits (Ledger.coherent_empty.posts ih), trivial⟩

theorem coherent (h : Journal E allowed es) : (Ledger.empty.posts E es).Coherent :=
  Ledger.coherent_empty.posts h.admits

theorem index_snoc {e : Posting} (h : Journal E allowed (es ++ [e])) {n : Name} {i : ℕ}
    (hi : (Ledger.empty.posts E es).index n = some i) :
    (Ledger.empty.posts E (es ++ [e])).index n = some i := by
  rw [Ledger.posts_append]
  exact (Ledger.editsAll_append.mp h.edits).2.index_posts hi

theorem names_of_accounts (h : Journal E allowed es) {e : Posting} (he : e ∈ es) {k : AccountKey}
    (hk : k ∈ e.record.accounts) : ∃ A S i j, (Ledger.empty.posts E es).index A = some i ∧
      (Ledger.empty.posts E es).index S = some j ∧ k = ⟨some i, some j⟩ := by
  induction h with
  | nil => cases he
  | @snoc es e' hes hentry ih =>
    have hold : ∃ A S i j, (Ledger.empty.posts E es).index A = some i ∧
        (Ledger.empty.posts E es).index S = some j ∧ k = ⟨some i, some j⟩ := by
      cases List.mem_append.mp he with
      | inl he => exact ih he
      | inr he =>
        rw [List.mem_singleton.mp he] at hk
        exact hentry.names_of_accounts hk
    obtain ⟨A, S, i, j, hi, hj, rfl⟩ := hold
    have hnext := hes.snoc hentry
    exact ⟨A, S, i, j, hnext.index_snoc hi, hnext.index_snoc hj, rfl⟩

theorem destination {n : Name} (h : Journal E allowed es)
    (hd : Ledger.destination E (Ledger.empty.posts E es) n = some fs) :
    Journal E allowed (es ++ fs) := by
  obtain ⟨-, rfl⟩ | ⟨hi, rfl⟩ := Ledger.of_destination hd
  · rwa [List.append_nil]
  · have hdefine := h.snoc (.setKey n .empty)
    rwa [Ledger.setKey, hi] at hdefine

theorem command (h : Journal E allowed es) (hallowed : StartsAllowed allowed) {hash : Hashcode}
    {time : UInt64} (hstart : ⟨.startTrx hash time, trxPos⟩ ∈ postRecords E 0 es)
    {c : Command}
    (hc : Ledger.command E trx genName trxPos (Ledger.empty.posts E es) c = some fs) :
    Journal E allowed (es ++ fs) := by
  cases c with
  | registerName n k =>
    rw [Ledger.of_registerName hc]
    exact h.snoc (.setKey n k)
  | issue S =>
    obtain ⟨k, hk, hnull, -, rfl⟩ := Ledger.of_issueStock hc
    obtain ⟨i, hi⟩ := Ledger.index_of_key hk
    exact h.snoc (.issue (by rw [hi]; rfl) hnull (hallowed hstart))
  | transfer tr =>
    obtain ⟨k, k', gs, hf, hs, -, -, hamount, hd, rfl⟩ := Ledger.of_transferStock hc
    obtain ⟨⟨j, hj⟩, hold⟩ := Ledger.index_destination hd
    obtain ⟨i, hi⟩ := Ledger.index_of_key hf
    obtain ⟨t, ht⟩ := Ledger.index_of_key hs
    have hbal := Ledger.balance_destination h.coherent hd tr.fromName tr.stockName
    have hstart' : ⟨.startTrx hash time, trxPos⟩ ∈ postRecords E 0 (es ++ gs) := by
      rw [postRecords_append]
      exact List.mem_append_left _ hstart
    have hdest := h.destination hd
    rw [← List.append_assoc, ← Ledger.posts_append]
    rw [← Ledger.posts_append] at hj hold hbal
    refine hdest.snoc (.transfer ?_ ?_ ?_ ?_ (hallowed hstart'))
    · rw [hold _ i hi]; rfl
    · rw [hj]; rfl
    · rw [hold _ t ht]; rfl
    · rw [hbal]
      exact UInt64.not_lt.mp hamount
  | other => cases hc

theorem commands (h : Journal E allowed es) (hallowed : StartsAllowed allowed) {hash : Hashcode}
    {time : UInt64} (hstart : ⟨.startTrx hash time, trxPos⟩ ∈ postRecords E 0 es)
    (trx : SignedTransaction) (genName : Name) (cs : List Command) :
    Journal E allowed
      (es ++ (Ledger.commands E trx genName trxPos (Ledger.empty.posts E es) cs).2) := by
  induction cs generalizing es with
  | nil => rwa [Ledger.commands, List.append_nil]
  | cons c cs ih =>
    unfold Ledger.commands
    cases hc : Ledger.command E trx genName trxPos (Ledger.empty.posts E es) c with
    | none => rwa [List.append_nil]
    | some fs =>
      have hstart' : ⟨.startTrx hash time, trxPos⟩ ∈ postRecords E 0 (es ++ fs) := by
        rw [postRecords_append]
        exact List.mem_append_left _ hstart
      have hrest := ih (h.command hallowed hstart hc) hstart'
      rwa [Ledger.posts_append, List.append_assoc] at hrest

theorem transaction (h : Journal E allowed es) (hallowed : StartsAllowed allowed)
    (trx : SignedTransaction) (genName : Name) :
    Journal E allowed
      (es ++ (Ledger.transaction E trx genName (Ledger.empty.posts E es)).2) := by
  have hstart := h.snoc (.startTrx (E.hashTrx trx.trx) trx.trx.utcTime)
  have hmem : ⟨.startTrx (E.hashTrx trx.trx) trx.trx.utcTime,
      (Ledger.empty.posts E es).size⟩ ∈
      postRecords E 0 (es ++ [Ledger.startTrx E trx]) := by
    rw [Ledger.postRecords_concat]
    exact List.mem_append_right _ (List.mem_singleton.mpr rfl)
  have hrest := hstart.commands hallowed hmem trx genName trx.trx.commands
  rwa [Ledger.posts_append, List.append_assoc] at hrest

theorem applyAll (h : Journal E allowed es) (hallowed : StartsAllowed allowed) (gen : Name)
    (ts : List SignedTransaction) :
    Journal E allowed (es ++ (Ledger.applyAll E gen (Ledger.empty.posts E es) ts).2) := by
  induction ts generalizing es with
  | nil => rwa [Ledger.applyAll, List.append_nil]
  | cons t ts ih =>
    have ht := h.transaction hallowed t gen
    unfold Ledger.applyAll
    simp only
    split
    · have hrest := ih ht
      rwa [Ledger.posts_append, List.append_assoc] at hrest
    · exact ht

theorem writes (h : Journal E allowed es) (hallowed : StartsAllowed allowed) (hdb : Filed E db es)
    {u : Update} (hu : u.Proper E allowed db) (hw : u.Writes E (Ledger.empty.posts E es) fs) :
    Journal E allowed (es ++ fs) := by
  have hnames : ∀ {n}, n ∈ db.names → ((Ledger.empty.posts E es).index n).isSome := by
    intro n hn
    rw [← h.coherent.mem_names, ← hdb.ledger]
    exact List.mem_toFinset.mpr hn
  cases u with
  | setPublicKey name pk =>
    rw [show fs = _ from hw]
    exact h.snoc (.setKey name pk)
  | issue type trxPos =>
    obtain ⟨hname, hpos⟩ := hu
    rw [hdb.log] at hpos
    obtain rfl | ⟨hnull, rfl⟩ := hw
    · rwa [List.append_nil]
    · exact h.snoc (.issue (hnames hname) hnull hpos)
  | transferBalance from_ to_ type amnt trxPos =>
    obtain ⟨hfrom, hto, htype, hpos⟩ := hu
    rw [hdb.log] at hpos
    obtain rfl | ⟨hle, rfl⟩ := hw
    · rwa [List.append_nil]
    · exact h.snoc (.transfer (hnames hfrom) (hnames hto) (hnames htype) hle hpos)
  | apply trx genName =>
    rw [show fs = _ from hw]
    exact h.transaction hallowed trx genName
  | applyBlock b gen trxs checksum =>
    have hall := h.applyAll hallowed gen trxs
    obtain rfl | rfl := hw
    · exact hall
    · rw [← List.append_assoc]
      exact hall.snoc (.endBlock b gen)

end Journal

theorem Filed.wellFormed (h : Filed E db es) (hes : Journal E allowed es) : WellFormed E db where
  live := h.indexed.live
  account_isSome := h.indexed.account_isSome
  coherent := by
    rw [h.ledger]
    exact hes.coherent

theorem postRecords_leading {size : ℕ} (h : packPosts E size es <+: packPosts E size fs) :
    postRecords E size es <+: postRecords E size fs := by
  induction es generalizing size fs with
  | nil => exact List.nil_prefix
  | cons e es ih =>
    obtain ⟨rest, hrest⟩ := h
    cases fs with
    | nil =>
      have hnil := congrArg List.length hrest
      have hpos := List.length_pos_iff.mpr (E.pack_ne_nil ⟨e.record, size⟩)
      simp only [packPosts, List.length_append, List.length_nil] at hnil
      omega
    | cons f fs =>
      rw [packPosts, packPosts, List.append_assoc] at hrest
      have hunpack := congrArg E.raw.unpack hrest
      rw [E.raw.unpack_pack, E.raw.unpack_pack, Option.some.injEq, Prod.mk.injEq,
        StateRecord.mk.injEq] at hunpack
      obtain ⟨⟨hrecord, -⟩, htail⟩ := hunpack
      rw [postRecords, postRecords, hrecord, List.prefix_cons_inj]
      apply ih
      rw [hrecord] at htail
      exact ⟨rest, htail⟩

theorem Ledger.index_of_mem_defineName (h : empty.EditsAll E es) {n : Name}
    {k : PublicKey} {p : ℕ}
    (hr : ⟨.defineName n k, p⟩ ∈ postRecords E 0 es) :
    (empty.posts E es).index n = some p := by
  induction es using List.reverseRecOn with
  | nil => cases hr
  | append_singleton es e ih =>
    obtain ⟨hes, he, -⟩ := editsAll_append.mp h
    rw [posts_append, posts_cons, posts_nil]
    rw [postRecords_concat, List.mem_append, List.mem_singleton] at hr
    obtain hr | hr := hr
    · exact he.admitsName.index_post (ih hes hr)
    · have hrecord : e.record = .defineName n k := (congrArg StateRecord.data hr).symm
      have hp : p = (empty.posts E es).size := congrArg StateRecord.previous hr
      have hnamed : e.record.named 0 ≠ none := by
        rw [hrecord]
        exact Option.some_ne_none _
      obtain ⟨m, k', rfl⟩ := he.of_named hnamed
      rw [setKey] at hrecord
      cases hi : (empty.posts E es).index m with
      | some j =>
        rw [hi] at hrecord
        cases hrecord
      | none =>
        rw [hi] at hrecord
        cases hrecord
        have hname : ((empty.posts E es).setKey n k).name = some n := rfl
        rw [index_post, hname, if_pos rfl, setKey, hi, hp]
        rfl

theorem Filed.index_of_prefix {db' : Database} (h : Filed E db es) (h' : Filed E db' fs)
    (hflat : db.flat <+: db'.flat) {n : Name} {i : ℕ} (hi : (db.ledger E).index n = some i) :
    (db'.ledger E).index n = some i := by
  rw [h.ledger] at hi
  rw [h'.ledger]
  obtain ⟨k, hk⟩ := h.mem_define hi
  rw [h.flat, h'.flat] at hflat
  exact Ledger.index_of_mem_defineName h'.edits ((postRecords_leading hflat).mem hk)

namespace Database

theorem layers_moved (p : ℕ) (db : Database) : (db.moved p).layers = db.layers.map (moved p) := by
  induction db with
  | null => rfl
  | file d => rfl
  | trx base l ih => rw [moved, layers, layers, ih, List.map_cons, moved]

theorem mem_layers_modifyLayer {f : Layer → Layer} {d : Database}
    (h : d ∈ (db.modifyLayer f).layers) : d = db.modifyLayer f ∨ d ∈ db.layers := by
  cases db with
  | null => cases h
  | file d' => exact Or.inl (List.mem_singleton.mp h)
  | trx base l => exact (List.mem_cons.mp h).imp_right (List.mem_cons_of_mem _)

end Database

theorem Filed.update (h : Filed E db es) (hes : Journal E allowed es)
    (hallowed : StartsAllowed allowed) (u : Update) (hu : u.Proper E allowed db) :
    ∃ fs, Filed E (u.step E db) (es ++ fs) ∧ Journal E allowed (es ++ fs) := by
  obtain ⟨fs, hw, p, hp⟩ := u.step_leads (h.wellFormed hes)
  rw [h.ledger] at hw
  have hnext := hes.writes hallowed h hu hw
  refine ⟨fs, ?_, hnext⟩
  rw [hp]
  apply (h.moved p).posts
  rw [Database.ledger_moved, h.ledger]
  exact (Ledger.editsAll_append.mp hnext.edits).2

namespace Traded

theorem journal (h : Traded E allowed db) (hallowed : StartsAllowed allowed) :
    ∃ es, Filed E db es ∧ Journal E allowed es := by
  induction h with
  | blank h => exact ⟨[], Filed.blank h, .nil⟩
  | update u _ hu ih =>
    obtain ⟨es, hes, hjournal⟩ := ih
    obtain ⟨fs, hnext⟩ := hes.update hjournal hallowed u hu
    exact ⟨es ++ fs, hnext⟩
  | read p _ ih =>
    obtain ⟨es, hes, hjournal⟩ := ih
    exact ⟨es, hes.moved p, hjournal⟩
  | overlay _ ih =>
    obtain ⟨es, hes, hjournal⟩ := ih
    exact ⟨es, hes.overlay, hjournal⟩
  | settle _ hs ih =>
    obtain ⟨es, hes, hjournal⟩ := ih
    exact ⟨es, hes.settle hs, hjournal⟩

theorem throughout_modifyLayer {f : Layer → Layer} (h : db.Throughout (Traded E allowed))
    (hf : Traded E allowed (db.modifyLayer f)) :
    (db.modifyLayer f).Throughout (Traded E allowed) := by
  intro d hd
  obtain rfl | hd := Database.mem_layers_modifyLayer hd
  · exact hf
  · exact h d hd

theorem throughout_moved (h : db.Throughout (Traded E allowed)) (p : ℕ) :
    (db.moved p).Throughout (Traded E allowed) := by
  intro d hd
  rw [Database.layers_moved, List.mem_map] at hd
  obtain ⟨d, hd, rfl⟩ := hd
  exact (h d hd).read p

theorem throughout_settles {db' : Database} (h : db.Throughout (Traded E allowed))
    (hs : db.Settles db') : db'.Throughout (Traded E allowed) := by
  induction hs with
  | @merge base l =>
    obtain ⟨htop, hbase⟩ := Database.throughout_trx.mp h
    exact throughout_modifyLayer hbase (htop.settle .merge)
  | @commit base l =>
    obtain ⟨htop, hbase⟩ := Database.throughout_trx.mp h
    exact Database.throughout_trx.mpr
      ⟨htop.settle .commit, throughout_modifyLayer hbase (htop.settle .merge)⟩
  | root hroot =>
    intro d hd
    rw [List.mem_singleton.mp hd]
    exact (h _ (List.mem_singleton.mpr rfl)).settle (.root hroot)
  | under hs ih =>
    obtain ⟨htop, hbase⟩ := Database.throughout_trx.mp h
    exact Database.throughout_trx.mpr ⟨htop.settle (.under hs), ih hbase⟩

theorem throughout (h : Traded E allowed db) : db.Throughout (Traded E allowed) := by
  induction h with
  | @blank db h =>
    induction db with
    | null => exact h.elim
    | file d =>
      intro d hd
      rw [List.mem_singleton.mp hd]
      exact .blank h
    | trx base l ih => exact Database.throughout_trx.mpr ⟨.blank h, ih h.1⟩
  | @update db u hdb hu ih =>
    have hstep := hdb.update u hu
    obtain ⟨p, f, -, -, hf⟩ := u.kept (Grows.framed E) db
    rw [hf] at hstep ⊢
    exact throughout_modifyLayer (throughout_moved ih p) hstep
  | read p _ ih => exact throughout_moved ih p
  | overlay hdb ih => exact Database.throughout_trx.mpr ⟨hdb.overlay, ih⟩
  | settle _ hs ih => exact throughout_settles ih hs

end Traded

end Gpm
