import Gpm.StateDb.Names

namespace Gpm

open Lib (Runs outcome)

variable {E : Externals}

section NameCount

theorem length_keys_union (m m' : NameIndex) : (m ∪ m').keys.length =
    m.keys.length + (m'.keys.filter fun n => m[n]? = none).length := by
  have hfilter : (m'.keys.filter fun n => m[n]? = none).Nodup := Std.ExtTreeMap.nodup_keys.filter _
  have hmem : ∀ n, n ∈ (m ∪ m').keys ↔ n ∈ m.keys ++ m'.keys.filter fun n =>
      m[n]? = none := by
    intro n
    rw [List.mem_append, List.mem_filter, decide_eq_true_eq]
    simp only [Std.ExtTreeMap.mem_keys, Std.ExtTreeMap.mem_iff_isSome_getElem?,
      Std.ExtTreeMap.getElem?_union]
    cases m[n]? <;> cases m'[n]? <;> simp
  have hdisjoint : (m.keys ++ m'.keys.filter fun n => m[n]? = none).Nodup := by
    refine List.nodup_append.mpr ⟨Std.ExtTreeMap.nodup_keys, hfilter, ?_⟩
    rintro n hn _ hn' rfl
    rw [List.mem_filter, decide_eq_true_eq] at hn'
    rw [Std.ExtTreeMap.mem_keys, Std.ExtTreeMap.mem_iff_isSome_getElem?, hn'.2] at hn
    cases hn
  rw [← List.length_append]
  exact ((List.perm_ext_iff_of_nodup Std.ExtTreeMap.nodup_keys hdisjoint).mpr hmem).length_eq

theorem countUnknown_runs {db : Database} (h : Indexed E db) (ns : List Name) :
    Runs (trace E) (DbM.countUnknown E ns) db
      (ns.filter fun n => db.getLastNameEditIndex n = none).length [] := by
  induction ns generalizing db with
  | nil => exact Runs.pure
  | cons n ns ih =>
    apply (DbM.getNameIndex_runs h n).bind_nil
    intro db₁ h₁
    have hrest := ih (h.leads_nil h₁).2
    obtain ⟨p, rfl⟩ := h₁
    simp only [Database.posts_nil, Database.getLastNameEditIndex_moved] at hrest ⊢
    apply hrest.bind_pure
    have hiff : (db.ledger E).index n = none ↔ db.getLastNameEditIndex n = none := by
      obtain ⟨hi, hname⟩ | ⟨i, r, x, hi, -, -, hname⟩ := h.name_cases n
      · simp [Ledger.index, hi, hname]
      · simp [Ledger.index, hi, hname]
    rw [List.filter_cons]
    by_cases hn : db.getLastNameEditIndex n = none
    · simp [hn, hiff.mpr hn]
    · simp [hn, mt hiff.mp hn]

theorem nameCount_eq {db : Database} (h : db.Founded E) :
    ∃ p, DbM.nameCount E db = .ok db.names.length (db.moved p) := by
  induction db with
  | null => exact h.elim
  | file d =>
    refine ⟨d.mFile.pos, ?_⟩
    have hlen := length_keys_union d.mNameDb d.lastNameEditMap
    rw [DbM.nameCount, Database.names, Database.nameMap, hlen, Std.ExtTreeMap.length_keys]
    rfl
  | trx base l ih =>
    obtain ⟨p, hp⟩ := ih h.2
    obtain ⟨db', hrun, q, rfl⟩ := countUnknown_runs (h.1.moved p) l.lastNameEditMap.keys
    simp only [Database.posts_nil, Database.moved_moved] at hrun
    refine ⟨q, ?_⟩
    have hlen := length_keys_union base.nameMap l.lastNameEditMap
    simp only [Database.nameMap_getElem?] at hlen
    simp only [DbM.nameCount, hp, hrun, Database.getLastNameEditIndex_moved]
    rw [Database.names, Database.names, Database.nameMap, hlen]
    rfl

end NameCount

def AtRecord (E : Externals) (es : List Posting) (i : Index) : Prop :=
  ∀ p, i = some p → ∃ r ∈ postRecords E 0 es, r.previous = p

theorem Ledger.index_of_mem_updateName {es : List Posting} (h : empty.EditsAll E es)
    {i p : ℕ} {k : PublicKey} {l : Index}
    (hr : ⟨.updateName (some i) k l, p⟩ ∈ postRecords E 0 es) :
    ∃ n, (empty.posts E es).index n = some i := by
  induction es using List.reverseRecOn with
  | nil => cases hr
  | append_singleton es e ih =>
    obtain ⟨hes, he, -⟩ := editsAll_append.mp h
    rw [posts_append, posts_cons, posts_nil]
    rw [postRecords_concat, List.mem_append, List.mem_singleton] at hr
    obtain hr | hr := hr
    · obtain ⟨n, hn⟩ := ih hes hr
      exact ⟨n, he.admitsName.index_post hn⟩
    · have hrecord : e.record = .updateName (some i) k l := (congrArg StateRecord.data hr).symm
      have hnamed : e.record.named 0 ≠ none := by
        rw [hrecord]
        exact Option.some_ne_none _
      obtain ⟨n, k', rfl⟩ := he.of_named hnamed
      refine ⟨n, he.admitsName.index_post ?_⟩
      rw [setKey] at hrecord
      cases hi : (empty.posts E es).index n with
      | none =>
        rw [hi] at hrecord
        cases hrecord
      | some j =>
        rw [hi] at hrecord
        cases hrecord
        rfl

theorem outcome_of_runs {α : Type} {x : DbM α} {db : Database} {a : α} {es : List Posting}
    (h : Runs (trace E) x db a es) : outcome (x db) = .ok a := by
  obtain ⟨s', hs, -⟩ := h
  rw [hs]
  rfl

structure SameAnswers (E : Externals) (db db' : Database) : Prop where
  log : db'.log E = db.log E
  size : db'.size = db.size
  getRecord : ∀ r ∈ db.log E, outcome (DbM.getRecord E (some r.previous) db') =
    outcome (DbM.getRecord E (some r.previous) db)
  getLastNameEditIndex : ∀ n, db'.getLastNameEditIndex n = db.getLastNameEditIndex n
  getLastTransferIndex : ∀ a, db'.getLastTransferIndex a = db.getLastTransferIndex a
  getNameIndex : ∀ n, outcome (DbM.getNameIndex E n db') = outcome (DbM.getNameIndex E n db)
  getNameForIndex : ∀ fuel i, (∀ p, i = some p → ∃ r ∈ db.log E, r.previous = p) →
    outcome (DbM.getNameForIndex E fuel i db') = outcome (DbM.getNameForIndex E fuel i db)
  getPublicKey : ∀ n, outcome (DbM.getPublicKey E n db') = outcome (DbM.getPublicKey E n db)
  getBalance : ∀ account type, outcome (DbM.getBalance E account type db') =
    outcome (DbM.getBalance E account type db)
  nameCount : outcome (DbM.nameCount E db') = outcome (DbM.nameCount E db)

namespace Filed

variable {db db' : Database} {es : List Posting}

theorem getNameForIndex_congr (h : Filed E db es) (h' : Filed E db' es) (fuel : ℕ) {i : Index}
    (hi : AtRecord E es i) : outcome (DbM.getNameForIndex E fuel i db') =
      outcome (DbM.getNameForIndex E fuel i db) := by
  induction fuel generalizing db db' i with
  | zero => rfl
  | succ fuel ih =>
    cases i with
    | none => rfl
    | some p =>
      obtain ⟨⟨r, q⟩, hr, rfl⟩ := hi p rfl
      obtain ⟨s, hs, hl⟩ := h.getRecord_runs hr
      obtain ⟨s', hs', hl'⟩ := h'.getRecord_runs hr
      have hrest := fun {j} => ih (i := j) (h.of_leads_nil hl) (h'.of_leads_nil hl')
      rw [DbM.getNameForIndex, Lib.bind_ok hs, Lib.bind_ok hs']
      cases r with
      | updateName j k l =>
        apply hrest
        rintro p rfl
        obtain ⟨n, hn⟩ := Ledger.index_of_mem_updateName h.edits hr
        obtain ⟨k', hk'⟩ := h.mem_define hn
        exact ⟨_, hk', rfl⟩
      | _ => rfl

theorem getLastTransferIndex_eq (h : Filed E db es) (a : AccountKey) :
    db.getLastTransferIndex a = ((Ledger.empty.posts E es).account a).map Prod.snd := by
  rw [← h.ledger]
  obtain ⟨hi, ha⟩ | ⟨i, r, b, hi, -, -, ha⟩ := h.indexed.account_cases a
  · rw [hi, ha]
    rfl
  · rw [hi, ha]
    rfl

theorem nameCount (h : Filed E db es) :
    outcome (DbM.nameCount E db) = .ok (Ledger.empty.posts E es).names.card := by
  obtain ⟨p, hp⟩ := nameCount_eq h.founded
  rw [hp, outcome, ← h.ledger, Database.ledger, List.toFinset_card_of_nodup db.names_nodup]

theorem sameAnswers (h : Filed E db es) (h' : Filed E db' es) : SameAnswers E db db' where
  log := by rw [h.log, h'.log]
  size := by rw [h.size, h'.size]
  getRecord r hr := by
    rw [h.log] at hr
    rw [outcome_of_runs (h.getRecord_runs hr), outcome_of_runs (h'.getRecord_runs hr)]
  getLastNameEditIndex n := by
    have hledger := congrArg (Ledger.edit · n) (h'.ledger.trans h.ledger.symm)
    exact hledger
  getLastTransferIndex a := by rw [h.getLastTransferIndex_eq, h'.getLastTransferIndex_eq]
  getNameIndex n := by
    rw [outcome_of_runs (DbM.getNameIndex_runs h.indexed n),
      outcome_of_runs (DbM.getNameIndex_runs h'.indexed n), h.ledger, h'.ledger]
  getNameForIndex fuel i hi := by
    rw [h.log] at hi
    exact h.getNameForIndex_congr h' fuel hi
  getPublicKey n := by
    rw [outcome_of_runs (DbM.getPublicKey_runs h.indexed n),
      outcome_of_runs (DbM.getPublicKey_runs h'.indexed n), h.ledger, h'.ledger]
  getBalance account type := by
    rw [outcome_of_runs (DbM.getBalance_runs h.indexed account type),
      outcome_of_runs (DbM.getBalance_runs h'.indexed account type), h.ledger, h'.ledger]
  nameCount := by rw [h.nameCount, h'.nameCount]

end Filed

inductive Builds (E : Externals) (db : Database) : Database → Prop
  | refl : Builds E db db
  | update {d : Database} (u : Update) : Builds E db d → Builds E db (u.step E d)
  | read {d : Database} (p : ℕ) : Builds E db d → Builds E db (d.moved p)

namespace Builds

variable {db db' base : Database} {l : Layer}

theorem evolves (h : Builds E db db') {db₀ : Database} (h₀ : Evolves E db₀ db) :
    Evolves E db₀ db' := by
  induction h with
  | refl => exact h₀
  | update u _ ih => exact ih.update u
  | read p _ ih => exact ih.read p

theorem base_moved (h : Builds E (.trx base l) db') : ∃ p l', db' = .trx (base.moved p) l' := by
  induction h with
  | refl => exact ⟨base.root.mFile.pos, l, by rw [Database.moved_self]⟩
  | update u _ ih =>
    obtain ⟨p, l', rfl⟩ := ih
    obtain ⟨q, l'', hq⟩ := Update.step_trx (E := E) (base.moved p) l' u
    exact ⟨q, l'', by rw [hq, Database.moved_moved]⟩
  | read q _ ih =>
    obtain ⟨p, l', rfl⟩ := ih
    exact ⟨q, l', by rw [Database.moved, Database.moved_moved]⟩

end Builds

variable {db₀ B T U : Database}

/-- Committing an overlay shows in no query on its base, and committing it under another
overlay, which is then rebased, in none on that one.  The overlay is told by what the other one
is based on, since that may have read from it. -/
theorem commit_sameAnswers (h₀ : db₀.Blank) (hB : Evolves E db₀ B)
    (hT : Builds E (.trx B {}) T) (hU : Builds E (.trx T {}) U) :
    SameAnswers E U.base U.base.commit.base ∧ SameAnswers E U (U.rebase U.base.commit.base) := by
  have hevolves : Evolves E db₀ T := hT.evolves hB.overlay
  obtain ⟨es, hes⟩ := hevolves.advances [] (Filed.blank h₀)
  obtain ⟨fs, hfs⟩ := (hU.evolves hevolves.overlay).advances [] (Filed.blank h₀)
  obtain ⟨p, t, rfl⟩ := hT.base_moved
  obtain ⟨q, u, rfl⟩ := hU.base_moved
  have hbase := hes.moved q
  have hrebase : (Database.trx (.trx ((B.moved p).moved q) t) u).Settles
      (.trx (((B.moved p).moved q).append t) u) := .under .merge
  exact ⟨hbase.sameAnswers (hbase.settle .merge), hfs.sameAnswers (hfs.settle hrebase)⟩

def keyChanged : Database :=
  Update.step (Wire.externals fun _ => 0) (.trx definedBelow {}) (.setPublicKey [1] 8)

def sharesIssued : Database :=
  Update.step (Wire.externals fun _ => 0) (.trx keyChanged {}) (.issue [1] none)

theorem commit_sameAnswers_sharesIssued :
    SameAnswers (Wire.externals fun _ => 0) sharesIssued.base sharesIssued.base.commit.base ∧
      SameAnswers (Wire.externals fun _ => 0) sharesIssued
        (sharesIssued.rebase sharesIssued.base.commit.base) :=
  commit_sameAnswers (B := definedBelow) (T := keyChanged) Database.blank_fresh (.update _ .refl)
    (.update _ .refl) (.update _ .refl)

example : outcome (DbM.getBalance (Wire.externals fun _ => 0) [1] [1] sharesIssued) =
    .ok (-1, some sharesIssued.base.size) := by
  decide +kernel

end Gpm
