import Gpm.StateDb.Frame
import Gpm.StateDb.Reachable
import Gpm.StateDb.Wire

namespace Gpm

/-- A call on a `state_database`. -/
inductive Operation
  | setPublicKey (name : Name) (pk : PublicKey)
  | issue (type : Name) (trxPos : Index)
  | transferBalance (from_ to_ type : Name) (amnt : UInt64) (trxPos : Index)
  | apply (trx : SignedTransaction) (genName : Name)
  | append (l : Layer)
  | getRecord (loc : Index)
  | getPublicKey (name : Name)
  | getBalance (account type : Name)
  | read (pos len : ℕ)
  | commit

namespace Operation

variable (E : Externals)

def call : Operation → DbM Unit
  | .setPublicKey name pk => discard <| DbM.setPublicKey E name pk
  | .issue type trxPos => DbM.issue E type trxPos
  | .transferBalance from_ to_ type amnt trxPos =>
    DbM.transferBalance E from_ to_ type amnt trxPos
  | .apply trx genName => discard <| DbM.apply E trx genName
  | .append l => modify fun db => db.append l
  | .getRecord loc => discard <| DbM.getRecord E loc
  | .getPublicKey name => discard <| DbM.getPublicKey E name
  | .getBalance account type => discard <| DbM.getBalance E account type
  | .read pos len => discard <| DbM.read pos len
  | .commit => modify Database.commit

def step (db : Database) (op : Operation) : Database := Lib.finalState (op.call E db)

def run (ops : List Operation) (db : Database) : Database := ops.foldl (step E) db

def commits : List Operation → Database → List Database
  | [], _ => []
  | .commit :: ops, db => db :: commits ops (step E db .commit)
  | op :: ops, db => commits ops (step E db op)

end Operation

namespace Grows

open Lib (Keeps)

variable {E : Externals}

theorem of_call {op : Operation} (h : op ≠ .commit) : Keeps Grows (op.call E) := by
  cases op with
  | setPublicKey n k => exact of_discard (of_setPublicKey n k)
  | issue type trxPos => exact (framed E).issue type trxPos
  | transferBalance from_ to_ type amnt trxPos =>
    exact (framed E).transferBalance from_ to_ type amnt trxPos
  | apply trx genName => exact of_discard (of_apply trx genName)
  | append l => exact of_append l
  | getRecord loc => exact of_discard (of_getRecord loc)
  | getPublicKey n => exact of_discard (of_getPublicKey n)
  | getBalance A S => exact of_discard (of_getBalance A S)
  | read pos len => exact of_discard (of_read pos len)
  | commit => exact absurd rfl h

end Grows

namespace StateDatabase

theorem content_commit_iff (d : StateDatabase) :
    d.commit.mFile.content = d.mFile.content ++ d.localChanges ↔
      d.localChanges = [] ∨ d.mFile.pos = d.mFile.size := by
  unfold commit
  split
  · rename_i hnil
    simp [hnil]
  · rename_i hne
    have hpos : 0 < d.localChanges.length := List.length_pos_iff.mpr hne
    simp only [hne, false_or, File.write, File.size]
    constructor
    · intro h
      have hlen := congrArg List.length h
      simp only [List.length_append, List.length_take, List.length_replicate,
        List.length_drop] at hlen
      omega
    · intro h
      rw [h, List.take_length, Nat.sub_self, List.replicate_zero, List.append_nil,
        List.drop_eq_nil_of_le (Nat.le_add_right _ _), List.append_nil]

theorem log_commit {d : StateDatabase}
    (h : d.commit.mFile.content = d.mFile.content ++ d.localChanges) : d.commit.log = d.log := by
  have hlocal : d.commit.localChanges = [] := by
    unfold commit
    split
    · assumption
    · rfl
  rw [log, log, h, hlocal, List.append_nil]

theorem pos_commit {d : StateDatabase} (h : d.mFile.pos = d.mFile.size) :
    d.commit.mFile.pos ≤ d.commit.mFile.size := by
  unfold commit
  split
  · exact Nat.le_of_eq h
  · simp only [File.size] at h
    simp only [File.write, File.size, List.length_append, List.length_take, List.length_drop,
      List.length_replicate]
    omega

theorem toLayer_commit {d : StateDatabase} (h : d.localChanges = [] → d.toLayer = {}) :
    d.commit.toLayer = {} := by
  unfold commit
  split
  · exact h ‹_›
  · rfl

end StateDatabase

theorem Carries.of_content {E : Externals} {d : StateDatabase}
    (h : d.commit.mFile.content = d.mFile.content ++ d.localChanges) :
    Carries E (.file d) (.file d.commit) := by
  have hlog := StateDatabase.log_commit h
  unfold StateDatabase.log at hlog
  constructor
  · simp
  · exact hlog
  · intro n
    unfold StateDatabase.commit
    split
    · rfl
    · simp [Database.getLastNameEditIndex, Std.ExtTreeMap.getElem?_union]
  · intro a
    unfold StateDatabase.commit
    split
    · rfl
    · simp [Database.getLastTransferIndex, Std.ExtTreeMap.getElem?_union]
  · intro i r hr
    unfold Database.recordAt at hr ⊢
    rwa [hlog]

theorem Carries.commit {E : Externals} {d : StateDatabase} (h : d.mFile.pos = d.mFile.size) :
    Carries E (.file d) (.file d.commit) :=
  .of_content (d.content_commit_iff.mpr (Or.inr h))

/-- `commit` moves the local bytes to the end of the file, and nobody can tell. -/
structure CommitAppends (E : Externals) (db : Database) : Prop where
  content : db.commit.root.mFile.content = db.root.mFile.content ++ db.layer.localChanges
  read : Lib.returned (db.commit.read 0 db.commit.size) = Lib.returned (db.read 0 db.size)
  getRecord : ∀ i ≤ db.size,
    Lib.returned (db.commit.getRecord E.raw (some i)) = Lib.returned (db.getRecord E.raw (some i))
  fields : ∀ i ≤ db.size, Lib.returned (db.commit.root.getRecordFields i) =
    Lib.returned (db.root.getRecordFields i)

/-- What `commit` finds: nothing to write, or the position at the end of the file. -/
def AtEnd (db : Database) : Prop :=
  db.layer.localChanges = [] ∨ db.root.mFile.pos = db.root.mFile.size

section Run

variable {E : Externals} {db : Database} {d : StateDatabase} {ops : List Operation}

theorem commitAppends_iff : CommitAppends E (.file d) ↔ AtEnd (.file d) := by
  constructor
  · intro h
    exact d.content_commit_iff.mp h.content
  · intro h
    have hcontent := d.content_commit_iff.mpr h
    have hlog := StateDatabase.log_commit hcontent
    have hsize : d.commit.size = d.size := by
      have hlen := congrArg List.length hlog
      simpa only [StateDatabase.log, StateDatabase.size, File.size, List.length_append] using hlen
    refine ⟨hcontent, ?_, fun i hi => ?_, fun i hi => ?_⟩
    · simp only [Lib.returned, Database.read, Database.commit,
        Database.size, StateDatabase.read_eq (Nat.zero_le _)]
      rw [← StateDatabase.log, ← StateDatabase.log, hlog, hsize]
    · obtain ⟨d₁, -, h₁⟩ := StateDatabase.getRecord_eq (d := d) hi E.raw
      obtain ⟨d₂, -, h₂⟩ := StateDatabase.getRecord_eq (hi.trans_eq hsize.symm) E.raw
      simp only [Lib.returned, Database.getRecord, Database.commit,
        h₁, h₂, hlog]
    · obtain ⟨r, hr⟩ := StateDatabase.Reads.getRecordFields (hi.trans_eq d.length_log.symm)
      obtain ⟨d₁, h₁, -⟩ := hr d rfl
      obtain ⟨d₂, h₂, -⟩ := hr d.commit hlog
      simp only [Lib.returned, Database.commit, Database.root, h₁, h₂]

theorem Operation.step_file (op : Operation) (d : StateDatabase) :
    ∃ d', op.step E (.file d) = .file d' := by
  by_cases hop : op = .commit
  · rw [hop]
    exact ⟨d.commit, rfl⟩
  · obtain ⟨p, f, -, -, hf⟩ := Grows.of_call (E := E) hop (.file d)
    exact ⟨_, hf⟩

theorem Operation.commits_cons (op : Operation) (h : op ≠ .commit) :
    Operation.commits E (op :: ops) db = Operation.commits E ops (step E db op) := by
  cases op with
  | commit => exact absurd rfl h
  | _ => rfl

theorem Operation.exists_file (h : db ∈ Operation.commits E ops (.file d)) :
    ∃ d', db = .file d' := by
  induction ops generalizing d with
  | nil => simp [commits] at h
  | cons op ops ih =>
    obtain ⟨d', hd'⟩ := op.step_file (E := E) d
    by_cases hop : op = .commit
    · subst hop
      simp only [commits, List.mem_cons] at h
      cases h with
      | inl h => exact ⟨d, h⟩
      | inr h => exact ih (hd' ▸ h)
    · rw [commits_cons op hop, hd'] at h
      exact ih h

theorem commits_append_iff (E : Externals) (ops : List Operation) (d : StateDatabase) :
    (∀ db ∈ Operation.commits E ops (.file d), CommitAppends E db) ↔
      ∀ db ∈ Operation.commits E ops (.file d), AtEnd db := by
  apply forall₂_congr
  intro db hdb
  obtain ⟨d', rfl⟩ := Operation.exists_file hdb
  exact commitAppends_iff

end Run

def lookupBetweenCommits : List Operation :=
  [.setPublicKey [1] 7, .setPublicKey [2] 8, .commit, .getPublicKey [1], .setPublicKey [3] 9,
    .commit]

theorem commit_overwrites : ¬ ∀ (ops : List Operation) (d : StateDatabase),
    ∀ db ∈ Operation.commits (Wire.externals fun _ => 0) ops (.file d),
      CommitAppends (Wire.externals fun _ => 0) db := by
  intro h
  have hall : ((Operation.commits (Wire.externals fun _ => 0) lookupBetweenCommits
      (.file {})).all fun db => db.commit.root.mFile.content =
        db.root.mFile.content ++ db.layer.localChanges) = true := by
    rw [List.all_eq_true]
    intro db hdb
    exact decide_eq_true (h lookupBetweenCommits {} db hdb).content
  revert hall
  decide +kernel

end Gpm
