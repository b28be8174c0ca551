import Gpm.StateDb.Filed

namespace Gpm

open Lib (Keeps Runs)

variable {E : Externals} {db db' : Database} {es : List Posting}

theorem Filed.posts {fs : List Posting} (h : Filed E db es) (hfs : (db.ledger E).EditsAll E fs) :
    Filed E (db.posts E fs) (es ++ fs) := by
  induction fs generalizing db es with
  | nil => rwa [List.append_nil]
  | cons e fs ih =>
    have hstep := ih (h.post hfs.1) (by rw [h.indexed.ledger_post]; exact hfs.2)
    rwa [List.append_assoc] at hstep

def Advances (E : Externals) (db db' : Database) : Prop :=
  ∀ es, Filed E db es → ∃ fs, Filed E db' (es ++ fs)

namespace Advances

theorem refl (db : Database) : Advances E db db := fun es h => ⟨[], by rwa [List.append_nil]⟩

theorem trans {db'' : Database} (h : Advances E db db') (h' : Advances E db' db'') :
    Advances E db db'' := by
  intro es hes
  obtain ⟨fs, hfs⟩ := h es hes
  obtain ⟨gs, hgs⟩ := h' _ hfs
  exact ⟨fs ++ gs, by rwa [← List.append_assoc]⟩

theorem moved (db : Database) (p : ℕ) : Advances E db (db.moved p) := fun es h =>
  ⟨[], by rw [List.append_nil]; exact h.moved p⟩

variable {α : Type} {x : DbM α}

theorem of_runs (h : ∀ {db es}, Filed E db es →
    ∃ a fs, Runs (trace E) x db a fs ∧ (db.ledger E).EditsAll E fs) : Keeps (Advances E) x := by
  intro db es hes
  obtain ⟨a, fs, ⟨db', hrun, p, rfl⟩, hedits⟩ := h hes
  refine ⟨fs, ?_⟩
  rw [hrun]
  apply (hes.moved p).posts
  rwa [Database.ledger_moved]

theorem of_runs_nil (h : ∀ {db}, Indexed E db → ∃ a, Runs (trace E) x db a []) :
    Keeps (Advances E) x :=
  of_runs fun hes => by
    obtain ⟨a, ha⟩ := h hes.indexed
    exact ⟨a, [], ha, trivial⟩

theorem of_read (pos len : ℕ) : Keeps (Advances E) (DbM.read pos len) := by
  intro db
  obtain ⟨p, -, hp⟩ := db.read_moves pos len
  rw [DbM.read, hp]
  exact moved db p

theorem of_calculateStateHash : Keeps (Advances E) (DbM.calculateStateHash E) :=
  DbM.calculateStateHash_keeps refl trans (of_read 0)

theorem framed (E : Externals) : Framed E (Advances E) where
  refl := refl
  trans := trans
  getPublicKey n := of_runs_nil fun h => ⟨_, DbM.getPublicKey_runs h n⟩
  getNameIndex n := of_runs_nil fun h => ⟨_, DbM.getNameIndex_runs h n⟩
  getBalance A S := of_runs_nil fun h => ⟨_, DbM.getBalance_runs h A S⟩
  setPublicKey n k := of_runs fun hes =>
    ⟨true, _, DbM.setPublicKey_runs hes.indexed n k, ⟨k, rfl⟩, trivial⟩
  defineDestination n := of_runs fun {db es} hes => by
    have hrun := DbM.defineDestination_answers hes.indexed n
    cases hd : Ledger.destination E (db.ledger E) n with
    | none =>
      rw [hd] at hrun
      exact ⟨_, _, hrun, trivial⟩
    | some fs =>
      rw [hd] at hrun
      refine ⟨_, _, hrun, ?_⟩
      obtain ⟨-, rfl⟩ | ⟨hnone, rfl⟩ := Ledger.of_destination hd
      · trivial
      · refine ⟨⟨.empty, ?_⟩, trivial⟩
        rw [Ledger.setKey, hnone]
  appendTransfer tl := of_runs fun _ =>
    ⟨(), _, Runs.get_bind (DbM.appendTransfer_runs tl rfl), fun _ => rfl, trivial⟩
  appendStart _ _ := of_runs fun _ =>
    ⟨true, _, DbM.appendRecord_runs rfl, fun _ => rfl, trivial⟩
  appendEnd _ _ := of_runs fun _ =>
    ⟨true, _, DbM.appendRecord_runs rfl, fun _ => rfl, trivial⟩
  calculateStateHash := of_calculateStateHash

end Advances

inductive Update
  | setPublicKey (name : Name) (pk : PublicKey)
  | issue (type : Name) (trxPos : Index)
  | transferBalance (from_ to_ type : Name) (amnt : UInt64) (trxPos : Index)
  | apply (trx : SignedTransaction) (genName : Name)
  | applyBlock (b : Block) (gen : Name) (trxs : List SignedTransaction) (checksum : Hashcode)

namespace Update

def call (E : Externals) : Update → DbM Unit
  | .setPublicKey name pk => discard <| DbM.setPublicKey E name pk
  | .issue type trxPos => DbM.issue E type trxPos
  | .transferBalance from_ to_ type amnt trxPos =>
    DbM.transferBalance E from_ to_ type amnt trxPos
  | .apply trx genName => discard <| DbM.apply E trx genName
  | .applyBlock b gen trxs checksum => discard <| DbM.applyBlock E b gen trxs checksum

def step (E : Externals) (db : Database) (u : Update) : Database := Lib.finalState (u.call E db)

theorem kept {R : Database → Database → Prop} (h : Framed E R) (db : Database) (u : Update) :
    R db (u.step E db) := by
  cases u with
  | setPublicKey n k => exact Keeps.discard (h.setPublicKey n k) db
  | issue type trxPos => exact h.issue type trxPos db
  | transferBalance from_ to_ type amnt trxPos =>
    exact h.transferBalance from_ to_ type amnt trxPos db
  | apply trx genName => exact Keeps.discard (h.apply trx genName) db
  | applyBlock b gen trxs checksum => exact Keeps.discard (h.applyBlock b gen trxs checksum) db

theorem step_trx (base : Database) (l : Layer) (u : Update) :
    ∃ p l', u.step E (.trx base l) = .trx (base.moved p) l' := by
  obtain ⟨p, l', -, h⟩ := Grows.trx (u.kept (Grows.framed E) (.trx base l))
  exact ⟨p, l', h⟩

end Update

inductive Evolves (E : Externals) (db : Database) : Database → Prop
  | refl : Evolves E db db
  | update {d : Database} (u : Update) : Evolves E db d → Evolves E db (u.step E d)
  | read {d : Database} (p : ℕ) : Evolves E db d → Evolves E db (d.moved p)
  | overlay {d : Database} : Evolves E db d → Evolves E db (.trx d {})
  | settle {d d' : Database} : Evolves E db d → d.Settles d' → Evolves E db d'

theorem Evolves.advances (h : Evolves E db db') : Advances E db db' := by
  induction h with
  | refl => exact Advances.refl db
  | update u _ ih => exact ih.trans (u.kept (Advances.framed E) _)
  | read p _ ih => exact ih.trans (Advances.moved _ p)
  | overlay _ ih =>
    intro es hes
    obtain ⟨fs, hfs⟩ := ih es hes
    exact ⟨fs, hfs.overlay⟩
  | settle _ hs ih =>
    intro es hes
    obtain ⟨fs, hfs⟩ := ih es hes
    exact ⟨fs, hfs.settle hs⟩

end Gpm
