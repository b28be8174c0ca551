import Gpm.StateDb.View
import Gpm.StateDb.Wire

namespace Gpm

structure Chunked (size : ℕ) (chunks : List (List UInt8)) (bytes : List UInt8) : Prop where
  flatten : chunks.flatten = bytes
  full : ∀ c ∈ chunks.dropLast, c.length = size
  last : ∀ c ∈ chunks.getLast?, c ≠ [] ∧ c.length ≤ size

def stateHash (E : Externals) (log : List UInt8) : Hashcode :=
  E.hashHashes (if log = [] then [] else [E.hashBytes log])

namespace DbM

variable {E : Externals} {db db' : Database} {fuel : ℕ}

theorem hashLoop_ne_ok (fuel pos : ℕ) (tmp : List UInt8) (hashes : List Hashcode)
    (reads : List ℕ) (x : List UInt8 × List Hashcode × List ℕ) :
    hashLoop E fuel pos chunkSize tmp hashes reads db ≠ .ok x db' := by
  induction fuel generalizing pos tmp hashes reads db with
  | zero =>
    unfold hashLoop
    rw [if_pos rfl]
    intro h
    cases h
  | succ fuel ih =>
    unfold hashLoop
    rw [if_pos rfl]
    intro h
    obtain ⟨bytes, s, -, hs⟩ := Lib.of_bind_ok h
    exact ih _ _ _ _ hs

theorem hashLoop_of_ne {pos r : ℕ} {tmp : List UInt8} {hashes : List Hashcode} {reads : List ℕ}
    (h : r ≠ chunkSize) : hashLoop E fuel pos r tmp hashes reads = pure (tmp, hashes, reads) := by
  unfold hashLoop
  rw [if_neg h]

theorem read_chunk (db : Database) : read 0 chunkSize db =
    .ok (db.flat.take chunkSize) (db.moved (db.root.mFile.readPos 0 chunkSize)) :=
  Database.read_eq (Nat.zero_le _) (by decide)

theorem stateHashReads_of_lt (E : Externals) (fuel : ℕ) (h : db.size < chunkSize) :
    stateHashReads E fuel db =
      .ok (stateHash E db.flat, [0]) (db.moved (db.root.mFile.readPos 0 chunkSize)) := by
  have hlen : db.flat.length < chunkSize := by rwa [Database.length_flat]
  have htake : db.flat.take chunkSize = db.flat := List.take_of_length_le (Nat.le_of_lt hlen)
  unfold stateHashReads
  rw [Lib.bind_ok (read_chunk db), htake]
  simp only [hashLoop_of_ne (Nat.ne_of_lt hlen), pure_bind, List.take_left', stateHash,
    List.nil_append, ne_eq, List.length_eq_zero_iff, ite_not]
  rfl

theorem stateHashReads_ne_ok (h : chunkSize ≤ db.size) (x : Hashcode × List ℕ) :
    stateHashReads E fuel db ≠ .ok x db' := by
  have hlen : (db.flat.take chunkSize).length = chunkSize := by
    rw [List.length_take, Database.length_flat, Nat.min_eq_left h]
  unfold stateHashReads
  rw [Lib.bind_ok (read_chunk db)]
  intro hok
  obtain ⟨y, s, hloop, -⟩ := Lib.of_bind_ok hok
  rw [hlen] at hloop
  exact hashLoop_ne_ok _ _ _ _ _ _ hloop

theorem calculateStateHash_eq_ok_iff {hash : Hashcode} :
    calculateStateHash E db = .ok hash db' ↔ db.size < chunkSize ∧
      hash = stateHash E db.flat ∧ db' = db.moved (db.root.mFile.readPos 0 chunkSize) := by
  cases Nat.lt_or_ge db.size chunkSize with
  | inl h =>
    unfold calculateStateHash
    rw [Lib.bind_ok (stateHashReads_of_lt E 0 h)]
    constructor
    · intro hok
      cases hok
      exact ⟨h, rfl, rfl⟩
    · rintro ⟨-, rfl, rfl⟩
      rfl
  | inr h =>
    constructor
    · intro hok
      obtain ⟨x, s, hx, -⟩ := Lib.of_bind_ok hok
      exact absurd hx (stateHashReads_ne_ok h x)
    · intro hok
      exact absurd hok.1 (Nat.not_lt.mpr h)

theorem calculateStateHash_of_ge (h : chunkSize ≤ db.size) :
    ∃ db', calculateStateHash E db = .error .diverges db' := by
  have hlen : (db.flat.take chunkSize).length = chunkSize := by
    rw [List.length_take, Database.length_flat, Nat.min_eq_left h]
  have hreads : stateHashReads E 0 db =
      .error .diverges (db.moved (db.root.mFile.readPos 0 chunkSize)) := by
    unfold stateHashReads
    rw [Lib.bind_ok (read_chunk db), hlen]
    apply Lib.bind_error
    unfold hashLoop
    rw [if_pos rfl]
    rfl
  exact ⟨_, Lib.bind_error hreads⟩

theorem calculateStateHash_error {e : Fault}
    (herr : calculateStateHash E db = .error e db') : e = .diverges := by
  cases Nat.lt_or_ge db.size chunkSize with
  | inl h => cases herr.symm.trans (calculateStateHash_eq_ok_iff.mpr ⟨h, rfl, rfl⟩)
  | inr h =>
    obtain ⟨db₁, hhash⟩ := calculateStateHash_of_ge (E := E) h
    cases herr.symm.trans hhash
    rfl

end DbM

theorem chunked_single {size : ℕ} {bytes : List UInt8} (h : bytes.length ≤ size) :
    Chunked size (if bytes = [] then [] else [bytes]) bytes := by
  split
  · rename_i hnil
    exact ⟨hnil.symm, by simp, by simp⟩
  · rename_i hne
    exact ⟨by simp, by simp, by simp [hne, h]⟩

def HashesLog (E : Externals) (db : Database) : Prop :=
  ∃ fuel hash reads db', DbM.stateHashReads E fuel db = .ok (hash, reads) db' ∧
    (∃ chunks, Chunked DbM.chunkSize chunks db.flat ∧
      hash = E.hashHashes (chunks.map E.hashBytes)) ∧
    ∀ pos ∈ reads, pos ≤ db.size

theorem hashesLog_iff (E : Externals) (db : Database) :
    HashesLog E db ↔ db.size < DbM.chunkSize := by
  constructor
  · rintro ⟨fuel, hash, reads, db', hok, -⟩
    by_contra hge
    exact DbM.stateHashReads_ne_ok (Nat.not_lt.mp hge) _ hok
  · intro h
    refine ⟨0, _, _, _, DbM.stateHashReads_of_lt E 0 h,
      ⟨_, chunked_single (by rw [Database.length_flat]; exact Nat.le_of_lt h), ?_⟩, by simp⟩
    rw [stateHash]
    split <;> rfl

def onlyFile (content : List UInt8) : Database := .file { mFile := { content } }

theorem size_onlyFile (content : List UInt8) : (onlyFile content).size = content.length :=
  Nat.add_zero _

theorem not_hashesLog_fullChunk : ¬ ∀ db, HashesLog (Wire.externals fun _ => 0) db := by
  intro h
  obtain ⟨fuel, hash, reads, db', hok, -⟩ := h (onlyFile (List.replicate DbM.chunkSize 0))
  have hsize : (onlyFile (List.replicate DbM.chunkSize 0)).size = DbM.chunkSize := by
    rw [size_onlyFile, List.length_replicate]
  exact DbM.stateHashReads_ne_ok (Nat.le_of_eq hsize.symm) _ hok

end Gpm
