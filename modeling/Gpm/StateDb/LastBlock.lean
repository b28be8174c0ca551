import Gpm.StateDb.Log

namespace Gpm

open Lib (Keeps)
open Lib.Format (digits value)

namespace DbM

variable (E : Externals)

def readLocation (pos : ℕ) (lastRecord : List UInt8) : DbM (List UInt8) := do
  let bytes ← read pos 8
  return bytes ++ lastRecord.drop bytes.length

/-- The loop of `find_last_block`.  A lookup that finds nothing leaves `r` alone, and the same
turn is taken for ever; `fuel` bounds the turns. -/
def lastBlockLoop : ℕ → StateRecord → List UInt8 → DbM Block
  | _, ⟨.endBlock b _, _⟩, _ => return b
  | fuel, ⟨_, previous⟩, lastRecord =>
    if previous = 0 then return default
    else
      match fuel with
      | 0 => throw .diverges
      | fuel + 1 => do
        let lastRecord ← readLocation ((previous + 2 ^ 64 - 8) % 2 ^ 64) lastRecord
        match ← getRecord E (some (value lastRecord)) with
        | none => throw .diverges
        | some (r, _) => lastBlockLoop fuel r lastRecord

def findLastBlock : DbM Block := do
  let size := (← get).size
  if size < 8 then return default
  else
    let lastRecord ← readLocation (size - 8) (digits 8 (size - 8))
    match ← getRecord E (some (value lastRecord)) with
    | none => return default
    | some (r, _) => lastBlockLoop E size r lastRecord

end DbM

def TrailingPrevious (E : Externals) : Prop :=
  ∀ r : StateRecord, r.previous < 2 ^ 63 → ∃ front, E.raw.pack r =
    front ++ digits 8 r.previous

theorem trailingPrevious_wire (hashBlock : Block → Hashcode) :
    TrailingPrevious (Wire.externals hashBlock) := by
  intro r hr
  have hlast : (Lib.Format.nat 8 (by decide)).pack r.previous = digits 8 r.previous :=
    Lib.Format.pack_nat (by omega)
  rw [← hlast]
  refine ⟨Wire.u16.pack (Wire.id r.data) ++
    (Lib.Format.framed 4 (by decide) (Wire.data (Wire.id r.data))).pack ⟨r.data, rfl⟩, ?_⟩
  rw [List.append_assoc]
  rfl

variable {E : Externals}

def Moves (db db' : Database) : Prop :=
  ∃ p, (db.InFile → p ≤ db.root.mFile.size) ∧ db' = db.moved p

namespace Moves

variable {db db' db'' : Database}

theorem refl (db : Database) : Moves db db := ⟨db.root.mFile.pos, id, by simp⟩

theorem trans (h : Moves db db') (h' : Moves db' db'') : Moves db db'' := by
  obtain ⟨p, hp, rfl⟩ := h
  obtain ⟨q, hq, rfl⟩ := h'
  refine ⟨q, fun hdb => ?_, by simp⟩
  rw [Database.size_root_moved] at hq
  exact hq (Database.inFile_moved (hp hdb))

theorem of_pure {α : Type} (a : α) : Keeps Moves (pure a : DbM α) := Keeps.pure refl a

theorem of_throw {α : Type} (e : Fault) : Keeps Moves (throw e : DbM α) := Keeps.throw refl e

theorem of_bind {α β : Type} {x : DbM α} {f : α → DbM β} (hx : Keeps Moves x)
    (hf : ∀ a, Keeps Moves (f a)) : Keeps Moves (x >>= f) :=
  Keeps.bind (R := Moves) (fun h h' => trans h h') hx hf

theorem of_readLocation (pos : ℕ) (lastRecord : List UInt8) :
    Keeps Moves (DbM.readLocation pos lastRecord) :=
  of_bind (fun db => db.read_moves pos 8) fun _ => of_pure _

theorem of_getRecord (loc : Index) : Keeps Moves (DbM.getRecord E loc) := fun db =>
  db.getRecord_moves E.raw loc

theorem of_lastBlockLoop (fuel : ℕ) (r : StateRecord) (lastRecord : List UInt8) :
    Keeps Moves (DbM.lastBlockLoop E fuel r lastRecord) := by
  induction fuel generalizing r lastRecord with
  | zero =>
    unfold DbM.lastBlockLoop
    split
    · exact of_pure _
    · split
      · exact of_pure _
      · exact of_throw _
  | succ fuel ih =>
    unfold DbM.lastBlockLoop
    split
    · exact of_pure _
    · split
      · exact of_pure _
      · apply of_bind (of_readLocation _ _)
        intro lastRecord'
        apply of_bind (of_getRecord _)
        intro found
        split
        · exact of_throw _
        · exact ih _ _

theorem of_findLastBlock : Keeps Moves (DbM.findLastBlock E) := by
  apply Keeps.get_bind
  intro db
  dsimp only
  split
  · exact of_pure _
  · apply of_bind (of_readLocation _ _)
    intro lastRecord
    apply of_bind (of_getRecord _)
    intro found
    split
    · exact of_pure _
    · exact of_lastBlockLoop _ _ _

end Moves

namespace Database.Logs

variable {db : Database} {es : List Posting} {b : Block} {gen : Name}

theorem readLocation_eq {pos : ℕ} {lastRecord : List UInt8} (hpos : pos ≤ db.size)
    (hlen : lastRecord.length ≤ ((db.flat.drop pos).take 8).length) :
    DbM.readLocation pos lastRecord db =
      .ok ((db.flat.drop pos).take 8) (db.moved (db.root.mFile.readPos pos 8)) := by
  unfold DbM.readLocation
  have hread : DbM.read pos 8 db = _ := Database.read_eq hpos (by decide)
  rw [Lib.bind_ok hread, List.drop_eq_nil_of_le hlen, List.append_nil]
  rfl

theorem findLastBlock (h : db.Logs E (es ++ [endBlock b gen])) (hE : TrailingPrevious E)
    (hsize : (packPosts E 0 es).length < 2 ^ 63) :
    ∃ p, DbM.findLastBlock E db = .ok b (db.moved p) := by
  obtain ⟨front, hfront⟩ := hE ⟨.endBlock b gen, (packPosts E 0 es).length⟩ hsize
  have hflat : db.flat = packPosts E 0 es ++ front ++ digits 8 (packPosts E 0 es).length := by
    rw [h.flat, packPosts_append, packPosts, packPosts, Nat.zero_add, List.append_nil,
      List.append_assoc]
    exact congrArg (packPosts E 0 es ++ ·) hfront
  have hlen : db.size = (packPosts E 0 es ++ front).length + 8 := by
    rw [← Database.length_flat, hflat, List.length_append, Lib.Format.length_digits]
  have hlast : (db.flat.drop (db.size - 8)).take 8 = digits 8 (packPosts E 0 es).length := by
    rw [hlen, Nat.add_sub_cancel, hflat, List.drop_left' rfl]
    exact List.take_of_length_le (Nat.le_of_eq (Lib.Format.length_digits 8 _))
  have hread : DbM.readLocation (db.size - 8) (digits 8 (db.size - 8)) db = _ :=
    readLocation_eq (Nat.sub_le db.size 8) (by rw [hlast]; simp)
  rw [hlast] at hread
  have hmem : (⟨.endBlock b gen, (packPosts E 0 es).length⟩ : StateRecord) ∈
      postRecords E 0 (es ++ [endBlock b gen]) := by
    rw [postRecords_append, Nat.zero_add]
    exact List.mem_append_right _ List.mem_cons_self
  have hmoved := Database.recordAt_moved (db.root.mFile.readPos (db.size - 8) 8) db E.raw
    (packPosts E 0 es).length
  obtain ⟨p, len, hrecord⟩ := Database.getRecord_of_recordAt E.pack_ne_nil
    (hmoved.trans (h.record _ hmem))
  have hrecord : DbM.getRecord E (some (packPosts E 0 es).length) _ = _ := hrecord
  refine ⟨p, ?_⟩
  unfold DbM.findLastBlock
  rw [Lib.get_bind]
  rw [if_neg (by omega), Lib.bind_ok hread, Lib.Format.value_digits _ _ (by omega),
    Lib.bind_ok hrecord]
  unfold DbM.lastBlockLoop
  rw [Database.moved_moved]
  rfl

theorem findLastBlock_nil (h : db.Logs E []) : DbM.findLastBlock E db = .ok default db := by
  unfold DbM.findLastBlock
  rw [Lib.get_bind]
  rw [if_pos (by simp [h.size, packPosts])]
  rfl

end Database.Logs

end Gpm
