import Gpm.StateDb.Filed
import Gpm.StateDb.LastBlock

namespace Gpm

open Lib.Format (digits value)

def Record.blk? : Record → Option Block
  | .endBlock b _ => some b
  | _ => none

def lastBlockOf (rs : List StateRecord) : Block :=
  ((rs.filterMap fun r => r.data.blk?).getLast?).getD default

variable {E : Externals} {es fs : List Posting} {e : Posting} {pos : ℕ} {r : StateRecord}

theorem lastBlockOf_concat_some {rs : List StateRecord} {b : Block} (h : r.data.blk? = some b) :
    lastBlockOf (rs ++ [r]) = b := by
  simp [lastBlockOf, h]

theorem lastBlockOf_concat_none {rs : List StateRecord} (h : r.data.blk? = none) :
    lastBlockOf (rs ++ [r]) = lastBlockOf rs := by
  simp [lastBlockOf, h]

theorem holdsRecord_packPosts (h : r ∈ postRecords E pos es) :
    HoldsRecord E (packPosts E pos es) pos r := by
  induction es generalizing pos with
  | nil => cases h
  | cons e es ih =>
    rw [postRecords, List.mem_cons] at h
    rw [packPosts]
    cases h with
    | inl h =>
      subst h
      exact ⟨[], packPosts E (pos + (E.raw.pack ⟨e.record, pos⟩).length) es, rfl, rfl⟩
    | inr h => exact (ih h).append_left

theorem length_packPosts_le :
    (packPosts E pos es).length ≤ (packPosts E pos (es ++ fs)).length := by
  rw [packPosts_append, List.length_append]
  exact Nat.le_add_right _ _

theorem postRecords_snoc : postRecords E 0 (es ++ [e]) =
    postRecords E 0 es ++ [⟨e.record, (packPosts E 0 es).length⟩] := by
  rw [postRecords_append, Nat.zero_add]
  rfl

theorem mem_postRecords_snoc :
    (⟨e.record, (packPosts E 0 es).length⟩ : StateRecord) ∈ postRecords E 0 (es ++ [e]) := by
  rw [postRecords_snoc]
  exact List.mem_append_right _ List.mem_cons_self

theorem packPosts_trailing (hE : TrailingPrevious E) (hsize : (packPosts E 0 es).length < 2 ^ 63) :
    ∃ front, packPosts E 0 (es ++ [e]) = front ++ digits 8 (packPosts E 0 es).length := by
  obtain ⟨front, hfront⟩ := hE ⟨e.record, (packPosts E 0 es).length⟩ hsize
  refine ⟨packPosts E 0 es ++ front, ?_⟩
  rw [packPosts_append, packPosts, packPosts, Nat.zero_add, List.append_nil, hfront,
    List.append_assoc]

namespace Database

structure Written (E : Externals) (db : Database) (es : List Posting) : Prop where
  rooted : db.Rooted
  flat : db.flat = packPosts E 0 es
  record : ∀ r ∈ postRecords E 0 es, db.recordAt E.raw r.previous = some r

inductive Stacked (E : Externals) : Database → Prop
  | blank {db : Database} : db.Blank → Stacked E db
  | appendRecord {db : Database} (r : Record) : Stacked E db →
      Stacked E (Lib.finalState (DbM.appendRecord E r db))
  | append {db : Database} {l : Layer} (es : List Posting) : Stacked E db →
      l.localChanges = packPosts E db.size es → Stacked E (db.append l)
  | overlay {db : Database} : Stacked E db → Stacked E (.trx db {})
  | commit {db db' : Database} : Stacked E db → db.Settles db' → Stacked E db'
  | read {db : Database} (p : ℕ) : Stacked E db → Stacked E (db.moved p)

variable {db db' : Database} {f : Layer → Layer} {bytes : List UInt8}

theorem flat_modifyLayer (h : db.Rooted)
    (hf : ∀ l, (f l).localChanges = l.localChanges ++ bytes) :
    (db.modifyLayer f).flat = db.flat ++ bytes := by
  cases db with
  | null => exact h.elim
  | file d => simp only [modifyLayer, flat, hf, List.append_assoc]
  | trx base l => simp only [modifyLayer, flat, hf, List.append_assoc]

theorem recordAt_modifyLayer_size (h : db.Rooted)
    (hf : ∀ l, (f l).localChanges = l.localChanges ++ bytes)
    (hr : HoldsRecord E bytes db.size r) :
    (db.modifyLayer f).recordAt E.raw r.previous = some r := by
  cases db with
  | null => exact h.elim
  | file d =>
    have hall : HoldsRecord E (d.mFile.content ++ d.localChanges ++ bytes) 0 r := by
      apply HoldsRecord.append_left
      rwa [List.length_append, Nat.zero_add]
    obtain ⟨-, rest, hdrop⟩ := hall.drop
    rw [Nat.sub_zero, List.append_assoc, ← hf] at hdrop
    simp only [modifyLayer, recordAt, hdrop, E.raw.unpack_pack, Option.map_some]
  | trx base l =>
    have hall : HoldsRecord E (l.localChanges ++ bytes) base.size r := hr.append_left
    obtain ⟨hle, rest, hdrop⟩ := hall.drop
    rw [← hf] at hdrop
    simp only [modifyLayer, recordAt, if_neg (Nat.not_lt.mpr hle), hdrop, E.raw.unpack_pack,
      Option.map_some]

theorem Settles.carries (h : Settles db db') (hdb : db.Rooted) :
    Carries E db db' ∧ db'.Rooted := by
  induction h with
  | @merge base l =>
    have hbase : base.Rooted := hdb
    exact ⟨Carries.merge hbase.ne_null, (rooted_modifyLayer _).mpr hbase⟩
  | @commit base l =>
    have hbase : base.Rooted := hdb
    exact ⟨(Carries.merge hbase.ne_null).trans (Carries.overlay _),
      (rooted_modifyLayer _).mpr hbase⟩
  | root h => exact ⟨Carries.of_content h, trivial⟩
  | under _ ih => exact ⟨(ih hdb).1.rebase _, (ih hdb).2⟩

theorem finalState_appendRecord (r : Record) :
    Lib.finalState (DbM.appendRecord E r db) = db.modifyLayer fun l =>
      { l with localChanges := l.localChanges ++ E.raw.pack ⟨r, db.size⟩ } := rfl

namespace Written

theorem size (h : db.Written E es) : db.size = (packPosts E 0 es).length := by
  rw [← length_flat, h.flat]

theorem carries (h : db.Written E es) (hc : Carries E db db') (hroot : db'.Rooted) :
    db'.Written E es :=
  ⟨hroot, hc.flat.trans h.flat, fun r hr => hc.record _ _ (h.record r hr)⟩

theorem moved (h : db.Written E es) (p : ℕ) : (db.moved p).Written E es :=
  h.carries (Carries.moved h.rooted.ne_null p) ((rooted_moved p).mpr h.rooted)

theorem modifyLayer (h : db.Written E es)
    (hf : ∀ l, (f l).localChanges = l.localChanges ++ packPosts E db.size fs) :
    (db.modifyLayer f).Written E (es ++ fs) where
  rooted := (rooted_modifyLayer f).mpr h.rooted
  flat := by rw [flat_modifyLayer h.rooted hf, h.flat, packPosts_append, h.size, Nat.zero_add]
  record r hr := by
    rw [postRecords_append, Nat.zero_add, ← h.size, List.mem_append] at hr
    cases hr with
    | inl hr => exact recordAt_modifyLayer E.pack_ne_nil (fun l => ⟨_, hf l⟩) (h.record r hr)
    | inr hr => exact recordAt_modifyLayer_size h.rooted hf (holdsRecord_packPosts hr)

theorem log (h : db.Written E es) : db.log E = postRecords E 0 es := by
  rw [Database.log, h.flat]
  apply readLog_packPosts
  rw [h.size]
  exact length_le_packPosts 0

theorem readLocation (h : db.Written E (es ++ [e] ++ fs)) (hE : TrailingPrevious E)
    (hsize : db.size < 2 ^ 63) {lastRecord : List UInt8} (hlen : lastRecord.length = 8) :
    8 ≤ (packPosts E 0 (es ++ [e])).length ∧
      ∃ p, DbM.readLocation ((packPosts E 0 (es ++ [e])).length - 8) lastRecord db =
        .ok (digits 8 (packPosts E 0 es).length) (db.moved p) := by
  have hflat := h.flat
  rw [packPosts_append, Nat.zero_add] at hflat
  have hdb : db.size = _ := h.size
  rw [packPosts_append, Nat.zero_add, List.length_append] at hdb
  have hprefix : (packPosts E 0 es).length ≤ (packPosts E 0 (es ++ [e])).length :=
    length_packPosts_le
  obtain ⟨front, hfront⟩ := packPosts_trailing (e := e)
      hE (Nat.lt_of_le_of_lt hprefix (by omega))
  have hfull := congrArg List.length hfront
  rw [List.length_append, Lib.Format.length_digits] at hfull
  have hdigits : (digits 8 (packPosts E 0 es).length).length = 8 := Lib.Format.length_digits 8 _
  have hread : (db.flat.drop ((packPosts E 0 (es ++ [e])).length - 8)).take 8 =
      digits 8 (packPosts E 0 es).length := by
    rw [hflat, hfull, Nat.add_sub_cancel, hfront, List.append_assoc, List.drop_left' rfl,
      List.take_left' hdigits]
  have hpos : (packPosts E 0 (es ++ [e])).length - 8 ≤ db.size := by omega
  have hok : DbM.readLocation _ lastRecord db = _ :=
    Logs.readLocation_eq hpos (by rw [hread, hlen, hdigits])
  rw [hread] at hok
  exact ⟨by omega, _, hok⟩

theorem getRecord (h : db.Written E es) (hr : r ∈ postRecords E 0 es) :
    ∃ p n, DbM.getRecord E (some r.previous) db = .ok (some (r, n)) (db.moved p) :=
  getRecord_of_recordAt E.pack_ne_nil (h.record r hr)

end Written

namespace Stacked

theorem written (h : Stacked E db) : ∃ es, db.Written E es := by
  induction h with
  | blank h => exact ⟨[], h.rooted, h.flat, fun r hr => by cases hr⟩
  | appendRecord r _ ih =>
    obtain ⟨es, hes⟩ := ih
    refine ⟨es ++ [⟨r, none⟩], ?_⟩
    rw [finalState_appendRecord]
    apply hes.modifyLayer
    intro l
    rw [packPosts, packPosts, List.append_nil]
  | append fs _ hl ih =>
    obtain ⟨es, hes⟩ := ih
    refine ⟨es ++ fs, hes.modifyLayer fun l => ?_⟩
    rw [← hl]
    rfl
  | overlay _ ih =>
    obtain ⟨es, hes⟩ := ih
    exact ⟨es, hes.carries (Carries.overlay _) hes.rooted⟩
  | commit _ hs ih =>
    obtain ⟨es, hes⟩ := ih
    obtain ⟨hc, hroot⟩ := hs.carries hes.rooted
    exact ⟨es, hes.carries hc hroot⟩
  | read p _ ih =>
    obtain ⟨es, hes⟩ := ih
    exact ⟨es, hes.moved p⟩

end Stacked

end Database

section Loop

variable {b : Block} {p fuel : ℕ} {lastRecord : List UInt8}

theorem lastBlockLoop_of_blk (h : r.data.blk? = some b) :
    DbM.lastBlockLoop E fuel r lastRecord = pure b := by
  obtain ⟨data, previous⟩ := r
  cases data with
  | endBlock b' gen =>
    cases h
    unfold DbM.lastBlockLoop
    rfl
  | _ => cases h

theorem lastBlockLoop_of_start (h : r.data.blk? = none) (hstart : r.previous = 0) :
    DbM.lastBlockLoop E fuel r lastRecord = pure default := by
  obtain ⟨data, previous⟩ := r
  have hstart : previous = 0 := hstart
  cases data with
  | endBlock => cases h
  | _ =>
    unfold DbM.lastBlockLoop
    simp only [if_pos hstart]

theorem lastBlockLoop_of_none {db db' db'' : Database} {r' : StateRecord} {n : ℕ}
    {bytes : List UInt8} (h : r.data.blk? = none) (hstart : r.previous ≠ 0)
    (hread : DbM.readLocation ((r.previous + 2 ^ 64 - 8) % 2 ^ 64) lastRecord db = .ok bytes db')
    (hrecord : DbM.getRecord E (some (value bytes)) db' = .ok (some (r', n)) db'') :
    DbM.lastBlockLoop E (fuel + 1) r lastRecord db = DbM.lastBlockLoop E fuel r' bytes db'' := by
  obtain ⟨data, previous⟩ := r
  have hstart : previous ≠ 0 := hstart
  cases data with
  | endBlock => cases h
  | _ =>
    rw [DbM.lastBlockLoop.eq_def]
    simp only [if_neg hstart]
    rw [Lib.bind_ok hread, Lib.bind_ok hrecord]

end Loop

namespace Database

variable {db : Database} {fuel : ℕ} {lastRecord : List UInt8}

namespace Written

theorem lastBlockLoop (h : db.Written E (es ++ [e] ++ fs)) (hE : TrailingPrevious E)
    (hsize : db.size < 2 ^ 63) (hfuel : es.length ≤ fuel) (hlen : lastRecord.length = 8) :
    ∃ p, DbM.lastBlockLoop E fuel ⟨e.record, (packPosts E 0 es).length⟩ lastRecord db =
      .ok (lastBlockOf (postRecords E 0 (es ++ [e]))) (db.moved p) := by
  induction es using List.reverseRecOn generalizing db e fs fuel lastRecord with
  | nil =>
    refine ⟨db.root.mFile.pos, ?_⟩
    rw [moved_self]
    cases hb : e.record.blk? with
    | some b =>
      rw [lastBlockLoop_of_blk hb, postRecords_snoc, lastBlockOf_concat_some hb]
      rfl
    | none =>
      rw [lastBlockLoop_of_start hb rfl, postRecords_snoc, lastBlockOf_concat_none hb]
      rfl
  | append_singleton es e' ih =>
    cases hb : e.record.blk? with
    | some b =>
      refine ⟨db.root.mFile.pos, ?_⟩
      rw [moved_self, lastBlockLoop_of_blk hb, postRecords_snoc, lastBlockOf_concat_some hb]
      rfl
    | none =>
      obtain ⟨fuel, rfl⟩ : ∃ n, fuel = n + 1 := by
        rw [List.length_append] at hfuel
        exact Nat.exists_eq_add_one.mpr (Nat.lt_of_lt_of_le (Nat.succ_pos _) hfuel)
      have hassoc : es ++ [e'] ++ [e] ++ fs = es ++ [e'] ++ (e :: fs) := by
        simp only [List.append_assoc, List.cons_append, List.nil_append]
      rw [hassoc] at h
      obtain ⟨hge, p, hread⟩ := h.readLocation hE hsize hlen
      have hle : (packPosts E 0 (es ++ [e'])).length ≤ db.size := by
        rw [h.size]
        exact length_packPosts_le
      have hback : ((packPosts E 0 (es ++ [e'])).length + 2 ^ 64 - 8) % 2 ^ 64 =
          (packPosts E 0 (es ++ [e'])).length - 8 := by omega
      have hposition : (packPosts E 0 es).length < 256 ^ 8 := by
        have hprefix : (packPosts E 0 es).length ≤ (packPosts E 0 (es ++ [e'])).length :=
          length_packPosts_le
        omega
      have hmem : (⟨e'.record, (packPosts E 0 es).length⟩ : StateRecord) ∈
          postRecords E 0 (es ++ [e'] ++ (e :: fs)) := by
        rw [postRecords_append]
        exact List.mem_append_left _ mem_postRecords_snoc
      obtain ⟨q, n, hrecord⟩ := (h.moved p).getRecord hmem
      rw [moved_moved] at hrecord
      obtain ⟨q', hrest⟩ := ih (h.moved q) (by rwa [size_moved])
        (by simpa using hfuel) (Lib.Format.length_digits 8 (packPosts E 0 es).length)
      refine ⟨q', ?_⟩
      have hstart : (packPosts E 0 (es ++ [e'])).length ≠ 0 := by omega
      rw [← hback] at hread
      have hvalue := Lib.Format.value_digits 8 (packPosts E 0 es).length hposition
      have hturn : DbM.lastBlockLoop E (fuel + 1)
          ⟨e.record, (packPosts E 0 (es ++ [e'])).length⟩ lastRecord db = _ :=
        lastBlockLoop_of_none hb hstart hread (by rw [hvalue]; exact hrecord)
      have hlast : lastBlockOf (postRecords E 0 (es ++ [e'] ++ [e])) =
          lastBlockOf (postRecords E 0 (es ++ [e'])) := by
        rw [postRecords_snoc]
        exact lastBlockOf_concat_none hb
      rw [hturn, hrest, moved_moved, hlast]

end Written

end Database

/-- The last block of a log is found, however the log came to be. -/
theorem findLastBlock_eq {db : Database} (h : Database.Stacked E db) (hE : TrailingPrevious E)
    (hsize : db.size < 2 ^ 63) :
    ∃ p, DbM.findLastBlock E db = .ok (lastBlockOf (db.log E)) (db.moved p) := by
  obtain ⟨es, hes⟩ := h.written
  rw [hes.log]
  unfold DbM.findLastBlock
  rw [Lib.get_bind]
  cases es using List.reverseRecOn with
  | nil =>
    refine ⟨db.root.mFile.pos, ?_⟩
    rw [Database.moved_self, if_pos (by simp [hes.size, packPosts])]
    rfl
  | append_singleton es e =>
    have hnil : db.Written E (es ++ [e] ++ []) := by rwa [List.append_nil]
    obtain ⟨hge, p, hread⟩ :=
        hnil.readLocation hE hsize (Lib.Format.length_digits 8 (db.size - 8))
    rw [← hes.size] at hge hread
    obtain ⟨q, n, hrecord⟩ := (hes.moved p).getRecord mem_postRecords_snoc
    rw [Database.moved_moved] at hrecord
    have hfuel : es.length ≤ db.size := by
      rw [hes.size]
      exact Nat.le_trans (length_le_packPosts 0) length_packPosts_le
    obtain ⟨q', hloop⟩ := (hnil.moved q).lastBlockLoop hE (by rwa [Database.size_moved]) hfuel
      (Lib.Format.length_digits 8 (packPosts E 0 es).length)
    have hposition : (packPosts E 0 es).length < 256 ^ 8 := by
      have hprefix : (packPosts E 0 es).length ≤ (packPosts E 0 (es ++ [e])).length :=
        length_packPosts_le
      rw [← hes.size] at hprefix
      omega
    refine ⟨q', ?_⟩
    rw [if_neg (by omega), Lib.bind_ok hread, Lib.Format.value_digits _ _ hposition,
      Lib.bind_ok hrecord]
    rw [Database.moved_moved] at hloop
    exact hloop

def startedTwice : Database :=
  let E := Wire.externals fun _ => 0
  let bottom := Lib.finalState (DbM.appendRecord E (.endBlock { nonce := 3 } [1]) (.file {}))
  let middle := Lib.finalState (DbM.appendRecord E (.startTrx 4 5) (.trx bottom {}))
  Lib.finalState (DbM.appendRecord E (.startTrx 6 7) (.trx middle {}))

theorem findLastBlock_eq_startedTwice :
    ∃ p, DbM.findLastBlock (Wire.externals fun _ => 0) startedTwice =
      .ok (lastBlockOf (startedTwice.log (Wire.externals fun _ => 0))) (startedTwice.moved p) :=
  have hblank : (Database.file {}).Blank := ⟨rfl, rfl, rfl, rfl, rfl, rfl⟩
  findLastBlock_eq (.appendRecord _ (.overlay (.appendRecord _ (.overlay (.appendRecord _
    (.blank hblank)))))) (trailingPrevious_wire _) (by decide +kernel)

example : lastBlockOf (startedTwice.log (Wire.externals fun _ => 0)) = { nonce := 3 } := by
  decide +kernel

end Gpm
