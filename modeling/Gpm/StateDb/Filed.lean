import Gpm.StateDb.Commit
import Gpm.StateDb.Log

namespace Gpm

variable (E : Externals)

def HoldsRecord (bytes : List UInt8) (start : ℕ) (r : StateRecord) : Prop :=
  ∃ front rest, bytes = front ++ E.raw.pack r ++ rest ∧ start + front.length = r.previous

namespace Database

def Stands (r : StateRecord) : Database → Prop
  | .null => False
  | .file d => HoldsRecord E (d.mFile.content ++ d.localChanges) 0 r
  | .trx base l =>
    if r.previous < base.size then base.Stands r
    else HoldsRecord E l.localChanges base.size r

def Founded : Database → Prop
  | .null => False
  | .file _ => True
  | .trx base _ => Indexed E base ∧ base.Founded

end Database

variable {E} {bytes : List UInt8} {start : ℕ} {r : StateRecord}

namespace HoldsRecord

theorem drop (h : HoldsRecord E bytes start r) :
    start ≤ r.previous ∧ ∃ rest, bytes.drop (r.previous - start) = E.raw.pack r ++ rest := by
  obtain ⟨front, rest, rfl, hpos⟩ := h
  have hlen : r.previous - start = front.length := by omega
  refine ⟨by omega, rest, ?_⟩
  rw [hlen, List.append_assoc, List.drop_left]

theorem previous_lt (h : HoldsRecord E bytes start r) : r.previous < start + bytes.length := by
  obtain ⟨front, rest, rfl, hpos⟩ := h
  have hpack := List.length_pos_iff.mpr (E.pack_ne_nil r)
  simp only [List.length_append]
  omega

theorem append_right (h : HoldsRecord E bytes start r) (more : List UInt8) :
    HoldsRecord E (bytes ++ more) start r := by
  obtain ⟨front, rest, rfl, hpos⟩ := h
  exact ⟨front, rest ++ more, by simp only [List.append_assoc], hpos⟩

theorem append_left {more : List UInt8} (h : HoldsRecord E bytes (start + more.length) r) :
    HoldsRecord E (more ++ bytes) start r := by
  obtain ⟨front, rest, rfl, hpos⟩ := h
  refine ⟨more ++ front, rest, by simp only [List.append_assoc], ?_⟩
  rw [List.length_append, ← hpos, Nat.add_assoc]

end HoldsRecord

namespace Database

variable {db base : Database} {l : Layer}

theorem Stands.previous_lt (h : db.Stands E r) : r.previous < db.size := by
  induction db with
  | null => exact h.elim
  | file d =>
    have hlt := HoldsRecord.previous_lt h
    simpa [size, StateDatabase.size, File.size] using hlt
  | trx base l ih =>
    unfold Stands at h
    split at h
    · exact Nat.lt_of_lt_of_le (ih h) (Nat.le_add_right _ _)
    · exact h.previous_lt

theorem Stands.getRecord (h : db.Stands E r) :
    ∃ p, db.getRecord E.raw (some r.previous) =
      .ok (some (r, (E.raw.pack r).length)) (db.moved p) := by
  have hlt := h.previous_lt
  induction db with
  | null => exact h.elim
  | file d =>
    obtain ⟨-, rest, hdrop⟩ := HoldsRecord.drop h
    rw [Nat.sub_zero] at hdrop
    have hunpack := E.raw.unpack_pack r rest
    have hlen : (E.raw.pack r ++ rest).length - rest.length = (E.raw.pack r).length := by simp
    obtain ⟨d', ⟨p, -, rfl⟩, hd'⟩ := StateDatabase.getRecord_eq (d := d)
        (Nat.le_of_lt hlt) E.raw
    simp only [StateDatabase.log, hdrop, hunpack, Option.elim_some, Option.map_some, hlen] at hd'
    exact ⟨p, by rw [Database.getRecord, hd']; rfl⟩
  | trx base l ih =>
    unfold Stands at h
    split at h
    · rename_i hbase
      obtain ⟨p, hp⟩ := ih h hbase
      refine ⟨p, ?_⟩
      simp only [Database.getRecord, if_pos hbase, hp, moved]
    · rename_i hbase
      obtain ⟨-, rest, hdrop⟩ := h.drop
      have hl : ¬ l.localChanges.length ≤ r.previous - base.size := by
        simp only [size] at hlt
        omega
      refine ⟨base.root.mFile.pos, ?_⟩
      simp only [Database.getRecord, if_neg hbase, if_neg hl, hdrop, E.raw.unpack_pack, moved,
        moved_self]

theorem Stands.recordAt (h : db.Stands E r) : db.recordAt E.raw r.previous = some r := by
  induction db with
  | null => exact h.elim
  | file d =>
    obtain ⟨-, rest, hdrop⟩ := HoldsRecord.drop h
    rw [Nat.sub_zero] at hdrop
    simp only [Database.recordAt, hdrop, E.raw.unpack_pack, Option.map_some]
  | trx base l ih =>
    unfold Stands at h
    split at h
    · rename_i hbase
      rw [Database.recordAt, if_pos hbase, ih h]
    · rename_i hbase
      obtain ⟨-, rest, hdrop⟩ := h.drop
      rw [Database.recordAt, if_neg hbase, hdrop, E.raw.unpack_pack, Option.map_some]

theorem Stands.moved (h : db.Stands E r) (p : ℕ) : (db.moved p).Stands E r := by
  induction db with
  | null => exact h
  | file d => exact h
  | trx base l ih =>
    unfold Stands at h
    simp only [Database.moved, Stands, size_moved]
    split at h
    · rw [if_pos ‹_›]
      exact ih h
    · rwa [if_neg ‹_›]

theorem Stands.overlay (h : db.Stands E r) : (Database.trx db {}).Stands E r := by
  rw [Stands, if_pos h.previous_lt]
  exact h

theorem Stands.post (h : db.Stands E r) (e : Posting) : (db.post E e).Stands E r := by
  cases db with
  | null => exact h.elim
  | file d =>
    have hright := HoldsRecord.append_right h (E.raw.pack ⟨e.record, (Database.file d).size⟩)
    rwa [List.append_assoc] at hright
  | trx base l =>
    unfold Stands at h
    simp only [Database.post, modifyLayer, Stands]
    split at h
    · rwa [if_pos ‹_›]
    · rw [if_neg ‹_›]
      exact h.append_right _

theorem stands_post (h : db ≠ .null) (e : Posting) :
    (db.post E e).Stands E ⟨e.record, db.size⟩ := by
  cases db with
  | null => exact absurd rfl h
  | file d =>
    refine ⟨d.mFile.content ++ d.localChanges, [], ?_, ?_⟩
    · simp [Layer.post]
    · simp [size, StateDatabase.size, File.size]
  | trx base l =>
    have hbase : ¬ (Database.trx base l).size < base.size := by simp [size]
    simp only [Database.post, modifyLayer, Stands, if_neg hbase]
    exact ⟨l.localChanges, [], by simp [Layer.post], rfl⟩

theorem Stands.merge (h : (Database.trx base l).Stands E r) (hbase : base ≠ .null) :
    (base.append l).Stands E r := by
  unfold Stands at h
  cases base with
  | null => exact absurd rfl hbase
  | file d =>
    simp only [append, modifyLayer, Layer.append, Stands, ← List.append_assoc]
    split at h
    · exact HoldsRecord.append_right h _
    · apply HoldsRecord.append_left
      rwa [List.length_append, Nat.zero_add]
  | trx b l' =>
    simp only [append, modifyLayer, Layer.append, Stands]
    split at h
    · unfold Stands at h
      split at h
      · rwa [if_pos ‹_›]
      · rw [if_neg ‹_›]
        exact h.append_right _
    · rename_i hlt
      simp only [size] at hlt h
      rw [if_neg (by omega)]
      exact HoldsRecord.append_left h

theorem Founded.moved (h : db.Founded E) (p : ℕ) : (db.moved p).Founded E := by
  induction db with
  | null => exact h
  | file d => exact h
  | trx base l ih => exact ⟨h.1.moved p, ih h.2⟩

theorem founded_modifyLayer (f : Layer → Layer) : (db.modifyLayer f).Founded E ↔
    db.Founded E := by
  cases db <;> rfl

inductive Settles : Database → Database → Prop
  | merge {base : Database} {l : Layer} : Settles (.trx base l) (base.append l)
  | commit {base : Database} {l : Layer} : Settles (.trx base l) (.trx (base.append l) {})
  | root {d : StateDatabase} : d.commit.mFile.content = d.mFile.content ++ d.localChanges →
      Settles (.file d) (.file d.commit)
  | under {db db' : Database} {l : Layer} : Settles db db' → Settles (.trx db l) (.trx db' l)

structure Settled (E : Externals) (db db' : Database) : Prop extends Carries E db db' where
  founded : db'.Founded E
  stands : ∀ r, db.Stands E r → db'.Stands E r

theorem Settled.merge (h : (Database.trx base l).Founded E) :
    Settled E (.trx base l) (base.append l) where
  toCarries := Carries.merge h.1.live
  founded := (founded_modifyLayer _).mpr h.2
  stands _ hr := hr.merge h.1.live

theorem Settled.root {d : StateDatabase}
    (h : d.commit.mFile.content = d.mFile.content ++ d.localChanges) :
    Settled E (.file d) (.file d.commit) where
  toCarries := Carries.of_content h
  founded := trivial
  stands r hr := by
    have hlog : d.commit.log = d.log := StateDatabase.log_commit h
    unfold StateDatabase.log at hlog
    rw [Stands, hlog]
    exact hr

theorem Settled.under {db' : Database} (h : Settled E db db') (hdb : Indexed E db) (l : Layer) :
    Settled E (.trx db l) (.trx db' l) where
  toCarries := h.toCarries.rebase l
  founded := ⟨h.toCarries.indexed hdb, h.founded⟩
  stands r hr := by
    unfold Stands at hr ⊢
    rw [h.toCarries.size]
    split at hr
    · rw [if_pos ‹_›]
      exact h.stands r hr
    · rwa [if_neg ‹_›]

theorem Settles.settled {db' : Database} (h : Settles db db') (hf : db.Founded E)
    (hi : Indexed E db) : Settled E db db' := by
  induction h with
  | merge => exact .merge hf
  | commit =>
    have hmerge := Settled.merge hf
    exact {
      toCarries := hmerge.toCarries.trans (Carries.overlay _)
      founded := ⟨hmerge.toCarries.indexed hi, hmerge.founded⟩
      stands := fun r hr => (hmerge.stands r hr).overlay }
  | root h => exact .root h
  | under _ ih => exact (ih hf.2 hf.1).under hf.1 _

end Database

namespace Ledger

/-- A posting names a record where `set_public_key` does, and no record of a name is posted
without it. -/
def Edits (v : Ledger) (e : Posting) : Prop :=
  match e.name with
  | some n => ∃ k, e = v.setKey n k
  | none => ∀ i, e.record.named i = none

variable (E) in
def EditsAll (v : Ledger) : List Posting → Prop
  | [] => True
  | e :: es => v.Edits e ∧ (v.post E e).EditsAll es

variable {v : Ledger} {e : Posting} {es fs : List Posting}

theorem editsAll_append : v.EditsAll E (es ++ fs) ↔
    v.EditsAll E es ∧ (v.posts E es).EditsAll E fs := by
  induction es generalizing v with
  | nil => simp [EditsAll]
  | cons e es ih => simp only [List.cons_append, EditsAll, ih, posts_cons, and_assoc]

theorem Edits.eq_setKey (h : v.Edits e) {n : Name} (hn : e.name = some n) :
    ∃ k, e = v.setKey n k := by
  rwa [Edits, hn] at h

theorem Edits.named_eq_none (h : v.Edits e) (hn : e.name = none) (i : ℕ) :
    e.record.named i = none := by
  rw [Edits, hn] at h
  exact h i

theorem Edits.of_named (h : v.Edits e) {i : ℕ} (hi : e.record.named i ≠ none) :
    ∃ n k, e = v.setKey n k := by
  cases hn : e.name with
  | none => exact absurd (h.named_eq_none hn i) hi
  | some n => exact ⟨n, h.eq_setKey hn⟩

theorem Edits.named_isSome (h : v.Edits e) {n : Name} (hn : e.name = some n) (i : ℕ) :
    (e.record.named i).isSome := by
  obtain ⟨k, rfl⟩ := h.eq_setKey hn
  unfold setKey
  cases v.index n <;> rfl

end Ledger

structure Filed (E : Externals) (db : Database) (es : List Posting) : Prop where
  founded : db.Founded E
  indexed : Indexed E db
  flat : db.flat = packPosts E 0 es
  ledger : db.ledger E = Ledger.empty.posts E es
  edits : Ledger.empty.EditsAll E es
  stands : ∀ r ∈ postRecords E 0 es, db.Stands E r

namespace Filed

variable {db : Database} {e : Posting} {es : List Posting}

theorem size (h : Filed E db es) : db.size = (packPosts E 0 es).length := by
  rw [← Database.length_flat, h.flat]

theorem blank (h : db.Blank) : Filed E db [] where
  founded := by
    induction db with
    | null => exact h
    | file d => trivial
    | trx base l ih => exact ⟨h.1.wellFormed.indexed, ih h.1⟩
  indexed := h.wellFormed.indexed
  flat := h.flat
  ledger := h.ledger
  edits := trivial
  stands := by simp [postRecords]

theorem moved (h : Filed E db es) (p : ℕ) : Filed E (db.moved p) es where
  founded := h.founded.moved p
  indexed := h.indexed.moved p
  flat := (Database.flat_moved p db).trans h.flat
  ledger := (Database.ledger_moved p).trans h.ledger
  edits := h.edits
  stands r hr := (h.stands r hr).moved p

theorem post (h : Filed E db es) (he : (db.ledger E).Edits e) :
    Filed E (db.post E e) (es ++ [e]) where
  founded := (Database.founded_modifyLayer _).mpr h.founded
  indexed := h.indexed.post fun n hn => he.named_isSome hn _
  flat := by
    rw [Database.flat_post h.indexed.live, h.flat, packPosts_append, h.size, Nat.zero_add,
      packPosts, packPosts, List.append_nil]
  ledger := by
    rw [h.indexed.ledger_post, h.ledger, Ledger.posts_append, Ledger.posts_cons, Ledger.posts_nil]
  edits := by
    rw [Ledger.editsAll_append, ← h.ledger]
    exact ⟨h.edits, he, trivial⟩
  stands r hr := by
    rw [postRecords_append, Nat.zero_add, ← h.size, List.mem_append] at hr
    obtain hr | hr := hr
    · exact (h.stands r hr).post e
    · rw [postRecords, postRecords, List.mem_singleton] at hr
      subst hr
      exact Database.stands_post h.indexed.live e

theorem overlay (h : Filed E db es) : Filed E (.trx db {}) es where
  founded := ⟨h.indexed, h.founded⟩
  indexed := (Carries.overlay db).indexed h.indexed
  flat := ((Carries.overlay (E := E) db).flat).trans h.flat
  ledger := ((Carries.overlay db).ledger_indexed h.indexed).trans h.ledger
  edits := h.edits
  stands r hr := (h.stands r hr).overlay

theorem settle {db' : Database} (h : Filed E db es) (hs : db.Settles db') : Filed E db' es := by
  have hc := hs.settled h.founded h.indexed
  exact {
    founded := hc.founded
    indexed := hc.toCarries.indexed h.indexed
    flat := hc.flat.trans h.flat
    ledger := (hc.toCarries.ledger_indexed h.indexed).trans h.ledger
    edits := h.edits
    stands := fun r hr => hc.stands r (h.stands r hr) }

end Filed

end Gpm
