import Gpm.StateDb.PagedFile

namespace Gpm

open Lib

inductive FileCall
  | seek (p : ℕ)
  | read (len : ℕ)
  | write (data : List UInt8)

/-- What a caller sees of a call: the bytes read, and the values of `pos`, `size` and `eof`. -/
structure Seen where
  bytes : List UInt8
  pos : ℕ
  size : ℕ
  eof : Bool
  deriving DecidableEq

namespace AbstractFile

variable {σ : Type} (m : AbstractFile σ)

def call (s : σ) : FileCall → List UInt8 × σ
  | .seek p => ([], m.seek p s)
  | .read len => m.read len s
  | .write data => ([], (m.write data s).2)

def run (s : σ) (cs : List FileCall) : σ := cs.foldl (fun s c => (m.call s c).2) s

def sees : σ → List FileCall → List Seen
  | _, [] => []
  | s, c :: cs =>
    let (bytes, s) := m.call s c
    ⟨bytes, m.pos s, m.size s, m.eof s⟩ :: sees s cs

def Clear (hole : σ → ℕ → Prop) : σ → List FileCall → Prop
  | _, [] => True
  | s, c :: cs =>
    (∀ len, c = .read len → ∀ i < min len (m.size s - m.pos s), ¬ hole s (m.pos s + i)) ∧
      Clear hole (m.call s c).2 cs

end AbstractFile

inductive FileEvent
  | call (c : FileCall)
  | commit

def FileCall.placed (pos : ℕ) : FileCall → FileCall
  | .read _ => .seek pos
  | c => c

def FileCall.leaves (pos : ℕ) (hole : ℕ → Prop) : FileCall → ℕ → Prop
  | .write data => unwritten hole pos data.length
  | _ => hole

theorem FileCall.leaves_placed (pos p : ℕ) (hole : ℕ → Prop) (c : FileCall) :
    (c.placed p).leaves pos hole = c.leaves pos hole := by cases c <;> rfl

def AbstractFile.replay {σ : Type} (m : AbstractFile σ) :
    (σ × FileTransaction) × σ → List FileEvent → (σ × FileTransaction) × σ
  | xd, [] => xd
  | (x, d), .call c :: es =>
    let x := (m.fileTransaction.call x c).2
    replay m (x, (m.call d (c.placed x.2.mPos)).2) es
  | (x, d), .commit :: es => replay m ((m.commit x).2, d) es

structure Shows {σ : Type} (m : AbstractFile σ) (byte : σ → ℕ → UInt8) (s : σ)
    (f : File) : Prop where
  pos : m.pos s = f.pos
  size : m.size s = f.size
  byte : byte s = f.byte

structure Alike {σ : Type} (m : AbstractFile σ) (byte : σ → ℕ → UInt8)
    (hole : σ → ℕ → Prop)
    (s s' : σ) : Prop where
  pos : m.pos s = m.pos s'
  size : m.size s = m.size s'
  byte : byte s = byte s'
  hole : hole s = hole s'

namespace Lawful

variable {σ : Type} {m : AbstractFile σ} {inv : σ → Prop} {byte : σ → ℕ → UInt8}
  {hole : σ → ℕ → Prop} {s : σ} {f : File}

theorem inv_call (h : Lawful m inv byte hole) (hs : inv s) (c : FileCall) :
    inv (m.call s c).2 := by
  cases c with
  | seek p => exact h.inv_seek p s hs
  | read len =>
    obtain ⟨n, -, hread⟩ := h.read len s hs
    rw [AbstractFile.call, hread]
    exact h.inv_seek _ s hs
  | write data =>
    rw [AbstractFile.call]
    by_cases hne : data = []
    · rw [hne, h.write_nil]
      exact hs
    · obtain ⟨s', hwrite, hs', -⟩ := h.write data s hs hne
      rw [hwrite]
      exact hs'

theorem shows_seek (h : Lawful m inv byte hole) (hshows : Shows m byte s f) (p : ℕ) :
    Shows m byte (m.seek p s) (f.seek p) :=
  ⟨h.pos_seek p s, (h.size_seek p s).trans hshows.size, (h.byte_seek p s).trans hshows.byte⟩

theorem shows_write (h : Lawful m inv byte hole) (hs : inv s) (hshows : Shows m byte s f)
    (data : List UInt8) : Shows m byte (m.write data s).2 (f.fwrite data).2 := by
  by_cases hne : data = []
  · rw [hne, h.write_nil]
    exact hshows
  · obtain ⟨s', hwrite, -, hpos, hsize, hbyte, -⟩ := h.write data s hs hne
    rw [hwrite, File.fwrite, if_neg hne]
    constructor
    case pos =>
      rw [hpos, hshows.pos]
      rfl
    case size => rw [hsize, hshows.size, hshows.pos, f.size_write hne]
    case byte => rw [hbyte, hshows.byte, hshows.pos, f.byte_write]

theorem read_iff (h : Lawful m inv byte hole) (hs : inv s) (hshows : Shows m byte s f) (len : ℕ) :
    (m.read len s).1 = (f.read len).1 ↔
      ∀ i < min len (m.size s - m.pos s), ¬ hole s (m.pos s + i) := by
  obtain ⟨n, hreach, hread⟩ := h.read len s hs
  rw [← hreach.eq_iff, hread, f.read_eq, hshows.size, hshows.pos, hshows.byte]
  constructor
  · intro heq
    have hlength := congrArg List.length heq
    rwa [length_slice, length_slice] at hlength
  · rintro rfl
    rfl

theorem shows_read (h : Lawful m inv byte hole) (hs : inv s) (hshows : Shows m byte s f) {len : ℕ}
    (hclear : ∀ i < min len (m.size s - m.pos s), ¬ hole s (m.pos s + i)) :
    Shows m byte (m.read len s).2 (f.read len).2 := by
  obtain ⟨n, hreach, hread⟩ := h.read len s hs
  have hn := hreach.eq_iff.mpr hclear
  rw [hread, f.read_eq, hn, ← hshows.size, ← hshows.pos]
  exact h.shows_seek hshows _

theorem shows_call (h : Lawful m inv byte hole) (hs : inv s) (hshows : Shows m byte s f)
    {c : FileCall} (hclear : ∀ len, c = .read len →
      ∀ i < min len (m.size s - m.pos s), ¬ hole s (m.pos s + i)) :
    (m.call s c).1 = (File.abstractFile.call f c).1 ∧
      Shows m byte (m.call s c).2 (File.abstractFile.call f c).2 := by
  cases c with
  | seek p => exact ⟨rfl, h.shows_seek hshows p⟩
  | read len =>
    exact ⟨(h.read_iff hs hshows len).mpr (hclear len rfl),
      h.shows_read hs hshows (hclear len rfl)⟩
  | write data => exact ⟨rfl, h.shows_write hs hshows data⟩

theorem shows_placed (h : Lawful m inv byte hole) (hs : inv s) (hshows : Shows m byte s f)
    (c : FileCall) : Shows m byte (m.call s c).2
      (File.abstractFile.call f (c.placed (m.pos (m.call s c).2))).2 := by
  cases c with
  | seek p => exact h.shows_seek hshows p
  | read len =>
    obtain ⟨n, -, hread⟩ := h.read len s hs
    rw [AbstractFile.call, hread]
    dsimp only
    rw [h.pos_seek]
    exact h.shows_seek hshows _
  | write data => exact h.shows_write hs hshows data

theorem hole_call (h : Lawful m inv byte hole) (hs : inv s) (c : FileCall) :
    hole (m.call s c).2 = c.leaves (m.pos s) (hole s) := by
  cases c with
  | seek p => exact h.hole_seek p s
  | read len =>
    obtain ⟨n, -, hread⟩ := h.read len s hs
    rw [AbstractFile.call, hread]
    exact h.hole_seek _ s
  | write data =>
    rw [AbstractFile.call]
    by_cases hne : data = []
    · rw [hne, h.write_nil]
      exact (unwritten_zero _ _).symm
    · obtain ⟨s', hwrite, -, -, -, -, hhole⟩ := h.write data s hs hne
      rw [hwrite]
      exact hhole

theorem alike_seek (h : Lawful m inv byte hole) {s' : σ}
    (halike : Alike m byte hole s s') (p : ℕ) :
    Alike m byte hole (m.seek p s) (m.seek p s') := by
  constructor
  case pos => rw [h.pos_seek, h.pos_seek]
  case size => rw [h.size_seek, h.size_seek, halike.size]
  case byte => rw [h.byte_seek, h.byte_seek, halike.byte]
  case hole => rw [h.hole_seek, h.hole_seek, halike.hole]

theorem alike_call (h : Lawful m inv byte hole) {s' : σ} (hs : inv s) (hs' : inv s')
    (halike : Alike m byte hole s s') (c : FileCall) :
    (m.call s c).1 = (m.call s' c).1 ∧ Alike m byte hole (m.call s c).2 (m.call s' c).2 := by
  cases c with
  | seek p => exact ⟨rfl, h.alike_seek halike p⟩
  | read len =>
    obtain ⟨n, hreach, hread⟩ := h.read len s hs
    obtain ⟨n', hreach', hread'⟩ := h.read len s' hs'
    rw [halike.pos, halike.size, halike.hole] at hreach
    obtain rfl := hreach.unique hreach'
    rw [AbstractFile.call, AbstractFile.call, hread, hread', halike.pos, halike.byte]
    exact ⟨rfl, h.alike_seek halike _⟩
  | write data =>
    refine ⟨rfl, ?_⟩
    rw [AbstractFile.call, AbstractFile.call]
    by_cases hne : data = []
    · rw [hne, h.write_nil, h.write_nil]
      exact halike
    · obtain ⟨r, hwrite, -, hpos, hsize, hbyte, hhole⟩ := h.write data s hs hne
      obtain ⟨r', hwrite', -, hpos', hsize', hbyte', hhole'⟩ := h.write data s' hs' hne
      rw [hwrite, hwrite']
      constructor
      case pos => rw [hpos, hpos', halike.pos]
      case size => rw [hsize, hsize', halike.size, halike.pos]
      case byte => rw [hbyte, hbyte', halike.byte, halike.pos]
      case hole => rw [hhole, hhole', halike.hole, halike.pos]

theorem alike_sees (h : Lawful m inv byte hole) {s' : σ} (hs : inv s) (hs' : inv s')
    (halike : Alike m byte hole s s') (cs : List FileCall) : m.sees s cs = m.sees s' cs := by
  induction cs generalizing s s' with
  | nil => rfl
  | cons c cs ih =>
    obtain ⟨hbytes, hafter⟩ := h.alike_call hs hs' halike c
    rw [AbstractFile.sees, AbstractFile.sees, List.cons.injEq, Seen.mk.injEq]
    refine ⟨⟨hbytes, hafter.pos, hafter.size, ?_⟩,
      ih (h.inv_call hs c) (h.inv_call hs' c) hafter⟩
    rw [AbstractFile.eof, AbstractFile.eof, hafter.pos, hafter.size]

theorem sees_iff (h : Lawful m inv byte hole) (hs : inv s) (hshows : Shows m byte s f)
    (cs : List FileCall) :
    m.sees s cs = File.abstractFile.sees f cs ↔ m.Clear hole s cs := by
  induction cs generalizing s f with
  | nil => exact iff_of_true rfl trivial
  | cons c cs ih =>
    rw [AbstractFile.sees, AbstractFile.sees, AbstractFile.Clear, List.cons.injEq, Seen.mk.injEq]
    constructor
    · rintro ⟨⟨hbytes, -⟩, hrest⟩
      have hclear : ∀ len, c = .read len →
          ∀ i < min len (m.size s - m.pos s), ¬ hole s (m.pos s + i) := by
        rintro len rfl
        exact (h.read_iff hs hshows len).mp hbytes
      exact ⟨hclear, (ih (h.inv_call hs c) (h.shows_call hs hshows hclear).2).mp hrest⟩
    · rintro ⟨hclear, hrest⟩
      obtain ⟨hbytes, hafter⟩ := h.shows_call hs hshows hclear
      refine ⟨⟨hbytes, hafter.pos, hafter.size, ?_⟩,
        (ih (h.inv_call hs c) hafter).mpr hrest⟩
      rw [AbstractFile.eof, AbstractFile.eof, hafter.pos, hafter.size]
      rfl

end Lawful

def Chain : ℕ → Type
  | 0 => File
  | n + 1 => Chain n × FileTransaction

namespace Chain

def file : (n : ℕ) → AbstractFile (Chain n)
  | 0 => File.abstractFile
  | n + 1 => (file n).fileTransaction

def Inv : (n : ℕ) → Chain n → Prop
  | 0, _ => True
  | n + 1, x => Inv n x.1 ∧ x.2.Sound ((file n).size x.1)

def byte : (n : ℕ) → Chain n → ℕ → UInt8
  | 0, f => File.byte f
  | n + 1, x => x.2.byte (byte n x.1)

def Hole : (n : ℕ) → Chain n → ℕ → Prop
  | 0, _ => fun _ => False
  | n + 1, x => x.2.Hole ((file n).size x.1) (Hole n x.1)

inductive Built : (n : ℕ) → Chain n → Prop
  | file (f : File) : Built 0 f
  | opened {n : ℕ} {s : Chain n} : Built n s → Built (n + 1) ((Chain.file n).transaction s)
  | call {n : ℕ} {s : Chain n} (c : FileCall) : Built n s → Built n ((Chain.file n).call s c).2
  | commit {n : ℕ} {x : Chain (n + 1)} : Built (n + 1) x →
      Built (n + 1) ((Chain.file n).commit x).2

def plain (n : ℕ) (s : Chain n) : File :=
  ⟨slice (byte n s) 0 ((file n).size s), (file n).pos s⟩

theorem lawful (n : ℕ) : Lawful (file n) (Inv n) (byte n) (Hole n) := by
  induction n with
  | zero => exact File.lawful
  | succ n ih => exact ih.fileTransaction

variable {n : ℕ} {s : Chain n}

theorem inv_opened (hs : Inv n s) : Inv (n + 1) ((file n).transaction s) := by
  refine ⟨hs, Nat.le_refl _, ?_, ?_, ?_, fun hlt => absurd hlt (Nat.lt_irrefl _)⟩ <;>
  · intro p page
    simp [AbstractFile.transaction]

theorem commit_eq {x : Chain (n + 1)} (hx : Inv (n + 1) x) :
    ∃ s', (file n).commit x = (true, (s', { x.2 with mDirtyPages := ∅ })) ∧ Inv n s' ∧
      (file n).pos s' = (file n).pos x.1 ∧ (file n).size s' = x.2.mSize ∧
      byte n s' = byte (n + 1) x ∧ ∀ i, Hole n s' i ↔ Hole n x.1 i ∧ x.2.clean i :=
  (lawful n).commit hx.1 hx.2

theorem inv_commit {x : Chain (n + 1)} (hx : Inv (n + 1) x) :
    Inv (n + 1) ((file n).commit x).2 := by
  obtain ⟨s', hcommit, hs', -, hsize, -⟩ := commit_eq hx
  rw [hcommit]
  refine ⟨hs', Nat.le_of_eq hsize, ?_, ?_, ?_, fun hlt => absurd hsize (Nat.ne_of_lt hlt)⟩ <;>
  · intro p page
    simp

theorem Built.inv (h : Built n s) : Inv n s := by
  induction h with
  | file f => trivial
  | opened _ ih => exact inv_opened ih
  | call c _ ih => exact (lawful _).inv_call ih c
  | commit _ ih => exact inv_commit ih

theorem shows_plain (hs : Inv n s) : Shows (file n) (byte n) s (plain n s) := by
  constructor
  case pos => rfl
  case size => exact (length_slice _ _ _).symm
  case byte =>
    funext i
    rw [File.byte, plain, List.getD_eq_getElem?_getD]
    by_cases hi : i < (file n).size s
    · rw [getElem?_slice _ _ hi, Nat.zero_add, Option.getD_some]
    · rw [List.getElem?_eq_none (by rw [length_slice]; exact Nat.not_lt.mp hi), Option.getD_none]
      exact (lawful n).byte_end s i hs (Nat.not_lt.mp hi)

theorem base_call {x : Chain (n + 1)} (hx : Inv (n + 1) x) (c : FileCall) :
    ((file (n + 1)).call x c).2.1 = x.1 ∧
      ((file (n + 1)).call x c).2.2.clean = c.leaves x.2.mPos x.2.clean := by
  obtain ⟨s, t⟩ := x
  cases c with
  | seek p => exact ⟨rfl, rfl⟩
  | read len =>
    obtain ⟨k, -, hread⟩ := (lawful n).readLoop hx.1 hx.2 (Nat.le_refl len)
    change ((file n).readLoop len len (s, t)).2.1 = s ∧
      ((file n).readLoop len len (s, t)).2.2.clean = t.clean
    rw [hread]
    exact ⟨rfl, rfl⟩
  | write data =>
    by_cases hne : data = []
    · rw [hne]
      exact ⟨rfl, (unwritten_zero _ _).symm⟩
    · obtain ⟨t', hwrite, -, -, -, -, hclean⟩ :=
          (lawful n).writeLoop hx.1 hx.2 hne (Nat.le_refl _)
      change ((file n).writeLoop data.length data (s, t)).1 = s ∧
        ((file n).writeLoop data.length data (s, t)).2.clean = _
      rw [hwrite]
      exact ⟨rfl, hclean⟩

theorem base_run {x : Chain (n + 1)} (hx : Inv (n + 1) x) (cs : List FileCall) :
    ((file (n + 1)).run x cs).1 = x.1 := by
  induction cs generalizing x with
  | nil => rfl
  | cons c cs ih => exact (ih ((lawful (n + 1)).inv_call hx c)).trans (base_call hx c).1

theorem shows_opened (hs : Inv n s) :
    Shows (file (n + 1)) (byte (n + 1)) ((file n).transaction s) (plain n s) := by
  have hplain := shows_plain hs
  refine ⟨hplain.pos, hplain.size, ?_⟩
  rw [← hplain.byte]
  funext i
  exact FileTransaction.byte_none (by simp [AbstractFile.transaction])

/-- A transaction reads like a plain file exactly in the runs whose reads meet no hole. -/
theorem sees_plain_iff (hs : Built n s) (cs : List FileCall) :
    ((file (n + 1)).sees ((file n).transaction s) cs = File.abstractFile.sees (plain n s) cs ∧
      ((file (n + 1)).run ((file n).transaction s) cs).1 = s) ↔
    (file (n + 1)).Clear (Hole (n + 1)) ((file n).transaction s) cs := by
  exact (and_iff_left (base_run (inv_opened hs.inv) cs)).trans
    ((lawful (n + 1)).sees_iff (inv_opened hs.inv) (shows_opened hs.inv) cs)

theorem sees_plain_over_transaction :
    (file 2).Clear (Hole 2) ((file 1).transaction ((file 0).transaction ⟨[1, 2, 3], 0⟩))
      [.seek 2, .write [9, 8], .seek 0, .read 4] :=
  (sees_plain_iff (.opened (.file ⟨[1, 2, 3], 0⟩)) [.seek 2, .write [9, 8],
    .seek 0, .read 4]).mp
    ⟨by decide +kernel, rfl⟩

theorem sees_skipped_page :
    (file 1).sees ((file 0).transaction ⟨[], 0⟩) [.seek 2048, .write [7], .seek 0, .read 1] ≠
      File.abstractFile.sees ⟨[], 0⟩ [.seek 2048, .write [7], .seek 0, .read 1] := by
  decide +kernel

/-- A transaction whose base is at `p`, next to the base with the same writes made directly. -/
structure Replays (p : ℕ) (x : Chain (n + 1)) (d : Chain n) : Prop where
  inv : Inv (n + 1) x
  inv' : Inv n d
  shows : ∃ f, Shows (file (n + 1)) (byte (n + 1)) x f ∧ Shows (file n) (byte n) d f
  hole : ∀ i, Hole n d i ↔ Hole n x.1 i ∧ x.2.clean i
  pos : (file n).pos x.1 = p

variable {p : ℕ} {x : Chain (n + 1)} {d : Chain n}

theorem replays_opened (hs : Inv n s) :
    Replays ((file n).pos s) ((file n).transaction s) s := by
  refine ⟨inv_opened hs, hs, ⟨plain n s, shows_opened hs, shows_plain hs⟩, fun i => ?_, rfl⟩
  exact (and_iff_left (by simp [AbstractFile.transaction, FileTransaction.clean])).symm

theorem Replays.call (h : Replays p x d) (c : FileCall) :
    Replays p ((file (n + 1)).call x c).2
      ((file n).call d (c.placed ((file (n + 1)).call x c).2.2.mPos)).2 := by
  obtain ⟨f, hx, hd⟩ := h.shows
  obtain ⟨hbase, hclean⟩ := base_call h.inv c
  have hpos : (file n).pos d = x.2.mPos := hd.pos.trans hx.pos.symm
  refine ⟨(lawful (n + 1)).inv_call h.inv c, (lawful n).inv_call h.inv' _, ⟨_,
    (lawful (n + 1)).shows_placed h.inv hx c, ((lawful n).shows_call h.inv' hd ?_).2⟩, ?_, ?_⟩
  · intro len heq
    cases c <;> cases heq
  · intro i
    rw [(lawful n).hole_call h.inv', FileCall.leaves_placed, hbase, hclean, hpos]
    cases c with
    | seek q => exact h.hole i
    | read len => exact h.hole i
    | write data => exact (and_congr_left' (h.hole i)).trans and_assoc
  · rw [hbase]
    exact h.pos

theorem Replays.commit (h : Replays p x d) : Replays p ((file n).commit x).2 d := by
  obtain ⟨f, hx, hd⟩ := h.shows
  obtain ⟨s', hcommit, hs', hpos, hsize, hbyte, hhole⟩ := commit_eq h.inv
  have hinv := inv_commit h.inv
  rw [hcommit] at hinv ⊢
  have hnone : ∀ i, FileTransaction.clean { x.2 with mDirtyPages := ∅ } i := by
    simp [FileTransaction.clean]
  refine ⟨hinv, h.inv', ⟨f, ⟨hx.pos, hx.size, ?_⟩, hd⟩, fun i => ?_, hpos.trans h.pos⟩
  · rw [← hx.byte, ← hbyte]
    funext i
    exact FileTransaction.byte_none (hnone i)
  · rw [h.hole, ← hhole]
    exact (and_iff_left (hnone i)).symm

theorem Replays.run (h : Replays p x d) (es : List FileEvent) :
    Replays p ((file n).replay (x, d) es).1 ((file n).replay (x, d) es).2 := by
  induction es generalizing x d with
  | nil => exact h
  | cons e es ih =>
    cases e with
    | call c => exact ih (h.call c)
    | commit => exact ih h.commit

/-- A commit leaves the base as its plain file, which no later call tells from the base with the
same writes made directly. -/
theorem commit_replays (hs : Built n s) (es : List FileEvent) {y : Chain (n + 1)}
    (hrun : (file n).replay ((file n).transaction s, s) es = (x, d))
    (hcommit : (file n).commit x = (true, y)) :
    plain n y.1 = (plain n d).seek ((file n).pos s) ∧ y.2.mDirtyPages = ∅ ∧
      ∀ cs, (file n).sees y.1 cs = (file n).sees ((file n).seek ((file n).pos s) d) cs := by
  have h := (replays_opened hs.inv).run es
  rw [hrun] at h
  obtain ⟨f, hx, hd⟩ := h.shows
  obtain ⟨s', hdone, hs', hpos, hsize, hbyte, hhole⟩ := commit_eq h.inv
  obtain rfl : (s', { x.2 with mDirtyPages := ∅ }) = y :=
    (Prod.mk.inj (hdone.symm.trans hcommit)).2
  have halike : Alike (file n) (byte n) (Hole n) s' ((file n).seek ((file n).pos s) d) := by
    constructor
    case pos => rw [(lawful n).pos_seek, hpos, h.pos]
    case size => rw [(lawful n).size_seek, hsize, hd.size, ← hx.size]; rfl
    case byte => rw [(lawful n).byte_seek, hbyte, hd.byte, hx.byte]
    case hole =>
      funext i
      rw [(lawful n).hole_seek]
      exact propext ((hhole i).trans (h.hole i).symm)
  refine ⟨?_, rfl, (lawful n).alike_sees hs' ((lawful n).inv_seek _ _ h.inv') halike⟩
  have hsize' := halike.size
  have hbyte' := halike.byte
  rw [(lawful n).size_seek] at hsize'
  rw [(lawful n).byte_seek] at hbyte'
  rw [plain, plain, File.seek, hsize', hbyte', halike.pos, (lawful n).pos_seek]

theorem commit_replays_gap : ∃ y : Chain 2,
    (file 1).commit ((file 1).replay ((file 1).transaction ((file 0).transaction ⟨[1, 2], 1⟩),
      (file 0).transaction ⟨[1, 2], 1⟩)
      [.call (.seek 4), .call (.write [5]), .commit, .call (.write [6])]).1 = (true, y) ∧
    plain 1 y.1 = ⟨[1, 2] ++ List.replicate 2 0 ++ [5, 6], 1⟩ := by
  have hcommit := Prod.mk.eta.symm.trans (congrArg₂ Prod.mk (by decide +kernel : ((file 1).commit
    ((file 1).replay ((file 1).transaction ((file 0).transaction ⟨[1, 2], 1⟩),
      (file 0).transaction ⟨[1, 2], 1⟩)
      [.call (.seek 4), .call (.write [5]), .commit, .call (.write [6])]).1).1 = true) rfl)
  have hreplays := commit_replays (.opened (.file ⟨[1, 2], 1⟩)) _ Prod.mk.eta.symm hcommit
  exact ⟨_, hcommit, hreplays.1.trans (by decide +kernel)⟩

end Chain

end Gpm
