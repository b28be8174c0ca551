import Gpm.StateDb.Database

namespace Gpm

def pageSize : ℕ := 1024

/-- The virtual functions of an `abstract_file` whose object has states of type `σ`.  A write
returns how many bytes have been written. -/
structure AbstractFile (σ : Type) where
  read : ℕ → σ → List UInt8 × σ
  write : List UInt8 → σ → ℕ × σ
  seek : ℕ → σ → σ
  size : σ → ℕ
  pos : σ → ℕ

namespace File

/-- `fwrite` of no bytes does not reach the file. -/
def fwrite (data : List UInt8) (f : File) : ℕ × File :=
  (data.length, if data = [] then f else f.write data)

def abstractFile : AbstractFile File where
  read := read
  write := fwrite
  seek := seek
  size := size
  pos := pos

end File

/-- The members of a `file_transaction` other than `m_file`. -/
structure FileTransaction where
  mPos : ℕ
  mSize : ℕ
  mDirtyPages : Std.ExtTreeMap ℕ (List UInt8) compare := ∅

namespace AbstractFile

variable {σ : Type} (mFile : AbstractFile σ)

def transaction (s : σ) : σ × FileTransaction :=
  (s, { mPos := mFile.pos s, mSize := mFile.size s })

/-- A read somewhere in `m_file`, whose own position is put back. -/
def readAt (pos len : ℕ) (s : σ) : List UInt8 × σ :=
  let old := mFile.pos s
  let (r, s) := mFile.read len (mFile.seek pos s)
  (r, mFile.seek old s)

def dirtyPage (p : ℕ) (x : σ × FileTransaction) : List UInt8 × (σ × FileTransaction) :=
  match x.2.mDirtyPages[p]? with
  | some page => (page, x)
  | none =>
    let (r, s) := mFile.readAt (p * pageSize) pageSize x.1
    let page := r ++ List.replicate (pageSize - r.length) 0
    (page, (s, { x.2 with mDirtyPages := x.2.mDirtyPages.insert p page }))

/-- The loop of `file_transaction::read`.  A turn reads a byte or ends the loop, so that as much
`fuel` as there are bytes to read is enough. -/
def readLoop : ℕ → ℕ → σ × FileTransaction → List UInt8 × (σ × FileTransaction)
  | 0, _, x => ([], x)
  | fuel + 1, len, (s, t) =>
    if len = 0 ∨ t.mPos = t.mSize then ([], (s, t))
    else
      let pagePos := t.mPos % pageSize
      let readSize := min (pageSize - pagePos) len
      if t.mSize ≤ t.mPos + readSize ∧ t.mSize ≤ t.mPos then ([], (s, t))
      else
        let readSize := if t.mSize ≤ t.mPos + readSize then t.mSize - t.mPos else readSize
        match t.mDirtyPages[t.mPos / pageSize]? with
        | some page =>
          let (rest, x) := readLoop fuel (len - readSize) (s, { t with mPos := t.mPos + readSize })
          ((page.drop pagePos).take readSize ++ rest, x)
        | none =>
          let (r, s) := mFile.readAt t.mPos readSize s
          if r.length ≠ readSize then (r, (s, { t with mPos := t.mPos + r.length }))
          else
            let (rest, x) :=
              readLoop fuel (len - readSize) (s, { t with mPos := t.mPos + readSize })
            (r ++ rest, x)

/-- The body of the loop of `file_transaction::write`: what goes into one page. -/
def writePage (data : List UInt8) (x : σ × FileTransaction) : σ × FileTransaction :=
  let pagePos := x.2.mPos % pageSize
  let (page, s, t) := mFile.dirtyPage (x.2.mPos / pageSize) x
  let page := page.take pagePos ++ data ++ page.drop (pagePos + data.length)
  (s, { mPos := t.mPos + data.length
        mSize := max t.mSize (t.mPos + data.length)
        mDirtyPages := t.mDirtyPages.insert (t.mPos / pageSize) page })

/-- The loop of `file_transaction::write`, with fuel as for reading. -/
def writeLoop : ℕ → List UInt8 → σ × FileTransaction → σ × FileTransaction
  | 0, _, x => x
  | fuel + 1, data, x =>
    if data = [] then x
    else
      let writeSize := min (pageSize - x.2.mPos % pageSize) data.length
      writeLoop fuel (data.drop writeSize) (mFile.writePage (data.take writeSize) x)

def fileTransaction : AbstractFile (σ × FileTransaction) where
  read len x := mFile.readLoop len len x
  write data x := (data.length, mFile.writeLoop data.length data x)
  seek p x := (x.1, { x.2 with mPos := p })
  size x := x.2.mSize
  pos x := x.2.mPos

def eof (s : σ) : Bool := decide (mFile.size s ≤ mFile.pos s)

/-- The loop of `commit`, over the pages in the order of their numbers. -/
def commitLoop (mSize : ℕ) : List (ℕ × List UInt8) → σ → Bool × σ
  | [], s => (true, s)
  | (p, page) :: rest, s =>
    let cp := mFile.pos s
    let data := if (p + 1) * pageSize < mSize then page else page.take (mSize - p * pageSize)
    let (written, s) := mFile.write data (mFile.seek (p * pageSize) s)
    if written = 0 then (false, s) else commitLoop mSize rest (mFile.seek cp s)

def commit (x : σ × FileTransaction) : Bool × (σ × FileTransaction) :=
  let (done, s) := mFile.commitLoop x.2.mSize x.2.mDirtyPages.toList x.1
  (done, (s, { x.2 with mDirtyPages := if done then ∅ else x.2.mDirtyPages }))

end AbstractFile

end Gpm
