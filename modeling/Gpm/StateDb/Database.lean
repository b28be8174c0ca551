import Gpm.StateDb.Record

namespace Gpm

open Lib.Format (value)

inductive Fault
  | exception (message : String)
  /-- `raw::unpack` of bytes which are no record. -/
  | unpack
  /-- A copy from outside `local_changes`, which the language leaves undefined. -/
  | outOfBounds
  | diverges
  deriving DecidableEq

/-- A `FILE*`: what it holds and where the next access happens. -/
structure File where
  content : List UInt8 := []
  pos : ℕ := 0
  deriving DecidableEq

namespace File

def size (f : File) : ℕ := f.content.length

def seek (pos : ℕ) (f : File) : File := { f with pos }

def read (len : ℕ) (f : File) : List UInt8 × File :=
  let r := (f.content.drop f.pos).take len
  (r, { f with pos := f.pos + r.length })

def write (data : List UInt8) (f : File) : File where
  content := f.content.take f.pos ++ List.replicate (f.pos - f.content.length) 0 ++ data ++
    f.content.drop (f.pos + data.length)
  pos := f.pos + data.length

end File

/-- The members of a `state_database_transaction` other than its base. -/
structure Layer where
  localChanges : List UInt8 := []
  lastTransferMap : AccountIndex := ∅
  lastNameEditMap : NameIndex := ∅

/-- A `state_record` whose data is not looked into. -/
structure RecordFields where
  id : ℕ
  data : List UInt8
  previous : ℕ
  deriving DecidableEq

structure StateDatabase extends Layer where
  mFile : File := {}
  mTransferDb : AccountIndex := ∅
  mNameDb : NameIndex := ∅

/-- An `abstract_state_database::ptr`: null, or an object of one of the two classes. -/
inductive Database
  | null
  | file (d : StateDatabase)
  | trx (base : Database) (l : Layer)

namespace Layer

def append (l l' : Layer) : Layer where
  localChanges := l.localChanges ++ l'.localChanges
  lastTransferMap := l.lastTransferMap ∪ l'.lastTransferMap
  lastNameEditMap := l.lastNameEditMap ∪ l'.lastNameEditMap

def read (off len : ℕ) (l : Layer) : Except Fault (List UInt8) :=
  if l.localChanges = [] then .ok []
  else if l.localChanges.length < off then .error .outOfBounds
  else if 2 ^ 31 ≤ min len (l.localChanges.length - off) then .error .outOfBounds
  else .ok ((l.localChanges.drop off).take len)

end Layer

namespace StateDatabase

def size (d : StateDatabase) : ℕ := d.mFile.size + d.localChanges.length

def read (pos len : ℕ) (d : StateDatabase) : EStateM.Result Fault StateDatabase (List UInt8) :=
  let (r, f) := if pos < d.mFile.size then (d.mFile.seek pos).read len else ([], d.mFile)
  let d := { d with mFile := f }
  let len := len - r.length
  let pos := pos + r.length
  if len ≠ 0 ∧ d.localChanges ≠ [] then
    if d.localChanges.length < pos - d.mFile.size then .error .outOfBounds d
    else .ok (r ++ (d.localChanges.drop (pos - d.mFile.size)).take len) d
  else .ok r d

def readBytes (pos len : ℕ) : EStateM Fault StateDatabase (List UInt8) := fun d => d.read pos len

def readData (pos len : ℕ) : EStateM Fault StateDatabase (List UInt8) :=
  if len = 0 then pure [] else readBytes pos len

/-- The reads of `get_record`, up to the first one that is cut short. -/
def getRecordFields (loc : ℕ) : EStateM Fault StateDatabase (Option (RecordFields × ℕ)) := do
  let id ← readBytes loc 2
  if id.length ≠ 2 then return none
  let len ← readBytes (loc + 2) 4
  if len.length ≠ 4 then return none
  let len := value len
  let data ← readData (loc + 2 + 4) len
  if data.length ≠ len then return none
  let previous ← readBytes (loc + 2 + 4 + len) 8
  if previous.length ≠ 8 then return none
  return some (⟨value id, data, value previous⟩, 8 + 2 + 4 + len)

def getRecord (raw : Lib.Format StateRecord) (loc : Index) (d : StateDatabase) :
    EStateM.Result Fault StateDatabase (Option (StateRecord × ℕ)) :=
  match loc with
  | none => if d.localChanges = [] then .ok none d else .error .outOfBounds d
  | some i =>
    let bytes := (d.mFile.content ++ d.localChanges).drop i
    let found := raw.unpack bytes
    let len := bytes.length - (found.elim 0 fun r => r.2.length)
    match getRecordFields i d with
    | .ok _ d => .ok (found.map fun r => (r.1, len)) d
    | .error e d => .error e d

def commit (d : StateDatabase) : StateDatabase :=
  if d.localChanges = [] then d
  else
    { localChanges := []
      lastTransferMap := ∅
      lastNameEditMap := ∅
      mFile := d.mFile.write d.localChanges
      mTransferDb := d.mTransferDb ∪ d.lastTransferMap
      mNameDb := d.mNameDb ∪ d.lastNameEditMap }

end StateDatabase

namespace Database

def size : Database → ℕ
  | .null => 0
  | .file d => d.size
  | .trx base l => base.size + l.localChanges.length

def layer : Database → Layer
  | .null => {}
  | .file d => d.toLayer
  | .trx _ l => l

def modifyLayer (f : Layer → Layer) : Database → Database
  | .null => .null
  | .file d => .file { d with toLayer := f d.toLayer }
  | .trx base l => .trx base (f l)

def root : Database → StateDatabase
  | .null => {}
  | .file d => d
  | .trx base _ => base.root

def base : Database → Database
  | .trx base _ => base
  | db => db

def getLastNameEditIndex (name : Name) : Database → Index
  | .null => none
  | .file d => d.lastNameEditMap[name]?.or d.mNameDb[name]?
  | .trx base l => l.lastNameEditMap[name]?.or (base.getLastNameEditIndex name)

def getLastTransferIndex (a : AccountKey) : Database → Index
  | .null => none
  | .file d => d.lastTransferMap[a]?.or d.mTransferDb[a]?
  | .trx base l => l.lastTransferMap[a]?.or (base.getLastTransferIndex a)

def read (pos len : ℕ) : Database → EStateM.Result Fault Database (List UInt8)
  | .null => .ok [] .null
  | .file d =>
    match d.read pos len with
    | .ok r d => .ok r (.file d)
    | .error e d => .error e (.file d)
  | .trx base l =>
    if pos < base.size then
      match base.read pos len with
      | .error e base => .error e (.trx base l)
      | .ok r base =>
        if len - r.length = 0 then .ok r (.trx base l)
        else if pos + r.length < base.size then
          .error (.exception "Invariant broken!") (.trx base l)
        else
          match l.read (pos + r.length - base.size) (len - r.length) with
          | .ok r' => .ok (r ++ r') (.trx base l)
          | .error e => .error e (.trx base l)
    else
      match l.read (pos - base.size) len with
      | .ok r => .ok r (.trx base l)
      | .error e => .error e (.trx base l)

def getRecord (raw : Lib.Format StateRecord) (loc : Index) :
    Database → EStateM.Result Fault Database (Option (StateRecord × ℕ))
  | .null => .ok none .null
  | .file d =>
    match d.getRecord raw loc with
    | .ok r d => .ok r (.file d)
    | .error e d => .error e (.file d)
  | .trx base l =>
    match loc with
    | none => .ok none (.trx base l)
    | some i =>
      if i < base.size then
        match base.getRecord raw (some i) with
        | .ok r base => .ok r (.trx base l)
        | .error e base => .error e (.trx base l)
      else if l.localChanges.length ≤ i - base.size then .ok none (.trx base l)
      else
        match raw.unpack (l.localChanges.drop (i - base.size)) with
        | some (r, _) => .ok (some (r, (raw.pack r).length)) (.trx base l)
        | none => .error .unpack (.trx base l)

def append (l : Layer) (db : Database) : Database := db.modifyLayer fun l' => l'.append l

def commit : Database → Database
  | .null => .null
  | .file d => .file d.commit
  | .trx base l => .trx (base.append l) {}

def abort (db : Database) : Database := db.modifyLayer fun _ => {}

/-- A `state_database` has no base to change. -/
def rebase : Database → Database → Database
  | .trx _ l, newBase => .trx newBase l
  | db, _ => db

end Database

end Gpm
