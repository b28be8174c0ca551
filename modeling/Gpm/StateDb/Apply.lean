import Gpm.StateDb.Database

namespace Gpm

abbrev DbM := EStateM Fault Database

namespace DbM

variable (E : Externals)

def getRecord (loc : Index) : DbM (Option (StateRecord × ℕ)) := fun db =>
  db.getRecord E.raw loc

def read (pos len : ℕ) : DbM (List UInt8) := fun db => db.read pos len

def appendRecord (r : Record) : DbM Bool := do
  modify fun db => db.modifyLayer fun l =>
    { l with localChanges := l.localChanges ++ E.raw.pack ⟨r, db.size⟩ }
  return true

def setLastNameEdit (name : Name) (p : ℕ) : DbM Unit :=
  modify fun db => db.modifyLayer fun l =>
    { l with lastNameEditMap := l.lastNameEditMap.insert name p }

def setLastTransfer (a : AccountKey) (p : ℕ) : DbM Unit :=
  modify fun db => db.modifyLayer fun l =>
    { l with lastTransferMap := l.lastTransferMap.insert a p }

def getPublicKey (name : Name) : DbM (Option PublicKey) := do
  match (← get).getLastNameEditIndex name with
  | none => return none
  | some nidx =>
    match ← getRecord E (some nidx) with
    | some (⟨.defineName _ key, _⟩, _) => return some key
    | some (⟨.updateName _ key _, _⟩, _) => return some key
    | _ => return none

def getNameIndex (name : Name) : DbM Index := do
  match (← get).getLastNameEditIndex name with
  | none => return none
  | some lnidx =>
    match ← getRecord E (some lnidx) with
    | none => throw (.exception "Error getting record %1%")
    | some (⟨.defineName _ _, _⟩, _) => return some lnidx
    | some (⟨.updateName nameIdx _ _, _⟩, _) => return nameIdx
    | _ => throw (.exception "Error getting name index for %1%")

/-- `fuel` bounds how often an update leads on to another record. -/
def getNameForIndex : ℕ → Index → DbM Name
  | 0, _ => throw .diverges
  | _ + 1, none => return []
  | fuel + 1, some idx => do
    match ← getRecord E (some idx) with
    | none => throw (.exception "Error getting record at index %1%")
    | some (⟨.defineName name _, _⟩, _) => return name
    | some (⟨.updateName nameIdx _ _, _⟩, _) => getNameForIndex fuel nameIdx
    | _ => throw (.exception "No name at index %1%")

def countUnknown : List Name → DbM ℕ
  | [] => return 0
  | n :: ns => do
    let idx ← getNameIndex E n
    let count ← countUnknown ns
    return if idx = none then count + 1 else count

def setPublicKey (name : Name) (pk : PublicKey) : DbM Bool := do
  let db ← get
  match db.getLastNameEditIndex name with
  | none =>
    setLastNameEdit name db.size
    appendRecord E (.defineName name pk)
  | some lnidx =>
    match ← getRecord E (some lnidx) with
    | some (⟨.defineName _ _, _⟩, _) =>
      setLastNameEdit name db.size
      appendRecord E (.updateName (some lnidx) pk (some lnidx))
    | some (⟨.updateName nameIdx _ _, _⟩, _) =>
      setLastNameEdit name db.size
      appendRecord E (.updateName nameIdx pk (some lnidx))
    | _ => return false

/-- The balance and the position of the record it was read from; that position is missing
exactly when `is_null` is set. -/
def getBalance (account type : Name) : DbM (UInt64 × Index) := do
  let aidx ← getNameIndex E account
  let tidx ← getNameIndex E type
  match (← get).getLastTransferIndex ⟨aidx, tidx⟩ with
  | none => return (0, none)
  | some itr =>
    match ← getRecord E (some itr) with
    | some (⟨.transferLog tl, _⟩, _) =>
      if tl.typeName ≠ tidx then
        throw (.exception "Unexpected type when looking for %1% : %2%")
      else if tl.fromName = aidx then return (tl.newFromBal, some itr)
      else if tl.toName = aidx then return (tl.newToBal, some itr)
      else throw (.exception "Source/Dest Mismatch looking for %1% : %2%")
    | _ => throw (.exception "Unexpected record type when looking for %1% : %2%")

def transferBalance (from_ to_ type : Name) (amnt : UInt64) (trxPos : Index) : DbM Unit := do
  let fromName ← getNameIndex E from_
  let toName ← getNameIndex E to_
  let typeName ← getNameIndex E type
  let (fromBal, lastFromTrx) ← getBalance E from_ type
  let (toBal, lastToTrx) ← getBalance E to_ type
  if fromBal < amnt then
    throw (.exception ("Insufficent '%1%' in account '%2%',  '%3%' available, " ++
      "attempt to transfer %4% %1% to %5%"))
  let p := (← get).size
  setLastTransfer ⟨fromName, typeName⟩ p
  setLastTransfer ⟨toName, typeName⟩ p
  discard <| appendRecord E (.transferLog
    { amount := amnt, typeName, fromName, toName, newFromBal := fromBal - amnt,
      newToBal := toBal + amnt, lastFromTrx, lastToTrx, trxIdx := trxPos })

def issue (type : Name) (trxPos : Index) : DbM Unit := do
  let typeName ← getNameIndex E type
  let toName ← getNameIndex E type
  let fromName ← getNameIndex E type
  let (_, lastFromTrx) ← getBalance E type type
  if lastFromTrx.isSome then
    throw (.exception "Attempt to issue '%1%' after it has already been issued.")
  let p := (← get).size
  setLastTransfer ⟨fromName, typeName⟩ p
  setLastTransfer ⟨toName, typeName⟩ p
  discard <| appendRecord E (.transferLog
    { amount := -1, typeName, fromName, toName, newFromBal := -1, newToBal := -1,
      lastFromTrx, lastToTrx := none, trxIdx := trxPos })

def applyRegisterName (trx : SignedTransaction) (name : Name) (pubKey : PublicKey) :
    DbM Bool := do
  if name = E.encodeAddress pubKey then
    discard <| setPublicKey E name pubKey
    return true
  else
    match ← getPublicKey E name with
    | some key =>
      if trx.verify E key then
        discard <| setPublicKey E name pubKey
        return true
      else return false
    | none =>
      discard <| setPublicKey E name pubKey
      return true

def applyIssue (trx : SignedTransaction) (trxPos : ℕ) (stockName : Name) : DbM Bool := do
  match ← getPublicKey E stockName with
  | none => return false
  | some typeKey =>
    let (_, loc) ← getBalance E stockName stockName
    if loc.isSome then return false
    else if !trx.verify E typeKey then return false
    else
      issue E stockName (some trxPos)
      return true

def defineDestination (to_ : Name) : DbM Bool := do
  match ← getNameIndex E to_ with
  | some _ => return true
  | none =>
    if E.validateAddressFormat to_ then
      setLastNameEdit to_ (← get).size
      discard <| appendRecord E (.defineName to_ .empty)
      return true
    else return false

def applyTransfer (trx : SignedTransaction) (genName : Name) (trxPos : ℕ) (tr : Transfer) :
    DbM Bool := do
  if tr.toName ≠ [] ∧ tr.fromName = tr.toName then return false
  else
    match ← getPublicKey E tr.fromName with
    | none => return false
    | some fromKey =>
      match ← getPublicKey E tr.stockName with
      | none => return false
      | some _ =>
        if !trx.verify E fromKey then return false
        else
          let (bal, _) ← getBalance E tr.fromName tr.stockName
          if bal < tr.amount then return false
          else
            let to_ := if tr.toName = [] then genName else tr.toName
            if ← defineDestination E to_ then
              transferBalance E tr.fromName to_ tr.stockName tr.amount (some trxPos)
              return true
            else return false

/-- One turn of the command loop of `apply`. -/
def applyCommand (trx : SignedTransaction) (genName : Name) (trxPos : ℕ) : Command → DbM Bool
  | .registerName name pubKey => applyRegisterName E trx name pubKey
  | .issue stockName => applyIssue E trx trxPos stockName
  | .transfer tr => applyTransfer E trx genName trxPos tr
  | .other _ => return false

def applyCommands (trx : SignedTransaction) (genName : Name) (trxPos : ℕ) :
    List Command → DbM Bool
  | [] => return true
  | c :: cs => do
    if ← applyCommand E trx genName trxPos c then applyCommands trx genName trxPos cs
    else return false

def apply (trx : SignedTransaction) (genName : Name) : DbM Bool := do
  let trxPos := (← get).size
  discard <| appendRecord E (.startTrx (E.hashTrx trx.trx) trx.trx.utcTime)
  applyCommands E trx genName trxPos trx.trx.commands

def nameCount : DbM ℕ
  | .null => .ok 0 .null
  | .file d =>
    .ok (d.mNameDb.size + (d.lastNameEditMap.keys.filter fun n => d.mNameDb[n]? = none).length)
      (.file d)
  | .trx base l =>
    match nameCount base with
    | .error e base => .error e (.trx base l)
    | .ok count base =>
      match countUnknown E l.lastNameEditMap.keys base with
      | .error e base => .error e (.trx base l)
      | .ok unknown base => .ok (count + unknown) (.trx base l)

def chunkSize : ℕ := 1024 * 1024

/-- The `while` loop of `calculate_state_hash`.  The `r` its body declares is a new variable,
so the condition keeps testing the first read.  `fuel` bounds the turns; the last component
of the result is a history variable with the positions read. -/
def hashLoop : ℕ → ℕ → ℕ → List UInt8 → List Hashcode → List ℕ →
    DbM (List UInt8 × List Hashcode × List ℕ)
  | fuel, pos, r, tmp, hashes, reads =>
    if r = chunkSize then
      match fuel with
      | 0 => throw .diverges
      | fuel + 1 => do
        let hashes := hashes ++ [E.hashBytes (tmp.take r)]
        let pos := pos + r
        let bytes ← read pos chunkSize
        hashLoop fuel pos r (bytes ++ tmp.drop bytes.length) hashes (reads ++ [pos])
    else return (tmp, hashes, reads)

def stateHashReads (fuel : ℕ) : DbM (Hashcode × List ℕ) := do
  let bytes ← read 0 chunkSize
  let r := bytes.length
  let tmp := bytes ++ List.replicate (chunkSize - r) 0
  let (tmp, hashes, reads) ← hashLoop E fuel 0 r tmp [] [0]
  let hashes := if r ≠ 0 then hashes ++ [E.hashBytes (tmp.take r)] else hashes
  return (E.hashHashes hashes, reads)

def calculateStateHash : DbM Hashcode := do
  let (hash, _) ← stateHashReads E 0
  return hash

def applyAll (genName : Name) : List SignedTransaction → DbM Bool
  | [] => return true
  | t :: ts => do
    if ← apply E t genName then applyAll genName ts else return false

def applyBlock (b : Block) (gen : Name) (trxs : List SignedTransaction) (checksum : Hashcode) :
    DbM Bool := do
  if ← applyAll E gen trxs then
    let check ← calculateStateHash E
    if check ≠ checksum then return false
    else appendRecord E (.endBlock b gen)
  else return false

end DbM

end Gpm
