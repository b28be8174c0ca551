import Gpm.Bitblocks.Wire

namespace Gpm.Bitblocks

/-- A file on the disk; `tellg` counts its bytes in a `std::streamoff`. -/
structure InFile where
  content : List UInt8
  fits : content.length < 2 ^ 63

variable (E : Externals)

def readInto (data inp : List UInt8) : List UInt8 :=
  inp.take data.length ++ data.drop inp.length

def blockSize (len : ℕ) : ℕ := min (1024 * 1024) ((len + 7) % 2 ^ 64 / 8 * 8)

def setBlock (data : List UInt8) : M Hashcode := do
  let hc := E.hashSha1 data
  modify (Node.set hc { data := data })
  return hc

/-- The loop of `import_file`, with what is left of the stream. -/
def importLoop (bf : Blowfish) :
    ℕ → List UInt8 → ℕ → List UInt8 → List Hashcode → M (List Hashcode)
  | 0, _, _, _, _ => throw .diverges
  | fuel + 1, inp, len, data, blocks =>
    if len > 0 then do
      let data ← throwing (bf.encrypt (readInto (resize (blockSize len) data) inp))
      let hc ← setBlock E data
      importLoop bf fuel (inp.drop (blockSize len)) ((len + 2 ^ 64 - data.length) % 2 ^ 64) data
        (blocks ++ [hc])
    else return blocks

def metaData (mf : Metafile) : List UInt8 :=
  let data := E.metafile.pack mf
  resize ((data.length + 7) / 8 * 8) data

def importFile (fuel : ℕ) (disk : List UInt8 → Option InFile) (filename : List UInt8) :
    M (List UInt8) :=
  match disk filename with
  | none => return "file does not exist".toUTF8.toList
  | some file => do
    let bfKey := bfKeyOf E filename
    let bf ← throwing (Blowfish.start E.tables bfKey)
    let len := file.content.length
    let blocks ← importLoop E bf fuel file.content len (resize (1024 * 1024) []) []
    let mf : Metafile := ⟨E.filename filename, UInt64.ofNat len, blocks⟩
    let data ← throwing (bf.encrypt (metaData E mf))
    let hc ← setBlock E data
    return urnOf E bfKey hc

/-- `get` leaves the block as it was when the store has none. -/
def getData (hc : Hashcode) (data : List UInt8) : M (List UInt8) := do
  return ((← get).blocks[hc]?.map Block.data).getD data

def unpackMetafile (data : List UInt8) : M Metafile :=
  match E.metafile.unpack data with
  | some (mf, _) => return mf
  | none => throw .unpack

/-- The loop of `export_file`; what is written is never more than `size` bytes. -/
def exportLoop (bf : Blowfish) (size : ℕ) :
    List Hashcode → ℕ → List UInt8 → List UInt8 → M (List UInt8)
  | [], _, _, written => return written
  | hc :: blocks, len, data, written => do
    let data ← getData hc data
    let data ← throwing (bf.decrypt data)
    let nlen := min (len + data.length) size
    exportLoop bf size blocks nlen data (written ++ data.take (nlen - len))

def exportFile (keyMeta : List UInt8) : M (List UInt8 × List UInt8) := do
  let hc ← metaHash E (splitUrn keyMeta).2
  let data ← getData hc []
  let bf ← throwing (Blowfish.start E.tables (splitUrn keyMeta).1)
  let data ← throwing (bf.decrypt data)
  let mf ← unpackMetafile E data
  let written ← exportLoop bf mf.size.toNat mf.blocks 0 data []
  return (mf.name, written)

def pieces (size : ℕ) : ℕ → List UInt8 → List (List UInt8)
  | 0, _ => []
  | k + 1, l => l.take size :: pieces size k (l.drop size)

def pieceCount (len : ℕ) : ℕ := (len + 1024 * 1024 - 1) / (1024 * 1024)

def cipherOf (filename : List UInt8) : Blowfish :=
  Blowfish.schedule E.tables ((bfKeyOf E filename).take 56)

def dataBlocks (filename content : List UInt8) : List (List UInt8) :=
  (pieces (1024 * 1024) (pieceCount content.length) content).map (cipherOf E filename).encrypted

def metafileOf (filename content : List UInt8) : Metafile :=
  ⟨E.filename filename, UInt64.ofNat content.length,
    (dataBlocks E filename content).map E.hashSha1⟩

def metaBlock (filename content : List UInt8) : List UInt8 :=
  (cipherOf E filename).encrypted (metaData E (metafileOf E filename content))

def fileBlocks (filename content : List UInt8) : List (List UInt8) :=
  dataBlocks E filename content ++ [metaBlock E filename content]

def NoCollision (filename content : List UInt8) : Prop :=
  ∀ a ∈ fileBlocks E filename content, ∀ b ∈ fileBlocks E filename content,
    E.hashSha1 a = E.hashSha1 b → a = b

def storeData (n : Node) (data : List UInt8) : Node := n.set (E.hashSha1 data) { data := data }

/-- The store has these data under these hashes. -/
def Holds (n : Node) : List Hashcode → List (List UInt8) → Prop :=
  List.Forall₂ fun hc data => n.blocks[hc]?.map Block.data = some data

section Pieces

theorem length_pieces (size k : ℕ) (l : List UInt8) : (pieces size k l).length = k := by
  induction k generalizing l with
  | zero => rfl
  | succ k ih => rw [pieces, List.length_cons, ih]

theorem flatten_pieces {size k : ℕ} {l : List UInt8} (h : l.length ≤ k * size) :
    (pieces size k l).flatten = l := by
  induction k generalizing l with
  | zero =>
    rw [Nat.zero_mul, Nat.le_zero] at h
    rw [List.eq_nil_of_length_eq_zero h, pieces, List.flatten_nil]
  | succ k ih =>
    have hdrop : (l.drop size).length ≤ k * size := by
      rw [List.length_drop]
      rw [Nat.succ_mul] at h
      omega
    rw [pieces, List.flatten_cons, ih hdrop, List.take_append_drop]

theorem whole_of_mem_pieces {k : ℕ} {l p : List UInt8} (h8 : l.length % 8 = 0)
    (hk : pieceCount l.length = k) (h : p ∈ pieces (1024 * 1024) k l) : Blowfish.Whole p := by
  induction k generalizing l with
  | zero => cases h
  | succ k ih =>
    unfold pieceCount at hk ih
    rcases List.mem_cons.mp h with rfl | h
    · refine ⟨?_, ?_⟩ <;> rw [List.length_take] <;> omega
    · apply ih (l := l.drop (1024 * 1024)) _ _ h <;> rw [List.length_drop] <;> omega

end Pieces

section Store

variable {E} {n : Node} {d : List UInt8} {ds : List (List UInt8)}

theorem stored_foldl (ds : List (List UInt8)) (n : Node) :
    (ds.foldl (storeData E) n).stored = n.stored ++ ds.map E.hashSha1 := by
  induction ds generalizing n with
  | nil => rw [List.foldl_nil, List.map_nil, List.append_nil]
  | cons a ds ih =>
    rw [List.foldl_cons, ih, storeData, Node.stored_set, List.map_cons, List.append_assoc,
      List.singleton_append]

theorem getElem?_foldl (ds : List (List UInt8)) (n : Node)
    (hcollide : ∀ a ∈ ds, E.hashSha1 a = E.hashSha1 d → a = d)
    (h : d ∈ ds ∨ n.blocks[E.hashSha1 d]? = some { data := d }) :
    (ds.foldl (storeData E) n).blocks[E.hashSha1 d]? = some { data := d } := by
  induction ds generalizing n with
  | nil => exact h.resolve_left (List.not_mem_nil)
  | cons a ds ih =>
    apply ih _ fun x hx => hcollide x (List.mem_cons_of_mem a hx)
    rw [storeData, Node.getElem?_set]
    by_cases hhash : E.hashSha1 a = E.hashSha1 d
    · rw [if_pos hhash, hcollide a List.mem_cons_self hhash]
      exact Or.inr rfl
    · rw [if_neg hhash]
      rcases h with h | h
      · rcases List.mem_cons.mp h with rfl | h
        · exact absurd rfl hhash
        · exact Or.inl h
      · exact Or.inr h

end Store

section Import

variable {E} {bf : Blowfish} {n : Node}

theorem throwing_ok {α : Type} {x : Except String α} {a : α} (h : x = .ok a) :
    throwing x n = .ok a n := by
  rw [h]
  rfl

theorem throwing_error {α : Type} {x : Except String α} {message : String}
    (h : x = .error message) : throwing x n = .error (.exception message) n := by
  rw [h]
  rfl

theorem setBlock_eq (data : List UInt8) :
    setBlock E data n = .ok (E.hashSha1 data) (storeData E n data) := rfl

theorem length_readInto (data inp : List UInt8) : (readInto data inp).length = data.length := by
  rw [readInto, List.length_append, List.length_take, List.length_drop]
  omega

theorem readInto_resize {size : ℕ} {data inp : List UInt8} (h : size ≤ inp.length) :
    readInto (resize size data) inp = inp.take size := by
  rw [readInto, length_resize, List.drop_of_length_le, List.append_nil]
  rw [length_resize]
  exact h

theorem importLoop_nil {fuel len : ℕ} {inp data : List UInt8} {blocks : List Hashcode}
    (h : len = 0) : importLoop E bf (fuel + 1) inp len data blocks n = .ok blocks n := by
  rw [importLoop, if_neg (by omega)]
  rfl

theorem importLoop_step {fuel len : ℕ} {inp data : List UInt8} {blocks : List Hashcode}
    (hlen : 0 < len)
    (hwhole : Blowfish.Whole (readInto (resize (blockSize len) data) inp)) :
    importLoop E bf (fuel + 1) inp len data blocks n =
      importLoop E bf fuel (inp.drop (blockSize len)) ((len + 2 ^ 64 - blockSize len) % 2 ^ 64)
        (bf.encrypted (readInto (resize (blockSize len) data) inp))
        (blocks ++ [E.hashSha1 (bf.encrypted (readInto (resize (blockSize len) data) inp))])
        (storeData E n (bf.encrypted (readInto (resize (blockSize len) data) inp))) := by
  have hsize : (bf.encrypted _).length = _ := Blowfish.length_encrypted hwhole
  rw [length_readInto, length_resize] at hsize
  rw [importLoop, if_pos hlen, Lib.bind_ok (throwing_ok (Blowfish.encrypt_of_whole hwhole)),
    Lib.bind_ok (setBlock_eq _), hsize]

theorem importLoop_pieces {k fuel : ℕ} {inp : List UInt8} (data : List UInt8)
    (blocks : List Hashcode) (hfuel : k < fuel) (h8 : inp.length % 8 = 0)
    (hlt : inp.length < 2 ^ 63)
    (hk : pieceCount inp.length = k) :
    importLoop E bf fuel inp inp.length data blocks n =
      .ok (blocks ++ ((pieces (1024 * 1024) k inp).map bf.encrypted).map E.hashSha1)
        (((pieces (1024 * 1024) k inp).map bf.encrypted).foldl (storeData E) n) := by
  induction k generalizing fuel inp data blocks n with
  | zero =>
    obtain ⟨fuel, rfl⟩ := Nat.exists_eq_succ_of_ne_zero (Nat.ne_of_gt hfuel)
    have hlen : inp.length = 0 := by
      unfold pieceCount at hk
      omega
    rw [importLoop_nil hlen, pieces, List.map_nil, List.map_nil, List.append_nil, List.foldl_nil]
  | succ k ih =>
    obtain ⟨fuel, rfl⟩ := Nat.exists_eq_succ_of_ne_zero (Nat.ne_zero_of_lt hfuel)
    have hpos : 0 < inp.length := by
      unfold pieceCount at hk
      omega
    have hsize : blockSize inp.length = min (1024 * 1024) inp.length := by
      unfold blockSize
      omega
    have hread : readInto (resize (blockSize inp.length) data) inp = inp.take (1024 * 1024) := by
      rw [readInto_resize (by omega), List.take_eq_take_iff]
      omega
    have hdrop : inp.drop (blockSize inp.length) = inp.drop (1024 * 1024) := by
      rw [List.drop_eq_drop_iff]
      omega
    have hlen : (inp.length + 2 ^ 64 - blockSize inp.length) % 2 ^ 64 =
        (inp.drop (1024 * 1024)).length := by
      rw [List.length_drop]
      omega
    have hwhole : Blowfish.Whole (inp.take (1024 * 1024)) :=
      whole_of_mem_pieces h8 hk List.mem_cons_self
    rw [importLoop_step hpos (hread ▸ hwhole), hread, hdrop, hlen,
      ih _ _ (Nat.lt_of_succ_lt_succ hfuel) (by omega) (by omega)
        (by unfold pieceCount at hk ⊢; omega), pieces]
    simp only [List.map_cons, List.foldl_cons, List.append_assoc, List.singleton_append]

theorem importLoop_overrun {fuel len : ℕ} {inp data : List UInt8} {blocks : List Hashcode}
    (hlow : 2 ^ 64 - 7 ≤ len) (hhigh : len < 2 ^ 64) :
    ∃ e n', importLoop E bf fuel inp len data blocks n = .error e n' := by
  cases fuel with
  | zero => exact ⟨_, _, rfl⟩
  | succ fuel =>
    have hsize : blockSize len = 0 := by
      unfold blockSize
      omega
    have hwhole : ¬Blowfish.Whole (readInto (resize (blockSize len) data) inp) := by
      intro h
      rw [Blowfish.Whole, length_readInto, length_resize] at h
      exact h.1 hsize
    rw [importLoop, if_pos (by omega),
      Lib.bind_error (throwing_error (Blowfish.encrypt_of_not_whole hwhole))]
    exact ⟨_, _, rfl⟩

theorem importLoop_fails (fuel : ℕ) {inp : List UInt8} (data : List UInt8)
    (blocks : List Hashcode) (h8 : inp.length % 8 ≠ 0) (hlt : inp.length < 2 ^ 63) :
    ∃ e n', importLoop E bf fuel inp inp.length data blocks n = .error e n' := by
  induction fuel generalizing inp data blocks n with
  | zero => exact ⟨_, _, rfl⟩
  | succ fuel ih =>
    have hpos : 0 < inp.length := by omega
    have hwhole : Blowfish.Whole (readInto (resize (blockSize inp.length) data) inp) := by
      rw [Blowfish.Whole, length_readInto, length_resize]
      unfold blockSize
      omega
    rw [importLoop_step hpos hwhole]
    by_cases hlast : inp.length ≤ 1024 * 1024
    · have hsize : blockSize inp.length = (inp.length + 7) / 8 * 8 := by
        unfold blockSize
        omega
      apply importLoop_overrun <;> omega
    · have hsize : blockSize inp.length = 1024 * 1024 := by
        unfold blockSize
        omega
      have hdrop : (inp.drop (1024 * 1024)).length = inp.length - 1024 * 1024 := List.length_drop
      have hlen : (inp.length + 2 ^ 64 - blockSize inp.length) % 2 ^ 64 =
          (inp.drop (1024 * 1024)).length := by omega
      rw [hlen, hsize]
      exact ih _ _ (by omega) (by omega)

end Import

section Export

variable {E} {bf : Blowfish} {n : Node} {mf : Metafile} {d : List UInt8}

theorem whole_metaData : Blowfish.Whole (metaData E mf) := by
  have hpos := List.length_pos_of_ne_nil (E.metafile.pack_ne_nil mf)
  rw [Blowfish.Whole, metaData, length_resize]
  omega

theorem unpack_metaData (E : Externals) (mf : Metafile) :
    ∃ rest, E.metafile.unpack (metaData E mf) = some (mf, rest) := by
  refine ⟨List.replicate (((E.metafile.pack mf).length + 7) / 8 * 8 -
    (E.metafile.pack mf).length) 0, ?_⟩
  rw [metaData, resize, List.take_append, List.take_of_length_le (by omega), List.take_replicate,
    E.metafile.unpack_pack]
  congr 3
  omega

theorem getData_of_some {hc : Hashcode} {data : List UInt8}
    (h : n.blocks[hc]?.map Block.data = some d) : getData hc data n = .ok d n := by
  change EStateM.Result.ok ((n.blocks[hc]?.map Block.data).getD data) n = _
  rw [h]
  rfl

theorem unpackMetafile_of_some {rest : List UInt8} (h : E.metafile.unpack d = some (mf, rest)) :
    unpackMetafile E d n = .ok mf n := by
  rw [unpackMetafile, h]
  rfl

theorem take_written (x y : List UInt8) (len size : ℕ) :
    x.take (min (len + x.length) size - len) ++ y.take (size - min (len + x.length) size) =
      (x ++ y).take (size - len) := by
  rw [List.take_append]
  congr 1
  · rw [List.take_eq_take_iff]
    omega
  · rw [List.take_eq_take_iff]
    omega

theorem exportLoop_of_holds {hcs : List Hashcode} {ds : List (List UInt8)} {size len : ℕ}
    {data written : List UInt8} (hholds : Holds n hcs ds) (hwhole : ∀ d ∈ ds, Blowfish.Whole d)
    (hle : len ≤ size) :
    exportLoop bf size hcs len data written n =
      .ok (written ++ ((ds.map bf.decrypted).flatten).take (size - len)) n := by
  induction hholds generalizing len data written with
  | nil =>
    rw [exportLoop, List.map_nil, List.flatten_nil, List.take_nil, List.append_nil]
    rfl
  | @cons hc d hcs ds hd _ ih =>
    have hdw := hwhole d List.mem_cons_self
    rw [exportLoop, Lib.bind_ok (getData_of_some hd),
      Lib.bind_ok (throwing_ok (Blowfish.decrypt_of_whole hdw)),
      ih (fun x hx => hwhole x (List.mem_cons_of_mem d hx)) (Nat.min_le_right _ _),
      List.append_assoc, take_written, List.map_cons, List.flatten_cons]

theorem exportLoop_fails (bf : Blowfish) {hcs : List Hashcode} {ds : List (List UInt8)}
    (size len : ℕ) (data written : List UInt8) (hholds : Holds n hcs ds) (hd : d ∈ ds)
    (hwhole : ¬Blowfish.Whole d) :
    ∃ e n', exportLoop bf size hcs len data written n = .error e n' := by
  induction hholds generalizing len data written with
  | nil => cases hd
  | @cons hc a hcs ds ha _ ih =>
    rw [exportLoop, Lib.bind_ok (getData_of_some ha)]
    by_cases haw : Blowfish.Whole a
    · rw [Lib.bind_ok (throwing_ok (Blowfish.decrypt_of_whole haw))]
      rcases List.mem_cons.mp hd with rfl | hd
      · exact absurd haw hwhole
      · exact ih _ _ _ hd
    · rw [Lib.bind_error (throwing_error (Blowfish.decrypt_of_not_whole haw))]
      exact ⟨_, _, rfl⟩

structure Opens (E : Externals) (n : Node) (keyMeta : List UInt8) (hc : Hashcode) (bf : Blowfish)
    (mf : Metafile) : Prop where
  hash : ∀ n, metaHash E (splitUrn keyMeta).2 n = .ok hc n
  key : Blowfish.start E.tables (splitUrn keyMeta).1 = .ok bf
  found : ∃ data rest, n.blocks[hc]?.map Block.data = some data ∧ Blowfish.Whole data ∧
    E.metafile.unpack (bf.decrypted data) = some (mf, rest)

theorem Opens.exportFile {keyMeta : List UInt8} {hc : Hashcode}
    (h : Opens E n keyMeta hc bf mf) : ∃ data, Bitblocks.exportFile E keyMeta n =
      (exportLoop bf mf.size.toNat mf.blocks 0 data [] >>= fun written =>
        pure (mf.name, written)) n := by
  obtain ⟨data, rest, hget, hwhole, hunpack⟩ := h.found
  refine ⟨bf.decrypted data, ?_⟩
  rw [Bitblocks.exportFile, Lib.bind_ok (h.hash n), Lib.bind_ok (getData_of_some hget),
    Lib.bind_ok (throwing_ok h.key), Lib.bind_ok (throwing_ok (Blowfish.decrypt_of_whole hwhole)),
    Lib.bind_ok (unpackMetafile_of_some hunpack)]

end Export

section RoundTrip

variable {n : Node} {disk : List UInt8 → Option InFile} {filename : List UInt8} {file : InFile}

def RoundTrips (n : Node) (disk : List UInt8 → Option InFile) (filename content : List UInt8) :
    Prop :=
  ∃ fuel urn n' data hc, importFile E fuel disk filename n = .ok urn n' ∧
    n'.stored = n.stored ++ data ++ [hc] ∧ data.length = pieceCount content.length ∧
    exportFile E urn n' = .ok (E.filename filename, content) n'

variable {E}

theorem start_bfKeyOf (filename : List UInt8) :
    Blowfish.start E.tables (bfKeyOf E filename) = .ok (cipherOf E filename) :=
  Blowfish.start_of_ne_nil (bfKeyOf_ne_nil filename)

theorem importFile_eq (hdisk : disk filename = some file) (h8 : file.content.length % 8 = 0) :
    importFile E (pieceCount file.content.length + 1) disk filename n =
      .ok (urnOf E (bfKeyOf E filename) (E.hashSha1 (metaBlock E filename file.content)))
        ((fileBlocks E filename file.content).foldl (storeData E) n) := by
  have hloop : importLoop E (cipherOf E filename) _ _ _ _ _ n = _ :=
    importLoop_pieces (resize (1024 * 1024) []) [] (Nat.lt_succ_self _) h8 file.fits rfl
  rw [importFile, hdisk]
  simp only
  rw [Lib.bind_ok (throwing_ok (start_bfKeyOf filename)), Lib.bind_ok hloop, List.nil_append,
    Lib.bind_ok (throwing_ok (Blowfish.encrypt_of_whole whole_metaData)),
    Lib.bind_ok (setBlock_eq _), fileBlocks, List.foldl_append]
  rfl

theorem importFile_fails (hdisk : disk filename = some file)
    (h8 : file.content.length % 8 ≠ 0) (fuel : ℕ) :
    ∃ e n', importFile E fuel disk filename n = .error e n' := by
  have hloop : ∃ e n', importLoop E (cipherOf E filename) _ _ _ _ _ n = .error e n' :=
    importLoop_fails fuel (resize (1024 * 1024) []) [] h8 file.fits
  obtain ⟨e, n', hloop⟩ := hloop
  refine ⟨e, n', ?_⟩
  rw [importFile, hdisk]
  simp only
  rw [Lib.bind_ok (throwing_ok (start_bfKeyOf filename))]
  exact Lib.bind_error hloop

theorem blocks_of_mem (content : List UInt8)
    (hcollide : NoCollision E filename content) {d : List UInt8}
    (h : d ∈ fileBlocks E filename content) :
    (((fileBlocks E filename content).foldl (storeData E) n).blocks[E.hashSha1 d]?).map
      Block.data = some d := by
  rw [getElem?_foldl _ _ (fun a ha => hcollide a ha d h) (Or.inl h)]
  rfl

theorem decrypted_dataBlocks {content : List UInt8} (h8 : content.length % 8 = 0) :
    ((dataBlocks E filename content).map (cipherOf E filename).decrypted).flatten = content := by
  have hpieces : (dataBlocks E filename content).map (cipherOf E filename).decrypted =
      pieces (1024 * 1024) (pieceCount content.length) content := by
    rw [dataBlocks, List.map_map]
    conv_rhs => rw [← List.map_id (pieces (1024 * 1024) (pieceCount content.length) content)]
    apply List.map_congr_left
    intro p hp
    exact Blowfish.decrypted_encrypted (whole_of_mem_pieces h8 rfl hp)
  rw [hpieces]
  apply flatten_pieces
  unfold pieceCount
  omega

theorem opens_urnOf {mf : Metafile} {data : List UInt8}
    (hdata : (cipherOf E filename).encrypted (metaData E mf) = data)
    (hfound : n.blocks[E.hashSha1 data]?.map Block.data = some data) :
    Opens E n (urnOf E (bfKeyOf E filename) (E.hashSha1 data)) (E.hashSha1 data)
      (cipherOf E filename) mf := by
  have hsplit := splitUrn_append (separator_not_mem_bfKeyOf (E := E) filename)
    (E.base64Encode (E.hashSha1 data).hash)
  constructor
  case hash =>
    intro n
    rw [urnOf, hsplit, metaHash_base64Encode]
  case key =>
    rw [urnOf, hsplit]
    exact start_bfKeyOf filename
  case found =>
    obtain ⟨rest, hunpack⟩ := unpack_metaData E mf
    subst hdata
    refine ⟨_, rest, hfound, whole_metaData.encrypted, ?_⟩
    rw [Blowfish.decrypted_encrypted whole_metaData, hunpack]

theorem exportFile_urnOf (h8 : file.content.length % 8 = 0)
    (hcollide : NoCollision E filename file.content) :
    exportFile E (urnOf E (bfKeyOf E filename) (E.hashSha1 (metaBlock E filename file.content)))
      ((fileBlocks E filename file.content).foldl (storeData E) n) =
      .ok (E.filename filename, file.content)
        ((fileBlocks E filename file.content).foldl (storeData E) n) := by
  have hholds : Holds ((fileBlocks E filename file.content).foldl (storeData E) n)
      (metafileOf E filename file.content).blocks (dataBlocks E filename file.content) := by
    rw [Holds, metafileOf, List.forall₂_map_left_iff, List.forall₂_same]
    exact fun d hd => blocks_of_mem file.content hcollide (List.mem_append_left _ hd)
  have hwhole : ∀ d ∈ dataBlocks E filename file.content, Blowfish.Whole d := by
    intro d hd
    obtain ⟨p, hp, rfl⟩ := List.mem_map.mp hd
    exact (whole_of_mem_pieces h8 rfl hp).encrypted
  have hsize : (metafileOf E filename file.content).size.toNat = file.content.length := by
    rw [metafileOf, UInt64.toNat_ofNat', Nat.mod_eq_of_lt]
    exact Nat.lt_of_lt_of_le file.fits (by decide)
  have hopens : Opens E ((fileBlocks E filename file.content).foldl (storeData E) n)
      (urnOf E (bfKeyOf E filename) (E.hashSha1 (metaBlock E filename file.content))) _ _
      (metafileOf E filename file.content) :=
    opens_urnOf rfl (blocks_of_mem file.content hcollide
      (List.mem_append_right _ List.mem_cons_self))
  obtain ⟨data, hexport⟩ := hopens.exportFile
  rw [hexport, Lib.bind_ok (exportLoop_of_holds hholds hwhole (Nat.zero_le _)), hsize,
    decrypted_dataBlocks h8, List.nil_append, Nat.sub_zero, List.take_length]
  rfl

theorem not_roundTrips (hdisk : disk filename = some file)
    (h8 : file.content.length % 8 ≠ 0) : ¬RoundTrips E n disk filename file.content := by
  rintro ⟨fuel, urn, n', data, hc, himport, -⟩
  obtain ⟨e, n'', hfails⟩ := importFile_fails (E := E) (n := n) hdisk h8 fuel
  rw [hfails] at himport
  cases himport

/-- Only files whose last block needs no padding come through. -/
theorem roundTrips_iff (hdisk : disk filename = some file)
    (hcollide : NoCollision E filename file.content) :
    RoundTrips E n disk filename file.content ↔ file.content.length % 8 = 0 := by
  constructor
  case mp =>
    intro h
    by_contra h8
    exact not_roundTrips hdisk h8 h
  case mpr =>
    intro h8
    refine ⟨_, _, _, (dataBlocks E filename file.content).map E.hashSha1,
      E.hashSha1 (metaBlock E filename file.content), importFile_eq hdisk h8, ?_, ?_,
      exportFile_urnOf h8 hcollide⟩
    · rw [stored_foldl, fileBlocks, List.map_append, List.append_assoc]
      rfl
    · rw [List.length_map, dataBlocks, List.length_map, length_pieces]

end RoundTrip

namespace Wire

def path : List UInt8 := [97, 47, 98]

def eightBytes : InFile := ⟨[1, 2, 3, 4, 5, 6, 7, 8], by decide⟩

def oneByte : InFile := ⟨[1], by decide⟩

theorem noCollision_of_nodup {path content : List UInt8}
    (hnodup : ((fileBlocks externals path content).map List.length).Nodup)
    (hlt : ∀ k ∈ (fileBlocks externals path content).map List.length, k < 256 ^ 12) :
    NoCollision externals path content :=
  fun _ ha _ hb => eq_of_checksum hnodup hlt ha hb

end Wire

section

open Wire

theorem roundTrips_eightBytes :
    RoundTrips externals {} (fun _ => some eightBytes) path eightBytes.content :=
  (roundTrips_iff rfl (noCollision_of_nodup (by decide +kernel) (by decide +kernel))).mpr rfl

theorem not_roundTrips_oneByte :
    NoCollision externals path oneByte.content ∧
      ¬RoundTrips externals {} (fun _ => some oneByte) path oneByte.content :=
  ⟨noCollision_of_nodup (by decide +kernel) (by decide +kernel), not_roundTrips rfl (by decide)⟩

end

end Gpm.Bitblocks
