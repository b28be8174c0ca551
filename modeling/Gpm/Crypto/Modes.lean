import Gpm.Crypto.Blowfish
import Gpm.Lib.Modes
import Mathlib.Data.List.GetD

namespace Gpm

namespace SBlock

def xor (a b : SBlock) : SBlock := ⟨a.uil ^^^ b.uil, a.uir ^^^ b.uir⟩

theorem xor_xor_cancel (a b : SBlock) : (a.xor b).xor b = a := by
  simp only [xor, Blowfish.xor_xor_cancel]

theorem xor_injective (a : SBlock) : Function.Injective a.xor := by
  have hcancel (x y : UInt32) : x ^^^ (x ^^^ y) = y := by
    rw [← UInt32.xor_assoc, UInt32.xor_self, UInt32.zero_xor]
  intro b c h
  have h' := congrArg a.xor h
  simpa only [xor, hcancel] using h'

theorem toBytes_injective : Function.Injective toBytes := by
  intro a b h
  rw [← ofBytes_toBytes a [], h, ofBytes_toBytes]

def blocks : ℕ → List UInt8 → List SBlock
  | 0, _ => []
  | n + 1, buf => ofBytes buf :: blocks n (buf.drop 8)

def bytes (bs : List SBlock) : List UInt8 := bs.flatMap toBytes

@[simp] theorem length_blocks (n : ℕ) (buf : List UInt8) : (blocks n buf).length = n := by
  induction n generalizing buf with
  | zero => rfl
  | succ n ih => rw [blocks, List.length_cons, ih]

@[simp] theorem length_bytes (bs : List SBlock) : (bytes bs).length = 8 * bs.length := by
  induction bs with
  | nil => rfl
  | cons b bs ih =>
    rw [bytes, List.flatMap_cons, List.length_append, length_toBytes, ← bytes, ih,
      List.length_cons]
    omega

theorem ofBytes_take (buf : List UInt8) : ofBytes (buf.take 8) = ofBytes buf := by
  simp [ofBytes, List.take_take, List.drop_take]

theorem blocks_bytes (bs : List SBlock) : blocks bs.length (bytes bs) = bs := by
  induction bs with
  | nil => rfl
  | cons b bs ih =>
    rw [bytes, List.flatMap_cons, List.length_cons, blocks, ofBytes_toBytes,
      List.drop_left' (length_toBytes b), ← bytes, ih]

theorem bytes_blocks (n : ℕ) (buf : List UInt8) (h : 8 * n ≤ buf.length) :
    bytes (blocks n buf) = buf.take (8 * n) := by
  induction n generalizing buf with
  | zero => rfl
  | succ n ih =>
    have htake : (buf.take 8).length = 8 := by
      rw [List.length_take]
      omega
    have hdrop : 8 * n ≤ (buf.drop 8).length := by
      rw [List.length_drop]
      omega
    rw [blocks, bytes, List.flatMap_cons, ← bytes, ih _ hdrop, ← ofBytes_take,
      toBytes_ofBytes htake, Nat.mul_succ, Nat.add_comm, List.take_add]

theorem blocks_append {m : ℕ} {buf : List UInt8} (h : buf.length = 8 * m) (n : ℕ)
    (rest : List UInt8) : blocks (m + n) (buf ++ rest) = blocks m buf ++ blocks n rest := by
  induction m generalizing buf with
  | zero =>
    rw [List.eq_nil_of_length_eq_zero h, Nat.zero_add, blocks, List.nil_append, List.nil_append]
  | succ m ih =>
    have hdrop : (buf.drop 8).length = 8 * m := by
      rw [List.length_drop]
      omega
    have hfirst : ofBytes (buf ++ rest) = ofBytes buf := by
      rw [← ofBytes_take, List.take_append_of_le_length (by omega), ofBytes_take]
    rw [Nat.succ_add, blocks, hfirst, List.drop_append_of_le_length (by omega), ih hdrop, blocks,
      List.cons_append]

theorem bytes_append (as bs : List SBlock) : bytes (as ++ bs) = bytes as ++ bytes bs :=
  List.flatMap_append

theorem bytes_injective : Function.Injective bytes := by
  intro as bs h
  have hlen : as.length = bs.length := by
    have hlen := congrArg List.length h
    rw [length_bytes, length_bytes] at hlen
    omega
  rw [← blocks_bytes as, h, hlen, blocks_bytes]

theorem getElem?_blocks {n i : ℕ} (buf : List UInt8) (h : i < n) :
    (blocks n buf)[i]? = some (ofBytes (buf.drop (8 * i))) := by
  induction n generalizing buf i with
  | zero => cases h
  | succ n ih =>
    cases i with
    | zero => rfl
    | succ i =>
      rw [blocks, List.getElem?_cons_succ, ih _ (Nat.lt_of_succ_lt_succ h), List.drop_drop]
      congr 3
      omega

end SBlock

namespace Blowfish

/-- The values of `iMode`. -/
inductive Mode
  | ecb
  | cbc
  | cfb
  deriving DecidableEq

/-- The tables with the chain, as `start` leaves them. -/
structure Chained where
  tables : Blowfish
  oChain0 : SBlock
  oChain : SBlock

/-- One pass of the loop of `encrypt`: what the block becomes and what the chain is then. -/
def encryptStep (bf : Blowfish) : Mode → SBlock → SBlock → SBlock × SBlock
  | .ecb => fun chain work => (bf.encryptBlock work, chain)
  | .cbc => Lib.Modes.cbc SBlock.xor bf.encryptBlock
  | .cfb => Lib.Modes.cfb SBlock.xor bf.encryptBlock

def decryptStep (bf : Blowfish) : Mode → SBlock → SBlock → SBlock × SBlock
  | .ecb => fun chain work => (bf.decryptBlock work, chain)
  | .cbc => Lib.Modes.uncbc SBlock.xor bf.decryptBlock
  | .cfb => Lib.Modes.uncfb SBlock.xor bf.encryptBlock

def overwrite (buf : List UInt8) (pos : ℕ) (data : List UInt8) : List UInt8 :=
  buf.take pos ++ data ++ buf.drop (pos + data.length)

def loopInPlace (step : SBlock → SBlock → SBlock × SBlock) :
    ℕ → ℕ → SBlock → List UInt8 → List UInt8
  | 0, _, _, buf => buf
  | n + 1, pos, chain, buf =>
    let s := step chain (.ofBytes (buf.drop pos))
    loopInPlace step n (pos + 8) s.2 (overwrite buf pos s.1.toBytes)

def loopAcross (step : SBlock → SBlock → SBlock × SBlock) :
    ℕ → ℕ → SBlock → List UInt8 → List UInt8 → List UInt8
  | 0, _, _, _, out => out
  | n + 1, pos, chain, inp, out =>
    let s := step chain (.ofBytes (inp.drop pos))
    loopAcross step n (pos + 8) s.2 inp (overwrite out pos s.1.toBytes)

namespace Chained

def start (init : Blowfish) (ucKey : List UInt8) (roChain : SBlock := ⟨0, 0⟩) :
    Except String Chained := do
  let tables ← Blowfish.start init ucKey
  return ⟨tables, roChain, roChain⟩

def resetChain (c : Chained) : Chained := { c with oChain := c.oChain0 }

def encrypt (c : Chained) (iMode : Mode) (buf : List UInt8) : Except String (List UInt8) :=
  if Whole buf then
    .ok (loopInPlace (c.tables.encryptStep iMode) (buf.length / 8) 0 c.oChain buf)
  else .error "Incorrect buffer length"

def decrypt (c : Chained) (iMode : Mode) (buf : List UInt8) : Except String (List UInt8) :=
  if Whole buf then
    .ok (loopInPlace (c.tables.decryptStep iMode) (buf.length / 8) 0 c.oChain buf)
  else .error "Incorrect buffer length"

def encryptTo (c : Chained) (iMode : Mode) (inp out : List UInt8) : Except String (List UInt8) :=
  if Whole inp then
    .ok (loopAcross (c.tables.encryptStep iMode) (inp.length / 8) 0 c.oChain inp out)
  else .error "Incorrect buffer length"

def decryptTo (c : Chained) (iMode : Mode) (inp out : List UInt8) : Except String (List UInt8) :=
  if Whole inp then
    .ok (loopAcross (c.tables.decryptStep iMode) (inp.length / 8) 0 c.oChain inp out)
  else .error "Incorrect buffer length"

def blank : Chained := ⟨⟨fun _ => 0, fun _ _ => 0⟩, ⟨0, 0⟩, ⟨0, 0⟩⟩

end Chained

section Loop

variable {step : SBlock → SBlock → SBlock × SBlock} {buf out data : List UInt8} {pos : ℕ}

theorem length_overwrite (h : pos + data.length ≤ buf.length) :
    (overwrite buf pos data).length = buf.length := by
  simp only [overwrite, List.length_append, List.length_take, List.length_drop]
  omega

theorem take_overwrite (h : pos ≤ buf.length) :
    (overwrite buf pos data).take (pos + data.length) = buf.take pos ++ data := by
  apply List.take_left'
  rw [List.length_append, List.length_take, Nat.min_eq_left h]

theorem drop_overwrite (h : pos ≤ buf.length) :
    (overwrite buf pos data).drop (pos + data.length) = buf.drop (pos + data.length) := by
  apply List.drop_left'
  rw [List.length_append, List.length_take, Nat.min_eq_left h]

def coded (step : SBlock → SBlock → SBlock × SBlock) (chain : SBlock) (buf : List UInt8) :
    List UInt8 :=
  SBlock.bytes (Lib.Modes.run step chain (SBlock.blocks (buf.length / 8) buf))

theorem loopInPlace_eq (n : ℕ) (chain : SBlock) (h : pos + 8 * n ≤ buf.length) :
    loopInPlace step n pos chain buf = buf.take pos ++
      SBlock.bytes (Lib.Modes.run step chain (SBlock.blocks n (buf.drop pos))) ++
        buf.drop (pos + 8 * n) := by
  induction n generalizing pos chain buf with
  | zero => exact (List.append_nil (buf.take pos) ▸ List.take_append_drop pos buf).symm
  | succ n ih =>
    generalize hs : step chain (.ofBytes (buf.drop pos)) = s
    have hlen := SBlock.length_toBytes s.1
    have hwritten : (overwrite buf pos s.1.toBytes).length = buf.length :=
      length_overwrite (by omega)
    have htake : (overwrite buf pos s.1.toBytes).take (pos + s.1.toBytes.length) =
        buf.take pos ++ s.1.toBytes := take_overwrite (by omega)
    have hdrop : (overwrite buf pos s.1.toBytes).drop (pos + s.1.toBytes.length) =
        buf.drop (pos + s.1.toBytes.length) := drop_overwrite (by omega)
    rw [hlen] at htake hdrop
    have hrest : (overwrite buf pos s.1.toBytes).drop (pos + 8 + 8 * n) =
        buf.drop (pos + 8 * (n + 1)) := by
      rw [← List.drop_drop, hdrop, List.drop_drop]
      congr 1
      omega
    simp only [loopInPlace, hs]
    rw [ih _ (by omega), htake, hdrop, hrest, SBlock.blocks, Lib.Modes.run_cons, hs, SBlock.bytes,
      SBlock.bytes, List.flatMap_cons, List.drop_drop, List.append_assoc (buf.take pos)]

theorem loopAcross_eq (n : ℕ) (chain : SBlock) (hbuf : pos + 8 * n ≤ buf.length)
    (hout : pos + 8 * n ≤ out.length) :
    loopAcross step n pos chain buf out = out.take pos ++
      SBlock.bytes (Lib.Modes.run step chain (SBlock.blocks n (buf.drop pos))) ++
        out.drop (pos + 8 * n) := by
  induction n generalizing pos chain out with
  | zero => exact (List.append_nil (out.take pos) ▸ List.take_append_drop pos out).symm
  | succ n ih =>
    generalize hs : step chain (.ofBytes (buf.drop pos)) = s
    have hlen := SBlock.length_toBytes s.1
    have hwritten : (overwrite out pos s.1.toBytes).length = out.length :=
      length_overwrite (by omega)
    have htake : (overwrite out pos s.1.toBytes).take (pos + s.1.toBytes.length) =
        out.take pos ++ s.1.toBytes := take_overwrite (by omega)
    have hdrop : (overwrite out pos s.1.toBytes).drop (pos + s.1.toBytes.length) =
        out.drop (pos + s.1.toBytes.length) := drop_overwrite (by omega)
    rw [hlen] at htake hdrop
    have hrest : (overwrite out pos s.1.toBytes).drop (pos + 8 + 8 * n) =
        out.drop (pos + 8 * (n + 1)) := by
      rw [← List.drop_drop, hdrop, List.drop_drop]
      congr 1
      omega
    simp only [loopAcross, hs]
    rw [ih _ (by omega) (by omega), htake, hrest, SBlock.blocks, Lib.Modes.run_cons, hs,
      SBlock.bytes, SBlock.bytes, List.flatMap_cons, List.drop_drop,
      List.append_assoc (out.take pos)]

theorem loopInPlace_of_whole (h : Whole buf) (chain : SBlock) :
    loopInPlace step (buf.length / 8) 0 chain buf = coded step chain buf := by
  rw [loopInPlace_eq _ _ (by rw [Nat.zero_add, h.eight_mul]), Nat.zero_add, h.eight_mul,
    List.drop_length, List.append_nil]
  rfl

theorem loopAcross_of_whole (h : Whole buf) (hout : buf.length ≤ out.length) (chain : SBlock) :
    loopAcross step (buf.length / 8) 0 chain buf out =
      coded step chain buf ++ out.drop buf.length := by
  rw [loopAcross_eq _ _ (by rw [Nat.zero_add, h.eight_mul])
    (by rwa [Nat.zero_add, h.eight_mul]), Nat.zero_add, h.eight_mul]
  rfl

theorem length_coded (h : Whole buf) (chain : SBlock) :
    (coded step chain buf).length = buf.length := by
  rw [coded, SBlock.length_bytes, Lib.Modes.length_run, SBlock.length_blocks, h.eight_mul]

theorem blocks_coded (h : Whole buf) (chain : SBlock) :
    SBlock.blocks ((coded step chain buf).length / 8) (coded step chain buf) =
      Lib.Modes.run step chain (SBlock.blocks (buf.length / 8) buf) := by
  have hlen : (Lib.Modes.run step chain (SBlock.blocks (buf.length / 8) buf)).length =
      (coded step chain buf).length / 8 := by
    rw [length_coded h, Lib.Modes.length_run, SBlock.length_blocks]
  rw [← hlen]
  exact SBlock.blocks_bytes _

theorem coded_append (h : Whole buf) (chain : SBlock) (rest : List UInt8) :
    coded step chain (buf ++ rest) = coded step chain buf ++
      coded step (Lib.Modes.after step chain (SBlock.blocks (buf.length / 8) buf)) rest := by
  have hsplit : (buf ++ rest).length / 8 = buf.length / 8 + rest.length / 8 := by
    have h8 := h.eight_mul
    rw [List.length_append]
    omega
  rw [coded, hsplit, SBlock.blocks_append h.eight_mul.symm, Lib.Modes.run_append,
    SBlock.bytes_append]
  rfl

end Loop

section Steps

variable (bf : Blowfish)

theorem encryptBlock_decryptBlock (b : SBlock) : bf.encryptBlock (bf.decryptBlock b) = b := by
  have hrounds := Lib.Feistel.rounds_reverse_swap (f := fun i ui => bf.F ui ^^^ bf.auiP i)
    xor_xor_cancel middle.reverse (b.uil ^^^ bf.auiP 17, b.uir)
  rw [List.reverse_reverse] at hrounds
  simp only [decryptBlock, encryptBlock, xor_xor_cancel, rounds]
  change Lib.Feistel.rounds _ _ middle (_, _) = (b.uir, b.uil ^^^ bf.auiP 17) at hrounds
  simp only [hrounds, xor_xor_cancel]

theorem encryptBlock_injective : Function.Injective bf.encryptBlock :=
  Function.LeftInverse.injective bf.decryptBlock_encryptBlock

theorem decryptStep_encryptStep (iMode : Mode) (chain work : SBlock) :
    bf.decryptStep iMode chain (bf.encryptStep iMode chain work).1 =
      (work, (bf.encryptStep iMode chain work).2) := by
  cases iMode with
  | ecb => simp only [decryptStep, encryptStep, decryptBlock_encryptBlock]
  | cbc => exact Lib.Modes.uncbc_cbc SBlock.xor_xor_cancel bf.decryptBlock_encryptBlock _ _
  | cfb => exact Lib.Modes.uncfb_cfb SBlock.xor_xor_cancel _ _

theorem encryptStep_decryptStep (iMode : Mode) (chain work : SBlock) :
    bf.encryptStep iMode chain (bf.decryptStep iMode chain work).1 =
      (work, (bf.decryptStep iMode chain work).2) := by
  cases iMode with
  | ecb => simp only [decryptStep, encryptStep, encryptBlock_decryptBlock]
  | cbc => exact Lib.Modes.cbc_uncbc SBlock.xor_xor_cancel bf.encryptBlock_decryptBlock _ _
  | cfb => exact Lib.Modes.cfb_uncfb SBlock.xor_xor_cancel _ _

theorem encryptStep_chain {iMode : Mode} (h : iMode ≠ .ecb) (chain work : SBlock) :
    (bf.encryptStep iMode chain work).2 = (bf.encryptStep iMode chain work).1 := by
  cases iMode with
  | ecb => exact absurd rfl h
  | cbc => rfl
  | cfb => rfl

theorem decryptStep_chain {iMode : Mode} (h : iMode ≠ .ecb) (chain work : SBlock) :
    (bf.decryptStep iMode chain work).2 = work := by
  cases iMode with
  | ecb => exact absurd rfl h
  | cbc => rfl
  | cfb => rfl

theorem encryptStep_injective {iMode : Mode} (h : iMode ≠ .ecb) (s s' work : SBlock)
    (heq : (bf.encryptStep iMode s work).1 = (bf.encryptStep iMode s' work).1) : s = s' := by
  cases iMode with
  | ecb => exact absurd rfl h
  | cbc => exact Lib.Modes.cbc_chain bf.encryptBlock_injective SBlock.xor_injective heq
  | cfb => exact Lib.Modes.cfb_chain bf.encryptBlock_injective SBlock.xor_injective heq

theorem decryptStep_injective {iMode : Mode} (h : iMode ≠ .ecb) (s s' work : SBlock)
    (heq : (bf.decryptStep iMode s work).1 = (bf.decryptStep iMode s' work).1) : s = s' := by
  cases iMode with
  | ecb => exact absurd rfl h
  | cbc => exact Lib.Modes.uncbc_chain SBlock.xor_injective heq
  | cfb => exact Lib.Modes.uncfb_chain bf.encryptBlock_injective SBlock.xor_injective heq

end Steps

namespace Chained

variable (c : Chained) (iMode : Mode) {buf out : List UInt8}

theorem encrypt_of_whole (h : Whole buf) :
    c.encrypt iMode buf = .ok (coded (c.tables.encryptStep iMode) c.oChain buf) := by
  rw [encrypt, if_pos h, loopInPlace_of_whole h]

theorem decrypt_of_whole (h : Whole buf) :
    c.decrypt iMode buf = .ok (coded (c.tables.decryptStep iMode) c.oChain buf) := by
  rw [decrypt, if_pos h, loopInPlace_of_whole h]

theorem whole_coded {step : SBlock → SBlock → SBlock × SBlock} (h : Whole buf)
    (chain : SBlock) :
    Whole (coded step chain buf) := by
  unfold Whole
  rw [length_coded h]
  exact h

theorem coded_coded {step back : SBlock → SBlock → SBlock × SBlock} (h : Whole buf)
    (hback : ∀ s a, back s (step s a).1 = (a, (step s a).2)) (chain : SBlock) :
    coded back chain (coded step chain buf) = buf := by
  rw [coded, blocks_coded h, Lib.Modes.run_run hback,
    SBlock.bytes_blocks _ _ (Nat.le_of_eq h.eight_mul), h.eight_mul, List.take_length]

/-- In every mode, with every chain, one of the two undoes the other. -/
theorem decrypt_encrypt (buf : List UInt8) :
    (c.encrypt iMode buf >>= c.decrypt iMode) =
        (if Whole buf then .ok buf else .error "Incorrect buffer length") ∧
      (c.decrypt iMode buf >>= c.encrypt iMode) =
        (if Whole buf then .ok buf else .error "Incorrect buffer length") := by
  by_cases h : Whole buf
  · rw [if_pos h, c.encrypt_of_whole iMode h, c.decrypt_of_whole iMode h]
    constructor
    · change c.decrypt iMode _ = _
      rw [c.decrypt_of_whole iMode (whole_coded h _),
        coded_coded h (c.tables.decryptStep_encryptStep iMode)]
    · change c.encrypt iMode _ = _
      rw [c.encrypt_of_whole iMode (whole_coded h _),
        coded_coded h (c.tables.encryptStep_decryptStep iMode)]
  · rw [if_neg h, encrypt, if_neg h, decrypt, if_neg h]
    exact ⟨rfl, rfl⟩

/-- With a buffer for the output that is long enough, what is written is what would have been
written in place, and nothing else. -/
theorem encryptTo_eq (h : buf.length ≤ out.length) :
    c.encryptTo iMode buf out =
        (c.encrypt iMode buf).map (fun buf' => buf' ++ out.drop buf.length) ∧
      c.decryptTo iMode buf out =
        (c.decrypt iMode buf).map (fun buf' => buf' ++ out.drop buf.length) := by
  by_cases hwhole : Whole buf
  · rw [c.encrypt_of_whole iMode hwhole, c.decrypt_of_whole iMode hwhole, encryptTo, decryptTo,
      if_pos hwhole, if_pos hwhole, loopAcross_of_whole hwhole h, loopAcross_of_whole hwhole h]
    exact ⟨rfl, rfl⟩
  · rw [encryptTo, decryptTo, encrypt, decrypt, if_neg hwhole, if_neg hwhole, if_neg hwhole,
      if_neg hwhole]
    exact ⟨rfl, rfl⟩

theorem encryptTo_blank : blank.encryptTo .cbc (List.replicate 8 1) (List.replicate 9 2) =
      (blank.encrypt .cbc (List.replicate 8 1)).map (fun buf' => buf' ++ [2]) ∧
    blank.decryptTo .cbc (List.replicate 8 1) (List.replicate 9 2) =
      (blank.decrypt .cbc (List.replicate 8 1)).map (fun buf' => buf' ++ [2]) :=
  encryptTo_eq blank .cbc (by decide)

theorem encrypt_eq_ok_iff {x : List UInt8} : c.encrypt iMode buf = .ok x ↔
    Whole buf ∧ x = coded (c.tables.encryptStep iMode) c.oChain buf := by
  by_cases h : Whole buf
  · rw [c.encrypt_of_whole iMode h, Except.ok.injEq, and_iff_right h, eq_comm]
  · rw [encrypt, if_neg h]
    simp only [h, false_and, reduceCtorEq]

theorem decrypt_eq_ok_iff {x : List UInt8} : c.decrypt iMode buf = .ok x ↔
    Whole buf ∧ x = coded (c.tables.decryptStep iMode) c.oChain buf := by
  by_cases h : Whole buf
  · rw [c.decrypt_of_whole iMode h, Except.ok.injEq, and_iff_right h, eq_comm]
  · rw [decrypt, if_neg h]
    simp only [h, false_and, reduceCtorEq]

variable {iMode}

theorem whole_append {a b : List UInt8} (ha : Whole a) (hb : Whole b) : Whole (a ++ b) := by
  unfold Whole at ha hb ⊢
  rw [List.length_append]
  omega

theorem coded_append_iff {step : SBlock → SBlock → SBlock × SBlock} {chain : SBlock}
    {a b : List UInt8} (ha : Whole a) (hb : Whole b)
    (hstep : ∀ s s' x, (step s x).1 = (step s' x).1 → s = s') :
    coded step chain (a ++ b) = coded step chain a ++ coded step chain b ↔
      Lib.Modes.after step chain (SBlock.blocks (a.length / 8) a) = chain := by
  have hne : SBlock.blocks (b.length / 8) b ≠ [] := by
    have hpos := Nat.pos_of_ne_zero hb.1
    have h8 := hb.eight_mul
    apply List.ne_nil_of_length_pos
    rw [SBlock.length_blocks]
    omega
  rw [coded_append ha, List.append_cancel_left_eq,
    ← Lib.Modes.run_append_eq_iff hstep chain _ hne,
    Lib.Modes.run_append, List.append_cancel_left_eq]
  exact SBlock.bytes_injective.eq_iff

def lastBlock (buf : List UInt8) : List UInt8 := buf.drop (buf.length - 8)

theorem lastBlock_bytes (bs : List SBlock) (b d : SBlock) :
    lastBlock (SBlock.bytes (bs ++ [b])) = ((bs ++ [b]).getLastD d).toBytes := by
  have hlen : (SBlock.bytes (bs ++ [b])).length - 8 = (SBlock.bytes bs).length := by
    rw [SBlock.length_bytes, SBlock.length_bytes, List.length_append, List.length_singleton]
    omega
  rw [lastBlock, hlen, SBlock.bytes_append, List.drop_left, List.getLastD_concat]
  exact List.append_nil _

theorem lastBlock_eq_iff {buf : List UInt8} (h : Whole buf) (chain d : SBlock) :
    lastBlock buf = chain.toBytes ↔ (SBlock.blocks (buf.length / 8) buf).getLastD d = chain := by
  have hbytes : SBlock.bytes (SBlock.blocks (buf.length / 8) buf) = buf := by
    rw [SBlock.bytes_blocks _ _ (Nat.le_of_eq h.eight_mul), h.eight_mul, List.take_length]
  have hlen : (SBlock.blocks (buf.length / 8) buf).length ≠ 0 := by
    have hpos := Nat.pos_of_ne_zero h.1
    have h8 := h.eight_mul
    rw [SBlock.length_blocks]
    omega
  generalize SBlock.blocks (buf.length / 8) buf = bs at hbytes hlen
  subst hbytes
  cases bs using List.reverseRecOn with
  | nil => exact absurd rfl hlen
  | append_singleton bs b =>
    rw [lastBlock_bytes bs b d]
    exact SBlock.toBytes_injective.eq_iff

/-- The chain does not go on from one call to the next: two calls do what one call does only
without a chain, or where the first ends with the encrypted block that the chain started as. -/
theorem calls_append_iff {a b x y : List UInt8} :
    (c.encrypt iMode a = .ok x → c.encrypt iMode b = .ok y →
      (c.encrypt iMode (a ++ b) = .ok (x ++ y) ↔
        iMode = .ecb ∨ lastBlock x = c.oChain.toBytes)) ∧
    (c.decrypt iMode a = .ok x → c.decrypt iMode b = .ok y →
      (c.decrypt iMode (a ++ b) = .ok (x ++ y) ↔
        iMode = .ecb ∨ lastBlock a = c.oChain.toBytes)) := by
  rw [c.encrypt_eq_ok_iff, c.encrypt_eq_ok_iff, c.encrypt_eq_ok_iff, c.decrypt_eq_ok_iff,
    c.decrypt_eq_ok_iff, c.decrypt_eq_ok_iff]
  constructor
  · rintro ⟨ha, rfl⟩ ⟨hb, rfl⟩
    rw [and_iff_right (whole_append ha hb), eq_comm]
    by_cases hmode : iMode = .ecb
    · subst hmode
      have hafter : Lib.Modes.after (c.tables.encryptStep .ecb) c.oChain
          (SBlock.blocks (a.length / 8) a) = c.oChain := by
        apply List.foldl_fixed'
        exact fun _ => rfl
      rw [coded_append ha, hafter]
      exact iff_of_true rfl (Or.inl rfl)
    · rw [coded_append_iff ha hb (c.tables.encryptStep_injective hmode),
        lastBlock_eq_iff (whole_coded ha _) _ c.oChain, blocks_coded ha,
        Lib.Modes.after_eq_getLastD_run (c.tables.encryptStep_chain hmode), or_iff_right hmode]
  · rintro ⟨ha, rfl⟩ ⟨hb, rfl⟩
    rw [and_iff_right (whole_append ha hb), eq_comm]
    by_cases hmode : iMode = .ecb
    · subst hmode
      have hafter : Lib.Modes.after (c.tables.decryptStep .ecb) c.oChain
          (SBlock.blocks (a.length / 8) a) = c.oChain := by
        apply List.foldl_fixed'
        exact fun _ => rfl
      rw [coded_append ha, hafter]
      exact iff_of_true rfl (Or.inl rfl)
    · rw [coded_append_iff ha hb (c.tables.decryptStep_injective hmode),
        lastBlock_eq_iff ha _ c.oChain,
        Lib.Modes.after_eq_getLastD (c.tables.decryptStep_chain hmode), List.map_id',
        or_iff_right hmode]

theorem calls_append_blank : blank.encrypt .cbc (List.replicate 8 0 ++ List.replicate 8 1) =
    .ok (List.replicate 8 0 ++ List.replicate 8 1) :=
  ((calls_append_iff blank).1 (by decide +kernel) (by decide +kernel)).mpr
    (Or.inr (by decide +kernel))

def blockAt (i : ℕ) (buf : List UInt8) : List UInt8 := (buf.drop (8 * i)).take 8

theorem blockAt_bytes {i : ℕ} {bs : List SBlock} (h : i < bs.length) :
    blockAt i (SBlock.bytes bs) = bs[i].toBytes := by
  have hfront : (SBlock.bytes (bs.take i)).length = 8 * i := by
    rw [SBlock.length_bytes, List.length_take, Nat.min_eq_left (Nat.le_of_lt h)]
  conv_lhs => rw [← List.take_append_drop i bs, List.drop_eq_getElem_cons h]
  rw [SBlock.bytes_append, blockAt, List.drop_left' hfront, SBlock.bytes, List.flatMap_cons,
    List.take_left' (SBlock.length_toBytes _)]

theorem length_blockAt {i : ℕ} {buf : List UInt8} (h : Whole buf) :
    (blockAt i buf).length = if 8 * i < buf.length then 8 else 0 := by
  have h8 := h.eight_mul
  rw [blockAt, List.length_take, List.length_drop]
  split <;> omega

theorem blockAt_coded {step : SBlock → SBlock → SBlock × SBlock} {i : ℕ} {buf : List UInt8}
    (h : Whole buf) (chain : SBlock) (hi : 8 * i < buf.length) :
    blockAt i (coded step chain buf) =
      (step (Lib.Modes.after step chain ((SBlock.blocks (buf.length / 8) buf).take i))
        (.ofBytes (blockAt i buf))).1.toBytes := by
  have hn : i < buf.length / 8 := by
    have h8 := h.eight_mul
    omega
  have hlen : i < (Lib.Modes.run step chain (SBlock.blocks (buf.length / 8) buf)).length := by
    rwa [Lib.Modes.length_run, SBlock.length_blocks]
  have hget := Lib.Modes.getElem?_run step chain (SBlock.blocks (buf.length / 8) buf) i
  rw [List.getElem?_eq_getElem hlen, SBlock.getElem?_blocks buf hn, Option.map_some,
    Option.some.injEq] at hget
  rw [coded, blockAt_bytes hlen, hget, blockAt, SBlock.ofBytes_take]

def chainAt (c : Chained) : Mode → ℕ → List UInt8 → SBlock
  | .ecb, _, _ => c.oChain
  | _, 0, _ => c.oChain
  | _, i + 1, buf => .ofBytes (blockAt i buf)

theorem after_decryptStep (iMode : Mode) {i : ℕ} {buf : List UInt8} (hi : i ≤ buf.length / 8) :
    Lib.Modes.after (c.tables.decryptStep iMode) c.oChain
      ((SBlock.blocks (buf.length / 8) buf).take i) = c.chainAt iMode i buf := by
  by_cases hmode : iMode = .ecb
  · subst hmode
    exact List.foldl_fixed' (fun _ => rfl) _
  · have hchain : c.chainAt iMode i buf =
        ((SBlock.blocks (buf.length / 8) buf).take i).getLastD c.oChain := by
      cases i with
      | zero => cases iMode <;> rfl
      | succ i =>
        have hget := SBlock.getElem?_blocks buf (Nat.lt_of_succ_le hi)
        rw [List.take_add_one, hget, Option.toList_some, List.getLastD_concat,
          ← SBlock.ofBytes_take]
        cases iMode with
        | ecb => exact absurd rfl hmode
        | cbc => rfl
        | cfb => rfl
    rw [Lib.Modes.after_eq_getLastD (c.tables.decryptStep_chain hmode), List.map_id', hchain]

theorem decryptStep_work_injective (bf : Blowfish) (iMode : Mode) (chain : SBlock) {a b : SBlock}
    (h : (bf.decryptStep iMode chain a).1 = (bf.decryptStep iMode chain b).1) : a = b := by
  have hdec : Function.Injective bf.decryptBlock :=
    Function.LeftInverse.injective bf.encryptBlock_decryptBlock
  have hxor (k : SBlock) : Function.Injective fun x => SBlock.xor x k :=
    Function.LeftInverse.injective (g := fun x => SBlock.xor x k) fun x => SBlock.xor_xor_cancel x k
  cases iMode with
  | ecb => exact hdec h
  | cbc => exact hdec (hxor chain h)
  | cfb => exact hxor (bf.encryptBlock chain) h

theorem blockAt_eq_nil {i : ℕ} {buf : List UInt8} (h : ¬ 8 * i < buf.length) :
    blockAt i buf = [] := by
  rw [blockAt, List.drop_eq_nil_of_le (Nat.not_lt.mp h), List.take_nil]

theorem toBytes_blockAt {i : ℕ} {buf : List UInt8} (h : Whole buf) (hi : 8 * i < buf.length) :
    (SBlock.ofBytes (blockAt i buf)).toBytes = blockAt i buf :=
  SBlock.toBytes_ofBytes (by rw [length_blockAt h, if_pos hi])

theorem lt_length_iff {i : ℕ} {a b : List UInt8} (ha : Whole a) (hb : Whole b)
    (h : blockAt i a = blockAt i b) : 8 * i < a.length ↔ 8 * i < b.length := by
  have hlen := congrArg List.length h
  rw [length_blockAt ha, length_blockAt hb] at hlen
  constructor
  · intro hi
    by_contra hi'
    rw [if_pos hi, if_neg hi'] at hlen
    cases hlen
  · intro hi
    by_contra hi'
    rw [if_pos hi, if_neg hi'] at hlen
    cases hlen

/-- A block of the plaintext tells of the same block and of the one before it, and of no other:
damage does not spread further, and behind an undamaged block it always shows. -/
theorem decrypt_local (iMode : Mode) {a b x y : List UInt8} (ha : c.decrypt iMode a = .ok x)
    (hb : c.decrypt iMode b = .ok y) (i : ℕ)
    (hbefore : i = 0 ∨ blockAt (i - 1) a = blockAt (i - 1) b) :
    blockAt i x = blockAt i y ↔ blockAt i a = blockAt i b := by
  rw [c.decrypt_eq_ok_iff] at ha hb
  obtain ⟨ha, rfl⟩ := ha
  obtain ⟨hb, rfl⟩ := hb
  have hchain : c.chainAt iMode i a = c.chainAt iMode i b := by
    cases iMode <;> cases i with
    | zero => rfl
    | succ i =>
      first
      | rfl
      | exact congrArg SBlock.ofBytes (hbefore.resolve_left (Nat.succ_ne_zero i))
  have hx : Whole (coded (c.tables.decryptStep iMode) c.oChain a) := whole_coded ha _
  have hy : Whole (coded (c.tables.decryptStep iMode) c.oChain b) := whole_coded hb _
  have hblock {buf : List UInt8} (h : Whole buf) (hi : 8 * i < buf.length) :
      blockAt i (coded (c.tables.decryptStep iMode) c.oChain buf) =
        (c.tables.decryptStep iMode (c.chainAt iMode i buf)
          (.ofBytes (blockAt i buf))).1.toBytes := by
    rw [blockAt_coded h _ hi, c.after_decryptStep _ (by omega)]
  constructor
  · intro h
    have hiff := lt_length_iff hx hy h
    rw [length_coded ha, length_coded hb] at hiff
    by_cases hi : 8 * i < a.length
    · rw [hblock ha hi, hblock hb (hiff.mp hi), hchain] at h
      rw [← toBytes_blockAt ha hi, ← toBytes_blockAt hb (hiff.mp hi)]
      exact congrArg SBlock.toBytes
        (decryptStep_work_injective c.tables iMode _ (SBlock.toBytes_injective h))
    · rw [blockAt_eq_nil hi, blockAt_eq_nil (mt hiff.mpr hi)]
  · intro h
    have hiff := lt_length_iff ha hb h
    by_cases hi : 8 * i < a.length
    · rw [hblock ha hi, hblock hb (hiff.mp hi), hchain, h]
    · rw [← length_coded ha c.oChain] at hi
      rw [← length_coded ha c.oChain, ← length_coded hb c.oChain] at hiff
      rw [blockAt_eq_nil hi, blockAt_eq_nil (mt hiff.mpr hi)]

theorem decrypt_local_blank :
    blockAt 2 (List.replicate 8 3 ++ List.replicate 8 2 ++ List.replicate 8 4) =
        blockAt 2 (List.replicate 8 4 ++ List.replicate 8 5 ++ List.replicate 8 4) ↔
      blockAt 2 (List.replicate 8 3 ++ List.replicate 8 1 ++ List.replicate 8 5) =
        blockAt 2 (List.replicate 8 4 ++ List.replicate 8 1 ++ List.replicate 8 5) :=
  decrypt_local blank .cfb (by decide +kernel) (by decide +kernel) 2 (Or.inr rfl)

end Chained

section Key

theorem length_flatten_replicate (key : List UInt8) (m : ℕ) :
    (List.replicate m key).flatten.length = m * key.length := by
  induction m with
  | zero => rw [Nat.zero_mul]; rfl
  | succ m ih =>
    rw [List.replicate_succ, List.flatten_cons, List.length_append, ih, Nat.succ_mul, Nat.add_comm]

theorem getD_flatten_replicate (key : List UInt8) (m j : ℕ) (h : j < m * key.length) :
    (List.replicate m key).flatten.getD j 0 = key.getD (j % key.length) 0 := by
  induction m generalizing j with
  | zero =>
    rw [Nat.zero_mul] at h
    cases h
  | succ m ih =>
    rw [List.replicate_succ, List.flatten_cons]
    by_cases hj : j < key.length
    · rw [List.getD_append _ _ _ _ hj, Nat.mod_eq_of_lt hj]
    · have hle := Nat.not_lt.mp hj
      rw [Nat.succ_mul] at h
      rw [List.getD_append_right _ _ _ _ hle, ih _ (by omega), Nat.mod_eq_sub_mod hle]

theorem keyWord_flatten_replicate (key : List UInt8) (m i : ℕ) :
    keyWord (List.replicate (m + 1) key).flatten i = keyWord key i := by
  cases key with
  | nil => rw [List.flatten_replicate_nil]
  | cons b key =>
    have hpos : 0 < (m + 1) * (b :: key).length := Nat.mul_pos (Nat.succ_pos m) (by simp)
    have hbyte (j : ℕ) : (List.replicate (m + 1) (b :: key)).flatten.getD
        (j % (List.replicate (m + 1) (b :: key)).flatten.length) 0 =
          (b :: key).getD (j % (b :: key).length) 0 := by
      rw [length_flatten_replicate, getD_flatten_replicate _ _ _ (Nat.mod_lt _ hpos),
        Nat.mod_mul_left_mod]
    unfold keyWord
    simp only [hbyte]

theorem Chained.start_replicate (init : Blowfish) (key : List UInt8) (roChain : SBlock) (m : ℕ)
    (h : (m + 1) * key.length ≤ 56) :
    start init (List.replicate (m + 1) key).flatten roChain = start init key roChain := by
  have hlen := length_flatten_replicate key (m + 1)
  have hkey : key.length ≤ 56 := Nat.le_trans (Nat.le_mul_of_pos_left _ (Nat.succ_pos m)) h
  have hempty : (List.replicate (m + 1) key).flatten.length < 1 ↔ key.length < 1 := by
    rw [hlen, Nat.lt_one_iff, Nat.lt_one_iff, Nat.mul_eq_zero,
      or_iff_right (Nat.succ_ne_zero m)]
  rw [start, start, Blowfish.start, Blowfish.start, List.take_of_length_le (hlen ▸ h),
    List.take_of_length_le hkey]
  simp only [hempty, schedule, keyWord_flatten_replicate]

theorem Chained.start_11 :
    start blank.tables [49, 49] ⟨0, 0⟩ = start blank.tables [49] ⟨0, 0⟩ :=
  start_replicate blank.tables [49] ⟨0, 0⟩ 1 (by decide)

end Key

end Blowfish

end Gpm
