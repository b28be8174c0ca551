import Gpm.Lib.Base64
import Gpm.Bitblocks.Node

namespace Gpm.Bitblocks.Wire

open Lib (Format)
open Lib.Format

def size : Format UInt64 :=
  (fixed 8).map (fun n => ⟨n.toNat, n.toNat_lt⟩) (fun n => some (UInt64.ofNat n)) (by simp)

def hashcode : Format Hashcode :=
  (raw 20).map (fun hc => ⟨hc.hash, hc.size⟩) (fun bs => some ⟨bs.val, bs.property⟩)
    (fun _ => rfl)

theorem countWidth_pos : 0 < 4 := by decide

def metafile : Format Metafile :=
  ((bytes 4 countWidth_pos).seq (size.seq (many 4 countWidth_pos hashcode))).map
    (fun mf => (mf.name, mf.size, mf.blocks)) (fun (n, s, b) => some ⟨n, s, b⟩) (fun _ => rfl)

def checksum (data : List UInt8) : Hashcode :=
  ⟨digits 12 data.length ++ digits 8 (value data), by simp⟩

def filename (path : List UInt8) : List UInt8 := (path.reverse.takeWhile (· ≠ 47)).reverse

def externals : Externals where
  hashSha1 := checksum
  superFastHash path := UInt32.ofNat (value path)
  base64Encode := Lib.Base64.encode
  base64Decode := Lib.Base64.decode
  base64Decode_encode := Lib.Base64.decode_encode
  metafile := metafile
  tables := ⟨fun i => UInt32.ofNat i, fun j k => UInt32.ofNat j + k.toUInt32⟩
  filename := filename

theorem length_of_checksum {a b : List UInt8} (ha : a.length < 256 ^ 12) (hb : b.length < 256 ^ 12)
    (h : checksum a = checksum b) : a.length = b.length := by
  have hdigits := (List.append_inj (congrArg Hashcode.hash h) (by simp)).1
  rw [← value_digits 12 a.length ha, hdigits, value_digits 12 b.length hb]

theorem eq_of_checksum {ds : List (List UInt8)} (hnodup : (ds.map List.length).Nodup)
    (hlt : ∀ k ∈ ds.map List.length, k < 256 ^ 12) {a b : List UInt8}
    (ha : a ∈ ds) (hb : b ∈ ds)
    (h : checksum a = checksum b) : a = b := by
  apply List.inj_on_of_nodup_map hnodup ha hb
  apply length_of_checksum _ _ h
  · exact hlt _ (List.mem_map_of_mem ha)
  · exact hlt _ (List.mem_map_of_mem hb)

end Gpm.Bitblocks.Wire
