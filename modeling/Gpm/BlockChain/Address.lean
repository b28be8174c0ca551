import Gpm.BlockChain.Types
import Gpm.Lib.Base64

namespace Gpm

/-- What `encode_address` and `validate_address_format` take from the libraries. -/
structure AddressLibrary where
  /-- The bytes of the words of `hash_sha1(pub)`. -/
  hashSha1 : PublicKey → Vector UInt8 20
  superFastHash : List UInt8 → UInt32
  base64Encode : List UInt8 → Name
  base64Decode : Name → List UInt8
  base64Decode_encode : ∀ d, base64Decode (base64Encode d) = d
  length_base64Encode : ∀ d, (base64Encode d).length = (d.length + 2) / 3 * 4

def wordBytes (w : UInt32) : List UInt8 :=
  [w.toUInt8, (w >>> 8).toUInt8, (w >>> 16).toUInt8, (w >>> 24).toUInt8]

def errorAddress : Name := [69, 82, 82, 79, 82]

namespace AddressLibrary

variable (L : AddressLibrary)

def validateAddressFormat (addr : Name) : Bool :=
  let dec := L.base64Decode addr
  if dec.length < 20 then false
  else
    let sfh := dec.take 4
    let test := wordBytes (L.superFastHash ((dec.drop 4).take 16))
    sfh == test.set 0 0xff

def addressBytes (hc : Vector UInt8 20) : List UInt8 :=
  let rest := hc.toList.drop 4
  (wordBytes (L.superFastHash rest) ++ rest).set 0 0xff

def encodeHash (hc : Vector UInt8 20) : Name :=
  let en := L.base64Encode (L.addressBytes hc)
  if L.validateAddressFormat en then en else errorAddress

def encodeAddress (pub : PublicKey) : Name := L.encodeHash (L.hashSha1 pub)

structure IsAddress (d : List UInt8) : Prop where
  length : d.length = 20
  version : d[0]? = some 0xff
  checksum : (d.drop 1).take 3 = (wordBytes (L.superFastHash (d.drop (d.length - 16)))).drop 1

def Overlong (d : List UInt8) : Prop := 20 < d.length ∧ L.IsAddress (d.take 20)

structure Exact (d : List UInt8) : Prop where
  format : L.validateAddressFormat (L.base64Encode d) = true ↔ L.IsAddress d
  claimable : L.validateAddressFormat (L.base64Encode d) = true →
    ∃ hc, L.encodeHash hc = L.base64Encode d

structure Encodes (pub : PublicKey) : Prop where
  valid : L.validateAddressFormat (L.encodeAddress pub) = true
  ne_error : L.encodeAddress pub ≠ errorAddress

variable {L} {d : List UInt8}

theorem validate_iff : L.validateAddressFormat (L.base64Encode d) = true ↔
    20 ≤ d.length ∧ L.IsAddress (d.take 20) := by
  unfold validateAddressFormat
  rw [L.base64Decode_encode]
  by_cases hlen : d.length < 20
  · rw [if_pos hlen]
    simp [Nat.not_le.mpr hlen]
  · rw [if_neg hlen, beq_iff_eq]
    have hle : 20 ≤ d.length := Nat.not_lt.mp hlen
    have htake : (d.take 20).length = 20 := by rw [List.length_take, Nat.min_eq_left hle]
    have hdrop : (d.take 20).drop ((d.take 20).length - 16) = (d.drop 4).take 16 := by
      rw [htake, List.drop_take]
    rw [and_iff_right hle]
    obtain ⟨a, b, c, e, rest, rfl⟩ : ∃ a b c e rest, d = a :: b :: c :: e :: rest := by
      match d, hle with
      | a :: b :: c :: e :: rest, _ => exact ⟨a, b, c, e, rest, rfl⟩
    constructor
    · intro heq
      refine ⟨htake, ?_, ?_⟩
      · have hhead := congrArg List.head? heq
        simpa [wordBytes] using hhead
      · rw [hdrop]
        have htail := congrArg (List.drop 1) heq
        simpa [wordBytes] using htail
    · intro haddr
      have hversion := haddr.version
      have hcheck := haddr.checksum
      rw [hdrop] at hcheck
      simp only [List.take_succ_cons, List.getElem?_cons_zero, Option.some.injEq] at hversion
      simpa [wordBytes, hversion] using hcheck

theorem isAddress_addressBytes (hc : Vector UInt8 20) : L.IsAddress (L.addressBytes hc) := by
  have hrest : (hc.toList.drop 4).length = 16 := by simp
  have hbytes : L.addressBytes hc =
      0xff :: (wordBytes (L.superFastHash (hc.toList.drop 4))).drop 1 ++ hc.toList.drop 4 := rfl
  have hlength : (L.addressBytes hc).length = 20 := by
    rw [hbytes, List.length_append, hrest]
    rfl
  constructor
  case length => exact hlength
  case version => rfl
  case checksum =>
    rw [hlength, hbytes]
    rfl

theorem encodeHash_eq (hc : Vector UInt8 20) :
    L.encodeHash hc = L.base64Encode (L.addressBytes hc) := by
  have haddr := L.isAddress_addressBytes hc
  have hvalid : L.validateAddressFormat (L.base64Encode (L.addressBytes hc)) = true := by
    rw [validate_iff, haddr.length, List.take_of_length_le (Nat.le_of_eq haddr.length)]
    exact ⟨Nat.le_refl _, haddr⟩
  rw [encodeHash, if_pos hvalid]

theorem IsAddress.exists_addressBytes (h : L.IsAddress d) : ∃ hc, L.addressBytes hc = d := by
  have hlength := h.length
  have hversion := h.version
  have hcheck := h.checksum
  refine ⟨⟨d.toArray, by rw [List.size_toArray, hlength]⟩, ?_⟩
  obtain ⟨a, b, c, e, rest, rfl⟩ : ∃ a b c e rest, d = a :: b :: c :: e :: rest := by
    match d, hlength with
    | a :: b :: c :: e :: rest, _ => exact ⟨a, b, c, e, rest, rfl⟩
  rw [hlength] at hcheck
  rw [List.getElem?_cons_zero, Option.some.injEq] at hversion
  simp only [addressBytes, wordBytes, Vector.toList_mk, hversion, List.drop_succ_cons,
    List.drop_zero, List.take_succ_cons, List.take_zero, List.set_cons_zero, List.cons_append,
    List.nil_append, List.cons.injEq, and_true, true_and, Nat.reduceSub] at hcheck ⊢
  obtain ⟨hb, hc, he⟩ := hcheck
  exact ⟨hb.symm, hc.symm, he.symm⟩

theorem encodes (pub : PublicKey) : L.Encodes pub := by
  have haddr := L.isAddress_addressBytes (L.hashSha1 pub)
  constructor
  case valid =>
    rw [encodeAddress, encodeHash_eq, validate_iff, haddr.length,
      List.take_of_length_le (Nat.le_of_eq haddr.length)]
    exact ⟨Nat.le_refl _, haddr⟩
  case ne_error =>
    intro herror
    have hlength := congrArg List.length herror
    rw [encodeAddress, encodeHash_eq, L.length_base64Encode, haddr.length] at hlength
    exact absurd hlength (by decide)

theorem claimable (hshort : ¬ L.Overlong d)
    (hvalid : L.validateAddressFormat (L.base64Encode d) = true) :
    ∃ hc, L.encodeHash hc = L.base64Encode d := by
  obtain ⟨hle, haddr⟩ := validate_iff.mp hvalid
  have hge : d.length ≤ 20 := Nat.not_lt.mp fun hlong => hshort ⟨hlong, haddr⟩
  rw [List.take_of_length_le hge] at haddr
  obtain ⟨hc, hbytes⟩ := haddr.exists_addressBytes
  exact ⟨hc, by rw [encodeHash_eq, hbytes]⟩

/-- The validator is exact but for strings that go on behind an address. -/
theorem validateAddressFormat_exact_iff (L : AddressLibrary) (d : List UInt8) :
    L.Exact d ∧ (∀ pub, L.Encodes pub) ↔ ¬ L.Overlong d := by
  constructor
  · rintro ⟨hexact, -⟩ ⟨hlong, haddr⟩
    have hvalid := validate_iff.mpr ⟨Nat.le_of_lt hlong, haddr⟩
    exact absurd (hexact.format.mp hvalid).length (Nat.ne_of_gt hlong)
  · intro hshort
    have hformat : L.validateAddressFormat (L.base64Encode d) = true ↔ L.IsAddress d := by
      rw [validate_iff]
      constructor
      · rintro ⟨hle, haddr⟩
        have hge : d.length ≤ 20 := Nat.not_lt.mp fun hlong => hshort ⟨hlong, haddr⟩
        rwa [List.take_of_length_le hge] at haddr
      · intro haddr
        rw [List.take_of_length_le (Nat.le_of_eq haddr.length)]
        exact ⟨Nat.le_of_eq haddr.length.symm, haddr⟩
    exact ⟨⟨hformat, claimable hshort⟩, L.encodes⟩

end AddressLibrary

namespace Lib.Base64

theorem length_encode (bs : List UInt8) : (encode bs).length = (bs.length + 2) / 3 * 4 := by
  fun_induction encode bs with
  | case1 a b c rest ih =>
    simp only [List.length_cons, ih]
    omega
  | case2 a b => simp
  | case3 a => simp
  | case4 => rfl

end Lib.Base64

def zeroChecksum : AddressLibrary where
  hashSha1 _ := Vector.replicate 20 0
  superFastHash _ := 0
  base64Encode := Lib.Base64.encode
  base64Decode := Lib.Base64.decode
  base64Decode_encode := Lib.Base64.decode_encode
  length_base64Encode := Lib.Base64.length_encode

theorem validateAddressFormat_overlong :
    ¬ ∀ (L : AddressLibrary) (d : List UInt8), L.Exact d ∧ ∀ pub, L.Encodes pub := by
  intro h
  have hexact := (h zeroChecksum (0xff :: List.replicate 20 0)).1.format
  have hvalid : zeroChecksum.validateAddressFormat
      (zeroChecksum.base64Encode (0xff :: List.replicate 20 0)) = true := by decide
  exact absurd (hexact.mp hvalid).length (by decide)

end Gpm
