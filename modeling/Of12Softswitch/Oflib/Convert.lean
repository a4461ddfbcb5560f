import Of12Softswitch.Oflib.Match

/-!
# Packet fields to a match (`ofl_structs_match_convert_pktf2oflm`)

`ofl_structs_match_convert_pktf2oflm` (`oflib/ofl-structs-match.c`, lines
207–252) walks the packet fields of a packet, skips those outside the OpenFlow
basic class (`OXM_VENDOR(h) != 0x8000`), and dispatches on `OXM_LENGTH(h)` to
the setter of that width, reading the value through a pointer cast. Fields of
any other width are skipped.

Results:
* `leBytes_leValue`: a value read through a cast pointer and copied back by
  `memcpy` gives the bytes it was read from.
* `oflStructsMatchConvertPktf2oflm_eq_foldl`: the conversion is a sequence of
  setter calls, so the results of `Of12Softswitch.Oflib.Match` apply to it.
* `oflStructsMatchConvertPktf2oflm_fields`: the conversion adds exactly one TLV
  `{h, first OXM_LENGTH(h) bytes of the value}` per basic-class field of width
  1, 2, 4, 6, 8 or 16, none for the others, and keeps the TLVs already there.
* `oflStructsMatchConvertPktf2oflm_length`: it adds their wire size to the
  16-bit `header.length`, which wraps.
-/

namespace Of12Softswitch.Oflib

/-- `struct packet_fields` (`udatapath/packet.h`, not in the sources): the OXM
    header of a field and the buffer holding its value. -/
structure PacketFields where
  header : BitVec 32
  value : List (BitVec 8)

/-- Modelled from the spec: `OXM_VENDOR(h)`, the vendor namespace in the top 16
    bits of an OXM header (`oxm-match.h` is not in the sources). -/
def oxmVendor (h : BitVec 32) : ℕ := (h >>> 16).toNat

/-- Modelled from the spec: `OXM_LENGTH(h)`, the payload length in the low 8 bits
    of an OXM header (`oxm-match.h` is not in the sources). -/
def oxmLength (h : BitVec 32) : ℕ := (h &&& 0xff).toNat

/-- The `w`-byte integer read through a cast pointer (`*(uint16_t *) p`) on a
    little-endian host. Bytes past the end of the buffer, which the caller
    promises not to reach, read as `0`. -/
def leValue : ℕ → List (BitVec 8) → ℕ
  | 0, _ => 0
  | w + 1, bs => (bs.headD 0).toNat + 256 * leValue w bs.tail

/-- The `n` bytes `memcpy` reads from the buffer `bs` passed as an array
    argument, padded with `0` past its end as `leValue` is. -/
def readBytes (n : ℕ) (bs : List (BitVec 8)) : Mathlib.Vector (BitVec 8) n :=
  ⟨(bs ++ List.replicate n 0).take n, by simp⟩

/-! ## Byte round trips -/

theorem leValue_lt (w : ℕ) (bs : List (BitVec 8)) : leValue w bs < 256 ^ w := by
  induction w generalizing bs with
  | zero => simp [leValue]
  | succ w ih =>
    have := ih bs.tail
    have := (bs.headD 0).isLt
    rw [leValue, Nat.pow_succ]
    omega

theorem leBytes_leValue {w : ℕ} {bs : List (BitVec 8)} (h : w ≤ bs.length) :
    leBytes w (leValue w bs) = bs.take w := by
  induction w generalizing bs with
  | zero => rfl
  | succ w ih =>
    obtain _ | ⟨b, bs⟩ := bs
    · simp at h
    have hb := b.isLt
    simp only [leValue, leBytes, List.headD_cons, List.tail_cons, List.take_succ_cons]
    rw [show (b.toNat + 256 * leValue w bs) / 256 = leValue w bs by omega,
      ih (by simp at h; omega)]
    congr 1
    apply BitVec.eq_of_toNat_eq
    simp only [BitVec.toNat_ofNat]
    omega

/-- Reading `w` bytes as a `w`-byte integer and copying it back with `memcpy`
    gives the first `w` bytes of the buffer; `m = 2^(8w)` is the modulus of the
    integer type. -/
theorem leBytes_leValue_mod {m w : ℕ} {bs : List (BitVec 8)} (hm : m = 256 ^ w)
    (h : w ≤ bs.length) : leBytes w (leValue w bs % m) = bs.take w := by
  rw [Nat.mod_eq_of_lt (hm ▸ leValue_lt w bs), leBytes_leValue h]

theorem readBytes_toList {n : ℕ} {bs : List (BitVec 8)} (h : n ≤ bs.length) :
    (readBytes n bs).toList = bs.take n :=
  List.take_append_of_le_length h

/-! ## The conversion -/

/-- The body of the `HMAP_FOR_EACH` loop of
    `ofl_structs_match_convert_pktf2oflm` (lines 217–249). -/
def convertPacketField (mt : OflMatch) (iter : PacketFields) : OflMatch :=
  if oxmVendor iter.header ≠ 0x8000 then mt
  else
    match oxmLength iter.header with
    | 1 => oflStructsMatchPut8 mt iter.header (BitVec.ofNat 8 (leValue 1 iter.value))
    | 2 => oflStructsMatchPut16 mt iter.header (BitVec.ofNat 16 (leValue 2 iter.value))
    | 4 => oflStructsMatchPut32 mt iter.header (BitVec.ofNat 32 (leValue 4 iter.value))
    | 6 => oflStructsMatchPutEth mt iter.header (readBytes ethAddrLen iter.value)
    | 8 => oflStructsMatchPut64 mt iter.header (BitVec.ofNat 64 (leValue 8 iter.value))
    | 16 => oflStructsMatchPutIpv6 mt iter.header (readBytes ipv6AddrLen iter.value)
    | _ => mt

/-- `ofl_structs_match_convert_pktf2oflm` (lines 207–252); the hash map of
    packet fields is the list of its fields in iteration order. -/
def oflStructsMatchConvertPktf2oflm (hmapPacketFields : List PacketFields) (mt : OflMatch) :
    OflMatch :=
  hmapPacketFields.foldl convertPacketField mt

/-- The setter call the loop body makes for a packet field, if any. -/
def fieldCall (iter : PacketFields) : Option PutCall :=
  if oxmVendor iter.header ≠ 0x8000 then none
  else
    match oxmLength iter.header with
    | 1 => some (.put8 iter.header (BitVec.ofNat 8 (leValue 1 iter.value)))
    | 2 => some (.put16 iter.header (BitVec.ofNat 16 (leValue 2 iter.value)))
    | 4 => some (.put32 iter.header (BitVec.ofNat 32 (leValue 4 iter.value)))
    | 6 => some (.putEth iter.header (readBytes ethAddrLen iter.value))
    | 8 => some (.put64 iter.header (BitVec.ofNat 64 (leValue 8 iter.value)))
    | 16 => some (.putIpv6 iter.header (readBytes ipv6AddrLen iter.value))
    | _ => none

theorem convertPacketField_eq (mt : OflMatch) (iter : PacketFields) :
    convertPacketField mt iter = ((fieldCall iter).map (PutCall.apply mt)).getD mt := by
  unfold convertPacketField fieldCall
  split
  · rfl
  · split <;> rfl

/-- The conversion is the sequence of setter calls `fieldCall` picks. -/
theorem oflStructsMatchConvertPktf2oflm_eq_foldl (fields : List PacketFields) (mt : OflMatch) :
    oflStructsMatchConvertPktf2oflm fields mt = (fields.filterMap fieldCall).foldl PutCall.apply mt := by
  induction fields generalizing mt with
  | nil => rfl
  | cons f fields ih =>
    simp only [oflStructsMatchConvertPktf2oflm, List.foldl_cons, List.filterMap_cons] at ih ⊢
    rw [convertPacketField_eq]
    cases fieldCall f <;> simp [ih]

/-! ## What the conversion adds -/

/-- The TLV the conversion is to add for a packet field: header `h` and the
    first `OXM_LENGTH(h)` bytes of the value, for a basic-class field of one of
    the widths the setters handle; none for any other field. -/
def expectedTlv (f : PacketFields) : Option OflMatchTlv :=
  if oxmVendor f.header = 0x8000 ∧ oxmLength f.header ∈ [1, 2, 4, 6, 8, 16] then
    some ⟨f.header, f.value.take (oxmLength f.header)⟩
  else none

/-- Whichever setter the width switch picks, it inserts `expectedTlv`. -/
theorem fieldCall_tlv {f : PacketFields} (h : oxmLength f.header ≤ f.value.length) :
    (fieldCall f).map PutCall.tlv = expectedTlv f := by
  unfold fieldCall expectedTlv
  by_cases hv : oxmVendor f.header = 0x8000
  · simp only [hv, ne_eq, not_true_eq_false, if_false, true_and]
    split <;> simp_all [PutCall.tlv, readBytes_toList, ethAddrLen, ipv6AddrLen, leBytes_leValue_mod]
  · simp [hv]

/-- The TLVs of the setter calls of the conversion. -/
theorem map_tlv_filterMap_fieldCall {fields : List PacketFields}
    (hbuf : ∀ f ∈ fields, oxmLength f.header ≤ f.value.length) :
    (fields.filterMap fieldCall).map PutCall.tlv = fields.filterMap expectedTlv := by
  rw [List.map_filterMap]
  exact List.filterMap_congr fun f hf => fieldCall_tlv (hbuf f hf)

/-- The conversion adds exactly one TLV per basic-class packet field of width
    1, 2, 4, 6, 8 or 16, carrying the field's header and the first
    `OXM_LENGTH(h)` bytes of its value, adds nothing for the other fields, and
    keeps every TLV already in the match. -/
theorem oflStructsMatchConvertPktf2oflm_fields (fields : List PacketFields)
    (hbuf : ∀ f ∈ fields, oxmLength f.header ≤ f.value.length) (mt : OflMatch) :
    (oflStructsMatchConvertPktf2oflm fields mt).matchFields =
        (fields.filterMap expectedTlv).reverse ++ mt.matchFields ∧
      ∀ t ∈ fields.filterMap expectedTlv, t.value.length = oxmLength t.header := by
  constructor
  · rw [oflStructsMatchConvertPktf2oflm_eq_foldl, matchFields_foldl_apply,
      map_tlv_filterMap_fieldCall hbuf]
  · intro t ht
    obtain ⟨f, hf, hft⟩ := List.mem_filterMap.mp ht
    unfold expectedTlv at hft
    split at hft
    · cases hft
      simpa using hbuf f hf
    · cases hft

theorem oflStructsMatchConvertPktf2oflm_ip_proto :
    (∀ f ∈ [(⟨0x80001401, [6]⟩ : PacketFields), ⟨0x80000203, [1, 2, 3]⟩],
        oxmLength f.header ≤ f.value.length) ∧
      ((oflStructsMatchConvertPktf2oflm [⟨0x80001401, [6]⟩, ⟨0x80000203, [1, 2, 3]⟩]
          oflStructsMatchInit).matchFields =
          ([(⟨0x80001401, [6]⟩ : PacketFields), ⟨0x80000203, [1, 2, 3]⟩].filterMap
            expectedTlv).reverse ++ oflStructsMatchInit.matchFields ∧
        ∀ t ∈ [(⟨0x80001401, [6]⟩ : PacketFields), ⟨0x80000203, [1, 2, 3]⟩].filterMap expectedTlv,
          t.value.length = oxmLength t.header) :=
  ⟨by decide, oflStructsMatchConvertPktf2oflm_fields _ (by decide) _⟩

/-- The conversion adds to `header.length` the wire size `4 + OXM_LENGTH(h)` of
    every TLV it adds, modulo `2^16`. -/
theorem oflStructsMatchConvertPktf2oflm_length (fields : List PacketFields)
    (hbuf : ∀ f ∈ fields, oxmLength f.header ≤ f.value.length) (mt : OflMatch) :
    (oflStructsMatchConvertPktf2oflm fields mt).header.length.toNat =
      (mt.header.length.toNat + ((fields.filterMap expectedTlv).map OflMatchTlv.len).sum) % 2 ^ 16 := by
  rw [oflStructsMatchConvertPktf2oflm_eq_foldl, length_foldl_apply,
    ← map_tlv_filterMap_fieldCall hbuf, List.map_map]
  rfl

theorem oflStructsMatchConvertPktf2oflm_length_ip_proto :
    (∀ f ∈ [(⟨0x80001401, [6]⟩ : PacketFields), ⟨0x80000203, [1, 2, 3]⟩],
        oxmLength f.header ≤ f.value.length) ∧
      (oflStructsMatchConvertPktf2oflm [⟨0x80001401, [6]⟩, ⟨0x80000203, [1, 2, 3]⟩]
          oflStructsMatchInit).header.length.toNat =
        (oflStructsMatchInit.header.length.toNat +
          (([(⟨0x80001401, [6]⟩ : PacketFields), ⟨0x80000203, [1, 2, 3]⟩].filterMap
            expectedTlv).map OflMatchTlv.len).sum) % 2 ^ 16 :=
  ⟨by decide, oflStructsMatchConvertPktf2oflm_length _ (by decide) _⟩

end Of12Softswitch.Oflib
