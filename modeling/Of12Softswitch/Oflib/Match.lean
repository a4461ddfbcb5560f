import Mathlib

/-!
# OXM match setters (`oflib/ofl-structs-match.c`)

`struct ofl_match` (`oflib/ofl-structs.h`, lines 176–191) is a header
`{type, length}` and a hash map of TLVs `{header, value}`. Each of the twelve
setters `ofl_structs_match_put8` … `ofl_structs_match_put_ipv6m` (lines 46–205)
allocates a TLV whose value is the `len` bytes of the value (followed by the
`len` bytes of the mask in the masked setters), inserts it, and adds `len + 4`
(or `len*2 + 4`) to the `uint16_t` field `header.length`.

The hash map is modelled as a list, newest TLV first; the results below only
depend on which TLVs it holds. `uintN_t` is `BitVec N`. `memcpy` of an integer
copies it in host byte order; the host is taken to be little-endian.

Results:
* `PutCall.apply_eq`, `PutCall.tlv_len`: every setter inserts the TLV
  `PutCall.tlv` and adds `4 + len` (`4 + len*2` when masked) to
  `header.length`, which is the number of bytes that TLV takes.
* `length_foldl_apply`, `matchFields_foldl_apply`: the effect of a sequence of
  setter calls.
* `oflStructsMatch_length_mod`: for a match built by `ofl_structs_match_init`
  and setter calls, `header.length` is the sum of `4 + payload length` over the
  TLVs modulo `2^16`, and equal to it while that sum is below `2^16`.

**The 16-bit length wraps.** 1821 calls of `ofl_structs_match_put_ipv6m`
(36 bytes each, 65556 in all) leave `header.length = 20`
(`oflStructsMatch_length_wraps`).
-/

namespace Of12Softswitch.Oflib

/-! ## Matches -/

/-- `struct ofl_match_tlv` (`oflib/ofl-structs.h`, lines 186–191), without its
    hash node. -/
structure OflMatchTlv where
  header : BitVec 32
  value : List (BitVec 8)
  deriving DecidableEq

/-- `struct ofl_match_header` (`oflib/ofl-structs.h`, lines 176–179). -/
structure OflMatchHeader where
  type : BitVec 16
  length : BitVec 16
  deriving DecidableEq

/-- `struct ofl_match` (`oflib/ofl-structs.h`, lines 181–184). -/
structure OflMatch where
  header : OflMatchHeader
  matchFields : List OflMatchTlv
  deriving DecidableEq

/-- `OFPMT_OXM`, the OpenFlow 1.2 match type of OXM matches (`openflow.h` is
    not in the sources). -/
def ofpmtOxm : BitVec 16 := 1

/-- `ofl_structs_match_init` (lines 37–43). -/
def oflStructsMatchInit : OflMatch := ⟨⟨ofpmtOxm, 0⟩, []⟩

/-- Modelled from the spec: `ETH_ADDR_LEN`, the width of a hardware address
    (its header is not in the sources). -/
def ethAddrLen : ℕ := 6

/-- Modelled from the spec: `IPv6_ADDR_LEN`, the width of an IPv6 address (its
    header is not in the sources). -/
def ipv6AddrLen : ℕ := 16

/-- The `w` bytes `memcpy` copies from a `w`-byte integer `x` on a little-endian
    host. -/
def leBytes : ℕ → ℕ → List (BitVec 8)
  | 0, _ => []
  | w + 1, x => BitVec.ofNat 8 x :: leBytes w (x / 256)

@[simp] theorem length_leBytes (w x : ℕ) : (leBytes w x).length = w := by
  induction w generalizing x <;> simp [leBytes, *]

/-! ## The setters -/

/-- The body the twelve setters share: the TLV `{header, value}` is inserted
    (`hmap_insert`) and `match->header.length += inc` is computed on the
    `uint16_t` field. -/
def matchPut (mt : OflMatch) (header : BitVec 32) (value : List (BitVec 8)) (inc : ℕ) :
    OflMatch where
  header := { mt.header with length := mt.header.length + BitVec.ofNat 16 inc }
  matchFields := ⟨header, value⟩ :: mt.matchFields

/-- `ofl_structs_match_put8` (lines 46–56). -/
def oflStructsMatchPut8 (mt : OflMatch) (header : BitVec 32) (value : BitVec 8) : OflMatch :=
  let len := 1
  matchPut mt header (leBytes len value.toNat) (len + 4)

/-- `ofl_structs_match_put8m` (lines 58–69). -/
def oflStructsMatchPut8m (mt : OflMatch) (header : BitVec 32) (value mask : BitVec 8) :
    OflMatch :=
  let len := 1
  matchPut mt header (leBytes len value.toNat ++ leBytes len mask.toNat) (len * 2 + 4)

/-- `ofl_structs_match_put16` (lines 71–81). -/
def oflStructsMatchPut16 (mt : OflMatch) (header : BitVec 32) (value : BitVec 16) : OflMatch :=
  let len := 2
  matchPut mt header (leBytes len value.toNat) (len + 4)

/-- `ofl_structs_match_put16m` (lines 84–95). -/
def oflStructsMatchPut16m (mt : OflMatch) (header : BitVec 32) (value mask : BitVec 16) :
    OflMatch :=
  let len := 2
  matchPut mt header (leBytes len value.toNat ++ leBytes len mask.toNat) (len * 2 + 4)

/-- `ofl_structs_match_put32` (lines 97–109). -/
def oflStructsMatchPut32 (mt : OflMatch) (header : BitVec 32) (value : BitVec 32) : OflMatch :=
  let len := 4
  matchPut mt header (leBytes len value.toNat) (len + 4)

/-- `ofl_structs_match_put32m` (lines 111–123). -/
def oflStructsMatchPut32m (mt : OflMatch) (header : BitVec 32) (value mask : BitVec 32) :
    OflMatch :=
  let len := 4
  matchPut mt header (leBytes len value.toNat ++ leBytes len mask.toNat) (len * 2 + 4)

/-- `ofl_structs_match_put64` (lines 125–136). -/
def oflStructsMatchPut64 (mt : OflMatch) (header : BitVec 32) (value : BitVec 64) : OflMatch :=
  let len := 8
  matchPut mt header (leBytes len value.toNat) (len + 4)

/-- `ofl_structs_match_put64m` (lines 138–150). -/
def oflStructsMatchPut64m (mt : OflMatch) (header : BitVec 32) (value mask : BitVec 64) :
    OflMatch :=
  let len := 8
  matchPut mt header (leBytes len value.toNat ++ leBytes len mask.toNat) (len * 2 + 4)

/-- `ofl_structs_match_put_eth` (lines 152–163). -/
def oflStructsMatchPutEth (mt : OflMatch) (header : BitVec 32)
    (value : Mathlib.Vector (BitVec 8) ethAddrLen) : OflMatch :=
  let len := ethAddrLen
  matchPut mt header value.toList (len + 4)

/-- `ofl_structs_match_put_eth_m` (lines 165–177). -/
def oflStructsMatchPutEthM (mt : OflMatch) (header : BitVec 32)
    (value mask : Mathlib.Vector (BitVec 8) ethAddrLen) : OflMatch :=
  let len := ethAddrLen
  matchPut mt header (value.toList ++ mask.toList) (len * 2 + 4)

/-- `ofl_structs_match_put_ipv6` (lines 179–191). -/
def oflStructsMatchPutIpv6 (mt : OflMatch) (header : BitVec 32)
    (value : Mathlib.Vector (BitVec 8) ipv6AddrLen) : OflMatch :=
  let len := ipv6AddrLen
  matchPut mt header value.toList (len + 4)

/-- `ofl_structs_match_put_ipv6m` (lines 193–205). -/
def oflStructsMatchPutIpv6m (mt : OflMatch) (header : BitVec 32)
    (value mask : Mathlib.Vector (BitVec 8) ipv6AddrLen) : OflMatch :=
  let len := ipv6AddrLen
  matchPut mt header (value.toList ++ mask.toList) (len * 2 + 4)

/-! ## Sequences of setter calls -/

/-- A call of one of the twelve setters, with its arguments. -/
inductive PutCall
  | put8 (header : BitVec 32) (value : BitVec 8)
  | put8m (header : BitVec 32) (value mask : BitVec 8)
  | put16 (header : BitVec 32) (value : BitVec 16)
  | put16m (header : BitVec 32) (value mask : BitVec 16)
  | put32 (header : BitVec 32) (value : BitVec 32)
  | put32m (header : BitVec 32) (value mask : BitVec 32)
  | put64 (header : BitVec 32) (value : BitVec 64)
  | put64m (header : BitVec 32) (value mask : BitVec 64)
  | putEth (header : BitVec 32) (value : Mathlib.Vector (BitVec 8) ethAddrLen)
  | putEthM (header : BitVec 32) (value mask : Mathlib.Vector (BitVec 8) ethAddrLen)
  | putIpv6 (header : BitVec 32) (value : Mathlib.Vector (BitVec 8) ipv6AddrLen)
  | putIpv6m (header : BitVec 32) (value mask : Mathlib.Vector (BitVec 8) ipv6AddrLen)

namespace PutCall

/-- Running the call on `mt`. -/
def apply (mt : OflMatch) : PutCall → OflMatch
  | put8 h v => oflStructsMatchPut8 mt h v
  | put8m h v m => oflStructsMatchPut8m mt h v m
  | put16 h v => oflStructsMatchPut16 mt h v
  | put16m h v m => oflStructsMatchPut16m mt h v m
  | put32 h v => oflStructsMatchPut32 mt h v
  | put32m h v m => oflStructsMatchPut32m mt h v m
  | put64 h v => oflStructsMatchPut64 mt h v
  | put64m h v m => oflStructsMatchPut64m mt h v m
  | putEth h v => oflStructsMatchPutEth mt h v
  | putEthM h v m => oflStructsMatchPutEthM mt h v m
  | putIpv6 h v => oflStructsMatchPutIpv6 mt h v
  | putIpv6m h v m => oflStructsMatchPutIpv6m mt h v m

/-- The TLV the call inserts: its header, and the value bytes followed by the
    mask bytes. -/
def tlv : PutCall → OflMatchTlv
  | put8 h v => ⟨h, leBytes 1 v.toNat⟩
  | put8m h v m => ⟨h, leBytes 1 v.toNat ++ leBytes 1 m.toNat⟩
  | put16 h v => ⟨h, leBytes 2 v.toNat⟩
  | put16m h v m => ⟨h, leBytes 2 v.toNat ++ leBytes 2 m.toNat⟩
  | put32 h v => ⟨h, leBytes 4 v.toNat⟩
  | put32m h v m => ⟨h, leBytes 4 v.toNat ++ leBytes 4 m.toNat⟩
  | put64 h v => ⟨h, leBytes 8 v.toNat⟩
  | put64m h v m => ⟨h, leBytes 8 v.toNat ++ leBytes 8 m.toNat⟩
  | putEth h v => ⟨h, v.toList⟩
  | putEthM h v m => ⟨h, v.toList ++ m.toList⟩
  | putIpv6 h v => ⟨h, v.toList⟩
  | putIpv6m h v m => ⟨h, v.toList ++ m.toList⟩

/-- The `len` of the setter (`sizeof` of its value type, `ETH_ADDR_LEN` or
    `IPv6_ADDR_LEN`, lines 49–196), times two in the masked setters: the payload
    length it adds to `header.length` besides the 4 header bytes. -/
def payloadLen : PutCall → ℕ
  | put8 .. => 1
  | put8m .. => 1 * 2
  | put16 .. => 2
  | put16m .. => 2 * 2
  | put32 .. => 4
  | put32m .. => 4 * 2
  | put64 .. => 8
  | put64m .. => 8 * 2
  | putEth .. => ethAddrLen
  | putEthM .. => ethAddrLen * 2
  | putIpv6 .. => ipv6AddrLen
  | putIpv6m .. => ipv6AddrLen * 2

/-- Every setter inserts its TLV and adds `len + 4` (or `len*2 + 4`). -/
theorem apply_eq (mt : OflMatch) (c : PutCall) :
    c.apply mt = matchPut mt c.tlv.header c.tlv.value (c.payloadLen + 4) := by
  cases c <;> rfl

end PutCall

/-- `4 + ` the payload length of a TLV: the bytes it takes on the wire. -/
def OflMatchTlv.len (t : OflMatchTlv) : ℕ := 4 + t.value.length

/-- The TLV a setter inserts takes `4 + len` bytes (`4 + len*2` when masked):
    the value it writes is as long as the `len` it counts. -/
theorem PutCall.tlv_len (c : PutCall) : c.tlv.len = 4 + c.payloadLen := by
  cases c <;> simp [PutCall.tlv, PutCall.payloadLen, OflMatchTlv.len, ethAddrLen, ipv6AddrLen]

/-- The sum of `4 + ` payload length over the TLVs of `mt`. -/
def fieldsLen (mt : OflMatch) : ℕ := (mt.matchFields.map OflMatchTlv.len).sum

theorem matchFields_foldl_apply (cs : List PutCall) (mt : OflMatch) :
    (cs.foldl PutCall.apply mt).matchFields = (cs.map PutCall.tlv).reverse ++ mt.matchFields := by
  induction cs generalizing mt with
  | nil => rfl
  | cons c cs ih => simp [ih, PutCall.apply_eq, matchPut]

theorem length_foldl_apply (cs : List PutCall) (mt : OflMatch) :
    (cs.foldl PutCall.apply mt).header.length.toNat =
      (mt.header.length.toNat + (cs.map fun c => c.tlv.len).sum) % 2 ^ 16 := by
  induction cs generalizing mt with
  | nil => simpa using (Nat.mod_eq_of_lt mt.header.length.isLt).symm
  | cons c cs ih =>
    rw [List.foldl_cons, ih, PutCall.apply_eq]
    simp only [matchPut, BitVec.toNat_add, BitVec.toNat_ofNat, List.map_cons, List.sum_cons,
      PutCall.tlv_len]
    omega

theorem fieldsLen_foldl_apply (cs : List PutCall) :
    fieldsLen (cs.foldl PutCall.apply oflStructsMatchInit) = (cs.map fun c => c.tlv.len).sum := by
  simp [fieldsLen, matchFields_foldl_apply, oflStructsMatchInit, List.sum_reverse,
    Function.comp_def]

/-- After `ofl_structs_match_init` and any setter calls, `header.length` is the
    wire size of the TLVs modulo `2^16`, and equal to it while that is below
    `2^16`. -/
theorem oflStructsMatch_length_mod (cs : List PutCall) :
    (cs.foldl PutCall.apply oflStructsMatchInit).header.length.toNat =
        fieldsLen (cs.foldl PutCall.apply oflStructsMatchInit) % 2 ^ 16 ∧
      (fieldsLen (cs.foldl PutCall.apply oflStructsMatchInit) < 2 ^ 16 →
        (cs.foldl PutCall.apply oflStructsMatchInit).header.length.toNat =
          fieldsLen (cs.foldl PutCall.apply oflStructsMatchInit)) := by
  have h := length_foldl_apply cs oflStructsMatchInit
  rw [← fieldsLen_foldl_apply, show oflStructsMatchInit.header.length.toNat = 0 from rfl,
    zero_add] at h
  exact ⟨h, fun hlt => by rw [h, Nat.mod_eq_of_lt hlt]⟩

/-- The match of `udatapath/test.c`: `IP_PROTO`, `ETH_TYPE`, `TCP_SRC`, `IN_PORT`. -/
example : ([.put8 0x80001401 6, .put16 0x80000a02 0x800, .put16 0x80001a02 80,
    .put32 0x80000004 1].foldl PutCall.apply oflStructsMatchInit).header.length = 25 := by
  decide

/-- 1821 masked IPv6 fields: 65556 bytes of TLVs, but `header.length = 20`. -/
theorem oflStructsMatch_length_wraps :
    ¬ ∀ cs : List PutCall, (cs.foldl PutCall.apply oflStructsMatchInit).header.length.toNat =
      fieldsLen (cs.foldl PutCall.apply oflStructsMatchInit) := by
  intro h
  let z : Mathlib.Vector (BitVec 8) ipv6AddrLen := Mathlib.Vector.replicate ipv6AddrLen 0
  have h36 : (PutCall.putIpv6m 0 z z).tlv.len = 36 := PutCall.tlv_len _
  have := h (List.replicate 1821 (.putIpv6m 0 z z))
  rw [length_foldl_apply, fieldsLen_foldl_apply, List.map_replicate, List.sum_replicate, h36,
    show oflStructsMatchInit.header.length.toNat = 0 from rfl] at this
  simp at this

end Of12Softswitch.Oflib
