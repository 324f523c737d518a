import Netstar.Spec.Mica.BatchHeader
import Netstar.Proofs.Net.Forward

/-!
# `Netstar.Proofs.Mica.BatchHeader`: which packets `is_valid` accepts

`Datagram` says what a MICA packet is, byte by byte. `is_valid` checks all of it except for one
point: it refuses a packet when the IP version and the IP header length are both wrong, and not when
one of them is. `isValid_iff` has its exact condition.

The packets of an assembler are such datagrams as long as their length fits into the 16 bits of the
IP length field. `HeaderOk` collects what the header of the assembler keeps from one packet to the
next: all its bytes but the lengths and the number of requests.
-/

set_option autoImplicit false

namespace Netstar.Proofs.Mica

open Netstar.Lib.LittleEndian (encode decode length_encode)
open Netstar.Spec.Net (hton loadPacked)
open Netstar.Spec.Mica
open Netstar.Spec.Mica.BatchHeader
open Netstar.Spec.Mica.MicaClient

/-- The big-endian number of the two bytes at an offset. -/
def be16 (p : List UInt8) (i : Nat) : Nat := (p.getD i 0).toNat * 256 + (p.getD (i + 1) 0).toNat

/-- All that makes a MICA packet of an Ethernet frame, except for the first byte of the IP header. -/
structure OtherFields (p : List UInt8) : Prop where
  long : 48 ≤ p.length
  ethernet : be16 p 12 = 0x0800
  unfragmented : be16 p 18 = 0 ∧ be16 p 20 = 0
  ipLength : be16 p 16 = p.length - 14
  udp : p.getD 23 0 = 17
  udpLength : be16 p 38 = p.length - 34
  noChecksums : be16 p 40 = 0 ∧ be16 p 24 = 0
  magic : p.getD 42 0 = 0x78 ∨ p.getD 42 0 = 0x79

/-- A MICA packet: an Ethernet frame with an unfragmented IPv4 datagram with a 20-byte header, and in
it a UDP datagram without checksum. -/
structure Datagram (p : List UInt8) : Prop extends OtherFields p where
  version : ver p = 4
  headerLength : ihl p = 5

/-! ### Numbers in a packed header -/

/-- Two bytes inside a packet, read one at a time. -/
theorem take_drop_two {p : List UInt8} {i : Nat} (h : i + 2 ≤ p.length) :
    (p.drop i).take 2 = [p.getD i 0, p.getD (i + 1) 0] := by
  have hfirst : p.drop i = p[i] :: p.drop (i + 1) := List.drop_eq_getElem_cons (by omega)
  have hsecond : p.drop (i + 1) = p[i + 1] :: p.drop (i + 2) := List.drop_eq_getElem_cons (by omega)
  rw [hfirst, hsecond, List.getD_eq_getElem?_getD, List.getD_eq_getElem?_getD,
    List.getElem?_eq_getElem (by omega), List.getElem?_eq_getElem (by omega)]
  rfl

/-- `ntoh` of a packed number reads its bytes as a big-endian number. -/
theorem hton_loadPacked {p : List UInt8} {i : Nat} (h : i + 2 ≤ p.length) :
    hton 2 (loadPacked 2 p i) = be16 p i := by
  rw [hton, Netstar.Proofs.Net.encode_loadPacked h, take_drop_two h]
  show (p.getD (i + 1) 0).toNat + 256 * ((p.getD i 0).toNat + 256 * 0) = _
  rw [be16]
  omega

/-- A packed number is 0 in the order of the host exactly when it is 0 on the wire. -/
theorem loadPacked_eq_zero {p : List UInt8} {i : Nat} (h : i + 2 ≤ p.length) :
    loadPacked 2 p i = 0 ↔ be16 p i = 0 := by
  rw [loadPacked, take_drop_two h]
  show (p.getD i 0).toNat + 256 * ((p.getD (i + 1) 0).toNat + 256 * 0) = 0 ↔ _
  rw [be16]
  omega

/-! ### The packets that are accepted -/

/-- A check that refuses on a condition passes when the condition fails and the rest passes. -/
theorem refuse_iff {c : Prop} [Decidable c] {b : Bool} :
    (if c then false else b) = true ↔ ¬c ∧ b = true := by
  by_cases hc : c
  · simp [hc]
  · simp [hc]

/-- What `is_valid` checks. -/
theorem isValid_iff (p : List UInt8) :
    isValid p = true ↔ OtherFields p ∧ (ihl p = 5 ∨ ver p = 4) := by
  simp only [isValid, refuse_iff]
  simp only [ipLen, udpLen, BatchHeader.magic, ethHdrSize, ipHdrSize, udpHdrSize, Nat.reduceAdd,
    Nat.not_lt, ne_eq, not_or, not_and_or, not_not]
  constructor
  · rintro ⟨hlong, heth, hip, hfrag, hlen, hproto, hudp, hsum, hmagic, -⟩
    have hlong : 48 ≤ p.length := hlong
    rw [hton_loadPacked (by omega)] at heth hlen hudp
    rw [loadPacked_eq_zero (by omega), loadPacked_eq_zero (by omega)] at hfrag hsum
    exact ⟨⟨hlong, heth, hfrag, hlen, hproto, by omega, hsum, hmagic⟩, hip⟩
  · rintro ⟨h, hip⟩
    have hlong := h.long
    rw [hton_loadPacked (by omega), hton_loadPacked (by omega), hton_loadPacked (by omega),
      loadPacked_eq_zero (by omega), loadPacked_eq_zero (by omega), loadPacked_eq_zero (by omega),
      loadPacked_eq_zero (by omega)]
    exact ⟨hlong, h.ethernet, hip, h.unfragmented, h.ipLength, h.udp, by have := h.udpLength; omega,
      h.noChecksums, h.magic, trivial⟩

/-- A packet is accepted although it is not a datagram exactly when one of the two fields in the first
byte of its IP header is wrong and nothing else. -/
theorem isValid_iff_datagram_iff (p : List UInt8) :
    (isValid p = true ↔ Datagram p) ↔ ¬(OtherFields p ∧ (ihl p = 5 ↔ ver p ≠ 4)) := by
  have hdatagram : Datagram p ↔ OtherFields p ∧ ver p = 4 ∧ ihl p = 5 :=
    ⟨fun h => ⟨h.toOtherFields, h.version, h.headerLength⟩, fun ⟨h, hver, hihl⟩ => ⟨h, hver, hihl⟩⟩
  rw [isValid_iff, hdatagram]
  tauto

/-! ### The packets of an assembler -/

/-- Storing inside a packet keeps its length. -/
theorem length_store {p bytes : List UInt8} {i : Nat} (h : i + bytes.length ≤ p.length) :
    (store p i bytes).length = p.length := by
  simp only [store, List.length_append, List.length_take, List.length_drop]
  omega

/-- A store changes the bytes at its place. -/
theorem getD_store {p bytes : List UInt8} {i : Nat} (h : i + bytes.length ≤ p.length) (k : Nat) :
    (store p i bytes).getD k 0 =
      if i ≤ k ∧ k < i + bytes.length then bytes.getD (k - i) 0 else p.getD k 0 := by
  have htake : (p.take i).length = i := List.length_take_of_le (by omega)
  have hfront : (p.take i ++ bytes).length = i + bytes.length := by
    rw [List.length_append, htake]
  simp only [store, List.getD_eq_getElem?_getD]
  by_cases hin : k < i + bytes.length
  · rw [List.getElem?_append_left (by omega)]
    by_cases hlow : i ≤ k
    · rw [if_pos ⟨hlow, hin⟩, List.getElem?_append_right (by omega), htake]
    · rw [if_neg (by omega), List.getElem?_append_left (by omega), List.getElem?_take_of_lt (by omega)]
  · rw [if_neg (by omega), List.getElem?_append_right (by omega), hfront, List.getElem?_drop]
    congr 2
    omega

/-- The bytes of a packed number of two bytes. -/
theorem packed_two (v : Nat) :
    packed 2 v = [UInt8.ofNat (v / 256), UInt8.ofNat v] := by
  rw [packed, Netstar.Proofs.Net.encode_hton]
  rfl

/-- A 16-bit value is read back from the two bytes it is packed into. -/
theorem be16_packed {v : Nat} (h : v < 2 ^ 16) :
    (UInt8.ofNat (v / 256)).toNat * 256 + (UInt8.ofNat v).toNat = v := by
  rw [UInt8.toNat_ofNat', UInt8.toNat_ofNat']
  omega

/-- The bytes of the header that no packet changes, for the fields that `is_valid` reads. -/
def fixedBytes : List (Nat × UInt8) :=
  [(12, 8), (13, 0), (14, 0x45), (18, 0), (19, 0), (20, 0), (21, 0), (23, 17), (24, 0), (25, 0),
    (40, 0), (41, 0), (42, 0x78)]

/-- What the header of an assembler keeps. -/
structure HeaderOk (h : List UInt8) : Prop where
  length : h.length = 48
  fixed : ∀ kb ∈ fixedBytes, h.getD kb.1 0 = kb.2

/-- An index behind the front part of a packet reads its rest. -/
theorem getD_append_right (front rest : List UInt8) (k : Nat) :
    (front ++ rest).getD (front.length + k) 0 = rest.getD k 0 := by
  simp only [List.getD_eq_getElem?_getD]
  rw [List.getElem?_append_right (by omega), Nat.add_sub_cancel_left]

/-- The header behind its two addresses. -/
def afterAddresses (remoteEi localEi : EndpointInfo) : List UInt8 :=
  packed 2 0x0800 ++ (ipHdr localEi.ipAddr remoteEi.ipAddr 34 ++
    (udpHdr localEi.udpPort remoteEi.udpPort ++ ([0x78] ++ (encode 1 0 ++ encode 4 0))))

/-- The header of a batch is the two Ethernet addresses and what follows them. -/
theorem buildRequetBatchHeader_eq (remoteEi localEi : EndpointInfo) :
    buildRequetBatchHeader remoteEi localEi =
      (remoteEi.ethAddr.toList ++ localEi.ethAddr.toList) ++ afterAddresses remoteEi localEi := by
  have hlen : ipHdrSize + (udpHdr localEi.udpPort remoteEi.udpPort ++
      ([0x78] ++ (encode 1 0 ++ encode 4 0))).length = 34 := by
    simp [udpHdr, packed, ipHdrSize]
  rw [buildRequetBatchHeader, hlen, ethHdr, afterAddresses, List.append_assoc]

/-- The header as it is built is valid. -/
theorem headerOk_build (remoteEi localEi : EndpointInfo) :
    HeaderOk (buildRequetBatchHeader remoteEi localEi) := by
  have hfront : (remoteEi.ethAddr.toList ++ localEi.ethAddr.toList).length = 12 := by simp
  have hget : ∀ k, (buildRequetBatchHeader remoteEi localEi).getD (12 + k) 0 =
      (afterAddresses remoteEi localEi).getD k 0 := by
    intro k
    rw [buildRequetBatchHeader_eq, ← hfront]
    exact getD_append_right _ _ _
  constructor
  · rw [buildRequetBatchHeader_eq, List.length_append, hfront]
    simp [afterAddresses, ipHdr, udpHdr, packed]
  · have hlate : ∀ kb ∈ fixedBytes, 12 ≤ kb.1 ∧
        (afterAddresses remoteEi localEi).getD (kb.1 - 12) 0 = kb.2 := by
      simp only [fixedBytes, List.forall_mem_cons]
      refine ⟨⟨by decide, rfl⟩, ⟨by decide, rfl⟩, ⟨by decide, rfl⟩, ⟨by decide, rfl⟩,
        ⟨by decide, rfl⟩, ⟨by decide, rfl⟩, ⟨by decide, rfl⟩, ⟨by decide, rfl⟩, ⟨by decide, rfl⟩,
        ⟨by decide, rfl⟩, ⟨by decide, rfl⟩, ⟨by decide, rfl⟩, ⟨by decide, rfl⟩, by simp⟩
    intro kb hkb
    obtain ⟨hle, hbyte⟩ := hlate kb hkb
    rw [← hbyte, ← hget, Nat.add_sub_cancel' hle]

/-! ### A packet of an assembler -/

/-- Packing a value into `n` bytes gives `n` bytes. -/
@[simp] theorem length_packed (n v : Nat) : (packed n v).length = n := length_encode n _

section
variable {p : List UInt8} (hlong : 48 ≤ p.length)
include hlong

/-- Setting the lengths keeps the packet's length. -/
theorem length_setupIpUdpLength : (setupIpUdpLength p).length = p.length := by
  have hlen : (store p (ethHdrSize + 2) (packed 2 ((p.length - ethHdrSize) % 2 ^ 16))).length =
      p.length := length_store (by simp only [length_packed, ethHdrSize]; omega)
  rw [setupIpUdpLength, length_store (by
    rw [hlen, length_packed]
    simp only [ethHdrSize, ipHdrSize]
    omega), hlen]

/-- Setting the number of requests keeps the packet's length. -/
theorem length_setupRequestNum (n : Nat) : (setupRequestNum p n).length = p.length :=
  length_store (by simp only [List.length_singleton, ethHdrSize, ipHdrSize, udpHdrSize]; omega)

/-- The bytes after the length fields were written. -/
theorem getD_setupIpUdpLength (k : Nat) :
    (setupIpUdpLength p).getD k 0 =
      if 38 ≤ k ∧ k < 40 then (packed 2 ((p.length - 34) % 2 ^ 16)).getD (k - 38) 0
      else if 16 ≤ k ∧ k < 18 then (packed 2 ((p.length - 14) % 2 ^ 16)).getD (k - 16) 0
      else p.getD k 0 := by
  have hlen : (store p 16 (packed 2 ((p.length - 14) % 2 ^ 16))).length = p.length :=
    length_store (by rw [length_packed]; omega)
  simp only [setupIpUdpLength, ethHdrSize, ipHdrSize, Nat.reduceAdd, Nat.sub_sub]
  rw [getD_store (by rw [hlen, length_packed]; omega), getD_store (by rw [length_packed]; omega),
    length_packed, length_packed]

/-- Setting the number of requests changes one byte only. -/
theorem getD_setupRequestNum (n k : Nat) :
    (setupRequestNum p n).getD k 0 = if k = 43 then UInt8.ofNat n else p.getD k 0 := by
  rw [setupRequestNum, getD_store (by
    simp only [List.length_singleton, ethHdrSize, ipHdrSize, udpHdrSize]
    omega)]
  by_cases hk : k = 43
  · rw [if_pos hk, if_pos (by simp [hk, ethHdrSize, ipHdrSize, udpHdrSize]), hk]
    rfl
  · rw [if_neg hk, if_neg (by
      simp only [List.length_singleton, ethHdrSize, ipHdrSize, udpHdrSize]
      omega)]

end

section
variable {h : List UInt8} (hok : HeaderOk h) (requests : List SentRequest)
include hok

/-- A packet that starts with the header has at least its 48 bytes. -/
theorem le_length_header_append (body : List UInt8) : 48 ≤ (h ++ body).length := by
  rw [List.length_append, hok.length]
  exact Nat.le_add_right _ _

/-- A request packet is as long as the header and its requests. -/
theorem length_requestPacket :
    (requestPacket h requests).length = 48 + ((requests.map (·.frags)).flatten).length := by
  have hlong := le_length_header_append hok (requests.map (·.frags)).flatten
  have hlen := length_setupIpUdpLength hlong
  rw [requestPacket, length_setupRequestNum (by rw [hlen]; exact hlong), hlen, List.length_append,
    hok.length]

/-- The bytes of the packet in front of the requests. -/
theorem getD_requestPacket {k : Nat} (hk : k < 48) :
    (requestPacket h requests).getD k 0 =
      if k = 43 then UInt8.ofNat requests.length
      else if 38 ≤ k ∧ k < 40 then
        (packed 2 (((requestPacket h requests).length - 34) % 2 ^ 16)).getD (k - 38) 0
      else if 16 ≤ k ∧ k < 18 then
        (packed 2 (((requestPacket h requests).length - 14) % 2 ^ 16)).getD (k - 16) 0
      else h.getD k 0 := by
  have hlong := le_length_header_append hok (requests.map (·.frags)).flatten
  have hlen := length_setupIpUdpLength hlong
  have htotal := length_requestPacket hok requests
  have hall : (h ++ (requests.map (·.frags)).flatten).length = (requestPacket h requests).length := by
    rw [htotal, List.length_append, hok.length]
  have hhead : (h ++ (requests.map (·.frags)).flatten).getD k 0 = h.getD k 0 := by
    simp only [List.getD_eq_getElem?_getD]
    rw [List.getElem?_append_left (by rw [hok.length]; exact hk)]
  rw [← hall, requestPacket, getD_setupRequestNum (by rw [hlen]; exact hlong),
    getD_setupIpUdpLength hlong, hhead]

/-- The fixed bytes of the header are in the packet. -/
theorem fixed_requestPacket : ∀ kb ∈ fixedBytes, (requestPacket h requests).getD kb.1 0 = kb.2 := by
  have hplace : ∀ kb ∈ fixedBytes, kb.1 < 48 ∧ kb.1 ≠ 43 ∧ ¬(38 ≤ kb.1 ∧ kb.1 < 40) ∧
      ¬(16 ≤ kb.1 ∧ kb.1 < 18) := by decide
  intro kb hkb
  obtain ⟨hk, hnum, hudp, hip⟩ := hplace kb hkb
  rw [getD_requestPacket hok requests hk, if_neg hnum, if_neg hudp, if_neg hip]
  exact hok.fixed kb hkb

/-- The header of a request packet is valid. -/
theorem headerOk_requestPacket :
    HeaderOk ((requestPacket h requests).take requestBatchHeaderSize) := by
  have hlen := length_requestPacket hok requests
  constructor
  · rw [List.length_take, hlen]
    exact Nat.min_eq_left (Nat.le_add_right _ _)
  · have hplace : ∀ kb ∈ fixedBytes, kb.1 < requestBatchHeaderSize := by decide
    intro kb hkb
    rw [← fixed_requestPacket hok requests kb hkb]
    simp only [List.getD_eq_getElem?_getD]
    rw [List.getElem?_take_of_lt (hplace kb hkb)]

/-- The three fields that differ from packet to packet. -/
theorem fields_requestPacket :
    be16 (requestPacket h requests) 16 = ((requestPacket h requests).length - 14) % 2 ^ 16 ∧
      be16 (requestPacket h requests) 38 = ((requestPacket h requests).length - 34) % 2 ^ 16 ∧
      numRequests (requestPacket h requests) = UInt8.ofNat requests.length := by
  have hip : ∀ k < 2, (requestPacket h requests).getD (16 + k) 0 =
      (packed 2 (((requestPacket h requests).length - 14) % 2 ^ 16)).getD k 0 := by
    intro k hk
    rw [getD_requestPacket hok requests (by omega), if_neg (by omega), if_neg (by omega),
      if_pos (by omega), Nat.add_sub_cancel_left]
  have hudp : ∀ k < 2, (requestPacket h requests).getD (38 + k) 0 =
      (packed 2 (((requestPacket h requests).length - 34) % 2 ^ 16)).getD k 0 := by
    intro k hk
    rw [getD_requestPacket hok requests (by omega), if_neg (by omega), if_pos (by omega),
      Nat.add_sub_cancel_left]
  refine ⟨?_, ?_, getD_requestPacket hok requests (by decide)⟩
  · rw [be16, hip 1 (by decide), ← Nat.add_zero 16, hip 0 (by decide), packed_two]
    exact be16_packed (Nat.mod_lt _ (by decide))
  · rw [be16, hudp 1 (by decide), ← Nat.add_zero 38, hudp 0 (by decide), packed_two]
    exact be16_packed (Nat.mod_lt _ (by decide))

/-- A packet of an assembler is accepted when its length fits into the length field of IP. -/
theorem isValid_requestPacket :
    isValid (requestPacket h requests) = true ↔ (requestPacket h requests).length < 14 + 2 ^ 16 := by
  have hlen := length_requestPacket hok requests
  obtain ⟨hip, hudp, -⟩ := fields_requestPacket hok requests
  have hfixed := fixed_requestPacket hok requests
  simp only [fixedBytes, List.forall_mem_cons] at hfixed
  obtain ⟨h12, h13, h14, h18, h19, h20, h21, h23, h24, h25, h40, h41, h42, -⟩ := hfixed
  rw [isValid_iff]
  constructor
  · rintro ⟨hfields, -⟩
    have := hfields.ipLength
    omega
  · intro hshort
    refine ⟨⟨by omega, ?_, ⟨?_, ?_⟩, by omega, h23, by omega, ⟨?_, ?_⟩, .inl h42⟩, .inl ?_⟩
    · rw [be16, h12, h13]
      rfl
    · rw [be16, h18, h19]
      rfl
    · rw [be16, h20, h21]
      rfl
    · rw [be16, h40, h41]
      rfl
    · rw [be16, h24, h25]
      rfl
    · rw [ihl, show ethHdrSize = 14 from rfl, h14]
      rfl

end

/-- The stored header stays valid while packets are sent from it. -/
theorem headerOk_headerAfter (remoteEi localEi : EndpointInfo) (packets : List (List SentRequest)) :
    HeaderOk (headerAfter remoteEi localEi packets) := by
  have hall : ∀ (packets : List (List SentRequest)) (h : List UInt8), HeaderOk h →
      HeaderOk (packets.foldl (fun header requests =>
        (requestPacket header requests).take requestBatchHeaderSize) h) := by
    intro packets
    induction packets with
    | nil => exact fun h hok => hok
    | cons requests packets ih => exact fun h hok => ih _ (headerOk_requestPacket hok requests)
  exact hall packets _ (headerOk_build remoteEi localEi)

/-- `is_valid` is right about a packet unless the packet has exactly one of the IP version 4 and the
IP header length 5, and all else is in order: then it accepts what is not a MICA datagram. It accepts
the packets that `send_request_packet` sends, whatever packets the assembler sent before, if their
length fits into the length field of IP. -/
theorem isValid_correct_iff (p : List UInt8) (remoteEi localEi : EndpointInfo)
    (packets : List (List SentRequest)) (requests : List SentRequest) :
    ((isValid p = true ↔ Datagram p) ↔ ¬(OtherFields p ∧ (ihl p = 5 ↔ ver p ≠ 4))) ∧
      (isValid (requestPacket (headerAfter remoteEi localEi packets) requests) = true ↔
        (requestPacket (headerAfter remoteEi localEi packets) requests).length < 14 + 2 ^ 16) := by
  constructor
  · exact isValid_iff_datagram_iff p
  · exact isValid_requestPacket (headerOk_headerAfter remoteEi localEi packets) requests

/-- A response whose IP header says that it has 6 words. -/
def longIpHeader : List UInt8 :=
  List.replicate 12 0 ++ [8, 0] ++ [0x46, 0, 0, 34, 0, 0, 0, 0, 64, 17, 0, 0] ++
    List.replicate 8 0 ++ [0, 0, 0, 0, 0, 14, 0, 0] ++ [0x79, 0, 0, 0, 0, 0]

/-- A packet whose IP header has options passes the check, and is not the datagram the check takes
it for. -/
theorem isValid_longIpHeader : isValid longIpHeader = true ∧ ¬Datagram longIpHeader :=
  ⟨by decide, fun h => absurd h.headerLength (by decide)⟩

end Netstar.Proofs.Mica
