import Netstar.Lib.Pieces
import Netstar.Proofs.Net.FragMemory
import Netstar.Proofs.Net.PacketMerger

/-!
# `Netstar.Proofs.Net.Reassembly`: fragments give the datagram back

A datagram is cut into fragments, and the fragments of many datagrams arrive in any order and more
than once. Beside the state of `ipv4` a run keeps, for each datagram, the pieces that have arrived
since it was last handed over. `reassembly_correct` says that a fragment hands the datagram over
exactly when it is the last missing piece, with the payload as it was sent.

The receive path checks the checksum of the first 20 bytes of the header only. So a header with
options passes when the device checks checksums, and hardly otherwise (`Passes`).
-/

set_option autoImplicit false

namespace Netstar.Proofs.Net

open Netstar.Lib
open Netstar.Spec.Net

/-- A datagram that is cut into fragments. -/
structure IpDatagram where
  id : FragId
  payload : List UInt8
  cuts : List Nat
  /-- The fragments are in order and not empty. -/
  ordered : Cuts 0 cuts payload.length
  /-- Offsets count in units of 8 bytes. -/
  aligned : ∀ c ∈ cuts, c % 8 = 0
  /-- There are at least two fragments. -/
  several : cuts ≠ []

namespace IpDatagram

/-- The start and the end of each fragment in the payload. -/
def pieces (d : IpDatagram) : List (Nat × Nat) := Lib.pieces 0 d.cuts d.payload.length

/-- The payload as a stream. -/
def stream (d : IpDatagram) (x : Int) : UInt8 := d.payload.getD x.toNat 0

/-- The bytes of a piece. -/
def bytes (d : IpDatagram) (q : Nat × Nat) : List UInt8 := (d.payload.drop q.1).take (q.2 - q.1)

end IpDatagram

/-- The header of a packet. -/
def headerOf (p : Packet) : IpHdr := (IpHdr.load p).ntoh

/-- The key of the entry of a fragment. -/
def fragIdOf (h : IpHdr) : FragId := ⟨h.srcIp, h.dstIp, h.id, h.ipProto⟩

/-- The packet carries the piece `q` of the datagram to this host. There can be padding behind it. -/
structure IsFragment (cfg : IpConfig) (d : IpDatagram) (q : Nat × Nat) (p : Packet) : Prop where
  piece : q ∈ d.pieces
  size : IpHdr.size ≤ p.length
  host : d.id.dstIp = cfg.hostAddress
  id : fragIdOf (headerOf p) = d.id
  offset : (headerOf p).offset = q.1
  mf : (headerOf p).mf = decide (q.2 < d.payload.length)
  ihl : 5 ≤ (headerOf p).ihl
  len : (headerOf p).len = (headerOf p).hdrLen + (q.2 - q.1)
  fits : (headerOf p).len ≤ p.length
  payload : (p.drop (headerOf p).hdrLen).take (q.2 - q.1) = d.bytes q
  total : (headerOf p).hdrLen + d.payload.length ≤ ipPacketLenMax
  /-- The checksum of the header with its options is right. -/
  csum : ipChecksum (p.take (headerOf p).hdrLen) = 0

/-- The receive path lets the packet through: the checksum of the first 20 bytes is right, or the
device has checked it, and no packet filter takes the packet. -/
structure Passes (cfg : IpConfig) (p : Packet) : Prop where
  csum : cfg.rxCsumOffload = true ∨ ipChecksum (p.take IpHdr.size) = 0
  filter : ∀ f, cfg.packetFilter = some f → f (headerOf p) (p.take (headerOf p).len) = false

/-- The datagram goes to its protocol, here or as an assembled packet on another CPU. -/
def HandsOver (cfg : IpConfig) (d : IpDatagram) (src : List UInt8) (out : List IpOutput) : Prop :=
  match L4.ofProto d.id.protocol with
  | none => out = []
  | some l4 =>
    out = [.received l4 d.payload d.id.srcIp d.id.dstIp] ∨
      ∃ cpuId iph, cpuId ≠ cfg.cpuId ∧
        out = [.forward cpuId (cfg.hwAddress ++ src ++ [0x08, 0x00] ++ iph ++ d.payload)] ∧
        (headerOf iph).hdrLen = iph.length ∧ (headerOf iph).len = iph.length + d.payload.length ∧
        (headerOf iph).frag = 0

/-- Pieces are compared by their two numbers. -/
local instance instLawfulBEqPiece : LawfulBEq (Nat × Nat) := inferInstance

/-- The pieces of a datagram that have arrived, after one more. A complete datagram starts anew. -/
def collect (d : IpDatagram) (q : Nat × Nat) (c : FragId → List (Nat × Nat)) :
    FragId → List (Nat × Nat) := fun id =>
  if id = d.id then
    if ∀ q' ∈ d.pieces, q' ∈ q :: c d.id then [] else q :: c d.id
  else c id

/-- A run in which fragments of the datagrams `ds` arrive and no entry is dropped. The second
argument gives the pieces that have arrived, the third one the time. -/
inductive Receives (cfg : IpConfig) (ds : IpDatagram → Prop) :
    Ipv4 → (FragId → List (Nat × Nat)) → Nat → Prop
  | start (t : Nat) : Receives cfg ds .create (fun _ => []) t
  | fragment {s s' : Ipv4} {c : FragId → List (Nat × Nat)} {t now : Nat} {d : IpDatagram}
      {q : Nat × Nat} {p : Packet} {src : List UInt8} {out : List IpOutput} :
      Receives cfg ds s c t → t ≤ now → ds d → IsFragment cfg d q p → Passes cfg p →
      s.fragMem ≤ fragHighThresh →
      Ipv4.handleReceivedPacket cfg s now p false src = .ok (s', out) →
      Receives cfg ds s' (collect d q c) now
  | timer {s : Ipv4} {c : FragId → List (Nat × Nat)} {t now : Nat} : Receives cfg ds s c t →
      t ≤ now → (s.fragTimeoutFires now).frags = s.frags →
      Receives cfg ds (s.fragTimeoutFires now) c now

/-! ### The fragment on the wire -/

variable {cfg : IpConfig} {d : IpDatagram} {q : Nat × Nat} {p : Packet}

/-- The receive path accepts the fragment. -/
theorem IsFragment.accept (h : IsFragment cfg d q p) (hpasses : Passes cfg p) :
    Ipv4.accept cfg p false = some (headerOf p, p.take (headerOf p).len) := by
  have hbounds := bounds_of_mem_pieces d.ordered h.piece
  have hget : p.getHeader 0 IpHdr.size = some (p.take IpHdr.size) :=
    if_pos (by rw [Nat.zero_add]; exact h.size)
  have hcsum : (!cfg.rxCsumOffload && !false && ipChecksum (p.take IpHdr.size) != 0) = false := by
    rcases hpasses.csum with hoff | hzero
    · simp [hoff]
    · simp [hzero]
  have hhead : (IpHdr.load (p.take IpHdr.size)).ntoh = headerOf p := by rw [load_take, headerOf]
  have hdst : (headerOf p).dstIp = cfg.hostAddress := by
    rw [← h.host, ← h.id]
    rfl
  have htotal := h.total
  have hoffset := h.offset
  have hlen := h.len
  have hfits := h.fits
  have hmax : ¬ ipPacketLenMax < (headerOf p).offset + (p.take (headerOf p).len).length := by
    rw [List.length_take]
    omega
  have hfilter : (cfg.packetFilter.map fun f => f (headerOf p) (p.take (headerOf p).len)).getD false
      = false := by
    cases hf : cfg.packetFilter with
    | none => rfl
    | some f => exact hpasses.filter f hf
  unfold Ipv4.accept
  rw [hget]
  dsimp only
  rw [hcsum, hhead, hfilter]
  simp only [Bool.false_eq_true, if_false]
  rw [if_neg (by omega), if_neg hmax, if_neg (by simpa using hdst)]

/-- A range of the stream is a range of the payload. -/
theorem slice_stream {a n : Nat} (h : a + n ≤ d.payload.length) :
    slice d.stream a n = (d.payload.drop a).take n := by
  apply List.ext_getElem?
  intro i
  rw [getElem?_slice, List.getElem?_take, List.getElem?_drop]
  split
  · rename_i hi
    have hlt : a + i < d.payload.length := by omega
    have hindex : ((a : Int) + (i : Int)).toNat = a + i := by omega
    rw [IpDatagram.stream, hindex, List.getD, List.getElem?_eq_getElem hlt]
    rfl
  · rfl

/-- A piece of a datagram lies in its stream. -/
theorem pieceSeg_stream (hq : q ∈ d.pieces) : pieceSeg d.stream q = ((q.1 : Int), d.bytes q) := by
  have hbounds := bounds_of_mem_pieces d.ordered hq
  rw [pieceSeg, slice_stream (by omega), IpDatagram.bytes]

/-- The data of the fragment, behind its header. -/
theorem IsFragment.data (h : IsFragment cfg d q p) :
    (p.take (headerOf p).len).drop (headerOf p).hdrLen = d.bytes q := by
  rw [List.drop_take, h.len, Nat.add_sub_cancel_left, h.payload]

/-! ### The entry of a datagram -/

/-- The entry holds the pieces `R` of the datagram. -/
structure FragFor (d : IpDatagram) (R : List (Nat × Nat)) (f : Frag) : Prop where
  data : Reassembles d.stream f.data (R.map (pieceSeg d.stream))
  last : f.lastFragReceived = true ↔ ∃ q ∈ R, q.2 = d.payload.length
  header : (∃ q ∈ R, q.1 = 0) →
    IpHdr.size ≤ f.header.length ∧ (headerOf f.header).hdrLen = f.header.length ∧
      f.header.length + d.payload.length ≤ ipPacketLenMax

/-- The state holds the pieces `R` of the datagram. -/
structure EntryFor (s : Ipv4) (d : IpDatagram) (R : List (Nat × Nat)) : Prop where
  pieces : ∀ q ∈ R, q ∈ d.pieces
  none : R = [] → s.frags.lookup d.id = none
  some : R ≠ [] → ∃ f, s.frags.lookup d.id = some f ∧ FragFor d R f

/-- `frag::merge` of a packet that has its whole header. -/
theorem fragMerge_eq_ok (cfg : IpConfig) {f : Frag} {h : IpHdr} {offset : Nat} {m : SegMap Int}
    (hle : h.hdrLen ≤ p.length) (hm : merge f.data offset (p.drop h.hdrLen) = .ok m) :
    ∃ memSize, f.merge cfg h offset p = .ok { f with
      header := if offset = 0 then p.take h.hdrLen else f.header
      data := m
      memSize := memSize } := by
  have htrim : Frag.trimPrefix p h.hdrLen = .ok (p.drop h.hdrLen) := if_pos hle
  have hshare : Frag.sharePrefix p h.hdrLen = .ok (p.take h.hdrLen) := if_pos hle
  unfold Frag.merge
  rw [htrim, hshare]
  by_cases hzero : offset = 0
  · simp only [if_pos hzero, ok_bind, hm]
    exact ⟨_, rfl⟩
  · simp only [if_neg hzero, ok_bind, hm]
    exact ⟨_, rfl⟩

/-- The header does not depend on the bytes behind it. -/
theorem headerOf_take {n : Nat} (hn : IpHdr.size ≤ n) : headerOf (p.take n) = headerOf p := by
  unfold headerOf
  rw [← load_take (p.take n), List.take_take, Nat.min_eq_left hn, load_take]

/-- An entry takes the fragment. -/
theorem FragFor.merge {R : List (Nat × Nat)} {f : Frag} (h : FragFor d R f)
    (hp : IsFragment cfg d q p) :
    ∃ f', Frag.merge cfg { f with lastFragReceived := f.lastFragReceived || !(headerOf p).mf }
        (headerOf p) (headerOf p).offset (p.take (headerOf p).len) = .ok f' ∧
      FragFor d (q :: R) f' := by
  have hbounds := bounds_of_mem_pieces d.ordered hp.piece
  have hlen := hp.len
  have hfits := hp.fits
  have htotal := hp.total
  -- The fragment carries the bytes of the payload at its own place.
  have hagree : Agrees d.stream ((q.1 : Int), d.bytes q) := by
    have := agrees_pieceSeg d.stream q
    rwa [pieceSeg_stream hp.piece] at this
  obtain ⟨m, hm, hre⟩ := merge_reassembles h.data q.1 (d.bytes q) hagree
  rw [← hp.data, ← hp.offset] at hm
  have hle : (headerOf p).hdrLen ≤ (p.take (headerOf p).len).length := by
    rw [List.length_take]
    omega
  obtain ⟨memSize, hok⟩ := fragMerge_eq_ok cfg
    (f := { f with lastFragReceived := f.lastFragReceived || !(headerOf p).mf }) hle hm
  refine ⟨_, hok, ?_, ?_, ?_⟩
  · rwa [List.map_cons, pieceSeg_stream hp.piece]
  · have hmf : (headerOf p).mf = false ↔ q.2 = d.payload.length := by
      rw [hp.mf, decide_eq_false_iff_not]
      omega
    simp only [Bool.or_eq_true, Bool.not_eq_true', h.last, hmf, List.exists_mem_cons_iff]
    exact or_comm
  · intro hzero
    have hsize : IpHdr.size ≤ (headerOf p).hdrLen := by
      have := hp.ihl
      simp only [IpHdr.hdrLen, IpHdr.size]
      omega
    rw [hp.offset]
    dsimp only
    split
    · rw [List.take_take, Nat.min_eq_left (by omega), headerOf_take hsize, List.length_take,
        Nat.min_eq_left (by omega)]
      exact ⟨hsize, rfl, htotal⟩
    · -- The header is that of the fragment at offset 0, which has come before.
      rename_i hne
      apply h.header
      obtain ⟨q', hq', hstart⟩ := hzero
      rcases List.mem_cons.mp hq' with rfl | hq'
      · exact absurd hstart hne
      · exact ⟨q', hq', hstart⟩

/-- The entry shows when the datagram is complete, and what its payload is. -/
theorem FragFor.isComplete_iff {R : List (Nat × Nat)} {f : Frag} (h : FragFor d R f)
    (hR : ∀ q ∈ R, q ∈ d.pieces) : f.isComplete = true ↔ ∀ q ∈ d.pieces, q ∈ R := by
  refine Iff.trans ?_ (complete_iff d.ordered hR h.data.separated h.data.extent h.data.agrees)
  rw [← h.last]
  unfold Frag.isComplete
  constructor
  · intro hcomplete
    split at hcomplete
    · rename_i offset pkt hdata
      simp only [Bool.and_eq_true, decide_eq_true_eq] at hcomplete
      exact ⟨⟨pkt, by rw [hdata, hcomplete.2]⟩, hcomplete.1⟩
    · cases hcomplete
  · rintro ⟨⟨pkt, hdata⟩, hlast⟩
    simp [hdata, hlast]

/-- When all pieces are there, the data is the payload. -/
theorem FragFor.ipData_eq {R : List (Nat × Nat)} {f : Frag} (h : FragFor d R f)
    (hR : ∀ q ∈ R, q ∈ d.pieces) (hall : ∀ q ∈ d.pieces, q ∈ R) : f.ipData = d.payload := by
  have hwhole := eq_whole d.ordered hR h.data.separated h.data.extent h.data.agrees hall
  have hslice := slice_stream (d := d) (a := 0) (n := d.payload.length) (by omega)
  rw [Frag.ipData, hwhole, List.head?_cons, Option.map_some, Option.getD_some]
  simpa using hslice

/-! ### Handing over -/

/-- A packet that is put together is forwarded. -/
theorem reassemblyHash_forwarded (l4 : L4) (h : IpHdr) (p : Packet) :
    (Ipv4.reassemblyHash l4 h p).2 = true := by
  unfold Ipv4.reassemblyHash L4.forward
  cases l4 <;> dsimp only <;> split <;> rfl

/-- A stored 16-bit number has two bytes. -/
theorem length_storeBe16 (v : Nat) : (Frag.storeBe16 v).length = 2 :=
  LittleEndian.length_encode _ _

/-- A number that is stored in network order is loaded in host order. -/
theorem hton_decode_storeBe16 {v : Nat} (h : v < 2 ^ 16) :
    hton 2 (LittleEndian.decode (Frag.storeBe16 v)) = v := by
  have hload : LittleEndian.decode (Frag.storeBe16 v) = hton 2 v := by
    rw [Frag.storeBe16, encode_hton, hton]
  have hback : hton 2 (hton 2 v) = LittleEndian.decode (LittleEndian.encode 2 (hton 2 v)).reverse :=
    rfl
  rw [hload, hback, encode_hton, List.reverse_reverse, LittleEndian.decode_encode 2 v h]

/-- The IP header of the assembled packet. -/
def assembledHeader (header : Packet) (len : Nat) : Packet :=
  header.take 2 ++ Frag.storeBe16 len ++ (header.drop 4).take 2 ++ Frag.storeBe16 0 ++ header.drop 8

/-- The header that is put together keeps its length. -/
theorem length_assembledHeader {header : Packet} (len : Nat) (h : IpHdr.size ≤ header.length) :
    (assembledHeader header len).length = header.length := by
  simp only [IpHdr.size] at h
  simp only [assembledHeader, List.length_append, List.length_take, List.length_drop,
    length_storeBe16]
  omega

/-- The assembled header states the new length, and it is not the header of a fragment. -/
theorem headerOf_assembledHeader {header : Packet} {len : Nat} (hsize : IpHdr.size ≤ header.length)
    (hlen : len < 2 ^ 16) :
    (headerOf (assembledHeader header len)).ihl = (headerOf header).ihl ∧
      (headerOf (assembledHeader header len)).len = len ∧
      (headerOf (assembledHeader header len)).frag = 0 := by
  simp only [IpHdr.size] at hsize
  have htake : (header.take 2).length = 2 := by
    rw [List.length_take]
    omega
  have htake' : (header.take 2 ++ Frag.storeBe16 len ++ (header.drop 4).take 2).length = 6 := by
    simp only [List.length_append, List.length_take, List.length_drop, length_storeBe16]
    omega
  refine ⟨?_, ?_, ?_⟩
  · have hget : (assembledHeader header len)[0]? = header[0]? := by
      rw [assembledHeader, List.append_assoc, List.append_assoc, List.append_assoc,
        List.getElem?_append_left (by omega), List.getElem?_take, if_pos (by omega)]
    simp only [headerOf, IpHdr.ntoh, IpHdr.load, List.getD, hget]
  · have hload : loadPacked 2 (assembledHeader header len) 2 =
        LittleEndian.decode (Frag.storeBe16 len) := by
      rw [loadPacked, assembledHeader, List.append_assoc, List.append_assoc, List.append_assoc,
        List.drop_left' htake, List.take_left' (length_storeBe16 len)]
    simp only [headerOf, IpHdr.ntoh, IpHdr.load, hload]
    exact hton_decode_storeBe16 hlen
  · have hload : loadPacked 2 (assembledHeader header len) 6 =
        LittleEndian.decode (Frag.storeBe16 0) := by
      rw [loadPacked, assembledHeader, List.append_assoc _ (Frag.storeBe16 0),
        List.drop_left' htake', List.take_left' (length_storeBe16 0)]
    simp only [headerOf, IpHdr.ntoh, IpHdr.load, hload]
    exact hton_decode_storeBe16 (by decide)

/-- The packet that is put together has the addresses, a header with the new length and no fragment
offset, and the payload. -/
theorem getAssembledPacket_spec {f : Frag} (src dst : List UInt8)
    (hsize : IpHdr.size ≤ f.header.length) (hhdr : (headerOf f.header).hdrLen = f.header.length)
    (htotal : f.header.length + f.ipData.length ≤ ipPacketLenMax) :
    ∃ iph, f.getAssembledPacket src dst = .ok (dst ++ src ++ [0x08, 0x00] ++ iph ++ f.ipData) ∧
      (headerOf iph).hdrLen = iph.length ∧ (headerOf iph).len = iph.length + f.ipData.length ∧
      (headerOf iph).frag = 0 := by
  rw [ipPacketLenMax] at htotal
  have hlen : (f.header ++ f.ipData).length = f.header.length + f.ipData.length :=
    List.length_append
  obtain ⟨hihl, hlen', hfrag⟩ := headerOf_assembledHeader hsize
    (show f.header.length + f.ipData.length < 2 ^ 16 by omega)
  have hlength := length_assembledHeader (f.header.length + f.ipData.length) hsize
  refine ⟨assembledHeader f.header (f.header.length + f.ipData.length), ?_, ?_, ?_, hfrag⟩
  · simp only [IpHdr.size] at hsize
    unfold Frag.getAssembledPacket
    dsimp only
    rw [if_neg (by simp only [IpHdr.size]; omega), hlen, Nat.mod_eq_of_lt (by omega),
      List.take_append_of_le_length (by omega), List.drop_append_of_le_length (by omega),
      List.take_append_of_le_length (by rw [List.length_drop]; omega),
      List.drop_append_of_le_length (by omega)]
    simp only [assembledHeader, List.append_assoc]
    rfl
  · rw [IpHdr.hdrLen, hihl, hlength, ← hhdr, IpHdr.hdrLen]
  · rw [hlen', hlength]

/-- A complete datagram is handed over. -/
theorem FragFor.deliver {R : List (Nat × Nat)} {f : Frag} (h : FragFor d R f)
    (hR : ∀ q ∈ R, q ∈ d.pieces) (hall : ∀ q ∈ d.pieces, q ∈ R) (cfg : IpConfig)
    (src : List UInt8) {hd : IpHdr} (hid : fragIdOf hd = d.id) :
    ∃ out, Ipv4.deliver cfg hd f src = .ok out ∧ HandsOver cfg d src out := by
  have hdata := h.ipData_eq hR hall
  have hproto : hd.ipProto = d.id.protocol := by rw [← hid]; rfl
  have hsrc : hd.srcIp = d.id.srcIp := by rw [← hid]; rfl
  have hdst : hd.dstIp = d.id.dstIp := by rw [← hid]; rfl
  unfold Ipv4.deliver HandsOver
  rw [hproto]
  cases hl4 : L4.ofProto d.id.protocol with
  | none => exact ⟨[], rfl, rfl⟩
  | some l4 =>
    dsimp only
    have hforwarded := reassemblyHash_forwarded l4 hd f.ipData
    rw [if_pos hforwarded, hdata, hsrc, hdst]
    split
    · exact ⟨_, rfl, .inl rfl⟩
    · rename_i hcpu
      obtain ⟨first, hfirst, hstart⟩ := exists_mem_pieces d.ordered (Nat.zero_le 0) d.ordered.lt
      obtain ⟨hsize, hhdr, htotal⟩ := h.header ⟨first, hall first hfirst, by omega⟩
      obtain ⟨iph, hpkt, hiph⟩ := getAssembledPacket_spec src cfg.hwAddress hsize hhdr
        (by rw [hdata]; exact htotal)
      rw [hdata] at hpkt hiph
      rw [hpkt]
      exact ⟨_, rfl, .inr ⟨_, iph, hcpu, rfl, hiph⟩⟩

/-! ### One fragment -/

/-- No fragment is the whole datagram. -/
theorem IsFragment.mf_or_offset (h : IsFragment cfg d q p) :
    (headerOf p).mf = true ∨ (headerOf p).offset ≠ 0 := by
  have hbounds := bounds_of_mem_pieces d.ordered h.piece
  rw [h.mf, h.offset, decide_eq_true_iff]
  by_contra hwhole
  obtain ⟨c, cs, hcuts⟩ := List.exists_cons_of_ne_nil d.several
  have hordered := d.ordered
  have hpiece := h.piece
  rw [hcuts] at hordered
  rw [IpDatagram.pieces, hcuts] at hpiece
  have hc := hordered.head_lt
  have hlt := hordered.tail.lt
  -- the first piece ends at the first cut, which is not the end
  have hfirst : q = (0, c) := eq_of_mem_pieces hordered hpiece List.mem_cons_self
    (show q.1 ≤ 0 ∧ 0 < q.2 by omega) (by simpa using hc)
  rw [hfirst] at hwhole
  omega

/-- The entry that the fragment opens holds the pieces that came before. -/
theorem EntryFor.openFrag {s : Ipv4} {t : Nat} {R : List (Nat × Nat)} (h : EntryFor s d R)
    (hcfg : ImplSizeOk cfg) (hinv : FragInv cfg t s) (now : Nat) (mf : Bool) :
    ∃ f, FragFor d R f ∧ (s.openFrag now d.id mf).1 =
      { f with lastFragReceived := f.lastFragReceived || !mf } := by
  by_cases hR : R = []
  · subst hR
    refine ⟨⟨[], [], now, 0, false⟩, ⟨?_, by simp, by simp⟩, ?_⟩
    · exact ⟨List.Pairwise.nil, SameExtent.refl _, by simp⟩
    · rw [openFrag_of_none (h.none rfl)]
      rfl
  · obtain ⟨f, hf, hfor⟩ := h.some hR
    have hpos := fragMemory_pos hcfg f.header f.data
    have hsize := (hinv.entry d.id f hf).1
    exact ⟨f, hfor, by rw [openFrag_of_some hf (by omega)]⟩

/-- A fragment hands its datagram over exactly when it is the last missing piece. Other datagrams
keep their entries. -/
theorem fragment_spec {s : Ipv4} {t : Nat} {R : List (Nat × Nat)} (hcfg : ImplSizeOk cfg)
    (hinv : FragInv cfg t s) (hentry : EntryFor s d R) (hp : IsFragment cfg d q p)
    (hpasses : Passes cfg p) (hmem : s.fragMem ≤ fragHighThresh) (now : Nat) (src : List UInt8) :
    ∃ s' out, Ipv4.handleReceivedPacket cfg s now p false src = .ok (s', out) ∧
      (if ∀ q' ∈ d.pieces, q' ∈ q :: R then HandsOver cfg d src out ∧ EntryFor s' d []
        else out = [] ∧ EntryFor s' d (q :: R)) ∧
      ∀ k, k ≠ d.id → s'.frags.lookup k = s.frags.lookup k := by
  obtain ⟨f, hfor, hopen⟩ := hentry.openFrag hcfg hinv now (headerOf p).mf
  obtain ⟨f', hmerge, hfor'⟩ := hfor.merge hp
  have hpieces : ∀ q' ∈ q :: R, q' ∈ d.pieces := by
    intro q' hq'
    rcases List.mem_cons.mp hq' with rfl | hq'
    · exact hp.piece
    · exact hentry.pieces q' hq'
  have hcomplete := hfor'.isComplete_iff hpieces
  have hlimit : s.fragLimitMem = s := if_pos hmem
  have hid : (⟨(headerOf p).srcIp, (headerOf p).dstIp, (headerOf p).id, (headerOf p).ipProto⟩ :
      FragId) = d.id := hp.id
  unfold Ipv4.handleReceivedPacket
  rw [hp.accept hpasses]
  dsimp only
  rw [if_pos hp.mf_or_offset]
  unfold Ipv4.reassemble
  dsimp only
  rw [hlimit, hid, hopen, hmerge, ok_bind]
  by_cases hall : ∀ q' ∈ d.pieces, q' ∈ q :: R
  · -- The last missing piece: the datagram is handed over and its entry erased.
    obtain ⟨out, hout, hover⟩ := hfor'.deliver hpieces hall cfg src hp.id
    rw [if_pos (hcomplete.mpr hall), hout, ok_bind]
    refine ⟨_, _, rfl, ?_, ?_⟩
    · rw [if_pos hall]
      refine ⟨hover, by simp, fun _ => ?_, fun hne => absurd rfl hne⟩
      exact AList.lookup_erase _ _
    · intro k hk
      have herase : ((s.frags.insert d.id f').erase d.id).lookup k = s.frags.lookup k := by
        rw [AList.lookup_erase_ne hk, AList.lookup_insert_ne hk]
      exact herase
  · -- A piece is still missing: the entry stays with the fragment in it.
    rw [if_neg (fun hc => hall (hcomplete.mp hc))]
    have hlookup : ∀ s' : Ipv4, s'.frags = s.frags.insert d.id f' →
        EntryFor s' d (q :: R) ∧ ∀ k, k ≠ d.id → s'.frags.lookup k = s.frags.lookup k := by
      intro s' hs'
      refine ⟨⟨hpieces, nofun, fun _ => ⟨f', ?_, hfor'⟩⟩, fun k hk => ?_⟩
      · rw [hs', AList.lookup_insert]
      · rw [hs', AList.lookup_insert_ne hk]
    refine ⟨_, _, rfl, ?_, (hlookup _ ?_).2⟩
    · rw [if_neg hall]
      refine ⟨rfl, (hlookup _ ?_).1⟩
      split <;> rfl
    · split <;> rfl

/-! ### Runs -/

variable {ds : IpDatagram → Prop} {s : Ipv4} {c : FragId → List (Nat × Nat)} {t : Nat}

/-- The layer gets wherever it receives pieces. -/
theorem Receives.reaches (h : Receives cfg ds s c t) : IpReaches cfg s t := by
  induction h with
  | start t => exact .start t
  | fragment _ hnow _ _ _ _ hok ih => exact .packet ih hnow hok
  | timer _ hnow _ ih => exact .timer ih hnow

/-- In every run each datagram has the entry with the pieces that have arrived. -/
theorem Receives.entry (hcfg : ImplSizeOk cfg)
    (hdistinct : ∀ d d', ds d → ds d' → d.id = d'.id → d = d') (h : Receives cfg ds s c t) :
    ∀ d, ds d → EntryFor s d (c d.id) := by
  induction h with
  | start t =>
    intro d _
    exact ⟨by simp, fun _ => rfl, fun hne => absurd rfl hne⟩
  | @fragment s s' c t now d q p src out hrun hnow hd hp hpasses hmem hok ih =>
    obtain ⟨s'', out', hok', hentry, hother⟩ := fragment_spec hcfg (hrun.reaches.inv hcfg)
      (ih d hd) hp hpasses hmem now src
    obtain ⟨rfl, rfl⟩ : s' = s'' ∧ out = out' := by simpa [hok] using hok'
    intro d' hd'
    unfold collect
    by_cases hid : d'.id = d.id
    · obtain rfl := hdistinct d' d hd' hd hid
      rw [if_pos rfl]
      split at hentry
      · rename_i hall
        rw [if_pos hall]
        exact hentry.2
      · rename_i hall
        rw [if_neg hall]
        exact hentry.2
    · rw [if_neg hid]
      have hold := ih d' hd'
      refine ⟨hold.pieces, fun hnil => ?_, fun hne => ?_⟩
      · rw [hother d'.id hid]
        exact hold.none hnil
      · rw [hother d'.id hid]
        exact hold.some hne
  | @timer s c t now hrun hnow hsame ih =>
    intro d hd
    have hold := ih d hd
    exact ⟨hold.pieces, fun hnil => by rw [hsame]; exact hold.none hnil, fun hne => by
      rw [hsame]; exact hold.some hne⟩

/-- Fragments give the datagram back: in every run, the next fragment hands its datagram over
exactly when it is the last missing piece. -/
theorem reassembly_correct (hcfg : ImplSizeOk cfg)
    (hdistinct : ∀ d d', ds d → ds d' → d.id = d'.id → d = d') (h : Receives cfg ds s c t)
    (now : Nat) (src : List UInt8) (hd : ds d) (hp : IsFragment cfg d q p)
    (hpasses : Passes cfg p) (hmem : s.fragMem ≤ fragHighThresh) :
    ∃ s' out, Ipv4.handleReceivedPacket cfg s now p false src = .ok (s', out) ∧
      if ∀ q' ∈ d.pieces, q' ∈ q :: c d.id then HandsOver cfg d src out else out = [] := by
  obtain ⟨s', out, hok, hentry, _⟩ := fragment_spec hcfg (h.reaches.inv hcfg)
    (h.entry hcfg hdistinct d hd) hp hpasses hmem now src
  refine ⟨s', out, hok, ?_⟩
  split at hentry
  · rename_i hall
    rw [if_pos hall]
    exact hentry.1
  · rename_i hall
    rw [if_neg hall]
    exact hentry.1

/-- A datagram of 10 bytes in two fragments. -/
def sampleDatagram : IpDatagram where
  id := ⟨0x0a000002, 0x0a000001, 1, 17⟩
  payload := [1, 2, 3, 4, 5, 6, 7, 8, 9, 10]
  cuts := [8]
  ordered := by simp [Cuts]
  aligned := by decide
  several := nofun

/-- The first fragment. -/
def sampleFirst : Packet :=
  [0x45, 0, 0, 28, 0, 1, 0x20, 0, 64, 17, 0x46, 0xce, 10, 0, 0, 2, 10, 0, 0, 1,
    1, 2, 3, 4, 5, 6, 7, 8]

/-- The first fragment with four bytes of options. -/
def sampleFirstOptions : Packet :=
  [0x46, 0, 0, 32, 0, 1, 0x20, 0, 64, 17, 0x43, 0xc9, 10, 0, 0, 2, 10, 0, 0, 1, 1, 1, 1, 0,
    1, 2, 3, 4, 5, 6, 7, 8]

/-- The second fragment. -/
def sampleLast : Packet :=
  [0x45, 0, 0, 22, 0, 1, 0, 1, 64, 17, 0x66, 0xd3, 10, 0, 0, 2, 10, 0, 0, 1, 9, 10]

/-- The sample packet is the last fragment of the sample datagram. -/
theorem sampleLast_isFragment {cfg : IpConfig} (h : cfg.hostAddress = 0x0a000001) :
    IsFragment cfg sampleDatagram (8, 10) sampleLast :=
  ⟨by decide, by decide, h.symm, by decide, by decide, by decide, by decide, by decide, by decide,
    by decide, by decide, by decide⟩

/-- A host at 10.0.0.1 whose device does not check checksums. -/
def softwareHost : IpConfig := { sampleHost with rxCsumOffload := false }

/-- The last fragment of a datagram has arrived at a new host. -/
theorem sampleLast_received (cfg : IpConfig) (h : cfg.hostAddress = 0x0a000001)
    (hpasses : Passes cfg sampleLast) {s : Ipv4} {out : List IpOutput}
    (hok : Ipv4.handleReceivedPacket cfg .create 7 sampleLast false [] = .ok (s, out)) :
    Receives cfg (· = sampleDatagram) s (collect sampleDatagram (8, 10) fun _ => []) 7 :=
  .fragment (.start 7) (Nat.le_refl 7) rfl (sampleLast_isFragment h) hpasses (Nat.zero_le _) hok

/-- The first fragment completes the datagram. -/
theorem reassembly_correct_two :
    ∃ s s' out, Receives sampleHost (· = sampleDatagram) s
        (collect sampleDatagram (8, 10) fun _ => []) 7 ∧
      Ipv4.handleReceivedPacket sampleHost s 8 sampleFirst false [] = .ok (s', out) ∧
      HandsOver sampleHost sampleDatagram [] out := by
  have hrun := sampleLast_received sampleHost rfl ⟨.inl rfl, nofun⟩ rfl
  have hfirst : IsFragment sampleHost sampleDatagram (0, 8) sampleFirst :=
    ⟨by decide, by decide, rfl, by decide, by decide, by decide, by decide, by decide, by decide,
      by decide, by decide, by decide⟩
  obtain ⟨s', out, hok, hout⟩ := reassembly_correct ⟨by decide, by decide⟩
    (fun d d' hd hd' _ => hd.trans hd'.symm) hrun 8 [] rfl hfirst ⟨.inl rfl, nofun⟩ (by decide)
  rw [if_pos (by decide)] at hout
  exact ⟨_, s', out, hrun, hok, hout⟩

/-- A first fragment with options is dropped by a host that checks checksums itself, although it is
the last missing piece and its checksum is right. -/
theorem reassembly_drops_options :
    ∃ s, Receives softwareHost (· = sampleDatagram) s
        (collect sampleDatagram (8, 10) fun _ => []) 7 ∧
      s.fragMem ≤ fragHighThresh ∧
      IsFragment softwareHost sampleDatagram (0, 8) sampleFirstOptions ∧
      (∀ q' ∈ sampleDatagram.pieces,
        q' ∈ (0, 8) :: collect sampleDatagram (8, 10) (fun _ => []) sampleDatagram.id) ∧
      Ipv4.handleReceivedPacket softwareHost s 8 sampleFirstOptions false [] = .ok (s, []) ∧
      ¬ HandsOver softwareHost sampleDatagram [] [] := by
  have hrun := sampleLast_received softwareHost rfl ⟨.inr (by decide), nofun⟩ rfl
  refine ⟨_, hrun, by decide, ?_, by decide, rfl, ?_⟩
  · exact ⟨by decide, by decide, rfl, by decide, by decide, by decide, by decide, by decide,
      by decide, by decide, by decide, by decide⟩
  · rintro (hout | ⟨_, _, _, hout, _⟩) <;> cases hout

end Netstar.Proofs.Net
