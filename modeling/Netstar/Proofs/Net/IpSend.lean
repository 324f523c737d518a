import Netstar.Lib.Result
import Netstar.Proofs.Net.Reassembly
import Netstar.Spec.Net.IpSend

/-!
# `Netstar.Proofs.Net.IpSend`: fragments that tile a packet

The loop of `ipv4::send` cuts a packet into pieces of `mtu - 20` bytes. The header of a fragment states
its offset in units of 8 bytes, and the loop divides by 8 without a check. `headerOf_sendPkt` reads a
sent fragment back. `send_tiles_iff` says that the fragments, by their headers, tile the packet if and
only if 8 divides `mtu - 20`.
-/

set_option autoImplicit false

namespace Netstar.Proofs.Net

open Netstar.Lib
open Netstar.Spec.Net
open Netstar.Spec.Net.Ipv4

/-- The number of data bytes of a fragment, by its header. -/
def dataLen (f : Packet) : Nat := (headerOf f).len - (headerOf f).hdrLen

/-- The fragment `f` says that it starts at `pos`, and it carries the bytes from there on. -/
structure FragmentAt (mtu : Nat) (payload : Packet) (pos : Nat) (f : Packet) : Prop where
  length : f.length = (headerOf f).len
  le_mtu : f.length ≤ mtu
  start : (headerOf f).offset = pos
  data : f.drop (headerOf f).hdrLen = (payload.drop pos).take (dataLen f)

/-- The fragments carry the bytes of the payload from `pos` on, one after the other. -/
inductive Tiles (mtu : Nat) (payload : Packet) : Nat → List Packet → Prop where
  | last {pos : Nat} {f : Packet} : FragmentAt mtu payload pos f → (headerOf f).mf = false →
      pos + dataLen f = payload.length → Tiles mtu payload pos [f]
  | more {pos : Nat} {f : Packet} {fs : List Packet} : FragmentAt mtu payload pos f →
      (headerOf f).mf = true → Tiles mtu payload (pos + dataLen f) fs → Tiles mtu payload pos (f :: fs)

/-- The first fragment of a tiling starts at its position. -/
theorem Tiles.start {mtu pos : Nat} {payload f : Packet} {fs : List Packet}
    (h : Tiles mtu payload pos (f :: fs)) : (headerOf f).offset = pos := by
  cases h with
  | last hfrag _ _ => exact hfrag.start
  | more hfrag _ _ => exact hfrag.start

/-! ### One fragment -/

/-- The fields of a header as the layer writes it. -/
theorem headerOf_ipHeader (d : Destination) {len frag : Nat} (hlen : len < 2 ^ 16)
    (hfrag : frag < 2 ^ 16) (csum rest : List UInt8) :
    (headerOf (ipHeader d len frag csum ++ rest)).hdrLen = 20 ∧
      (headerOf (ipHeader d len frag csum ++ rest)).len = len ∧
      (headerOf (ipHeader d len frag csum ++ rest)).frag = frag := by
  have hlenBytes := hton_decode_storeBe16 hlen
  have hfragBytes := hton_decode_storeBe16 hfrag
  obtain ⟨a, b, hab⟩ := List.length_eq_two.mp (length_storeBe16 len)
  obtain ⟨i, j, hij⟩ := List.length_eq_two.mp (length_storeBe16 0)
  obtain ⟨x, y, hxy⟩ := List.length_eq_two.mp (length_storeBe16 frag)
  rw [hab] at hlenBytes
  rw [hxy] at hfragBytes
  rw [ipHeader, hab, hij, hxy]
  refine ⟨?_, hlenBytes, hfragBytes⟩
  show (List.getD (69 :: _) 0 0 : UInt8).toNat % 16 * 4 = 20
  rw [List.getD_cons_zero]
  decide

/-- The fragment field of a fragment at `offset`. -/
theorem fragField_spec {offset : Nat} (remaining : Nat) (hoffset : offset < 2 ^ 16) :
    fragField true remaining offset < 2 ^ 16 ∧
      fragField true remaining offset * 8 % 2 ^ 16 = offset / 8 * 8 ∧
      (fragField true remaining offset).testBit 13 = decide (0 < remaining) := by
  have hunits : offset / 8 < 2 ^ 13 := by omega
  by_cases hmore : 0 < remaining
  · have hfield : fragField true remaining offset = 2 ^ 13 + offset / 8 := by
      have hor := Nat.two_pow_add_eq_or_of_lt hunits 1
      rw [Nat.mul_one] at hor
      rw [fragField, if_pos rfl, if_pos hmore, hor]
      rfl
    rw [hfield, decide_eq_true hmore, Nat.testBit_two_pow_add_eq, Nat.testBit_lt_two_pow hunits]
    exact ⟨by omega, by omega, rfl⟩
  · have hfield : fragField true remaining offset = offset / 8 := by
      rw [fragField, if_pos rfl, if_neg hmore, Nat.zero_shiftLeft, Nat.zero_or]
    rw [hfield, decide_eq_false hmore, Nat.testBit_lt_two_pow hunits]
    exact ⟨by omega, by omega, rfl⟩

/-- A header as the layer writes it has 20 bytes. -/
theorem length_ipHeader (d : Destination) (len frag : Nat) {csum : List UInt8} (h : csum.length = 2) :
    (ipHeader d len frag csum).length = 20 := by
  simp only [ipHeader, List.length_append, length_storeBe16, h, storeBe32, LittleEndian.length_encode,
    List.length_cons, List.length_nil]

/-- A fragment as its receiver sees it. -/
theorem headerOf_sendPkt (hw : HwFeatures) (d : Destination) (pkt : Packet) (remaining : Nat)
    {offset : Nat} (hlen : pkt.length + 20 < 2 ^ 16) (hoffset : offset < 2 ^ 16) :
    let f := sendPkt hw d true pkt remaining offset
    f.length = pkt.length + 20 ∧ (headerOf f).len = pkt.length + 20 ∧ dataLen f = pkt.length ∧
      f.drop (headerOf f).hdrLen = pkt ∧ (headerOf f).offset = offset / 8 * 8 ∧
      (headerOf f).mf = decide (0 < remaining) := by
  obtain ⟨hfield, hunits, hmf⟩ := fragField_spec remaining hoffset
  intro f
  obtain ⟨csum, hcsum, hf⟩ : ∃ csum : List UInt8, csum.length = 2 ∧
      f = ipHeader d (pkt.length + 20) (fragField true remaining offset) csum ++ pkt := by
    refine ⟨_, ?_, rfl⟩
    split
    · rfl
    · exact LittleEndian.length_encode _ _
  obtain ⟨hhdr, htotal, hfrag⟩ := headerOf_ipHeader d hlen hfield csum pkt
  have hsize := length_ipHeader d (pkt.length + 20) (fragField true remaining offset) hcsum
  rw [← hf] at hhdr htotal hfrag
  refine ⟨?_, htotal, ?_, ?_, ?_, ?_⟩
  · rw [hf, List.length_append, hsize, Nat.add_comm]
  · rw [dataLen, htotal, hhdr, Nat.add_sub_cancel]
  · rw [hhdr, hf]
    exact List.drop_left' hsize
  · rw [IpHdr.offset, hfrag, hunits]
  · rw [IpHdr.mf, hfrag, hmf]

/-! ### The loop -/

section
variable {hw : HwFeatures} {d : Destination} {p : Packet}

/-- When nothing is left, the loop sends nothing. -/
theorem sendLoop_zero (fuel offset : Nat) : sendLoop hw d p fuel 0 offset = .ok [] := by
  unfold sendLoop
  rw [if_pos rfl]

/-- One round of the loop. -/
theorem sendLoop_step {fuel remaining offset : Nat} (hmtu : 20 ≤ hw.mtu) (hmax : hw.mtu < 2 ^ 16)
    (hlen : p.length < 2 ^ 16) (hpos : 0 < remaining) (hall : offset + remaining = p.length) :
    sendLoop hw d p (fuel + 1) remaining offset =
      (sendLoop hw d p fuel (remaining - min (hw.mtu - 20) remaining)
        (offset + min (hw.mtu - 20) remaining)).map
        (sendPkt hw d true ((p.drop offset).take (min (hw.mtu - 20) remaining))
          (remaining - min (hw.mtu - 20) remaining) offset :: ·) := by
  have hsize : (hw.mtu + 2 ^ 16 - ipv4HdrLenMin) % 2 ^ 16 = hw.mtu - 20 := by
    simp only [ipv4HdrLenMin]
    omega
  have hnext : (offset + min (hw.mtu - 20) remaining) % 2 ^ 16 =
      offset + min (hw.mtu - 20) remaining := by
    apply Nat.mod_eq_of_lt
    omega
  rw [sendLoop, if_neg (by omega)]
  dsimp only
  rw [hsize, hnext, share, if_pos (by omega), ok_bind]
  cases sendLoop hw d p fuel (remaining - min (hw.mtu - 20) remaining)
    (offset + min (hw.mtu - 20) remaining) <;> rfl

/-- The loop ends. -/
theorem sendLoop_ends (d : Destination) (hmtu : 20 < hw.mtu) (hmax : hw.mtu < 2 ^ 16) (hlen : p.length < 2 ^ 16)
    {fuel remaining offset : Nat} (hfuel : remaining ≤ fuel) (hall : offset + remaining = p.length) :
    ∃ frags, sendLoop hw d p fuel remaining offset = .ok frags := by
  induction fuel generalizing remaining offset with
  | zero =>
    have hzero : remaining = 0 := by omega
    rw [hzero, sendLoop_zero]
    exact ⟨[], rfl⟩
  | succ fuel ih =>
    by_cases hpos : 0 < remaining
    · obtain ⟨frags, hfrags⟩ : ∃ frags, sendLoop hw d p fuel (remaining - min (hw.mtu - 20) remaining)
          (offset + min (hw.mtu - 20) remaining) = .ok frags := ih (by omega) (by omega)
      rw [sendLoop_step (by omega) hmax hlen hpos hall, hfrags]
      exact ⟨_, rfl⟩
    · have hzero : remaining = 0 := by omega
      rw [hzero, sendLoop_zero]
      exact ⟨[], rfl⟩

/-- The fragment of one round, when its offset is a number of units. -/
theorem fragmentAt_sendPkt (d : Destination) (remaining : Nat) {offset n : Nat} (hn : n + 20 ≤ hw.mtu) (hmax : hw.mtu < 2 ^ 16)
    (hlen : p.length < 2 ^ 16) (hall : offset + n ≤ p.length) (hunits : offset % 8 = 0) :
    FragmentAt hw.mtu p offset (sendPkt hw d true ((p.drop offset).take n) remaining offset) ∧
      dataLen (sendPkt hw d true ((p.drop offset).take n) remaining offset) = n := by
  have htake : ((p.drop offset).take n).length = n := by
    rw [List.length_take, List.length_drop]
    omega
  obtain ⟨hsize, htotal, hdata, hdrop, hstart, -⟩ := headerOf_sendPkt hw d
    ((p.drop offset).take n) remaining (show ((p.drop offset).take n).length + 20 < 2 ^ 16 by omega)
    (show offset < 2 ^ 16 by omega)
  rw [htake] at hsize htotal hdata
  refine ⟨⟨hsize.trans htotal.symm, by rw [hsize]; exact hn, ?_, ?_⟩, hdata⟩
  · rw [hstart]
    omega
  · rw [hdrop, hdata]

/-- From an offset in units on, with a size in units, the fragments tile the rest. -/
theorem sendLoop_tiles (hmtu : 20 < hw.mtu) (hmax : hw.mtu < 2 ^ 16) (hlen : p.length < 2 ^ 16)
    (hunits : (hw.mtu - 20) % 8 = 0) {fuel remaining offset : Nat} {frags : List Packet}
    (hpos : 0 < remaining) (hall : offset + remaining = p.length) (hoffset : offset % 8 = 0)
    (hrun : sendLoop hw d p fuel remaining offset = .ok frags) : Tiles hw.mtu p offset frags := by
  induction fuel generalizing remaining offset frags with
  | zero =>
    rw [sendLoop, if_neg (by omega)] at hrun
    cases hrun
  | succ fuel ih =>
    rw [sendLoop_step (by omega) hmax hlen hpos hall] at hrun
    obtain ⟨rest, hrest, rfl⟩ := map_eq_ok.mp hrun
    obtain ⟨hfrag, hdata⟩ := fragmentAt_sendPkt d (remaining - min (hw.mtu - 20) remaining)
      (show min (hw.mtu - 20) remaining + 20 ≤ hw.mtu by omega) hmax hlen (by omega) hoffset
    have hmf := (headerOf_sendPkt hw d ((p.drop offset).take (min (hw.mtu - 20) remaining))
      (remaining - min (hw.mtu - 20) remaining) (by rw [List.length_take]; omega)
      (show offset < 2 ^ 16 by omega)).2.2.2.2.2
    by_cases hmore : hw.mtu - 20 < remaining
    · have hmin : min (hw.mtu - 20) remaining = hw.mtu - 20 := by omega
      rw [hmin] at hrest hfrag hdata hmf ⊢
      refine .more hfrag (by rw [hmf]; exact decide_eq_true (by omega)) ?_
      rw [hdata]
      exact ih (by omega) (by omega) (by omega) hrest
    · -- The last round. The loop ends with the next test.
      have hmin : min (hw.mtu - 20) remaining = remaining := by omega
      rw [hmin, Nat.sub_self] at hrest hfrag hdata hmf ⊢
      rw [sendLoop_zero] at hrest
      cases hrest
      exact .last hfrag (by rw [hmf]; rfl) (by rw [hdata]; exact hall)

/-- The second fragment starts at `mtu - 20`. Its header says so only for a number of units. -/
theorem units_of_tiles (hmtu : 20 < hw.mtu) (hmax : hw.mtu < 2 ^ 16) (hlen : p.length < 2 ^ 16)
    (hmore : hw.mtu - 20 < p.length) {fuel : Nat} {frags : List Packet}
    (hfuel : p.length ≤ fuel) (hrun : sendLoop hw d p fuel p.length 0 = .ok frags)
    (htiles : Tiles hw.mtu p 0 frags) : (hw.mtu - 20) % 8 = 0 := by
  obtain ⟨fuel, rfl⟩ : ∃ k, fuel = k + 2 := ⟨fuel - 2, by omega⟩
  have hmin : min (hw.mtu - 20) p.length = hw.mtu - 20 := by omega
  rw [sendLoop_step (by omega) hmax hlen (by omega) (Nat.zero_add _), hmin, Nat.zero_add] at hrun
  obtain ⟨rest, hrest, rfl⟩ := map_eq_ok.mp hrun
  rw [sendLoop_step (by omega) hmax hlen (by omega) (by omega)] at hrest
  obtain ⟨rest', -, rfl⟩ := map_eq_ok.mp hrest
  have htake : ((p.drop 0).take (hw.mtu - 20)).length = hw.mtu - 20 := by
    rw [List.length_take, List.length_drop]
    omega
  obtain ⟨-, -, hdata, -, -, -⟩ := headerOf_sendPkt hw d ((p.drop 0).take (hw.mtu - 20))
    (p.length - (hw.mtu - 20)) (by omega) (show 0 < 2 ^ 16 by decide)
  rw [htake] at hdata
  cases htiles with
  | more _ _ htiles =>
    rw [hdata, Nat.zero_add] at htiles
    have hstart := htiles.start
    obtain ⟨-, -, -, -, hunits, -⟩ := headerOf_sendPkt hw d
      ((p.drop (hw.mtu - 20)).take (min (hw.mtu - 20) (p.length - (hw.mtu - 20))))
      (p.length - (hw.mtu - 20) - min (hw.mtu - 20) (p.length - (hw.mtu - 20)))
      (by rw [List.length_take]; omega) (show hw.mtu - 20 < 2 ^ 16 by omega)
    rw [hunits] at hstart
    omega

end

/-- A packet that needs fragmentation is cut in finitely many rounds. The fragments, read back through
their headers, tile it if and only if 8 divides the data size of a fragment. -/
theorem send_tiles_iff (fuel : Nat) (hw : HwFeatures) (d : Destination) (p : Packet)
    (hmtu : 68 ≤ hw.mtu) (hlen : 20 + p.length ≤ 65535)
    (hfrag : needsFrag p.length d.protoNum hw = true) (hfuel : p.length ≤ fuel) :
    ∃ frags, send fuel hw d p = .ok frags ∧ (Tiles hw.mtu p 0 frags ↔ (hw.mtu - 20) % 8 = 0) := by
  have hmore : hw.mtu < p.length + 20 := by
    rw [needsFrag] at hfrag
    split at hfrag
    · cases hfrag
    next hgt => exact Nat.not_le.mp hgt
  rw [send, if_pos hfrag, Nat.mod_eq_of_lt (by omega)]
  obtain ⟨frags, hfrags⟩ := sendLoop_ends d (show 20 < hw.mtu by omega) (by omega)
    (show p.length < 2 ^ 16 by omega) hfuel (Nat.zero_add _)
  refine ⟨frags, hfrags, fun htiles => ?_, fun hunits => ?_⟩
  · exact units_of_tiles (by omega) (by omega) (by omega) (by omega) hfuel hfrags htiles
  · exact sendLoop_tiles (by omega) (by omega) (by omega) hunits (by omega) (Nat.zero_add _) rfl hfrags

/-- A device with this MTU and no offload. -/
def plainDevice (mtu : Nat) : HwFeatures := ⟨mtu, false, false, false⟩

/-- UDP from 10.0.0.1 to 10.0.0.2. -/
def udpDestination : Destination := ⟨0x0a000001, 0x0a000002, 17⟩

/-- `send_tiles_iff` for an MTU whose payload is a multiple of 8. -/
theorem send_tiles_mtu_68 :
    ∃ frags, send 100 (plainDevice 68) udpDestination (List.replicate 100 7) = .ok frags ∧
      Tiles 68 (List.replicate 100 7) 0 frags := by
  obtain ⟨frags, hrun, hiff⟩ := send_tiles_iff 100 (plainDevice 68) udpDestination
    (List.replicate 100 7) (by decide) (by decide) (by decide) (by decide)
  exact ⟨frags, hrun, hiff.mpr (by decide)⟩

/-- With an MTU of 70, the second fragment carries the bytes from 50 on and says 48. -/
theorem not_send_tiles_mtu_70 :
    ∃ f g, send 60 (plainDevice 70) udpDestination (List.replicate 60 7) = .ok [f, g] ∧
      dataLen f = 50 ∧ (headerOf g).offset = 48 ∧ ¬Tiles 70 (List.replicate 60 7) 0 [f, g] := by
  refine ⟨sendPkt (plainDevice 70) udpDestination true (List.replicate 50 7) 10 0,
    sendPkt (plainDevice 70) udpDestination true (List.replicate 10 7) 0 50, by decide +kernel,
    by decide +kernel, by decide +kernel, fun htiles => ?_⟩
  cases htiles with
  | more _ _ htiles => exact absurd htiles.start (by decide +kernel)

end Netstar.Proofs.Net
