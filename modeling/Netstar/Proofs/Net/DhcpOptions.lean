import Mathlib.Data.List.Basic
import Netstar.Spec.Net.DhcpOptions

/-!
# `Netstar.Proofs.Net.DhcpOptions`: what `parse_options` reads

The loop takes the first byte at its offset for a type and the second one for a length, except for an
END. A PAD is one byte without a length, so the loop takes the byte behind it for the length of the
PAD. When this byte is another PAD, the length is zero, and the loop goes on behind both. So PADs do no
harm as long as they come in pairs (`parseLoop_items`). Behind a PAD without a partner the loop is out
of step with the options. Before the END it skips 255 bytes, and that also ends the loop when there are
not so many.

A value is read with the header of its type, which has a fixed size. The length byte only moves the
offset. When the length is smaller than the size, the value takes bytes from what follows the option,
unless the packet ends before.
-/

set_option autoImplicit false

namespace Netstar.Proofs.Net.Dhcp

open Netstar.Lib.LittleEndian (decode)
open Netstar.Spec.Net.Dhcp

/-- The packet gives the same `ip_info` with and without its PADs. A value is read only inside the
bytes of its option. The loop ends for every packet. -/
def ParsesRight (pre : List UInt8) (items : List OptItem) (post : List UInt8) (info : IpInfo) : Prop :=
  (∃ r r', parseOptions (optionPacket pre items post) pre.length info = some r ∧
    parseOptions (optionPacket pre (withoutPads items) post) pre.length info = some r' ∧
    r.1 = r'.1 ∧ ∀ x ∈ r.2, x.size ≤ x.len) ∧
  ∀ p off info', ∃ r, parseOptions p off info' = some r

/-- PADs come in pairs. One more may stand before the END if the packet ends soon. -/
def PadsPaired (post : List UInt8) : List OptItem → Prop
  | [] => True
  | [.pad] => post.length < 256
  | .pad :: .pad :: items => PadsPaired post items
  | .pad :: .field _ :: _ => False
  | .field _ :: items => PadsPaired post items

/-- The bytes of a known option are enough for its header, unless the packet ends inside the header. -/
def ValuesCovered (post : List UInt8) : List OptItem → Prop
  | [] => True
  | .pad :: items => ValuesCovered post items
  | .field o :: items =>
    (∀ size ∈ valueSize o.type, size ≤ o.value.length ∨
      (o.value ++ (encodeItems items ++ OptType.endMark :: post)).length < size) ∧
    ValuesCovered post items

/-! ### One option -/

/-- `get_header` reads from the rest of the packet. -/
theorem getHeader_eq {p rest : List UInt8} {off size : Nat} (hdrop : p.drop off = rest)
    (hsize : 0 < size) :
    getHeader p off size = if size ≤ rest.length then some (rest.take size) else none := by
  have hlen := List.length_drop (l := p) (i := off)
  rw [hdrop] at hlen
  rw [getHeader, hdrop]
  by_cases h : size ≤ rest.length
  · rw [if_pos h, if_neg (by omega)]
  · rw [if_neg h, if_pos (by omega)]

/-- The `switch` on an option, from the bytes behind its length byte. -/
def readValue (type : OptType) (len : Nat) (rest : List UInt8) (info : IpInfo) :
    IpInfo × List ValueRead :=
  match valueSize type with
  | none => (info, [])
  | some size =>
    if size ≤ rest.length then (info.store type (rest.take size), [⟨size, len⟩]) else (info, [])

/-- An option is read from what follows its type and its length. -/
theorem parseOption_eq {p rest : List UInt8} {off : Nat} {type len : UInt8}
    (hdrop : p.drop off = type :: len :: rest) (info : IpInfo) :
    parseOption p off type len.toNat info = readValue type len.toNat rest info := by
  rw [parseOption, readValue]
  cases valueSize type with
  | none => rfl
  | some size =>
    dsimp only
    rw [getHeader_eq hdrop (by omega), List.length_cons, List.length_cons, Nat.add_comm 2 size]
    by_cases h : size ≤ rest.length
    · rw [if_pos h, if_pos (by omega)]
      rfl
    · rw [if_neg h, if_neg (by omega)]

/-- The loop on an option that is not an END. -/
theorem parseLoop_option {p rest : List UInt8} {off fuel : Nat} {type len : UInt8}
    (hdrop : p.drop off = type :: len :: rest) (htype : type ≠ OptType.endMark) (info : IpInfo) :
    parseLoop p (fuel + 1) off info =
      (parseLoop p fuel (off + (2 + len.toNat)) (readValue type len.toNat rest info).1).map
        fun r => (r.1, (readValue type len.toNat rest info).2 ++ r.2) := by
  have hmark : ([type] : List UInt8).head? ≠ some OptType.endMark := fun h => htype (Option.some.inj h)
  rw [parseLoop, getHeader_eq hdrop Nat.one_pos, getHeader_eq hdrop Nat.two_pos,
    if_pos (by simp), if_pos (by simp)]
  show (if [type].head? = some OptType.endMark then _ else _) = _
  rw [if_neg hmark]
  rw [← parseOption_eq hdrop]
  rfl

/-- The end mark ends the loop. -/
theorem parseLoop_end {p rest : List UInt8} {off fuel : Nat}
    (hdrop : p.drop off = OptType.endMark :: rest) (info : IpInfo) :
    parseLoop p (fuel + 1) off info = some (info, []) := by
  rw [parseLoop, getHeader_eq hdrop Nat.one_pos, if_pos (by simp)]
  rfl

/-! ### The loop ends -/

/-- Each round takes two bytes at least. -/
theorem parseLoop_ends (p : List UInt8) (fuel off : Nat) (info : IpInfo)
    (h : p.length - off < fuel) : ∃ r, parseLoop p fuel off info = some r := by
  induction fuel generalizing off info with
  | zero => exact absurd h (Nat.not_lt_zero _)
  | succ fuel ih =>
    match hdrop : p.drop off with
    | [] =>
      rw [parseLoop, getHeader_eq hdrop Nat.one_pos, if_neg (by simp)]
      exact ⟨_, rfl⟩
    | [mark] =>
      rw [parseLoop, getHeader_eq hdrop Nat.one_pos, getHeader_eq hdrop Nat.two_pos,
        if_pos (by simp), if_neg (by simp)]
      dsimp only
      split
      · exact ⟨_, rfl⟩
      · exact ⟨_, rfl⟩
    | type :: len :: rest =>
      by_cases htype : type = OptType.endMark
      · exact ⟨_, parseLoop_end (htype ▸ hdrop) info⟩
      · have hlen := congrArg List.length hdrop
        rw [List.length_drop, List.length_cons, List.length_cons] at hlen
        obtain ⟨r, hr⟩ := ih (off + (2 + len.toNat)) (readValue type len.toNat rest info).1 (by omega)
        rw [parseLoop_option hdrop htype, hr]
        exact ⟨_, rfl⟩

/-- The parser ends on every packet. -/
theorem parseOptions_ends (p : List UInt8) (off : Nat) (info : IpInfo) :
    ∃ r, parseOptions p off info = some r :=
  parseLoop_ends p _ off info (Nat.lt_succ_of_le (Nat.sub_le _ _))

/-! ### Options and pairs of PADs -/

/-- The options, read one after the other. -/
def readItems (post : List UInt8) : List OptItem → IpInfo → IpInfo × List ValueRead
  | [], info => (info, [])
  | .pad :: items, info => readItems post items info
  | .field o :: items, info =>
    let r := readValue o.type o.value.length
      (o.value ++ (encodeItems items ++ OptType.endMark :: post)) info
    let rest := readItems post items r.1
    (rest.1, r.2 ++ rest.2)

/-- Every item takes at least one byte. -/
theorem length_le_encodeItems (items : List OptItem) : items.length ≤ (encodeItems items).length := by
  induction items with
  | nil => exact Nat.le_refl _
  | cons item items ih =>
    cases item with
    | pad => exact Nat.succ_le_succ ih
    | field o =>
      simp only [encodeItems, List.length_cons, List.length_append]
      omega

/-- When the PADs come in pairs, the loop reads the options. -/
theorem parseLoop_items {p post : List UInt8} {items : List OptItem} (h : PadsPaired post items)
    {fuel off : Nat} {info : IpInfo} (hfuel : items.length < fuel)
    (hdrop : p.drop off = encodeItems items ++ OptType.endMark :: post) :
    parseLoop p fuel off info = some (readItems post items info) := by
  induction items using PadsPaired.induct generalizing fuel off info with
  | case1 =>
    obtain ⟨fuel, rfl⟩ := Nat.exists_eq_succ_of_ne_zero (Nat.ne_of_gt hfuel)
    exact parseLoop_end hdrop info
  | case2 =>
    obtain ⟨fuel, rfl⟩ : ∃ n, fuel = n + 2 := ⟨fuel - 2, by simp at hfuel; omega⟩
    have hnext : p.drop (off + 257) = [] := by
      rw [← List.drop_drop, hdrop]
      exact List.drop_eq_nil_of_le (Nat.succ_le_succ (Nat.succ_le_of_lt h))
    -- The END is the length of the PAD.
    have hpad : p.drop off = OptType.pad :: OptType.endMark :: post := hdrop
    rw [parseLoop_option hpad (by decide)]
    show (parseLoop p (fuel + 1) (off + 257) info).map _ = _
    rw [parseLoop, getHeader_eq hnext Nat.one_pos, if_neg (by simp)]
    rfl
  | case3 items ih =>
    obtain ⟨fuel, rfl⟩ := Nat.exists_eq_succ_of_ne_zero (Nat.ne_of_gt (Nat.zero_lt_of_lt hfuel))
    have hnext : p.drop (off + 2) = encodeItems items ++ OptType.endMark :: post := by
      rw [← List.drop_drop, hdrop]
      rfl
    have hrest : parseLoop p fuel (off + 2) info = some (readItems post items info) :=
      ih h (by simp only [List.length_cons] at hfuel; omega) hnext
    -- The second PAD is the length of the first one.
    have hpad : p.drop off = OptType.pad :: 0 :: (encodeItems items ++ OptType.endMark :: post) := hdrop
    rw [Nat.succ_eq_add_one, parseLoop_option hpad (by decide)]
    show (parseLoop p fuel (off + 2) info).map _ = _
    rw [hrest]
    rfl
  | case4 o items => exact h.elim
  | case5 o items ih =>
    obtain ⟨fuel, rfl⟩ := Nat.exists_eq_succ_of_ne_zero (Nat.ne_of_gt (Nat.zero_lt_of_lt hfuel))
    have hlen : (UInt8.ofNat o.value.length).toNat = o.value.length := by
      rw [UInt8.toNat_ofNat', Nat.mod_eq_of_lt o.short]
    have hdrop' : p.drop off = o.type :: UInt8.ofNat o.value.length ::
        (o.value ++ (encodeItems items ++ OptType.endMark :: post)) := by
      rw [hdrop, encodeItems, List.cons_append, List.cons_append, List.append_assoc]
    have hnext : p.drop (off + (2 + o.value.length)) =
        encodeItems items ++ OptType.endMark :: post := by
      rw [← List.drop_drop, hdrop', Nat.add_comm 2]
      exact List.drop_left
    rw [Nat.succ_eq_add_one, parseLoop_option hdrop' o.notEnd, hlen,
      ih h (Nat.lt_of_succ_lt_succ hfuel) hnext]
    rfl

/-- Options whose PADs come in pairs are read as they are written. -/
theorem parseOptions_items {pre post : List UInt8} {items : List OptItem} (h : PadsPaired post items)
    (info : IpInfo) :
    parseOptions (optionPacket pre items post) pre.length info = some (readItems post items info) := by
  have hlen := length_le_encodeItems items
  refine parseLoop_items h ?_ List.drop_left
  rw [optionPacket, List.length_append, List.length_append]
  omega

/-- Without PADs there is no PAD to follow. -/
theorem padsPaired_withoutPads (post : List UInt8) (items : List OptItem) :
    PadsPaired post (withoutPads items) := by
  induction items with
  | nil => exact trivial
  | cons item items ih =>
    cases item with
    | pad => exact ih
    | field o => exact ih

/-! ### The values -/

/-- Without its PADs a packet is not longer. -/
theorem length_encodeItems_withoutPads (items : List OptItem) :
    (encodeItems (withoutPads items)).length ≤ (encodeItems items).length := by
  induction items with
  | nil => exact Nat.le_refl _
  | cons item items ih =>
    cases item with
    | pad => exact Nat.le_succ_of_le ih
    | field o =>
      simp only [encodeItems, withoutPads, List.length_cons, List.length_append]
      omega

/-- A value that its option covers does not depend on what follows the option. -/
theorem readValue_covered {type : OptType} {value rest rest' : List UInt8}
    (h : ∀ size ∈ valueSize type, size ≤ value.length ∨ (value ++ rest).length < size)
    (hlen : rest'.length ≤ rest.length) (info : IpInfo) :
    (readValue type value.length (value ++ rest) info).1 =
      (readValue type value.length (value ++ rest') info).1 := by
  unfold readValue
  cases hsize : valueSize type with
  | none => rfl
  | some size =>
    dsimp only
    rcases h size hsize with hcovered | hend
    · rw [if_pos (by simp; omega), if_pos (by simp; omega), List.take_append_of_le_length hcovered,
        List.take_append_of_le_length hcovered]
    · rw [List.length_append] at hend
      rw [if_neg (by simp; omega), if_neg (by simp; omega)]

/-- The values that are read lie inside their options, exactly when the options cover them. -/
theorem readValue_inside_iff (type : OptType) (value rest : List UInt8) (info : IpInfo) :
    (∀ x ∈ (readValue type value.length (value ++ rest) info).2, x.size ≤ x.len) ↔
      ∀ size ∈ valueSize type, size ≤ value.length ∨ (value ++ rest).length < size := by
  unfold readValue
  cases valueSize type with
  | none => exact iff_of_true (fun x hx => absurd hx List.not_mem_nil) fun size hsize => nomatch hsize
  | some n =>
    dsimp only
    split
    · rename_i hfits
      constructor
      · intro h size hsize
        cases hsize
        exact .inl (h _ (List.mem_singleton_self _))
      · intro h x hx
        rw [List.mem_singleton.mp hx]
        exact (h n rfl).resolve_right (Nat.not_lt.mpr hfits)
    · rename_i hend
      refine iff_of_true (fun x hx => absurd hx List.not_mem_nil) fun size hsize => ?_
      cases hsize
      exact .inr (Nat.not_le.mp hend)

/-- Every value is read inside its option exactly when the values are long enough. -/
theorem readItems_inside_iff (post : List UInt8) (items : List OptItem) (info : IpInfo) :
    (∀ x ∈ (readItems post items info).2, x.size ≤ x.len) ↔ ValuesCovered post items := by
  induction items generalizing info with
  | nil => exact iff_of_true (fun x hx => absurd hx List.not_mem_nil) trivial
  | cons item items ih =>
    cases item with
    | pad => exact ih info
    | field o =>
      simp only [readItems, ValuesCovered, List.forall_mem_append]
      rw [readValue_inside_iff, ih]

/-- Options that cover their values give the same `ip_info` without the PADs. -/
theorem readItems_withoutPads {post : List UInt8} {items : List OptItem}
    (h : ValuesCovered post items) (info : IpInfo) :
    (readItems post items info).1 = (readItems post (withoutPads items) info).1 := by
  induction items generalizing info with
  | nil => rfl
  | cons item items ih =>
    cases item with
    | pad => exact ih h info
    | field o =>
      obtain ⟨hvalue, hitems⟩ := h
      have hlen := length_encodeItems_withoutPads items
      simp only [readItems, withoutPads]
      have hle : (encodeItems (withoutPads items) ++ OptType.endMark :: post).length ≤
          (encodeItems items ++ OptType.endMark :: post).length := by
        simp only [List.length_append]
        omega
      rw [readValue_covered hvalue hle]
      exact ih hitems _

/-! ### The option areas -/

/-- When the PADs come in pairs, `parse_options` reads the options right exactly when each known option
covers the value that is read from it. -/
theorem parsesRight_iff {items : List OptItem} {post : List UInt8} (h : PadsPaired post items)
    (pre : List UInt8) (info : IpInfo) : ParsesRight pre items post info ↔ ValuesCovered post items := by
  have hitems : parseOptions (optionPacket pre items post) pre.length info =
      some (readItems post items info) := parseOptions_items h info
  have hwithout : parseOptions (optionPacket pre (withoutPads items) post) pre.length info =
      some (readItems post (withoutPads items) info) :=
    parseOptions_items (padsPaired_withoutPads post items) info
  constructor
  · rintro ⟨⟨r, r', hr, -, -, hinside⟩, -⟩
    obtain rfl := Option.some.inj (hitems.symm.trans hr)
    exact (readItems_inside_iff post items info).mp hinside
  · intro hcovered
    exact ⟨⟨_, _, hitems, hwithout, readItems_withoutPads hcovered info,
      (readItems_inside_iff post items info).mpr hcovered⟩, parseOptions_ends⟩

/-- An option with the message type of an offer. -/
def offerOption : OptionField := ⟨OptType.messageType, [2], by decide, by decide, by decide⟩

/-- Nothing is known yet. -/
def noInfo : IpInfo := ⟨0, 0, 0, 0, 0, [], 0, 0, 0, 0, 0⟩

/-- An offer between two pairs of PADs. -/
theorem parsesRight_of_pairs :
    PadsPaired [] [.pad, .pad, .field offerOption, .pad, .pad] ∧
      (ParsesRight [] [.pad, .pad, .field offerOption, .pad, .pad] [] noInfo ↔
        ValuesCovered [] [.pad, .pad, .field offerOption, .pad, .pad]) := by
  have hpaired : PadsPaired [] [.pad, .pad, .field offerOption, .pad, .pad] := by
    simp only [PadsPaired]
  exact ⟨hpaired, parsesRight_iff hpaired [] noInfo⟩

/-- One PAD before an offer hides it. -/
theorem not_parsesRight_of_pad :
    ¬∀ (pre : List UInt8) (items : List OptItem) (post : List UInt8) (info : IpInfo),
      ParsesRight pre items post info := by
  intro h
  obtain ⟨⟨r, r', hr, hr', hsame, -⟩, -⟩ := h [] [.pad, .field offerOption] [] noInfo
  have htype : parseOptions (optionPacket [] [.pad, .field offerOption] []) 0 noInfo =
      some (noInfo, []) := by decide
  have htype' : parseOptions (optionPacket [] (withoutPads [.pad, .field offerOption]) []) 0 noInfo =
      some ({ noInfo with type := 2 }, [⟨1, 1⟩]) := by decide
  obtain rfl := Option.some.inj (htype.symm.trans hr)
  obtain rfl := Option.some.inj (htype'.symm.trans hr')
  exact absurd hsame (by decide)

end Netstar.Proofs.Net.Dhcp
