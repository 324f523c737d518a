import Netstar.Lib.ChunkedCoding

/-!
# `Netstar.Lib.JsonText`: JSON texts

`parse` reads a JSON text, which is a list of bytes. It follows the grammar of JSON: white space
between tokens, numbers without leading zeros, strings in UTF-8 with escapes and without control
characters. A number `m` with an exponent `e` is kept as `m * 10 ^ e`, and an object keeps its
members in the order of the text. The recursion has fuel, and the length of the text is enough.

The rules are those for texts that are put together from parts without escapes. A `Part` is a text
with the value that it is to be read as, and `Part.Reads` says under which condition it is. A string
that was put between quotes is read back exactly when it has no quote, backslash or control
character and is UTF-8 (`reads_string`), and an array or object exactly when all of its parts are
(`reads_array`, `reads_object`).
-/

set_option autoImplicit false

namespace Netstar.Lib.JsonText

open Netstar.Lib.ChunkedCoding (hexValue)

/-- A JSON value. -/
inductive Json where
  | null
  | bool (b : Bool)
  | number (mantissa exponent : Int)
  | string (s : List UInt8)
  | array (items : List Json)
  | object (members : List (List UInt8 × Json))

/-! ### Characters -/

/-- The double quote. -/
def quote : UInt8 := 34

/-- The comma between elements. -/
def comma : UInt8 := 44

/-- The colon behind a name. -/
def colon : UInt8 := 58

/-- The bracket that opens an array. -/
def openBracket : UInt8 := 91

/-- The backslash of an escape. -/
def backslash : UInt8 := 92

/-- The bracket that closes an array. -/
def closeBracket : UInt8 := 93

/-- The brace that opens an object. -/
def openBrace : UInt8 := 123

/-- The brace that closes an object. -/
def closeBrace : UInt8 := 125

/-- The white space of a text: blank, tab, line feed and carriage return. -/
def isSpace (b : UInt8) : Bool := b = 32 || b = 9 || b = 10 || b = 13

/-- The decimal digits. -/
def isDigit (b : UInt8) : Bool := 48 ≤ b && b ≤ 57

/-- A byte that stands for itself in a string. -/
def isPlain (b : UInt8) : Bool := 32 ≤ b && b ≠ quote && b ≠ backslash

/-- The bytes behind the first one of a UTF-8 sequence. -/
def isContinuation (b : UInt8) : Bool := 128 ≤ b && b ≤ 191

/-- The bytes are UTF-8. -/
def isUtf8 : List UInt8 → Bool
  | [] => true
  | a :: rest =>
    if a < 128 then isUtf8 rest
    else
      match rest with
      | [] => false
      | b :: rest =>
        if 194 ≤ a && a ≤ 223 then isContinuation b && isUtf8 rest
        else
          match rest with
          | [] => false
          | c :: rest =>
            if a = 224 then 160 ≤ b && b ≤ 191 && isContinuation c && isUtf8 rest
            else if a = 237 then 128 ≤ b && b ≤ 159 && isContinuation c && isUtf8 rest
            else if 225 ≤ a && a ≤ 239 then isContinuation b && isContinuation c && isUtf8 rest
            else
              match rest with
              | [] => false
              | d :: rest =>
                ((a = 240 && 144 ≤ b && b ≤ 191) || (241 ≤ a && a ≤ 243 && isContinuation b) ||
                  (a = 244 && 128 ≤ b && b ≤ 143)) &&
                  isContinuation c && isContinuation d && isUtf8 rest

/-! ### The parser -/

/-- The text behind its leading white space. -/
def skipSpace (t : List UInt8) : List UInt8 := t.dropWhile isSpace

/-- The number of four hexadecimal digits. -/
def hexFour (a b c d : UInt8) : Option Nat := do
  let a ← hexValue a
  let b ← hexValue b
  let c ← hexValue c
  let d ← hexValue d
  return 4096 * a + 256 * b + 16 * c + d

/-- The escapes of one character. -/
def simpleEscape (b : UInt8) : Option UInt8 :=
  if b = quote || b = backslash || b = 47 then some b
  else if b = 98 then some 8
  else if b = 102 then some 12
  else if b = 110 then some 10
  else if b = 114 then some 13
  else if b = 116 then some 9
  else none

/-- The UTF-8 bytes of a code point. -/
def encodePoint (n : Nat) : List UInt8 := String.utf8EncodeChar (Char.ofNat n)

/-- What follows a backslash: the bytes it stands for, and the rest. -/
def escaped : List UInt8 → Option (List UInt8 × List UInt8)
  | [] => none
  | e :: t =>
    if e = 117 then
      match t with
      | a :: b :: c :: d :: t => do
        let high ← hexFour a b c d
        if 0xD800 ≤ high && high < 0xDC00 then
          match t with
          | s :: u :: a :: b :: c :: d :: t => do
            let low ← hexFour a b c d
            if s = backslash && u = 117 && 0xDC00 ≤ low && low < 0xE000 then
              some (encodePoint (0x10000 + 1024 * (high - 0xD800) + (low - 0xDC00)), t)
            else none
          | _ => none
        else if 0xDC00 ≤ high && high < 0xE000 then none
        else some (encodePoint high, t)
      | _ => none
    else (simpleEscape e).map fun b => ([b], t)

/-- One character of a string. -/
def stringItem : List UInt8 → Option (List UInt8 × List UInt8)
  | [] => none
  | b :: t =>
    if b = backslash then escaped t else if isPlain b then some ([b], t) else none

/-- A string from behind its first quote. -/
def stringBody : Nat → List UInt8 → Option (List UInt8 × List UInt8)
  | 0, _ => none
  | n + 1, t =>
    if t.head? = some quote then some ([], t.tail)
    else do
      let (item, t) ← stringItem t
      let (items, t) ← stringBody n t
      return (item ++ items, t)

/-- A string, with its quotes. -/
def string (t : List UInt8) : Option (List UInt8 × List UInt8) := do
  let (s, t) ← stringBody (t.length + 1) t
  if isUtf8 s then some (s, t) else none

/-- The number of a list of digits. -/
def ofDigits (ds : List UInt8) : Nat := ds.foldl (fun n d => 10 * n + (d.toNat - 48)) 0

/-- At least one digit. -/
def digits (t : List UInt8) : Option (List UInt8 × List UInt8) :=
  let ds := t.takeWhile isDigit
  if ds = [] then none else some (ds, t.dropWhile isDigit)

/-- The fraction of a number, if there is one. -/
def fraction (t : List UInt8) : Option (List UInt8 × List UInt8) :=
  if t.head? = some 46 then digits t.tail else some ([], t)

/-- The exponent of a number, if there is one. -/
def exponent (t : List UInt8) : Option (Int × List UInt8) :=
  if t.head? = some 101 || t.head? = some 69 then
    if t.tail.head? = some 45 then (digits t.tail.tail).map fun r => (-(ofDigits r.1 : Int), r.2)
    else if t.tail.head? = some 43 then (digits t.tail.tail).map fun r => ((ofDigits r.1 : Int), r.2)
    else (digits t.tail).map fun r => ((ofDigits r.1 : Int), r.2)
  else some (0, t)

/-- A number: sign, digits, fraction and exponent. -/
def number (t : List UInt8) : Option (Json × List UInt8) := do
  let minus := t.head? = some 45
  let (ds, t) ← digits (if minus then t.tail else t)
  if ds.head? = some 48 && ds.length ≠ 1 then none
  let (fs, t) ← fraction t
  let (e, t) ← exponent t
  let mantissa : Int := ofDigits (ds ++ fs)
  return (.number (if minus then -mantissa else mantissa) (e - fs.length), t)

/-- A word such as `true`. -/
def word (w : List UInt8) (j : Json) (t : List UInt8) : Option (Json × List UInt8) :=
  if w.isPrefixOf t then some (j, t.drop w.length) else none

mutual

/-- A value, which may have white space before it. -/
def value : Nat → List UInt8 → Option (Json × List UInt8)
  | 0, _ => none
  | n + 1, t =>
    match skipSpace t with
    | [] => none
    | b :: t =>
      if b = quote then (string t).map fun r => (.string r.1, r.2)
      else if b = openBracket then
        if (skipSpace t).head? = some closeBracket then some (.array [], (skipSpace t).tail)
        else (items n t).map fun r => (.array r.1, r.2)
      else if b = openBrace then
        if (skipSpace t).head? = some closeBrace then some (.object [], (skipSpace t).tail)
        else (members n t).map fun r => (.object r.1, r.2)
      else if b = 116 then word [116, 114, 117, 101] (.bool true) (b :: t)
      else if b = 102 then word [102, 97, 108, 115, 101] (.bool false) (b :: t)
      else if b = 110 then word [110, 117, 108, 108] .null (b :: t)
      else number (b :: t)

/-- The items of an array and the bracket behind them. -/
def items : Nat → List UInt8 → Option (List Json × List UInt8)
  | 0, _ => none
  | n + 1, t => do
    let (j, t) ← value n t
    match skipSpace t with
    | [] => none
    | b :: t =>
      if b = comma then (items n t).map fun r => (j :: r.1, r.2)
      else if b = closeBracket then some ([j], t)
      else none

/-- The members of an object and the brace behind them. -/
def members : Nat → List UInt8 → Option (List (List UInt8 × Json) × List UInt8)
  | 0, _ => none
  | n + 1, t =>
    match skipSpace t with
    | [] => none
    | q :: t =>
      if q = quote then do
        let (name, t) ← string t
        match skipSpace t with
        | [] => none
        | c :: t =>
          if c = colon then do
            let (j, t) ← value n t
            match skipSpace t with
            | [] => none
            | b :: t =>
              if b = comma then (members n t).map fun r => ((name, j) :: r.1, r.2)
              else if b = closeBrace then some ([(name, j)], t)
              else none
          else none
      else none

end

/-- A whole JSON text. -/
def parse (t : List UInt8) : Option Json := do
  let (j, rest) ← value (t.length + 1) t
  if skipSpace rest = [] then some j else none

/-! ### Strings -/

/-- ASCII is UTF-8. -/
theorem isUtf8_of_ascii {s : List UInt8} (h : s.all (· < 128) = true) : isUtf8 s = true := by
  induction s with
  | nil => rfl
  | cons b s ih =>
    rw [List.all_cons, Bool.and_eq_true, decide_eq_true_eq] at h
    rw [isUtf8.eq_def]
    show (if b < 128 then isUtf8 s else _) = true
    rw [if_pos h.1]
    exact ih h.2

/-- A code point takes at most four bytes. -/
theorem encodePoint_length (n : Nat) : (encodePoint n).length ≤ 4 := by
  rw [encodePoint, String.length_utf8EncodeChar]
  exact Char.utf8Size_le_four _

/-- A quote is no hexadecimal digit. -/
theorem quote_not_mem_of_hexFour {a b c d : UInt8} {n : Nat} (h : hexFour a b c d = some n) :
    quote ∉ [a, b, c, d] := by
  have hquote : hexValue quote = none := by decide
  simp only [hexFour, Option.bind_eq_bind, Option.bind_eq_some_iff] at h
  obtain ⟨_, ha, _, hb, _, hc, _, hd, _⟩ := h
  have hne : ∀ {x : UInt8} {v : Nat}, hexValue x = some v → quote ≠ x := by
    rintro x v hx rfl
    rw [hquote] at hx
    exact absurd hx (by simp)
  simp [hne ha, hne hb, hne hc, hne hd]

/-- An escape is longer than what it stands for. It has a quote in it only when it stands for it. -/
theorem escaped_some {t o rest : List UInt8} (h : escaped t = some (o, rest)) :
    ∃ c, t = c ++ rest ∧ o.length ≤ c.length ∧ (o = [quote] ∨ quote ∉ c) := by
  have hu : quote ≠ 117 := by decide
  have hbackslash : quote ≠ backslash := by decide
  rw [escaped.eq_def] at h
  split at h
  · cases h
  case h_2 e t =>
  split at h
  case isTrue he =>
    subst he
    split at h
    case h_2 => cases h
    case h_1 a b c d t =>
    simp only [Option.bind_eq_bind, Option.bind_eq_some_iff] at h
    obtain ⟨high, hhigh, h⟩ := h
    have hfirst := quote_not_mem_of_hexFour hhigh
    split at h
    case isTrue =>
      -- two surrogates
      split at h
      case h_2 => cases h
      case h_1 s u a' b' c' d' t =>
      simp only [Option.bind_eq_some_iff] at h
      obtain ⟨low, hlow, h⟩ := h
      have hsecond := quote_not_mem_of_hexFour hlow
      split at h
      case isFalse => cases h
      case isTrue hsu =>
      simp only [Bool.and_eq_true, decide_eq_true_eq] at hsu
      obtain ⟨⟨⟨rfl, rfl⟩, -⟩, -⟩ := hsu
      generalize 0x10000 + 1024 * (high - 0xD800) + (low - 0xDC00) = point at h
      cases h
      refine ⟨117 :: [a, b, c, d] ++ (backslash :: 117 :: [a', b', c', d']), rfl, ?_, Or.inr ?_⟩
      · exact Nat.le_trans (encodePoint_length _) (by simp)
      · simp only [List.mem_append, List.mem_cons] at hfirst hsecond ⊢
        tauto
    case isFalse =>
      split at h
      · cases h
      · cases h
        refine ⟨117 :: [a, b, c, d], rfl, ?_, Or.inr ?_⟩
        · exact Nat.le_trans (encodePoint_length _) (by simp)
        · simp only [List.mem_cons] at hfirst ⊢
          tauto
  case isFalse =>
    rw [Option.map_eq_some_iff] at h
    obtain ⟨b, hb, h⟩ := h
    cases h
    refine ⟨[e], rfl, Nat.le_refl 1, ?_⟩
    by_cases he : e = quote
    · subst he
      rw [show simpleEscape quote = some quote from rfl] at hb
      cases hb
      exact Or.inl rfl
    · exact Or.inr (by simpa using Ne.symm he)

/-- A string that stands for its own bytes. -/
def isPlainText (s : List UInt8) : Bool := s.all isPlain

/-- A character is as long as what it stands for only when it stands for itself. It has a quote in
it only when it stands for the quote. -/
theorem stringItem_some {t o rest : List UInt8} (h : stringItem t = some (o, rest)) :
    ∃ c, t = c ++ rest ∧ o.length ≤ c.length ∧ (o = [quote] ∨ quote ∉ c) ∧
      (o.length = c.length → isPlainText c = true) := by
  rw [stringItem.eq_def] at h
  split at h
  · cases h
  case h_2 b t =>
  split at h
  case isTrue hb =>
    subst hb
    obtain ⟨c, rfl, hlength, hquote⟩ := escaped_some h
    have hbackslash : quote ≠ backslash := by decide
    refine ⟨backslash :: c, rfl, Nat.le_succ_of_le hlength, hquote.imp_right ?_, ?_⟩
    · intro hc hmem
      rcases List.mem_cons.mp hmem with heq | hmem
      · exact hbackslash heq
      · exact hc hmem
    · intro heq
      rw [List.length_cons] at heq
      omega
  case isFalse =>
    split at h
    case isTrue hb =>
      cases h
      have hquote : quote ≠ b := by
        rintro rfl
        exact absurd hb (by decide)
      refine ⟨[b], rfl, Nat.le_refl 1, Or.inr (by simpa using hquote), ?_⟩
      intro _
      rw [isPlainText, List.all_cons, hb]
      rfl
    case isFalse => cases h

/-- The bytes before the first quote of a text are the beginning of any bytes without a quote. -/
theorem append_quote_split {r rest c t : List UInt8} (hc : quote ∉ c)
    (h : r ++ quote :: rest = c ++ t) : ∃ r', r = c ++ r' ∧ t = r' ++ quote :: rest := by
  rcases List.append_eq_append_iff.mp h with ⟨c', rfl, hc'⟩ | ⟨r', rfl, ht⟩
  · cases c' with
    | nil => exact ⟨[], (List.append_nil _).symm.trans (by simp), by simpa using hc'.symm⟩
    | cons b c' =>
      rw [List.cons_append, List.cons.injEq] at hc'
      exact absurd (by simp [hc'.1]) hc
  · exact ⟨r', rfl, ht⟩

/-- The reader is `w` ahead of what it has put out, and the text up to the quote is to be put out
too, with `e` behind it. It never catches up: an escape is longer than what it stands for. -/
theorem plain_of_stringBody {n : Nat} {w r e rest rest' : List UInt8} (hw : quote ∉ w)
    (h : stringBody n (r ++ quote :: rest) = some (w ++ (r ++ e), rest')) :
    w = [] ∧ isPlainText r = true ∧ e = [] ∧ rest' = rest := by
  induction n generalizing w r with
  | zero => cases h
  | succ n ih =>
    rw [stringBody] at h
    split at h
    case isTrue hhead =>
      simp only [Option.some.injEq, Prod.mk.injEq] at h
      obtain ⟨hout, htail⟩ := h
      obtain ⟨hw, hre⟩ := List.append_eq_nil_iff.mp hout.symm
      obtain ⟨rfl, rfl⟩ := List.append_eq_nil_iff.mp hre
      exact ⟨hw, rfl, rfl, htail.symm⟩
    case isFalse hhead =>
      simp only [Option.bind_eq_bind, Option.bind_eq_some_iff, Prod.exists] at h
      obtain ⟨o, t, hitem, out, t', hbody, h⟩ := h
      simp only [Option.pure_def, Option.some.injEq, Prod.mk.injEq] at h
      obtain ⟨hout, rfl⟩ := h
      obtain ⟨c, htext, hlength, hquote, hplain⟩ := stringItem_some hitem
      rcases hquote with rfl | hc
      · -- a quote is put out, but the next byte to be put out is none
        exfalso
        cases w with
        | cons a w =>
          rw [List.singleton_append, List.cons_append, List.cons.injEq] at hout
          exact hw (by simp [hout.1])
        | nil =>
          cases r with
          | nil => exact hhead rfl
          | cons a r =>
            rw [List.singleton_append, List.nil_append, List.cons_append, List.cons.injEq] at hout
            exact hhead (by simp [hout.1])
      · obtain ⟨r, rfl, rfl⟩ := append_quote_split hc htext
        -- What the item stands for is not longer than its text, so it lies in what is ahead.
        have hahead : o <+: w ++ c := by
          have hprefix : o <+: (w ++ c) ++ (r ++ e) := ⟨out, by simpa using hout⟩
          exact List.prefix_of_prefix_length_le hprefix (List.prefix_append _ _)
            (by rw [List.length_append]; omega)
        obtain ⟨w', hw'⟩ := hahead
        have hrest : out = w' ++ (r ++ e) := by
          have heq : o ++ out = o ++ (w' ++ (r ++ e)) := by
            rw [hout, ← List.append_assoc o, hw']
            simp
          exact List.append_cancel_left heq
        have hquote' : quote ∉ w' := by
          intro hmem
          have : quote ∈ w ++ c := by rw [← hw']; exact List.mem_append_right _ hmem
          rcases List.mem_append.mp this with hmem | hmem
          · exact hw hmem
          · exact hc hmem
        rw [hrest] at hbody
        obtain ⟨rfl, hr, rfl, rfl⟩ := ih hquote' hbody
        have hlen := congrArg List.length hw'
        rw [List.append_nil, List.length_append] at hlen
        -- An escape would leave the reader further ahead, and in the end there is nothing ahead.
        have hwlen : w.length = 0 := by omega
        refine ⟨List.length_eq_zero_iff.mp hwlen, ?_, rfl, rfl⟩
        rw [isPlainText, List.all_append, Bool.and_eq_true]
        exact ⟨hplain (by omega), hr⟩

/-- The bytes of a plain string are read as they are. -/
theorem stringBody_plain {n : Nat} {s : List UInt8} (hs : isPlainText s = true) (hn : s.length < n)
    (rest : List UInt8) : stringBody n (s ++ quote :: rest) = some (s, rest) := by
  induction n generalizing s with
  | zero => exact absurd hn (Nat.not_lt_zero _)
  | succ n ih =>
    cases s with
    | nil => rfl
    | cons b s =>
      rw [isPlainText, List.all_cons, Bool.and_eq_true] at hs
      obtain ⟨hb, hs⟩ := hs
      have hb' := hb
      simp only [isPlain, Bool.and_eq_true, decide_eq_true_eq] at hb'
      obtain ⟨⟨-, hquote⟩, hbackslash⟩ := hb'
      have hrest := ih hs (Nat.lt_of_succ_lt_succ hn)
      simp only [stringBody, List.cons_append, List.head?_cons, Option.some.injEq, hquote, if_false,
        stringItem, hbackslash, if_pos hb, Option.bind_eq_bind, Option.bind_some, hrest]
      rfl

/-- When a string is read back that was put in front of a quote, and cut off before `e`. -/
theorem string_eq_some_iff {s e rest rest' : List UInt8} :
    string (s ++ quote :: rest) = some (s ++ e, rest') ↔
      (isPlainText s = true ∧ isUtf8 s = true ∧ e = []) ∧ rest' = rest := by
  simp only [string, Option.bind_eq_bind, Option.bind_eq_some_iff, Prod.exists]
  constructor
  · rintro ⟨s', t, hbody, h⟩
    split at h
    case isFalse => cases h
    case isTrue hutf =>
      simp only [Option.some.injEq, Prod.mk.injEq] at h
      obtain ⟨rfl, rfl⟩ := h
      obtain ⟨-, hplain, rfl, rfl⟩ := plain_of_stringBody (w := []) (by simp) hbody
      rw [List.append_nil] at hutf
      exact ⟨⟨hplain, hutf, rfl⟩, rfl⟩
  · rintro ⟨⟨hplain, hutf, rfl⟩, rfl⟩
    refine ⟨s, _, stringBody_plain hplain ?_ _, ?_⟩
    · rw [List.length_append, List.length_cons]
      omega
    · rw [if_pos hutf, List.append_nil]

/-! ### Numbers -/

/-- A decimal digit. -/
def decimalDigit (d : Nat) : UInt8 := d.digitChar.toNat.toUInt8

/-- A number in decimal digits, without leading zeros. -/
def decimal (n : Nat) : List UInt8 := (Nat.toDigits 10 n).map fun c => c.toNat.toUInt8

/-- The decimal digits of an integer, with a sign when it is negative. -/
def decimalInt : Int → List UInt8
  | .ofNat n => decimal n
  | .negSucc n => 45 :: decimal (n + 1)

/-- A number of two digits or more ends with its last one. -/
theorem decimal_of_le {n : Nat} (h : 10 ≤ n) :
    decimal n = decimal (n / 10) ++ [decimalDigit (n % 10)] := by
  rw [decimal, Nat.toDigits_of_base_le (by decide) h, List.map_append]
  rfl

/-- A number under 10 is one digit. -/
theorem decimal_of_lt {n : Nat} (h : n < 10) : decimal n = [decimalDigit n] := by
  rw [decimal, Nat.toDigits_of_lt_base h]
  rfl

/-- A decimal digit is a digit. -/
theorem isDigit_decimalDigit : ∀ d < 10, isDigit (decimalDigit d) = true := by decide

/-- A decimal digit is read back. -/
theorem decimalDigit_toNat : ∀ d < 10, (decimalDigit d).toNat - 48 = d := by decide

/-- Only the digit of zero is `0`. -/
theorem decimalDigit_ne_zero : ∀ d < 10, 0 < d → decimalDigit d ≠ 48 := by decide

/-- The digits of a number. The induction follows them from the last one on. -/
theorem decimal_spec (n : Nat) :
    (decimal n).all isDigit = true ∧ ofDigits (decimal n) = n ∧ decimal n ≠ [] ∧
      (0 < n → (decimal n).head? ≠ some 48) := by
  induction n using Nat.strongRecOn with
  | ind n ih =>
    rcases Nat.lt_or_ge n 10 with hlt | hge
    · rw [decimal_of_lt hlt]
      refine ⟨?_, ?_, by simp, fun hpos => ?_⟩
      · rw [List.all_cons, isDigit_decimalDigit n hlt]
        rfl
      · rw [ofDigits, List.foldl_cons, List.foldl_nil, decimalDigit_toNat n hlt]
        omega
      · rw [List.head?_cons]
        exact fun h => decimalDigit_ne_zero n hlt hpos (Option.some.inj h)
    · have hdigit : n % 10 < 10 := Nat.mod_lt n (by decide)
      obtain ⟨hall, hvalue, hne, hhead⟩ := ih (n / 10) (by omega)
      rw [decimal_of_le hge]
      refine ⟨?_, ?_, by simp, fun _ => ?_⟩
      · rw [List.all_append, hall, List.all_cons, isDigit_decimalDigit _ hdigit]
        rfl
      · rw [ofDigits, List.foldl_append, ← ofDigits, hvalue, List.foldl_cons, List.foldl_nil,
          decimalDigit_toNat _ hdigit, Nat.div_add_mod]
      · rw [List.head?_append_of_ne_nil _ hne]
        exact hhead (by omega)

/-- The text ends, or a value of the text ends before it. -/
def Ends (rest : List UInt8) : Prop :=
  rest = [] ∨ ∃ b t, rest = b :: t ∧ (b = comma ∨ b = closeBracket ∨ b = closeBrace)

/-- The digits of a number are read up to where they end. -/
theorem digits_decimal (n : Nat) {rest : List UInt8} (h : Ends rest) :
    digits (decimal n ++ rest) = some (decimal n, rest) := by
  obtain ⟨hall, -, hne, -⟩ := decimal_spec n
  have hall' : ∀ b ∈ decimal n, isDigit b = true := List.all_eq_true.mp hall
  have htake : rest.takeWhile isDigit = [] ∧ rest.dropWhile isDigit = rest := by
    rcases h with rfl | ⟨b, t, rfl, rfl | rfl | rfl⟩ <;> exact ⟨rfl, rfl⟩
  rw [digits, List.takeWhile_append_of_pos hall', List.dropWhile_append_of_pos hall', htake.1,
    htake.2, List.append_nil, if_neg hne]

/-- Behind its digits an integer has neither a fraction nor an exponent. -/
theorem number_tail {rest : List UInt8} (h : Ends rest) :
    fraction rest = some ([], rest) ∧ exponent rest = some (0, rest) := by
  rcases h with rfl | ⟨b, t, rfl, rfl | rfl | rfl⟩ <;> exact ⟨rfl, rfl⟩

/-- A number has no leading zero. -/
theorem decimal_leading (n : Nat) :
    (decide ((decimal n).head? = some 48) && decide ((decimal n).length ≠ 1)) = false := by
  rcases Nat.eq_zero_or_pos n with rfl | hpos
  · rfl
  · obtain ⟨-, -, -, hhead⟩ := decimal_spec n
    rw [decide_eq_false (hhead hpos), Bool.false_and]

/-- A number begins with a digit. -/
theorem decimal_cons (n : Nat) : ∃ b t, decimal n = b :: t ∧ isDigit b = true := by
  obtain ⟨hall, -, hne, -⟩ := decimal_spec n
  obtain ⟨b, t, hbt⟩ := List.exists_cons_of_ne_nil hne
  rw [hbt, List.all_cons, Bool.and_eq_true] at hall
  exact ⟨b, t, hbt, hall.1⟩

/-- An integer is read back. -/
theorem number_decimalInt (n : Int) {rest : List UInt8} (h : Ends rest) :
    number (decimalInt n ++ rest) = some (.number n 0, rest) := by
  obtain ⟨hfraction, hexponent⟩ := number_tail h
  cases n with
  | ofNat n =>
    obtain ⟨-, hvalue, -, -⟩ := decimal_spec n
    have hminus : (decimal n ++ rest).head? ≠ some 45 := by
      obtain ⟨b, t, hbt, hdigit⟩ := decimal_cons n
      rw [hbt, List.cons_append, List.head?_cons]
      rintro ⟨⟩
      exact absurd hdigit (by decide)
    rw [decimalInt, number, if_neg hminus, digits_decimal n h]
    simp only [Option.bind_eq_bind, Option.bind_some, decimal_leading n, Bool.false_eq_true,
      if_false, hfraction, hexponent, List.append_nil, hvalue]
    rw [if_neg hminus]
    rfl
  | negSucc n =>
    obtain ⟨-, hvalue, -, -⟩ := decimal_spec (n + 1)
    rw [decimalInt, number, List.cons_append, List.head?_cons, if_pos rfl, List.tail_cons,
      digits_decimal (n + 1) h]
    simp only [Option.bind_eq_bind, Option.bind_some, decimal_leading (n + 1), Bool.false_eq_true,
      if_false, if_true, hfraction, hexponent, List.append_nil, hvalue]
    rfl

/-! ### Parts -/

/-- A text, the value that it is to be read as, and when it is. -/
structure Part where
  text : List UInt8
  json : Json
  cond : Prop

/-- Wherever the text of the part stands, and however much fuel there is for it, it is read as the
value exactly under the condition. -/
def Part.Reads (p : Part) : Prop :=
  ∀ n rest r, p.text.length ≤ n → Ends rest →
    (value n (p.text ++ rest) = some (p.json, r) ↔ p.cond ∧ r = rest)

/-- A part that is the whole text. -/
theorem parse_eq_some_iff {p : Part} (hp : p.Reads) : parse p.text = some p.json ↔ p.cond := by
  have hread : ∀ r, value (p.text.length + 1) p.text = some (p.json, r) ↔ p.cond ∧ r = [] := by
    intro r
    have := hp (p.text.length + 1) [] r (Nat.le_succ _) (Or.inl rfl)
    rwa [List.append_nil] at this
  simp only [parse, Option.bind_eq_bind, Option.bind_eq_some_iff, Prod.exists]
  constructor
  · rintro ⟨j, r, hvalue, h⟩
    split at h
    · cases h
      exact ((hread r).mp hvalue).1
    · cases h
  · intro hcond
    exact ⟨p.json, [], (hread []).mpr ⟨hcond, rfl⟩, rfl⟩

/-- A character that is no white space stays. -/
theorem skipSpace_cons {b : UInt8} (h : isSpace b = false) (t : List UInt8) :
    skipSpace (b :: t) = b :: t := by
  rw [skipSpace, List.dropWhile_cons_of_neg (by simp [h])]

/-- White space before a token is skipped. -/
theorem skipSpace_append {pad : List UInt8} (h : pad.all isSpace = true) (t : List UInt8) :
    skipSpace (pad ++ t) = skipSpace t :=
  List.dropWhile_append_of_pos (List.all_eq_true.mp h)

/-- White space before a value does not matter. -/
theorem value_pad {n : Nat} {pad : List UInt8} (h : pad.all isSpace = true) (t : List UInt8) :
    value n (pad ++ t) = value n t := by
  cases n with
  | zero => rfl
  | succ n => rw [value, value, skipSpace_append h]

/-- White space before the members does not matter. -/
theorem members_pad {n : Nat} {pad : List UInt8} (h : pad.all isSpace = true) (t : List UInt8) :
    members n (pad ++ t) = members n t := by
  cases n with
  | zero => rfl
  | succ n => rw [members, members, skipSpace_append h]

/-! ### Parts without parts -/

/-- A value that begins with a digit or a minus sign is a number. -/
theorem value_number {b : UInt8} (h : (isDigit b || b == 45) = true) (n : Nat) (t : List UInt8) :
    value (n + 1) (b :: t) = number (b :: t) := by
  have hne : ∀ c : UInt8, (isDigit c || c == 45) = false → b ≠ c := by
    rintro c hc rfl
    rw [h] at hc
    cases hc
  have hspace : isSpace b = false := by
    simp [isSpace, hne 32 rfl, hne 9 rfl, hne 10 rfl, hne 13 rfl]
  rw [value, skipSpace_cons hspace]
  simp only [hne quote rfl, hne openBracket rfl, hne openBrace rfl, hne 116 rfl, hne 102 rfl,
    hne 110 rfl, if_false]

/-- An integer starts with a digit or with a minus. -/
theorem decimalInt_cons (n : Int) :
    ∃ b t, decimalInt n = b :: t ∧ (isDigit b || b == 45) = true := by
  cases n with
  | ofNat n =>
    obtain ⟨b, t, hbt, hdigit⟩ := decimal_cons n
    exact ⟨b, t, hbt, by rw [hdigit, Bool.true_or]⟩
  | negSucc n => exact ⟨45, _, rfl, rfl⟩

/-- An integer is read back. -/
theorem reads_number (n : Int) : Part.Reads ⟨decimalInt n, .number n 0, True⟩ := by
  intro fuel rest r hfuel hrest
  obtain ⟨b, t, hbt, hb⟩ := decimalInt_cons n
  show value fuel (decimalInt n ++ rest) = _ ↔ _
  cases fuel with
  | zero => simp [hbt] at hfuel
  | succ fuel =>
    rw [hbt, List.cons_append, value_number hb, ← List.cons_append, ← hbt,
      number_decimalInt n hrest]
    simp [eq_comm]

/-- `true` is read back. -/
theorem reads_true : Part.Reads ⟨[116, 114, 117, 101], .bool true, True⟩ := by
  intro fuel rest r hfuel hrest
  cases fuel with
  | zero => simp at hfuel
  | succ fuel =>
    show some (Json.bool true, rest) = some (Json.bool true, r) ↔ _
    simp [eq_comm]

/-- `false` is read back. -/
theorem reads_false : Part.Reads ⟨[102, 97, 108, 115, 101], .bool false, True⟩ := by
  intro fuel rest r hfuel hrest
  cases fuel with
  | zero => simp at hfuel
  | succ fuel =>
    show some (Json.bool false, rest) = some (Json.bool false, r) ↔ _
    simp [eq_comm]

/-- A string that was put between quotes after it was cut off before `e`. -/
theorem reads_string (s e : List UInt8) :
    Part.Reads ⟨quote :: (s ++ [quote]), .string (s ++ e),
      isPlainText s = true ∧ isUtf8 s = true ∧ e = []⟩ := by
  intro fuel rest r hfuel hrest
  cases fuel with
  | zero => simp at hfuel
  | succ fuel =>
    show value (fuel + 1) (quote :: (s ++ [quote]) ++ rest) = _ ↔ _
    rw [List.cons_append, List.append_assoc, List.singleton_append, value,
      skipSpace_cons (by decide)]
    simp only [if_true, Option.map_eq_some_iff, Prod.mk.injEq, Json.string.injEq, Prod.exists]
    rw [← string_eq_some_iff]
    constructor
    · rintro ⟨s', t, hstring, rfl, rfl⟩
      exact hstring
    · intro hstring
      exact ⟨_, _, hstring, rfl, rfl⟩

/-! ### Arrays -/

/-- An item of an array, and what follows it. -/
theorem items_cons_iff {n : Nat} {t r : List UInt8} {j : Json} {js : List Json} :
    items (n + 1) t = some (j :: js, r) ↔
      ∃ t', value n t = some (j, t') ∧
        ((∃ t'', skipSpace t' = comma :: t'' ∧ items n t'' = some (js, r)) ∨
          (js = [] ∧ skipSpace t' = closeBracket :: r)) := by
  have hne : comma ≠ closeBracket := by decide
  simp only [items, Option.bind_eq_bind, Option.bind_eq_some_iff, Prod.exists]
  constructor
  · rintro ⟨j', t', hvalue, h⟩
    split at h
    case h_1 => cases h
    case h_2 b t'' ht' =>
    split at h
    case isTrue hb =>
      subst hb
      rw [Option.map_eq_some_iff] at h
      obtain ⟨⟨js', r'⟩, hitems, h⟩ := h
      cases h
      exact ⟨t', hvalue, Or.inl ⟨t'', ht', hitems⟩⟩
    case isFalse =>
      split at h
      case isTrue hb =>
        subst hb
        cases h
        exact ⟨t', hvalue, Or.inr ⟨rfl, ht'⟩⟩
      case isFalse => cases h
  · rintro ⟨t', hvalue, ⟨t'', ht', hitems⟩ | ⟨rfl, ht'⟩⟩
    · refine ⟨j, t', hvalue, ?_⟩
      rw [ht']
      simp [hitems]
    · refine ⟨j, t', hvalue, ?_⟩
      rw [ht']
      simp [hne.symm]

/-- A comma ends a number. -/
theorem ends_comma (t : List UInt8) : Ends (comma :: t) := Or.inr ⟨_, _, rfl, Or.inl rfl⟩

/-- A bracket ends a number. -/
theorem ends_closeBracket (t : List UInt8) : Ends (closeBracket :: t) :=
  Or.inr ⟨_, _, rfl, Or.inr (Or.inl rfl)⟩

/-- A brace ends a number. -/
theorem ends_closeBrace (t : List UInt8) : Ends (closeBrace :: t) :=
  Or.inr ⟨_, _, rfl, Or.inr (Or.inr rfl)⟩

/-- The items of an array. The induction follows the parts, which are read from left to right. -/
theorem items_parts {n : Nat} {p : Part} {ps : List Part} (rest r : List UInt8)
    (hps : ∀ q ∈ p :: ps, Part.Reads q)
    (hn : ([comma].intercalate ((p :: ps).map Part.text)).length < n) :
    items n ([comma].intercalate ((p :: ps).map Part.text) ++ closeBracket :: rest) =
        some ((p :: ps).map Part.json, r) ↔
      (∀ q ∈ p :: ps, q.cond) ∧ r = rest := by
  have hne : closeBracket ≠ comma := by decide
  have hp : p.Reads := hps p (List.mem_cons_self ..)
  obtain ⟨n, rfl⟩ : ∃ m, n = m + 1 := ⟨n - 1, by omega⟩
  induction ps generalizing p n with
  | nil =>
    rw [List.map_singleton, List.intercalate_singleton] at hn ⊢
    rw [List.map_singleton, items_cons_iff]
    have hread := fun t' => hp n (closeBracket :: rest) t' (by omega) (ends_closeBracket rest)
    -- Behind the last part stands the bracket.
    have hskip : skipSpace (closeBracket :: rest) = closeBracket :: rest :=
      skipSpace_cons (by decide) rest
    constructor
    · rintro ⟨t', hvalue, h⟩
      obtain ⟨hcond, rfl⟩ := (hread t').mp hvalue
      rw [hskip] at h
      rcases h with ⟨t'', h, -⟩ | ⟨-, h⟩
      · exact absurd (List.cons.inj h).1 hne
      · exact ⟨by simpa using hcond, (List.cons.inj h).2.symm⟩
    · rintro ⟨hcond, rfl⟩
      exact ⟨_, (hread _).mpr ⟨hcond p (List.mem_cons_self ..), rfl⟩, Or.inr ⟨rfl, hskip⟩⟩
  | cons q ps ih =>
    -- The head part is followed by a comma and the text of the others.
    have htext : [comma].intercalate ((p :: q :: ps).map Part.text) =
        p.text ++ comma :: [comma].intercalate ((q :: ps).map Part.text) := by simp
    rw [htext, List.length_append, List.length_cons] at hn
    have hjson : (p :: q :: ps).map Part.json = p.json :: (q :: ps).map Part.json := rfl
    rw [htext, hjson, items_cons_iff, List.append_assoc, List.cons_append]
    have hread := fun t' => hp n (comma :: ([comma].intercalate ((q :: ps).map Part.text) ++
      closeBracket :: rest)) t' (by omega) (ends_comma _)
    have hskip : ∀ t, skipSpace (comma :: t) = comma :: t := skipSpace_cons (by decide)
    obtain ⟨n, rfl⟩ : ∃ m, n = m + 1 := ⟨n - 1, by omega⟩
    have hitems := ih (fun q' hq' => hps q' (List.mem_cons_of_mem _ hq'))
      (hps q (List.mem_cons_of_mem _ (List.mem_cons_self ..))) n (by omega)
    constructor
    · rintro ⟨t', hvalue, h⟩
      obtain ⟨hcond, rfl⟩ := (hread t').mp hvalue
      rw [hskip] at h
      rcases h with ⟨t'', h, hrest⟩ | ⟨h, -⟩
      · obtain ⟨-, rfl⟩ := List.cons.inj h
        obtain ⟨hconds, rfl⟩ := hitems.mp hrest
        exact ⟨List.forall_mem_cons.mpr ⟨hcond, hconds⟩, rfl⟩
      · cases h
    · rintro ⟨hcond, rfl⟩
      obtain ⟨hcond, hconds⟩ := List.forall_mem_cons.mp hcond
      exact ⟨_, (hread _).mpr ⟨hcond, rfl⟩, Or.inl ⟨_, hskip _, hitems.mpr ⟨hconds, rfl⟩⟩⟩

/-- The part of an array of parts. -/
def arrayPart (ps : List Part) : Part where
  text := openBracket :: ([comma].intercalate (ps.map Part.text) ++ [closeBracket])
  json := .array (ps.map Part.json)
  cond := ∀ p ∈ ps, p.cond

/-- No value begins with a bracket that closes. -/
theorem value_closeBracket {n : Nat} {t : List UInt8}
    (h : (skipSpace t).head? = some closeBracket) : value n t = none := by
  cases n with
  | zero => rfl
  | succ n =>
    obtain ⟨t', ht⟩ := List.head?_eq_some_iff.mp h
    rw [value, ht]
    rfl

/-- An array is read from left to right, so it is read back exactly when each of its parts is. -/
theorem reads_array {ps : List Part} (hps : ∀ p ∈ ps, p.Reads) : (arrayPart ps).Reads := by
  intro fuel rest r hfuel hrest
  rw [arrayPart, List.length_cons, List.length_append, List.length_singleton] at hfuel
  obtain ⟨fuel, rfl⟩ : ∃ m, fuel = m + 1 := ⟨fuel - 1, by omega⟩
  have hquote : openBracket ≠ quote := by decide
  show value (fuel + 1)
    (openBracket :: ([comma].intercalate (ps.map Part.text) ++ [closeBracket]) ++ rest) = _ ↔ _
  rw [List.cons_append, List.append_assoc, List.singleton_append, value, skipSpace_cons (by decide)]
  simp only [if_neg hquote, if_true]
  cases ps with
  | nil =>
    show some (Json.array [], rest) = some (Json.array [], r) ↔ _
    simp [arrayPart, eq_comm]
  | cons p ps =>
    have hitems := items_parts (n := fuel) rest r hps (by omega)
    split
    case isTrue hhead =>
      -- the first item would begin with the bracket that closes the array
      have hnone : items fuel
          ([comma].intercalate ((p :: ps).map Part.text) ++ closeBracket :: rest) = none := by
        cases fuel with
        | zero => rfl
        | succ fuel => rw [items, value_closeBracket hhead]; rfl
      rw [hnone] at hitems
      constructor
      · intro h
        cases h
      · intro h
        exact absurd (hitems.mpr h) (by simp)
    case isFalse =>
      rw [Option.map_eq_some_iff]
      refine Iff.trans ?_ hitems
      constructor
      · rintro ⟨⟨js, t⟩, hjs, h⟩
        cases h
        exact hjs
      · intro hjs
        exact ⟨_, hjs, rfl⟩

/-! ### Objects -/

/-- A member of an object that is put together from parts. The name was put between quotes after it
was cut off before `cut`. -/
structure Member where
  name : List UInt8
  cut : List UInt8
  part : Part

/-- The member with white space before its value. -/
def Member.text (pad : List UInt8) (m : Member) : List UInt8 :=
  quote :: (m.name ++ quote :: colon :: (pad ++ m.part.text))

/-- What a member is read as. -/
def Member.json (m : Member) : List UInt8 × Json := (m.name ++ m.cut, m.part.json)

/-- When a member is read back. -/
def Member.cond (m : Member) : Prop :=
  (isPlainText m.name = true ∧ isUtf8 m.name = true ∧ m.cut = []) ∧ m.part.cond

/-- A member of an object, and what follows it. -/
theorem members_cons_iff {n : Nat} {t r name : List UInt8} {j : Json}
    {ms : List (List UInt8 × Json)} :
    members (n + 1) (quote :: t) = some ((name, j) :: ms, r) ↔
      ∃ t₁ t₂ t₃, string t = some (name, t₁) ∧ skipSpace t₁ = colon :: t₂ ∧
        value n t₂ = some (j, t₃) ∧
        ((∃ t₄, skipSpace t₃ = comma :: t₄ ∧ members n t₄ = some (ms, r)) ∨
          (ms = [] ∧ skipSpace t₃ = closeBrace :: r)) := by
  have hne : comma ≠ closeBrace := by decide
  rw [members, skipSpace_cons (by decide)]
  simp only [if_true, Option.bind_eq_bind, Option.bind_eq_some_iff, Prod.exists]
  constructor
  · rintro ⟨name', t₁, hname, h⟩
    split at h
    case h_1 => cases h
    case h_2 c t₂ ht₁ =>
    split at h
    case isFalse => cases h
    -- a colon stands behind the name
    case isTrue hc =>
    subst hc
    rw [Option.bind_eq_some_iff] at h
    obtain ⟨⟨j', t₃⟩, hvalue, h⟩ := h
    simp only at h
    split at h
    case h_1 => cases h
    case h_2 b t₄ ht₃ =>
    split at h
    case isTrue hb =>
      subst hb
      rw [Option.map_eq_some_iff] at h
      obtain ⟨⟨ms', r'⟩, hmembers, h⟩ := h
      cases h
      exact ⟨t₁, t₂, t₃, hname, ht₁, hvalue, Or.inl ⟨t₄, ht₃, hmembers⟩⟩
    case isFalse =>
      split at h
      case isTrue hb =>
        subst hb
        cases h
        exact ⟨t₁, t₂, t₃, hname, ht₁, hvalue, Or.inr ⟨rfl, ht₃⟩⟩
      case isFalse => cases h
  · -- Conversely every branch of the reader is taken.
    rintro ⟨t₁, t₂, t₃, hname, ht₁, hvalue, ⟨t₄, ht₃, hmembers⟩ | ⟨rfl, ht₃⟩⟩
    · refine ⟨name, t₁, hname, ?_⟩
      rw [ht₁]
      simp [hvalue, ht₃, hmembers]
    · refine ⟨name, t₁, hname, ?_⟩
      rw [ht₁]
      simp [hvalue, ht₃, hne.symm]

/-- The name of a member and its value. -/
theorem member_iff {pad : List UInt8} (hpad : pad.all isSpace = true) {n : Nat} {m : Member}
    {rest : List UInt8} (t₃ : List UInt8) (hm : m.part.Reads) (hn : m.part.text.length ≤ n)
    (hrest : Ends rest) :
    (∃ t₁ t₂, string (m.name ++ quote :: (colon :: (pad ++ (m.part.text ++ rest)))) =
          some (m.name ++ m.cut, t₁) ∧ skipSpace t₁ = colon :: t₂ ∧
        value n t₂ = some (m.part.json, t₃)) ↔
      m.cond ∧ t₃ = rest := by
  have hskip : ∀ t, skipSpace (colon :: t) = colon :: t := skipSpace_cons (by decide)
  have hread := hm n rest t₃ hn hrest
  constructor
  · rintro ⟨t₁, t₂, hname, ht₁, hvalue⟩
    obtain ⟨hplain, rfl⟩ := string_eq_some_iff.mp hname
    rw [hskip, List.cons.injEq] at ht₁
    obtain ⟨-, rfl⟩ := ht₁
    rw [value_pad hpad] at hvalue
    obtain ⟨hcond, rfl⟩ := hread.mp hvalue
    exact ⟨⟨hplain, hcond⟩, rfl⟩
  · rintro ⟨⟨hname, hcond⟩, rfl⟩
    refine ⟨_, _, string_eq_some_iff.mpr ⟨hname, rfl⟩, hskip _, ?_⟩
    rw [value_pad hpad]
    exact hread.mpr ⟨hcond, rfl⟩

/-- The value of a member is shorter than the member. -/
theorem Member.text_length (pad : List UInt8) (m : Member) :
    m.part.text.length < (m.text pad).length := by
  simp only [Member.text, List.length_cons, List.length_append]
  omega

/-- The members of an object. The induction follows the parts, as it does for the items of an
array. -/
theorem members_parts {pad : List UInt8} (hpad : pad.all isSpace = true) {n : Nat} {m : Member}
    {ms : List Member} (rest r : List UInt8) (hms : ∀ m' ∈ m :: ms, m'.part.Reads)
    (hn : ((comma :: pad).intercalate ((m :: ms).map (Member.text pad))).length < n) :
    members n ((comma :: pad).intercalate ((m :: ms).map (Member.text pad)) ++ closeBrace :: rest) =
        some ((m :: ms).map Member.json, r) ↔
      (∀ m' ∈ m :: ms, m'.cond) ∧ r = rest := by
  have hne : closeBrace ≠ comma := by decide
  have hm : m.part.Reads := hms m (List.mem_cons_self ..)
  have hshorter := Member.text_length pad m
  obtain ⟨n, rfl⟩ : ∃ k, n = k + 1 := ⟨n - 1, by omega⟩
  induction ms generalizing m n with
  | nil =>
    rw [List.map_singleton, List.intercalate_singleton] at hn ⊢
    rw [List.map_singleton, Member.json, Member.text, List.cons_append, members_cons_iff]
    have hread := fun t₃ => member_iff hpad t₃ hm (show _ ≤ n by omega)
      (ends_closeBrace rest)
    have hskip : skipSpace (closeBrace :: rest) = closeBrace :: rest :=
      skipSpace_cons (by decide) rest
    simp only [List.append_assoc, List.cons_append]
    -- One member is left: after it comes the brace, and a comma cannot be read there.
    constructor
    · rintro ⟨t₁, t₂, t₃, hname, ht₁, hvalue, h⟩
      obtain ⟨hcond, rfl⟩ := (hread t₃).mp ⟨t₁, t₂, hname, ht₁, hvalue⟩
      rw [hskip] at h
      rcases h with ⟨t₄, h, -⟩ | ⟨-, h⟩
      · exact absurd (List.cons.inj h).1 hne
      · exact ⟨by simpa using hcond, (List.cons.inj h).2.symm⟩
    · rintro ⟨hcond, rfl⟩
      obtain ⟨t₁, t₂, hname, ht₁, hvalue⟩ := (hread _).mpr ⟨hcond m (List.mem_cons_self ..), rfl⟩
      exact ⟨t₁, t₂, _, hname, ht₁, hvalue, Or.inr ⟨trivial, hskip⟩⟩
  | cons m' ms ih =>
    have htext : (comma :: pad).intercalate ((m :: m' :: ms).map (Member.text pad)) =
        m.text pad ++
          comma :: (pad ++ (comma :: pad).intercalate ((m' :: ms).map (Member.text pad))) := by
      simp
    have hjson : (m :: m' :: ms).map Member.json =
        (m.name ++ m.cut, m.part.json) :: (m' :: ms).map Member.json := rfl
    rw [htext, List.length_append, List.length_cons, List.length_append] at hn
    have hshorter' := Member.text_length pad m'
    have hlist : (m'.text pad).length ≤
        ((comma :: pad).intercalate ((m' :: ms).map (Member.text pad))).length := by
      cases ms <;> simp
    have hread := fun t₃ => member_iff hpad t₃ hm (show _ ≤ n by omega)
      (ends_comma (pad ++ ((comma :: pad).intercalate ((m' :: ms).map (Member.text pad)) ++
        closeBrace :: rest)))
    have hskip : ∀ t, skipSpace (comma :: t) = comma :: t := skipSpace_cons (by decide)
    obtain ⟨n, rfl⟩ : ∃ k, n = k + 1 := ⟨n - 1, by omega⟩
    have hmembers := ih (fun k hk => hms k (List.mem_cons_of_mem _ hk))
      (hms m' (List.mem_cons_of_mem _ (List.mem_cons_self ..))) hshorter' n (by omega)
    rw [htext, hjson, Member.text, List.cons_append, List.cons_append, members_cons_iff]
    simp only [List.append_assoc, List.cons_append] at hread hmembers ⊢
    -- A comma follows: the rest is read by the induction hypothesis, behind the pad.
    constructor
    · rintro ⟨t₁, t₂, t₃, hname, ht₁, hvalue, h⟩
      obtain ⟨hcond, rfl⟩ := (hread t₃).mp ⟨t₁, t₂, hname, ht₁, hvalue⟩
      rw [hskip] at h
      rcases h with ⟨t₄, h, hrest⟩ | ⟨h, -⟩
      · obtain ⟨-, rfl⟩ := List.cons.inj h
        rw [members_pad hpad] at hrest
        obtain ⟨hconds, rfl⟩ := hmembers.mp hrest
        exact ⟨List.forall_mem_cons.mpr ⟨hcond, hconds⟩, rfl⟩
      · cases h
    · rintro ⟨hcond, rfl⟩
      obtain ⟨hcond, hconds⟩ := List.forall_mem_cons.mp hcond
      obtain ⟨t₁, t₂, hname, ht₁, hvalue⟩ := (hread _).mpr ⟨hcond, rfl⟩
      refine ⟨t₁, t₂, _, hname, ht₁, hvalue, Or.inl ⟨_, hskip _, ?_⟩⟩
      rw [members_pad hpad]
      exact hmembers.mpr ⟨hconds, rfl⟩

/-- The part of an object of members, which has white space before each name but the first and
before each value. -/
def objectPart (pad : List UInt8) (ms : List Member) : Part where
  text := openBrace :: ((comma :: pad).intercalate (ms.map (Member.text pad)) ++ [closeBrace])
  json := .object (ms.map Member.json)
  cond := ∀ m ∈ ms, m.cond

/-- An object is read back when its members are. -/
theorem reads_object {pad : List UInt8} (hpad : pad.all isSpace = true) {ms : List Member}
    (hms : ∀ m ∈ ms, m.part.Reads) : (objectPart pad ms).Reads := by
  intro fuel rest r hfuel hrest
  rw [objectPart, List.length_cons, List.length_append, List.length_singleton] at hfuel
  obtain ⟨fuel, rfl⟩ : ∃ k, fuel = k + 1 := ⟨fuel - 1, by omega⟩
  have hquote : openBrace ≠ quote := by decide
  have hbracket : openBrace ≠ openBracket := by decide
  show value (fuel + 1) (openBrace :: ((comma :: pad).intercalate (ms.map (Member.text pad)) ++
    [closeBrace]) ++ rest) = _ ↔ _
  rw [List.cons_append, List.append_assoc, List.singleton_append, value, skipSpace_cons (by decide)]
  simp only [if_neg hquote, if_neg hbracket, if_true]
  cases ms with
  | nil =>
    show some (Json.object [], rest) = some (Json.object [], r) ↔ _
    simp [objectPart, eq_comm]
  | cons m ms =>
    have hmembers := members_parts hpad (n := fuel) rest r hms (by omega)
    have hhead : (skipSpace ((comma :: pad).intercalate ((m :: ms).map (Member.text pad)) ++
        closeBrace :: rest)).head? ≠ some closeBrace := by
      rw [List.map_cons, Member.text, List.intercalate_cons_cons_left, List.cons_append,
        skipSpace_cons (by decide), List.head?_cons]
      decide
    rw [if_neg hhead, Option.map_eq_some_iff]
    refine Iff.trans ?_ hmembers
    constructor
    · rintro ⟨⟨js, t⟩, hjs, h⟩
      cases h
      exact hjs
    · intro hjs
      exact ⟨_, hjs, rfl⟩

end Netstar.Lib.JsonText
