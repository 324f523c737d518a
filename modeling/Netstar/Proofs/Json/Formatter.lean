import Mathlib.Data.List.TakeWhile
import Netstar.Spec.Http.Exception

/-!
# `Netstar.Proofs.Json.Formatter`: which values are read back from their texts

The text of a value is put together from the texts of its parts, and the parts are read from left to
right (`Netstar.Lib.JsonText`). `partOf` is a value as such a part. Its text is what `toJson`
returns when it returns something, and the conditions of its strings are those of `isPlainValue`.

Nothing is escaped, so a quote ends a string and a backslash starts an escape. A string also ends at
its first NUL.
-/

set_option autoImplicit false

namespace Netstar.Proofs.Json

open Netstar.Lib.JsonText
open Netstar.Spec.Core (SstringFault)
open Netstar.Spec.Json
open Netstar.Spec.Http

/-! ### Texts with separators -/

/-- Texts with a separator before each of them, but not before the first one of all. -/
def joinFrom (separator : List UInt8) (first : Bool) (ts : List (List UInt8)) : List UInt8 :=
  if first then separator.intercalate ts else ts.flatMap (separator ++ ·)

/-- Separators stand between the texts. -/
theorem joinFrom_cons (separator : List UInt8) (first : Bool) (t : List UInt8)
    (ts : List (List UInt8)) :
    joinFrom separator first (t :: ts) =
      (if first then [] else separator) ++ t ++ joinFrom separator false ts := by
  cases first with
  | false => simp [joinFrom]
  | true =>
    induction ts generalizing t with
    | nil => simp [joinFrom]
    | cons t' ts ih =>
      have htail := ih t'
      simp only [joinFrom, if_true, Bool.false_eq_true, if_false, List.nil_append] at htail ⊢
      rw [List.intercalate_cons_cons, htail, List.flatMap_cons]
      simp only [List.append_assoc]

/-- A text with separators is not shorter than one of its parts. -/
theorem length_le_intercalate (separator : List UInt8) {t : List UInt8} {ts : List (List UInt8)}
    (h : t ∈ ts) : t.length ≤ (separator.intercalate ts).length := by
  induction ts with
  | nil => cases h
  | cons t' ts ih =>
    cases ts with
    | nil =>
      rw [List.mem_singleton.mp h, List.intercalate_singleton]
    | cons t'' ts =>
      rw [List.intercalate_cons_cons, List.length_append, List.length_append]
      rcases List.mem_cons.mp h with rfl | h
      · omega
      · have := ih h
        omega

/-- The length of the texts with their separators. -/
theorem length_intercalate (separator : List UInt8) (ts : List (List UInt8)) :
    (separator.intercalate ts).length = sizeWith separator.length (ts.map List.length) := by
  induction ts with
  | nil => rfl
  | cons t ts ih =>
    cases ts with
    | nil => simp [sizeWith]
    | cons t' ts =>
      rw [List.intercalate_cons_cons, List.length_append, List.length_append, ih]
      simp only [sizeWith, List.map_cons, List.sum_cons, List.length_cons, Nat.add_sub_cancel,
        Nat.mul_add, Nat.mul_one]
      omega

/-! ### Strings -/

/-- What `c_str()` cuts off. -/
def cutOff (s : List UInt8) : List UInt8 := s.dropWhile (· ≠ 0)

/-- A C string is cut at its first NUL. -/
theorem cStr_append_cutOff (s : List UInt8) : cStr s ++ cutOff s = s :=
  List.takeWhile_append_dropWhile

/-- A plain string has no NUL. -/
theorem cStr_of_plain {s : List UInt8} (h : isPlainText s = true) : cStr s = s := by
  have hzero : isPlain 0 = false := rfl
  rw [cStr, List.takeWhile_eq_self_iff]
  intro b hb
  have hplain := List.all_eq_true.mp h b hb
  rw [decide_eq_true_eq]
  rintro rfl
  rw [hzero] at hplain
  cases hplain

/-- A string that is cut off is not plain. -/
theorem plain_cStr_iff (s : List UInt8) :
    (isPlainText (cStr s) = true ∧ isUtf8 (cStr s) = true ∧ cutOff s = []) ↔
      (isPlainText s && isUtf8 s) = true := by
  rw [Bool.and_eq_true]
  constructor
  · rintro ⟨hplain, hutf, hcut⟩
    have hs := cStr_append_cutOff s
    rw [hcut, List.append_nil] at hs
    rw [hs] at hplain hutf
    exact ⟨hplain, hutf⟩
  · rintro ⟨hplain, hutf⟩
    have hcut := cStr_append_cutOff s
    rw [cStr_of_plain hplain, List.append_right_eq_self] at hcut
    rw [cStr_of_plain hplain]
    exact ⟨hplain, hutf, hcut⟩

/-! ### Values as parts -/

mutual

/-- The text of a value, with the value that it should be read as. -/
def partOf : JsonValue → Part
  | .int n => ⟨decimalInt n, .number n 0, True⟩
  | .bool true => ⟨[116, 114, 117, 101], .bool true, True⟩
  | .bool false => ⟨[102, 97, 108, 115, 101], .bool false, True⟩
  | .str s => ⟨quote :: (cStr s ++ [quote]), .string (cStr s ++ cutOff s),
      isPlainText (cStr s) = true ∧ isUtf8 (cStr s) = true ∧ cutOff s = []⟩
  | .vector vec => arrayPart (partsOf vec)
  | .map entries => objectPart [] (entryParts entries)
  | .base elements => objectPart [blank] (elementParts elements)

/-- The parts of a vector. -/
def partsOf : List JsonValue → List Part
  | [] => []
  | v :: vec => partOf v :: partsOf vec

/-- The members of a map. -/
def entryParts : List (List UInt8 × JsonValue) → List Member
  | [] => []
  | (key, v) :: entries => ⟨cStr key, cutOff key, partOf v⟩ :: entryParts entries

/-- The members of an object, without those that are not set. -/
def elementParts : List (List UInt8 × Bool × JsonValue) → List Member
  | [] => []
  | (name, set, v) :: elements =>
    if set = false then elementParts elements else ⟨name, [], partOf v⟩ :: elementParts elements

end

mutual

/-- Every value is read back under its condition. -/
theorem partOf_reads : ∀ v, (partOf v).Reads
  | .int n => reads_number n
  | .bool true => reads_true
  | .bool false => reads_false
  | .str s => reads_string (cStr s) (cutOff s)
  | .vector vec => reads_array (partsOf_reads vec)
  | .map entries => reads_object rfl (entryParts_reads entries)
  | .base elements => reads_object rfl (elementParts_reads elements)

/-- The elements of a vector read back as parts. -/
theorem partsOf_reads : ∀ vec, ∀ p ∈ partsOf vec, p.Reads
  | [], _, h => absurd h List.not_mem_nil
  | v :: vec, _, h => by
    rcases List.mem_cons.mp h with rfl | h
    · exact partOf_reads v
    · exact partsOf_reads vec _ h

/-- So do the values of a map. -/
theorem entryParts_reads : ∀ entries, ∀ m ∈ entryParts entries, m.part.Reads
  | [], _, h => absurd h List.not_mem_nil
  | (key, v) :: entries, _, h => by
    rcases List.mem_cons.mp h with rfl | h
    · exact partOf_reads v
    · exact entryParts_reads entries _ h

/-- So do the elements of an object. -/
theorem elementParts_reads : ∀ elements, ∀ m ∈ elementParts elements, m.part.Reads
  | [], _, h => absurd h List.not_mem_nil
  | (name, set, v) :: elements, m, h => by
    rw [elementParts] at h
    split at h
    · exact elementParts_reads elements m h
    · rcases List.mem_cons.mp h with rfl | h
      · exact partOf_reads v
      · exact elementParts_reads elements m h

end

mutual

/-- A part has the value that it was made from. -/
theorem partOf_json : ∀ v, (partOf v).json = jsonOf v
  | .int _ => rfl
  | .bool true => rfl
  | .bool false => rfl
  | .str s => congrArg Json.string (cStr_append_cutOff s)
  | .vector vec => congrArg Json.array (partsOf_json vec)
  | .map entries => congrArg Json.object (entryParts_json entries)
  | .base elements => congrArg Json.object (elementParts_json elements)

/-- So have the parts of a vector. -/
theorem partsOf_json : ∀ vec, (partsOf vec).map Part.json = jsonsOf vec
  | [] => rfl
  | v :: vec => congrArg₂ List.cons (partOf_json v) (partsOf_json vec)

/-- So have the members of a map. -/
theorem entryParts_json : ∀ entries, (entryParts entries).map Member.json = entriesOf entries
  | [] => rfl
  | (key, v) :: entries =>
    congrArg₂ List.cons (congrArg₂ Prod.mk (cStr_append_cutOff key) (partOf_json v))
      (entryParts_json entries)

/-- So have the members of an object. -/
theorem elementParts_json : ∀ elements,
    (elementParts elements).map Member.json = membersOf elements
  | [] => rfl
  | (name, set, v) :: elements => by
    rw [elementParts, membersOf]
    split
    · exact elementParts_json elements
    · exact congrArg₂ List.cons (congrArg₂ Prod.mk (List.append_nil name) (partOf_json v))
        (elementParts_json elements)

end

mutual

/-- A part reads back exactly when its value is plain. -/
theorem partOf_cond : ∀ v, (partOf v).cond ↔ isPlainValue v = true
  | .int _ => iff_of_true trivial rfl
  | .bool true => iff_of_true trivial rfl
  | .bool false => iff_of_true trivial rfl
  | .str s => plain_cStr_iff s
  | .vector vec => partsOf_cond vec
  | .map entries => entryParts_cond entries
  | .base elements => elementParts_cond elements

/-- The parts of a vector, one by one. -/
theorem partsOf_cond : ∀ vec, (∀ p ∈ partsOf vec, p.cond) ↔ arePlainValues vec = true
  | [] => iff_of_true (fun _ h => absurd h List.not_mem_nil) rfl
  | v :: vec => by
    rw [partsOf, List.forall_mem_cons, partOf_cond v, partsOf_cond vec, arePlainValues,
      Bool.and_eq_true]

/-- The members of a map, with their keys. -/
theorem entryParts_cond : ∀ entries,
    (∀ m ∈ entryParts entries, m.cond) ↔ arePlainEntries entries = true
  | [] => iff_of_true (fun _ h => absurd h List.not_mem_nil) rfl
  | (key, v) :: entries => by
    rw [entryParts, List.forall_mem_cons, entryParts_cond entries, arePlainEntries,
      Bool.and_eq_true, Bool.and_eq_true, ← plain_cStr_iff, ← partOf_cond v]
    rfl

/-- The members of an object, with their names. -/
theorem elementParts_cond : ∀ elements,
    (∀ m ∈ elementParts elements, m.cond) ↔ arePlainElements elements = true
  | [] => iff_of_true (fun _ h => absurd h List.not_mem_nil) rfl
  | (name, set, v) :: elements => by
    rw [elementParts, arePlainElements, Bool.and_eq_true, ← elementParts_cond elements]
    cases set with
    | false => simp
    | true =>
      rw [if_neg (by decide), List.forall_mem_cons]
      simp [Member.cond, partOf_cond v]

end

/-! ### Sizes -/

mutual

/-- The size of the text of a plain value. -/
theorem textSize_eq : ∀ v, isPlainValue v = true → textSize v = (partOf v).text.length
  | .int _, _ => rfl
  | .bool true, _ => rfl
  | .bool false, _ => rfl
  | .str s, h => by
    rw [isPlainValue, Bool.and_eq_true] at h
    rw [textSize, partOf, cStr_of_plain h.1, List.length_cons, List.length_append]
    rfl
  | .vector vec, h => by
    rw [textSize, partOf, arrayPart, List.length_cons, List.length_append, length_intercalate,
      itemSizes_eq vec h]
    rfl
  | .map entries, h => by
    rw [textSize, partOf, objectPart, List.length_cons, List.length_append, length_intercalate,
      entrySizes_eq entries h]
    rfl
  | .base elements, h => by
    rw [textSize, partOf, objectPart, List.length_cons, List.length_append, length_intercalate,
      elementSizes_eq elements h]
    rfl

/-- The sizes of the elements of a vector. -/
theorem itemSizes_eq : ∀ vec, arePlainValues vec = true →
    itemSizes vec = ((partsOf vec).map Part.text).map List.length
  | [], _ => rfl
  | v :: vec, h => by
    rw [arePlainValues, Bool.and_eq_true] at h
    rw [itemSizes, textSize_eq v h.1, itemSizes_eq vec h.2]
    rfl

/-- The sizes of the members of a map. -/
theorem entrySizes_eq : ∀ entries, arePlainEntries entries = true →
    entrySizes entries = ((entryParts entries).map (Member.text [])).map List.length
  | [], _ => rfl
  | (key, v) :: entries, h => by
    simp only [arePlainEntries, Bool.and_eq_true] at h
    obtain ⟨⟨⟨hkey, -⟩, hv⟩, hentries⟩ := h
    rw [entrySizes, textSize_eq v hv, entrySizes_eq entries hentries, entryParts,
      cStr_of_plain hkey]
    simp only [List.map_cons, Member.text, List.length_cons, List.length_append, List.nil_append]
    congr 1
    omega

/-- The sizes of the members of an object. -/
theorem elementSizes_eq : ∀ elements, arePlainElements elements = true →
    elementSizes elements = ((elementParts elements).map (Member.text [blank])).map List.length
  | [], _ => rfl
  | (name, set, v) :: elements, h => by
    rw [arePlainElements, Bool.and_eq_true] at h
    rw [elementSizes, elementParts]
    cases set with
    | false => exact elementSizes_eq elements h.2
    | true =>
      simp only [Bool.true_eq_false, decide_false, Bool.false_or, Bool.and_eq_true] at h
      rw [if_neg (by decide), if_neg (by decide), textSize_eq v h.1.2,
        elementSizes_eq elements h.2]
      simp only [List.map_cons, Member.text, List.length_cons, List.length_append, List.length_nil]
      congr 1
      omega

end

/-! ### The formatter -/

/-- A text becomes an `sstring` when its size has 32 bits. -/
theorem toSstring_eq_ok_iff {text t : List UInt8} :
    toSstring text = .ok t ↔ t = text ∧ text.length < 2 ^ 32 := by
  rw [toSstring]
  split
  case isTrue h =>
    constructor
    · intro heq
      cases heq
    · rintro ⟨-, hlt⟩
      exact absurd hlt (Nat.not_lt.mpr h)
  case isFalse h =>
    constructor
    · intro heq
      cases heq
      exact ⟨rfl, Nat.lt_of_not_le h⟩
    · rintro ⟨rfl, -⟩
      rfl

/-- A computation in two steps succeeds when both do. -/
theorem bind_eq_ok_iff {α β : Type} {x : Except SstringFault α}
    {f : α → Except SstringFault β} {b : β} :
    (x >>= f) = .ok b ↔ ∃ a, x = .ok a ∧ f a = .ok b := by
  cases x with
  | error e => simp [bind, Except.bind]
  | ok a => simp [bind, Except.bind]

/-- A string that is formatted is put between quotes up to its first NUL. -/
theorem stringToJson_eq_ok {s t : List UInt8} (h : stringToJson s = .ok t) :
    t = quote :: (cStr s ++ [quote]) := by
  simp only [stringToJson, charsToJson, bind_eq_ok_iff, toSstring_eq_ok_iff] at h
  obtain ⟨_, ⟨rfl, -⟩, _, ⟨rfl, -⟩, _, ⟨rfl, -⟩, rfl, -⟩ := h
  rfl

/-- A plain string is put between quotes. -/
theorem stringToJson_plain {s : List UInt8} (hs : isPlainText s = true)
    (hsize : s.length + 2 < 2 ^ 32) : stringToJson s = .ok (quote :: (cStr s ++ [quote])) := by
  have hcstr := cStr_of_plain hs
  rw [stringToJson, bind_eq_ok_iff]
  refine ⟨s, toSstring_eq_ok_iff.mpr ⟨rfl, by omega⟩, ?_⟩
  rw [hcstr, charsToJson]
  simp only [bind_eq_ok_iff, toSstring_eq_ok_iff]
  refine ⟨s, ⟨rfl, by omega⟩, quote :: s, ⟨rfl, ?_⟩, rfl, ?_⟩
  · rw [List.length_cons]
    omega
  · rw [List.length_append, List.length_cons, List.length_singleton]
    omega

/-- An entry of a map is formatted as a member. -/
theorem pairToJson_eq_ok {key t : List UInt8} {second : Except SstringFault (List UInt8)}
    (h : pairToJson key second = .ok t) :
    ∃ text, second = .ok text ∧ t = quote :: (cStr key ++ quote :: colon :: text) := by
  simp only [pairToJson, bind_eq_ok_iff, toSstring_eq_ok_iff] at h
  obtain ⟨first, hfirst, _, ⟨rfl, -⟩, text, hsecond, rfl, -⟩ := h
  rw [stringToJson_eq_ok hfirst]
  exact ⟨text, hsecond, by simp⟩

/-- A plain key and the text of a value. -/
theorem pairToJson_plain {key text : List UInt8} (hkey : isPlainText key = true)
    (hsize : (quote :: (cStr key ++ quote :: colon :: text)).length < 2 ^ 32) :
    pairToJson key (.ok text) = .ok (quote :: (cStr key ++ quote :: colon :: text)) := by
  rw [cStr_of_plain hkey, List.length_cons, List.length_append, List.length_cons,
    List.length_cons] at hsize
  simp only [pairToJson, stringToJson_plain hkey (by omega), bind_eq_ok_iff, toSstring_eq_ok_iff,
    cStr_of_plain hkey]
  refine ⟨_, rfl, _, ⟨rfl, ?_⟩, _, rfl, by simp, ?_⟩
  · simp only [List.length_cons, List.length_append, List.length_nil]
    omega
  · simp only [List.length_cons, List.length_append, List.length_nil]
    omega

/-- The loop over items that are all formatted. -/
theorem rangeLoop_ok (n : Nat) (ts : List (List UInt8)) :
    rangeLoop n (ts.map .ok) = .ok (joinFrom [comma] (n = 0) ts) := by
  induction ts generalizing n with
  | nil =>
    rw [List.map_nil, rangeLoop, joinFrom]
    split <;> rfl
  | cons t ts ih =>
    have hstep : decide (n + 1 = 0) = false := rfl
    rw [List.map_cons, rangeLoop, ih, hstep, joinFrom_cons]
    cases n <;> rfl

/-- The loop fails at the first item that is not formatted. -/
theorem eq_map_of_rangeLoop {n : Nat} {items : List (Except SstringFault (List UInt8))}
    {t : List UInt8} (h : rangeLoop n items = .ok t) :
    ∃ ts : List (List UInt8), items = ts.map .ok := by
  induction items generalizing n t with
  | nil => exact ⟨[], rfl⟩
  | cons item items ih =>
    simp only [rangeLoop, bind_eq_ok_iff] at h
    obtain ⟨text, rfl, res, hres, -⟩ := h
    obtain ⟨ts, rfl⟩ := ih hres
    exact ⟨text :: ts, rfl⟩

/-- A range is formatted exactly when its items are and the text is not too long. -/
theorem rangeToJson_eq_ok_iff {s : FormatterState}
    {items : List (Except SstringFault (List UInt8))} {t : List UInt8} :
    rangeToJson s items = .ok t ↔
      ∃ ts : List (List UInt8), items = ts.map .ok ∧
        t = s.begin ++ [comma].intercalate ts ++ s.close ∧ t.length < 2 ^ 32 := by
  simp only [rangeToJson, bind_eq_ok_iff, toSstring_eq_ok_iff]
  constructor
  · rintro ⟨res, hres, rfl, hlength⟩
    obtain ⟨ts, rfl⟩ := eq_map_of_rangeLoop hres
    rw [rangeLoop_ok] at hres
    cases hres
    exact ⟨ts, rfl, rfl, hlength⟩
  · rintro ⟨ts, rfl, rfl, hlength⟩
    exact ⟨_, rangeLoop_ok 0 ts, rfl, hlength⟩

/-! ### The builder -/

/-- The names of the elements that are set, with the texts of their values. -/
def present (elements : List JsonElement) : List (List UInt8 × Except SstringFault (List UInt8)) :=
  (elements.filter JsonElement.set).map fun e => (e.name, e.toString)

/-- A member with a blank before its value. -/
def memberText (m : List UInt8 × List UInt8) : List UInt8 :=
  quote :: (m.1 ++ quote :: colon :: (blank :: m.2))

/-- An element that is set adds its text. -/
theorem add_eq {b : JsonBuilder} {e : JsonElement} :
    b.add e =
      if e.set = false then .ok b else e.toString >>= fun str => .ok (b.addText e.name str) :=
  rfl

/-- The builder after elements whose values are all formatted. -/
theorem foldlM_add_ok {elements : List JsonElement} {b : JsonBuilder}
    {ms : List (List UInt8 × List UInt8)}
    (h : present elements = ms.map fun m => (m.1, .ok m.2)) :
    ∃ b', elements.foldlM JsonBuilder.add b = .ok b' ∧
      b'.result = b.result ++ joinFrom [comma, blank] b.first (ms.map memberText) := by
  induction elements generalizing b ms with
  | nil =>
    cases ms with
    | cons m ms => cases h
    | nil =>
      refine ⟨b, rfl, ?_⟩
      rw [List.map_nil, joinFrom]
      split <;> simp
  | cons e elements ih =>
    rw [List.foldlM_cons, add_eq]
    cases hset : e.set with
    | false =>
      have htail : present (e :: elements) = present elements := by simp [present, hset]
      rw [htail] at h
      exact ih h
    | true =>
      have hhead : present (e :: elements) = (e.name, e.toString) :: present elements := by
        simp [present, hset]
      rw [hhead] at h
      cases ms with
      | nil => cases h
      | cons m ms =>
        rw [List.map_cons, List.cons.injEq, Prod.mk.injEq] at h
        obtain ⟨⟨hname, htext⟩, htail⟩ := h
        obtain ⟨b', hfold, hresult⟩ := ih (b := b.addText e.name m.2) htail
        refine ⟨b', ?_, ?_⟩
        · rw [htext]
          exact hfold
        · rw [hresult, List.map_cons, joinFrom_cons, JsonBuilder.addText, hname]
          simp [memberText]

/-- The builder fails at the first element that is set and whose value is not formatted. -/
theorem present_of_foldlM_add {elements : List JsonElement} {b b' : JsonBuilder}
    (h : elements.foldlM JsonBuilder.add b = .ok b') :
    ∃ ms : List (List UInt8 × List UInt8), present elements = ms.map fun m => (m.1, .ok m.2) := by
  induction elements generalizing b with
  | nil => exact ⟨[], rfl⟩
  | cons e elements ih =>
    rw [List.foldlM_cons, bind_eq_ok_iff] at h
    obtain ⟨b₁, hadd, hfold⟩ := h
    obtain ⟨ms, hms⟩ := ih hfold
    rw [add_eq] at hadd
    cases hset : e.set with
    | false => exact ⟨ms, by rw [← hms]; simp [present, hset]⟩
    | true =>
      rw [hset, if_neg (by decide), bind_eq_ok_iff] at hadd
      obtain ⟨str, hstr, -⟩ := hadd
      refine ⟨(e.name, str) :: ms, ?_⟩
      rw [List.map_cons, ← hms, ← hstr]
      simp [present, hset]

/-- An object is formatted exactly when the values of its elements are. -/
theorem baseToJson_eq_ok_iff {elements : List JsonElement} {t : List UInt8} :
    baseToJson elements = .ok t ↔
      ∃ ms : List (List UInt8 × List UInt8), present elements = ms.map (fun m => (m.1, .ok m.2)) ∧
        t = openBrace :: ([comma, blank].intercalate (ms.map memberText) ++ [closeBrace]) := by
  have hstart : ∀ ts, joinFrom [comma, blank] JsonBuilder.create.first ts =
      [comma, blank].intercalate ts := fun _ => rfl
  rw [baseToJson, bind_eq_ok_iff]
  constructor
  · rintro ⟨b, hfold, h⟩
    obtain ⟨ms, hms⟩ := present_of_foldlM_add hfold
    obtain ⟨b', hfold', hresult⟩ := foldlM_add_ok (b := .create) hms
    rw [hfold] at hfold'
    cases hfold'
    cases h
    refine ⟨ms, hms, ?_⟩
    rw [hresult, hstart]
    rfl
  · rintro ⟨ms, hms, rfl⟩
    obtain ⟨b', hfold, hresult⟩ := foldlM_add_ok (b := .create) hms
    refine ⟨b', hfold, ?_⟩
    rw [hresult, hstart]
    rfl

/-! ### The texts of values -/

mutual

/-- A value that is formatted has the text of its part. -/
theorem toJson_text : ∀ v t, toJson v = .ok t → t = (partOf v).text
  | .int _, _, h => (toSstring_eq_ok_iff.mp h).1
  | .bool true, _, h => (toSstring_eq_ok_iff.mp h).1
  | .bool false, _, h => (toSstring_eq_ok_iff.mp h).1
  | .str _, _, h => stringToJson_eq_ok h
  | .vector vec, t, h => by
    obtain ⟨ts, hts, rfl, -⟩ := rangeToJson_eq_ok_iff.mp h
    rw [itemsToJson_text vec ts hts]
    rfl
  | .map entries, t, h => by
    obtain ⟨ts, hts, rfl, -⟩ := rangeToJson_eq_ok_iff.mp h
    rw [entriesToJson_text entries ts hts]
    rfl
  | .base elements, t, h => by
    obtain ⟨text, hbase, hsize⟩ := bind_eq_ok_iff.mp h
    obtain ⟨rfl, -⟩ := toSstring_eq_ok_iff.mp hsize
    obtain ⟨ms, hms, rfl⟩ := baseToJson_eq_ok_iff.mp hbase
    rw [jsonElements_text elements ms hms]
    rfl

/-- The texts of the elements of a vector. -/
theorem itemsToJson_text : ∀ vec (ts : List (List UInt8)), itemsToJson vec = ts.map .ok →
    ts = (partsOf vec).map Part.text
  | [], [], _ => rfl
  | v :: vec, t :: ts, h => by
    obtain ⟨hv, hvec⟩ := List.cons.inj h
    rw [partsOf, List.map_cons, toJson_text v t hv, itemsToJson_text vec ts hvec]

/-- The texts of the members of a map. -/
theorem entriesToJson_text : ∀ entries (ts : List (List UInt8)),
    entriesToJson entries = ts.map .ok → ts = (entryParts entries).map (Member.text [])
  | [], [], _ => rfl
  | (key, v) :: entries, t :: ts, h => by
    obtain ⟨hpair, hentries⟩ := List.cons.inj h
    obtain ⟨text, hv, rfl⟩ := pairToJson_eq_ok hpair
    rw [entryParts, List.map_cons, toJson_text v text hv, entriesToJson_text entries ts hentries]
    rfl

/-- The texts of the members of an object. -/
theorem jsonElements_text : ∀ elements (ms : List (List UInt8 × List UInt8)),
    present (jsonElements elements) = ms.map (fun m => (m.1, .ok m.2)) →
      ms.map memberText = (elementParts elements).map (Member.text [blank])
  | [], [], _ => rfl
  | (name, false, v) :: elements, ms, h => jsonElements_text elements ms h
  | (name, true, v) :: elements, (name', text) :: ms, h => by
    obtain ⟨hhead, helements⟩ := List.cons.inj h
    obtain ⟨rfl, hv⟩ := Prod.mk.inj hhead
    rw [List.map_cons, jsonElements_text elements ms helements, toJson_text v text hv]
    rfl

end

mutual

/-- A plain value is formatted when its text is not too long for an `sstring`. -/
theorem toJson_plain : ∀ v, isPlainValue v = true → (partOf v).text.length < 2 ^ 32 →
    toJson v = .ok (partOf v).text
  | .int _, _, hsize => toSstring_eq_ok_iff.mpr ⟨rfl, hsize⟩
  | .bool true, _, hsize => toSstring_eq_ok_iff.mpr ⟨rfl, hsize⟩
  | .bool false, _, hsize => toSstring_eq_ok_iff.mpr ⟨rfl, hsize⟩
  | .str s, hplain, hsize => by
    rw [isPlainValue, Bool.and_eq_true] at hplain
    rw [partOf, cStr_of_plain hplain.1, List.length_cons, List.length_append] at hsize
    exact stringToJson_plain hplain.1 hsize
  | .vector vec, hplain, hsize => by
    refine rangeToJson_eq_ok_iff.mpr ⟨_, itemsToJson_plain vec hplain ?_, rfl, hsize⟩
    intro p hp
    have hle := length_le_intercalate [comma] (List.mem_map_of_mem (f := Part.text) hp)
    rw [partOf, arrayPart, List.length_cons, List.length_append] at hsize
    omega
  | .map entries, hplain, hsize => by
    refine rangeToJson_eq_ok_iff.mpr ⟨_, entriesToJson_plain entries hplain ?_, rfl, hsize⟩
    intro m hm
    have hle := length_le_intercalate [comma] (List.mem_map_of_mem (f := Member.text []) hm)
    rw [partOf, objectPart, List.length_cons, List.length_append] at hsize
    omega
  | .base elements, hplain, hsize => by
    have hparts : ∀ m ∈ elementParts elements, m.part.text.length < 2 ^ 32 := by
      intro m hm
      have hle := length_le_intercalate [comma, blank]
        (List.mem_map_of_mem (f := Member.text [blank]) hm)
      have hshorter := Member.text_length [blank] m
      rw [partOf, objectPart, List.length_cons, List.length_append] at hsize
      omega
    obtain ⟨ms, hms⟩ := jsonElements_plain elements hplain hparts
    have hbase := baseToJson_eq_ok_iff.mpr ⟨ms, hms, rfl⟩
    rw [jsonElements_text elements ms hms] at hbase
    exact bind_eq_ok_iff.mpr ⟨_, hbase, toSstring_eq_ok_iff.mpr ⟨rfl, hsize⟩⟩

/-- A vector of plain values has all its texts. -/
theorem itemsToJson_plain : ∀ vec, arePlainValues vec = true →
    (∀ p ∈ partsOf vec, p.text.length < 2 ^ 32) →
      itemsToJson vec = ((partsOf vec).map Part.text).map .ok
  | [], _, _ => rfl
  | v :: vec, hplain, hsize => by
    rw [arePlainValues, Bool.and_eq_true] at hplain
    rw [partsOf, List.forall_mem_cons] at hsize
    rw [itemsToJson, toJson_plain v hplain.1 hsize.1, itemsToJson_plain vec hplain.2 hsize.2]
    rfl

/-- A map with plain keys and values has all its texts. -/
theorem entriesToJson_plain : ∀ entries, arePlainEntries entries = true →
    (∀ m ∈ entryParts entries, (m.text []).length < 2 ^ 32) →
      entriesToJson entries = ((entryParts entries).map (Member.text [])).map .ok
  | [], _, _ => rfl
  | (key, v) :: entries, hplain, hsize => by
    simp only [arePlainEntries, Bool.and_eq_true] at hplain
    obtain ⟨⟨⟨hkey, -⟩, hv⟩, hentries⟩ := hplain
    rw [entryParts, List.forall_mem_cons] at hsize
    have hshorter := Member.text_length [] ⟨cStr key, cutOff key, partOf v⟩
    have hvalue := toJson_plain v hv (Nat.lt_trans hshorter hsize.1)
    have hpair : pairToJson key (.ok (partOf v).text) =
        .ok (Member.text [] ⟨cStr key, cutOff key, partOf v⟩) := pairToJson_plain hkey hsize.1
    rw [entriesToJson, hvalue, hpair, entriesToJson_plain entries hentries hsize.2]
    rfl

/-- An object with plain elements has all its texts. -/
theorem jsonElements_plain : ∀ elements, arePlainElements elements = true →
    (∀ m ∈ elementParts elements, m.part.text.length < 2 ^ 32) →
      ∃ ms : List (List UInt8 × List UInt8),
        present (jsonElements elements) = ms.map fun m => (m.1, .ok m.2)
  | [], _, _ => ⟨[], rfl⟩
  | (name, false, v) :: elements, hplain, hsize => jsonElements_plain elements hplain hsize
  | (name, true, v) :: elements, hplain, hsize => by
    rw [arePlainElements, Bool.and_eq_true] at hplain
    obtain ⟨hhead, helements⟩ := hplain
    simp only [Bool.true_eq_false, decide_false, Bool.false_or, Bool.and_eq_true] at hhead
    rw [elementParts, if_neg (by decide), List.forall_mem_cons] at hsize
    obtain ⟨ms, hms⟩ := jsonElements_plain elements helements hsize.2
    refine ⟨(name, (partOf v).text) :: ms, ?_⟩
    rw [List.map_cons, ← hms, ← toJson_plain v hhead.2 hsize.1]
    rfl

end

/-! ### What is read back -/

/-- A text was made, and it is read as the value. -/
def ReadsBack (text : Except SstringFault (List UInt8)) (j : Json) : Prop :=
  ∃ t, text = .ok t ∧ parse t = some j

/-- A value that was formatted is as large as its text. -/
theorem toJson_size {v : JsonValue} {t : List UInt8} (h : toJson v = .ok t) :
    t.length < 2 ^ 32 := by
  have hsstring : ∀ {text}, toSstring text = .ok t → t.length < 2 ^ 32 := by
    intro text htext
    obtain ⟨rfl, hsize⟩ := toSstring_eq_ok_iff.mp htext
    exact hsize
  cases v with
  | int n => exact hsstring h
  | bool b => exact hsstring h
  | str s =>
    simp only [toJson, stringToJson, charsToJson, bind_eq_ok_iff] at h
    obtain ⟨_, -, _, -, _, -, hlast⟩ := h
    exact hsstring hlast
  | vector vec =>
    obtain ⟨_, -, hlast⟩ := bind_eq_ok_iff.mp h
    exact hsstring hlast
  | map entries =>
    obtain ⟨_, -, hlast⟩ := bind_eq_ok_iff.mp h
    exact hsstring hlast
  | base elements =>
    obtain ⟨_, -, hlast⟩ := bind_eq_ok_iff.mp h
    exact hsstring hlast

/-- The text of a value reads back as the value exactly when the value is plain. -/
theorem parse_partOf_iff (v : JsonValue) :
    parse (partOf v).text = some (jsonOf v) ↔ isPlainValue v = true := by
  rw [← partOf_json, parse_eq_some_iff (partOf_reads v), partOf_cond]

/-- When a plain value is formatted. -/
theorem toJson_ok_iff {v : JsonValue} (hplain : isPlainValue v = true) :
    (∃ t, toJson v = .ok t) ↔ textSize v < 2 ^ 32 := by
  rw [textSize_eq v hplain]
  constructor
  · rintro ⟨t, h⟩
    have hsize := toJson_size h
    rwa [toJson_text v t h] at hsize
  · intro hsize
    exact ⟨_, toJson_plain v hplain hsize⟩

/-- When the text of a value is read back. -/
theorem readsBack_toJson_iff (v : JsonValue) :
    ReadsBack (toJson v) (jsonOf v) ↔ isPlainValue v = true ∧ textSize v < 2 ^ 32 := by
  constructor
  · rintro ⟨t, htext, hparse⟩
    have heq := toJson_text v t htext
    rw [heq] at hparse
    have hplain := (parse_partOf_iff v).mp hparse
    exact ⟨hplain, (toJson_ok_iff hplain).mp ⟨t, htext⟩⟩
  · rintro ⟨hplain, hsize⟩
    obtain ⟨t, htext⟩ := (toJson_ok_iff hplain).mpr hsize
    refine ⟨t, htext, ?_⟩
    rw [toJson_text v t htext]
    exact (parse_partOf_iff v).mpr hplain

/-- The values of the elements that are set are formatted. -/
theorem present_ok_iff {elements : List (List UInt8 × Bool × JsonValue)}
    (hplain : arePlainElements elements = true) :
    (∃ ms : List (List UInt8 × List UInt8),
        present (jsonElements elements) = ms.map fun m => (m.1, .ok m.2)) ↔
      ∀ e ∈ elements, e.2.1 = true → textSize e.2.2 < 2 ^ 32 := by
  induction elements with
  | nil => exact iff_of_true ⟨[], rfl⟩ (fun e he => absurd he List.not_mem_nil)
  | cons e elements ih =>
    obtain ⟨name, set, v⟩ := e
    rw [arePlainElements, Bool.and_eq_true] at hplain
    rw [List.forall_mem_cons]
    cases set with
    | false =>
      refine (ih hplain.2).trans ⟨fun h => ⟨nofun, h⟩, fun h => h.2⟩
    | true =>
      have hhead := hplain.1
      simp only [Bool.true_eq_false, decide_false, Bool.false_or, Bool.and_eq_true] at hhead
      have hpresent : present (jsonElements ((name, true, v) :: elements)) =
          (name, toJson v) :: present (jsonElements elements) := rfl
      rw [hpresent, ← toJson_ok_iff hhead.2, ← ih hplain.2]
      constructor
      · rintro ⟨ms, hms⟩
        cases ms with
        | nil => cases hms
        | cons m ms =>
          obtain ⟨hm, hms⟩ := List.cons.inj hms
          exact ⟨fun _ => ⟨m.2, (Prod.mk.inj hm).2⟩, ms, hms⟩
      · rintro ⟨hv, ms, hms⟩
        obtain ⟨t, ht⟩ := hv rfl
        exact ⟨(name, t) :: ms, by rw [hms, ht]; rfl⟩

/-- When the text of a `json_base` is read back. Its own text has no limit. -/
theorem readsBack_baseToJson_iff (elements : List (List UInt8 × Bool × JsonValue)) :
    ReadsBack (baseToJson (jsonElements elements)) (.object (membersOf elements)) ↔
      arePlainElements elements = true ∧
        ∀ e ∈ elements, e.2.1 = true → textSize e.2.2 < 2 ^ 32 := by
  have hparse : parse (partOf (.base elements)).text = some (.object (membersOf elements)) ↔
      arePlainElements elements = true := parse_partOf_iff (.base elements)
  constructor
  · rintro ⟨t, htext, hread⟩
    obtain ⟨ms, hms, rfl⟩ := baseToJson_eq_ok_iff.mp htext
    rw [jsonElements_text elements ms hms] at hread
    have hplain := hparse.mp hread
    exact ⟨hplain, (present_ok_iff hplain).mp ⟨ms, hms⟩⟩
  · rintro ⟨hplain, hsize⟩
    obtain ⟨ms, hms⟩ := (present_ok_iff hplain).mpr hsize
    refine ⟨_, baseToJson_eq_ok_iff.mpr ⟨ms, hms, rfl⟩, ?_⟩
    rw [jsonElements_text elements ms hms]
    exact hparse.mpr hplain

/-- The size of the body of an exception. -/
theorem textSize_jsonException (msg : List UInt8) (status : StatusType) :
    textSize (.base (jsonException msg status)) = msg.length + 28 := by
  have hcode : (decimalInt status.code).length = 3 := by cases status <;> rfl
  have hmessage : (text "message").length = 7 := rfl
  have hname : (text "code").length = 4 := rfl
  simp only [jsonException, textSize, elementSizes, Bool.true_eq_false, if_false, hcode, hmessage,
    hname, sizeWith, List.sum_cons, List.sum_nil, List.length_cons, List.length_nil]
  omega

/-- When the body of an exception is read back. -/
theorem readsBack_exceptionBody_iff (e : ExceptionKind) :
    ReadsBack (exceptionBody e)
        (.object [(text "message", .string e.message), (text "code", .number e.status.code 0)]) ↔
      isPlainText e.message = true ∧ isUtf8 e.message = true ∧ e.message.length + 28 < 2 ^ 32 := by
  have h := readsBack_toJson_iff (.base (jsonException e.message e.status))
  have hplain : isPlainValue (.base (jsonException e.message e.status)) =
      (isPlainText e.message && isUtf8 e.message) := by
    have hmessage : isPlainText (text "message") = true := rfl
    have hcode : isPlainText (text "code") = true := rfl
    simp only [jsonException, isPlainValue, arePlainElements, hmessage, hcode,
      isUtf8_of_ascii (s := text "message") rfl, isUtf8_of_ascii (s := text "code") rfl,
      Bool.true_eq_false, decide_false, Bool.false_or, Bool.true_and, Bool.and_true]
  rw [textSize_jsonException, hplain, Bool.and_eq_true, and_assoc] at h
  exact h

/-- Which texts of the formatter, of `json_base` and of exceptions are read back. -/
theorem json_reads_back_iff (v : JsonValue) (elements : List (List UInt8 × Bool × JsonValue))
    (e : ExceptionKind) :
    (ReadsBack (toJson v) (jsonOf v) ↔ isPlainValue v = true ∧ textSize v < 2 ^ 32) ∧
      (ReadsBack (baseToJson (jsonElements elements)) (.object (membersOf elements)) ↔
        arePlainElements elements = true ∧
          ∀ el ∈ elements, el.2.1 = true → textSize el.2.2 < 2 ^ 32) ∧
      (ReadsBack (exceptionBody e) (.object [(text "message", .string e.message),
          (text "code", .number e.status.code 0)]) ↔
        isPlainText e.message = true ∧ isUtf8 e.message = true ∧
          e.message.length + 28 < 2 ^ 32) :=
  ⟨readsBack_toJson_iff v, readsBack_baseToJson_iff elements, readsBack_exceptionBody_iff e⟩

/-- A string that is a quote ends at once, and a quote is left over. -/
theorem not_readsBack_quote : ¬ReadsBack (toJson (.str [quote])) (jsonOf (.str [quote])) := by
  rintro ⟨t, htext, hparse⟩
  have hnone : parse (partOf (.str [quote])).text = none := rfl
  rw [toJson_text _ _ htext, hnone] at hparse
  cases hparse

end Netstar.Proofs.Json
