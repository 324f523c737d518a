import Mathlib.Algebra.Order.Ring.Int
import Netstar.Spec.Core.PageList

/-!
# `Netstar.Spec.Core.CpuPages`: the page allocator of one cpu

`cpu_pages` has the pages of one cpu. Free pages are kept in spans, and `free_spans[i]` has the free
spans with a size from `2^i` to `2^(i + 1) - 1`. A page is known by its number.

Here is the search for a free span, `find_and_unlink_span`, with `initialize`, which it calls when the
cpu has no pages yet. What an allocation does with the span that it finds is not part of the model.

The numbers of pages are 32 bits wide and wrap. A shift by the width of the type or more, and the
leading zeros of zero, have no meaning.
-/

set_option autoImplicit false

namespace Netstar.Spec.Core

/-- Why a call does not return. -/
inductive AllocStop where
  | badAlloc
  | abort
  | fault (fault : MemoryFault)
  deriving DecidableEq, Repr

/-- `count_leading_zeros` of an `unsigned`. -/
def countLeadingZerosUnsigned (x : UInt32) : Except AllocStop Nat :=
  if x = 0 then .error (.fault .undefined) else .ok (31 - x.toNat.log2)

/-- `index_of`. -/
def indexOf (pages : UInt32) : Except AllocStop Nat := do
  let zeros ← countLeadingZerosUnsigned pages
  return 32 - zeros - 1

/-- `index_of_conservative`. -/
def indexOfConservative (pages : UInt32) : Except AllocStop Nat :=
  if pages = 1 then .ok 0
  else do
    let zeros ← countLeadingZerosUnsigned (pages - 1)
    return 32 - zeros

/-- `2u << shift`. -/
def shiftTwo (shift : Nat) : Except AllocStop UInt32 :=
  if 32 ≤ shift then .error (.fault .undefined) else .ok (UInt32.ofNat (2 * 2 ^ shift))

/-- `align_up` of `size_t` values. -/
def alignUp (v align : UInt64) : UInt64 := (v + align - 1) &&& ~~~(align - 1)

/-- `nr_span_lists`. -/
def nrSpanLists : Nat := 32

/-- `max_cpus`. -/
def maxCpus : Nat := 256

/-- `sizeof(page)`. -/
def sizeofPage : Nat := 32

/-- The members of `cpu_pages` for the pages. -/
structure CpuPages where
  pages : PageArray
  nrPages : Nat
  nrFreePages : UInt32
  freeSpans : Nat → PageList

/-- What `initialize` gets from outside: the number of the cpu, and whether `mmap` succeeds. -/
structure Boot where
  cpuId : Nat
  mapped : Bool
  deriving DecidableEq, Repr

namespace CpuPages

/-- `cpu_pages` before `initialize`. -/
def create : CpuPages := ⟨fun _ => Page.zero, 0, 0, fun _ => PageList.create⟩

/-- `unlink`, from `free_spans[idx]`. -/
def unlink (s : CpuPages) (idx span : Nat) : CpuPages :=
  let (list, pages) := (s.freeSpans idx).erase s.pages span
  { s with pages := pages, freeSpans := Function.update s.freeSpans idx list }

/-- `link`, to `free_spans[idx]`. -/
def link (s : CpuPages) (idx span : Nat) : CpuPages :=
  let (list, pages) := (s.freeSpans idx).pushFront s.pages span
  { s with pages := pages, freeSpans := Function.update s.freeSpans idx list }

/-- Both ends of a span get its size. -/
def mark (s : CpuPages) (first last : Nat) (free : Bool) (size : Nat) : CpuPages :=
  let set := fun p : Page => { p with free := free, spanSize := size }
  { s with pages := (s.pages.modify last set).modify first set }

/-- `free_span_no_merge`. -/
def freeSpanNoMerge (s : CpuPages) (spanStart nrPages : UInt32) : Except AllocStop CpuPages :=
  if nrPages = 0 then .error (.fault .assertion)
  else do
    let s := { s with nrFreePages := s.nrFreePages + nrPages }
    let s := s.mark spanStart.toNat (spanStart + nrPages - 1).toNat true nrPages.toNat
    let idx ← indexOf nrPages
    return s.link idx spanStart.toNat

/-- The reserved pages are taken: `for (i = 0; i < reserved; ++i) pages[i].free = false`. -/
def reserve : Nat → PageArray → PageArray
  | 0, ary => ary
  | i + 1, ary => (reserve i ary).modify i fun p => { p with free := false }

/-- `initialize`. The memory that `mmap` returns is zero. -/
def initializePages (boot : Boot) (s : CpuPages) : Except AllocStop (Bool × CpuPages) :=
  if s.nrPages ≠ 0 then .ok (false, s)
  else if maxCpus ≤ boot.cpuId then .error (.fault .assertion)
  else if !boot.mapped then .error .abort
  else do
    let nrPages := (32 <<< 20) / pageSize
    let reserved := alignUp (UInt64.ofNat (sizeofPage * (nrPages + 1))) (UInt64.ofNat pageSize) /
      UInt64.ofNat pageSize
    let pages := reserve reserved.toNat fun _ => Page.zero
    -- The page behind the last one is never free, so that no merge runs past the end.
    let pages := pages.modify nrPages fun p => { p with free := false }
    let s := { s with pages := pages, nrPages := nrPages }
    let s ← s.freeSpanNoMerge reserved.toUInt32 (UInt32.ofNat nrPages - reserved.toUInt32)
    return (true, s)

/-- `while (idx < nr_span_lists && free_spans[idx].empty()) ++idx`, with the number of lists left. -/
def skipEmpty (s : CpuPages) : Nat → Nat → Nat
  | 0, idx => idx
  | lists + 1, idx => if (s.freeSpans idx).empty then s.skipEmpty lists (idx + 1) else idx

/-- The first span of `free_spans[idx]` with enough pages, unlinked. -/
def unlinkFrom (s : CpuPages) (idx : Nat) (nPages : UInt32) : Except AllocStop (Option Nat × CpuPages) := do
  let span ← ((s.freeSpans idx).find s.pages (s.nrPages + 1) nPages.toNat).mapError .fault
  match span with
  | none => return (none, s)
  | some span => return (some span, s.unlink idx span)

/-- `find_and_unlink_span`. It calls itself at most once, after `initialize`. -/
def findAndUnlinkSpan (boot : Boot) (nPages : UInt32) :
    Nat → CpuPages → Except AllocStop (Option Nat × CpuPages)
  | 0, _ => .error (.fault .endless)
  | calls + 1, s => do
    let origIdx ← indexOfConservative nPages
    let limit ← shiftTwo origIdx
    if limit ≤ nPages then .error .badAlloc
    else
      let idx := s.skipEmpty (nrSpanLists - origIdx) origIdx
      if idx = nrSpanLists then
        -- No list from `orig_idx` on has a span.
        let (initialized, s) ← s.initializePages boot
        if initialized then findAndUnlinkSpan boot nPages calls s
        else
          -- The list below may still hold a span that is long enough.
          let idx ← indexOf nPages
          if idx = origIdx then return (none, s)
          else s.unlinkFrom idx nPages
      else s.unlinkFrom idx nPages

end CpuPages

end Netstar.Spec.Core
