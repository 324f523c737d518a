import Mathlib.Logic.Function.Basic

/-!
# `Netstar.Spec.Core.PageList`: `page` and `page_list`

The allocator keeps one `page` for each page of its memory, in an array. The array is a function
here, and an entry past the end of the array is whatever the memory there holds. Spans are linked
through the pages at their start, by index, and the index 0 is the null link.

`span_size` is 32 bits wide. It is a `Nat` here, and the sums that can wrap do so where they are
computed.
-/

set_option autoImplicit false

namespace Netstar.Spec.Core

/-- `page_size`. -/
def pageSize : Nat := 4096

/-- Why an operation has no result: an `assert` fails, the behaviour is undefined, or a loop that
follows links does not end. -/
inductive MemoryFault where
  | assertion
  | undefined
  | endless
  deriving DecidableEq, Repr

/-- `page`, with what the search for a span reads and writes. `prev` and `next` are its `link`. -/
structure Page where
  free : Bool
  spanSize : Nat
  prev : Nat
  next : Nat
  deriving DecidableEq, Repr

/-- A page of an array that was never written. -/
def Page.zero : Page := ⟨false, 0, 0, 0⟩

/-- The page array. -/
abbrev PageArray := Nat → Page

/-- A write to some fields of one page. -/
def PageArray.modify (ary : PageArray) (i : Nat) (f : Page → Page) : PageArray :=
  Function.update ary i (f (ary i))

/-- `page_list`. -/
structure PageList where
  front : Nat
  back : Nat
  deriving DecidableEq, Repr

namespace PageList

/-- `page_list()`. -/
def create : PageList := ⟨0, 0⟩

/-- `empty`. -/
def empty (list : PageList) : Bool := list.front == 0

/-- `erase`. -/
def erase (list : PageList) (ary : PageArray) (span : Nat) : PageList × PageArray :=
  let (list, ary) :=
    if (ary span).next ≠ 0 then
      (list, ary.modify (ary span).next fun p => { p with prev := (ary span).prev })
    else ({ list with back := (ary span).prev }, ary)
  if (ary span).prev ≠ 0 then
    (list, ary.modify (ary span).prev fun p => { p with next := (ary span).next })
  else ({ list with front := (ary span).next }, ary)

/-- `push_front`. -/
def pushFront (list : PageList) (ary : PageArray) (span : Nat) : PageList × PageArray :=
  let (list, ary) :=
    if list.front ≠ 0 then (list, ary.modify list.front fun p => { p with prev := span })
    else ({ list with back := span }, ary)
  let ary := ary.modify span fun p => { p with next := list.front, prev := 0 }
  ({ list with front := span }, ary)

/-- The loop of `find`, from the span `n` on. -/
def findLoop (ary : PageArray) (nPages : Nat) : Nat → Nat → Except MemoryFault (Option Nat)
  | 0, _ => .error .endless
  | bound + 1, n =>
    if n = 0 then .ok none
    else if (ary n).spanSize < nPages then findLoop ary nPages bound (ary n).next
    else .ok (some n)

/-- `find`. `bound` is larger than the number of spans that a list can have. -/
def find (list : PageList) (ary : PageArray) (bound nPages : Nat) :
    Except MemoryFault (Option Nat) :=
  findLoop ary nPages bound list.front

end PageList

end Netstar.Spec.Core
