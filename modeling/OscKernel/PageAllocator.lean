import Mathlib.Data.Nat.Bitwise
import Mathlib.Tactic

/-!
# The page allocator

The buddy allocator of `mm.c`. A `struct PageInfo *` is an index into `page_list`, a null pointer
is `none`; addresses are numbers and the null address is `0`. `_alloc` and `_free` are called
`Mm.alloc` and `Mm.free`.

The loops of the source count in known bounds, so they recurse on the number of rounds that are
left: the search and the split loop on orders, the merge loop on the orders below the maximum.
-/

namespace OscKernel.Mm

def maxOrder : ℕ := 14
def pageSize : ℕ := 4096
def memorySize : ℕ := 0x3C000000
def pageNum : ℕ := memorySize / pageSize
def maxBlockSize : ℕ := 1 <<< (maxOrder - 1)
def maxAllocSize : ℕ := pageSize * maxBlockSize
/-- `mm_init` sets the variable `memory_start` to this address and nothing changes it later. -/
def memoryStart : ℕ := 0

/-- `struct PageInfo`. `idx` is never negative; `order` is `-1` in the upper half of a merged
block and `cacheOrder` is `-1` outside the chunk caches. -/
structure PageInfo where
  idx : ℕ
  order : ℤ
  cacheOrder : ℤ
  entryInList : Option ℕ
  prev : Option ℕ
  next : Option ℕ
  deriving DecidableEq, Repr

structure State where
  freeList : ℕ → Option ℕ
  pageList : ℕ → PageInfo

def State.setHead (st : State) (k : ℕ) (h : Option ℕ) : State :=
  { st with freeList := Function.update st.freeList k h }

def State.modify (st : State) (i : ℕ) (f : PageInfo → PageInfo) : State :=
  { st with pageList := Function.update st.pageList i (f (st.pageList i)) }

/-- Assignment through a pointer field that the source guards with a null check. -/
def State.modifyPtr (st : State) (i : Option ℕ) (f : PageInfo → PageInfo) : State :=
  match i with
  | none => st
  | some i => st.modify i f

def round (size : ℕ) : ℕ :=
  if size % pageSize = 0 then size else (size / pageSize + 1) * pageSize

def getOrderLoop (size : ℕ) : ℕ → ℕ → ℕ
  | 0, order => order
  | n + 1, order => if 1 <<< order < size then getOrderLoop size n (order + 1) else order

def getOrder (size : ℕ) : ℕ := getOrderLoop (size / pageSize) 32 0

def getBuddy (idx order : ℕ) : ℕ := idx ^^^ 1 <<< order

/-- `(ptr - memory_start) / PAGE_SIZE`, a signed 64-bit quotient narrowed to `int`. -/
def pageIdx (ptr : ℕ) : ℤ :=
  Int.bmod (Int.tdiv (Int.bmod ((ptr : ℤ) - memoryStart) (2 ^ 64)) pageSize) (2 ^ 32)

def addToFreeList (st : State) (entry : ℕ) (order : ℤ) : State :=
  if order < 0 ∨ (maxOrder : ℤ) ≤ order then st
  else
    let k := order.toNat
    match st.freeList k with
    | none => (st.setHead k (some entry)).modify entry fun e => { e with next := none, prev := none }
    | some head =>
      let st := st.modify head fun e => { e with prev := some entry }
      let st := st.modify entry fun e => { e with prev := none }
      let st := st.modify entry fun e => { e with next := some head }
      st.setHead k (some entry)

def rmFromFreeList (st : State) (entry : ℕ) (order : ℤ) : State :=
  if order < 0 ∨ (maxOrder : ℤ) ≤ order then st
  else
    let k := order.toNat
    let st :=
      if st.freeList k = some entry then
        let next := (st.pageList entry).next
        (st.setHead k next).modifyPtr next fun e => { e with prev := none }
      else
        let next := (st.pageList entry).next
        let prev := (st.pageList entry).prev
        (st.modifyPtr prev fun e => { e with next := next }).modifyPtr next
          fun e => { e with prev := prev }
    st.modify entry fun e => { e with next := none, prev := none }

def zeroPage : PageInfo :=
  { idx := 0, order := 0, cacheOrder := 0, entryInList := none, prev := none, next := none }

def mmInitBlock (st : State) (i : ℕ) : State :=
  let st := st.modify i fun e => { e with idx := i }
  let st := addToFreeList st i (maxOrder - 1 : ℕ)
  st.modify i fun e => { e with order := (maxOrder - 1 : ℕ), entryInList := some i }

def mmInitLoop (st : State) : ℕ → State
  | 0 => st
  | n + 1 => mmInitBlock (mmInitLoop st n) (n * maxBlockSize)

def mmInit : State :=
  let st : State := { freeList := fun _ => none, pageList := fun _ => zeroPage }
  let st := mmInitLoop st (pageNum / maxBlockSize)
  { st with pageList := fun i =>
      if i < pageNum then { st.pageList i with cacheOrder := -1 } else st.pageList i }

/-- One round of the split loop of `_alloc`: the upper half, of order `i`, goes on its list. -/
def allocSplitStep (st : State) (block i : ℕ) : State :=
  let newEntry := block + 1 <<< i
  let st := st.modify newEntry fun e => { e with idx := (st.pageList block).idx + 1 <<< i }
  let st := addToFreeList st newEntry i
  let st := st.modify (st.pageList newEntry).idx fun e => { e with order := i }
  st.modify (st.pageList newEntry).idx fun e => { e with entryInList := some newEntry }

def allocSplit (block order : ℕ) : ℕ → State → State
  | 0, st => st
  | d + 1, st => allocSplit block order d (allocSplitStep st block (order + d))

def allocSearch (st : State) (order : ℕ) : ℕ → ℕ → State × ℕ
  | 0, _ => (st, 0)
  | n + 1, i =>
    match st.freeList i with
    | none => allocSearch st order n (i + 1)
    | some block =>
      let st := rmFromFreeList st block i
      let st := allocSplit block order (i - order) st
      let st := st.modify (st.pageList block).idx fun e => { e with order := order }
      let st := st.modify (st.pageList block).idx fun e => { e with entryInList := none }
      (st, memoryStart + (st.pageList block).idx * pageSize)

def alloc (st : State) (size : ℕ) : State × ℕ :=
  if size = 0 ∨ maxAllocSize < size then (st, 0)
  else
    let size := round size
    let order := getOrder size
    allocSearch st order (maxOrder - order) order

def freeJoin (st : State) (buddyEntry currIdx buddyIdx order : ℕ) : State :=
  let st := rmFromFreeList st buddyEntry order
  let biggerIdx := max currIdx buddyIdx
  let smallerIdx := min currIdx buddyIdx
  let st := st.modify smallerIdx fun e => { e with order := (order + 1 : ℕ) }
  let st := st.modify biggerIdx fun e => { e with order := -1 }
  st.modify biggerIdx fun e => { e with entryInList := none }

def freeInsert (st : State) (currIdx order : ℕ) : State :=
  let st := st.modify currIdx fun e => { e with idx := currIdx }
  let st := addToFreeList st currIdx order
  let st := st.modify currIdx fun e => { e with entryInList := some currIdx }
  st.modify currIdx fun e => { e with order := order }

/-- The merge loop of `_free` at order `order`, with `n` orders left below the maximum. A block
that reaches the maximum order leaves the loop without being put on a list. -/
def freeMerge : ℕ → State → ℕ → ℕ → State
  | 0, st, _, _ => st
  | n + 1, st, currIdx, order =>
    let buddyIdx := getBuddy currIdx order
    match (st.pageList buddyIdx).entryInList with
    | some buddyEntry =>
      if (st.pageList buddyIdx).order = (st.pageList currIdx).order then
        freeMerge n (freeJoin st buddyEntry currIdx buddyIdx order) (min currIdx buddyIdx) (order + 1)
      else freeInsert st currIdx order
    | none => freeInsert st currIdx order

/-- `_free`. Where the recorded order is negative the source shifts by it, which is undefined;
the model stops there without a change. -/
def free (st : State) (ptr : ℕ) : State :=
  if ptr = 0 then st
  else
    let originalIdx := pageIdx ptr
    if originalIdx < 0 ∨ (pageNum : ℤ) ≤ originalIdx ∨
        (st.pageList originalIdx.toNat).entryInList ≠ none then st
    else
      let order := (st.pageList originalIdx.toNat).order
      if order < 0 then st
      else freeMerge (maxOrder - 1 - order.toNat) st originalIdx.toNat order.toNat

/-- Put the block of order `order` at page `idx` on its list, as `split` does for both halves. -/
def splitInsert (st : State) (idx order : ℕ) : State :=
  let st := st.modify idx fun e => { e with idx := idx }
  let st := st.modify idx fun e => { e with order := order }
  let st := addToFreeList st idx order
  st.modify idx fun e => { e with entryInList := some idx }

def split (st : State) (idx order : ℕ) : State :=
  if maxOrder ≤ order then st
  else
    let st := rmFromFreeList st idx order
    let st := st.modify idx fun e => { e with entryInList := none }
    let order := order - 1
    let st := splitInsert st idx order
    splitInsert st (getBuddy idx order) order

def blockIdx (i k : ℕ) : ℕ := i - (i &&& (1 <<< k - 1))

def reserveSplit (startIdx endIdx : ℕ) : ℕ → State → State
  | 0, st => st
  | n + 1, st =>
    let currOrder := n + 1
    let startBlockIdx := blockIdx startIdx currOrder
    let endBlockIdx := blockIdx endIdx currOrder
    let st :=
      if startBlockIdx = endBlockIdx then
        if (st.pageList startBlockIdx).order = currOrder then split st startBlockIdx currOrder else st
      else
        let st :=
          if (st.pageList startBlockIdx).order = currOrder then split st startBlockIdx currOrder else st
        if (st.pageList endBlockIdx).order = currOrder then split st endBlockIdx currOrder else st
    reserveSplit startIdx endIdx n st

/-- The removal loop of `reserve` at page `i`, which has at most `n` pages left to visit. -/
def reserveRemove (endIdx : ℕ) : ℕ → ℕ → State → State
  | 0, _, st => st
  | n + 1, i, st =>
    if endIdx < i then st
    else
      let st :=
        if (st.pageList i).entryInList ≠ none then
          (rmFromFreeList st i (st.pageList i).order).modify i fun e => { e with entryInList := none }
        else st
      reserveRemove endIdx n (i + 1 <<< (st.pageList i).order.toNat) st

def reserve (st : State) (start stop : ℕ) : State :=
  let stop := stop - 1
  let startIdx := (start - memoryStart) / pageSize
  let endIdx := (stop - memoryStart) / pageSize
  let st := reserveSplit startIdx endIdx (maxOrder - 1) st
  reserveRemove endIdx (endIdx + 1 - startIdx) startIdx st

end OscKernel.Mm
