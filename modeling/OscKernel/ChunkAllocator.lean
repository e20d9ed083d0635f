import OscKernel.PageAllocator

/-!
# The dynamic allocator

`alloc.c` on top of the page allocator. Requests of up to 128 bytes are served from chunks carved
out of single pages, larger ones by `_alloc`. A chunk starts with a `struct kmem_cache_entry`, whose
two pointers lie in the page itself: `mem` gives the 64-bit word at an address, the field `prev` of
an entry is the word at its address and `next` the word 8 bytes further. Addresses are numbers and
the null pointer is `0`.
-/

namespace OscKernel.Alloc

open Mm (pageSize memorySize)

def maxChunkSize : ℕ := 128
def minCacheOrder : ℕ := 4
def maxCacheOrder : ℕ := 7
def cacheNum : ℕ := 4
/-- `sizeof(struct kmem_cache_entry)`. -/
def headerSize : ℕ := 16

/-- Where the linker puts the end of the kernel image, whose load address is `0x80000`. -/
structure Layout where
  bssEnd : ℕ
  image : 0x80000 ≤ bssEnd
  fits : (bssEnd + 15) / 16 * 16 + 0x10000 ≤ memorySize

def Layout.stackTop (L : Layout) : ℕ := (L.bssEnd + 15) / 16 * 16 + 0x10000

structure KmemCache where
  cacheSize : ℕ
  freeList : ℕ

structure State where
  mm : Mm.State
  mem : ℕ → ℕ
  kmemCaches : ℕ → KmemCache

def State.freeList (st : State) (cache : ℕ) : ℕ := (st.kmemCaches cache).freeList

def State.store (st : State) (addr value : ℕ) : State :=
  { st with mem := Function.update st.mem addr value }

def State.setFreeList (st : State) (cache entry : ℕ) : State :=
  { st with
    kmemCaches := Function.update st.kmemCaches cache { st.kmemCaches cache with freeList := entry } }

def State.setCacheOrder (st : State) (page : ℕ) (order : ℤ) : State :=
  { st with mm := st.mm.modify page fun e => { e with cacheOrder := order } }

def kmemFreelistPush (st : State) (entry cache : ℕ) : State :=
  let st := st.store (entry + 8) (st.freeList cache)
  let st := if st.freeList cache ≠ 0 then st.store (st.freeList cache) entry else st
  let st := st.setFreeList cache entry
  st.store entry 0

def kmemFreelistPop (st : State) (cache : ℕ) : State :=
  let tmp := st.freeList cache
  let st := st.setFreeList cache (st.mem (st.freeList cache + 8))
  let st := if st.freeList cache ≠ 0 then st.store (st.freeList cache) 0 else st
  let st := st.store (tmp + 8) 0
  st.store tmp 0

/-- The loops that push `n` chunks of `step` bytes each, from address `page` on. -/
def pushChunks (cache step : ℕ) : ℕ → ℕ → State → State
  | 0, _, st => st
  | n + 1, page, st => pushChunks cache step n (page + step) (kmemFreelistPush st page cache)

def chunkNum (st : State) (cache : ℕ) : ℕ :=
  pageSize / ((st.kmemCaches cache).cacheSize + headerSize)

/-- The second loop of `kmem_cache_init` at cache `i`, with `n` caches left. -/
def kmemCacheInitLoop : ℕ → ℕ → State → State
  | 0, _, st => st
  | n + 1, i, st =>
    let r := Mm.alloc st.mm pageSize
    let st := { st with mm := r.1 }
    let page := r.2
    if page = 0 then st
    else
      let st := st.setCacheOrder (Mm.pageIdx page).toNat (i + minCacheOrder : ℕ)
      let st := st.setFreeList i 0
      let st := pushChunks i ((st.kmemCaches i).cacheSize + headerSize) (chunkNum st i) page st
      kmemCacheInitLoop n (i + 1) st

def kmemCacheInit (st : State) : State :=
  let st := { st with kmemCaches := fun i =>
    if i < cacheNum then { cacheSize := 1 <<< (i + 4), freeList := 0 } else st.kmemCaches i }
  kmemCacheInitLoop cacheNum 0 st

/-- The loop of `request_page` starts at chunk 1, so it pushes one chunk less than fits. -/
def requestPage (st : State) (order : ℕ) : State :=
  let r := Mm.alloc st.mm pageSize
  let st := { st with mm := r.1 }
  let page := r.2
  if page = 0 then st
  else
    let st := st.setCacheOrder (Mm.pageIdx page).toNat (order + minCacheOrder : ℕ)
    pushChunks order ((st.kmemCaches order).cacheSize + headerSize) (chunkNum st order - 1) page st

/-- The loop is that of `get_order`, from order 4. -/
def getChunkOrder (size : ℕ) : ℕ := Mm.getOrderLoop size 28 4

def kmalloc (st : State) (size : ℕ) : State × ℕ :=
  let order := getChunkOrder size
  let size := 1 <<< order
  let order := order - minCacheOrder
  if size = 0 then (st, 0)
  else if maxChunkSize < size then (st, 0)
  else
    let st := if st.freeList order = 0 then requestPage st order else st
    let entry := st.freeList order
    if entry = 0 then (st, 0)
    else (kmemFreelistPop st order, entry + headerSize)

def kfree (L : Layout) (st : State) (ptr : ℕ) : State :=
  if ptr = 0 then st
  else if L.bssEnd ≤ ptr ∧ ptr < L.stackTop then st
  else
    let order := (st.mm.pageList (Mm.pageIdx ptr).toNat).cacheOrder
    if order < minCacheOrder ∨ (maxCacheOrder : ℤ) < order then st
    else kmemFreelistPush st (ptr - headerSize) (order - minCacheOrder).toNat

def alloc (st : State) (size : ℕ) : State × ℕ :=
  if size = 0 then (st, 0)
  else if maxChunkSize < size then
    let r := Mm.alloc st.mm size
    ({ st with mm := r.1 }, r.2)
  else kmalloc st size

def free (L : Layout) (st : State) (ptr : ℕ) : State :=
  if ptr = 0 then st
  else if L.bssEnd ≤ ptr ∧ ptr < L.stackTop then st
  else
    let pageIdx := Mm.pageIdx ptr
    if pageIdx < 0 ∨ (Mm.pageNum : ℤ) ≤ pageIdx then st
    else if (st.mm.pageList pageIdx.toNat).cacheOrder ≠ -1 then kfree L st ptr
    else { st with mm := Mm.free st.mm ptr }

end OscKernel.Alloc
