import Mathlib.Data.Multiset.AddSub
import Mathlib.Data.BitVec
import Fuxi.Base.BoundedQueue.Compensation

/-!
# Page allocators

A page allocator has an upstream, which answers its requests for pages.
`CachedPageAllocator` keeps the pages that are given back in a queue. A request that finds too
few pages in it pushes new ones into the queue it is popping from, and a release that finds it
full pops old ones.
-/

namespace Fuxi.Mm

open Base Lib

variable {Page : Type*}

/-- `ConcurrentSummer::Summary`. -/
structure Summary where
  sum : BitVec 64
  num : BitVec 64
  deriving DecidableEq

/-- What `operator<<` of a `ConcurrentSummer` adds to the sum that `value` reads. -/
def Summary.add (s delta : Summary) : Summary := ⟨s.sum + delta.sum, s.num + delta.num⟩

/-- `CachedPageAllocator`; `cacheHit` is the value of the summer. -/
structure CachedPageAllocator (Page : Type*) where
  freePages : BoundedQueue Page
  cacheHit : Summary

/-- What `allocate` gives to its caller and gets from the upstream. -/
structure Allocated (Page : Type*) where
  allocator : CachedPageAllocator Page
  pages : List Page
  obtained : List Page

/-- What `deallocate` gives back to the upstream. -/
structure Deallocated (Page : Type*) where
  allocator : CachedPageAllocator Page
  givenBack : List Page

namespace CachedPageAllocator

/-- An allocator after `set_free_page_capacity`; `null` is the page of an empty slot. -/
def setFreePageCapacity (null : Page) (capacity : Nat) : CachedPageAllocator Page :=
  ⟨.reserveAndClear null capacity, ⟨0, 0⟩⟩

/-- `allocate`; the upstream answers with the pages `fresh 0, fresh 1, ..`. -/
def allocate (a : CachedPageAllocator Page) (num : Nat) (fresh : Nat → Page) :
    Option (Allocated Page) :=
  let needPopNum := min num a.freePages.capacity
  (a.freePages.dealNWith .cons needPopNum a.freePages.value fresh).map fun popped =>
    let hitNum : Int := popped.reverse.foldl (fun hitNum _ => max (hitNum - 1) 0) needPopNum
    let rest := (List.range (num - popped.seen.length)).map fun i =>
      fresh (popped.reverse.length + i)
    { allocator := ⟨popped.queue, a.cacheHit.add ⟨.ofInt 64 hitNum, .ofNat 64 num⟩⟩
      pages := popped.seen ++ rest
      obtained := popped.reverse ++ rest }

/-- `deallocate`. -/
def deallocate (a : CachedPageAllocator Page) (pages : List Page) : Option (Deallocated Page) :=
  let needPushNum := min pages.length a.freePages.capacity
  (a.freePages.dealNWith .prod needPushNum (fun i => pages.getD i (a.freePages.value i))
    a.freePages.value).map fun pushed =>
      ⟨{ a with freePages := pushed.queue }, pushed.reverse ++ pages.drop needPushNum⟩

/-- `~CachedPageAllocator`. -/
def destroy (a : CachedPageAllocator Page) : Deallocated Page :=
  let popped := a.freePages.tryDealN .cons a.freePages.capacity a.freePages.value
  ⟨{ a with freePages := popped.1 }, popped.2⟩

end CachedPageAllocator

end Fuxi.Mm
