import Mathlib.Algebra.Order.Group.Multiset
import Mathlib.Tactic.Abel
import Fuxi.Lib.Machine
import Fuxi.Mm.PageAllocator

/-!
# The page cache conserves pages

Callers get pages from a cache and give them back, one after the other. Every page that the
upstream has handed out is held by one caller, lies in the cache once, or has been given back.
-/

namespace Fuxi.Mm

open Base Lib

/-- A cache and where the pages are. -/
structure PageRun (Page : Type*) where
  allocator : CachedPageAllocator Page
  alive : Bool
  held : Multiset Page
  obtained : Multiset Page
  givenBack : Multiset Page
  hits : Nat
  requested : Nat

inductive PageMove (Page : Type*)
  | allocate (num : Nat) (fresh : Nat → Page)
  | deallocate (pages : List Page)
  | destroy

namespace PageRun

variable {Page : Type*}

/-- A cache of a capacity before its first request. -/
def initial (null : Page) (capacity : Nat) : PageRun Page :=
  ⟨.setFreePageCapacity null capacity, true, 0, 0, 0, 0, 0⟩

/-- The pages in the cache. -/
def cached (s : PageRun Page) : List Page := s.allocator.freePages.contents

variable [DecidableEq Page]

/-- The pages that the upstream has handed out and not got back. -/
def outstanding (s : PageRun Page) : Multiset Page := s.obtained - s.givenBack

/-- One call; callers give back pages that they hold. A hit is a page that was in the cache
before the call. -/
def step (s : PageRun Page) : PageMove Page → Option (PageRun Page)
  | .allocate num fresh =>
    if s.alive then (s.allocator.allocate num fresh).map fun done =>
      { s with
        allocator := done.allocator
        held := s.held + done.pages
        obtained := s.obtained + done.obtained
        hits := s.hits + (done.pages.filter (· ∈ s.cached)).length
        requested := s.requested + num }
    else none
  | .deallocate pages =>
    if s.alive ∧ ↑pages ≤ s.held then (s.allocator.deallocate pages).map fun done =>
      { s with
        allocator := done.allocator
        held := s.held - pages
        givenBack := s.givenBack + done.givenBack }
    else none
  | .destroy =>
    if s.alive then
      let done := s.allocator.destroy
      some { s with
        allocator := done.allocator
        alive := false
        givenBack := s.givenBack + done.givenBack }
    else none

/-- The upstream hands out no page that is outstanding. -/
def Fresh (_ : PageRun Page) (_ : PageMove Page) (s : PageRun Page) : Prop := s.outstanding.Nodup

end PageRun

/-- Counting down from a number that is not reached. -/
theorem foldl_hitNum {α : Type*} (xs : List α) (n : Nat) :
    xs.foldl (fun (hitNum : Int) _ => max (hitNum - 1) 0) n = ((n - xs.length : Nat) : Int) := by
  induction xs generalizing n with
  | nil => rfl
  | cons x xs ih =>
    have step : max ((n : Int) - 1) 0 = ((n - 1 : Nat) : Int) := by omega
    rw [List.foldl_cons, step, ih, List.length_cons, Nat.add_comm, Nat.sub_add_eq]

namespace CachedPageAllocator

variable {Page : Type*} {a : CachedPageAllocator Page} {xs : List Page}

/-- `allocate` serves a request from the oldest pages of the cache, and gets the rest of them
from the upstream. -/
theorem allocate_eq (h : a.freePages.Holds xs) (num : Nat) (fresh : Nat → Page) :
    ∃ r, a.allocate num fresh = some r ∧ r.allocator.freePages.Holds (xs.drop num) ∧
      r.allocator.freePages.capacity = a.freePages.capacity ∧
      r.obtained = (List.range (num - xs.length)).map fresh ∧
      r.pages = xs.take num ++ r.obtained ∧
      r.allocator.cacheHit = a.cacheHit.add ⟨.ofNat 64 (min num xs.length), .ofNat 64 num⟩ := by
  have fits := h.fits
  obtain ⟨q, ret, holds, cap⟩ :=
    h.dealNWith .cons a.freePages.value fresh (min_le_right num a.freePages.capacity)
  change a.freePages.dealNWith _ _ _ _ = some ⟨q,
    (xs ++ (List.range (_ - xs.length)).map fresh).take _, (List.range (_ - xs.length)).map fresh⟩
      at ret
  change q.Holds ((xs ++ (List.range (_ - xs.length)).map fresh).drop _) at holds
  generalize hn : min num a.freePages.capacity = n at ret holds
  have popped : (xs ++ (List.range (n - xs.length)).map fresh).take n =
      xs.take num ++ (List.range (n - xs.length)).map fresh := by
    have few : ((List.range (n - xs.length)).map fresh).length ≤ n - xs.length := by simp
    have same : xs.take n = xs.take num := List.take_eq_take_iff.mpr (by omega)
    rw [List.take_append, List.take_of_length_le few, same]
  have left : (xs ++ (List.range (n - xs.length)).map fresh).drop n = xs.drop num := by
    rw [List.drop_append, List.drop_of_length_le (show _ ≤ n - xs.length by simp), List.append_nil]
    obtain few | many := le_total num a.freePages.capacity
    · rw [← hn, min_eq_left few]
    · rw [List.drop_of_length_le (by omega), List.drop_of_length_le (by omega)]
  have obtained : (List.range (n - xs.length)).map fresh ++
      (List.range (num - n)).map (fun i => fresh (n - xs.length + i)) =
        (List.range (num - xs.length)).map fresh := by
    rw [show num - xs.length = n - xs.length + (num - n) by omega, List.range_add, List.map_append,
      List.map_map]
    rfl
  rw [left] at holds
  have length : (xs.take num ++ (List.range (n - xs.length)).map fresh).length = n := by
    simp only [List.length_append, List.length_take, List.length_map, List.length_range]
    omega
  simp only [allocate, hn, ret, Option.map_some, popped, length, List.length_map, List.length_range,
    obtained, foldl_hitNum, List.append_assoc]
  refine ⟨_, rfl, holds, cap, rfl, rfl, ?_⟩
  rw [BitVec.ofInt_natCast, show n - (n - xs.length) = min num xs.length by omega]

/-- `deallocate` puts pages into the cache until it is full of them; the oldest pages make room
and go back to the upstream with those that are left. -/
theorem deallocate_eq (h : a.freePages.Holds xs) (pages : List Page) :
    let n := min pages.length a.freePages.capacity
    let k := n - (a.freePages.capacity - xs.length)
    ∃ r, a.deallocate pages = some r ∧ r.allocator.freePages.Holds (xs.drop k ++ pages.take n) ∧
      r.allocator.freePages.capacity = a.freePages.capacity ∧
      r.givenBack = xs.take k ++ pages.drop n ∧ r.allocator.cacheHit = a.cacheHit := by
  intro n k
  obtain ⟨q, ret, holds, cap⟩ := h.dealNWith .prod (fun i => pages.getD i (a.freePages.value i))
    a.freePages.value (min_le_right pages.length a.freePages.capacity)
  have pushed : (List.range n).map (fun i => pages.getD i (a.freePages.value i)) = pages.take n :=
    List.ext_getElem (by simp [n]) fun i hi hi' => by
      rw [List.length_take] at hi'
      have lt : i < pages.length := by omega
      simp [lt]
  change q.Holds (xs.drop k ++ (List.range n).map _) at holds
  rw [pushed] at holds
  rw [deallocate, ret]
  exact ⟨_, rfl, holds, cap, rfl, rfl⟩

/-- The destructor gives all cached pages back. -/
theorem destroy_eq (h : a.freePages.Holds xs) : a.destroy.allocator.freePages.Holds [] ∧
    a.destroy.allocator.freePages.capacity = a.freePages.capacity ∧
    a.destroy.givenBack = xs ∧ a.destroy.allocator.cacheHit = a.cacheHit := by
  obtain ⟨q, ret, cap, holds⟩ := h.tryDealN .cons a.freePages.value a.freePages.capacity
  have all : min a.freePages.capacity (BoundedQueue.room .cons a.freePages.capacity xs) =
      xs.length := min_eq_right h.fits
  rw [all] at ret holds
  change q.Holds (xs.drop xs.length) at holds
  rw [List.drop_length] at holds
  rw [destroy, ret]
  exact ⟨holds, cap, List.take_length, rfl⟩

end CachedPageAllocator

/-! ## Where the pages are -/

namespace PageRun

variable {Page : Type*} [DecidableEq Page] {capacity : Nat} {s s' : PageRun Page}

/-- The pages in the cache are the elements of the list. -/
structure Keeps (capacity : Nat) (s : PageRun Page) (xs : List Page) : Prop where
  holds : s.allocator.freePages.Holds xs
  size : s.allocator.freePages.capacity = bitCeil capacity
  places : s.obtained = s.held + xs + s.givenBack
  once : s.outstanding.Nodup
  gone : s.alive = false → xs = []
  summary : s.allocator.cacheHit = ⟨.ofNat 64 s.hits, .ofNat 64 s.requested⟩

omit [DecidableEq Page] in
theorem split (xs : List Page) (n : Nat) :
    (xs : Multiset Page) = ↑(xs.take n) + ↑(xs.drop n) := by
  rw [Multiset.coe_add, List.take_append_drop]

namespace Keeps

variable {xs : List Page} (h : s.Keeps capacity xs)
include h

theorem cached_eq : s.cached = xs := h.holds.contents_eq

/-- The pages obtained during a call are not in the cache before. -/
theorem filter_cached {num : Nat} {new : List Page}
    (once : (s.held + ↑(xs.take num ++ new) + ↑(xs.drop num)).Nodup) :
    (xs.take num ++ new).filter (· ∈ s.cached) = xs.take num := by
  have all : (↑(xs ++ new) : Multiset Page) ≤ s.held + ↑(xs.take num ++ new) + ↑(xs.drop num) := by
    rw [← Multiset.coe_add, ← Multiset.coe_add, split xs num]
    exact Multiset.le_iff_exists_add.mpr ⟨s.held, by abel⟩
  have nodup : (xs ++ new).Nodup := Multiset.coe_nodup.mp (Multiset.nodup_of_le all once)
  rw [h.cached_eq, List.filter_append, List.filter_eq_self.mpr, List.filter_eq_nil_iff.mpr,
    List.append_nil]
  · intro p hp
    simpa using fun hx => (List.disjoint_of_nodup_append nodup) hx hp
  · intro p hp
    simpa using List.mem_of_mem_take hp

theorem allocate {num : Nat} {fresh : Nat → Page} (hs : s.step (.allocate num fresh) = some s')
    (side : s'.outstanding.Nodup) : s'.Keeps capacity (xs.drop num) := by
  obtain ⟨r, ret, holds, cap, obtained, pages, hit⟩ := CachedPageAllocator.allocate_eq h.holds num fresh
  simp only [step, ret, Option.map_some] at hs
  split_ifs at hs with alive
  cases hs
  have places : s.obtained + ↑r.obtained =
      s.held + ↑r.pages + ↑(xs.drop num) + s.givenBack := by
    rw [h.places, split xs num, pages, ← Multiset.coe_add]
    abel
  have once : (s.held + ↑r.pages + ↑(xs.drop num)).Nodup := by
    rw [outstanding, places, Multiset.add_sub_cancel_right] at side
    exact side
  refine ⟨holds, cap.trans h.size, places, side, fun dead => absurd (alive.symm.trans dead) nofun, ?_⟩
  rw [pages] at once ⊢
  rw [h.filter_cached once, List.length_take, hit, h.summary, Summary.add, ← BitVec.ofNat_add,
    ← BitVec.ofNat_add]

theorem deallocate {pages : List Page} (hs : s.step (.deallocate pages) = some s')
    (side : s'.outstanding.Nodup) : ∃ xs', s'.Keeps capacity xs' := by
  obtain ⟨r, ret, holds, cap, givenBack, hit⟩ := CachedPageAllocator.deallocate_eq h.holds pages
  simp only [step, ret, Option.map_some] at hs
  split_ifs at hs with ok
  cases hs
  obtain ⟨alive, le⟩ := ok
  refine ⟨_, holds, cap.trans h.size, ?_, side,
    fun dead => absurd (alive.symm.trans dead) nofun, hit ▸ h.summary⟩
  generalize min pages.length s.allocator.freePages.capacity = n at givenBack
  generalize n - (s.allocator.freePages.capacity - xs.length) = k at givenBack
  have held := Multiset.sub_add_cancel le
  simp only [givenBack, ← Multiset.coe_add]
  generalize s.held - ↑pages = rest at held
  rw [h.places, ← held, split xs k, split pages n]
  abel

theorem destroy (hs : s.step .destroy = some s') (side : s'.outstanding.Nodup) :
    s'.Keeps capacity [] := by
  obtain ⟨holds, cap, givenBack, hit⟩ := CachedPageAllocator.destroy_eq h.holds
  simp only [step] at hs
  split_ifs at hs with alive
  cases hs
  refine ⟨holds, cap.trans h.size, ?_, side, fun _ => rfl, hit ▸ h.summary⟩
  simp only [h.places, givenBack, Multiset.coe_nil, Multiset.add_zero]
  abel

/-- One call. -/
theorem step {m : PageMove Page} (hs : s.step m = some s') (side : s'.outstanding.Nodup) :
    ∃ xs', s'.Keeps capacity xs' := by
  cases m with
  | allocate num fresh => exact ⟨_, h.allocate hs side⟩
  | deallocate pages => exact h.deallocate hs side
  | destroy => exact ⟨_, h.destroy hs side⟩

end Keeps

instance (s s' : PageRun Page) (m : PageMove Page) : Decidable (Fresh s m s') :=
  inferInstanceAs (Decidable s'.outstanding.Nodup)

end PageRun

end Fuxi.Mm
