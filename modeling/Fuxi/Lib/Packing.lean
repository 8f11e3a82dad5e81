import Mathlib.Data.List.Perm.Basic
import Fuxi.Lib.Region

/-!
# Packing regions

An allocator owns regions and hands out parts of them. `Packed owned used free` says that
the parts in `used` do not overlap, and that the region `free` has not been handed out.
The rules say how the parts are made: out of the free region, or out of a region that the
allocator gets in addition.
-/

namespace Fuxi.Lib

structure Packed (owned used : List Region) (free : Region) : Prop where
  owned_apart : owned.Pairwise Region.Apart
  inside : ∀ u ∈ used, ∃ o ∈ owned, u.Inside o
  apart : used.Pairwise Region.Apart
  free_apart : ∀ u ∈ used, u.Apart free
  free_owned : ∀ x ∈ free.bytes, ∃ o ∈ owned, x ∈ o.bytes

namespace Packed

open Region

variable {owned owned' used used' l : List Region} {free f o u : Region}

/-- Nothing is owned at first. -/
theorem nil {free : Region} (empty : free.size = 0) : Packed [] [] free where
  owned_apart := .nil
  inside := by simp
  apart := .nil
  free_apart := by simp
  free_owned x hx := by
    simp only [bytes, stop, Set.mem_Ico] at hx
    omega

theorem perm (h : Packed owned used free) (ho : owned.Perm owned') (hu : used.Perm used') :
    Packed owned' used' free where
  owned_apart := (ho.pairwise_iff Apart.symm).mp h.owned_apart
  inside u hu' := by
    obtain ⟨o, mem, inside⟩ := h.inside u (hu.mem_iff.mpr hu')
    exact ⟨o, ho.mem_iff.mp mem, inside⟩
  apart := (hu.pairwise_iff Apart.symm).mp h.apart
  free_apart u hu' := h.free_apart u (hu.mem_iff.mpr hu')
  free_owned x hx := by
    obtain ⟨o, mem, inside⟩ := h.free_owned x hx
    exact ⟨o, ho.mem_iff.mp mem, inside⟩

/-- A region that is used may stand anywhere in the list. -/
theorem insert {m : List Region} (h : Packed owned (u :: (l ++ m)) free) :
    Packed owned (l ++ u :: m) free :=
  h.perm (.refl _) List.perm_middle.symm

/-- Give up a part of the free region. -/
theorem shrink (h : Packed owned used free) (sub : f.bytes ⊆ free.bytes) :
    Packed owned used f where
  owned_apart := h.owned_apart
  inside := h.inside
  apart := h.apart
  free_apart u hu := Disjoint.mono_right sub (h.free_apart u hu)
  free_owned x hx := h.free_owned x (sub hx)

/-- Hand out a part of the free region. -/
theorem carve (h : Packed owned used free) (mem : o ∈ owned) (inside : u.Inside o)
    (part : u.bytes ⊆ free.bytes) (sub : f.bytes ⊆ free.bytes) (apart : u.Apart f) :
    Packed owned (u :: used) f where
  owned_apart := h.owned_apart
  inside := List.forall_mem_cons.mpr ⟨⟨o, mem, inside⟩, h.inside⟩
  apart := List.pairwise_cons.mpr
    ⟨fun v hv => Apart.symm (Disjoint.mono_right part (h.free_apart v hv)), h.apart⟩
  free_apart := List.forall_mem_cons.mpr ⟨apart, (h.shrink sub).free_apart⟩
  free_owned := (h.shrink sub).free_owned

/-- What is used lies apart from a region that is new. -/
theorem used_apart (h : Packed owned used free) (fresh : (o :: owned).Pairwise Apart)
    (hu : u ∈ used) : o.Apart u := by
  obtain ⟨p, mem, inside⟩ := h.inside u hu
  exact ((List.pairwise_cons.mp fresh).1 p mem).mono (Inside.refl o) inside

/-- Hand out parts of a new region. -/
theorem place (h : Packed owned used free) (fresh : (o :: owned).Pairwise Apart)
    (inside : ∀ u ∈ l, u.Inside o) (apart : l.Pairwise Apart) :
    Packed (o :: owned) (l ++ used) free where
  owned_apart := fresh
  inside u hu := by
    obtain hu | hu := List.mem_append.mp hu
    · exact ⟨o, List.mem_cons_self, inside u hu⟩
    · obtain ⟨p, mem, hp⟩ := h.inside u hu
      exact ⟨p, List.mem_cons_of_mem _ mem, hp⟩
  apart := List.pairwise_append.mpr ⟨apart, h.apart, fun u hu v hv =>
    (h.used_apart fresh hv).mono (inside u hu) (Inside.refl v)⟩
  free_apart u hu := by
    obtain hu | hu := List.mem_append.mp hu
    · refine Disjoint.mono_left (inside u hu).bytes_subset (Set.disjoint_left.mpr ?_)
      intro x ho hx
      obtain ⟨p, mem, hp⟩ := h.free_owned x hx
      exact Set.disjoint_left.mp ((List.pairwise_cons.mp fresh).1 p mem) ho hp
    · exact h.free_apart u hu
  free_owned x hx := by
    obtain ⟨p, mem, hp⟩ := h.free_owned x hx
    exact ⟨p, List.mem_cons_of_mem _ mem, hp⟩

/-- Hand out parts of a new region and go on with another part of it. -/
theorem switch (h : Packed owned used free) (fresh : (o :: owned).Pairwise Apart)
    (inside : ∀ u ∈ l, u.Inside o) (apart : l.Pairwise Apart) (rest : f.Inside o)
    (left : ∀ u ∈ l, u.Apart f) : Packed (o :: owned) (l ++ used) f where
  owned_apart := fresh
  inside := (h.place fresh inside apart).inside
  apart := (h.place fresh inside apart).apart
  free_apart u hu := by
    obtain hu | hu := List.mem_append.mp hu
    · exact left u hu
    · exact Apart.symm ((h.used_apart fresh hu).mono rest (Inside.refl u))
  free_owned x hx := ⟨o, List.mem_cons_self, rest.bytes_subset hx⟩

/-- Hand out the start of a new region and go on with what is left of it. -/
theorem switchStart {size : Nat} (h : Packed owned used free) (fresh : (o :: owned).Pairwise Apart)
    (fits : size ≤ o.size) :
    Packed (o :: owned) (⟨o.start, size⟩ :: used) ⟨o.start + size, o.size - size⟩ := by
  refine h.switch fresh (l := [⟨o.start, size⟩]) ?_ (List.pairwise_singleton ..) ?_ ?_
  · simp only [List.forall_mem_singleton, Inside, stop]
    omega
  · simp only [Inside, stop]
    omega
  · exact List.forall_mem_singleton.mpr (apart_of_le le_rfl)

end Packed

end Fuxi.Lib
