import Fuxi.Base.IdPool.Exclusive

/-!
# `FlatObjectQueue`

A pool of objects in one array. `Get` takes the index of a free object out of a ring
and `Put` gives it back; an object is identified here with its index.
-/

namespace Fuxi.Base.FlatObjectQueue

open Lib IdPool

/-- The indices that the loop of `Initialize` enqueues; its bound is `(int32_t)num`. -/
def ids (num : Nat) : List Int := (List.range (i32 num).toNat).map Int.ofNat

/-- `Initialize`: the ring `free_ids_` and the indices that it has accepted. -/
def initialized (num : Nat) : RteRing Int × List Int :=
  fill (RteRing.init 0 (u32 num) false false) (ids num)

/-- The range check of `Put`. -/
def inRange (num : Nat) (idx : Int) : Bool := ¬(idx < 0 ∨ idx ≥ i32 num)

variable {Tid : Type*} [DecidableEq Tid]

/-- Callers of `Get`, which starts with `id = -1`, and `Put`. -/
def machine (Tid : Type*) [DecidableEq Tid] (num : Nat) :
    Machine (IdPool.State Tid Int) (Tid × IdPool.Move Int) :=
  IdPool.machine (-1) (inRange num) (initialized num)

theorem ids_nodup (num : Nat) : (ids num).Nodup :=
  List.nodup_range.map fun _ _ h => Int.ofNat.inj h

theorem inRange_of_mem {num : Nat} {x : Int} (h : x ∈ ids num) : inRange num x = true := by
  obtain ⟨i, hi, rfl⟩ := List.mem_map.mp h
  have := List.mem_range.mp hi
  simp only [inRange, decide_eq_true_eq, Int.ofNat_eq_natCast]
  omega

/-- `Initialize` stocks the ring with the indices it accepts. -/
theorem initialized_stocked (num : Nat) : Stocked (initialized num).1 (initialized num).2 :=
  (stocked_init 0 (u32 num) false false).fill_nil (ids num)

theorem initialized_subset (num : Nat) {x : Int} (h : x ∈ (initialized num).2) : x ∈ ids num := by
  rw [initialized, ((stocked_init ..).fill (ids num)).2.2] at h
  exact List.mem_of_mem_take h

theorem initialized_nodup (num : Nat) : (initialized num).2.Nodup := by
  rw [initialized, ((stocked_init ..).fill (ids num)).2.2]
  exact (ids_nodup num).sublist (List.take_sublist ..)

/-- A pool of less than `2^31` objects starts with all of them. -/
theorem initialized_eq {num : Nat} (h : num < 2147483648) :
    (initialized num).2 = (List.range num).map Int.ofNat := by
  have hnum : i32 num = num := i32_of_lt (by omega) (by omega)
  have hlen : (ids num).length = num := by simp [ids, hnum]
  rw [initialized, ((stocked_init ..).fill (ids num)).2.2, List.take_of_length_le]
  · simp [ids, hnum]
  · rw [hlen, List.length_nil, Nat.sub_zero]
    have : u32 num = num := u32_of_lt (by omega)
    rw [this]
    exact RteRing.le_init_size _ _ _ (by omega)

/-- Every index sits in one place while the plain stores come in order. -/
theorem reach_exclusive (num : Nat) {s : IdPool.State Tid Int}
    (h : (machine Tid num).Reach inOrder s) : Exclusive (initialized num).2 s :=
  (reach_pooled (initialized_stocked num) (initialized_nodup num)
    (fun _ hx => inRange_of_mem (initialized_subset num hx)) h).exclusive

end Fuxi.Base.FlatObjectQueue
