import ActionStrings.Mask
import Mathlib.Logic.Function.Iterate

namespace ActionStrings.Mask

variable {w : Nat} {mask : Mask w} {list : List Nat} {i : Nat}

def weight (mask : Mask w) : Nat := (List.range w).countP mask.getLsbD

def ofIndices (w : Nat) (list : List Nat) : Mask w :=
  list.foldl (fun gathered i => gathered ||| bit w i) 0#w

theorem getLsbD_ofIndices : (ofIndices w list).getLsbD i = true ↔ i < w ∧ i ∈ list := by
  have grown (gathered : Mask w) :
      (list.foldl (fun gathered i => gathered ||| bit w i) gathered).getLsbD i = true ↔
        gathered.getLsbD i = true ∨ i < w ∧ i ∈ list := by
    induction list generalizing gathered with
    | nil => simp
    | cons j rest ih =>
      rw [List.foldl_cons,ih,BitVec.getLsbD_or,Bool.or_eq_true,getLsbD_bit,List.mem_cons,or_assoc,
        ← and_or_left]
  rw [ofIndices,grown]
  simp

theorem indices_zero : indices 0#w = [] := by
  rw [indices,dif_pos rfl]

theorem indices_of_ne_zero (nonzero : mask ≠ 0#w) :
    mask.indices = mask.lowest :: mask.clearLowest.indices := by
  rw [indices,dif_neg nonzero]

theorem indices_eq_nil_iff : mask.indices = [] ↔ mask = 0#w := by
  constructor
  · intro none
    by_contra nonzero
    rw [indices_of_ne_zero nonzero] at none
    cases none
  · intro zero
    rw [zero,indices_zero]

-- Clearing an empty word leaves it empty, so no turn has to be told apart.
theorem indices_clearLowest : mask.clearLowest.indices = mask.indices.tail := by
  by_cases zero : mask = 0#w
  · have still : clearLowest 0#w = 0#w := BitVec.zero_and
    rw [zero,still,indices_zero,List.tail_nil]
  · rw [indices_of_ne_zero zero,List.tail_cons]

theorem indices_turned (mask : Mask w) (turns : Nat) :
    (clearLowest^[turns] mask).indices = mask.indices.drop turns := by
  induction turns with
  | zero => rfl
  | succ turns ih => rw [Function.iterate_succ_apply',indices_clearLowest,ih,List.tail_drop]

theorem indices_eq_filter (mask : Mask w) : mask.indices = (List.range w).filter mask.getLsbD := by
  apply indices_unique (List.pairwise_lt_range.filter _)
  intro i
  rw [List.mem_filter,List.mem_range]
  exact and_iff_right_of_imp BitVec.lt_of_getLsbD

theorem length_indices (mask : Mask w) : mask.indices.length = mask.weight := by
  rw [indices_eq_filter,weight,List.countP_eq_length_filter]

theorem turned_eq_zero_iff (mask : Mask w) (turns : Nat) :
    clearLowest^[turns] mask = 0#w ↔ mask.weight ≤ turns := by
  rw [← indices_eq_nil_iff,indices_turned,List.drop_eq_nil_iff,length_indices]

theorem lowest_turned {turn : Nat} (early : turn < mask.indices.length) :
    (clearLowest^[turn] mask).lowest = mask.indices[turn] := by
  have busy : clearLowest^[turn] mask ≠ 0#w := by
    rw [Ne,turned_eq_zero_iff,← length_indices]
    exact Nat.not_le.mpr early
  have left := indices_turned mask turn
  rw [indices_of_ne_zero busy,List.drop_eq_getElem_cons early] at left
  exact (List.cons.inj left).1

-- At every turn the bits reported and the bits left make up the word.
theorem reported_or_left (mask : Mask w) (turns : Nat) :
    ofIndices w (mask.indices.take turns) ||| clearLowest^[turns] mask = mask := by
  apply eq_of_bits
  intro i inside
  rw [BitVec.getLsbD_or,Bool.or_eq_true,getLsbD_ofIndices,and_iff_right inside,← mem_indices,indices_turned,
    ← List.mem_append,List.take_append_drop,mem_indices]

theorem ofIndices_indices (mask : Mask w) : ofIndices w mask.indices = mask := by
  have done : clearLowest^[mask.weight] mask = 0#w := (turned_eq_zero_iff mask _).mpr (Nat.le_refl _)
  have whole := reported_or_left mask mask.weight
  rwa [done,BitVec.or_zero,← length_indices,List.take_length] at whole

-- The loop that reports the lowest set bit and clears it is over after one turn for each set bit,
-- and has then reported every one of them, from the lowest to the highest.
theorem walk_exhausts (mask : Mask w) :
    (∀ turns, clearLowest^[turns] mask = 0#w ↔ mask.weight ≤ turns) ∧
    mask.indices = (List.range mask.weight).map (fun turn => (clearLowest^[turn] mask).lowest) ∧
    mask.indices.Pairwise (· < ·) ∧
    (∀ i, mask.indices.count i = if mask.getLsbD i = true then 1 else 0) ∧
    ofIndices w mask.indices = mask := by
  refine ⟨turned_eq_zero_iff mask,?_,indices_ascending,?_,ofIndices_indices mask⟩
  · apply List.ext_getElem
    · rw [List.length_map,List.length_range,length_indices]
    · intro turn early _
      rw [List.getElem_map,List.getElem_range,lowest_turned early]
  · intro i
    have once : mask.indices.Nodup := indices_ascending.imp Nat.ne_of_lt
    rw [once.count]
    simp only [mem_indices]

end ActionStrings.Mask
