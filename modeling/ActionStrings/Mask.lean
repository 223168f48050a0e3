namespace ActionStrings

abbrev Mask (w : Nat) := BitVec w

namespace Mask

variable {w : Nat}

def bit (w index : Nat) : Mask w := 1#w <<< index

def lowBits (w count : Nat) : Mask w :=
  if w ≤ count then BitVec.allOnes w else (1#w <<< count) - 1#w

-- The index of the lowest set bit, and the width where none is set.
def lowest (mask : Mask w) : Nat := mask.ctz.toNat

-- Subtracting one turns the lowest set bit off and those below it on, so what both words
-- share is all but that bit.
def clearLowest (mask : Mask w) : Mask w := mask &&& (mask - 1#w)

theorem toNat_pred {mask : Mask w} (nonzero : mask ≠ 0#w) : (mask - 1#w).toNat = mask.toNat - 1 := by
  have positive : 0 < mask.toNat := BitVec.toNat_pos_of_ne_zero nonzero
  have one : (1#w).toNat = 1 := BitVec.toNat_one (BitVec.length_pos_of_ne nonzero)
  rw [BitVec.toNat_sub_of_le (BitVec.le_def.mpr (by omega)),one]

theorem clearLowest_smaller {mask : Mask w} (nonzero : mask ≠ 0#w) :
    mask.clearLowest.toNat < mask.toNat := by
  have positive : 0 < mask.toNat := BitVec.toNat_pos_of_ne_zero nonzero
  have below : (mask - 1#w).toNat < mask.toNat := by rw [toNat_pred nonzero]; omega
  rw [clearLowest,BitVec.toNat_and]
  exact Nat.lt_of_le_of_lt Nat.and_le_right below

def indices (mask : Mask w) : List Nat :=
  if _ : mask = 0#w then [] else mask.lowest :: mask.clearLowest.indices
termination_by mask.toNat
decreasing_by exact clearLowest_smaller ‹_›

variable {mask : Mask w} {index i : Nat}

theorem eq_of_bits {left right : Mask w}
    (same : ∀ i, i < w → (left.getLsbD i = true ↔ right.getLsbD i = true)) : left = right := by
  apply BitVec.eq_of_getLsbD_eq
  intro i inside
  exact Bool.eq_iff_iff.mpr (same i inside)

theorem getLsbD_bit : (bit w index).getLsbD i = true ↔ i < w ∧ i = index := by
  rw [bit,BitVec.getLsbD_shiftLeft,BitVec.getLsbD_one]
  simp only [Bool.and_eq_true,Bool.not_eq_true',decide_eq_true_eq,decide_eq_false_iff_not]
  omega

theorem getLsbD_lowBits {count : Nat} : (lowBits w count).getLsbD i = true ↔ i < w ∧ i < count := by
  unfold lowBits
  split
  · rename_i past
    rw [BitVec.getLsbD_allOnes,decide_eq_true_eq]
    omega
  · rename_i short
    have power : (1#w <<< count).toNat = 2 ^ count := BitVec.toNat_twoPow_of_lt (Nat.lt_of_not_le short)
    have nonzero : 1#w <<< count ≠ 0#w := by
      intro zero
      rw [zero] at power
      exact Nat.ne_of_lt (Nat.two_pow_pos count) power
    rw [BitVec.getLsbD,toNat_pred nonzero,power,Nat.testBit_two_pow_sub_one,decide_eq_true_eq]
    omega

-- Halving brings the lowest set bit one place down, and with it what taking one away turns around.
theorem testBit_pred {number lowest : Nat} (last : number.testBit lowest = true)
    (below : ∀ j < lowest, number.testBit j = false) :
    (number - 1).testBit i = if i < lowest then true else number.testBit i && i != lowest := by
  induction lowest generalizing number i with
  | zero =>
    rw [Nat.testBit_zero,decide_eq_true_eq] at last
    cases i with
    | zero =>
      rw [Nat.testBit_zero]
      simp only [Nat.lt_irrefl,↓reduceIte,bne_self_eq_false,Bool.and_false,decide_eq_false_iff_not]
      omega
    | succ j =>
      have half : (number - 1) / 2 = number / 2 := by omega
      rw [Nat.testBit_succ,Nat.testBit_succ,half]
      simp
  | succ k ih =>
    have even := below 0 (Nat.succ_pos k)
    rw [Nat.testBit_zero,decide_eq_false_iff_not] at even
    rw [Nat.testBit_succ] at last
    have positive : number / 2 ≠ 0 := by
      intro zero
      rw [zero,Nat.zero_testBit] at last
      cases last
    cases i with
    | zero =>
      rw [Nat.testBit_zero,if_pos (Nat.succ_pos k),decide_eq_true_eq]
      omega
    | succ j =>
      have half : (number - 1) / 2 = number / 2 - 1 := by omega
      have later := ih (i := j) last fun m lower => by
        rw [← Nat.testBit_succ]; exact below (m + 1) (Nat.succ_lt_succ lower)
      have same : (j + 1 != k + 1) = (j != k) := by simp
      rw [Nat.testBit_succ,half,later,Nat.testBit_succ,same]
      simp only [Nat.add_lt_add_iff_right]

theorem getLsbD_lowest (nonzero : mask ≠ 0#w) : mask.getLsbD mask.lowest = true :=
  BitVec.getLsbD_true_ctz_of_ne_zero nonzero

theorem getLsbD_of_lt_lowest (lower : i < mask.lowest) : mask.getLsbD i = false :=
  BitVec.getLsbD_false_of_lt_ctz lower

theorem getLsbD_clearLowest (nonzero : mask ≠ 0#w) :
    mask.clearLowest.getLsbD i = (mask.getLsbD i && i != mask.lowest) := by
  have turned := testBit_pred (i := i) (getLsbD_lowest nonzero) fun _ lower => getLsbD_of_lt_lowest lower
  rw [clearLowest,BitVec.getLsbD_and]
  have second : (mask - 1#w).getLsbD i = (mask.toNat - 1).testBit i := by
    rw [BitVec.getLsbD,toNat_pred nonzero]
  rw [second,turned]
  by_cases lower : i < mask.lowest
  · rw [getLsbD_of_lt_lowest lower,Bool.false_and,Bool.false_and]
  · rw [if_neg lower,← Bool.and_assoc]
    exact congrArg (· && i != mask.lowest) (Bool.and_self _)

theorem mem_indices : i ∈ mask.indices ↔ mask.getLsbD i = true := by
  fun_induction indices mask with
  | case1 =>
    simp
  | case2 mask nonzero ih =>
    rw [List.mem_cons,ih,getLsbD_clearLowest nonzero,Bool.and_eq_true,bne_iff_ne]
    constructor
    · intro held
      rcases held with rfl | ⟨inside,_⟩
      · exact getLsbD_lowest nonzero
      · exact inside
    · intro inside
      by_cases last : i = mask.lowest
      · exact .inl last
      · exact .inr ⟨inside,last⟩

theorem indices_ascending : mask.indices.Pairwise (· < ·) := by
  fun_induction indices mask with
  | case1 => exact .nil
  | case2 mask nonzero ih =>
    refine .cons ?_ ih
    intro index member
    rw [mem_indices,getLsbD_clearLowest nonzero,Bool.and_eq_true,bne_iff_ne] at member
    obtain ⟨inside,other⟩ := member
    by_cases lower : index < mask.lowest
    · rw [getLsbD_of_lt_lowest lower] at inside
      cases inside
    · omega

theorem indices_unique {list : List Nat} (ascending : list.Pairwise (· < ·))
    (same : ∀ i, i ∈ list ↔ mask.getLsbD i = true) : mask.indices = list := by
  have shared (i : Nat) : i ∈ mask.indices ↔ i ∈ list := mem_indices.trans (same i).symm
  refine List.Perm.eq_of_pairwise ?_ indices_ascending ascending ?_
  · intro _ _ _ _ before after
    exact absurd after (Nat.lt_asymm before)
  · exact (List.perm_ext_iff_of_nodup (indices_ascending.imp Nat.ne_of_lt)
      (ascending.imp Nat.ne_of_lt)).mpr shared

end Mask

end ActionStrings
