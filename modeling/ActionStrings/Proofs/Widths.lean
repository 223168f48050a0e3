import ActionStrings.Proofs.Rereading
import ActionStrings.Proofs.Tracing

namespace ActionStrings

namespace Mask

variable {w v i : Nat}

-- The two halves of a word, one laid over the other.
def folded (mask : Mask (w + w)) : Mask w := mask.setWidth w ||| (mask >>> w).setWidth w

theorem getLsbD_folded {mask : Mask (w + w)} :
    mask.folded.getLsbD i = true ↔ i < w ∧ (mask.getLsbD i = true ∨ mask.getLsbD (w + i) = true) := by
  rw [folded,BitVec.getLsbD_or,BitVec.getLsbD_setWidth,BitVec.getLsbD_setWidth,BitVec.getLsbD_ushiftRight]
  simp only [Bool.or_eq_true,Bool.and_eq_true,decide_eq_true_eq]
  exact and_or_left.symm

theorem folded_zero : folded 0#(w + w) = 0#w := by
  apply eq_of_bits
  intro i inside
  simp [getLsbD_folded]

theorem folded_or (left right : Mask (w + w)) : (left ||| right).folded = left.folded ||| right.folded := by
  apply eq_of_bits
  intro i inside
  simp only [getLsbD_folded,BitVec.getLsbD_or,Bool.or_eq_true,inside,true_and]
  exact or_or_or_comm

-- An ordinal modulo twice the width is the one modulo the width, or stands one width above it.
theorem folded_bit (w ordinal : Nat) : (bit (w + w) (ordinal % (w + w))).folded = bit w (ordinal % w) := by
  apply eq_of_bits
  intro i inside
  have below : ordinal % (w + w) < w + w := Nat.mod_lt _ (by omega)
  have reduced : ordinal % (w + w) % w = ordinal % w := Nat.mod_mod_of_dvd _ ⟨2,by omega⟩
  simp only [getLsbD_folded,getLsbD_bit,inside,true_and]
  generalize ordinal % (w + w) = place at below reduced ⊢
  rw [← reduced]
  by_cases low : place < w
  · rw [Nat.mod_eq_of_lt low]
    omega
  · rw [Nat.mod_eq_sub_mod (by omega),Nat.mod_eq_of_lt (by omega)]
    omega

theorem folded_lowBits (w count : Nat) : (lowBits (w + w) count).folded = lowBits w count := by
  apply eq_of_bits
  intro i inside
  simp only [getLsbD_folded,getLsbD_lowBits]
  omega

theorem indices_eq {narrow : Mask w} {wide : Mask v} (same : narrow.toNat = wide.toNat) :
    narrow.indices = wide.indices := by
  apply indices_unique indices_ascending
  intro i
  rw [mem_indices,BitVec.getLsbD,BitVec.getLsbD,same]

end Mask

namespace Vocabulary

variable {V : Vocabulary} {w v : Nat} {set : ActionSet V.size} {input : String}

theorem folded_observe (mask : Mask (w + w)) (signal : Reading.Signal V.Action) :
    ((Sink.mask V (w + w)).observe mask signal).folded = (Sink.mask V w).observe mask.folded signal := by
  cases signal with
  | blank => rfl
  | hit hit =>
    obtain ⟨_,_,_,event⟩ := hit
    cases event with
    | named a => exact (Mask.folded_or _ _).trans (congrArg (mask.folded ||| ·) (Mask.folded_bit w _))
    | everything => exact (Mask.folded_or _ _).trans (congrArg (mask.folded ||| ·) (Mask.folded_lowBits w _))

theorem parseMask_folded (V : Vocabulary) (w : Nat) (input : String) :
    V.parseMask w .wrap input = (V.parseMask (w + w) .wrap input).map Mask.folded := by
  refine (Reading.settle_map ?_ input).symm
  refine Reading.read_related (R := fun (wide : Mask (w + w)) narrow => wide.folded = narrow) ?_
    Mask.folded_zero input.toList
  rintro wide _ signal _ rfl
  exact folded_observe wide signal

theorem Encodes.widen {mask : Mask w} (indexed : V.Indexed) (room : V.size ≤ w) (wider : w ≤ v)
    (holds : V.Encodes set mask) : V.Encodes set (mask.setWidth v) := by
  have narrow (a : V.Action) : V.ordinal a % w = a := ordinal_mod indexed room a
  have wide (a : V.Action) : V.ordinal a % v = a := ordinal_mod indexed (Nat.le_trans room wider) a
  intro b inside
  rw [BitVec.getLsbD_setWidth,decide_eq_true inside,Bool.true_and]
  simp only [wide]
  by_cases low : b < w
  · rw [holds b low]
    simp only [narrow]
  · have clear : mask.getLsbD b = false := BitVec.getLsbD_of_ge mask b (Nat.le_of_not_lt low)
    rw [clear]
    refine iff_of_false Bool.false_ne_true ?_
    rintro ⟨a,_,rfl⟩
    exact low (Nat.lt_of_lt_of_le a.isLt room)

theorem parseMask_widen {mask : Mask w} (indexed : V.Indexed) (wider : w ≤ v)
    (read : V.parseMask w default input = .ok mask) :
    V.parseMask v default input = .ok (mask.setWidth v) := by
  have room : V.size ≤ w := of_decide_eq_true (fits_of_parseMask read)
  have plenty : V.size ≤ v := Nat.le_trans room wider
  have unrefused : V.parseMask w default input = V.parseMask w .wrap input := parseMask_reject_fits room input
  rw [unrefused] at read
  obtain ⟨set,gathered,holds⟩ := (parseMask_wrap_eq_ok_iff indexed).mp read
  have also : V.parseMask v .wrap input = .ok (mask.setWidth v) :=
    (parseMask_wrap_eq_ok_iff indexed).mpr ⟨set,gathered,holds.widen indexed room wider⟩
  exact (parseMask_reject_fits plenty input).trans also

theorem canonicalMask_eq {narrow : Mask w} {wide : Mask v} (same : narrow.toNat = wide.toNat) :
    V.canonicalMask narrow = V.canonicalMask wide := by
  unfold canonicalMask appendMask
  rw [Mask.indices_eq same]

-- A word of half the width is the folded one; where nothing has to be folded it is the same number,
-- and it is written alike.
theorem parseMask_halved (V : Vocabulary) (w : Nat) (input : String) :
    V.parseMask w .wrap input = (V.parseMask (w + w) .wrap input).map Mask.folded ∧
    (V.Indexed → ∀ narrow : Mask w, V.parseMask w default input = .ok narrow →
      ∃ wide : Mask (w + w), V.parseMask (w + w) default input = .ok wide ∧ narrow.toNat = wide.toNat) ∧
    ∀ (narrow : Mask w) (wide : Mask (w + w)), narrow.toNat = wide.toNat →
      V.canonicalMask narrow = V.canonicalMask wide := by
  refine ⟨V.parseMask_folded w input,?_,fun _ _ same => canonicalMask_eq same⟩
  intro indexed narrow read
  have wider : w ≤ w + w := Nat.le_add_right w w
  refine ⟨narrow.setWidth (w + w),parseMask_widen indexed wider read,?_⟩
  exact (BitVec.toNat_setWidth_of_le wider).symm

theorem parseMask_halved_crowded :
    let V := ofNames "letter" ((List.range 40).map fun i => (String.singleton (Char.ofNat (65 + i)),"Letter"))
    let pair := ofNames "door" [("open","Open"),("shut","Shut")]
    V.parseMask 64 .wrap "A,e" = .ok 0x1000000001#64 ∧ V.parseMask 32 .wrap "A,e" = .ok 0x11#32 ∧
    pair.parseMask 32 default "shut" = .ok 0b10#32 ∧
    (∃ wide : Mask 64, pair.parseMask 64 default "shut" = .ok wide ∧ 2 = wide.toNat) ∧
    pair.canonicalMask 0b110#32 = pair.canonicalMask 0b110#64 := by
  intro V pair
  have wide : V.parseMask 64 .wrap "A,e" = .ok 0x1000000001#64 := by decide +kernel
  have halved : Except.map (Mask.folded (w := 32)) (V.parseMask 64 .wrap "A,e") = .ok 0x11#32 := by
    rw [wide]
    decide +kernel
  have narrow : V.parseMask 32 .wrap "A,e" = .ok 0x11#32 := (parseMask_halved V 32 "A,e").1.trans halved
  have read : pair.parseMask 32 default "shut" = .ok 0b10#32 := by decide +kernel
  obtain ⟨_,widened,written⟩ := parseMask_halved pair 32 "shut"
  exact ⟨wide,narrow,read,widened (indexed_ofNames _ _) _ read,written 0b110#32 0b110#64 rfl⟩

end Vocabulary

end ActionStrings
