import ActionStrings.Encoding
import ActionStrings.Proofs.Observers
import Mathlib.Control.Monad.Basic

namespace ActionStrings.Vocabulary

variable (V : Vocabulary) {w : Nat}

-- A mask holds a set where each of its bits stands for some action of the set, numbered modulo
-- the width.
def Encodes (set : ActionSet V.size) (mask : Mask w) : Prop :=
  ∀ b, b < w → (mask.getLsbD b = true ↔ ∃ a ∈ set, V.ordinal a % w = b)

variable {V} {set : ActionSet V.size} {mask other : Mask w}

theorem Encodes.unique (holds : V.Encodes set mask) (also : V.Encodes set other) : mask = other := by
  apply Mask.eq_of_bits
  intro b inside
  exact (holds b inside).trans (also b inside).symm

theorem encodes_empty : V.Encodes .empty 0#w := by
  intro b _
  simp

theorem Encodes.insert (holds : V.Encodes set mask) (a : V.Action) :
    V.Encodes (set.insert a) (mask ||| Mask.bit w (V.ordinal a % w)) := by
  intro b inside
  rw [BitVec.getLsbD_or,Bool.or_eq_true,holds b inside,Mask.getLsbD_bit]
  constructor
  · intro held
    rcases held with ⟨c,member,same⟩ | ⟨_,same⟩
    · exact ⟨c,ActionSet.mem_insert.mpr (.inr member),same⟩
    · exact ⟨a,ActionSet.mem_insert.mpr (.inl rfl),same.symm⟩
  · intro ⟨c,member,same⟩
    rcases ActionSet.mem_insert.mp member with rfl | earlier
    · exact .inr ⟨inside,same.symm⟩
    · exact .inl ⟨c,earlier,same⟩

theorem Encodes.everything (indexed : V.Indexed) (holds : V.Encodes set mask) :
    V.Encodes .all (mask ||| Mask.lowBits w V.size) := by
  intro b inside
  rw [BitVec.getLsbD_or,Bool.or_eq_true,holds b inside,Mask.getLsbD_lowBits]
  constructor
  · intro held
    rcases held with ⟨c,_,same⟩ | ⟨_,declared⟩
    · exact ⟨c,ActionSet.mem_all,same⟩
    · refine ⟨⟨b,declared⟩,ActionSet.mem_all,?_⟩
      rw [indexed ⟨b,declared⟩]
      exact Nat.mod_eq_of_lt inside
  · intro ⟨c,_,same⟩
    refine .inr ⟨inside,?_⟩
    rw [indexed c] at same
    have lower : c.val % w ≤ c.val := Nat.mod_le _ _
    exact Nat.lt_of_le_of_lt (same ▸ lower) c.isLt

theorem exists_encodes (set : ActionSet V.size) : ∃ mask : Mask w, V.Encodes set mask := by
  have grown (list : List V.Action) : ∀ (gathered : ActionSet V.size) (mask : Mask w),
      V.Encodes gathered mask → ∃ mask : Mask w, V.Encodes (list.foldl (fun set a => set.insert a) gathered) mask := by
    induction list with
    | nil => exact fun _ mask holds => ⟨mask,holds⟩
    | cons a rest ih => exact fun _ _ holds => ih _ _ (holds.insert a)
  rw [← set.ofList_members]
  exact grown set.members .empty 0#w encodes_empty

theorem Encodes.take (indexed : V.Indexed) (holds : V.Encodes set mask) (event : Event V.Action) :
    V.Encodes (Sink.set V set event) (Sink.mask V w mask event) := by
  cases event with
  | named a => exact holds.insert a
  | everything => exact holds.everything indexed

theorem Encodes.observe (indexed : V.Indexed) (holds : V.Encodes set mask)
    (signal : Reading.Signal V.Action) :
    V.Encodes ((Sink.set V).observe set signal) ((Sink.mask V w).observe mask signal) := by
  cases signal with
  | blank => exact holds
  | hit hit => exact holds.take indexed hit.event

theorem read_encodes (indexed : V.Indexed) (w : Nat) (input : String) :
    Reading.Alike V.Encodes V.Encodes (V.read (Sink.set V) .empty input) (V.read (Sink.mask V w) 0#w input) :=
  Reading.read_related (fun _ _ signal _ holds => holds.observe indexed signal) encodes_empty input.toList

theorem parseMask_wrap_error (indexed : V.Indexed) {input : String} {error : Error} :
    V.parseMask w .wrap input = .error error ↔ V.parseSet input = .error error :=
  (((read_encodes indexed w input).settle input).1 error).symm

theorem parseMask_wrap_ok (indexed : V.Indexed) {input : String} (read : V.parseSet input = .ok set) :
    ∃ mask, V.parseMask w .wrap input = .ok mask ∧ V.Encodes set mask :=
  ((read_encodes indexed w input).settle input).2 set read

theorem parseMask_wrap_eq_ok_iff (indexed : V.Indexed) {input : String} :
    V.parseMask w .wrap input = .ok mask ↔ ∃ set, V.parseSet input = .ok set ∧ V.Encodes set mask := by
  constructor
  · intro read
    cases gathered : V.parseSet input with
    | error error =>
      rw [(parseMask_wrap_error indexed).mpr gathered] at read
      cases read
    | ok set =>
      obtain ⟨other,also,holds⟩ := parseMask_wrap_ok (w := w) indexed gathered
      rw [read] at also
      cases also
      exact ⟨set,rfl,holds⟩
  · intro ⟨set,gathered,holds⟩
    obtain ⟨other,read,also⟩ := parseMask_wrap_ok (w := w) indexed gathered
    rw [read,holds.unique also]

theorem parseMask_reject_fits (room : V.size ≤ w) (input : String) :
    V.parseMask w .reject input = V.parseMask w .wrap input := by
  simp only [parseMask,fits,room,decide_true,↓reduceIte]

theorem parseMask_reject_narrow (narrow : w < V.size) (input : String) :
    V.parseMask w .reject input = .error (.capacityExceeded V.title V.size w) := by
  simp only [parseMask,fits,Nat.not_le.mpr narrow,decide_false,Bool.false_eq_true,↓reduceIte]

end ActionStrings.Vocabulary
