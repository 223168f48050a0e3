import ActionStrings.Encoding
import Mathlib.Algebra.Group.Nat.Defs
import Mathlib.Data.Nat.Find
import Mathlib.Order.Bounds.Basic

namespace ActionStrings.Mask

variable {w : Nat} {mask : Mask w}

theorem toNat_lt_two_pow_iff {count : Nat} :
    mask.toNat < 2 ^ count ↔ ∀ i, mask.getLsbD i = true → i < count := by
  constructor
  · intro small i inside
    apply Nat.lt_of_not_le
    intro high
    have clear : mask.getLsbD i = false :=
      Nat.testBit_lt_two_pow (Nat.lt_of_lt_of_le small (Nat.pow_le_pow_right (by decide) high))
    rw [clear] at inside
    cases inside
  · intro low
    apply Nat.lt_pow_two_of_testBit
    intro i high
    apply Bool.eq_false_iff.mpr
    intro inside
    exact absurd (low i inside) (Nat.not_lt.mpr high)

end ActionStrings.Mask

namespace ActionStrings.Vocabulary

variable (V : Vocabulary) {w : Nat}

def actionsIn (mask : Mask w) : ActionSet V.size :=
  ⟨V.actions.filter fun a => mask.getLsbD (V.ordinal a),(List.pairwise_lt_finRange V.size).filter _⟩

def strayBits (mask : Mask w) : Set Nat := {bit | mask.getLsbD bit = true ∧ V.size ≤ bit}

variable {V} {mask : Mask w} {out : String} {bit : Nat} {bits rest : List Nat} {list : List V.Action}

theorem mem_actionsIn {a : V.Action} : a ∈ V.actionsIn mask ↔ mask.getLsbD (V.ordinal a) = true := by
  rw [ActionSet.mem_def,actionsIn,List.mem_filter]
  exact and_iff_right (List.mem_finRange a)

theorem actionsOf_positions : V.actionsOf (list.map Fin.val) = .ok list := by
  induction list with
  | nil => rfl
  | cons a rest ih =>
    have known : V.action? a.val = some a := dif_pos a.isLt
    rw [List.map_cons,actionsOf,known]
    dsimp only
    rw [ih]
    rfl

theorem actionsOf_stray (declared : ∀ b ∈ bits, b < V.size) (stray : V.size ≤ bit) :
    V.actionsOf (bits ++ bit :: rest) = .error (.unknownBit V.title bit) := by
  induction bits with
  | nil =>
    have unknown : V.action? bit = none := dif_neg (Nat.not_lt.mpr stray)
    rw [List.nil_append,actionsOf,unknown]
  | cons b more ih =>
    obtain ⟨first,others⟩ := List.forall_mem_cons.mp declared
    have known : V.action? b = some ⟨b,first⟩ := dif_pos first
    rw [List.cons_append,actionsOf,known]
    dsimp only
    rw [ih others]
    rfl

theorem indices_eq_positions (indexed : V.Indexed) (declared : ∀ b, mask.getLsbD b = true → b < V.size) :
    mask.indices = (V.actionsIn mask).members.map Fin.val := by
  apply Mask.indices_unique (List.pairwise_map.mpr (V.actionsIn mask).ascending)
  intro b
  rw [List.mem_map]
  constructor
  · rintro ⟨a,member,rfl⟩
    rw [← indexed a]
    exact mem_actionsIn.mp member
  · intro inside
    refine ⟨⟨b,declared b inside⟩,mem_actionsIn.mpr ?_,rfl⟩
    rwa [indexed]

theorem actionsOf_indices (indexed : V.Indexed) (declared : ∀ b, mask.getLsbD b = true → b < V.size) :
    V.actionsOf mask.indices = .ok (V.actionsIn mask).members := by
  rw [indices_eq_positions indexed declared,actionsOf_positions]

-- All that comes before the least stray bit is declared.
theorem actionsOf_indices_stray (least : IsLeast (V.strayBits mask) bit) :
    V.actionsOf mask.indices = .error (.unknownBit V.title bit) := by
  obtain ⟨⟨inside,stray⟩,lower⟩ := least
  obtain ⟨before,after,split⟩ := List.append_of_mem (Mask.mem_indices.mpr inside)
  have ascending : mask.indices.Pairwise (· < ·) := Mask.indices_ascending
  rw [split] at ascending
  rw [split]
  refine actionsOf_stray ?_ stray
  intro b member
  have earlier : b < bit := (List.pairwise_append.mp ascending).2.2 b member bit (List.mem_cons_self ..)
  have inMask : mask.getLsbD b = true :=
    Mask.mem_indices.mp (by rw [split]; exact List.mem_append_left _ member)
  by_contra high
  exact absurd (lower ⟨inMask,Nat.not_lt.mp high⟩) (Nat.not_le.mpr earlier)

theorem exists_least_stray (some : (V.strayBits mask).Nonempty) : ∃ bit, IsLeast (V.strayBits mask) bit := by
  classical
  exact ⟨Nat.find some,Nat.find_spec some,fun _ member => Nat.find_min' some member⟩

theorem appendMask_ok (written : V.actionsOf mask.indices = .ok list) :
    V.appendMask mask out = (.ok (),out ++ V.written list) := by
  rw [appendMask,written]

theorem appendMask_error {error : Error} (refused : V.actionsOf mask.indices = .error error) :
    V.appendMask mask out = (.error error,out) := by
  rw [appendMask,refused]

theorem canonicalMask_ok (written : V.actionsOf mask.indices = .ok list) :
    V.canonicalMask mask = .ok (V.written list) := by
  rw [canonicalMask,appendMask_ok written,String.empty_append]

theorem canonicalMask_error {error : Error} (refused : V.actionsOf mask.indices = .error error) :
    V.canonicalMask mask = .error error := by
  rw [canonicalMask,appendMask_error refused]

theorem canonicalSet_eq_written (set : ActionSet V.size) : V.canonicalSet set = V.written set.members :=
  String.empty_append

-- A mask is written as the set it stands for, or refused for its least stray bit with nothing
-- written at all.
theorem appendMask_exact (indexed : V.Indexed) (mask : Mask w) (out : String) :
    ((∀ bit, mask.getLsbD bit = true → bit < V.size) →
      V.appendMask mask out = (.ok (),out ++ V.canonicalSet (V.actionsIn mask)) ∧
      V.canonicalMask mask = .ok (V.canonicalSet (V.actionsIn mask)) ∧
      V.canonicalFlags ⟨mask⟩ = .ok (V.canonicalSet (V.actionsIn mask)) ∧
      V.canonicalSet (V.actionsIn mask) = ",".intercalate ((V.actionsIn mask).members.map V.name)) ∧
    ((¬ ∀ bit, mask.getLsbD bit = true → bit < V.size) →
      ∃ bit, IsLeast (V.strayBits mask) bit ∧
        V.appendMask mask out = (.error (.unknownBit V.title bit),out) ∧
        V.canonicalMask mask = .error (.unknownBit V.title bit) ∧
        V.canonicalFlags ⟨mask⟩ = .error (.unknownBit V.title bit)) := by
  constructor
  · intro declared
    have written := actionsOf_indices indexed declared
    rw [canonicalSet_eq_written]
    exact ⟨appendMask_ok written,canonicalMask_ok written,canonicalMask_ok written,rfl⟩
  · intro undeclared
    obtain ⟨stray,failed⟩ := not_forall.mp undeclared
    obtain ⟨inside,high⟩ := Classical.not_imp.mp failed
    obtain ⟨bit,least⟩ := exists_least_stray ⟨stray,inside,Nat.not_lt.mp high⟩
    have refused := actionsOf_indices_stray least
    exact ⟨bit,least,appendMask_error refused,canonicalMask_error refused,canonicalMask_error refused⟩

theorem appendMask_exact_shared_buffer :
    let V := ofNames "door" [("open","Open"),("shut","Shut")]
    V.appendMask 0b11#32 "may " = (.ok (),"may open,shut") ∧
    ∃ bit, IsLeast (V.strayBits 0b1101#32) bit ∧
      V.appendMask 0b1101#32 "may " = (.error (.unknownBit "door" bit),"may ") := by
  intro V
  have indexed : V.Indexed := indexed_ofNames _ _
  obtain ⟨written,_⟩ := appendMask_exact indexed 0b11#32 "may "
  obtain ⟨_,refused⟩ := appendMask_exact indexed 0b1101#32 "may "
  have low : ∀ bit, (0b11#32).getLsbD bit = true → bit < V.size :=
    Mask.toNat_lt_two_pow_iff.mp (by decide)
  obtain ⟨bit,least,kept,_⟩ := refused fun all => absurd (all 2 (by decide)) (by decide)
  obtain ⟨appended,_,_,spelled⟩ := written low
  rw [spelled] at appended
  have both : (V.actionsIn 0b11#32).members = V.actions := by decide
  rw [both] at appended
  exact ⟨appended,bit,least,kept⟩

end ActionStrings.Vocabulary
