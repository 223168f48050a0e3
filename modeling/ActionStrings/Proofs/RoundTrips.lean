import ActionStrings.Proofs.Rereading
import ActionStrings.RoundTrip
import ActionStrings.Session

namespace ActionStrings

namespace Vocabulary

variable {V : Vocabulary} {w : Nat} {input : String}

def Canonical (V : Vocabulary) (input : String) : Prop :=
  ∃ list : List V.Action, list.Pairwise (fun a b => V.ordinal a < V.ordinal b) ∧
    input = ",".intercalate (list.map V.name)

theorem canonical_iff (indexed : V.Indexed) : V.Canonical input ↔ ∃ set, V.canonicalSet set = input := by
  have sameOrder {list : List V.Action} :
      list.Pairwise (fun a b => V.ordinal a < V.ordinal b) ↔ list.Pairwise (· < ·) := by
    simp only [indexed _]
    exact Iff.rfl
  constructor
  · rintro ⟨list,ascending,rfl⟩
    exact ⟨⟨list,sameOrder.mp ascending⟩,V.canonicalSet_eq_written _⟩
  · rintro ⟨set,rfl⟩
    exact ⟨set.members,sameOrder.mpr set.ascending,V.canonicalSet_eq_written set⟩

-- All that can be written is read back, so what is fixed is what can be written at all.
theorem set_fixes_iff (named : V.WellNamed) :
    (Codec.set V).Fixes input ↔ ∃ set, V.canonicalSet set = input := by
  constructor
  · intro ⟨set,_,written⟩
    exact ⟨set,Except.ok.inj written⟩
  · rintro ⟨set,rfl⟩
    exact ⟨set,parseSet_canonicalSet fun a _ => wellNamed_iff.mp named a,rfl⟩

theorem mask_fixes_iff (indexed : V.Indexed) (room : V.size ≤ w) :
    (Codec.mask V w default).Fixes input ↔ (Codec.set V).Fixes input := by
  have unrefused : V.parseMask w default input = V.parseMask w .wrap input := parseMask_reject_fits room input
  have written {set : ActionSet V.size} {mask : Mask w} (holds : V.Encodes set mask) :
      V.canonicalMask mask = .ok (V.canonicalSet set) := by
    rw [canonicalMask_small indexed (holds.small indexed),holds.actionsIn_eq indexed room]
  constructor
  · intro ⟨mask,read,rewritten⟩
    obtain ⟨set,gathered,holds⟩ := (parseMask_wrap_eq_ok_iff indexed).mp (unrefused.symm.trans read)
    exact ⟨set,gathered,(written holds).symm.trans rewritten⟩
  · intro ⟨set,gathered,rewritten⟩
    obtain ⟨mask,read,holds⟩ := parseMask_wrap_ok (w := w) indexed gathered
    exact ⟨mask,unrefused.trans read,(written holds).trans rewritten⟩

-- A text survives being read and written again exactly where it is canonical, whichever encoding
-- it goes through.
theorem fixes_iff_canonical (indexed : V.Indexed) (named : V.WellNamed) (input : String) :
    ((Codec.set V).Fixes input ↔ V.Canonical input) ∧
    ∀ w, V.size ≤ w → ((Codec.mask V w default).Fixes input ↔ V.Canonical input) := by
  have sets : (Codec.set V).Fixes input ↔ V.Canonical input :=
    (set_fixes_iff named).trans (canonical_iff indexed).symm
  exact ⟨sets,fun w room => (mask_fixes_iff indexed room).trans sets⟩

theorem fixes_iff_canonical_prefixed :
    let V := ofNames "link" [("read","Read"),("readlink","ReadLink")]
    V.WellNamed ∧ (Codec.mask V 32 default).Fixes "read,readlink" ∧ ¬V.Canonical "readlink,read" := by
  intro V
  have indexed : V.Indexed := indexed_ofNames _ _
  have named : V.WellNamed := by decide +kernel
  have ordered : V.Canonical "read,readlink" := ⟨V.actions,by decide +kernel,by decide +kernel⟩
  have masks := (fixes_iff_canonical indexed named "read,readlink").2 32 (by decide)
  refine ⟨named,masks.mpr ordered,?_⟩
  intro reversed
  obtain ⟨set,read,written⟩ := (fixes_iff_canonical indexed named "readlink,read").1.mpr reversed
  have whole : V.parseSet "readlink,read" = .ok .all := by decide +kernel
  cases whole.symm.trans read
  exact absurd (Except.ok.inj written) (by decide +kernel)

theorem set_restores (named : V.WellNamed) : (Codec.set V).Restores :=
  fun _ set _ => ⟨V.canonicalSet set,rfl,parseSet_canonicalSet fun a _ => wellNamed_iff.mp named a⟩

theorem mask_restores (indexed : V.Indexed) (named : V.WellNamed) (w : Nat) (policy : Policy) :
    (Codec.mask V w policy).Restores := by
  intro input mask read
  have small := small_of_parseMask indexed read
  exact ⟨V.canonicalSet (V.actionsIn mask),canonicalMask_small indexed small,
    parseMask_canonicalSet indexed named (fits_of_parseMask read) small⟩

end Vocabulary

namespace Session

variable {V : Vocabulary}

theorem play_reparse (named : V.WellNamed) (s : Session V) :
    s.play [.clear,.appendSet,.reparse] = {s with out := V.canonicalSet s.set} := by
  have read : V.parseSet (V.canonicalSet s.set) = .ok s.set :=
    Vocabulary.parseSet_canonicalSet fun a _ => Vocabulary.wellNamed_iff.mp named a
  have written : s.play [.clear,.appendSet] = {s with out := V.canonicalSet s.set} := rfl
  have last : s.play [.clear,.appendSet,.reparse] = ((s.play [.clear,.appendSet]).perform .reparse).2 := rfl
  rw [last,written]
  simp only [perform,read]
  rfl

end Session

end ActionStrings
