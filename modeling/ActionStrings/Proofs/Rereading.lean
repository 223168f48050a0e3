import ActionStrings.Proofs.Encodings
import ActionStrings.Proofs.MaskWriting
import ActionStrings.Proofs.Scanning
import ActionStrings.Proofs.TrieMap
import Mathlib.Data.List.TakeWhile

namespace ActionStrings.Vocabulary
open Text

variable {V : Vocabulary} {σ : Type} {sink : Sink V σ} {a b : V.Action} {list : List V.Action}

structure Writable (a : V.Action) : Prop where
  word : IsWord (V.name a).toList
  held : V.lastNamed? (V.name a) = some a

theorem written_toList (list : List V.Action) :
    (V.written list).toList = [','].intercalate (list.map fun a => (V.name a).toList) := by
  rw [written,String.toList_intercalate,List.map_map]
  rfl

theorem written_cons_cons :
    (V.written (a :: b :: list)).toList = (V.name a).toList ++ ',' :: (V.written (b :: list)).toList := by
  rw [written_toList,written_toList,List.map_cons,List.map_cons,List.intercalate_cons_cons,List.append_assoc]
  rfl

theorem resume_name {offset : Nat} {seen : σ} {rest : List Char} (writable : Writable a)
    (ends : Reading.Ends rest) :
    Reading.resume V.nameTrie.find? sink.observe ⟨.between,offset,seen⟩ ((V.name a).toList ++ rest) =
      Reading.resume V.nameTrie.find? sink.observe
        ⟨.after,offset + byteLength (V.name a).toList,sink seen (.named a)⟩ rest := by
  have found : V.nameTrie.find? (V.name a).toList = some a := by
    rw [nameTrie_find?,String.ofList_toList]; exact writable.held
  rw [Reading.resume_word writable.word ends,found]
  rfl

-- Each comma leads from the end of one name to where the next may begin.
theorem resume_written {offset : Nat} {seen : σ} (writable : ∀ a ∈ list, Writable a) :
    Reading.resume V.nameTrie.find? sink.observe ⟨.between,offset,seen⟩ (V.written list).toList =
      .ok (list.foldl (fun seen a => sink seen (.named a)) seen) := by
  induction list generalizing offset seen with
  | nil => rfl
  | cons a rest ih =>
    obtain ⟨first,others⟩ := List.forall_mem_cons.mp writable
    cases rest with
    | nil =>
      have alone : (V.written [a]).toList = (V.name a).toList ++ [] := by
        rw [written_toList,List.map_singleton,List.intercalate_singleton,List.append_nil]
      rw [alone,resume_name first (.inl rfl)]
      rfl
    | cons b more =>
      have ends : Reading.Ends (',' :: (V.written (b :: more)).toList) := .inr ⟨',',_,rfl,by decide⟩
      rw [written_cons_cons,resume_name first ends,Reading.resume_after_comma,ih others]
      rfl

theorem read_written {seen : σ} (writable : ∀ a ∈ list, Writable a) :
    V.read sink seen (V.written list) = .ok (list.foldl (fun seen a => sink seen (.named a)) seen) :=
  resume_written writable

theorem parseSet_canonicalSet {set : ActionSet V.size} (writable : ∀ a ∈ set, Writable a) :
    V.parseSet (V.canonicalSet set) = .ok set := by
  rw [parseSet,canonicalSet,appendSet,String.empty_append,read_written writable]
  exact congrArg Except.ok set.ofList_members

end ActionStrings.Vocabulary

namespace ActionStrings.Text

def Starred (text : List Char) : Prop :=
  ∃ lead tail, text = lead ++ '*' :: tail ∧
    (∀ c ∈ lead, isSeparator c = true) ∧ ∀ c ∈ tail, isSeparator c = true

theorem word_first {c : Char} {rest : List Char} (letter : isSeparator c = false) (unstarred : c ≠ '*') :
    ∃ word more, c :: rest = word ++ more ∧ IsWord word ∧ Reading.Ends more := by
  have stopped := List.head?_dropWhile_not (fun c => !isSeparator c) rest
  refine ⟨c :: rest.takeWhile fun c => !isSeparator c,rest.dropWhile fun c => !isSeparator c,?_,?_,?_⟩
  · rw [List.cons_append,List.takeWhile_append_dropWhile]
  · exact isWord_cons letter unstarred fun d inside => by simpa using List.mem_takeWhile_imp inside
  · cases left : rest.dropWhile fun c => !isSeparator c with
    | nil => exact .inl rfl
    | cons d more =>
      rw [left] at stopped
      exact .inr ⟨d,more,rfl,by simpa using stopped⟩

end ActionStrings.Text

namespace ActionStrings
open Text

namespace Reading

variable {α σ : Type} {find? : List Char → Option α} {observe : σ → Signal α → σ} {offset : Nat} {seen last : σ}
  {text : List Char}

variable (quiet : ∀ seen, observe seen .blank = seen)
include quiet

theorem resume_starred (starred : Starred text) :
    ∃ start, resume find? observe ⟨.between,offset,seen⟩ text =
      .ok (observe seen (.hit ⟨start,start + 1,['*'],.everything⟩)) := by
  obtain ⟨lead,tail,rfl,leading,trailing⟩ := starred
  refine ⟨offset + byteLength lead,?_⟩
  rw [resume_between_separators quiet leading,resume_between_star,resume_closed,
    stray?_eq_none_iff.mpr trailing]

theorem starred_of_resume (unknown : ∀ word, IsWord word → find? word = none)
    (read : resume find? observe ⟨.between,offset,seen⟩ text = .ok last) (told : last ≠ seen) :
    Starred text := by
  induction text generalizing offset with
  | nil =>
    cases read
    exact absurd rfl told
  | cons c rest ih =>
    by_cases separates : isSeparator c = true
    · have alone : ∀ d ∈ [c], isSeparator d = true := fun d member => by rwa [List.mem_singleton.mp member]
      have onward : resume find? observe ⟨.between,offset + byteLength [c],seen⟩ rest = .ok last :=
        (resume_between_separators quiet alone).symm.trans read
      obtain ⟨lead,tail,rfl,leading,trailing⟩ := ih onward
      exact ⟨c :: lead,tail,rfl,List.forall_mem_cons.mpr ⟨separates,leading⟩,trailing⟩
    · have letter : isSeparator c = false := by simpa using separates
      by_cases star : c = '*'
      · subst star
        rw [resume_between_star,resume_closed] at read
        cases stray : stray? (offset + 1) rest with
        | none => exact ⟨[],rest,rfl,by simp,stray?_eq_none_iff.mp stray⟩
        | some row =>
          rw [stray] at read
          cases read
      · obtain ⟨word,more,split,isWord,ends⟩ : ∃ word more, c :: rest = word ++ more ∧ IsWord word ∧ Ends more :=
          word_first letter star
        rw [split,resume_word isWord ends,unknown word isWord] at read
        cases read

end Reading

namespace Vocabulary

structure WellNamed (V : Vocabulary) : Prop where
  distinct : ∀ a b, V.name a = V.name b → a = b
  words : ∀ a, IsWord (V.name a).toList

instance (V : Vocabulary) : Decidable V.WellNamed :=
  decidable_of_iff ((∀ a b, V.name a = V.name b → a = b) ∧ ∀ a, IsWord (V.name a).toList)
    ⟨fun ⟨distinct,words⟩ => ⟨distinct,words⟩,fun named => ⟨named.distinct,named.words⟩⟩

variable {V : Vocabulary} {w : Nat} {mask : Mask w} {set : ActionSet V.size} {a : V.Action}

theorem wellNamed_iff : V.WellNamed ↔ ∀ a : V.Action, Writable a := by
  constructor
  · intro named a
    refine ⟨named.words a,V.lastNamed?_eq_some_iff.mpr ⟨rfl,?_⟩⟩
    intro b same
    exact Fin.le_of_eq (named.distinct b a same)
  · intro writable
    refine ⟨?_,fun a => (writable a).word⟩
    intro a b same
    have held := (writable a).held
    rw [same,(writable b).held] at held
    exact (Option.some.inj held).symm

theorem writable_of_found {word : List Char} (isWord : IsWord word)
    (found : V.nameTrie.find? word = some a) : Writable a := by
  rw [nameTrie_find?] at found
  have carries : V.name a = String.ofList word := (V.lastNamed?_eq_some_iff.mp found).1
  refine ⟨?_,by rwa [carries]⟩
  rwa [carries,String.toList_ofList]

-- What can be in a set that was read: writable actions alone, or everything.
def Known (set : ActionSet V.size) : Prop := (∀ a ∈ set, Writable a) ∨ set = .all

theorem Known.insert (known : Known set) (writable : Writable a) : Known (set.insert a) := by
  rcases known with known | all
  · apply Or.inl
    intro b member
    rcases ActionSet.mem_insert.mp member with rfl | earlier
    · exact writable
    · exact known b earlier
  · apply Or.inr
    apply ActionSet.ext
    intro b
    subst all
    exact iff_of_true (ActionSet.mem_insert.mpr (.inr ActionSet.mem_all)) ActionSet.mem_all

theorem Known.observe {signal : Reading.Signal V.Action} (known : Known set)
    (genuine : Reading.Genuine V.nameTrie.find? signal) : Known ((Sink.set V).observe set signal) := by
  cases signal with
  | blank => exact known
  | hit hit =>
    obtain ⟨_,_,_,event⟩ := hit
    cases event with
    | everything => exact .inr rfl
    | named a => exact known.insert (writable_of_found genuine.1 genuine.2)

theorem known_of_parseSet {input : String} (read : V.parseSet input = .ok set) : Known set := by
  apply Reading.read_keeps (fun _ _ genuine known => Known.observe known genuine) ?_ (Error.settle_eq_ok_iff.mp read)
  exact .inl fun a member => absurd member ActionSet.not_mem_empty

theorem eq_of_single (single : V.size = 1) (a b : V.Action) : b = a := Fin.ext (by omega)

theorem canonicalSet_single (a : V.Action) : V.canonicalSet (ActionSet.empty.insert a) = V.name a := by
  rw [canonicalSet_eq_written]
  exact String.intercalate_singleton

theorem starred_of_reread (single : V.size = 1) (unwritable : ¬ Writable a)
    (reread : ∀ set, V.parseSet (V.canonicalSet set) = .ok set) : Starred (V.name a).toList := by
  have again := reread (ActionSet.empty.insert a)
  rw [canonicalSet_single] at again
  refine Reading.starred_of_resume (fun _ => rfl) ?_ (Error.settle_eq_ok_iff.mp again) ?_
  · intro word isWord
    cases found : V.nameTrie.find? word with
    | none => rfl
    | some b => exact absurd (eq_of_single single a b ▸ writable_of_found isWord found) unwritable
  · intro same
    have member := ActionSet.empty.mem_insert_self a
    rw [same] at member
    exact ActionSet.not_mem_empty member

theorem writable_or_single (reread : ∀ set, V.parseSet (V.canonicalSet set) = .ok set) (a : V.Action) :
    Writable a ∨ V.size = 1 := by
  rcases known_of_parseSet (reread (ActionSet.empty.insert a)) with known | all
  · exact .inl (known a (ActionSet.mem_insert_self a _))
  · have only (b : V.Action) : b = a := by
      have inAll : b ∈ (ActionSet.all : ActionSet V.size) := ActionSet.mem_all
      rw [← all] at inAll
      exact (ActionSet.mem_insert.mp inAll).resolve_right ActionSet.not_mem_empty
    refine .inr (Nat.le_antisymm (Nat.le_of_not_lt fun second => ?_) (Nat.lt_of_le_of_lt (Nat.zero_le a) a.isLt))
    have zero := congrArg Fin.val (only ⟨0,by omega⟩)
    have one := congrArg Fin.val (only ⟨1,second⟩)
    simp only at zero one
    omega

theorem reread_starred (single : V.size = 1) (starred : ∀ a, Starred (V.name a).toList)
    (set : ActionSet V.size) : V.parseSet (V.canonicalSet set) = .ok set := by
  have only := eq_of_single single
  by_cases some : ∃ a, a ∈ set
  · obtain ⟨a,member⟩ := some
    have whole : set = ActionSet.empty.insert a :=
      ActionSet.ext fun b => iff_of_true (only a b ▸ member) (ActionSet.mem_insert.mpr (.inl (only a b)))
    have every : set = .all :=
      ActionSet.ext fun b => iff_of_true (only a b ▸ member) ActionSet.mem_all
    obtain ⟨start,reading⟩ : ∃ start, V.read (Sink.set V) .empty (V.name a) =
        .ok ((Sink.set V).observe .empty (.hit ⟨start,start + 1,['*'],.everything⟩)) :=
      Reading.resume_starred (fun _ => rfl) (starred a)
    have text : V.canonicalSet set = V.name a := by rw [whole,canonicalSet_single]
    rw [text,parseSet,reading,every]
    rfl
  · have none : set = .empty :=
      ActionSet.ext fun a => iff_of_false (fun member => some ⟨a,member⟩) ActionSet.not_mem_empty
    subst none
    exact parseSet_canonicalSet fun a member => absurd member ActionSet.not_mem_empty

theorem reread_iff : (∀ set, V.parseSet (V.canonicalSet set) = .ok set) ↔
    V.WellNamed ∨ V.size = 1 ∧ ∀ a, Starred (V.name a).toList := by
  constructor
  · intro reread
    by_cases named : ∀ a : V.Action, Writable a
    · exact .inl (wellNamed_iff.mpr named)
    · obtain ⟨a,unwritable⟩ := not_forall.mp named
      have single := (writable_or_single reread a).resolve_left unwritable
      refine .inr ⟨single,fun b => ?_⟩
      rw [eq_of_single single a b]
      exact starred_of_reread single unwritable reread
  · intro criterion set
    rcases criterion with named | ⟨single,starred⟩
    · exact parseSet_canonicalSet fun a _ => wellNamed_iff.mp named a
    · exact reread_starred single starred set

-- Where no two actions share a bit, a mask and the set it holds decide each other.
theorem Encodes.small (indexed : V.Indexed) (holds : V.Encodes set mask) : mask.toNat < 2 ^ V.size := by
  refine Mask.toNat_lt_two_pow_iff.mpr fun bit inside => ?_
  obtain ⟨a,_,same⟩ := (holds bit (BitVec.lt_of_getLsbD inside)).mp inside
  rw [indexed a] at same
  have lower : a.val % w ≤ a.val := Nat.mod_le _ _
  omega

theorem ordinal_mod (indexed : V.Indexed) (room : V.size ≤ w) (a : V.Action) : V.ordinal a % w = a := by
  rw [indexed a]
  exact Nat.mod_eq_of_lt (Nat.lt_of_lt_of_le a.isLt room)

theorem Encodes.actionsIn_eq (indexed : V.Indexed) (room : V.size ≤ w) (holds : V.Encodes set mask) :
    V.actionsIn mask = set := by
  apply ActionSet.ext
  intro a
  rw [mem_actionsIn,indexed a,holds a (Nat.lt_of_lt_of_le a.isLt room)]
  constructor
  · intro ⟨b,member,same⟩
    rw [ordinal_mod indexed room b] at same
    rwa [← Fin.ext same]
  · intro member
    exact ⟨a,member,ordinal_mod indexed room a⟩

-- The actions of the lowest numbers give a small mask back, also where others share their bits.
theorem encodes_actionsIn (indexed : V.Indexed) (small : mask.toNat < 2 ^ V.size) :
    V.Encodes (V.actionsIn mask) mask := by
  intro bit inside
  constructor
  · intro present
    have declared : bit < V.size := Mask.toNat_lt_two_pow_iff.mp small bit present
    have number : V.ordinal ⟨bit,declared⟩ = bit := indexed ⟨bit,declared⟩
    refine ⟨⟨bit,declared⟩,mem_actionsIn.mpr ?_,?_⟩
    · rwa [number]
    · rw [number]
      exact Nat.mod_eq_of_lt inside
  · rintro ⟨a,member,rfl⟩
    have present : mask.getLsbD (V.ordinal a) = true := mem_actionsIn.mp member
    rwa [Nat.mod_eq_of_lt (BitVec.lt_of_getLsbD present)]

theorem canonicalMask_small (indexed : V.Indexed) (small : mask.toNat < 2 ^ V.size) :
    V.canonicalMask mask = .ok (V.canonicalSet (V.actionsIn mask)) := by
  rw [canonicalSet_eq_written]
  exact canonicalMask_ok (actionsOf_indices indexed (Mask.toNat_lt_two_pow_iff.mp small))

theorem reread_masks_iff (indexed : V.Indexed) (room : V.size ≤ w) :
    (∀ mask : Mask w, mask.toNat < 2 ^ V.size →
      ∃ text, V.canonicalMask mask = .ok text ∧ V.parseMask w default text = .ok mask) ↔
    ∀ set, V.parseSet (V.canonicalSet set) = .ok set := by
  have unrefused (input : String) : V.parseMask w default input = V.parseMask w .wrap input :=
    parseMask_reject_fits room input
  constructor
  · intro reread set
    obtain ⟨mask,holds⟩ : ∃ mask : Mask w, V.Encodes set mask := exists_encodes set
    have small := holds.small indexed
    obtain ⟨text,written,read⟩ := reread mask small
    rw [canonicalMask_small indexed small,holds.actionsIn_eq indexed room] at written
    cases written
    rw [unrefused] at read
    obtain ⟨other,gathered,also⟩ := (parseMask_wrap_eq_ok_iff indexed).mp read
    rw [gathered,← holds.actionsIn_eq indexed room,also.actionsIn_eq indexed room]
  · intro reread mask small
    refine ⟨V.canonicalSet (V.actionsIn mask),canonicalMask_small indexed small,?_⟩
    rw [unrefused,parseMask_wrap_eq_ok_iff indexed]
    exact ⟨V.actionsIn mask,reread (V.actionsIn mask),encodes_actionsIn indexed small⟩

-- What is written can be read back, for all sets or masks at once, exactly where every name
-- stands for itself alone, or the only name is a wildcard and so stands for all there is.
theorem canonical_rereads_iff (indexed : V.Indexed) :
    ((∀ set, V.parseSet (V.canonicalSet set) = .ok set) ↔
      V.WellNamed ∨ V.size = 1 ∧ ∀ a, Starred (V.name a).toList) ∧
    ∀ w, V.size ≤ w →
      ((∀ mask : Mask w, mask.toNat < 2 ^ V.size →
          ∃ text, V.canonicalMask mask = .ok text ∧ V.parseMask w default text = .ok mask) ↔
        V.WellNamed ∨ V.size = 1 ∧ ∀ a, Starred (V.name a).toList) :=
  ⟨reread_iff,fun _ room => (reread_masks_iff indexed room).trans reread_iff⟩

theorem canonical_rereads_iff_wildcard :
    let V := ofNames "whole" [(" *,","Whole")]
    let doors := ofNames "door" [("open","Open"),("shut","Shut"),("lock","Lock")]
    ((∀ set, V.parseSet (V.canonicalSet set) = .ok set) ∧
      ∀ mask : Mask 32, mask.toNat < 2 ^ V.size →
        ∃ text, V.canonicalMask mask = .ok text ∧ V.parseMask 32 default text = .ok mask) ∧
    (∀ set, doors.parseSet (doors.canonicalSet set) = .ok set) ∧
    ∀ mask : Mask 3, mask.toNat < 2 ^ doors.size →
      ∃ text, doors.canonicalMask mask = .ok text ∧ doors.parseMask 3 default text = .ok mask := by
  intro V doors
  obtain ⟨sets,masks⟩ := canonical_rereads_iff (indexed_ofNames "whole" [(" *,","Whole")])
  have only : V.WellNamed ∨ V.size = 1 ∧ ∀ a, Starred (V.name a).toList := by
    have space : ∀ c ∈ [' '], isSeparator c = true := List.forall_mem_singleton.mpr (by decide)
    have comma : ∀ c ∈ [','], isSeparator c = true := List.forall_mem_singleton.mpr (by decide)
    refine .inr ⟨rfl,fun a => ⟨[' '],[','],?_,space,comma⟩⟩
    have first : a = ⟨0,by decide⟩ := eq_of_single rfl _ a
    rw [first]
    decide
  obtain ⟨doorSets,doorMasks⟩ :=
    canonical_rereads_iff (indexed_ofNames "door" [("open","Open"),("shut","Shut"),("lock","Lock")])
  have named : doors.WellNamed := by decide +kernel
  exact ⟨⟨sets.mpr only,(masks 32 (by decide)).mpr only⟩,doorSets.mpr (.inl named),
    (doorMasks 3 (by decide)).mpr (.inl named)⟩

variable {policy : Policy} {input : String}

theorem parseMask_of_fits (fits : V.fits w policy = true) (input : String) :
    V.parseMask w policy input = V.parseMask w .wrap input := by
  have shared : V.fits w .wrap = true := rfl
  rw [parseMask,parseMask,if_pos fits,if_pos shared]

theorem fits_of_parseMask (read : V.parseMask w policy input = .ok mask) : V.fits w policy = true := by
  unfold parseMask at read
  split at read
  · assumption
  · cases read

theorem small_of_parseMask (indexed : V.Indexed) (read : V.parseMask w policy input = .ok mask) :
    mask.toNat < 2 ^ V.size := by
  rw [parseMask_of_fits (fits_of_parseMask read),parseMask_wrap_eq_ok_iff indexed] at read
  obtain ⟨set,_,holds⟩ := read
  exact holds.small indexed

theorem parseMask_canonicalSet (indexed : V.Indexed) (named : V.WellNamed) (fits : V.fits w policy = true)
    (small : mask.toNat < 2 ^ V.size) :
    V.parseMask w policy (V.canonicalSet (V.actionsIn mask)) = .ok mask := by
  rw [parseMask_of_fits fits,parseMask_wrap_eq_ok_iff indexed]
  exact ⟨V.actionsIn mask,parseSet_canonicalSet fun a _ => wellNamed_iff.mp named a,
    encodes_actionsIn indexed small⟩

-- A mask that was read can be written, by the actions of the lowest numbers that have its bits,
-- and what is written is read as the same mask, whether or not it names the actions first named.
theorem parseMask_restored (indexed : V.Indexed) (read : V.parseMask w policy input = .ok mask) :
    ∃ text, V.canonicalMask mask = .ok text ∧ (V.WellNamed → V.parseMask w policy text = .ok mask) := by
  have small := small_of_parseMask indexed read
  refine ⟨V.canonicalSet (V.actionsIn mask),canonicalMask_small indexed small,?_⟩
  intro named
  exact parseMask_canonicalSet indexed named (fits_of_parseMask read) small

theorem parseMask_restored_wrapped :
    let V := ofNames "letter" ((List.range 33).map fun i => (String.singleton (Char.ofNat (65 + i)),"Letter"))
    V.WellNamed ∧ V.parseMask 32 .wrap "a" = .ok 1#32 ∧
    ∃ text, V.canonicalMask 1#32 = .ok text ∧ V.parseMask 32 .wrap text = .ok 1#32 := by
  intro V
  have named : V.WellNamed := by
    have words : ∀ a, (V.name a).toList ≠ [] ∧ (V.name a).toList.head? ≠ some '*' ∧
        (V.name a).toList.any isSeparator = false := by decide +kernel
    refine ⟨by decide +kernel,fun a => ⟨(words a).1,(words a).2.1,fun c inside => ?_⟩⟩
    exact Bool.eq_false_iff.mpr (List.any_eq_false.mp (words a).2.2 c inside)
  have read : V.parseMask 32 .wrap "a" = .ok 1#32 := by decide +kernel
  obtain ⟨text,written,reread⟩ := parseMask_restored (indexed_ofNames _ _) read
  exact ⟨named,read,text,written,reread named⟩

end Vocabulary

end ActionStrings
