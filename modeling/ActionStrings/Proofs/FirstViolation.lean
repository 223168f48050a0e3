import ActionStrings.Encoding
import ActionStrings.Proofs.Observers
import ActionStrings.Proofs.Transitions
import Mathlib.Control.Monad.Basic

namespace ActionStrings
open Text

namespace Violation

def index : Violation → Nat
  | .unexpectedCharacter _ index => index
  | .invalidAction _ index => index

def culprit : Violation → String
  | .unexpectedCharacter ch _ => String.singleton ch
  | .invalidAction action _ => action

-- What may follow the culprit and leave it one: a name could go on to be another name.
def Stands (tail : String) : Violation → Prop
  | .unexpectedCharacter _ _ => True
  | .invalidAction _ _ => Reading.Ends tail.toList

@[simp] theorem culprit_character (ch : Char) (index : Nat) :
    (unexpectedCharacter ch index).culprit.toList = [ch] := String.toList_singleton ch

@[simp] theorem culprit_word (word : List Char) (index : Nat) :
    (invalidAction (String.ofList word) index).culprit.toList = word := String.toList_ofList

end Violation

namespace Reading

variable {α σ : Type} {find? : List Char → Option α} {observe : σ → Signal α → σ}
  {seen last : σ} {s next : State σ} {c : Char} {stop : Stop σ} {text done front word rest : List Char}

-- What the state says of the text that led to it: the whole is counted, and an open word is
-- all that was passed since names could last begin.
structure Reached (find? : List Char → Option α) (observe : σ → Signal α → σ) (seen : σ)
    (done : List Char) (s : State σ) : Prop where
  ran : advance find? observe (initial seen) done = .ok s
  offset : s.offset = byteLength done
  word : ∀ start reversed, s.mode = .word start reversed → IsWord reversed.reverse ∧
    ∃ front, done = front ++ reversed.reverse ∧
      advance find? observe (initial seen) front = .ok ⟨.between,byteLength front,s.seen⟩ ∧
      start = byteLength front

theorem reached_initial : Reached find? observe seen [] (initial seen) :=
  ⟨rfl,rfl,fun _ _ same => Mode.noConfusion same⟩

theorem passes_offset (passes : Passes find? observe s c next) : next.offset = s.offset + c.utf8Size := by
  cases passes <;> rfl

theorem passes_ran (ran : advance find? observe (initial seen) done = .ok s)
    (passes : Passes find? observe s c next) :
    advance find? observe (initial seen) (done ++ [c]) = .ok next := by
  rw [advance_append_ok ran,advance_cons_ok (step_of_passes passes)]
  rfl

theorem Reached.passes (reached : Reached find? observe seen done s)
    (passes : Passes find? observe s c next) : Reached find? observe seen (done ++ [c]) next := by
  obtain ⟨ran,offset,word⟩ := reached
  refine ⟨passes_ran ran passes,?_,?_⟩
  · rw [passes_offset passes,offset,byteLength_append]
    rfl
  · intro start reversed inWord
    cases passes with
    | first letter unstarred =>
      cases inWord
      simp only at offset
      subst offset
      exact ⟨isWord_cons letter unstarred (by simp),done,rfl,ran,rfl⟩
    | letter letter =>
      cases inWord
      obtain ⟨isWord,front,split,begun,placed⟩ := word _ _ rfl
      refine ⟨?_,front,?_,begun,placed⟩
      · rw [List.reverse_cons]; exact isWord_extend isWord letter
      · rw [split,List.reverse_cons,List.append_assoc]
    | close =>
      simp only at inWord
      split at inWord <;> cases inWord
    | blank => cases inWord
    | lead => cases inWord
    | star => cases inWord
    | comma => cases inWord
    | trail => cases inWord
    | tail => cases inWord

theorem reached_of_advance (ran : advance find? observe (initial seen) done = .ok s) :
    Reached find? observe seen done s :=
  advance_keeps (fun _ _ _ _ reached passes => reached.passes passes) [] reached_initial ran

theorem read_of_advance_ok (ran : advance find? observe (initial seen) done = .ok s) (rest : List Char) :
    Reading.read find? observe seen (done ++ rest) = resume find? observe s rest := by
  unfold Reading.read
  rw [advance_append_ok ran]
  rfl

theorem read_of_advance_error (ran : advance find? observe (initial seen) done = .error stop) (rest : List Char) :
    Reading.read find? observe seen (done ++ rest) = .error stop := by
  unfold Reading.read
  rw [advance_append_error ran]

theorem finish_error (failed : finish find? observe s = .error stop) :
    ∃ start reversed, s.mode = .word start reversed ∧ find? reversed.reverse = none ∧
      stop = ⟨.invalidAction (String.ofList reversed.reverse) start,s.seen⟩ := by
  unfold finish at failed
  split at failed
  · rename_i start reversed inWord
    refine ⟨start,reversed,inWord,?_⟩
    simp only [closeWord] at failed
    cases known : find? reversed.reverse with
    | none =>
      rw [known] at failed
      cases failed
      exact ⟨rfl,rfl⟩
    | some action =>
      rw [known] at failed
      cases failed
  · cases failed

-- A text cut where its violation is: what comes before is fine and gives all that was seen, and
-- what comes after the culprit decides nothing.
def StopsAfter (find? : List Char → Option α) (observe : σ → Signal α → σ) (seen : σ) (stop : Stop σ)
    (front : List Char) : Prop :=
  stop.violation.index = byteLength front ∧ stop.violation.culprit ≠ "" ∧
  Reading.read find? observe seen front = .ok stop.seen ∧
  ∀ tail, stop.violation.Stands tail →
    Reading.read find? observe seen (front ++ (stop.violation.culprit.toList ++ tail.toList)) = .error stop

theorem stopsAfter_unknown
    (ran : advance find? observe (initial seen) front = .ok ⟨.between,byteLength front,last⟩)
    (isWord : IsWord word) (unknown : find? word = none) :
    StopsAfter find? observe seen ⟨.invalidAction (String.ofList word) (byteLength front),last⟩ front := by
  refine ⟨rfl,?_,?_,?_⟩
  · intro empty
    exact isWord.nonempty (String.ofList_eq_empty_iff.mp empty)
  · have whole := read_of_advance_ok ran []
    rwa [List.append_nil] at whole
  · intro tail ends
    rw [Violation.culprit_word,read_of_advance_ok ran,resume_word isWord ends,unknown]

theorem stopsAfter_unexpected (reached : Reached find? observe seen front s)
    (finished : finish find? observe s = .ok s.seen)
    (refuses : Refuses find? s c ⟨.unexpectedCharacter c s.offset,s.seen⟩) :
    StopsAfter find? observe seen ⟨.unexpectedCharacter c s.offset,s.seen⟩ front := by
  have ran := reached.ran
  refine ⟨reached.offset,String.singleton_ne_empty,?_,?_⟩
  · have whole := read_of_advance_ok ran []
    rw [List.append_nil] at whole
    rw [whole]
    exact finished
  · intro tail _
    rw [Violation.culprit_character,read_of_advance_ok ran,List.singleton_append,resume_cons,
      step_of_refuses refuses]

theorem read_error_parts (failed : Reading.read find? observe seen text = .error stop) :
    ∃ front rest, text = front ++ (stop.violation.culprit.toList ++ rest) ∧
      StopsAfter find? observe seen stop front := by
  unfold Reading.read at failed
  cases ran : advance find? observe (initial seen) text with
  | error other =>
    rw [ran] at failed
    cases failed
    obtain ⟨done,c,rest,s,rfl,passed,refuses⟩ := advance_eq_error_iff.mp ran
    have reached := reached_of_advance passed
    cases refuses with
    | unknown separates unknown =>
      obtain ⟨isWord,front,split,begun,placed⟩ := reached.word _ _ rfl
      subst placed
      refine ⟨front,c :: rest,?_,stopsAfter_unknown begun isWord unknown⟩
      rw [split,List.append_assoc,Violation.culprit_word]
    | crowded letter =>
      refine ⟨done,rest,?_,stopsAfter_unexpected reached rfl (.crowded letter)⟩
      rw [Violation.culprit_character]
      rfl
    | closed letter =>
      refine ⟨done,rest,?_,stopsAfter_unexpected reached rfl (.closed letter)⟩
      rw [Violation.culprit_character]
      rfl
  | ok s =>
    rw [ran] at failed
    obtain ⟨start,reversed,inWord,unknown,rfl⟩ := finish_error failed
    obtain ⟨isWord,front,split,begun,placed⟩ := (reached_of_advance ran).word _ _ inWord
    subst placed
    refine ⟨front,[],?_,stopsAfter_unknown begun isWord unknown⟩
    rw [split,Violation.culprit_word,List.append_nil]

theorem read_error_early (failed : Reading.read find? observe seen text = .error stop) :
    stop.violation.index < byteLength text := by
  obtain ⟨front,rest,rfl,placed,some,_,_⟩ := read_error_parts failed
  have positive : 0 < byteLength stop.violation.culprit.toList := by
    refine Nat.pos_of_ne_zero (mt byteLength_eq_zero.mp ?_)
    exact mt String.toList_eq_nil_iff.mp some
  rw [placed,byteLength_append,byteLength_append]
  omega

theorem cut_unique {front front' rest rest' : List Char} (same : front ++ rest = front' ++ rest')
    (width : byteLength front = byteLength front') : front = front' := by
  have cut : splitAt? (byteLength front) (front ++ rest) = some (front,rest) :=
    splitAt?_eq_some_iff.mpr ⟨rfl,rfl⟩
  have also : splitAt? (byteLength front) (front ++ rest) = some (front',rest') :=
    splitAt?_eq_some_iff.mpr ⟨same,width.symm⟩
  rw [cut] at also
  cases also
  rfl

theorem stopsAfter_any (failed : Reading.read find? observe seen text = .error stop) :
    ∃ front rest, text = front ++ (stop.violation.culprit.toList ++ rest) ∧
      ∀ {τ : Type} (watch : τ → Signal α → τ) (first : τ), ∃ held,
        Reading.read find? watch first text = .error ⟨stop.violation,held⟩ ∧
        StopsAfter find? watch first ⟨stop.violation,held⟩ front := by
  obtain ⟨front,rest,split,placed,_,_,_⟩ := read_error_parts failed
  refine ⟨front,rest,split,?_⟩
  intro τ watch first
  have alike : Alike (fun _ _ => True) (fun _ _ => True) (Reading.read find? observe seen text)
      (Reading.read find? watch first text) := read_related (fun _ _ _ _ _ => trivial) trivial text
  rw [failed] at alike
  generalize told : Reading.read find? watch first text = other at alike
  cases alike with
  | stopped =>
    obtain ⟨front',rest',split',stops⟩ := read_error_parts told
    have same : front = front' := cut_unique (split.symm.trans split') (placed.symm.trans stops.1)
    subst same
    exact ⟨_,rfl,stops⟩

end Reading

namespace Vocabulary

variable {V : Vocabulary} {input : String} {error : Error}

-- An error names the exact point up to which the text is accepted, whatever gathers what it
-- says, and no other ending repairs it.
theorem parseSet_error_exact (failed : V.parseSet input = .error error) :
    ∃ violation front rest, error = .malformed violation input ∧
      input = front ++ (violation.culprit ++ rest) ∧
      violation.index = front.utf8ByteSize ∧ violation.index < input.utf8ByteSize ∧
      ∀ {σ : Type} (sink : Sink V σ) (seen : σ), ∃ held,
        V.read sink seen input = .error ⟨violation,held⟩ ∧
        V.read sink seen front = .ok held ∧
        ∀ tail, violation.Stands tail →
          V.read sink seen (front ++ (violation.culprit ++ tail)) = .error ⟨violation,held⟩ := by
  unfold parseSet at failed
  cases stopped : V.read (Sink.set V) .empty input with
  | ok set =>
    rw [stopped] at failed
    cases failed
  | error stop =>
    rw [stopped] at failed
    cases failed
    obtain ⟨violation,gathered⟩ := stop
    obtain ⟨front,rest,split,stops⟩ := Reading.stopsAfter_any stopped
    obtain ⟨_,_,placed,_⟩ := stops (Sink.set V).observe .empty
    have whole : input = String.ofList front ++ (violation.culprit ++ String.ofList rest) := by
      apply String.toList_inj.mp
      rw [String.toList_append,String.toList_append,String.toList_ofList,String.toList_ofList]
      exact split
    have width : (String.ofList front).utf8ByteSize = byteLength front := by
      rw [← byteLength_toList,String.toList_ofList]
    refine ⟨violation,String.ofList front,String.ofList rest,rfl,whole,placed.trans width.symm,?_,?_⟩
    · rw [← byteLength_toList]
      exact Reading.read_error_early stopped
    · intro σ sink seen
      obtain ⟨held,also,_,_,accepted,lasting⟩ := stops sink.observe seen
      refine ⟨held,also,?_,?_⟩
      · unfold Vocabulary.read
        rw [String.toList_ofList]
        exact accepted
      · intro tail stands
        unfold Vocabulary.read
        rw [String.toList_append,String.toList_append,String.toList_ofList]
        exact lasting tail stands

theorem parseSet_error_exact_unknown_name :
    let V := ofNames "door" [("open","Open"),("shut","Shut")]
    let unknown := Violation.invalidAction "ajar" 6
    V.parseSet "open, ajar shut" = .error (.malformed unknown "open, ajar shut") ∧
    ∃ front rest, "open, ajar shut" = front ++ ("ajar" ++ rest) ∧ 6 = front.utf8ByteSize ∧
      ∃ held, V.read (Sink.mask V 32) 0#32 "open, ajar shut" = .error ⟨unknown,held⟩ ∧
        V.read (Sink.mask V 32) 0#32 front = .ok held ∧
        ∀ tail, Reading.Ends tail.toList →
          V.read (Sink.mask V 32) 0#32 (front ++ ("ajar" ++ tail)) = .error ⟨unknown,held⟩ := by
  intro V unknown
  have failed : V.parseSet "open, ajar shut" = .error (.malformed unknown "open, ajar shut") := by
    decide +kernel
  obtain ⟨violation,front,rest,named,split,placed,_,stops⟩ := parseSet_error_exact failed
  cases named
  exact ⟨failed,front,rest,split,placed,stops (Sink.mask V 32) 0#32⟩

end Vocabulary

end ActionStrings
