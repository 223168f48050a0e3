import ActionStrings.Encoding
import ActionStrings.Proofs.Scanning

namespace ActionStrings.Reading
open Text

variable {α σ τ : Type} {find? : List Char → Option α}
  {observe : σ → Signal α → σ} {watch : τ → Signal α → τ} {R : σ → τ → Prop}

-- What a reading can tell: only words are looked up, and only a star stands for everything.
def Genuine (find? : List Char → Option α) : Signal α → Prop
  | .hit ⟨_,_,body,.named action⟩ => IsWord body ∧ find? body = some action
  | .hit ⟨_,_,body,.everything⟩ => body = ['*']
  | .blank => True

inductive Alike {β γ : Type} (R : σ → τ → Prop) (S : β → γ → Prop) :
    Except (Stop σ) β → Except (Stop τ) γ → Prop
  | stopped {violation : Violation} {left : σ} {right : τ} (seen : R left right) :
      Alike R S (.error ⟨violation,left⟩) (.error ⟨violation,right⟩)
  | settled {left : β} {right : γ} (reached : S left right) : Alike R S (.ok left) (.ok right)

structure InStep (R : σ → τ → Prop) (s : State σ) (t : State τ) : Prop where
  mode : s.mode = t.mode
  offset : s.offset = t.offset
  seen : R s.seen t.seen
  word : ∀ start reversed, s.mode = .word start reversed → IsWord reversed.reverse

theorem isWord_extend {word : List Char} {c : Char} (isWord : IsWord word)
    (letter : isSeparator c = false) : IsWord (word ++ [c]) := by
  obtain ⟨nonempty,unstarred,solid⟩ := isWord
  refine ⟨List.append_ne_nil_of_left_ne_nil nonempty _,?_,?_⟩
  · rwa [List.head?_append,Option.or_of_isSome (List.isSome_head?.mpr nonempty)]
  · intro d member
    rcases List.mem_append.mp member with inWord | last
    · exact solid d inWord
    · rwa [List.mem_singleton.mp last]

variable (keeps : ∀ left right signal, Genuine find? signal → R left right →
  R (observe left signal) (watch right signal))
include keeps

theorem closeWord_related {s : State σ} {t : State τ} {start : Nat} {reversed : List Char} {next : Mode}
    (inStep : InStep R s t) (isWord : IsWord reversed.reverse)
    (open' : ∀ start reversed, next ≠ .word start reversed) :
    Alike R (InStep R) (closeWord find? observe s start reversed next)
      (closeWord find? watch t start reversed next) := by
  simp only [closeWord]
  cases known : find? reversed.reverse with
  | none => exact .stopped inStep.seen
  | some action =>
    refine .settled ⟨rfl,inStep.offset,?_,fun start reversed same => absurd same (open' start reversed)⟩
    have told := keeps s.seen t.seen (.hit ⟨start,s.offset,reversed.reverse,.named action⟩)
      ⟨isWord,known⟩ inStep.seen
    rwa [← inStep.offset]

theorem react_related {s : State σ} {t : State τ} (inStep : InStep R s t) (c : Char) :
    Alike R (InStep R) (react find? observe s c) (react find? watch t c) := by
  obtain ⟨mode,offset,seen⟩ := s
  obtain ⟨mode',offset',seen'⟩ := t
  obtain ⟨sameMode,sameOffset,related,word⟩ := inStep
  simp only at sameMode sameOffset related word
  subst sameMode
  subst sameOffset
  have here : InStep R ⟨mode,offset,seen⟩ ⟨mode,offset,seen'⟩ := ⟨rfl,rfl,related,word⟩
  have wordless {next : Mode} (open' : ∀ start reversed, next ≠ .word start reversed) {left : σ} {right : τ}
      (told : R left right) : InStep R ⟨next,offset,left⟩ ⟨next,offset,right⟩ :=
    ⟨rfl,rfl,told,fun start reversed same => absurd same (open' start reversed)⟩
  cases mode with
  | between =>
    simp only [react]
    split
    · exact .settled (wordless (by simp) (keeps _ _ .blank trivial related))
    · rename_i comma
      split
      · exact .settled here
      · rename_i space
        split
        · exact .settled (wordless (by simp) (keeps _ _ (.hit ⟨_,_,_,.everything⟩) rfl related))
        · rename_i star
          refine .settled ⟨rfl,rfl,related,?_⟩
          intro start reversed same
          cases same
          exact isWord_cons (isSeparator_eq_false comma space) star (by simp)
  | word start reversed =>
    have isWord := word start reversed rfl
    simp only [react]
    split
    · exact closeWord_related keeps here isWord (by simp)
    · rename_i comma
      split
      · exact closeWord_related keeps here isWord (by simp)
      · rename_i space
        refine .settled ⟨rfl,rfl,related,?_⟩
        intro start' reversed' same
        cases same
        rw [List.reverse_cons]
        exact isWord_extend isWord (isSeparator_eq_false comma space)
  | after =>
    simp only [react]
    split
    · exact .settled (wordless (by simp) related)
    · split
      · exact .settled here
      · exact .stopped related
  | closed =>
    simp only [react]
    split
    · exact .settled here
    · exact .stopped related

theorem step_related {s : State σ} {t : State τ} (inStep : InStep R s t) (c : Char) :
    Alike R (InStep R) (step find? observe s c) (step find? watch t c) := by
  have alike := react_related keeps inStep c
  unfold step
  generalize react find? observe s c = left at alike
  generalize react find? watch t c = right at alike
  cases alike with
  | stopped seen => exact .stopped seen
  | settled reached =>
    exact .settled ⟨reached.mode,by rw [reached.offset],reached.seen,reached.word⟩

theorem finish_related {s : State σ} {t : State τ} (inStep : InStep R s t) :
    Alike R R (finish find? observe s) (finish find? watch t) := by
  unfold finish
  rw [← inStep.mode]
  cases mode : s.mode with
  | word start reversed =>
    have alike : Alike R (InStep R) (closeWord find? observe s start reversed .after)
        (closeWord find? watch t start reversed .after) :=
      closeWord_related keeps inStep (inStep.word start reversed mode) (by simp)
    dsimp only
    generalize closeWord find? observe s start reversed .after = left at alike
    generalize closeWord find? watch t start reversed .after = right at alike
    cases alike with
    | stopped seen => exact .stopped seen
    | settled reached => exact .settled reached.seen
  | between => exact .settled inStep.seen
  | after => exact .settled inStep.seen
  | closed => exact .settled inStep.seen

theorem resume_related {s : State σ} {t : State τ} (inStep : InStep R s t) (text : List Char) :
    Alike R R (resume find? observe s text) (resume find? watch t text) := by
  induction text generalizing s t with
  | nil => exact finish_related keeps inStep
  | cons c rest ih =>
    rw [resume_cons,resume_cons]
    have alike := step_related keeps inStep c
    generalize step find? observe s c = left at alike
    generalize step find? watch t c = right at alike
    cases alike with
    | stopped seen => exact .stopped seen
    | settled reached => exact ih reached

-- What observers are told depends on the text alone, so a relation that each signal keeps
-- holds wherever a reading ends.
theorem read_related {left : σ} {right : τ} (start : R left right) (text : List Char) :
    Alike R R (read find? observe left text) (read find? watch right text) := by
  refine resume_related keeps ⟨rfl,rfl,start,?_⟩ text
  intro _ _ same
  cases same

omit keeps

theorem read_keeps {P : σ → Prop} {seen last : σ} {text : List Char}
    (kept : ∀ seen signal, Genuine find? signal → P seen → P (observe seen signal)) (start : P seen)
    (read : Reading.read find? observe seen text = .ok last) : P last := by
  have alike : Alike (fun left (_ : Unit) => P left) (fun left _ => P left)
      (Reading.read find? observe seen text) (Reading.read find? (fun _ _ => ()) () text) :=
    read_related (fun left _ signal genuine holds => kept left signal genuine holds) start text
  rw [read] at alike
  generalize Reading.read find? (fun _ _ => ()) () text = right at alike
  cases alike with
  | settled reached => exact reached

theorem Alike.settle {left : Except (Stop σ) σ} {right : Except (Stop τ) τ} (alike : Alike R R left right)
    (input : String) :
    (∀ error, Error.settle input left = .error error ↔ Error.settle input right = .error error) ∧
    ∀ seen, Error.settle input left = .ok seen → ∃ other, Error.settle input right = .ok other ∧ R seen other := by
  cases alike with
  | stopped =>
    refine ⟨fun error => ?_,fun seen settled => ?_⟩
    · simp only [Error.settle,Except.error.injEq]
    · cases settled
  | settled reached =>
    refine ⟨fun error => ?_,fun seen settled => ?_⟩
    · simp only [Error.settle,reduceCtorEq]
    · cases settled
      exact ⟨_,rfl,reached⟩

end ActionStrings.Reading
