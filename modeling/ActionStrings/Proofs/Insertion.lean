import ActionStrings.Proofs.Displacement

namespace ActionStrings
open Text

def opened (place width index : Nat) : Nat := if place ≤ index then index + width else index

-- The ends of a text, and the two sides of each of its commas.
def Seam (left right : String) : Prop :=
  left = "" ∨ right = "" ∨ (∃ front, left = front ++ ",") ∨ ∃ rest, right = "," ++ rest

namespace Reading

variable {α σ : Type} {find? : List Char → Option α} {observe : σ → Signal α → σ}
  {s : State σ} {mode : Mode} {offset : Nat} {seen : σ} {gap left right : List Char}

def Bounded (right : List Char) : Prop := right = [] ∨ ∃ rest, right = ',' :: rest

theorem Bounded.ends (bounded : Bounded right) : Ends right := by
  rcases bounded with rfl | ⟨rest,rfl⟩
  · exact .inl rfl
  · exact .inr ⟨',',rest,rfl,by decide⟩

theorem ends_append (separators : ∀ c ∈ gap, isSeparator c = true) (ends : Ends right) : Ends (gap ++ right) := by
  cases gap with
  | nil => exact ends
  | cons c more => exact .inr ⟨c,more ++ right,rfl,separators c (List.mem_cons_self ..)⟩

theorem move_early {stop : Stop σ} {place width : Nat} (early : stop.violation.index < place) :
    stop.move (opened place width) = stop := by
  obtain ⟨violation,held⟩ := stop
  cases violation with
  | unexpectedCharacter ch index =>
    have same : opened place width index = index := if_neg (Nat.not_le.mpr early)
    exact congrArg (fun index => Stop.mk (.unexpectedCharacter ch index) held) same
  | invalidAction action index =>
    have same : opened place width index = index := if_neg (Nat.not_le.mpr early)
    exact congrArg (fun index => Stop.mk (.invalidAction action index) held) same

theorem resume_closed_separators (separators : ∀ c ∈ gap, isSeparator c = true) :
    resume find? observe ⟨.closed,offset,seen⟩ (gap ++ right) =
      resume find? observe ⟨.closed,offset + byteLength gap,seen⟩ right := by
  rw [resume_closed,resume_closed,stray?_append,stray?_eq_none_iff.mpr separators,Option.none_or]

variable (blind : Positionless observe)
include blind

theorem resume_after_bounded (bounded : Bounded right) :
    resume find? observe ⟨.after,offset,seen⟩ right = resume find? observe ⟨.between,offset,seen⟩ right := by
  rcases bounded with rfl | ⟨rest,rfl⟩
  · rfl
  · rw [resume_after_comma,resume_between_comma,blind.blank]

theorem resume_after_separators (separators : ∀ c ∈ gap, isSeparator c = true) (bounded : Bounded right) :
    resume find? observe ⟨.after,offset,seen⟩ (gap ++ right) =
      resume find? observe ⟨.after,offset + byteLength gap,seen⟩ right := by
  induction gap generalizing offset with
  | nil => rfl
  | cons c more ih =>
    obtain ⟨first,others⟩ := List.forall_mem_cons.mp separators
    rw [List.cons_append,byteLength_cons,← Nat.add_assoc]
    by_cases comma : c = ','
    · subst comma
      rw [resume_after_comma,resume_between_separators blind.blank others,resume_after_bounded blind bounded]
      rfl
    · have space : isSpace c = true := by rwa [isSpace_of_isSeparator comma]
      rw [resume_after_space space]
      exact ih others

theorem resume_opened {width : Nat} (wordless : ∀ n, mode.shift n = mode) :
    resume find? observe ⟨mode,offset + width,seen⟩ right =
      (resume find? observe ⟨mode,offset,seen⟩ right).mapError (Stop.move (opened offset width)) := by
  have here : resume find? observe ⟨mode,offset + 0,seen⟩ right = _ :=
    resume_shift_wordless blind (wordless offset)
  have there : resume find? observe ⟨mode,offset + width + 0,seen⟩ right = _ :=
    resume_shift_wordless blind (wordless (offset + width))
  have places : (fun index => opened offset width (offset + index)) = (offset + width + ·) := by
    funext index
    rw [opened,if_pos (Nat.le_add_right _ _),Nat.add_right_comm]
  rw [Nat.add_zero] at here there
  rw [here,there,mapError_move_move,places]

-- Inside a name or past one, only a comma or the end may follow what is put in.
theorem resume_insertion (separators : ∀ c ∈ gap, isSeparator c = true)
    (seam : s.mode = .between ∨ s.mode = .closed ∨ Bounded right)
    (begun : ∀ start reversed, s.mode = .word start reversed → start < s.offset) :
    resume find? observe s (gap ++ right) =
      (resume find? observe s right).mapError (Stop.move (opened s.offset (byteLength gap))) := by
  obtain ⟨mode,offset,seen⟩ := s
  simp only at seam begun ⊢
  have after (bounded : Bounded right) (seen : σ) :
      resume find? observe ⟨.after,offset,seen⟩ (gap ++ right) =
        (resume find? observe ⟨.after,offset,seen⟩ right).mapError (Stop.move (opened offset (byteLength gap))) := by
    rw [resume_after_separators blind separators bounded]
    exact resume_opened blind fun _ => rfl
  cases mode with
  | between =>
    rw [resume_between_separators blind.blank separators]
    exact resume_opened blind fun _ => rfl
  | closed =>
    rw [resume_closed_separators separators]
    exact resume_opened blind fun _ => rfl
  | after =>
    have bounded : Bounded right := by simpa using seam
    exact after bounded seen
  | word start reversed =>
    have bounded : Bounded right := by simpa using seam
    rw [resume_word_ends (ends_append separators bounded.ends),resume_word_ends bounded.ends]
    cases find? reversed.reverse with
    | none => exact congrArg Except.error (move_early (begun start reversed rfl)).symm
    | some action => exact after bounded _

omit blind

theorem Reached.word_begun (reached : Reached find? observe seen left s) {start : Nat} {reversed : List Char}
    (inWord : s.mode = .word start reversed) : start < s.offset := by
  obtain ⟨isWord,front,split,_,placed⟩ := reached.word start reversed inWord
  have positive : 0 < byteLength reversed.reverse :=
    Nat.pos_of_ne_zero (mt byteLength_eq_zero.mp isWord.nonempty)
  rw [reached.offset,split,byteLength_append,placed]
  omega

theorem mode_of_comma (ran : advance find? observe (initial seen) (left ++ [',']) = .ok s) :
    s.mode = .between ∨ s.mode = .closed := by
  cases first : advance find? observe (initial seen) left with
  | error stop =>
    rw [advance_append_error first] at ran
    cases ran
  | ok middle =>
    rw [advance_append_ok first] at ran
    cases stepped : step find? observe middle ',' with
    | error stop =>
      rw [advance_cons_error stepped] at ran
      cases ran
    | ok next =>
      rw [advance_cons_ok stepped] at ran
      cases ran
      cases step_eq_ok_iff.mp stepped with
      | blank => exact .inl rfl
      | lead space => cases space
      | first letter => cases letter
      | letter letter => cases letter
      | close => exact .inl rfl
      | comma => exact .inl rfl
      | trail space => cases space
      | tail => exact .inr rfl

include blind

theorem read_insertion (separators : ∀ c ∈ gap, isSeparator c = true)
    (seam : left = [] ∨ (∃ front, left = front ++ [',']) ∨ Bounded right) :
    Reading.read find? observe seen (left ++ (gap ++ right)) =
      (Reading.read find? observe seen (left ++ right)).mapError
        (Stop.move (opened (byteLength left) (byteLength gap))) := by
  cases ran : advance find? observe (initial seen) left with
  | error stop =>
    have early : stop.violation.index < byteLength left := by
      have failed := read_of_advance_error ran []
      rw [List.append_nil] at failed
      exact read_error_early failed
    rw [read_of_advance_error ran,read_of_advance_error ran]
    exact congrArg Except.error (move_early early).symm
  | ok s =>
    have reached := reached_of_advance ran
    have place : s.mode = .between ∨ s.mode = .closed ∨ Bounded right := by
      rcases seam with rfl | ⟨front,rfl⟩ | bounded
      · cases ran; exact .inl rfl
      · exact (mode_of_comma ran).imp_right .inl
      · exact .inr (.inr bounded)
    rw [read_of_advance_ok ran,read_of_advance_ok ran,← reached.offset]
    exact resume_insertion blind separators place fun _ _ => reached.word_begun

end Reading

theorem Seam.cases {left right : String} (seam : Seam left right) :
    left.toList = [] ∨ (∃ front, left.toList = front ++ [',']) ∨ Reading.Bounded right.toList := by
  rcases seam with rfl | rfl | ⟨front,rfl⟩ | ⟨rest,rfl⟩
  · exact .inl rfl
  · exact .inr (.inr (.inl rfl))
  · exact .inr (.inl ⟨front.toList,by simp⟩)
  · exact .inr (.inr (.inr ⟨rest.toList,by simp⟩))

namespace Vocabulary

variable (V : Vocabulary) {σ : Type} {left gap right : String}

theorem read_opened (sink : Sink V σ) (seen : σ) (separators : ∀ c ∈ gap.toList, isSeparator c = true)
    (seam : Seam left right) :
    V.read sink seen (left ++ gap ++ right) =
      (V.read sink seen (left ++ right)).mapError
        (Reading.Stop.move (opened left.utf8ByteSize gap.utf8ByteSize)) := by
  unfold Vocabulary.read
  simp only [String.toList_append,List.append_assoc,← byteLength_toList]
  exact Reading.read_insertion sink.positionless separators seam.cases

-- Next to a comma, and at the ends, a text may be opened for any separators: what it says stays,
-- and what is wrong with it stays wrong, further on if it stood behind the place.
theorem parse_opened (separators : ∀ c ∈ gap.toList, isSeparator c = true) (seam : Seam left right) :
    let place := opened left.utf8ByteSize gap.utf8ByteSize
    let wider := left ++ gap ++ right
    V.parseSet wider = (V.parseSet (left ++ right)).mapError (Error.move place wider) ∧
    ∀ w policy, V.parseMask w policy wider =
      (V.parseMask w policy (left ++ right)).mapError (Error.move place wider) := by
  intro place wider
  have moved {σ : Type} (sink : Sink V σ) (seen : σ) :
      Error.settle wider (V.read sink seen wider) =
        (Error.settle (left ++ right) (V.read sink seen (left ++ right))).mapError (Error.move place wider) := by
    rw [V.read_opened sink seen separators seam]
    exact Error.settle_move _
  refine ⟨moved (Sink.set V) .empty,?_⟩
  intro w policy
  unfold parseMask
  split
  · exact moved (Sink.mask V w) 0#w
  · rfl

theorem parse_opened_before_comma :
    let V := ofNames "door" [("open","Open"),("shut","Shut")]
    let gap := " ,\u3000"
    (∀ c ∈ gap.toList, isSeparator c = true) ∧ Seam "open" ",ajar" ∧
    V.parseSet "open,ajar" = .error (.malformed (.invalidAction "ajar" 5) "open,ajar") ∧
    V.parseSet ("open" ++ gap ++ ",ajar") =
      .error (.malformed (.invalidAction "ajar" 10) ("open" ++ gap ++ ",ajar")) := by
  intro V gap
  have separators : ∀ c ∈ gap.toList, isSeparator c = true := List.all_eq_true.mp (by decide)
  have seam : Seam "open" ",ajar" := .inr (.inr (.inr ⟨"ajar",rfl⟩))
  have read : V.parseSet "open,ajar" = .error (.malformed (.invalidAction "ajar" 5) "open,ajar") := by
    decide +kernel
  have wider := (V.parse_opened separators seam).1
  have narrow : "open" ++ ",ajar" = "open,ajar" := rfl
  rw [narrow,read] at wider
  exact ⟨separators,seam,read,wider⟩

end Vocabulary

end ActionStrings
