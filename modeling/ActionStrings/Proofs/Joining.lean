import ActionStrings.Proofs.Displacement
import ActionStrings.Proofs.Tracing

namespace ActionStrings
open Text

namespace ActionSet

variable {n : Nat} {left right : ActionSet n} {a : Fin n}

instance : Union (ActionSet n) := ⟨fun left right => .ofList (left.members ++ right.members)⟩

@[simp] theorem mem_union : a ∈ left ∪ right ↔ a ∈ left ∨ a ∈ right :=
  mem_ofList.trans List.mem_append

theorem union_empty (left : ActionSet n) : left ∪ .empty = left := ext fun _ => by simp

theorem union_insert (left right : ActionSet n) (a : Fin n) :
    (left ∪ right).insert a = left ∪ right.insert a := ext fun _ => by simp [or_left_comm]

theorem union_all (left : ActionSet n) : left ∪ .all = .all := ext fun _ => by simp

end ActionSet

theorem Text.stray?_add (n offset : Nat) (text : List Char) :
    stray? (n + offset) text = (stray? offset text).map fun row => (n + row.1,row.2) := by
  induction text generalizing offset with
  | nil => rfl
  | cons c rest ih =>
    rw [stray?_cons,stray?_cons,Nat.add_assoc,ih]
    split <;> rfl

theorem Text.stray?_eq (n : Nat) (text : List Char) :
    stray? n text = (stray? 0 text).map fun row => (n + row.1,row.2) := stray?_add n 0 text

namespace Reading

-- What may be said after a comma: nothing more behind the wildcard, and else a new name.
def Mode.afterComma : Mode → Mode
  | .closed => .closed
  | _ => .between

variable {α σ : Type} {find? : List Char → Option α} {observe : σ → Signal α → σ}
  {s : State σ} {seen last : σ} {stop : Stop σ} {left rest : List Char}

theorem resume_comma (quiet : ∀ seen, observe seen .blank = seen) :
    resume find? observe s (',' :: rest) =
      match finish find? observe s with
      | .error stop => .error stop
      | .ok last => resume find? observe ⟨s.mode.afterComma,s.offset + 1,last⟩ rest := by
  obtain ⟨mode,offset,seen⟩ := s
  cases mode with
  | between => rw [resume_between_comma,quiet]; rfl
  | word start reversed =>
    rw [resume_word_ends (.inr ⟨',',rest,rfl,by decide⟩)]
    simp only [finish,closeWord]
    cases find? reversed.reverse with
    | none => rfl
    | some action => exact resume_after_comma
  | after => exact resume_after_comma
  | closed => rw [resume_closed_cons]; rfl

-- An accepted text and a comma leave a run in a state that what was seen does not hide.
theorem read_comma (quiet : ∀ seen, observe seen .blank = seen)
    (accepted : Reading.read find? observe seen left = .ok last) (rest : List Char) :
    ∃ s, advance find? observe (initial seen) left = .ok s ∧ finish find? observe s = .ok last ∧
      Reading.read find? observe seen (left ++ ',' :: rest) =
        resume find? observe ⟨s.mode.afterComma,byteLength left + 1,last⟩ rest := by
  cases ran : advance find? observe (initial seen) left with
  | error stop =>
    have failed := read_of_advance_error ran []
    rw [List.append_nil,accepted] at failed
    cases failed
  | ok s =>
    have finished := read_of_advance_ok ran []
    rw [List.append_nil,accepted,resume_nil] at finished
    refine ⟨s,rfl,finished.symm,?_⟩
    rw [read_of_advance_ok ran,resume_comma quiet,← finished,(reached_of_advance ran).offset]

theorem read_comma_error (quiet : ∀ seen, observe seen .blank = seen)
    (failed : Reading.read find? observe seen left = .error stop) :
    Reading.read find? observe seen (left ++ ',' :: rest) = .error stop := by
  cases ran : advance find? observe (initial seen) left with
  | error other =>
    have same := read_of_advance_error ran []
    rw [List.append_nil,failed] at same
    cases same
    exact read_of_advance_error ran _
  | ok s =>
    have finished := read_of_advance_ok ran []
    rw [List.append_nil,failed,resume_nil] at finished
    rw [read_of_advance_ok ran,resume_comma quiet,← finished]

end Reading

namespace Vocabulary

variable {V : Vocabulary} {σ : Type} {left right : String} {set : ActionSet V.size} {error : Error}

theorem joined_toList : (left ++ "," ++ right).toList = left.toList ++ ',' :: right.toList := by
  simp only [String.toList_append,List.append_assoc]
  rfl

theorem finish_unstarred {s : Reading.State (ActionSet V.size × Bool)} {last : ActionSet V.size × Bool}
    (finished : Reading.finish V.nameTrie.find? ((Sink.set V).both (Sink.starred V)).observe s = .ok last) :
    last.2 = s.seen.2 := by
  obtain ⟨mode,offset,seen⟩ := s
  cases mode with
  | word start reversed =>
    simp only [Reading.finish,Reading.closeWord] at finished
    cases known : V.nameTrie.find? reversed.reverse with
    | none => rw [known] at finished; cases finished
    | some a => rw [known] at finished; cases finished; rfl
  | _ => cases finished; rfl

theorem understand_joined_error (failed : V.understand left = .error error) :
    V.understand (left ++ "," ++ right) = .error (error.move id (left ++ "," ++ right)) := by
  unfold understand at failed ⊢
  cases read : V.read ((Sink.set V).both (Sink.starred V)) (.empty,false) left with
  | ok said => rw [read] at failed; cases failed
  | error stop =>
    rw [read] at failed
    cases failed
    unfold Vocabulary.read at read ⊢
    rw [joined_toList,Reading.read_comma_error (Sink.positionless _).blank read]
    obtain ⟨violation,held⟩ := stop
    cases violation <;> rfl

theorem understand_joined_starred (accepted : V.understand left = .ok (set,true)) :
    V.understand (left ++ "," ++ right) =
      match stray? 0 right.toList with
      | none => .ok (.all,true)
      | some (index,c) =>
        .error (.malformed (.unexpectedCharacter c (left.utf8ByteSize + 1 + index)) (left ++ "," ++ right)) := by
  obtain ⟨s,ran,finished,onward⟩ :=
    Reading.read_comma (Sink.positionless _).blank (Error.settle_eq_ok_iff.mp accepted) right.toList
  have flag : true = s.seen.2 := finish_unstarred finished
  rcases settled_of_advance ran with ⟨closed,said⟩ | ⟨_,unsaid⟩
  · obtain ⟨mode,offset,seen⟩ := s
    simp only at closed said
    subst closed
    subst said
    cases finished
    unfold understand Vocabulary.read
    rw [joined_toList,onward,Reading.Mode.afterComma,Reading.resume_closed,stray?_eq,byteLength_toList]
    cases stray? 0 right.toList <;> rfl
  · rw [unsaid] at flag
    cases flag

theorem resume_gathered (set : ActionSet V.size) (input : String) :
    Error.settle input (Reading.resume V.nameTrie.find? ((Sink.set V).both (Sink.starred V)).observe
        ⟨.between,0,(set,false)⟩ input.toList) =
      (V.understand input).map fun said => (set ∪ said.1,said.2) := by
  refine (Reading.settle_map ?_ input).symm
  refine Reading.read_related
    (R := fun (said : ActionSet V.size × Bool) other => (set ∪ said.1,said.2) = other) ?_ ?_ input.toList
  · rintro said other signal _ rfl
    cases signal with
    | blank => rfl
    | hit hit =>
      obtain ⟨_,_,_,event⟩ := hit
      cases event with
      | named a => exact congrArg (Prod.mk · said.2) (ActionSet.union_insert set said.1 a).symm
      | everything => exact congrArg (Prod.mk · true) (ActionSet.union_all set)
  · exact congrArg (Prod.mk · false) (ActionSet.union_empty set)

theorem understand_joined_plain (accepted : V.understand left = .ok (set,false)) :
    V.understand (left ++ "," ++ right) =
      ((V.understand right).map fun said => (set ∪ said.1,said.2)).mapError
        (Error.move (left.utf8ByteSize + 1 + ·) (left ++ "," ++ right)) := by
  obtain ⟨s,ran,finished,onward⟩ :=
    Reading.read_comma (Sink.positionless _).blank (Error.settle_eq_ok_iff.mp accepted) right.toList
  have flag : false = s.seen.2 := finish_unstarred finished
  have named : s.mode.afterComma = .between := by
    rcases settled_of_advance ran with ⟨_,said⟩ | ⟨open',_⟩
    · rw [said] at flag
      cases flag
    · cases mode : s.mode with
      | closed => exact absurd mode open'
      | _ => rfl
  have later : Reading.resume V.nameTrie.find? ((Sink.set V).both (Sink.starred V)).observe
      ⟨.between,left.utf8ByteSize + 1 + 0,(set,false)⟩ right.toList = _ :=
    Reading.resume_shift_wordless (Sink.positionless _) rfl
  rw [← resume_gathered]
  unfold understand Vocabulary.read
  rw [joined_toList,onward,named,byteLength_toList]
  exact (congrArg (Error.settle _) later).trans (Error.settle_move _)

-- The two sides of a comma decide what the whole is read as, and where it goes wrong.
theorem parseSet_joined (V : Vocabulary) (left right : String) :
    let joined := left ++ "," ++ right
    let behind := left.utf8ByteSize + 1
    V.parseSet left = (V.parseDetails left).map Details.set ∧
    V.parseSet joined =
      match V.parseDetails left with
      | .error error => .error (error.move id joined)
      | .ok details =>
        if details.wildcard then
          match stray? 0 right.toList with
          | none => .ok .all
          | some (index,c) => .error (.malformed (.unexpectedCharacter c (behind + index)) joined)
        else ((V.parseSet right).map (details.set ∪ ·)).mapError (Error.move (behind + ·) joined) := by
  intro joined behind
  refine ⟨V.parseSet_eq_details left,?_⟩
  rw [V.parseSet_eq joined,V.parseSet_eq right]
  cases read : V.parseDetails left with
  | error error =>
    rw [understand_joined_error (understand_eq_error read)]
    rfl
  | ok details =>
    have accepted := understand_eq_ok read
    dsimp only
    cases flag : details.wildcard with
    | true =>
      rw [flag] at accepted
      rw [understand_joined_starred accepted]
      cases stray? 0 right.toList <;> rfl
    | false =>
      rw [flag] at accepted
      rw [understand_joined_plain accepted]
      cases V.understand right <;> rfl

end Vocabulary

end ActionStrings
