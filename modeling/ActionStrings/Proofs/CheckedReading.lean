import ActionStrings.Proofs.CheckedTrie
import ActionStrings.Proofs.FirstViolation

namespace ActionStrings.Checked
open Reading Text

variable {α σ : Type}

section

variable (source : List Char) (lookup : Nat → Nat → Option (Option α)) (observe : σ → Signal α → Option σ)

-- A word is known by its two ends alone: it is looked up between them, and cut out of the text
-- between them to be complained of.
def closeWord (s : State σ) (start : Nat) (reversed : List Char) (next : Mode) :
    Option (Except (Stop σ) (State σ)) :=
  (lookup start s.offset).bind fun
    | none => (slice? source start s.offset).map fun word =>
        .error ⟨.invalidAction (String.ofList word) start,s.seen⟩
    | some action => (observe s.seen (.hit ⟨start,s.offset,reversed.reverse,.named action⟩)).map fun seen =>
        .ok {s with mode := next,seen}

def react (s : State σ) (c : Char) : Option (Except (Stop σ) (State σ)) :=
  match s.mode with
  | .between =>
    if c = ',' then (observe s.seen .blank).map fun seen => .ok {s with seen}
    else if isSpace c then some (.ok s)
    else if c = '*' then
      (observe s.seen (.hit ⟨s.offset,s.offset + 1,['*'],.everything⟩)).map fun seen =>
        .ok {s with mode := .closed,seen}
    else some (.ok {s with mode := .word s.offset [c]})
  | .word start reversed =>
    if c = ',' then closeWord source lookup observe s start reversed .between
    else if isSpace c then closeWord source lookup observe s start reversed .after
    else some (.ok {s with mode := .word start (c :: reversed)})
  | .after =>
    if c = ',' then some (.ok {s with mode := .between})
    else if isSpace c then some (.ok s)
    else some (refuse s c)
  | .closed => if isSeparator c then some (.ok s) else some (refuse s c)

def step (s : State σ) (c : Char) : Option (Except (Stop σ) (State σ)) :=
  (react source lookup observe s c).map fun
    | .error stop => .error stop
    | .ok next => .ok {next with offset := next.offset + c.utf8Size}

def finish (s : State σ) : Option (Except (Stop σ) σ) :=
  match s.mode with
  | .word start reversed => (closeWord source lookup observe s start reversed .after).map fun
    | .error stop => .error stop
    | .ok next => .ok next.seen
  | _ => some (.ok s.seen)

def resume (s : State σ) : List Char → Option (Except (Stop σ) σ)
  | [] => finish source lookup observe s
  | c :: rest => (step source lookup observe s c).bind fun
    | .error stop => some (.error stop)
    | .ok next => resume next rest

def read (seen : σ) : Option (Except (Stop σ) σ) :=
  resume source lookup observe (initial seen) source

end

variable {find? : List Char → Option α} {observe : σ → Signal α → σ} {source : List Char}
  {lookup : Nat → Nat → Option (Option α)} {watch : σ → Signal α → Option σ}
  {s : State σ} {c : Char} {seen : σ} {start : Nat} {done rest reversed : List Char}

theorem slice_word (reached : Reached find? observe seen done s) (inWord : s.mode = .word start reversed) :
    slice? (done ++ rest) start s.offset = some reversed.reverse := by
  obtain ⟨_,front,split,_,placed⟩ := reached.word start reversed inWord
  refine slice?_eq_some_iff.mpr ⟨front,rest,?_,placed.symm,?_⟩
  · rw [split,List.append_assoc]
  · rw [reached.offset,split,byteLength_append,placed]

variable (answers : ∀ start stop word, slice? source start stop = some word →
    lookup start stop = some (find? word))
  (watched : ∀ seen signal, watch seen signal = some (observe seen signal))
include answers watched

theorem closeWord_eq (next : Mode) (cut : slice? source start s.offset = some reversed.reverse) :
    closeWord source lookup watch s start reversed next =
      some (Reading.closeWord find? observe s start reversed next) := by
  simp only [closeWord,Reading.closeWord,answers _ _ _ cut,Option.bind_some]
  cases find? reversed.reverse with
  | none => simp only [cut,Option.map_some]
  | some action => simp only [watched,Option.map_some]

theorem react_eq (cut : ∀ start reversed, s.mode = .word start reversed →
      slice? source start s.offset = some reversed.reverse) :
    react source lookup watch s c = some (Reading.react find? observe s c) := by
  obtain ⟨mode,offset,seen⟩ := s
  cases mode with
  | between =>
    simp only [react,Reading.react,watched,Option.map_some]
    repeat' split
    all_goals rfl
  | word start reversed =>
    have closed (next : Mode) := closeWord_eq answers watched next (cut start reversed rfl)
    simp only [react,Reading.react,closed]
    repeat' split
    all_goals rfl
  | after =>
    simp only [react,Reading.react]
    repeat' split
    all_goals rfl
  | closed =>
    simp only [react,Reading.react]
    split <;> rfl

theorem step_eq (reached : Reached find? observe seen done s) (split : source = done ++ c :: rest) :
    step source lookup watch s c = some (Reading.step find? observe s c) := by
  subst split
  unfold step Reading.step
  rw [react_eq answers watched fun _ _ inWord => slice_word reached inWord]
  cases Reading.react find? observe s c <;> rfl

theorem finish_eq (reached : Reached find? observe seen source s) :
    finish source lookup watch s = some (Reading.finish find? observe s) := by
  unfold finish Reading.finish
  cases inWord : s.mode with
  | word start reversed =>
    have cut : slice? (source ++ []) start s.offset = some reversed.reverse := slice_word reached inWord
    rw [List.append_nil] at cut
    simp only [closeWord_eq answers watched .after cut]
    cases Reading.closeWord find? observe s start reversed .after <;> rfl
  | between => rfl
  | after => rfl
  | closed => rfl

theorem resume_eq (reached : Reached find? observe seen done s) (split : source = done ++ rest) :
    resume source lookup watch s rest = some (Reading.resume find? observe s rest) := by
  induction rest generalizing done s with
  | nil =>
    rw [List.append_nil] at split
    subst split
    exact finish_eq answers watched reached
  | cons c rest ih =>
    rw [resume,step_eq answers watched reached split,Option.bind_some,resume_cons]
    cases stepped : Reading.step find? observe s c with
    | error stop => rfl
    | ok next =>
      have passed := reached.passes (step_eq_ok_iff.mp stepped)
      exact ih passed (by rw [split,List.append_assoc]; rfl)

-- Each character is read from a state that tells what was read before it, so no cut misses.
theorem read_eq (seen : σ) :
    read source lookup watch seen = some (Reading.read find? observe seen source) :=
  resume_eq answers watched reached_initial rfl

end ActionStrings.Checked
