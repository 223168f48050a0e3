import ActionStrings.Proofs.FirstViolation

namespace ActionStrings

def Violation.move (place : Nat → Nat) : Violation → Violation
  | .unexpectedCharacter ch index => .unexpectedCharacter ch (place index)
  | .invalidAction action index => .invalidAction action (place index)

def Error.move (place : Nat → Nat) (input : String) : Error → Error
  | .malformed violation _ => .malformed (violation.move place) input
  | .capacityExceeded title count width => .capacityExceeded title count width
  | .unknownBit title bit => .unknownBit title bit

namespace Reading

def Stop.move {σ : Type} (place : Nat → Nat) (stop : Stop σ) : Stop σ :=
  ⟨stop.violation.move place,stop.seen⟩

def Mode.shift (n : Nat) : Mode → Mode
  | .between => .between
  | .word start reversed => .word (n + start) reversed
  | .after => .after
  | .closed => .closed

def State.shift {σ : Type} (n : Nat) (s : State σ) : State σ := ⟨s.mode.shift n,n + s.offset,s.seen⟩

variable {α σ : Type} {find? : List Char → Option α} {observe : σ → Signal α → σ}
  {s next : State σ} {c : Char} {stop : Stop σ} {n offset : Nat} {seen : σ} {text : List Char}

-- Takes in what is said, and neither where it stands nor what stands between.
structure Positionless (observe : σ → Signal α → σ) : Prop where
  blank : ∀ seen, observe seen .blank = seen
  hit : ∀ seen left right, left.event = right.event → observe seen (.hit left) = observe seen (.hit right)

variable (blind : Positionless observe)
include blind

theorem passes_shift (passes : Passes find? observe s c next) :
    Passes find? observe (s.shift n) c (next.shift n) := by
  cases passes with
  | blank => exact .blank
  | @lead offset seen c space =>
    have rule : Passes find? observe ⟨.between,n + offset,seen⟩ c _ := .lead space
    rw [Nat.add_assoc] at rule
    exact rule
  | @star offset seen =>
    have told : observe seen (.hit ⟨n + offset,n + offset + 1,['*'],.everything⟩) =
        observe seen (.hit ⟨offset,offset + 1,['*'],.everything⟩) := blind.hit _ _ _ rfl
    have rule : Passes find? observe ⟨.between,n + offset,seen⟩ '*' _ := .star
    rw [told] at rule
    exact rule
  | @first offset seen c letter unstarred =>
    have rule : Passes find? observe ⟨.between,n + offset,seen⟩ c _ := .first letter unstarred
    rw [Nat.add_assoc] at rule
    exact rule
  | @letter start offset reversed seen c letter =>
    have rule : Passes find? observe ⟨.word (n + start) reversed,n + offset,seen⟩ c _ := .letter letter
    rw [Nat.add_assoc] at rule
    exact rule
  | @close start offset reversed seen c action separates known =>
    have told : observe seen (.hit ⟨n + start,n + offset,reversed.reverse,.named action⟩) =
        observe seen (.hit ⟨start,offset,reversed.reverse,.named action⟩) := blind.hit _ _ _ rfl
    have rule : Passes find? observe ⟨.word (n + start) reversed,n + offset,seen⟩ c _ :=
      .close separates known
    have wordless : (if c = ',' then Mode.between else .after).shift n =
        if c = ',' then .between else .after := by split <;> rfl
    rw [Nat.add_assoc,told,← wordless] at rule
    exact rule
  | comma => exact .comma
  | @trail offset seen c space =>
    have rule : Passes find? observe ⟨.after,n + offset,seen⟩ c _ := .trail space
    rw [Nat.add_assoc] at rule
    exact rule
  | @tail offset seen c separates =>
    have rule : Passes find? observe ⟨.closed,n + offset,seen⟩ c _ := .tail separates
    rw [Nat.add_assoc] at rule
    exact rule

omit blind in
theorem refuses_shift (refuses : Refuses find? s c stop) :
    Refuses find? (s.shift n) c (stop.move (n + ·)) := by
  cases refuses with
  | unknown separates unknown => exact .unknown separates unknown
  | crowded letter => exact .crowded letter
  | closed letter => exact .closed letter

theorem finish_shift : finish find? observe (s.shift n) = (finish find? observe s).mapError (Stop.move (n + ·)) := by
  obtain ⟨mode,offset,seen⟩ := s
  cases mode with
  | between => rfl
  | word start reversed =>
    simp only [finish,State.shift,Mode.shift,closeWord]
    cases find? reversed.reverse with
    | none => rfl
    | some action => exact congrArg Except.ok (blind.hit _ _ _ rfl)
  | after => rfl
  | closed => rfl

-- A run that begins further on makes the same of the same text, further on.
theorem resume_shift :
    resume find? observe (s.shift n) text = (resume find? observe s text).mapError (Stop.move (n + ·)) := by
  induction text generalizing s with
  | nil => exact finish_shift blind
  | cons c rest ih =>
    rw [resume_cons,resume_cons]
    rcases passes_or_refuses find? observe s c with ⟨next,passes⟩ | ⟨stop,refuses⟩
    · rw [step_of_passes passes,step_of_passes (passes_shift blind passes)]
      exact ih
    · rw [step_of_refuses refuses,step_of_refuses (refuses_shift refuses)]
      rfl

theorem resume_shift_wordless {mode : Mode} (wordless : mode.shift n = mode) :
    resume find? observe ⟨mode,n + offset,seen⟩ text =
      (resume find? observe ⟨mode,offset,seen⟩ text).mapError (Stop.move (n + ·)) := by
  have moved : resume find? observe (State.shift n ⟨mode,offset,seen⟩) text = _ := resume_shift blind
  unfold State.shift at moved
  rwa [wordless] at moved

omit blind

theorem mapError_move_move {β : Type} {first second : Nat → Nat} (result : Except (Stop σ) β) :
    (result.mapError (Stop.move first)).mapError (Stop.move second) =
      result.mapError (Stop.move fun index => second (first index)) := by
  cases result with
  | error stop =>
    obtain ⟨violation,held⟩ := stop
    cases violation <;> rfl
  | ok value => rfl

end Reading

theorem Sink.positionless {V : Vocabulary} {σ : Type} (sink : Sink V σ) :
    Reading.Positionless sink.observe := by
  refine ⟨fun _ => rfl,?_⟩
  intro seen left right same
  exact congrArg (sink seen) same

theorem Error.settle_move {σ : Type} {place : Nat → Nat} {input moved : String}
    (result : Except (Reading.Stop σ) σ) :
    settle moved (result.mapError (Reading.Stop.move place)) =
      (settle input result).mapError (move place moved) := by
  cases result <;> rfl

end ActionStrings
