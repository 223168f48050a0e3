import ActionStrings.Text

namespace ActionStrings

inductive Event (α : Type)
  | named (action : α)
  | everything
deriving DecidableEq

inductive Violation
  | unexpectedCharacter (ch : Char) (index : Nat)
  | invalidAction (action : String) (index : Nat)
deriving DecidableEq

namespace Reading

-- Between names; inside one, with its characters so far in reverse; past one, where only
-- a comma lets another begin; past the wildcard, where nothing more may begin.
inductive Mode
  | between
  | word (start : Nat) (reversed : List Char)
  | after
  | closed

structure Hit (α : Type) where
  start : Nat
  stop : Nat
  body : List Char
  event : Event α
deriving DecidableEq

-- What an observer is told: a hit, or a comma that ended no name.
inductive Signal (α : Type)
  | hit (hit : Hit α)
  | blank

structure State (σ : Type) where
  mode : Mode
  offset : Nat
  seen : σ

-- What had been seen before the violation stays visible.
structure Stop (σ : Type) where
  violation : Violation
  seen : σ

variable {α σ : Type} (find? : List Char → Option α) (observe : σ → Signal α → σ)

def initial (seen : σ) : State σ := ⟨.between,0,seen⟩

def closeWord (s : State σ) (start : Nat) (reversed : List Char) (next : Mode) :
    Except (Stop σ) (State σ) :=
  let word := reversed.reverse
  match find? word with
  | none => .error ⟨.invalidAction (String.ofList word) start,s.seen⟩
  | some action =>
    .ok {s with mode := next,seen := observe s.seen (.hit ⟨start,s.offset,word,.named action⟩)}

def refuse (s : State σ) (c : Char) : Except (Stop σ) (State σ) :=
  .error ⟨.unexpectedCharacter c s.offset,s.seen⟩

-- The wildcard is only what begins with a star where a name could begin.
def react (s : State σ) (c : Char) : Except (Stop σ) (State σ) :=
  match s.mode with
  | .between =>
    if c = ',' then .ok {s with seen := observe s.seen .blank}
    else if Text.isSpace c then .ok s
    else if c = '*' then
      .ok {s with mode := .closed,
                  seen := observe s.seen (.hit ⟨s.offset,s.offset + 1,['*'],.everything⟩)}
    else .ok {s with mode := .word s.offset [c]}
  | .word start reversed =>
    if c = ',' then closeWord find? observe s start reversed .between
    else if Text.isSpace c then closeWord find? observe s start reversed .after
    else .ok {s with mode := .word start (c :: reversed)}
  | .after =>
    if c = ',' then .ok {s with mode := .between}
    else if Text.isSpace c then .ok s
    else refuse s c
  | .closed => if Text.isSeparator c then .ok s else refuse s c

def step (s : State σ) (c : Char) : Except (Stop σ) (State σ) :=
  match react find? observe s c with
  | .error stop => .error stop
  | .ok next => .ok {next with offset := next.offset + c.utf8Size}

-- The end of the text ends a name as a comma would.
def finish (s : State σ) : Except (Stop σ) σ :=
  match s.mode with
  | .word start reversed =>
    match closeWord find? observe s start reversed .after with
    | .error stop => .error stop
    | .ok next => .ok next.seen
  | _ => .ok s.seen

def advance (s : State σ) (text : List Char) : Except (Stop σ) (State σ) :=
  text.foldlM (step find? observe) s

theorem advance_append (s : State σ) (left right : List Char) :
    advance find? observe s (left ++ right) =
      (advance find? observe s left).bind fun middle => advance find? observe middle right :=
  List.foldlM_append

def read (seen : σ) (text : List Char) : Except (Stop σ) σ :=
  match advance find? observe (initial seen) text with
  | .error stop => .error stop
  | .ok s => finish find? observe s

end Reading

end ActionStrings
