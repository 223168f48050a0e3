import ActionStrings.Encoding

namespace ActionStrings

-- One register for each encoding, and a buffer that canonical texts are appended to.
structure Session (V : Vocabulary) where
  set : ActionSet V.size
  narrow : Mask 32
  wide : Mask 64
  out : String

inductive Command (V : Vocabulary)
  | parseSet (input : String)
  | parseNarrow (policy : Policy) (input : String)
  | parseWide (policy : Policy) (input : String)
  | assignNarrow (mask : Mask 32)
  | assignWide (mask : Mask 64)
  | insert (a : V.Action)
  | remove (a : V.Action)
  | appendSet
  | appendNarrow
  | appendWide
  | push (text : String)
  | clear
  | reparse

namespace Session

variable {V : Vocabulary}

def start : Session V := ⟨.empty,0#32,0#64,""⟩

def replace {σ : Type} (s : Session V) (result : Except Error σ) (put : σ → Session V) :
    Except Error Unit × Session V :=
  match result with
  | .error error => (.error error,s)
  | .ok value => (.ok (),put value)

def append {w : Nat} (s : Session V) (mask : Mask w) : Except Error Unit × Session V :=
  let (result,out) := V.appendMask mask s.out
  (result,{s with out})

def perform (s : Session V) : Command V → Except Error Unit × Session V
  | .parseSet input => s.replace (V.parseSet input) fun set => {s with set}
  | .parseNarrow policy input => s.replace (V.parseMask 32 policy input) fun narrow => {s with narrow}
  | .parseWide policy input => s.replace (V.parseMask 64 policy input) fun wide => {s with wide}
  | .assignNarrow narrow => (.ok (),{s with narrow})
  | .assignWide wide => (.ok (),{s with wide})
  | .insert a => (.ok (),{s with set := s.set.insert a})
  | .remove a => (.ok (),{s with set := s.set.erase a})
  | .appendSet => (.ok (),{s with out := V.appendSet s.set s.out})
  | .appendNarrow => s.append s.narrow
  | .appendWide => s.append s.wide
  | .push text => (.ok (),{s with out := s.out ++ text})
  | .clear => (.ok (),{s with out := ""})
  | .reparse => s.replace (V.parseSet s.out) fun set => {s with set}

variable {s : Session V} {error : Error}

theorem replace_failed {σ : Type} {result : Except Error σ} {put : σ → Session V}
    (failed : (s.replace result put).1 = .error error) : (s.replace result put).2 = s := by
  cases result with
  | error => rfl
  | ok value => cases failed

theorem append_failed {w : Nat} {mask : Mask w} (failed : (s.append mask).1 = .error error) :
    (s.append mask).2 = s := by
  unfold append Vocabulary.appendMask at *
  cases named : V.actionsOf mask.indices with
  | error => rfl
  | ok list =>
    rw [named] at failed
    cases failed

theorem perform_failed {command : Command V} (failed : (s.perform command).1 = .error error) :
    (s.perform command).2 = s := by
  cases command with
  | parseSet input => exact replace_failed failed
  | parseNarrow policy input => exact replace_failed failed
  | parseWide policy input => exact replace_failed failed
  | assignNarrow mask => cases failed
  | assignWide mask => cases failed
  | insert a => cases failed
  | remove a => cases failed
  | appendSet => cases failed
  | appendNarrow => exact append_failed failed
  | appendWide => exact append_failed failed
  | push text => cases failed
  | clear => cases failed
  | reparse => exact replace_failed failed

def play (s : Session V) (commands : List (Command V)) : Session V :=
  commands.foldl (fun s command => (s.perform command).2) s

theorem play_append (s : Session V) (earlier later : List (Command V)) :
    s.play (earlier ++ later) = (s.play earlier).play later := List.foldl_append

-- A failed command may as well not have been given.
theorem play_failed {earlier later : List (Command V)} {command : Command V}
    (failed : ((s.play earlier).perform command).1 = .error error) :
    s.play (earlier ++ command :: later) = s.play (earlier ++ later) := by
  have kept : ((s.play earlier).perform command).2 = s.play earlier := perform_failed failed
  have first : (s.play earlier).play (command :: later) = ((s.play earlier).perform command).2.play later := rfl
  rw [play_append,play_append,first,kept]

end Session

end ActionStrings
