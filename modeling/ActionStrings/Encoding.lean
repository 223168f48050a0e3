import ActionStrings.ActionSet
import ActionStrings.Mask
import ActionStrings.Reading
import ActionStrings.Vocabulary

namespace ActionStrings

inductive Error
  | malformed (violation : Violation) (input : String)
  | capacityExceeded (title : String) (count width : Nat)
  | unknownBit (title : String) (bit : Nat)
deriving DecidableEq

namespace Error

def message : Error → String
  | malformed (.unexpectedCharacter ch index) input =>
    s!"unexpected character '{ch}' at index {index} of action string \"{input}\""
  | malformed (.invalidAction action index) input =>
    s!"invalid action \"{action}\" at index {index} of action string \"{input}\""
  | capacityExceeded title count width =>
    s!"action type {title} declares {count} actions, more than a {width}-bit mask can hold"
  | unknownBit title bit => s!"bit {bit} does not name an action of {title}"

-- A reading that stopped gives away nothing of what it had seen.
def settle {σ : Type} (input : String) : Except (Reading.Stop σ) σ → Except Error σ
  | .error stop => .error (.malformed stop.violation input)
  | .ok seen => .ok seen

theorem settle_eq_mapError {σ : Type} (input : String) (result : Except (Reading.Stop σ) σ) :
    settle input result =
      (result.mapError Reading.Stop.violation).mapError fun violation => .malformed violation input := by
  cases result <;> rfl

theorem settle_eq_ok_iff {σ : Type} {input : String} {result : Except (Reading.Stop σ) σ} {value : σ} :
    settle input result = .ok value ↔ result = .ok value := by
  cases result with
  | error => simp only [settle,reduceCtorEq]
  | ok => simp only [settle,Except.ok.injEq]

end Error

abbrev Sink (V : Vocabulary) (σ : Type) := σ → Event V.Action → σ

namespace Sink

variable (V : Vocabulary) {σ : Type}

def set : Sink V (ActionSet V.size)
  | gathered, .named a => gathered.insert a
  | _, .everything => .all

-- An ordinal past the width shares the bit it has modulo the width.
def mask (w : Nat) : Sink V (Mask w)
  | gathered, .named a => gathered ||| Mask.bit w (V.ordinal a % w)
  | gathered, .everything => gathered ||| Mask.lowBits w V.size

variable {V}

def observe (sink : Sink V σ) (seen : σ) : Reading.Signal V.Action → σ
  | .hit hit => sink seen hit.event
  | .blank => seen

end Sink

def Vocabulary.read (V : Vocabulary) {σ : Type} (sink : Sink V σ) (seen : σ) (input : String) :
    Except (Reading.Stop σ) σ :=
  Reading.read V.nameTrie.find? sink.observe seen input.toList

-- What to do where a mask has fewer bits than there are actions: refuse before the text is
-- read, or let actions share bits.
inductive Policy
  | reject
  | wrap
deriving DecidableEq

instance : Inhabited Policy := ⟨.reject⟩

-- A value of a type that names some bits of a word; the bits without a name are kept too.
structure Flags (w : Nat) where
  bits : Mask w

namespace Vocabulary

variable (V : Vocabulary) {w : Nat}

def fits (w : Nat) : Policy → Bool
  | .reject => V.size ≤ w
  | .wrap => true

def parseSet (input : String) : Except Error (ActionSet V.size) :=
  Error.settle input (V.read (Sink.set V) .empty input)

def parseMask (w : Nat) (policy : Policy) (input : String) : Except Error (Mask w) :=
  if V.fits w policy then Error.settle input (V.read (Sink.mask V w) 0#w input)
  else .error (.capacityExceeded V.title V.size w)

def parseFlags (w : Nat) (input : String) : Except Error (Flags w) :=
  (V.parseMask w .reject input).map Flags.mk

def written (list : List V.Action) : String := ",".intercalate (list.map V.name)

-- The lowest set bit that names no action is the one complained of.
def actionsOf : List Nat → Except Error (List V.Action)
  | [] => .ok []
  | bit :: rest =>
    match V.action? bit with
    | none => .error (.unknownBit V.title bit)
    | some a => (actionsOf rest).map (a :: ·)

-- What a buffer already holds gets no comma after it.
def appendSet (set : ActionSet V.size) (out : String) : String := out ++ V.written set.members

-- Every bit is resolved before the first name is written, so a refusal leaves the buffer alone.
def appendMask (mask : Mask w) (out : String) : Except Error Unit × String :=
  match V.actionsOf mask.indices with
  | .error error => (.error error,out)
  | .ok list => (.ok (),out ++ V.written list)

def canonicalSet (set : ActionSet V.size) : String := V.appendSet set ""

def canonicalMask (mask : Mask w) : Except Error String :=
  match V.appendMask mask "" with
  | (.error error,_) => .error error
  | (.ok (),out) => .ok out

def canonicalFlags (flags : Flags w) : Except Error String := V.canonicalMask flags.bits

end Vocabulary

end ActionStrings
