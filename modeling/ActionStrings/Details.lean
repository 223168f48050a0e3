import ActionStrings.Encoding

namespace ActionStrings

-- The record of a reading: every hit in the order of the text, and how many commas ended no name.
structure Trace (α : Type) where
  hits : Array (Reading.Hit α)
  blanks : Nat

namespace Trace

variable {α : Type}

def empty : Trace α := ⟨#[],0⟩

def record (trace : Trace α) : Reading.Signal α → Trace α
  | .hit hit => { trace with hits := trace.hits.push hit }
  | .blank => { trace with blanks := trace.blanks + 1 }

def wildcard (trace : Trace α) : Bool :=
  trace.hits.any fun hit => match hit.event with
    | .named _ => false
    | .everything => true

end Trace

def Vocabulary.readTraced (V : Vocabulary) {σ : Type} (sink : Sink V σ) (seen : σ) (input : String) :
    Except (Reading.Stop (σ × Trace V.Action)) (σ × Trace V.Action) :=
  Reading.read V.nameTrie.find? (fun both signal => (sink.observe both.1 signal,both.2.record signal))
    (seen,.empty) input.toList

structure Match where
  start : Nat
  stop : Nat
  body : String
  action : String
  ordinal : Option Nat
deriving DecidableEq

structure Details (V : Vocabulary) where
  text : String
  set : ActionSet V.size
  canonical : String
  found : List Match
  wildcard : Bool
  emptySegments : Nat

namespace Vocabulary

variable (V : Vocabulary)

def matchOf (hit : Reading.Hit V.Action) : Match :=
  let body := String.ofList hit.body
  match hit.event with
  | .named a => ⟨hit.start,hit.stop,body,V.name a,some (V.ordinal a)⟩
  | .everything => ⟨hit.start,hit.stop,body,"*",none⟩

def parseDetails (input : String) : Except Error (Details V) :=
  match Error.settle input (V.readTraced (Sink.set V) .empty input) with
  | .error error => .error error
  | .ok (set,trace) => .ok {
      text := input
      set
      canonical := V.canonicalSet set
      found := trace.hits.toList.map V.matchOf
      wildcard := trace.wildcard
      emptySegments := trace.blanks }

end Vocabulary

end ActionStrings
