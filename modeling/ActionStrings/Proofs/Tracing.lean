import ActionStrings.Details
import ActionStrings.Proofs.Observers
import ActionStrings.Proofs.Transitions

namespace ActionStrings

namespace Sink

variable (V : Vocabulary) {σ τ : Type}

def starred : Sink V Bool
  | _, .everything => true
  | seen, .named _ => seen

variable {V}

def both (left : Sink V σ) (right : Sink V τ) : Sink V (σ × τ) :=
  fun seen event => (left seen.1 event,right seen.2 event)

end Sink

theorem Trace.wildcard_empty {α : Type} : (Trace.empty : Trace α).wildcard = false := by
  simp [Trace.empty,Trace.wildcard]

theorem Trace.wildcard_record {V : Vocabulary} (trace : Trace V.Action) (signal : Reading.Signal V.Action) :
    (trace.record signal).wildcard = (Sink.starred V).observe trace.wildcard signal := by
  cases signal with
  | blank => rfl
  | hit hit =>
    obtain ⟨_,_,_,event⟩ := hit
    unfold Trace.record Trace.wildcard
    rw [Array.any_push]
    cases event with
    | named a => exact Bool.or_false _
    | everything => exact Bool.or_true _

namespace Reading

variable {σ τ : Type} {f : σ → τ} {left : Except (Stop σ) σ} {right : Except (Stop τ) τ}

theorem settle_map (alike : Alike (fun seen other => f seen = other) (fun seen other => f seen = other) left right)
    (input : String) : (Error.settle input left).map f = Error.settle input right := by
  cases alike with
  | stopped => rfl
  | settled same => exact congrArg Except.ok same

end Reading

namespace Vocabulary

variable (V : Vocabulary)

def understand (input : String) : Except Error (ActionSet V.size × Bool) :=
  Error.settle input (V.read ((Sink.set V).both (Sink.starred V)) (.empty,false) input)

theorem parseSet_eq (input : String) : V.parseSet input = (V.understand input).map Prod.fst := by
  refine (Reading.settle_map ?_ input).symm
  refine Reading.read_related (R := fun (seen : ActionSet V.size × Bool) other => seen.1 = other) ?_ rfl input.toList
  rintro left right signal _ rfl
  cases signal <;> rfl

theorem parseDetails_eq (input : String) :
    (V.parseDetails input).map (fun details => (details.set,details.wildcard)) = V.understand input := by
  have traced : (V.parseDetails input).map (fun details => (details.set,details.wildcard)) =
      (Error.settle input (V.readTraced (Sink.set V) .empty input)).map fun both => (both.1,both.2.wildcard) := by
    unfold parseDetails
    cases Error.settle input (V.readTraced (Sink.set V) .empty input) <;> rfl
  rw [traced]
  refine Reading.settle_map ?_ input
  refine Reading.read_related
    (R := fun (seen : ActionSet V.size × Trace V.Action) other => (seen.1,seen.2.wildcard) = other) ?_ ?_ input.toList
  · rintro ⟨set,trace⟩ right signal _ rfl
    have flagged := trace.wildcard_record signal
    cases signal with
    | blank => exact congrArg (Prod.mk set) flagged
    | hit hit => exact congrArg (Prod.mk _) flagged
  · exact congrArg (Prod.mk _) Trace.wildcard_empty

theorem parseSet_eq_details (input : String) : V.parseSet input = (V.parseDetails input).map Details.set := by
  rw [parseSet_eq,← parseDetails_eq]
  cases V.parseDetails input <;> rfl

variable {V} {input : String} {details : Details V} {error : Error}

theorem understand_eq_ok (read : V.parseDetails input = .ok details) :
    V.understand input = .ok (details.set,details.wildcard) := by
  rw [← V.parseDetails_eq,read]
  rfl

theorem understand_eq_error (read : V.parseDetails input = .error error) : V.understand input = .error error := by
  rw [← V.parseDetails_eq,read]
  rfl

variable {s next : Reading.State (ActionSet V.size × Bool)} {c : Char} {text : List Char}

-- Either the wildcard has been met, and has said everything, or no part of the text was one.
def Settled (s : Reading.State (ActionSet V.size × Bool)) : Prop :=
  s.mode = .closed ∧ s.seen = (.all,true) ∨ s.mode ≠ .closed ∧ s.seen.2 = false

theorem settled_passes (settled : Settled s)
    (passes : Reading.Passes V.nameTrie.find? ((Sink.set V).both (Sink.starred V)).observe s c next) :
    Settled next := by
  rcases settled with ⟨closed,said⟩ | ⟨open',unsaid⟩
  · cases passes with
    | tail => exact .inl ⟨rfl,said⟩
    | _ => cases closed
  · cases passes with
    | blank => exact .inr ⟨open',unsaid⟩
    | lead => exact .inr ⟨open',unsaid⟩
    | star => exact .inl ⟨rfl,rfl⟩
    | first => exact .inr ⟨Reading.Mode.noConfusion,unsaid⟩
    | letter => exact .inr ⟨Reading.Mode.noConfusion,unsaid⟩
    | close =>
      refine .inr ⟨?_,unsaid⟩
      split <;> exact Reading.Mode.noConfusion
    | comma => exact .inr ⟨Reading.Mode.noConfusion,unsaid⟩
    | trail => exact .inr ⟨open',unsaid⟩
    | tail => exact absurd rfl open'

theorem settled_of_advance
    (ran : Reading.advance V.nameTrie.find? ((Sink.set V).both (Sink.starred V)).observe
      (Reading.initial (.empty,false)) text = .ok s) : Settled s := by
  have start : Settled (Reading.initial ((.empty,false) : ActionSet V.size × Bool)) :=
    .inr ⟨Reading.Mode.noConfusion,rfl⟩
  exact Reading.advance_keeps (P := fun _ s => Settled s)
    (fun _ _ _ _ settled passes => settled_passes settled passes) [] start ran

end Vocabulary

def Trace.replay {V : Vocabulary} {σ : Type} (trace : Trace V.Action) (sink : Sink V σ) (seen : σ) : σ :=
  trace.hits.toList.foldl (fun seen hit => sink seen hit.event) seen

namespace Vocabulary

variable {V : Vocabulary} {σ : Type} {sink : Sink V σ} {first seen : σ} {trace : Trace V.Action}

theorem replay_record (signal : Reading.Signal V.Action) :
    (trace.record signal).replay sink first = sink.observe (trace.replay sink first) signal := by
  cases signal with
  | blank => rfl
  | hit hit => simp [Trace.record,Trace.replay,Sink.observe]

-- The record tells how what was gathered came about.
structure Aligned (sink : Sink V σ) (first seen : σ) (both : σ × Trace V.Action) : Prop where
  gathered : both.1 = seen
  replayed : both.2.replay sink first = seen

theorem Aligned.observe {both : σ × Trace V.Action} (aligned : Aligned sink first seen both)
    (signal : Reading.Signal V.Action) :
    Aligned sink first (sink.observe seen signal) (sink.observe both.1 signal,both.2.record signal) := by
  obtain ⟨gathered,replayed⟩ := aligned
  subst gathered
  exact ⟨rfl,by rw [replay_record,replayed]⟩

theorem readTraced_aligned (sink : Sink V σ) (first : σ) (input : String) :
    Reading.Alike (Aligned sink first) (Aligned sink first) (V.read sink first input)
      (V.readTraced sink first input) := by
  have start : Aligned sink first first (first,Trace.empty) := ⟨rfl,rfl⟩
  refine Reading.read_related ?_ start input.toList
  intro _ _ signal _ aligned
  exact aligned.observe signal

theorem parseDetails_canonical (input : String) :
    (V.parseDetails input).map (fun details => (details.set,details.canonical)) =
      (V.parseSet input).map fun set => (set,V.canonicalSet set) := by
  rw [V.parseSet_eq_details]
  unfold parseDetails
  cases Error.settle input (V.readTraced (Sink.set V) .empty input) <;> rfl

-- A record is kept beside a reading without steering it, and holds all that the sink was told.
theorem readTraced_replays (V : Vocabulary) (sink : Sink V σ) (first : σ) (input : String) :
    (match V.readTraced sink first input with
      | .error ⟨violation,seen,trace⟩ =>
        V.read sink first input = .error ⟨violation,seen⟩ ∧ trace.replay sink first = seen
      | .ok (seen,trace) => V.read sink first input = .ok seen ∧ trace.replay sink first = seen) ∧
    (V.parseDetails input).map (fun details => (details.set,details.canonical)) =
      (V.parseSet input).map fun set => (set,V.canonicalSet set) := by
  refine ⟨?_,parseDetails_canonical input⟩
  have alike := readTraced_aligned sink first input
  generalize V.read sink first input = plain at alike ⊢
  generalize V.readTraced sink first input = traced at alike ⊢
  cases alike with
  | stopped aligned => exact ⟨by rw [aligned.gathered],by rw [aligned.gathered,aligned.replayed]⟩
  | settled aligned => exact ⟨by rw [aligned.gathered],by rw [aligned.gathered,aligned.replayed]⟩

end Vocabulary

end ActionStrings
