import ActionStrings.Proofs.Arguments
import ActionStrings.Proofs.PrintedReport
import ActionStrings.Proofs.Widths

namespace ActionStrings
open Text

namespace Vocabulary

variable {V : Vocabulary} {w : Nat} {set : ActionSet V.size} {mask : Mask w} {input : String} {error : Error}

theorem parseDetails_of_parseSet_error (failed : V.parseSet input = .error error) :
    V.parseDetails input = .error error := by
  rw [parseSet_eq_details] at failed
  cases read : V.parseDetails input with
  | error other =>
    rw [read] at failed
    cases failed
    rfl
  | ok details =>
    rw [read] at failed
    cases failed

-- Every error of a reading is a violation, and its culprit stands where the violation says.
theorem parseDetails_error_parts (failed : V.parseDetails input = .error error) :
    ∃ violation before after, error = .malformed violation input ∧
      input.toList = before ++ (violation.culprit.toList ++ after) ∧
      violation.index = byteLength before ∧ 0 < violation.culprit.length := by
  unfold parseDetails at failed
  cases ran : V.readTraced (Sink.set V) .empty input with
  | ok both =>
    rw [ran] at failed
    cases failed
  | error stop =>
    rw [ran] at failed
    cases failed
    obtain ⟨before,after,split,placed,shown,_,_⟩ := Reading.read_error_parts ran
    refine ⟨stop.violation,before,after,rfl,split,placed,?_⟩
    exact Nat.pos_of_ne_zero (mt String.length_eq_zero_iff.mp shown)

theorem Encodes.testBit (indexed : V.Indexed) (room : V.size ≤ w) (holds : V.Encodes set mask) (i : Nat) :
    mask.toNat.testBit i = true ↔ ∃ a ∈ set, V.ordinal a = i := by
  have number (a : V.Action) : V.ordinal a % w = V.ordinal a := by
    rw [ordinal_mod indexed room a,indexed a]
  by_cases inside : i < w
  · have bit := holds i inside
    simp only [number] at bit
    exact bit
  · have clear : mask.getLsbD i = false := BitVec.getLsbD_of_ge mask i (Nat.le_of_not_lt inside)
    refine iff_of_false (by rw [← BitVec.getLsbD,clear]; exact Bool.false_ne_true) ?_
    rintro ⟨a,_,rfl⟩
    rw [indexed a] at inside
    exact inside (Nat.lt_of_lt_of_le a.isLt room)

theorem zipIdx_eq_map {labels : List String} (complete : labels.length = V.size) :
    labels.zipIdx = V.actions.map fun a => (labels[a.val],a.val) := by
  apply List.ext_getElem
  · simp [actions,complete]
  · intro i _ _
    simp [actions]

theorem labels_of_encodes (indexed : V.Indexed) (room : V.size ≤ w) {labels : List String}
    (complete : labels.length = V.size) (holds : V.Encodes set mask) :
    labels.zipIdx.filterMap (fun row => if mask.getLsbD row.2 then some row.1 else none) =
      set.members.filterMap fun a => labels[V.ordinal a]? := by
  rw [zipIdx_eq_map complete,List.filterMap_map,← holds.actionsIn_eq indexed room,actionsIn,
    List.filterMap_filter]
  refine congrArg (fun shown => V.actions.filterMap shown) (funext fun a => ?_)
  have inside : a.val < labels.length := Nat.lt_of_lt_of_eq a.isLt complete.symm
  simp only [Function.comp,indexed a,List.getElem?_eq_getElem inside]

end Vocabulary

namespace Report

variable {V : Vocabulary} {w v : Nat} {set : ActionSet V.size} {kind : Kind} {input : String}
  {details : Details kind.vocabulary} {error : Error}

-- All that is shown of a set beside its canonical text: its actions in the order of their numbers,
-- and the one number that has a bit for each of them and no other.
structure Encodings (V : Vocabulary) (set : ActionSet V.size) where
  variants : List V.Action
  members : ∀ a, a ∈ variants ↔ a ∈ set
  ascending : variants.Pairwise fun a b => V.ordinal a < V.ordinal b
  number : Nat
  bits : ∀ i, number.testBit i = true ↔ ∃ a ∈ set, V.ordinal a = i

namespace Encodings

variable (e : Encodings V set)

theorem unique (other : Encodings V set) : e = other := by
  have distinct (e : Encodings V set) : e.variants.Nodup := e.ascending.imp fun before same => by
    rw [same] at before
    exact Nat.lt_irrefl _ before
  have members : ∀ a, a ∈ e.variants ↔ a ∈ other.variants := fun a => (e.members a).trans (other.members a).symm
  have variants : e.variants = other.variants := by
    refine List.Perm.eq_of_pairwise ?_ e.ascending other.ascending
      ((List.perm_ext_iff_of_nodup (distinct e) (distinct other)).mpr members)
    intro a b _ _ before after
    exact absurd after (Nat.lt_asymm before)
  have number : e.number = other.number :=
    Nat.eq_of_testBit_eq fun i => Bool.eq_iff_iff.mpr ((e.bits i).trans (other.bits i).symm)
  cases e
  cases other
  cases variants
  cases number
  rfl

end Encodings

theorem indexed_kind (kind : Kind) : kind.vocabulary.Indexed := by
  cases kind <;> exact Vocabulary.indexed_ofNames _ _

theorem room_kind (kind : Kind) : kind.vocabulary.size ≤ 32 := by cases kind <;> decide

-- No kind has more actions than the narrow word has bits, so nothing is ever refused for its width.
theorem examine_policy (kind : Kind) (policy other : Policy) (input : String) :
    examine kind policy input = examine kind other input := by
  have fits {w : Nat} (wide : 32 ≤ w) (policy : Policy) : kind.vocabulary.fits w policy = true := by
    cases policy with
    | reject => exact decide_eq_true (Nat.le_trans (room_kind kind) wide)
    | wrap => rfl
  have same {w : Nat} (wide : 32 ≤ w) :
      kind.vocabulary.parseMask w policy input = kind.vocabulary.parseMask w other input :=
    (Vocabulary.parseMask_of_fits (fits wide policy) input).trans
      (Vocabulary.parseMask_of_fits (fits wide other) input).symm
  simp only [examine,same (Nat.le_refl 32),same (show 32 ≤ 64 by decide)]

theorem parts_of_parseDetails {V : Vocabulary} {details : Details V}
    (read : V.parseDetails input = .ok details) :
    details.text = input ∧ details.canonical = V.canonicalSet details.set := by
  unfold Vocabulary.parseDetails at read
  split at read
  · cases read
  · cases read
    exact ⟨rfl,rfl⟩

theorem examine_accepted (policy : Policy) (read : kind.vocabulary.parseDetails input = .ok details) :
    ∃ narrow : Mask 32, kind.vocabulary.Encodes details.set narrow ∧
      examine kind policy input = .accepted details (.ok narrow) (.ok (narrow.setWidth 64))
        (kind.flagNames?.map fun names => (names,.ok ⟨narrow⟩)) := by
  have gathered : kind.vocabulary.parseSet input = .ok details.set := by
    rw [kind.vocabulary.parseSet_eq_details,read]
    rfl
  obtain ⟨narrow,encoded,holds⟩ := Vocabulary.parseMask_wrap_ok (indexed_kind kind) gathered
  have unrefused : kind.vocabulary.parseMask 32 default input = .ok narrow :=
    (Vocabulary.parseMask_reject_fits (room_kind kind) input).trans encoded
  have wide := Vocabulary.parseMask_widen (indexed_kind kind) (show 32 ≤ 64 by decide) unrefused
  have flags : kind.vocabulary.parseFlags 32 input = .ok ⟨narrow⟩ := congrArg (Except.map Flags.mk) unrefused
  refine ⟨narrow,holds,?_⟩
  rw [examine_policy kind policy default]
  simp only [examine,read,unrefused,wide,flags]

def Encodings.ofMask {mask : Mask w} (indexed : V.Indexed) (room : V.size ≤ w) (holds : V.Encodes set mask) :
    Encodings V set where
  variants := set.members
  members _ := Iff.rfl
  ascending := set.ascending.imp fun {a b} before => by
    rw [indexed a,indexed b]
    exact before
  number := mask.toNat
  bits := holds.testBit indexed room

def encodingsText (colour : Bool) (e : Encodings V set) : List String :=
  [fieldText colour "canonical:" "\x1b[1m" ("\"" ++ V.canonicalSet set ++ "\""),
   fieldText colour "set:      " "\x1b[2m" ("\x7b" ++ ", ".intercalate (e.variants.map V.label) ++ "\x7d"),
   fieldText colour "u32:      " "\x1b[33m" ("0b" ++ String.ofList (Nat.toDigits 2 e.number)),
   fieldText colour "u64:      " "\x1b[33m" ("0b" ++ String.ofList (Nat.toDigits 2 e.number))]

-- The words for the bits of the flags of a file, from the lowest; no other kind has flags.
def flagWords : List String := ["READ","WRITE","EXECUTE","DELETE","READLINK"]

def flagsText (colour : Bool) (present : List String) : Kind → List String
  | .file =>
    let body := if present.isEmpty then "0x0" else " | ".intercalate present
    [fieldText colour "flags:    " "\x1b[2m" ("FileFlags(" ++ body ++ ")"),""]
  | _ => []

def acceptedText (colour : Bool) (kind : Kind) (elapsed : Span) (details : Details kind.vocabulary)
    {set : ActionSet kind.vocabulary.size} (e : Encodings kind.vocabulary set) : List String :=
  openingText colour details.text ++ headingText colour "Matches" ++
  matchesText colour details.found details.emptySegments ++
  headingText colour "Encodings" ++ encodingsText colour e ++
  headingText colour "Timing" ++ ["  Scan: " ++ elapsed.shown colour,""] ++
  flagsText colour (e.variants.filterMap fun a => flagWords[kind.vocabulary.ordinal a]?) kind

-- Both words show the same digits, and no line has room for an error.
theorem shown_encodings {mask : Mask w} {details : Details V} (colour : Bool) (wider : w ≤ v) (indexed : V.Indexed)
    (room : V.size ≤ w) (holds : V.Encodes details.set mask)
    (written : details.canonical = V.canonicalSet details.set) :
    [field "canonical:" ⟨[.bold],s!"\"{details.canonical}\""⟩,field "set:      " ⟨[.dim],setText details.set⟩,
     maskLine "u32:      " (.ok mask),maskLine "u64:      " (.ok (mask.setWidth v))].map (Line.shown colour) =
      encodingsText colour (Encodings.ofMask indexed room holds) := by
  have same : (mask.setWidth v).toNat = mask.toNat := BitVec.toNat_setWidth_of_le wider
  simp only [maskLine,binary,same,written,List.map_cons,List.map_nil,shown_field]
  rfl

theorem shown_flags {narrow : Mask 32} {set : ActionSet kind.vocabulary.size} (colour : Bool)
    (holds : kind.vocabulary.Encodes set narrow) :
    (match kind.flagNames?.map fun names => (names,(.ok ⟨narrow⟩ : Except Error (Flags 32))) with
      | some (names,result) => [flagsLine names result,[]]
      | none => []).map (Line.shown colour) =
      flagsText colour (set.members.filterMap fun a => flagWords[kind.vocabulary.ordinal a]?) kind := by
  cases kind with
  | file =>
    have complete : flagWords.length = Kind.file.vocabulary.size := rfl
    have labels := Vocabulary.labels_of_encodes (indexed_kind .file) (room_kind .file) complete holds
    simp only [Kind.flagNames?,Option.map_some,flagsLine,FlagNames.describe,List.map_cons,List.map_nil,shown_field]
    rw [← flagWords,labels]
    rfl
  | socket => rfl
  | property => rfl

theorem shown_accepted (colour : Bool) (policy : Policy) (elapsed : Span)
    (read : kind.vocabulary.parseDetails input = .ok details) :
    ∃ e : Encodings kind.vocabulary details.set,
      ((examine kind policy input).lines elapsed).map (Line.shown colour) =
        acceptedText colour kind elapsed details e := by
  obtain ⟨narrow,holds,report⟩ := examine_accepted policy read
  have encodings := shown_encodings colour (show 32 ≤ 64 by decide) (indexed_kind kind) (room_kind kind) holds
    (parts_of_parseDetails read).2
  have timed : [[plain "  Scan: ",elapsed],[]].map (Line.shown colour) = ["  Scan: " ++ elapsed.shown colour,""] := by
    simp only [List.map_cons,List.map_nil,Line.shown_cons,Line.shown_nil,String.append_empty]
    rfl
  refine ⟨.ofMask (indexed_kind kind) (room_kind kind) holds,?_⟩
  rw [report,acceptedText]
  unfold Findings.lines
  rw [List.map_append,List.map_append,List.map_append,List.map_append,List.map_append,List.map_append,
    List.map_append,shown_opening,shown_heading,shown_heading,shown_heading,shown_foundLines,encodings,timed]
  exact congrArg _ (shown_flags colour holds)

theorem examine_refused (policy : Policy) (read : kind.vocabulary.parseDetails input = .error error) :
    examine kind policy input = .refused input error := by
  simp only [examine,read]

theorem shown_refused (colour : Bool) (elapsed : Span) (input : String) (violation : Violation) :
    ((Findings.refused input (.malformed violation input) : Findings V).lines elapsed).map (Line.shown colour) =
      refusedText colour input violation (Caret.of input violation) := by
  rw [Findings.lines,List.map_append,List.map_append,List.map_append,shown_opening,shown_heading,shown_complaint]
  rfl

end Report

namespace CommandLine
open Report

variable {last : Options} {text : String} {opts tail : List String} {stdin : Stdin} {screen : Bool}

theorem outcome_refused (elapsed : Span) {o : Options} {violation : Violation}
    (read : o.kind.vocabulary.parseDetails (trimLineEnds text) = .error (.malformed violation (trimLineEnds text))) :
    (examine o text).outcome elapsed = ⟨1,printed (refusedText o.colour (trimLineEnds text) violation
      (Caret.of (trimLineEnds text) violation)),""⟩ := by
  rw [examine,examine_refused o.policy read,Conclusion.outcome,render_eq,shown_refused]
  rfl

theorem outcome_accepted (elapsed : Span) {o : Options} {details : Details o.kind.vocabulary}
    (read : o.kind.vocabulary.parseDetails (trimLineEnds text) = .ok details) :
    ∃ e : Encodings o.kind.vocabulary details.set, (examine o text).outcome elapsed =
      ⟨0,printed (acceptedText o.colour o.kind elapsed details e),""⟩ := by
  obtain ⟨e,shown⟩ := shown_accepted o.colour o.policy elapsed read
  obtain ⟨narrow,_,report⟩ := examine_accepted o.policy read
  refine ⟨e,?_⟩
  rw [examine,Conclusion.outcome,render_eq,shown,report]
  rfl

section

variable (elapsed : Span) (chosen : Chooses (.standard screen) opts last) (supplied : Supplies stdin tail text)
include chosen supplied

theorem run_chosen : run elapsed (opts ++ tail) stdin screen = (examine last text).outcome elapsed := by
  rw [run,plan_append chosen,carryOut_plan supplied]

theorem run_unwrapped : run elapsed (unwrapped opts ++ tail) stdin screen = run elapsed (opts ++ tail) stdin screen := by
  have stays : Chooses (.standard screen) (unwrapped opts) {last with policy := .reject} := chosen.unwrapped .reject
  rw [run_chosen elapsed chosen supplied,run_chosen elapsed stays supplied]
  simp only [examine,Conclusion.outcome,examine_policy last.kind .reject last.policy]

end

end CommandLine

end ActionStrings
