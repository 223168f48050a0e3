import ActionStrings.Proofs.Extents
import ActionStrings.Proofs.Tracing

namespace ActionStrings
open Text

variable {α : Type}

def Event.starred : Event α → Bool
  | .named _ => false
  | .everything => true

namespace Reading

variable {find? : List Char → Option α} {parts later : List Segment} {part : Segment} {signals : List (Signal α)}
  {starred : Bool}

def Signal.hit? : Signal α → Option (Hit α)
  | .hit found => some found
  | .blank => none

def hits (signals : List (Signal α)) : List (Hit α) := signals.filterMap Signal.hit?
def blankCount (signals : List (Signal α)) : Nat := signals.countP fun signal => signal.hit?.isNone

theorem foldl_record (signals : List (Signal α)) :
    signals.foldl Trace.record .empty = ⟨(hits signals).toArray,blankCount signals⟩ := by
  -- A record grows at its end, so the induction takes away the last signal.
  induction signals using List.reverseRecOn with
  | nil => rfl
  | append_singleton front signal ih =>
    rw [List.foldl_concat,ih]
    cases signal <;> simp [Trace.record,hits,blankCount,Signal.hit?]

theorem wildcard_foldl_record (signals : List (Signal α)) :
    (signals.foldl Trace.record .empty).wildcard = (hits signals).any fun hit => hit.event.starred := by
  rw [foldl_record,Trace.wildcard,List.any_toArray]
  rfl

theorem hits_blankSignal (later : List Segment) : hits (blankSignal later ++ signals) = hits signals := by
  cases later <;> rfl

theorem hits_cons (hit : Hit α) : hits (.hit hit :: signals) = hit :: hits signals := rfl

-- There is one hit for each part that is not blank, and it is what is left of that part.
theorem Says.places (said : Says find? parts signals) :
    (hits signals).map (fun hit => (hit.start,hit.stop,hit.body)) =
      ((parts.map Segment.trim).filter fun part => part.text ≠ []).map fun part =>
        (part.offset,part.stop,part.text) := by
  induction said with
  | nothing => rfl
  | blank empty _ ih =>
    rw [hits_blankSignal,ih]
    simp [empty]
  | word isWord _ _ ih =>
    rw [hits_cons,List.map_cons,ih]
    simp [isWord.nonempty,Segment.hit]
  | @star part later starred silent =>
    have quiet : ((later.map Segment.trim).filter fun part => part.text ≠ []) = [] := by simpa using silent
    rw [List.map_cons,List.filter_cons,quiet]
    simp [starred,hits,Signal.hit?,Segment.hit]

theorem Says.genuine (said : Says find? parts signals) : ∀ hit ∈ hits signals, Genuine find? (.hit hit) := by
  induction said with
  | nothing => simp [hits]
  | blank _ _ ih => rwa [hits_blankSignal]
  | word isWord known _ ih => exact List.forall_mem_cons.mpr ⟨⟨isWord,known⟩,ih⟩
  | star starred => exact List.forall_mem_singleton.mpr starred

theorem Says.star_last (said : Says find? parts signals) :
    ∀ hit ∈ (hits signals).dropLast, hit.event.starred = false := by
  induction said with
  | nothing => simp [hits]
  | blank _ _ ih => rwa [hits_blankSignal]
  | @word _ _ signals _ _ _ _ ih =>
    rw [hits_cons]
    by_cases alone : hits signals = []
    · simp [alone]
    · rw [List.dropLast_cons_of_ne_nil alone]
      exact List.forall_mem_cons.mpr ⟨rfl,ih⟩
  | star => simp [hits,Signal.hit?]

-- The parts behind which a comma counts when they are blank: those before a wildcard,
-- and without one all that a comma comes after.
def countedParts (starred : Bool) (parts : List Segment) : List Segment :=
  if starred then parts.takeWhile fun part => part.trim.text ≠ ['*'] else parts.dropLast

theorem countedParts_cons (plain : part.trim.text ≠ ['*']) (some : later ≠ []) :
    countedParts starred (part :: later) = part :: countedParts starred later := by
  cases starred with
  | true => simp [countedParts,plain]
  | false => simp [countedParts,List.dropLast_cons_of_ne_nil some]

theorem Says.blankCount (said : Says find? parts signals) :
    blankCount signals = (countedParts ((hits signals).any fun hit => hit.event.starred) parts).countP fun part =>
      part.trim.text = [] := by
  induction said with
  | nothing => rfl
  | @blank part later signals empty onward ih =>
    have plain : part.trim.text ≠ ['*'] := by simp [empty]
    rw [hits_blankSignal]
    cases later with
    | nil =>
      -- The last part has no comma behind it, so it does not count.
      cases says_nil_iff.mp onward
      rfl
    | cons next more =>
      rw [countedParts_cons plain (List.cons_ne_nil _ _),List.countP_cons,← ih]
      simp [Reading.blankCount,blankSignal,Signal.hit?,empty]
  | @word part later signals action isWord known onward ih =>
    have plain : part.trim.text ≠ ['*'] := fun alone => isWord.unstarred (by simp [alone])
    cases later with
    | nil =>
      cases says_nil_iff.mp onward
      rfl
    | cons next more =>
      have named : (part.hit (.named action)).event.starred = false := rfl
      rw [hits_cons,List.any_cons,named,Bool.false_or,countedParts_cons plain (List.cons_ne_nil _ _),
        List.countP_cons,← ih]
      simp [Reading.blankCount,Signal.hit?,isWord.nonempty]
  | star starred silent =>
    simp [Reading.blankCount,hits,Signal.hit?,countedParts,starred,Segment.hit,Event.starred]

end Reading

namespace Vocabulary

variable {V : Vocabulary} {input : String} {set : ActionSet V.size} {details : Details V}
  {hit : Reading.Hit V.Action}

-- What a record of an accepted text says of it: where each name and each wildcard stands and
-- what it stands for, and how many blank parts were counted.
structure Describes (V : Vocabulary) (input : String) (details : Details V) : Prop where
  places : details.found.map (fun m => (m.start,m.stop,m.body.toList)) =
    (Segment.filled input.toList).map fun part => (part.offset,part.stop,part.text)
  bodies : ∀ m ∈ details.found, m.start < m.stop ∧ slice? input.toList m.start m.stop = some m.body.toList
  named : ∀ m ∈ details.found, m.ordinal ≠ none →
    ∃ a, m.ordinal = some (V.ordinal a) ∧ V.lastNamed? m.body = some a ∧ m.body = V.name a ∧ m.action = V.name a
  starred : ∀ m ∈ details.found, m.ordinal = none → m.body = "*" ∧ m.action = "*"
  last : ∀ m ∈ details.found.dropLast, m.ordinal ≠ none
  wildcard : details.wildcard = true ↔ ∃ m ∈ details.found, m.ordinal = none
  apart : details.found.Pairwise fun left right => left.stop < right.start ∧
    ∃ gap, slice? input.toList left.stop right.start = some gap ∧ ',' ∈ gap
  covers : ∀ index c, (index,c) ∈ positions 0 input.toList → isSeparator c = false →
    ∃ m ∈ details.found, m.start ≤ index ∧ index < m.stop
  blanks : details.emptySegments =
    (Reading.countedParts details.wildcard (Segment.ofText input.toList)).countP fun part => part.trim.text = []

theorem matchOf_place (hit : Reading.Hit V.Action) :
    ((V.matchOf hit).start,(V.matchOf hit).stop,(V.matchOf hit).body.toList) = (hit.start,hit.stop,hit.body) := by
  obtain ⟨start,stop,body,event⟩ := hit
  cases event <;> simp [matchOf]

theorem matchOf_ordinal_eq_none_iff : (V.matchOf hit).ordinal = none ↔ hit.event.starred = true := by
  obtain ⟨start,stop,body,event⟩ := hit
  cases event <;> simp [matchOf,Event.starred]

theorem matchOf_named (genuine : Reading.Genuine V.nameTrie.find? (.hit hit))
    (named : (V.matchOf hit).ordinal ≠ none) :
    ∃ a, (V.matchOf hit).ordinal = some (V.ordinal a) ∧ V.lastNamed? (V.matchOf hit).body = some a ∧
      (V.matchOf hit).body = V.name a ∧ (V.matchOf hit).action = V.name a := by
  obtain ⟨start,stop,body,event⟩ := hit
  cases event with
  | everything => exact absurd rfl named
  | named a =>
    have held : V.lastNamed? (String.ofList body) = some a := by
      rw [← nameTrie_find?]
      exact genuine.2
    exact ⟨a,rfl,held,((V.lastNamed?_eq_some_iff).mp held).1.symm,rfl⟩

theorem matchOf_starred (genuine : Reading.Genuine V.nameTrie.find? (.hit hit))
    (starred : (V.matchOf hit).ordinal = none) :
    (V.matchOf hit).body = "*" ∧ (V.matchOf hit).action = "*" := by
  obtain ⟨start,stop,body,event⟩ := hit
  cases event with
  | named a => cases starred
  | everything =>
    cases genuine
    exact ⟨rfl,rfl⟩

section

variable {found : List Match} {text : List Char}
  (places : found.map (fun m => (m.start,m.stop,m.body.toList)) =
    (Segment.filled text).map fun part => (part.offset,part.stop,part.text))
include places

theorem bodies_of_places : ∀ m ∈ found, m.start < m.stop ∧ slice? text m.start m.stop = some m.body.toList := by
  intro m member
  have placed := List.mem_map_of_mem (f := fun m : Match => (m.start,m.stop,m.body.toList)) member
  rw [places] at placed
  obtain ⟨part,filled,same⟩ := List.mem_map.mp placed
  simp only [Prod.mk.injEq] at same
  obtain ⟨start,stop,body⟩ := same
  rw [← start,← stop,← body]
  exact Segment.filled_slice filled

theorem apart_of_places : found.Pairwise fun left right => left.stop < right.start ∧
    ∃ gap, slice? text left.stop right.start = some gap ∧ ',' ∈ gap := by
  let Parted (left right : Nat × Nat × List Char) : Prop := left.2.1 < right.1 ∧
    ∃ gap, slice? text left.2.1 right.1 = some gap ∧ ',' ∈ gap
  have parted : ((Segment.filled text).map fun part => (part.offset,part.stop,part.text)).Pairwise Parted :=
    List.pairwise_map.mpr ((Segment.filled_apart text).imp Segment.Apart.slice)
  rw [← places] at parted
  exact List.pairwise_map.mp parted

theorem covers_of_places {index : Nat} {c : Char} (member : (index,c) ∈ positions 0 text)
    (letter : isSeparator c = false) : ∃ m ∈ found, m.start ≤ index ∧ index < m.stop := by
  obtain ⟨part,filled,inside⟩ := Segment.filled_covers member letter
  have placed := List.mem_map_of_mem (f := fun part : Segment => (part.offset,part.stop,part.text)) filled
  rw [← places] at placed
  obtain ⟨m,found,same⟩ := List.mem_map.mp placed
  simp only [Prod.mk.injEq] at same
  obtain ⟨start,stop,_⟩ := same
  exact ⟨m,found,by rwa [start,stop]⟩

end

theorem exists_says_of_parseDetails (read : V.parseDetails input = .ok details) :
    ∃ signals, Reading.Says V.nameTrie.find? (Segment.ofText input.toList) signals ∧
      details.found = (Reading.hits signals).map V.matchOf ∧
      details.wildcard = ((Reading.hits signals).any fun hit => hit.event.starred) ∧
      details.emptySegments = Reading.blankCount signals := by
  unfold parseDetails at read
  cases traced : Error.settle input (V.readTraced (Sink.set V) .empty input) with
  | error error => rw [traced] at read; cases read
  | ok both =>
    obtain ⟨set,trace⟩ := both
    rw [traced] at read
    cases read
    obtain ⟨signals,said,told⟩ := Reading.read_ok_iff.mp (Error.settle_eq_ok_iff.mp traced)
    have recorded : signals.foldl Trace.record .empty = trace :=
      (List.foldl_hom Prod.snd fun _ _ => rfl).trans (congrArg Prod.snd told)
    have flagged := Reading.wildcard_foldl_record signals
    rw [recorded] at flagged
    rw [Reading.foldl_record] at recorded
    subst recorded
    exact ⟨signals,said,rfl,flagged,rfl⟩

-- The record of an accepted text tells all that is in it, where it is and in the order of the text.
theorem parseDetails_describes (accepted : V.parseSet input = .ok set) :
    ∃ details, V.parseDetails input = .ok details ∧ details.set = set ∧ V.Describes input details := by
  rw [V.parseSet_eq_details] at accepted
  cases read : V.parseDetails input with
  | error error => rw [read] at accepted; cases accepted
  | ok details =>
    rw [read] at accepted
    obtain ⟨signals,said,found,wildcard,blanks⟩ := exists_says_of_parseDetails read
    have places : details.found.map (fun m => (m.start,m.stop,m.body.toList)) =
        (Segment.filled input.toList).map fun part => (part.offset,part.stop,part.text) := by
      rw [found,List.map_map]
      exact (List.map_congr_left fun hit _ => matchOf_place hit).trans said.places
    have genuine := said.genuine
    refine ⟨details,rfl,Except.ok.inj accepted,places,bodies_of_places places,?_,?_,?_,?_,
      apart_of_places places,fun _ _ => covers_of_places places,by rw [blanks,wildcard,said.blankCount]⟩
    · rw [found,List.forall_mem_map]
      exact fun hit member => matchOf_named (genuine hit member)
    · rw [found,List.forall_mem_map]
      exact fun hit member => matchOf_starred (genuine hit member)
    · rw [found,← List.map_dropLast,List.forall_mem_map]
      intro hit member
      rw [ne_eq,matchOf_ordinal_eq_none_iff,said.star_last hit member]
      exact Bool.false_ne_true
    · rw [found,wildcard,List.any_eq_true]
      simp only [List.mem_map,exists_exists_and_eq_and,matchOf_ordinal_eq_none_iff]

theorem parseDetails_describes_blanks :
    let V := ofNames "door" [("open","Open"),("shut","Shut"),("open","Reopen")]
    let input := " open ,,\u3000*,,"
    V.parseSet input = .ok .all ∧
    ∃ details, V.parseDetails input = .ok details ∧ V.Describes input details ∧
      details.found = [⟨1,5,"open","open",some 2⟩,⟨11,12,"*","*",none⟩] ∧ details.emptySegments = 1 := by
  intro V input
  have accepted : V.parseSet input = .ok .all := by decide +kernel
  have seen : (V.parseDetails input).map (fun details => (details.found,details.emptySegments)) =
      .ok ([⟨1,5,"open","open",some 2⟩,⟨11,12,"*","*",none⟩],1) := by decide +kernel
  obtain ⟨details,read,_,described⟩ := parseDetails_describes accepted
  rw [read] at seen
  exact ⟨accepted,details,read,described,Prod.mk.inj (Except.ok.inj seen)⟩

end Vocabulary

end ActionStrings
