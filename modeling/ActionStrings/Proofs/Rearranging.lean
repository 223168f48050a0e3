import ActionStrings.Proofs.Accepted
import ActionStrings.Proofs.Expressible
import ActionStrings.Proofs.Rereading
import ActionStrings.Proofs.Tracing

namespace ActionStrings.Vocabulary
open Text

variable {V : Vocabulary} {w : Nat} {set whole : ActionSet V.size} {input : String} {part : List Char}
  {a b : V.Action} {segments : List Segment} {signals : List (Reading.Signal V.Action)}

def Blank (part : List Char) : Prop := (Segment.trim ⟨0,part⟩).text = []

def Names (V : Vocabulary) (part : List Char) (a : V.Action) : Prop :=
  IsWord (Segment.trim ⟨0,part⟩).text ∧ V.nameTrie.find? (Segment.trim ⟨0,part⟩).text = some a

theorem Blank.nameless (blank : Blank part) : ¬V.Names part a := by
  intro ⟨isWord,_⟩
  exact isWord.nonempty blank

theorem Names.unique (names : V.Names part a) (also : V.Names part b) : b = a :=
  Option.some.inj (also.2.symm.trans names.2)

theorem foldl_blankSignal (later : List Segment) (seen : ActionSet V.size × Bool) :
    (Reading.blankSignal later ++ signals).foldl ((Sink.set V).both (Sink.starred V)).observe seen =
      signals.foldl ((Sink.set V).both (Sink.starred V)).observe seen := by
  cases later <;> rfl

-- What is gathered without a wildcard is what the parts name, no matter in which order.
theorem gathered_of_says (said : Reading.Says V.nameTrie.find? segments signals)
    (plain : signals.foldl ((Sink.set V).both (Sink.starred V)).observe (set,false) = (whole,false)) :
    (∀ part ∈ segments, Blank part.text ∨ ∃ a, V.Names part.text a) ∧
    ∀ a, a ∈ whole ↔ a ∈ set ∨ ∃ part ∈ segments, V.Names part.text a := by
  induction said generalizing set with
  | nothing =>
    cases plain
    simp
  | @blank part later signals empty _ ih =>
    rw [foldl_blankSignal] at plain
    obtain ⟨known,gathered⟩ := ih plain
    have blank : Blank part.text := empty
    have nameless (a : V.Action) : ¬V.Names part.text a := blank.nameless
    refine ⟨List.forall_mem_cons.mpr ⟨.inl blank,known⟩,fun a => ?_⟩
    simp [gathered,nameless]
  | @word part later signals action isWord found _ ih =>
    have onward : signals.foldl ((Sink.set V).both (Sink.starred V)).observe (set.insert action,false) =
        (whole,false) := plain
    obtain ⟨known,gathered⟩ := ih onward
    have names : V.Names part.text action := ⟨isWord,found⟩
    have alone (a : V.Action) : V.Names part.text a ↔ a = action :=
      ⟨fun also => names.unique also,fun same => same ▸ names⟩
    refine ⟨List.forall_mem_cons.mpr ⟨.inr ⟨action,names⟩,known⟩,fun a => ?_⟩
    simp [gathered,alone,or_left_comm,or_assoc]
  | star =>
    -- A wildcard would have raised the flag.
    cases plain

theorem exists_says (known : ∀ part ∈ segments, Blank part.text ∨ ∃ a, V.Names part.text a)
    (set : ActionSet V.size) :
    ∃ signals whole, Reading.Says V.nameTrie.find? segments signals ∧
      signals.foldl ((Sink.set V).both (Sink.starred V)).observe (set,false) = (whole,false) := by
  induction segments generalizing set with
  | nil => exact ⟨[],set,.nothing,rfl⟩
  | cons part later ih =>
    obtain ⟨first,others⟩ := List.forall_mem_cons.mp known
    rcases first with blank | ⟨a,isWord,found⟩
    · obtain ⟨signals,whole,said,told⟩ := ih others set
      exact ⟨_,whole,.blank blank said,by rw [foldl_blankSignal,told]⟩
    · obtain ⟨signals,whole,said,told⟩ := ih others (set.insert a)
      exact ⟨_,whole,.word isWord found said,told⟩

-- Each part is asked on its own whether it may stand there, and for what.
theorem understand_plain_iff : V.understand input = .ok (set,false) ↔
    (∀ part ∈ input.toList.splitOn ',', Blank part ∨ ∃ a, V.Names part a) ∧
    ∀ a, a ∈ set ↔ ∃ part ∈ input.toList.splitOn ',', V.Names part a := by
  have texts : (Segment.ofText input.toList).map Segment.text = input.toList.splitOn ',' :=
    Segment.layOut_text 0 _
  rw [← texts,List.forall_mem_map]
  simp only [List.mem_map,exists_exists_and_eq_and]
  constructor
  · intro understood
    obtain ⟨signals,said,plain⟩ := Reading.read_ok_iff.mp (Error.settle_eq_ok_iff.mp understood)
    simpa using gathered_of_says said plain
  · intro ⟨known,members⟩
    obtain ⟨signals,whole,said,plain⟩ := exists_says known .empty
    obtain ⟨_,gathered⟩ := gathered_of_says said plain
    have same : whole = set := ActionSet.ext fun a => by simp [gathered,members]
    subst same
    exact Error.settle_eq_ok_iff.mpr (Reading.read_ok_iff.mpr ⟨signals,said,plain⟩)

theorem splitOn_joined {parts : List String} (some : parts ≠ []) (uncut : ∀ part ∈ parts, ',' ∉ part.toList) :
    (",".intercalate parts).toList.splitOn ',' = parts.map String.toList := by
  have joined : (",".intercalate parts).toList = [','].intercalate (parts.map String.toList) := by
    rw [String.toList_intercalate]
    rfl
  rw [joined]
  exact List.splitOn_intercalate ',' (by simpa using uncut) (by simpa using some)

theorem parseMask_of_understand (understood : V.understand input = .ok (set,false)) :
    ∃ mask : Mask w, V.parseMask w .wrap input = .ok mask ∧ V.Encodes set mask := by
  have kept (said : ActionSet V.size × Bool) (mask : Mask w) (signal : Reading.Signal V.Action)
      (holds : said.2 = false → V.Encodes said.1 mask) :
      let next := ((Sink.set V).both (Sink.starred V)).observe said signal
      next.2 = false → V.Encodes next.1 ((Sink.mask V w).observe mask signal) := by
    intro next plain
    cases signal with
    | blank => exact holds plain
    | hit hit =>
      obtain ⟨_,_,_,event⟩ := hit
      cases event with
      | named a => exact (holds plain).insert a
      | everything => cases plain
  have alike : Reading.Alike _ _ (V.read ((Sink.set V).both (Sink.starred V)) (.empty,false) input)
      (V.read (Sink.mask V w) 0#w input) :=
    Reading.read_related (R := fun said mask => said.2 = false → V.Encodes said.1 mask)
      (fun said mask signal _ holds => kept said mask signal holds) (fun _ => encodes_empty) input.toList
  obtain ⟨mask,read,holds⟩ := (alike.settle input).2 _ understood
  exact ⟨mask,read,holds rfl⟩

theorem understand_rearranged {parts others : List String} (some : parts ≠ [])
    (uncut : ∀ part ∈ parts, ',' ∉ part.toList) (same : ∀ part, part ∈ parts ↔ part ∈ others)
    (understood : V.understand (",".intercalate parts) = .ok (set,false)) :
    V.understand (",".intercalate others) = .ok (set,false) := by
  have some' : others ≠ [] := by
    obtain ⟨part,more,rfl⟩ := List.exists_cons_of_ne_nil some
    exact List.ne_nil_of_mem ((same part).mp (List.mem_cons_self ..))
  have uncut' : ∀ part ∈ others, ',' ∉ part.toList := fun part member => uncut part ((same part).mpr member)
  have texts (part : List Char) : part ∈ parts.map String.toList ↔ part ∈ others.map String.toList := by
    simp only [List.mem_map,same]
  rw [understand_plain_iff,splitOn_joined some uncut] at understood
  rw [understand_plain_iff,splitOn_joined some' uncut']
  simpa only [texts] using understood

theorem parseMask_plain (understood : V.understand input = .ok (set,false)) (w : Nat) (policy : Policy) :
    if V.fits w policy then ∃ mask : Mask w, V.parseMask w policy input = .ok mask ∧ V.Encodes set mask
    else V.parseMask w policy input = .error (.capacityExceeded V.title V.size w) := by
  split
  · rename_i fits
    rw [parseMask_of_fits fits]
    exact parseMask_of_understand understood
  · rename_i narrow
    exact if_neg narrow

theorem canonical_plain (understood : V.understand input = .ok (set,false)) :
    (V.parseDetails input).map Details.canonical = .ok (V.canonicalSet set) := by
  have both := parseDetails_canonical (V := V) input
  rw [V.parseSet_eq,understood] at both
  cases read : V.parseDetails input with
  | error error =>
    rw [read] at both
    cases both
  | ok details =>
    rw [read] at both
    exact congrArg (Except.map Prod.snd) both

-- Parts that are read without a wildcard may be read in any order and any number of times.
theorem spells_rearranged {parts others : List String} (some : parts ≠ [])
    (uncut : ∀ part ∈ parts, ',' ∉ part.toList) (same : ∀ part, part ∈ parts ↔ part ∈ others)
    (spells : V.Spells (",".intercalate parts) set) :
    let left := ",".intercalate parts
    let right := ",".intercalate others
    V.Spells right set ∧
    (∀ w policy,
      if V.fits w policy then
        ∃ mask : Mask w, V.parseMask w policy left = .ok mask ∧ V.parseMask w policy right = .ok mask
      else
        V.parseMask w policy left = .error (.capacityExceeded V.title V.size w) ∧
        V.parseMask w policy right = .error (.capacityExceeded V.title V.size w)) ∧
    (V.parseDetails left).map Details.canonical = .ok (V.canonicalSet set) ∧
    (V.parseDetails right).map Details.canonical = .ok (V.canonicalSet set) := by
  intro left right
  have first := spells_iff.mp spells
  have second := understand_rearranged some uncut same first
  refine ⟨spells_iff.mpr second,?_,canonical_plain first,canonical_plain second⟩
  intro w policy
  have one := parseMask_plain first w policy
  have other := parseMask_plain second w policy
  split
  · rename_i fits
    rw [if_pos fits] at one other
    obtain ⟨mask,read,holds⟩ := one
    obtain ⟨again,reread,also⟩ := other
    rw [also.unique holds] at reread
    exact ⟨mask,read,reread⟩
  · rename_i narrow
    rw [if_neg narrow] at one other
    exact ⟨one,other⟩

theorem spells_rearranged_repeated :
    let V := ofNames "door" [("open","Open"),("shut","Shut")]
    let both : ActionSet V.size := .ofList V.actions
    let left := " open,,shut\u3000"
    let right := "shut\u3000, open,,shut\u3000, open"
    V.Spells left both ∧ V.Spells right both ∧
    (∃ mask : Mask 32, V.parseMask 32 .reject left = .ok mask ∧ V.parseMask 32 .reject right = .ok mask) ∧
    V.parseMask 1 .reject right = .error (.capacityExceeded "door" 2 1) := by
  intro V both left right
  have spells : V.Spells (",".intercalate [" open","","shut\u3000"]) both := spells_iff.mpr (by decide +kernel)
  have same (part : String) : part ∈ [" open","","shut\u3000"] ↔
      part ∈ ["shut\u3000"," open","","shut\u3000"," open"] := by
    simp only [List.mem_cons,List.not_mem_nil,or_false]
    tauto
  have uncut : ∀ part ∈ [" open","","shut\u3000"], ',' ∉ part.toList := by decide
  obtain ⟨again,masks,_⟩ := spells_rearranged (List.cons_ne_nil _ _) uncut same spells
  exact ⟨spells,again,masks 32 .reject,(masks 1 .reject).2⟩

end ActionStrings.Vocabulary
