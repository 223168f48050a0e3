import ActionStrings.Proofs.CheckedReading
import ActionStrings.Proofs.Describing

namespace ActionStrings.Checked
open Reading Text

variable {α σ : Type} {V : Vocabulary} {w : Nat} {trie : Trie α} {observe : σ → Signal α → σ}
  {watch : σ → Signal α → Option σ} {input : String}

def bit (w index : Nat) : Option (Mask w) := if index < w then some (Mask.bit w index) else none

def less (left right : Mask w) : Option (Mask w) := if right ≤ left then some (left - right) else none

def lowBits (w count : Nat) : Option (Mask w) :=
  if w ≤ count then some (BitVec.allOnes w) else (bit w count).bind fun power => less power 1#w

-- Clearing takes one away, so it must not be asked of an empty word.
def indices (mask : Mask w) : Option (List Nat) :=
  if _ : mask = 0#w then some []
  else (less mask 1#w).bind fun _ => (indices mask.clearLowest).map (mask.lowest :: ·)
termination_by mask.toNat
decreasing_by exact Mask.clearLowest_smaller ‹_›

def observeMask (V : Vocabulary) (gathered : Mask w) : Signal V.Action → Option (Mask w)
  | .hit ⟨_,_,_,.named a⟩ => (bit w (V.ordinal a % w)).map fun single => gathered ||| single
  | .hit ⟨_,_,_,.everything⟩ => (lowBits w V.size).map fun every => gathered ||| every
  | .blank => some gathered

def readBy (trie : Trie α) (watch : σ → Signal α → Option σ) (seen : σ) (input : String) :
    Option (Except (Stop σ) σ) := read input.toList (lookup trie input.toList) watch seen

def parseSet (V : Vocabulary) (input : String) : Option (Except Error (ActionSet V.size)) := do
  let trie ← nameTrie V
  let result ← readBy trie (fun set signal => some ((Sink.set V).observe set signal)) .empty input
  return Error.settle input result

def parseMask (V : Vocabulary) (w : Nat) (policy : Policy) (input : String) :
    Option (Except Error (Mask w)) := do
  let trie ← nameTrie V
  if V.fits w policy then
    let result ← readBy trie (observeMask V) 0#w input
    return Error.settle input result
  else return .error (.capacityExceeded V.title V.size w)

-- What a hit covers is cut out of the text afterwards, between the two ends that were kept.
def matchOf (V : Vocabulary) (input : String) (hit : Hit V.Action) : Option Match :=
  (slice? input.toList hit.start hit.stop).map fun body => {V.matchOf hit with body := String.ofList body}

def readTraced (trie : Trie V.Action) (input : String) :
    Option (Except (Stop (ActionSet V.size × Trace V.Action)) (ActionSet V.size × Trace V.Action)) :=
  readBy trie (fun both signal => some ((Sink.set V).observe both.1 signal,both.2.record signal))
    (.empty,.empty) input

def parseDetails (V : Vocabulary) (input : String) : Option (Except Error (Details V)) := do
  let trie ← nameTrie V
  let result ← readTraced trie input
  match Error.settle input result with
  | .error error => return .error error
  | .ok (set,trace) =>
    let found ← trace.hits.toList.mapM (matchOf V input)
    return .ok {
      text := input
      set
      canonical := V.canonicalSet set
      found
      wildcard := trace.wildcard
      emptySegments := trace.blanks }

def appendMask (V : Vocabulary) (mask : Mask w) (out : String) :
    Option (Except Error Unit × String) := do
  let _ ← nameTrie V
  let list ← indices mask
  match V.actionsOf list with
  | .error error => return (.error error,out)
  | .ok list => return (.ok (),out ++ V.written list)

theorem bit_eq {index : Nat} (inside : index < w) : bit w index = some (Mask.bit w index) := if_pos inside

theorem less_eq {left right : Mask w} (smaller : right ≤ left) : less left right = some (left - right) :=
  if_pos smaller

theorem one_le_of_pos {mask : Mask w} (positive : 0 < mask.toNat) : 1#w ≤ mask := by
  rw [BitVec.le_def,BitVec.toNat_ofNat]
  exact Nat.le_trans (Nat.mod_le 1 _) positive

theorem lowBits_eq (w count : Nat) : lowBits w count = some (Mask.lowBits w count) := by
  unfold lowBits Mask.lowBits
  by_cases past : w ≤ count
  · rw [if_pos past,if_pos past]
  · have short : count < w := Nat.lt_of_not_le past
    have power : (Mask.bit w count).toNat = 2 ^ count := BitVec.toNat_twoPow_of_lt short
    have one : 1#w ≤ Mask.bit w count := one_le_of_pos (power ▸ Nat.two_pow_pos count)
    rw [if_neg past,if_neg past,bit_eq short,Option.bind_some,less_eq one]
    rfl

theorem indices_eq (mask : Mask w) : indices mask = some mask.indices := by
  fun_induction Mask.indices mask with
  | case1 =>
    unfold indices
    exact dif_pos rfl
  | case2 mask nonzero ih =>
    have positive : 0 < mask.toNat := BitVec.toNat_pos_of_ne_zero nonzero
    rw [indices,dif_neg nonzero,less_eq (one_le_of_pos positive),Option.bind_some,ih,Option.map_some]

theorem observeMask_eq (wide : 0 < w) (gathered : Mask w) (signal : Signal V.Action) :
    observeMask V gathered signal = some ((Sink.mask V w).observe gathered signal) := by
  cases signal with
  | blank => rfl
  | hit hit =>
    obtain ⟨start,stop,body,event⟩ := hit
    cases event with
    | named a =>
      have inside : V.ordinal a % w < w := Nat.mod_lt _ wide
      simp only [observeMask,bit_eq inside,Option.map_some]
      rfl
    | everything =>
      simp only [observeMask,lowBits_eq,Option.map_some]
      rfl

theorem readBy_eq (ordered : trie.Ordered) (watched : ∀ seen signal, watch seen signal = some (observe seen signal))
    (seen : σ) (input : String) :
    readBy trie watch seen input = some (Reading.read trie.find? observe seen input.toList) := by
  refine read_eq ?_ watched seen
  intro start stop word cut
  rw [lookup_eq ordered,Trie.lookup,cut,Option.bind_some]

theorem parseSet_eq (V : Vocabulary) (input : String) : parseSet V input = some (V.parseSet input) := by
  have read : readBy V.nameTrie (fun set signal => some ((Sink.set V).observe set signal)) .empty input =
      some (V.read (Sink.set V) .empty input) := readBy_eq V.ordered_nameTrie (fun _ _ => rfl) _ input
  simp only [parseSet,nameTrie_eq,Option.bind_eq_bind,Option.bind_some,read]
  rfl

theorem parseMask_eq (V : Vocabulary) (wide : 0 < w) (policy : Policy) (input : String) :
    parseMask V w policy input = some (V.parseMask w policy input) := by
  have read := readBy_eq V.ordered_nameTrie (observeMask_eq wide) 0#w input
  simp only [parseMask,Vocabulary.parseMask,nameTrie_eq,Option.bind_eq_bind,Option.bind_some,read]
  split <;> rfl

theorem slices_of_parseDetails {details : Details V} (read : V.parseDetails input = .ok details) :
    ∀ m ∈ details.found, slice? input.toList m.start m.stop = some m.body.toList := by
  obtain ⟨signals,said,found,_,_⟩ := Vocabulary.exists_says_of_parseDetails read
  have places : details.found.map (fun m => (m.start,m.stop,m.body.toList)) =
      (Segment.filled input.toList).map fun part => (part.offset,part.stop,part.text) := by
    rw [found,List.map_map]
    exact (List.map_congr_left fun hit _ => Vocabulary.matchOf_place hit).trans said.places
  intro m member
  exact (Vocabulary.bodies_of_places places m member).2

theorem matchOf_eq {hit : Hit V.Action}
    (cut : slice? input.toList (V.matchOf hit).start (V.matchOf hit).stop = some (V.matchOf hit).body.toList) :
    matchOf V input hit = some (V.matchOf hit) := by
  have place := V.matchOf_place hit
  simp only [Prod.mk.injEq] at place
  obtain ⟨start,stop,_⟩ := place
  rw [matchOf,← start,← stop,cut,Option.map_some,String.ofList_toList]

theorem mapM_of_map {β γ : Type} {f : β → Option γ} {list : List β} {answers : List γ}
    (each : list.map f = answers.map some) : list.mapM f = some answers := by
  induction list generalizing answers with
  | nil =>
    cases answers with
    | nil => rfl
    | cons => cases each
  | cons x rest ih =>
    cases answers with
    | nil => cases each
    | cons y more =>
      obtain ⟨first,later⟩ := List.cons.inj each
      rw [List.mapM_cons,first,ih later]
      rfl

theorem parseDetails_eq (V : Vocabulary) (input : String) :
    parseDetails V input = some (V.parseDetails input) := by
  have read : readTraced V.nameTrie input = some (V.readTraced (Sink.set V) .empty input) :=
    readBy_eq V.ordered_nameTrie (fun _ _ => rfl) _ input
  simp only [parseDetails,nameTrie_eq,Option.bind_eq_bind,Option.bind_some,read]
  cases settled : Error.settle input (V.readTraced (Sink.set V) .empty input) with
  | error error => simp only [Vocabulary.parseDetails,settled]; rfl
  | ok both =>
    obtain ⟨set,trace⟩ := both
    obtain ⟨details,answer,kept⟩ : ∃ details, V.parseDetails input = .ok details ∧
        details.found = trace.hits.toList.map V.matchOf := by
      rw [Vocabulary.parseDetails,settled]
      exact ⟨_,rfl,rfl⟩
    have slices := slices_of_parseDetails answer
    rw [kept] at slices
    have found : trace.hits.toList.mapM (matchOf V input) = some (trace.hits.toList.map V.matchOf) := by
      apply mapM_of_map
      rw [List.map_map]
      apply List.map_congr_left
      intro hit member
      exact matchOf_eq (slices _ (List.mem_map_of_mem member))
    simp only [Vocabulary.parseDetails,settled,found]
    rfl

theorem appendMask_eq (V : Vocabulary) (mask : Mask w) (out : String) :
    appendMask V mask out = some (V.appendMask mask out) := by
  simp only [appendMask,Vocabulary.appendMask,nameTrie_eq,indices_eq,Option.bind_eq_bind,Option.bind_some]
  cases V.actionsOf mask.indices <;> rfl

end ActionStrings.Checked

namespace ActionStrings.Vocabulary

-- Whatever the names and the numbers of the actions are, no run gets stuck, and each does what it
-- does where nothing is checked.
theorem never_stuck (V : Vocabulary) {w : Nat} (wide : 0 < w) :
    Checked.nameTrie V = some V.nameTrie ∧
    (∀ source start stop,
      Checked.lookup V.nameTrie source start stop = some (V.nameTrie.lookup source start stop)) ∧
    (∀ input, Checked.parseSet V input = some (V.parseSet input)) ∧
    (∀ policy input, Checked.parseMask V w policy input = some (V.parseMask w policy input)) ∧
    (∀ input, Checked.parseDetails V input = some (V.parseDetails input)) ∧
    ∀ (mask : Mask w) out, Checked.appendMask V mask out = some (V.appendMask mask out) :=
  ⟨Checked.nameTrie_eq V,Checked.lookup_eq V.ordered_nameTrie,Checked.parseSet_eq V,
    Checked.parseMask_eq V wide,Checked.parseDetails_eq V,Checked.appendMask_eq V⟩

theorem never_stuck_large_ordinal :
    let V : Vocabulary := ⟨"odd",[⟨"é",0xFFFFFFFFFFFFFFFF,"Last"⟩,⟨"",5,"Blank"⟩,⟨"é*",7,"Starred"⟩]⟩
    0 < 32 ∧ Checked.parseMask V 32 .reject "é,\u3000*" = some (.ok 0x80000007#32) ∧
    Checked.parseSet V "é, *é" = some (.error (.malformed (.unexpectedCharacter 'é' 5) "é, *é")) := by
  intro V
  have safe := never_stuck V (w := 32) (by decide)
  have mask : V.parseMask 32 .reject "é,\u3000*" = .ok 0x80000007#32 := by decide +kernel
  have stopped : V.parseSet "é, *é" = .error (.malformed (.unexpectedCharacter 'é' 5) "é, *é") := by
    decide +kernel
  refine ⟨by decide,?_,?_⟩
  · rw [safe.2.2.2.1,mask]
  · rw [safe.2.2.1,stopped]

end ActionStrings.Vocabulary
