import ActionStrings.Proofs.TrieMap

namespace ActionStrings

namespace Text

variable {text key left right : List Char} {start stop n : Nat}

-- A place between two characters of a text, or at one of its ends.
def Cut (text : List Char) (n : Nat) : Prop := ∃ left right, text = left ++ right ∧ byteLength left = n

def Spans (text : List Char) (start stop : Nat) (key : List Char) : Prop :=
  ∃ left right, text = left ++ (key ++ right) ∧ byteLength left = start ∧ start + byteLength key = stop

theorem Cut.bounded (cut : Cut text n) : n ≤ byteLength text := by
  obtain ⟨left,right,rfl,rfl⟩ := cut
  rw [byteLength_append]
  exact Nat.le_add_right _ _

theorem Spans.cuts (spans : Spans text start stop key) : start ≤ stop ∧ Cut text start ∧ Cut text stop := by
  obtain ⟨left,right,split,begun,ended⟩ := spans
  refine ⟨by omega,⟨left,key ++ right,split,begun⟩,left ++ key,right,?_,?_⟩
  · rw [split,List.append_assoc]
  · rw [byteLength_append,begun,ended]

theorem prefix_of_byteLength_le (first : left <+: text) (second : right <+: text)
    (shorter : byteLength left ≤ byteLength right) : left <+: right := by
  rcases List.prefix_or_prefix_of_prefix first second with before | ⟨more,same⟩
  · exact before
  · subst same
    have none : byteLength more = 0 := by
      rw [byteLength_append] at shorter
      omega
    cases byteLength_eq_zero.mp none
    exact ⟨[],by rw [List.append_nil,List.append_nil]⟩

theorem exists_spans (ordered : start ≤ stop) (begun : Cut text start) (ended : Cut text stop) :
    ∃ key, Spans text start stop key := by
  obtain ⟨left,rest,first,rfl⟩ := begun
  obtain ⟨whole,right,second,rfl⟩ := ended
  have reaches : left <+: whole :=
    prefix_of_byteLength_le ⟨rest,first.symm⟩ ⟨right,second.symm⟩ ordered
  obtain ⟨key,rfl⟩ := reaches
  refine ⟨key,left,right,?_,rfl,?_⟩
  · rw [second,List.append_assoc]
  · rw [byteLength_append]

theorem slice?_eq_none_iff : slice? text start stop = none ↔
    stop < start ∨ byteLength text < stop ∨ ¬Cut text start ∨ ¬Cut text stop := by
  constructor
  · intro refused
    by_cases begun : Cut text start
    · by_cases ended : Cut text stop
      · rcases Nat.lt_or_ge stop start with reversed | ordered
        · exact .inl reversed
        · obtain ⟨key,spans⟩ := exists_spans ordered begun ended
          have found : slice? text start stop = some key := slice?_eq_some_iff.mpr spans
          rw [refused] at found
          cases found
      · exact .inr (.inr (.inr ended))
    · exact .inr (.inr (.inl begun))
  · intro misplaced
    cases found : slice? text start stop with
    | none => rfl
    | some key =>
      have spans : Spans text start stop key := slice?_eq_some_iff.mp found
      obtain ⟨ordered,begun,ended⟩ := spans.cuts
      rcases misplaced with reversed | outside | uncut | uncut
      · exact absurd ordered (Nat.not_le.mpr reversed)
      · exact absurd ended.bounded (Nat.not_le.mpr outside)
      · exact absurd begun uncut
      · exact absurd ended uncut

end Text

namespace Trie
open Text

variable {α : Type} {rows : List (List Char × α)} {source key : List Char} {value : α} {start stop : Nat}

-- The value was entered under the key, and nothing was entered under it later.
def Latest (rows : List (List Char × α)) (key : List Char) (value : α) : Prop :=
  ∃ earlier later, rows = earlier ++ (key,value) :: later ∧ ∀ row ∈ later, row.1 ≠ key

theorem lastRow?_eq_some_iff : lastRow? rows key = some value ↔ Latest rows key value := by
  unfold lastRow?
  constructor
  · intro found
    obtain ⟨row,last,rfl⟩ := Option.map_eq_some_iff.mp found
    obtain ⟨front,kept⟩ := List.getLast?_eq_some_iff.mp last
    obtain ⟨earlier,rest,rfl,_,ended⟩ := List.filter_eq_append_iff.mp kept
    obtain ⟨between,later,rfl,_,same,others⟩ := List.filter_eq_cons_iff.mp ended
    have named : row.1 = key := of_decide_eq_true same
    refine ⟨earlier ++ between,later,?_,?_⟩
    · rw [List.append_assoc,← named]
    · intro other member shares
      exact List.filter_eq_nil_iff.mp others other member (decide_eq_true shares)
  · rintro ⟨earlier,later,rfl,others⟩
    have dropped : later.filter (fun row => decide (row.1 = key)) = [] := by
      apply List.filter_eq_nil_iff.mpr
      intro row member shares
      exact others row member (of_decide_eq_true shares)
    simp only [List.filter_append,List.filter_cons,decide_true,↓reduceIte,dropped,List.getLast?_concat]
    rfl

theorem lastRow?_eq_none_iff : lastRow? rows key = none ↔ ∀ row ∈ rows, row.1 ≠ key := by
  unfold lastRow?
  rw [Option.map_eq_none_iff,List.getLast?_eq_none_iff,List.filter_eq_nil_iff]
  simp only [decide_eq_true_eq,ne_eq]

theorem find?_grown (rows : List (List Char × α)) (key : List Char) :
    (empty.insertAll rows).find? key = lastRow? rows key := by
  rw [find?_insertAll ordered_empty,find?_empty,Option.or_none]

theorem lookup_grown_eq_some_iff : (empty.insertAll rows).lookup source start stop = some value ↔
    ∃ key, Spans source start stop key ∧ Latest rows key value := by
  unfold lookup
  rw [Option.bind_eq_some_iff]
  refine exists_congr fun key => and_congr slice?_eq_some_iff ?_
  rw [find?_grown]
  exact lastRow?_eq_some_iff

theorem lookup_grown_eq_none_iff : (empty.insertAll rows).lookup source start stop = none ↔
    (stop < start ∨ byteLength source < stop ∨ ¬Cut source start ∨ ¬Cut source stop) ∨
      ∀ row ∈ rows, ¬Spans source start stop row.1 := by
  unfold lookup
  cases found : slice? source start stop with
  | none => exact iff_of_true rfl (.inl (slice?_eq_none_iff.mp found))
  | some key =>
    have placed : ¬(stop < start ∨ byteLength source < stop ∨ ¬Cut source start ∨ ¬Cut source stop) := by
      rw [← slice?_eq_none_iff,found]
      exact Option.some_ne_none key
    have only (other : List Char) : Spans source start stop other ↔ other = key := by
      have same : Spans source start stop other ↔ slice? source start stop = some other :=
        slice?_eq_some_iff.symm
      rw [same,found,Option.some.injEq,eq_comm]
    rw [Option.bind_some,find?_grown,lastRow?_eq_none_iff,or_iff_right placed]
    simp only [only,ne_eq]

end Trie

namespace Vocabulary

variable {V : Vocabulary} {name : String} {a : V.Action}

theorem find?_eq (name : String) : V.find? name = V.lastNamed? name := by
  rw [find?,nameTrie_find?,String.ofList_toList]

theorem find?_eq_some_iff (indexed : V.Indexed) :
    V.find? name = some a ↔ V.name a = name ∧ ∀ b, V.name b = name → V.ordinal b ≤ V.ordinal a := by
  rw [find?_eq,lastNamed?_eq_some_iff]
  simp only [indexed _,Fin.le_def]

theorem find?_eq_none_iff : V.find? name = none ↔ ∀ b, V.name b ≠ name := by
  rw [find?_eq,lastNamed?,List.getLast?_eq_none_iff,List.filter_eq_nil_iff]
  simp only [mem_actions,decide_eq_true_eq,true_implies,ne_eq]

end Vocabulary

namespace Trie
open Text

variable {α : Type} {V : Vocabulary}

-- A trie grown from nothing is the finite map of what was entered last, wherever the key is written;
-- so of the actions that share a name, the one with the largest number is found by it.
theorem lookup_finds_latest (indexed : V.Indexed) (rows : List (List Char × α)) (source : List Char)
    (start stop : Nat) :
    let trie := empty.insertAll rows
    (∀ value, trie.lookup source start stop = some value ↔
      ∃ key, Spans source start stop key ∧ Latest rows key value) ∧
    (trie.lookup source start stop = none ↔
      (stop < start ∨ byteLength source < stop ∨ ¬Cut source start ∨ ¬Cut source stop) ∨
        ∀ row ∈ rows, ¬Spans source start stop row.1) ∧
    trie.lookup source 0 (byteLength source) = trie.find? source ∧
    (∀ value, trie.find? source = some value ↔ Latest rows source value) ∧
    (∀ name a, V.find? name = some a ↔ V.name a = name ∧ ∀ b, V.name b = name → V.ordinal b ≤ V.ordinal a) ∧
    ∀ name, V.find? name = none ↔ ∀ b, V.name b ≠ name := by
  intro trie
  refine ⟨fun value => lookup_grown_eq_some_iff,lookup_grown_eq_none_iff,lookup_whole trie source,?_,?_,?_⟩
  · intro value
    rw [find?_grown]
    exact lastRow?_eq_some_iff
  · exact fun name a => Vocabulary.find?_eq_some_iff indexed
  · exact fun name => Vocabulary.find?_eq_none_iff

theorem lookup_finds_latest_accented :
    let V := Vocabulary.ofNames "lamp" [("on","On"),("off","Off"),("on","Again")]
    let rows := [(['é'],1),([],2),(['é','a'],3),(['é'],4)]
    V.Indexed ∧ (empty.insertAll rows).lookup ['x','é','a'] 1 3 = some 4 ∧
    V.find? "on" = some ⟨2,by decide⟩ := by
  intro V rows
  have indexed : V.Indexed := Vocabulary.indexed_ofNames _ _
  have spans : Spans ['x','é','a'] 1 3 ['é'] := ⟨['x'],['a'],rfl,by decide,by decide⟩
  have latest : Latest rows ['é'] 4 := ⟨[(['é'],1),([],2),(['é','a'],3)],[],rfl,by simp⟩
  obtain ⟨found,_,_,_,named,_⟩ := lookup_finds_latest indexed rows ['x','é','a'] 1 3
  exact ⟨indexed,(found 4).mpr ⟨['é'],spans,latest⟩,(named "on" _).mpr (by decide +kernel)⟩

end Trie

end ActionStrings
