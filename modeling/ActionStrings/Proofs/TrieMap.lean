import ActionStrings.Proofs.TrieSearch
import ActionStrings.Vocabulary

namespace ActionStrings.Trie

variable {α : Type} {node child : Trie α} {c d : Char} {rest key : List Char} {value : α} {i : Nat}

inductive Ordered : Trie α → Prop
  | node {value : Option α} {selectors : Array Char} {children : Array (Trie α)}
      (ascending : Ascending selectors) (parallel : selectors.size = children.size)
      (below : ∀ child ∈ children, Ordered child) : Ordered ⟨value,selectors,children⟩

theorem ordered_empty : Ordered (empty : Trie α) :=
  .node List.Pairwise.nil rfl fun _ member => absurd member (Array.not_mem_empty _)

theorem Ordered.ascending (ordered : Ordered node) : Ascending node.selectors := by
  cases ordered; assumption
theorem Ordered.parallel (ordered : Ordered node) : node.selectors.size = node.children.size := by
  cases ordered; assumption
theorem Ordered.member (ordered : Ordered node) (present : child ∈ node.children) : Ordered child := by
  cases ordered with
  | node _ _ below => exact below child present

def child? (node : Trie α) (c : Char) : Option (Trie α) :=
  match search node.selectors c with
  | .found i => node.children[i]?
  | .vacant _ => none

theorem find?_cons : node.find? (c :: rest) = (node.child? c).bind fun child => child.find? rest := by
  rw [find?,child?]
  cases search node.selectors c <;> rfl

theorem child?_eq_some_iff (ascending : Ascending node.selectors) :
    node.child? c = some child ↔ ∃ i : Nat, node.selectors[i]? = some c ∧ node.children[i]? = some child := by
  unfold child?
  constructor
  · intro reached
    split at reached
    · rename_i i answer; exact ⟨i,search_found answer,reached⟩
    · cases reached
  · intro ⟨i,labelled,placed⟩
    rw [(search_eq_found_iff ascending).mpr labelled]
    exact placed

theorem Ordered.reached (ordered : Ordered node) (path : node.child? c = some child) :
    Ordered child := by
  obtain ⟨i,_,placed⟩ := (child?_eq_some_iff ordered.ascending).mp path
  exact ordered.member (Array.mem_of_getElem? placed)

theorem child?_of_found (ordered : Ordered node) (answer : search node.selectors c = .found i) :
    ∃ old, node.children[i]? = some old ∧ node.child? c = some old := by
  have inside : i < node.children.size := by
    rw [← ordered.parallel]
    exact (Array.getElem?_eq_some_iff.mp (search_found answer)).1
  refine ⟨node.children[i],Array.getElem?_eq_getElem inside,?_⟩
  simp only [child?,answer,Array.getElem?_eq_getElem inside]

theorem child?_modify (ordered : Ordered node) (answer : search node.selectors c = .found i)
    (change : Trie α → Trie α) :
    {node with children := node.children.modify i change}.child? d =
      if d = c then (node.child? c).map change else node.child? d := by
  obtain ⟨old,placed,reached⟩ := child?_of_found ordered answer
  by_cases same : d = c
  · subst same
    simp only [child?,answer,↓reduceIte,Array.getElem?_modify]
  · simp only [child?,same,↓reduceIte]
    cases other : search node.selectors d with
    | vacant j => rfl
    | found j =>
      have apart : i ≠ j := by
        intro equal
        subst equal
        exact same (Option.some.inj ((search_found other).symm.trans (search_found answer)))
      simp only [Array.getElem?_modify,apart,↓reduceIte]

section

variable (ordered : Ordered node) (answer : search node.selectors c = .vacant i)
include ordered answer

theorem child?_insertIdx_self :
    (⟨node.value,node.selectors.insertIdxIfInBounds i c,
      node.children.insertIdxIfInBounds i child⟩ : Trie α).child? c = some child := by
  have bound := search_vacant answer
  have width : i ≤ node.children.size := ordered.parallel ▸ bound
  have ascending := (search_parts ordered.ascending answer).ascending_insert ordered.ascending bound
  refine (child?_eq_some_iff ascending).mpr ⟨i,?_,?_⟩
  · simp only [getElem?_insertIdxIfInBounds bound,Nat.lt_irrefl,↓reduceIte]
  · simp only [getElem?_insertIdxIfInBounds width,Nat.lt_irrefl,↓reduceIte]

-- An edge from before keeps its place, or moves one step to the right together with its child.
theorem child?_insertIdx_other (other : d ≠ c) :
    (⟨node.value,node.selectors.insertIdxIfInBounds i c,
      node.children.insertIdxIfInBounds i child⟩ : Trie α).child? d = node.child? d := by
  have bound := search_vacant answer
  have width : i ≤ node.children.size := ordered.parallel ▸ bound
  have ascending := (search_parts ordered.ascending answer).ascending_insert ordered.ascending bound
  apply Option.ext
  intro reached
  rw [child?_eq_some_iff ascending,child?_eq_some_iff ordered.ascending]
  simp only [getElem?_insertIdxIfInBounds bound,getElem?_insertIdxIfInBounds width]
  constructor
  · intro ⟨j,labelled,placed⟩
    split at labelled
    · rename_i early; exact ⟨j,labelled,by simpa only [early,↓reduceIte] using placed⟩
    · split at labelled
      · exact absurd (Option.some.inj labelled).symm other
      · rename_i late apart
        exact ⟨j - 1,labelled,by simpa only [late,apart,↓reduceIte] using placed⟩
  · intro ⟨j,labelled,placed⟩
    by_cases early : j < i
    · exact ⟨j,by simpa only [early,↓reduceIte] using labelled,
        by simpa only [early,↓reduceIte] using placed⟩
    · have late : ¬ j + 1 < i := by omega
      have apart : j + 1 ≠ i := by omega
      exact ⟨j + 1,by simpa only [late,apart,↓reduceIte,Nat.add_sub_cancel] using labelled,
        by simpa only [late,apart,↓reduceIte,Nat.add_sub_cancel] using placed⟩

theorem child?_insertIdx :
    (⟨node.value,node.selectors.insertIdxIfInBounds i c,
      node.children.insertIdxIfInBounds i child⟩ : Trie α).child? d =
        if d = c then some child else node.child? d := by
  by_cases same : d = c
  · subst same
    rw [if_pos rfl,child?_insertIdx_self ordered answer]
  · rw [if_neg same,child?_insertIdx_other ordered answer same]

end

theorem child?_insert (ordered : Ordered node) :
    (node.insert (c :: rest) value).child? d =
      if d = c then some (((node.child? c).getD empty).insert rest value) else node.child? d := by
  rw [insert]
  cases answer : search node.selectors c with
  | found i =>
    obtain ⟨old,_,reached⟩ := child?_of_found ordered answer
    simp only [child?_modify ordered answer,reached,Option.map_some,Option.getD_some]
  | vacant i =>
    have none : node.child? c = none := by simp only [child?,answer]
    simp only [child?_insertIdx ordered answer,none,Option.getD_none]

theorem ordered_modify (ordered : Ordered node) (change : Trie α → Trie α)
    (kept : ∀ old, Ordered old → Ordered (change old)) :
    Ordered {node with children := node.children.modify i change} := by
  refine .node ordered.ascending (by rw [Array.size_modify,ordered.parallel]) ?_
  intro inner member
  rcases mem_modify member with present | ⟨old,present,rfl⟩
  · exact ordered.member present
  · exact kept old (ordered.member present)

theorem ordered_insertIdx (ordered : Ordered node) (answer : search node.selectors c = .vacant i)
    (fresh : Ordered child) :
    Ordered ⟨node.value,node.selectors.insertIdxIfInBounds i c,
      node.children.insertIdxIfInBounds i child⟩ := by
  have bound := search_vacant answer
  have width : i ≤ node.children.size := ordered.parallel ▸ bound
  refine .node ((search_parts ordered.ascending answer).ascending_insert ordered.ascending bound) ?_ ?_
  · simp only [Array.insertIdxIfInBounds,width,↓reduceDIte,Array.size_insertIdx,ordered.parallel]
  · intro inner member
    rcases (mem_insertIdxIfInBounds width).mp member with rfl | present
    · exact fresh
    · exact ordered.member present

theorem ordered_insert (ordered : Ordered node) : Ordered (node.insert key value) := by
  induction key generalizing node with
  | nil => exact .node ordered.ascending ordered.parallel fun _ member => ordered.member member
  | cons c rest ih =>
    rw [insert]
    cases answer : search node.selectors c with
    | found i => exact ordered_modify ordered _ fun old valid => ih valid
    | vacant i => exact ordered_insertIdx ordered answer (ih ordered_empty)

@[simp] theorem child?_empty : (empty : Trie α).child? c = none := by
  rw [Option.eq_none_iff_forall_ne_some]
  intro child reached
  obtain ⟨i,labelled,_⟩ := (child?_eq_some_iff ordered_empty.ascending).mp reached
  cases labelled

@[simp] theorem find?_empty : (empty : Trie α).find? key = none := by
  cases key with
  | nil => rfl
  | cons c rest => rw [find?_cons,child?_empty,Option.bind_none]

theorem find?_insert (ordered : Ordered node) (sought : List Char) :
    (node.insert key value).find? sought = if sought = key then some value else node.find? sought := by
  induction key generalizing node sought with
  | nil => cases sought <;> simp [insert,find?]
  | cons c rest ih =>
    cases sought with
    | nil => rw [insert]; cases search node.selectors c <;> simp [find?]
    | cons d tail =>
      rw [find?_cons,child?_insert ordered]
      by_cases same : d = c
      · subst same
        simp only [↓reduceIte,Option.bind_some,List.cons.injEq,true_and,find?_cons]
        cases reached : node.child? d with
        | none => rw [Option.getD_none,ih ordered_empty,find?_empty,Option.bind_none]
        | some child => rw [Option.getD_some,ih (ordered.reached reached),Option.bind_some]
      · simp only [same,↓reduceIte,List.cons.injEq,false_and,find?_cons]

def insertAll (node : Trie α) (entries : List (List Char × α)) : Trie α :=
  entries.foldl (fun trie entry => trie.insert entry.1 entry.2) node

def lastRow? (entries : List (List Char × α)) (key : List Char) : Option α :=
  ((entries.filter fun entry => entry.1 = key).getLast?).map Prod.snd

theorem ordered_insertAll (ordered : Ordered node) (entries : List (List Char × α)) :
    Ordered (node.insertAll entries) := by
  induction entries generalizing node with
  | nil => exact ordered
  | cons entry rest ih => exact ih (ordered_insert ordered)

theorem find?_insertAll (ordered : Ordered node) (entries : List (List Char × α)) (key : List Char) :
    (node.insertAll entries).find? key = (lastRow? entries key).or (node.find? key) := by
  induction entries generalizing node with
  | nil => rfl
  | cons entry rest ih =>
    have later : (node.insertAll (entry :: rest)).find? key =
        (lastRow? rest key).or ((node.insert entry.1 entry.2).find? key) := ih (ordered_insert ordered)
    rw [later,find?_insert ordered]
    simp only [lastRow?,List.filter_cons,decide_eq_true_eq,eq_comm (a := key)]
    by_cases same : entry.1 = key
    · simp only [same,↓reduceIte,List.getLast?_cons]
      cases (rest.filter fun entry => decide (entry.1 = key)).getLast? <;> rfl
    · simp only [same,↓reduceIte]

end ActionStrings.Trie

namespace ActionStrings.Vocabulary

variable (V : Vocabulary) {name : String} {a : V.Action}

-- Where several actions share a name, the one declared last.
def lastNamed? (name : String) : Option V.Action :=
  (V.actions.filter fun a => V.name a = name).getLast?

theorem mem_actions (a : V.Action) : a ∈ V.actions := List.mem_finRange a

theorem lastNamed?_eq_some_iff :
    V.lastNamed? name = some a ↔ V.name a = name ∧ ∀ b, V.name b = name → b ≤ a := by
  have ascending : (V.actions.filter fun a => V.name a = name).Pairwise (· < ·) :=
    (List.pairwise_lt_finRange V.size).filter _
  unfold lastNamed?
  generalize listed : (V.actions.filter fun a => V.name a = name) = named at ascending
  have covers (b : V.Action) : b ∈ named ↔ V.name b = name := by
    rw [← listed,List.mem_filter]
    simp only [mem_actions,decide_eq_true_eq,true_and]
  rw [List.getLast?_eq_some_iff]
  constructor
  · intro ⟨front,split⟩
    subst split
    refine ⟨(covers a).mp (by simp),?_⟩
    intro b shares
    rcases List.mem_append.mp ((covers b).mpr shares) with earlier | last
    · exact Fin.le_of_lt ((List.pairwise_append.mp ascending).2.2 b earlier a (by simp))
    · exact Fin.le_of_eq (List.mem_singleton.mp last)
  · intro ⟨carries,largest⟩
    obtain ⟨front,back,split⟩ := List.append_of_mem ((covers a).mpr carries)
    cases back with
    | nil => exact ⟨front,split⟩
    | cons b back =>
      subst split
      have later : a < b := by
        have tail := (List.pairwise_append.mp ascending).2.1
        exact (List.pairwise_cons.mp tail).1 b (by simp)
      exact absurd (largest b ((covers b).mp (by simp))) (Fin.not_le.mpr later)

theorem nameTrie_eq_insertAll :
    V.nameTrie = Trie.empty.insertAll (V.actions.map fun a => ((V.name a).toList,a)) := by
  rw [Trie.insertAll,List.foldl_map]; rfl

theorem ordered_nameTrie : V.nameTrie.Ordered := by
  rw [nameTrie_eq_insertAll]
  exact Trie.ordered_insertAll Trie.ordered_empty _

theorem nameTrie_find? (word : List Char) :
    V.nameTrie.find? word = V.lastNamed? (String.ofList word) := by
  have matching : (fun entry : List Char × V.Action => decide (entry.1 = word)) ∘
      (fun a => ((V.name a).toList,a)) = fun a => decide (V.name a = String.ofList word) := by
    funext a
    refine decide_eq_decide.mpr ⟨?_,?_⟩
    · intro same; rw [← String.ofList_toList (s := V.name a)]; exact congrArg String.ofList same
    · intro same; simp only [same,String.toList_ofList]
  rw [nameTrie_eq_insertAll,Trie.find?_insertAll Trie.ordered_empty,Trie.find?_empty,Option.or_none,
    Trie.lastRow?,List.filter_map,matching,List.getLast?_map,Option.map_map]
  exact Option.map_id'

end ActionStrings.Vocabulary
