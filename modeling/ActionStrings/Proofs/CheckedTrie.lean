import ActionStrings.Proofs.TrieMap

-- The same work once more, done as by a machine that is stuck where an operation is asked for
-- what is not there; none is a run that got stuck.
namespace ActionStrings.Checked
open Trie

variable {α β : Type} {row : Array β} {node child : Trie α} {c : Char} {i : Nat} {x y : β}

def insertAt (row : Array β) (i : Nat) (x : β) : Option (Array β) :=
  if i ≤ row.size then some (row.insertIdxIfInBounds i x) else none

def edge (node : Trie α) (c : Char) : Option (Trie α × Nat) :=
  match search node.selectors c with
  | .found i => some (node,i)
  | .vacant i => do
    let selectors ← insertAt node.selectors i c
    let children ← insertAt node.children i .empty
    return ({node with selectors,children},i)

def insert (node : Trie α) : List Char → α → Option (Trie α)
  | [],value => some {node with value := some value}
  | c :: rest,value => do
    let (opened,i) ← edge node c
    let child ← opened.children[i]?
    let changed ← insert child rest value
    return {opened with children := opened.children.setIfInBounds i changed}

-- That a key is missing is an answer; that a child is missing is not.
def find (node : Trie α) : List Char → Option (Option α)
  | [] => some node.value
  | c :: rest =>
    match search node.selectors c with
    | .found i => node.children[i]?.bind fun child => find child rest
    | .vacant _ => some none

def lookup (node : Trie α) (source : List Char) (start stop : Nat) : Option (Option α) :=
  match Text.slice? source start stop with
  | none => some none
  | some body => find node body

def nameTrie (V : Vocabulary) : Option (Trie V.Action) :=
  V.actions.foldlM (fun trie a => insert trie (V.name a).toList a) .empty

theorem insertAt_eq (bound : i ≤ row.size) : insertAt row i x = some (row.insertIdxIfInBounds i x) :=
  if_pos bound

theorem getElem?_insertIdx_self (bound : i ≤ row.size) : (row.insertIdxIfInBounds i x)[i]? = some x := by
  rw [getElem?_insertIdxIfInBounds bound,if_neg (Nat.lt_irrefl i),if_pos rfl]

theorem insertIdx_setIfInBounds (bound : i ≤ row.size) :
    (row.insertIdxIfInBounds i x).setIfInBounds i y = row.insertIdxIfInBounds i y := by
  apply Array.ext_getElem?
  intro j
  rw [Array.getElem?_setIfInBounds]
  by_cases here : i = j
  · subst here
    have inside := (Array.getElem?_eq_some_iff.mp (getElem?_insertIdx_self (x := x) bound)).1
    rw [if_pos rfl,if_pos inside,getElem?_insertIdx_self bound]
  · have apart : j ≠ i := Ne.symm here
    rw [if_neg here,getElem?_insertIdxIfInBounds bound,getElem?_insertIdxIfInBounds bound,if_neg apart,
      if_neg apart]

theorem modify_eq_set (change : β → β) (placed : row[i]? = some x) :
    row.modify i change = row.setIfInBounds i (change x) := by
  have inside := (Array.getElem?_eq_some_iff.mp placed).1
  apply Array.ext_getElem?
  intro j
  rw [Array.getElem?_modify,Array.getElem?_setIfInBounds]
  by_cases here : i = j
  · subst here
    rw [if_pos rfl,if_pos rfl,if_pos inside,placed]
    rfl
  · rw [if_neg here,if_neg here]

theorem edge_found (answer : search node.selectors c = .found i) : edge node c = some (node,i) := by
  simp only [edge,answer]

theorem edge_vacant (ordered : node.Ordered) (answer : search node.selectors c = .vacant i) :
    edge node c = some (⟨node.value,node.selectors.insertIdxIfInBounds i c,
      node.children.insertIdxIfInBounds i .empty⟩,i) := by
  have bound := search_vacant answer
  have width : i ≤ node.children.size := ordered.parallel ▸ bound
  simp only [edge,answer,insertAt_eq bound,insertAt_eq width]
  rfl

theorem insert_eq (ordered : node.Ordered) (key : List Char) (value : α) :
    insert node key value = some (node.insert key value) := by
  induction key generalizing node with
  | nil => rfl
  | cons c rest ih =>
    cases answer : search node.selectors c with
    | found i =>
      obtain ⟨old,placed,reached⟩ := child?_of_found ordered answer
      have changed := ih (ordered.reached reached)
      have whole := modify_eq_set (fun child => child.insert rest value) placed
      simp only [insert,Trie.insert,edge_found answer,answer,Option.bind_eq_bind,Option.bind_some,placed,
        changed,whole]
      rfl
    | vacant i =>
      have width : i ≤ node.children.size := ordered.parallel ▸ search_vacant answer
      have changed := ih (ordered_empty (α := α))
      simp only [insert,Trie.insert,edge_vacant ordered answer,answer,Option.bind_eq_bind,Option.bind_some,
        getElem?_insertIdx_self width,changed,insertIdx_setIfInBounds width]
      rfl

theorem find_eq (ordered : node.Ordered) (key : List Char) : find node key = some (node.find? key) := by
  induction key generalizing node with
  | nil => rfl
  | cons c rest ih =>
    unfold find Trie.find?
    cases answer : search node.selectors c with
    | found i =>
      obtain ⟨old,placed,reached⟩ := child?_of_found ordered answer
      simp only [placed,Option.bind_some]
      exact ih (ordered.reached reached)
    | vacant i => rfl

theorem lookup_eq (ordered : node.Ordered) (source : List Char) (start stop : Nat) :
    lookup node source start stop = some (node.lookup source start stop) := by
  unfold lookup Trie.lookup
  cases Text.slice? source start stop with
  | none => rfl
  | some body => exact find_eq ordered body

theorem nameTrie_eq (V : Vocabulary) : nameTrie V = some V.nameTrie := by
  have built (list : List V.Action) {trie : Trie V.Action} (ordered : trie.Ordered) :
      list.foldlM (fun trie a => insert trie (V.name a).toList a) trie =
        some (list.foldl (fun trie a => trie.insert (V.name a).toList a) trie) := by
    induction list generalizing trie with
    | nil => rfl
    | cons a rest ih =>
      rw [List.foldlM_cons,insert_eq ordered]
      exact ih (ordered_insert ordered)
  exact built V.actions ordered_empty

end ActionStrings.Checked
