import ActionStrings.Proofs.TrieMap

namespace ActionStrings.Trie

variable {α : Type} {node child root : Trie α} {key : List Char} {value : α}

-- A node of a tree: the root, or one at or below a child of the root.
inductive Occurs : Trie α → Trie α → Prop
  | root {root : Trie α} : Occurs root root
  | beneath {node child root : Trie α} (member : child ∈ root.children) (inside : Occurs node child) :
      Occurs node root

-- No branch from here on ends without a value, the one that ends right here included.
inductive Fruitful : Trie α → Prop
  | node {value : Option α} {selectors : Array Char} {children : Array (Trie α)}
      (ends : children = #[] → value.isSome = true) (below : ∀ child ∈ children, Fruitful child) :
      Fruitful ⟨value,selectors,children⟩

theorem Fruitful.ends (fruitful : Fruitful node) : node.children = #[] → node.value.isSome = true := by
  cases fruitful; assumption
theorem Fruitful.children (fruitful : Fruitful node) : ∀ child ∈ node.children, Fruitful child := by
  cases fruitful; assumption

theorem no_child_of_empty {P : Trie α → Prop} : ∀ child ∈ (empty : Trie α).children, P child :=
  fun _ member => absurd member (Array.not_mem_empty _)

theorem Ordered.occurs (ordered : Ordered root) (inside : Occurs node root) : Ordered node := by
  induction inside with
  | root => exact ordered
  | beneath member _ ih => exact ih (ordered.member member)

theorem Fruitful.occurs (fruitful : Fruitful root) (inside : Occurs node root) : Fruitful node := by
  induction inside with
  | root => exact fruitful
  | beneath member _ ih => exact ih (fruitful.children _ member)

theorem Fruitful.exists_leaf (fruitful : Fruitful node) :
    ∃ leaf, Occurs leaf node ∧ leaf.children = #[] ∧ leaf.value.isSome = true := by
  induction fruitful with
  | @node value selectors children ends below ih =>
    by_cases bare : children = #[]
    · exact ⟨_,.root,bare,ends bare⟩
    · obtain ⟨child,member⟩ := Array.exists_mem_of_ne_empty children bare
      obtain ⟨leaf,inside,final,held⟩ := ih child member
      exact ⟨leaf,.beneath member inside,final,held⟩

theorem fruitful_modify {i : Nat} (below : ∀ child ∈ node.children, Fruitful child)
    (inside : i < node.children.size) (change : Trie α → Trie α)
    (kept : ∀ old ∈ node.children, Fruitful (change old)) :
    Fruitful {node with children := node.children.modify i change} := by
  refine .node ?_ ?_
  · intro bare
    have size := congrArg Array.size bare
    rw [Array.size_modify,Array.size_empty] at size
    rw [size] at inside
    exact absurd inside (Nat.not_lt_zero i)
  · intro child member
    rcases mem_modify member with present | ⟨old,present,rfl⟩
    · exact below child present
    · exact kept old present

theorem fruitful_insertIdx {i : Nat} {selectors : Array Char} (below : ∀ child ∈ node.children, Fruitful child)
    (width : i ≤ node.children.size) (fresh : Fruitful child) :
    Fruitful ⟨node.value,selectors,node.children.insertIdxIfInBounds i child⟩ := by
  refine .node ?_ ?_
  · intro bare
    have member : child ∈ node.children.insertIdxIfInBounds i child :=
      (mem_insertIdxIfInBounds width).mpr (.inl rfl)
    rw [bare] at member
    exact absurd member (Array.not_mem_empty child)
  · intro inner member
    rcases (mem_insertIdxIfInBounds width).mp member with rfl | present
    · exact fresh
    · exact below inner present

-- A root may be bare before, but no node is afterwards; so a child that is new bears fruit as well.
theorem fruitful_insert (ordered : Ordered node) (below : ∀ child ∈ node.children, Fruitful child) :
    Fruitful (node.insert key value) := by
  induction key generalizing node with
  | nil => exact .node (fun _ => rfl) below
  | cons c rest ih =>
    rw [insert]
    cases answer : search node.selectors c with
    | found i =>
      obtain ⟨old,placed,_⟩ := child?_of_found ordered answer
      have inside : i < node.children.size := (Array.getElem?_eq_some_iff.mp placed).1
      exact fruitful_modify below inside _ fun old present =>
        ih (ordered.member present) (below old present).children
    | vacant i =>
      have width : i ≤ node.children.size := ordered.parallel ▸ search_vacant answer
      exact fruitful_insertIdx below width (ih ordered_empty no_child_of_empty)

theorem fruitful_insertAll (ordered : Ordered node) (below : ∀ child ∈ node.children, Fruitful child)
    (rows : List (List Char × α)) : ∀ child ∈ (node.insertAll rows).children, Fruitful child := by
  induction rows generalizing node with
  | nil => exact below
  | cons row rest ih => exact ih (ordered_insert ordered) (fruitful_insert ordered below).children

-- At every depth the selectors ascend, each with its child; and below the root nothing is dead.
theorem grown_wellFormed (rows : List (List Char × α)) :
    (∀ node, Occurs node (empty.insertAll rows) →
      Ascending node.selectors ∧ node.selectors.size = node.children.size) ∧
    ∀ child ∈ (empty.insertAll rows).children, ∀ node, Occurs node child →
      (node.children = #[] → node.value.isSome = true) ∧
      ∃ leaf, Occurs leaf node ∧ leaf.children = #[] ∧ leaf.value.isSome = true := by
  have ordered : Ordered (empty.insertAll rows) := ordered_insertAll ordered_empty rows
  have fruitful : ∀ child ∈ (empty.insertAll rows).children, Fruitful child :=
    fruitful_insertAll ordered_empty no_child_of_empty rows
  refine ⟨?_,?_⟩
  · intro node inside
    have there := ordered.occurs inside
    exact ⟨there.ascending,there.parallel⟩
  · intro child member node inside
    have there := (fruitful child member).occurs inside
    exact ⟨there.ends,there.exists_leaf⟩

example : (empty.insertAll [(['b'],0),(['a','c'],1),(['a'],2)]).selectors = #['a','b'] := by cbv

end ActionStrings.Trie
