import ActionStrings.Proofs.TrieShape
import Mathlib.Data.Finset.Card
import Mathlib.Data.List.Infix

namespace ActionStrings.Trie

variable {α : Type} {node child : Trie α} {edge : Char × Trie α} {c : Char} {key path rest : List Char}
  {keys : List (List Char)} {rows : List (List Char × α)} {value : α}

theorem mem_children_of_edge (member : edge ∈ node.edges) : edge.2 ∈ node.children :=
  Array.mem_toList_iff.mp (List.of_mem_zip member).2

theorem sizeOf_edge (member : edge ∈ node.edges) : sizeOf edge.2 < sizeOf node := by
  have smaller := Array.sizeOf_lt_of_mem (mem_children_of_edge member)
  cases node
  simp only [Trie.mk.sizeOf_spec] at *
  omega

def paths (node : Trie α) : List (List Char) :=
  [] :: node.edges.attach.flatMap fun edge => edge.1.2.paths.map (List.cons edge.1.1)
termination_by sizeOf node
decreasing_by exact sizeOf_edge edge.2

theorem paths_eq (node : Trie α) :
    node.paths = [] :: node.edges.flatMap fun edge => edge.2.paths.map (List.cons edge.1) := by
  rw [paths,List.flatMap_subtype (g := fun edge => edge.2.paths.map (List.cons edge.1)) fun _ _ => rfl,
    List.unattach_attach]

theorem nil_mem_paths (node : Trie α) : [] ∈ node.paths := by
  rw [paths_eq]
  exact List.mem_cons_self

theorem cons_mem_paths : c :: rest ∈ node.paths ↔ ∃ child, (c,child) ∈ node.edges ∧ rest ∈ child.paths := by
  rw [paths_eq]
  simp only [List.mem_cons,reduceCtorEq,false_or,List.mem_flatMap,List.mem_map,List.cons.injEq]
  constructor
  · rintro ⟨⟨d,child⟩,member,tail,inside,rfl,rfl⟩
    exact ⟨child,member,inside⟩
  · rintro ⟨child,member,inside⟩
    exact ⟨(c,child),member,rest,inside,rfl,rfl⟩

theorem mem_paths (ordered : Ordered node) : path ∈ node.paths ↔ node.Reaches path := by
  induction path generalizing node with
  | nil => exact iff_of_true node.nil_mem_paths trivial
  | cons c rest ih =>
    rw [cons_mem_paths,Reaches]
    refine exists_congr fun child => ?_
    rw [ordered.edge_iff]
    exact and_congr_right fun reached => ih (ordered.reached reached)

-- Two edges have different selectors, so no path is listed below both.
theorem nodup_paths (ordered : Ordered node) : node.paths.Nodup := by
  induction ordered with
  | @node held selectors children ascending parallel below ih =>
    have whole : Ordered ⟨held,selectors,children⟩ := .node ascending parallel below
    rw [paths_eq,List.nodup_cons,List.nodup_flatMap]
    refine ⟨?_,?_,?_⟩
    · simp only [List.mem_flatMap,List.mem_map,reduceCtorEq,and_false,exists_false,not_false_eq_true]
    · intro edge member
      exact (ih edge.2 (mem_children_of_edge member)).map (List.cons_injective)
    · apply whole.edges_ascending.imp
      intro first second before path inFirst inSecond
      obtain ⟨_,_,rfl⟩ := List.mem_map.mp inFirst
      obtain ⟨_,_,same⟩ := List.mem_map.mp inSecond
      rw [(List.cons.inj same).1] at before
      exact Char.lt_irrefl _ before

theorem length_below (edges : List (Char × Trie α))
    (counted : ∀ edge ∈ edges, edge.2.paths.length = edge.2.nodeCount) :
    (edges.flatMap fun edge => edge.2.paths.map (List.cons edge.1)).length + 1 =
      (edges.map Prod.snd).foldr (fun child total => child.nodeCount + total) 1 := by
  induction edges with
  | nil => rfl
  | cons edge rest ih =>
    obtain ⟨first,later⟩ := List.forall_mem_cons.mp counted
    have below := ih later
    rw [List.flatMap_cons,List.length_append,List.length_map,first,List.map_cons,List.foldr_cons]
    omega

theorem length_paths (ordered : Ordered node) : node.paths.length = node.nodeCount := by
  induction ordered with
  | @node held selectors children ascending parallel below ih =>
    have whole : Ordered ⟨held,selectors,children⟩ := .node ascending parallel below
    rw [paths_eq,nodeCount_eq,List.length_cons,← whole.map_snd_edges]
    apply length_below
    intro edge member
    exact ih edge.2 (mem_children_of_edge member)

-- All beginnings of the keys, the empty one among them even where there is no key.
def prefixes (keys : List (List Char)) : Finset (List Char) := {[]} ∪ (keys.flatMap List.inits).toFinset

theorem mem_prefixes : path ∈ prefixes keys ↔ path = [] ∨ ∃ key ∈ keys, path <+: key := by
  simp only [prefixes,Finset.mem_union,Finset.mem_singleton,List.mem_toFinset,List.mem_flatMap,List.mem_inits]

theorem nil_mem_prefixes (keys : List (List Char)) : [] ∈ prefixes keys := mem_prefixes.mpr (.inl rfl)

theorem prefixes_concat (keys : List (List Char)) (key : List Char) :
    prefixes (keys ++ [key]) = prefixes keys ∪ key.inits.toFinset := by
  simp only [prefixes,List.flatMap_append,List.flatMap_singleton,List.toFinset_append,Finset.union_assoc]

theorem inits_subset_prefixes : key.inits.toFinset ⊆ prefixes keys ↔ key ∈ prefixes keys := by
  constructor
  · intro inside
    apply inside
    rw [List.mem_toFinset,List.mem_inits]
  · intro member path begins
    rw [List.mem_toFinset,List.mem_inits] at begins
    rcases mem_prefixes.mp member with rfl | ⟨longer,present,within⟩
    · exact mem_prefixes.mpr (.inl (List.prefix_nil.mp begins))
    · exact mem_prefixes.mpr (.inr ⟨longer,present,begins.trans within⟩)

theorem card_prefixes_concat : (prefixes (keys ++ [key])).card = (prefixes keys).card ↔ key ∈ prefixes keys := by
  rw [prefixes_concat,← inits_subset_prefixes]
  constructor
  · intro same
    have whole := Finset.eq_of_subset_of_card_le Finset.subset_union_left (Nat.le_of_eq same)
    exact Finset.union_eq_left.mp whole.symm
  · intro inside
    rw [Finset.union_eq_left.mpr inside]

theorem card_prefixes_eq_one_iff : (prefixes keys).card = 1 ↔ ∀ key ∈ keys, key = [] := by
  constructor
  · intro single key present
    have member : key ∈ prefixes keys := mem_prefixes.mpr (.inr ⟨key,present,List.prefix_refl key⟩)
    exact Finset.card_le_one.mp (Nat.le_of_eq single) key member [] (nil_mem_prefixes keys)
  · intro empties
    rw [Finset.card_eq_one]
    refine ⟨[],Finset.eq_singleton_iff_unique_mem.mpr ⟨nil_mem_prefixes keys,?_⟩⟩
    intro path member
    rcases mem_prefixes.mp member with same | ⟨key,present,begins⟩
    · exact same
    · rw [empties key present] at begins
      exact List.prefix_nil.mp begins

theorem nodeCount_grown (rows : List (List Char × α)) :
    (empty.insertAll rows).nodeCount = (prefixes (rows.map Prod.fst)).card := by
  have ordered : Ordered (empty.insertAll rows) := ordered_insertAll ordered_empty rows
  have listed : (empty.insertAll rows).paths.toFinset = prefixes (rows.map Prod.fst) := by
    ext path
    rw [List.mem_toFinset,mem_paths ordered,reaches_grown,mem_prefixes]
  rw [← length_paths ordered,← listed,List.toFinset_card_of_nodup (nodup_paths ordered)]

theorem insert_grown (rows : List (List Char × α)) (key : List Char) (value : α) :
    (empty.insertAll rows).insert key value = empty.insertAll (rows ++ [(key,value)]) := by
  rw [insertAll,insertAll,List.foldl_append]
  rfl

-- There is one node for each beginning of a key and no other, so a key that begins a present one adds none.
theorem nodeCount_counts_prefixes (rows : List (List Char × α)) :
    (empty.insertAll rows).nodeCount = (prefixes (rows.map Prod.fst)).card ∧
    ((empty.insertAll rows).nodeCount = 1 ↔ ∀ row ∈ rows, row.1 = []) ∧
    ∀ key value, ((empty.insertAll rows).insert key value).nodeCount = (empty.insertAll rows).nodeCount ↔
      key = [] ∨ ∃ row ∈ rows, key <+: row.1 := by
  have counted := nodeCount_grown rows
  refine ⟨counted,?_,?_⟩
  · rw [counted,card_prefixes_eq_one_iff]
    exact List.forall_mem_map
  · intro key value
    have within : key ∈ prefixes (rows.map Prod.fst) ↔ key = [] ∨ ∃ row ∈ rows, key <+: row.1 := by
      simp only [mem_prefixes,List.mem_map,exists_exists_and_eq_and]
    rw [insert_grown,nodeCount_grown,counted,List.map_append,← within]
    exact card_prefixes_concat

example : (empty.insertAll [(['a','b'],0),(['a','c'],1)]).nodeCount = 4 := by cbv

end ActionStrings.Trie
