import ActionStrings.Proofs.LastEntered
import Mathlib.Logic.Basic

namespace ActionStrings.Trie

variable {α : Type} {node child left right : Trie α} {c : Char} {key path : List Char} {value : α}
  {rows others : List (List Char × α)}

def edges (node : Trie α) : List (Char × Trie α) := node.selectors.toList.zip node.children.toList

theorem mem_edges_iff : (c,child) ∈ node.edges ↔
    ∃ i : Nat, node.selectors[i]? = some c ∧ node.children[i]? = some child := by
  rw [edges,List.mem_iff_getElem?]
  refine exists_congr fun i => ?_
  rw [List.getElem?_zip_eq_some,Array.getElem?_toList,Array.getElem?_toList]

theorem Ordered.edge_iff (ordered : Ordered node) : (c,child) ∈ node.edges ↔ node.child? c = some child :=
  mem_edges_iff.trans (child?_eq_some_iff ordered.ascending).symm

theorem Ordered.map_fst_edges (ordered : Ordered node) : node.edges.map Prod.fst = node.selectors.toList :=
  List.map_fst_zip (Nat.le_of_eq ordered.parallel)

theorem Ordered.map_snd_edges (ordered : Ordered node) : node.edges.map Prod.snd = node.children.toList :=
  List.map_snd_zip (Nat.le_of_eq ordered.parallel.symm)

theorem Ordered.edges_ascending (ordered : Ordered node) :
    node.edges.Pairwise fun first second => first.1 < second.1 := by
  apply List.pairwise_map.mp
  rw [ordered.map_fst_edges]
  exact ordered.ascending

theorem Ordered.nodup_edges (ordered : Ordered node) : node.edges.Nodup := by
  apply ordered.edges_ascending.imp
  rintro first second before rfl
  exact Char.lt_irrefl _ before

theorem Ordered.eq_of_edges (first : Ordered left) (second : Ordered right)
    (held : left.value = right.value) (same : left.edges = right.edges) : left = right := by
  have labels : left.selectors.toList = right.selectors.toList := by
    rw [← first.map_fst_edges,same,second.map_fst_edges]
  have below : left.children.toList = right.children.toList := by
    rw [← first.map_snd_edges,same,second.map_snd_edges]
  cases left
  cases right
  cases held
  cases Array.toList_inj.mp labels
  cases Array.toList_inj.mp below
  rfl

theorem Ordered.eq_of_child? (first : Ordered left) (second : Ordered right)
    (held : left.value = right.value) (led : ∀ c, left.child? c = right.child? c) : left = right := by
  apply first.eq_of_edges second held
  refine List.Perm.eq_of_pairwise ?_ first.edges_ascending second.edges_ascending ?_
  · intro a b _ _ before after
    exact absurd after (Char.lt_asymm before)
  · apply (List.perm_ext_iff_of_nodup first.nodup_edges second.nodup_edges).mpr
    rintro ⟨c,child⟩
    rw [first.edge_iff,second.edge_iff,led c]

def Reaches (node : Trie α) : List Char → Prop
  | [] => True
  | c :: rest => ∃ child, node.child? c = some child ∧ child.Reaches rest

theorem reaches_cons_some {rest : List Char} (reached : node.child? c = some child) :
    node.Reaches (c :: rest) ↔ child.Reaches rest := by
  simp only [Reaches,reached,Option.some.injEq,exists_eq_left']

theorem not_reaches_cons {rest : List Char} (missing : node.child? c = none) : ¬node.Reaches (c :: rest) := by
  rintro ⟨child,reached,_⟩
  rw [missing] at reached
  cases reached

theorem reaches_empty : (empty : Trie α).Reaches path ↔ path = [] := by
  cases path with
  | nil => exact iff_of_true trivial rfl
  | cons c rest => exact iff_of_false (not_reaches_cons child?_empty) (List.cons_ne_nil c rest)

theorem reaches_insert (ordered : Ordered node) :
    (node.insert key value).Reaches path ↔ path <+: key ∨ node.Reaches path := by
  induction key generalizing node path with
  | nil =>
    cases path with
    | nil => exact iff_of_true trivial (.inr trivial)
    | cons d tail =>
      have unmoved : (node.insert [] value).Reaches (d :: tail) ↔ node.Reaches (d :: tail) := Iff.rfl
      rw [unmoved,List.prefix_nil]
      exact (or_iff_right (List.cons_ne_nil d tail)).symm
  | cons c rest ih =>
    cases path with
    | nil => exact iff_of_true trivial (.inr trivial)
    | cons d tail =>
      have led : (node.insert (c :: rest) value).child? d = _ := child?_insert ordered
      rw [List.cons_prefix_cons]
      by_cases same : d = c
      · subst same
        rw [if_pos rfl] at led
        rw [reaches_cons_some led]
        cases reached : node.child? d with
        | none =>
          have absent : ¬node.Reaches (d :: tail) := not_reaches_cons reached
          rw [Option.getD_none,ih ordered_empty,reaches_empty]
          simp only [absent,true_and,or_false,or_iff_left_iff_imp]
          rintro rfl
          exact List.nil_prefix
        | some child =>
          rw [Option.getD_some,ih (ordered.reached reached),reaches_cons_some reached]
          simp only [true_and]
      · rw [if_neg same] at led
        simp only [Reaches,led,same,false_and,false_or]

theorem reaches_insertAll (ordered : Ordered node) (rows : List (List Char × α)) :
    (node.insertAll rows).Reaches path ↔ (∃ row ∈ rows, path <+: row.1) ∨ node.Reaches path := by
  induction rows generalizing node with
  | nil => exact (or_iff_right (by rintro ⟨row,member,_⟩; cases member)).symm
  | cons row rest ih =>
    have later : (node.insertAll (row :: rest)).Reaches path ↔ _ := ih (ordered_insert ordered)
    rw [later,reaches_insert ordered,← or_assoc,or_comm (a := ∃ row ∈ rest, path <+: row.1)]
    simp only [List.mem_cons,exists_eq_or_imp]

-- Below the root every node stands for a beginning of some key, and each of these has its node.
theorem reaches_grown : (empty.insertAll rows).Reaches path ↔
    path = [] ∨ ∃ key ∈ rows.map Prod.fst, path <+: key := by
  rw [reaches_insertAll ordered_empty,reaches_empty,or_comm]
  simp only [List.mem_map,exists_exists_and_eq_and]

-- Which nodes there are and what is found at them decides the whole tree.
theorem Ordered.ext (first : Ordered left) (second : Ordered right)
    (paths : ∀ path, left.Reaches path ↔ right.Reaches path)
    (values : ∀ key, left.find? key = right.find? key) : left = right := by
  induction first generalizing right with
  | @node held selectors children ascending parallel below ih =>
    have whole : Ordered ⟨held,selectors,children⟩ := .node ascending parallel below
    refine whole.eq_of_child? second (values []) ?_
    intro c
    cases here : child? ⟨held,selectors,children⟩ c with
    | none =>
      cases there : right.child? c with
      | none => rfl
      | some other => exact absurd ((paths [c]).mpr ⟨other,there,trivial⟩) (not_reaches_cons here)
    | some child =>
      obtain ⟨other,there,_⟩ := (paths [c]).mp ⟨child,here,trivial⟩
      obtain ⟨i,_,placed⟩ := (child?_eq_some_iff ascending).mp here
      have same : child = other := by
        apply ih child (Array.mem_of_getElem? placed) (second.reached there)
        · intro rest
          rw [← reaches_cons_some here,← reaches_cons_some there]
          exact paths (c :: rest)
        · intro key
          have found := values (c :: key)
          rwa [find?_cons,find?_cons,here,there] at found
      rw [there,same]

structure Agree (rows others : List (List Char × α)) : Prop where
  keys : ∀ key, key ∈ rows.map Prod.fst ↔ key ∈ others.map Prod.fst
  latest : ∀ key value value', Latest rows key value → Latest others key value' → value = value'

theorem mem_keys_iff : key ∈ rows.map Prod.fst ↔ (lastRow? rows key).isSome = true := by
  rw [Option.isSome_iff_ne_none,ne_eq,lastRow?_eq_none_iff]
  simp only [List.mem_map,ne_eq,not_forall,not_not,exists_prop]

theorem Agree.lastRow? (agree : Agree rows others) (key : List Char) :
    Trie.lastRow? rows key = Trie.lastRow? others key := by
  have listed := agree.keys key
  rw [mem_keys_iff,mem_keys_iff] at listed
  cases here : Trie.lastRow? rows key with
  | none =>
    cases there : Trie.lastRow? others key with
    | none => rfl
    | some value' =>
      rw [here,there] at listed
      cases listed.mpr rfl
  | some value =>
    cases there : Trie.lastRow? others key with
    | none =>
      rw [here,there] at listed
      cases listed.mp rfl
    | some value' =>
      have same := agree.latest key value value' (lastRow?_eq_some_iff.mp here) (lastRow?_eq_some_iff.mp there)
      exact congrArg some same

theorem agree_of_lastRow? (same : ∀ key, lastRow? rows key = lastRow? others key) : Agree rows others := by
  refine ⟨?_,?_⟩
  · intro key
    rw [mem_keys_iff,mem_keys_iff,same key]
  · intro key value value' here there
    have found := lastRow?_eq_some_iff.mpr here
    rw [same key,lastRow?_eq_some_iff.mpr there] at found
    exact (Option.some.inj found).symm

-- Neither the order of the insertions nor what was overwritten leaves a mark on the tree.
theorem grown_eq_iff_agree (rows others : List (List Char × α)) :
    empty.insertAll rows = empty.insertAll others ↔ Agree rows others := by
  constructor
  · intro same
    apply agree_of_lastRow?
    intro key
    rw [← find?_grown,same,find?_grown]
  · intro agree
    refine (ordered_insertAll ordered_empty rows).ext (ordered_insertAll ordered_empty others) ?_ ?_
    · intro path
      rw [reaches_grown,reaches_grown]
      simp only [agree.keys]
    · intro key
      rw [find?_grown,find?_grown]
      exact agree.lastRow? key

end ActionStrings.Trie
