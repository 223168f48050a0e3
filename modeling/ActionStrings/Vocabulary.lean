import ActionStrings.Trie

namespace ActionStrings

structure Entry where
  name : String
  ordinal : Nat
  label : String

-- The actions of one kind of resource, in the order of their declaration. Nothing is asked of
-- the names here: they may repeat, be empty, or hold separators.
structure Vocabulary where
  title : String
  entries : List Entry

namespace Vocabulary

def ofNames (title : String) (names : List (String × String)) : Vocabulary :=
  ⟨title,names.mapIdx fun i row => ⟨row.1,i,row.2⟩⟩

def size (V : Vocabulary) : Nat := V.entries.length

abbrev Action (V : Vocabulary) := Fin V.size

variable (V : Vocabulary)

def actions : List V.Action := List.finRange V.size

def entry (a : V.Action) : Entry := V.entries.get a
def name (a : V.Action) : String := (V.entry a).name
def ordinal (a : V.Action) : Nat := (V.entry a).ordinal
def label (a : V.Action) : String := (V.entry a).label

def action? (position : Nat) : Option V.Action :=
  if declared : position < V.size then some ⟨position,declared⟩ else none

def Indexed : Prop := ∀ a : V.Action, V.ordinal a = a

-- All names; where two actions share one, the action declared last holds it.
def nameTrie : Trie V.Action :=
  V.actions.foldl (fun trie a => trie.insert (V.name a).toList a) .empty

def find? (name : String) : Option V.Action := V.nameTrie.find? name.toList

theorem indexed_ofNames (title : String) (rows : List (String × String)) :
    (ofNames title rows).Indexed := fun a =>
  congrArg Entry.ordinal (List.getElem_mapIdx (i := a.val) (h := a.isLt))

end Vocabulary

end ActionStrings
