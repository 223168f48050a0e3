import ActionStrings.Proofs.Encodings

namespace ActionStrings

def Sink.feed {V : Vocabulary} {σ : Type} (sink : Sink V σ) (seen : σ) (events : List (Event V.Action)) : σ :=
  events.foldl sink seen

-- The wildcard is every declared action, one after another in the order of the numbers.
def Vocabulary.itemize (V : Vocabulary) : Event V.Action → List (Event V.Action)
  | .named a => [.named a]
  | .everything => V.actions.map .named

namespace Sink

variable {V : Vocabulary} {σ : Type} {sink : Sink V σ} {w : Nat}

-- To such a sink the wildcard is only a short way of naming every action, whatever it holds already.
def Itemizes (sink : Sink V σ) : Prop := ∀ seen, sink seen .everything = sink.feed seen (V.itemize .everything)

theorem feed_cons (seen : σ) (event : Event V.Action) (rest : List (Event V.Action)) :
    sink.feed seen (event :: rest) = sink.feed (sink seen event) rest := rfl

theorem feed_append (seen : σ) (first second : List (Event V.Action)) :
    sink.feed seen (first ++ second) = sink.feed (sink.feed seen first) second := List.foldl_append

theorem Itemizes.event (itemizes : sink.Itemizes) (seen : σ) (event : Event V.Action) :
    sink.feed seen (V.itemize event) = sink seen event := by
  cases event with
  | named a => rfl
  | everything => exact (itemizes seen).symm

theorem Itemizes.feed (itemizes : sink.Itemizes) (seen : σ) (events : List (Event V.Action)) :
    sink.feed seen (events.flatMap V.itemize) = sink.feed seen events := by
  induction events generalizing seen with
  | nil => rfl
  | cons event rest ih => rw [List.flatMap_cons,feed_append,itemizes.event,ih,feed_cons]

theorem mem_feed {a : V.Action} (set : ActionSet V.size) (events : List (Event V.Action)) :
    a ∈ (Sink.set V).feed set events ↔ a ∈ set ∨ .named a ∈ events ∨ .everything ∈ events := by
  induction events generalizing set with
  | nil => simp [feed]
  | cons event rest ih =>
    rw [feed_cons,ih]
    cases event with
    | named b => simp [Sink.set,or_assoc,or_left_comm]
    | everything => simp [Sink.set]

theorem feed_or (left right : Mask w) (events : List (Event V.Action)) :
    (Sink.mask V w).feed (left ||| right) events = left ||| (Sink.mask V w).feed right events := by
  induction events generalizing right with
  | nil => rfl
  | cons event rest ih =>
    have onward : Sink.mask V w (left ||| right) event = left ||| Sink.mask V w right event := by
      cases event <;> exact BitVec.or_assoc ..
    rw [feed_cons,onward,ih,feed_cons]

end Sink

namespace Vocabulary

variable {V : Vocabulary} {w : Nat} {set : ActionSet V.size} {mask : Mask w}

theorem Encodes.feed (indexed : V.Indexed) (holds : V.Encodes set mask) (events : List (Event V.Action)) :
    V.Encodes ((Sink.set V).feed set events) ((Sink.mask V w).feed mask events) := by
  induction events generalizing set mask with
  | nil => exact holds
  | cons event rest ih => exact ih (holds.take indexed event)

theorem itemizes_set : (Sink.set V).Itemizes := by
  intro set
  apply ActionSet.ext
  intro a
  have named : .named a ∈ V.itemize .everything := List.mem_map_of_mem (List.mem_finRange a)
  rw [Sink.mem_feed]
  exact iff_of_true ActionSet.mem_all (.inr (.inl named))

theorem itemizes_mask (indexed : V.Indexed) (w : Nat) : (Sink.mask V w).Itemizes := by
  intro mask
  have named : V.Encodes .all ((Sink.mask V w).feed 0#w (V.itemize .everything)) := by
    have fed := encodes_empty.feed (w := w) indexed (V.itemize .everything)
    rwa [← itemizes_set] at fed
  have low : V.Encodes .all (Mask.lowBits w V.size) := by
    have taken := encodes_empty.everything (w := w) indexed
    rwa [BitVec.zero_or] at taken
  calc mask ||| Mask.lowBits w V.size
      = mask ||| (Sink.mask V w).feed 0#w (V.itemize .everything) := by rw [low.unique named]
    _ = (Sink.mask V w).feed mask (V.itemize .everything) := by rw [← Sink.feed_or,BitVec.or_zero]

-- Neither the set nor the word can tell the wildcard from all the names, whatever came before it, and
-- at every point of a history both hold what has been named by then.
theorem feed_itemized (indexed : V.Indexed) (w : Nat) (events : List (Event V.Action)) :
    (∀ set, (Sink.set V).feed set (events.flatMap V.itemize) = (Sink.set V).feed set events) ∧
    (∀ mask, (Sink.mask V w).feed mask (events.flatMap V.itemize) = (Sink.mask V w).feed mask events) ∧
    ∀ before, before <+: events →
      (∀ a, a ∈ (Sink.set V).feed .empty before ↔ .named a ∈ before ∨ .everything ∈ before) ∧
      V.Encodes ((Sink.set V).feed .empty before) ((Sink.mask V w).feed 0#w before) := by
  refine ⟨fun set => itemizes_set.feed set events,fun mask => (itemizes_mask indexed w).feed mask events,?_⟩
  intro before _
  refine ⟨fun a => ?_,encodes_empty.feed indexed before⟩
  rw [Sink.mem_feed]
  exact or_iff_right ActionSet.not_mem_empty

theorem feed_itemized_wrapped :
    let V := ofNames "letter" ((List.range 40).map fun i => (String.singleton (Char.ofNat (65 + i)),"Letter"))
    let late : Event V.Action := .named ⟨35,by decide⟩
    let events := [late,.everything,late]
    V.Indexed ∧ (Sink.mask V 32).feed 0#32 (events.flatMap V.itemize) = 0xFFFFFFFF#32 ∧
    [late] <+: events ∧ V.Encodes ((Sink.set V).feed .empty [late]) 0b1000#32 := by
  intro V late events
  have indexed : V.Indexed := indexed_ofNames _ _
  have start : [late] <+: events := ⟨_,rfl⟩
  obtain ⟨_,masked,throughout⟩ := feed_itemized indexed 32 events
  have whole : (Sink.mask V 32).feed 0#32 events = 0xFFFFFFFF#32 := by decide +kernel
  have single : (Sink.mask V 32).feed 0#32 [late] = 0b1000#32 := by decide +kernel
  exact ⟨indexed,(masked 0#32).trans whole,start,single ▸ (throughout [late] start).2⟩

end Vocabulary

end ActionStrings
