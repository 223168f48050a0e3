import ActionStrings.Encoding

namespace ActionStrings

structure Codec (σ : Type) where
  parse : String → Except Error σ
  write : σ → Except Error String

structure RoundTrip (σ : Type) where
  canonical : String
  again : Except Error σ

namespace Codec

def set (V : Vocabulary) : Codec (ActionSet V.size) := ⟨V.parseSet,fun gathered => .ok (V.canonicalSet gathered)⟩

def mask (V : Vocabulary) (w : Nat) (policy : Policy) : Codec (Mask w) := ⟨V.parseMask w policy,V.canonicalMask⟩

variable {σ : Type}

def roundTrip (codec : Codec σ) (input : String) : Except Error (RoundTrip σ) :=
  match codec.parse input with
  | .error error => .error error
  | .ok value =>
    match codec.write value with
    | .error error => .error error
    | .ok canonical => .ok ⟨canonical,codec.parse canonical⟩

def Fixes (codec : Codec σ) (input : String) : Prop :=
  ∃ value, codec.parse input = .ok value ∧ codec.write value = .ok input

def Restores (codec : Codec σ) : Prop :=
  ∀ input value, codec.parse input = .ok value → ∃ text, codec.write value = .ok text ∧ codec.parse text = .ok value

variable {codec : Codec σ} {input text : String} {value : σ}

theorem roundTrip_ok (read : codec.parse input = .ok value) (written : codec.write value = .ok text) :
    codec.roundTrip input = .ok ⟨text,codec.parse text⟩ := by
  simp only [roundTrip,read,written]

theorem roundTrip_parts {trip : RoundTrip σ} (done : codec.roundTrip input = .ok trip) :
    ∃ value, codec.parse input = .ok value ∧ codec.write value = .ok trip.canonical ∧
      trip.again = codec.parse trip.canonical := by
  unfold roundTrip at done
  cases read : codec.parse input with
  | error error =>
    rw [read] at done
    cases done
  | ok value =>
    simp only [read] at done
    cases written : codec.write value with
    | error error =>
      rw [written] at done
      cases done
    | ok canonical =>
      rw [written] at done
      cases done
      exact ⟨value,rfl,written,rfl⟩

theorem fixes_iff_roundTrip : codec.Fixes input ↔ ∃ again, codec.roundTrip input = .ok ⟨input,again⟩ := by
  constructor
  · intro ⟨value,read,written⟩
    exact ⟨_,roundTrip_ok read written⟩
  · intro ⟨again,done⟩
    obtain ⟨value,read,written,_⟩ := roundTrip_parts done
    exact ⟨value,read,written⟩

-- Where what is read is restored, a round trip fails only in its first step, and a second one changes
-- nothing.
theorem Restores.roundTrip_exact (restores : codec.Restores) (input : String) :
    match codec.parse input with
    | .error error => codec.roundTrip input = .error error
    | .ok value => ∃ text, codec.roundTrip input = .ok ⟨text,.ok value⟩ ∧ codec.Fixes text := by
  cases read : codec.parse input with
  | error error => simp only [roundTrip,read]
  | ok value =>
    obtain ⟨text,written,again⟩ := restores input value read
    have done := roundTrip_ok read written
    rw [again] at done
    exact ⟨text,done,value,again,written⟩

end Codec

end ActionStrings
