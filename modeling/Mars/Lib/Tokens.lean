import Mathlib.Logic.Function.Basic
import Mathlib.Tactic.Common

/-!
# Tokens in places

Each place has at most one token, and no token is in two places: tokens can come in, move from
place to place and get lost, but not be copied.
-/

namespace Mars.Lib.Tokens

open Function

variable {P T : Type*}

/-- No token is in two places. -/
def Once (f : P → Option T) : Prop := ∀ p q t, f p = some t → f q = some t → p = q

/-- Every token that is in a place satisfies the predicate. -/
def All (R : T → Prop) (f : P → Option T) : Prop := ∀ p t, f p = some t → R t

variable {f g : P → Option T} {p q : P} {t : T} {R R' : T → Prop}

lemma Once.of_le (h : Once f) (hle : ∀ p t, g p = some t → f p = some t) : Once g :=
  fun p q t hp hq => h p q t (hle p t hp) (hle q t hq)

lemma All.of_le (h : All R f) (hle : ∀ p t, g p = some t → f p = some t) : All R g :=
  fun p t hp => h p t (hle p t hp)

lemma All.mono (h : All R f) (hR : ∀ t, R t → R' t) : All R' f :=
  fun p t hp => hR t (h p t hp)

variable [DecidableEq P]

lemma update_none_le (f : P → Option T) (p q : P) (t : T)
    (h : update f p none q = some t) : q ≠ p ∧ f q = some t := by
  by_cases hq : q = p
  · rw [hq, update_self] at h
    cases h
  · rw [update_of_ne hq] at h
    exact ⟨hq, h⟩

lemma Once.put (h : Once f) (ht : ∀ q, q ≠ p → f q ≠ some t) : Once (update f p (some t)) := by
  have hput : ∀ q t', update f p (some t) q = some t' →
      (q = p ∧ t' = t) ∨ (q ≠ p ∧ f q = some t') := by
    intro q t' hq
    by_cases hqp : q = p
    · rw [hqp, update_self, Option.some.injEq] at hq
      exact .inl ⟨hqp, hq.symm⟩
    · rw [update_of_ne hqp] at hq
      exact .inr ⟨hqp, hq⟩
  intro q r t' hq hr
  rcases hput q t' hq with ⟨hqp, rfl⟩ | ⟨hqp, hq'⟩
  · rcases hput r t' hr with ⟨hrp, -⟩ | ⟨hrp, hr'⟩
    · rw [hqp, hrp]
    · exact absurd hr' (ht r hrp)
  · rcases hput r t' hr with ⟨-, rfl⟩ | ⟨-, hr'⟩
    · exact absurd hq' (ht q hqp)
    · exact h q r t' hq' hr'

lemma All.put (h : All R f) (ht : R t) : All R (update f p (some t)) := by
  intro q t' hq
  by_cases hqp : q = p
  · rw [hqp, update_self, Option.some.injEq] at hq
    exact hq ▸ ht
  · rw [update_of_ne hqp] at hq
    exact h q t' hq

/-- A token goes to another place; the one that was there gets lost. -/
lemma Once.move (h : Once f) (hp : f p = some t) (q : P) :
    Once (update (update f p none) q (some t)) := by
  have hdrop := h.of_le fun r t' hr => (update_none_le f p r t' hr).2
  refine hdrop.put fun r _ hr => ?_
  obtain ⟨hrp, hr⟩ := update_none_le f p r t hr
  exact hrp (h r p t hr hp)

lemma All.move (h : All R f) (hp : f p = some t) (q : P) :
    All R (update (update f p none) q (some t)) :=
  All.put (h.of_le fun r t' hr => (update_none_le f p r t' hr).2) (h p t hp)

end Mars.Lib.Tokens
