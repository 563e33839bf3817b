import Mathlib.Data.Set.Basic

/-!
# What happens on all runs

A system whose steps are not determined: `next s` holds the states that may follow `s`, and `none`
if a step from `s` may fail. `AllUntil next I P s` says that, however the steps go, none of them
fails, that there always is one, that `I` holds on the way, and that `P` holds after finitely many.
-/

namespace AllRuns

variable {σ : Type} {next : σ → Set (Option σ)} {I I' P P' : σ → Prop} {s : σ}

/-- On every run `I` until `P`, and `P` comes. -/
inductive AllUntil (next : σ → Set (Option σ)) (I P : σ → Prop) : σ → Prop
  | done {s : σ} : P s → AllUntil next I P s
  | step {s : σ} : I s → (next s).Nonempty → none ∉ next s →
      (∀ t, some t ∈ next s → AllUntil next I P t) → AllUntil next I P s

theorem AllUntil.mono (h : AllUntil next I P s) (hI : ∀ s, I s → I' s) (hP : ∀ s, P s → P' s) :
    AllUntil next I' P' s := by
  induction h with
  | done hp => exact .done (hP _ hp)
  | step hi hne hnone _ ih => exact .step (hI _ hi) hne hnone ih

/-- Where `I` rules the end out, two ends that come are the same. -/
theorem AllUntil.exists_both (h : AllUntil next I P s) (h' : AllUntil next I P' s)
    (hP : ∀ s, P s → ¬ I s) (hP' : ∀ s, P' s → ¬ I s) : ∃ t, P t ∧ P' t := by
  induction h with
  | @done s hp =>
    cases h' with
    | done hp' => exact ⟨s, hp, hp'⟩
    | step hi => exact absurd hi (hP s hp)
  | @step s hi hne hnone _ ih =>
    cases h' with
    | done hp' => exact absurd hi (hP' s hp')
    | step _ _ _ hnext =>
      obtain ⟨o, ho⟩ := hne
      cases o with
      | none => exact absurd ho hnone
      | some t => exact ih t ho (hnext t ho)

/-- What a step from `J` must do: it does not fail, and leads to `P` or to `J` with a smaller
variant. -/
structure Decreases (next : σ → Set (Option σ)) (I P : σ → Prop) (J : Nat → σ → Prop) (n : Nat)
    (s : σ) : Prop where
  safe : I s
  enabled : (next s).Nonempty
  outcome : ∀ o ∈ next s, ∃ t, o = some t ∧ (P t ∨ ∃ m < n, J m t)

theorem allUntil_of_decreases {J : Nat → σ → Prop}
    (hstep : ∀ n s, J n s → Decreases next I P J n s) :
    ∀ (n : Nat) (s : σ), J n s → AllUntil next I P s := by
  intro n
  induction n using Nat.strong_induction_on with
  | _ n ih =>
    intro s hs
    obtain ⟨hi, hne, hout⟩ := hstep n s hs
    refine .step hi hne (fun hnone => ?_) fun t ht => ?_
    · obtain ⟨t, ht, -⟩ := hout none hnone
      simp at ht
    · obtain ⟨t', ht', hnext⟩ := hout _ ht
      obtain rfl := Option.some.inj ht'
      rcases hnext with hp | ⟨m, hm, hj⟩
      · exact .done hp
      · exact ih m hm t hj

end AllRuns
