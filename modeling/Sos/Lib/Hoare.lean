import Mathlib.Logic.Basic

/-!
# Weakest preconditions for stateful programs that may fault

A program is an `EStateM ε σ α`: it reads and changes a state `σ` and either returns an `α` or
stops with a fault `ε`. The state at the fault is kept, so a postcondition can speak about it.

`Wp m s Q E` says of the one run of `m` from `s` that it ends in `Q` if it returns and in `E` if
it faults. The rules below turn `Wp` of a program text into `Wp` of its parts; a function that has
been dealt with once is used through its own `Wp` statement and `Wp.mono`.

* `wp_bind`, `wp_ite`, … : one rule for each way of building a program
* `Wp.mono`, `Wp.and`, `Wp.ok` : consequence, conjunction, and reading a result back
* `Returns` : programs that are known to return, and with what
* `wp_foldlM` : a loop over a list, from an invariant
* `Keeps` : programs that only move the state along a given relation
-/

namespace Hoare

variable {ε σ α β : Type}

/-- The run of `m` from `s` returns into `Q` or faults into `E`. -/
def Wp (m : EStateM ε σ α) (s : σ) (Q : α → σ → Prop) (E : ε → σ → Prop) : Prop :=
  match m s with
  | .ok a t => Q a t
  | .error e t => E e t

section Rules

variable {m : EStateM ε σ α} {f : α → EStateM ε σ β} {s t : σ} {a : α} {e : ε}
variable {Q Q' : α → σ → Prop} {E E' : ε → σ → Prop}

theorem wp_pure : Wp (pure a : EStateM ε σ α) s Q E ↔ Q a s := Iff.rfl

theorem wp_bind {Q : β → σ → Prop} :
    Wp (m >>= f) s Q E ↔ Wp m s (fun a t => Wp (f a) t Q E) E := by
  show (match (EStateM.bind m f) s with | .ok a t => Q a t | .error e t => E e t) ↔ _
  unfold Wp EStateM.bind
  cases m s <;> rfl

theorem wp_get {Q : σ → σ → Prop} : Wp (get : EStateM ε σ σ) s Q E ↔ Q s s := Iff.rfl

theorem wp_set {Q : PUnit → σ → Prop} : Wp (set t : EStateM ε σ PUnit) s Q E ↔ Q ⟨⟩ t := Iff.rfl

theorem wp_modify {g : σ → σ} {Q : PUnit → σ → Prop} :
    Wp (modify g : EStateM ε σ PUnit) s Q E ↔ Q ⟨⟩ (g s) := Iff.rfl

/-- The rules for `set` and `modify` with the new state under a name of its own. -/
theorem set_eq : Wp (set t : EStateM ε σ PUnit) s (fun _ u => u = t) E := rfl

theorem modify_eq {g : σ → σ} : Wp (modify g : EStateM ε σ PUnit) s (fun _ t => t = g s) E := rfl

theorem wp_throw : Wp (throw e : EStateM ε σ α) s Q E ↔ E e s := Iff.rfl

theorem wp_ite {c : Prop} [Decidable c] {m₁ m₂ : EStateM ε σ α} :
    Wp (if c then m₁ else m₂) s Q E ↔ (c → Wp m₁ s Q E) ∧ (¬ c → Wp m₂ s Q E) := by
  by_cases h : c <;> simp [h]

theorem wp_discard {Q : PUnit → σ → Prop} :
    Wp (discard m) s Q E ↔ Wp m s (fun _ t => Q ⟨⟩ t) E := by
  show Wp ((fun _ => PUnit.unit) <$> m) s Q E ↔ _
  rw [← bind_pure_comp, wp_bind]
  rfl

/-- Consequence. -/
theorem Wp.mono (h : Wp m s Q E) (hQ : ∀ a t, Q a t → Q' a t) (hE : ∀ e t, E e t → E' e t) :
    Wp m s Q' E' := by
  unfold Wp at h ⊢
  cases hm : m s with
  | ok a t => rw [hm] at h; exact hQ a t h
  | error e t => rw [hm] at h; exact hE e t h

/-- Consequence in the normal postcondition only. -/
theorem Wp.imp (h : Wp m s Q E) (hQ : ∀ a t, Q a t → Q' a t) : Wp m s Q' E :=
  h.mono hQ (fun _ _ h => h)

/-- Nothing is asked. -/
theorem Wp.trivial : Wp m s (fun _ _ => True) (fun _ _ => True) := by
  unfold Wp
  split <;> exact True.intro

theorem Wp.and (h : Wp m s Q E) (h' : Wp m s Q' E') :
    Wp m s (fun a t => Q a t ∧ Q' a t) (fun e t => E e t ∧ E' e t) := by
  unfold Wp at h h' ⊢
  cases hm : m s <;> rw [hm] at h h' <;> exact ⟨h, h'⟩

/-- What is known of a run that returned. -/
theorem Wp.ok (h : Wp m s Q E) (hm : m s = .ok a t) : Q a t := by
  unfold Wp at h
  rw [hm] at h
  exact h

/-- What is known of a run that faulted. -/
theorem Wp.error (h : Wp m s Q E) (hm : m s = .error e t) : E e t := by
  unfold Wp at h
  rw [hm] at h
  exact h

/-- A run is what it is. -/
theorem wp_run : Wp m s (fun a t => m s = .ok a t) (fun e t => m s = .error e t) := by
  unfold Wp
  split <;> assumption

theorem wp_of_ok (hm : m s = .ok a t) (h : Q a t) : Wp m s Q E := by
  unfold Wp
  rw [hm]
  exact h

theorem wp_of_error (hm : m s = .error e t) (h : E e t) : Wp m s Q E := by
  unfold Wp
  rw [hm]
  exact h

/-- A program whose faults are all excluded returns. -/
theorem Wp.returns (h : Wp m s Q (fun _ _ => False)) : ∃ a t, m s = .ok a t ∧ Q a t := by
  unfold Wp at h
  cases hm : m s with
  | ok a t => rw [hm] at h; exact ⟨a, t, rfl, h⟩
  | error e t => rw [hm] at h; exact h.elim

/-- A program that is known not to return faults. -/
theorem Wp.faults (h : Wp m s (fun _ _ => False) E) : ∃ e t, m s = .error e t ∧ E e t := by
  unfold Wp at h
  cases hm : m s with
  | ok a t => rw [hm] at h; exact h.elim
  | error e t => rw [hm] at h; exact ⟨e, t, rfl, h⟩

/-- Programs that begin in the same way and go on in the same way end in the same way. -/
theorem bind_congr {g : α → EStateM ε σ β}
    (h : Wp m s (fun a t => f a t = g a t) fun _ _ => True) : (m >>= f) s = (m >>= g) s := by
  show EStateM.bind m f s = EStateM.bind m g s
  unfold Wp at h
  unfold EStateM.bind
  cases hm : m s with
  | ok a t => rw [hm] at h; exact h
  | error e t => rfl

theorem bind_eq_of_eq {m' : EStateM ε σ α} (h : m s = m' t) : (m >>= f) s = (m' >>= f) t := by
  show EStateM.bind m f s = EStateM.bind m' f t
  unfold EStateM.bind
  rw [h]

/-- The run of `m` from `s` returns `a` in the state `t`. -/
abbrev Returns (m : EStateM ε σ α) (s : σ) (a : α) (t : σ) : Prop :=
  Wp m s (fun b u => b = a ∧ u = t) (fun _ _ => False)

theorem Returns.run (h : Returns m s a t) : m s = .ok a t := by
  obtain ⟨b, u, hm, rfl, rfl⟩ := Wp.returns h
  exact hm

theorem returns_of_run (hm : m s = .ok a t) : Returns m s a t := wp_of_ok hm ⟨rfl, rfl⟩

theorem Returns.wp_iff (h : Returns m s a t) : Wp m s Q E ↔ Q a t := by
  constructor
  · exact fun hw => hw.ok h.run
  · exact fun hq => wp_of_ok h.run hq

/-- What follows a program that returns. -/
theorem Returns.bind_iff {Q : β → σ → Prop} (h : Returns m s a t) :
    Wp (m >>= f) s Q E ↔ Wp (f a) t Q E := by
  rw [wp_bind]
  exact h.wp_iff

theorem Returns.bind_eq (h : Returns m s a t) : (m >>= f) s = f a t := by
  show EStateM.bind m f s = _
  unfold EStateM.bind
  rw [h.run]

end Rules

-- From here on programs are taken apart by the rules only, never by evaluating them.
attribute [irreducible] Wp

/-! ## Loops over a list -/

/-- A loop whose body keeps `I`, indexed by the items still to come, ends with no items left. -/
theorem wp_foldlM {γ : Type} {f : β → γ → EStateM ε σ β} {E : ε → σ → Prop}
    (I : List γ → β → σ → Prop)
    (step : ∀ x xs b s, I (x :: xs) b s → Wp (f b x) s (fun b' t => I xs b' t) E) :
    ∀ (xs : List γ) (b : β) (s : σ), I xs b s → Wp (xs.foldlM f b) s (I []) E
  | [], _, _, h => wp_pure.mpr h
  | x :: xs, b, s, h => by
    rw [List.foldlM_cons, wp_bind]
    exact (step x xs b s h).imp fun b' t h' => wp_foldlM I step xs b' t h'

/-! ## Programs that move along a relation -/

/-- However `m` ends, the state it ends in is related to the one it started from, and its faults
satisfy `F`. -/
def Keeps (R : σ → σ → Prop) (F : ε → Prop) (m : EStateM ε σ α) : Prop :=
  ∀ s, Wp m s (fun _ t => R s t) (fun e t => R s t ∧ F e)

namespace Keeps

variable {R : σ → σ → Prop} {F : ε → Prop} {m : EStateM ε σ α} {f : α → EStateM ε σ β}

theorem pure (hr : ∀ s, R s s) (a : α) : Keeps R F (Pure.pure a : EStateM ε σ α) :=
  fun s => wp_pure.mpr (hr s)

theorem throw (hr : ∀ s, R s s) {e : ε} (he : F e) :
    Keeps R F (MonadExcept.throw e : EStateM ε σ α) :=
  fun s => wp_throw.mpr ⟨hr s, he⟩

theorem modify {g : σ → σ} (hg : ∀ s, R s (g s)) :
    Keeps R F (modify g : EStateM ε σ PUnit) :=
  fun s => wp_modify.mpr (hg s)

theorem bind (ht : ∀ {s t u}, R s t → R t u → R s u) (hm : Keeps R F m)
    (hf : ∀ a, Keeps R F (f a)) : Keeps R F (m >>= f) := by
  intro s
  rw [wp_bind]
  exact (hm s).imp fun a t hst => (hf a t).mono (fun _ _ => ht hst) fun _ _ h => ⟨ht hst h.1, h.2⟩

theorem get {f : σ → EStateM ε σ β} (hf : ∀ s, Keeps R F (f s)) : Keeps R F (get >>= f) := by
  intro s
  rw [wp_bind, wp_get]
  exact hf s s

theorem ite {c : Prop} [Decidable c] {m₁ m₂ : EStateM ε σ α} (h₁ : Keeps R F m₁)
    (h₂ : Keeps R F m₂) : Keeps R F (if c then m₁ else m₂) := by
  split
  · exact h₁
  · exact h₂

theorem discard (hm : Keeps R F m) : Keeps R F (discard m) :=
  fun s => wp_discard.mpr (hm s)

theorem foldlM {γ : Type} (hr : ∀ s, R s s) (ht : ∀ {s t u}, R s t → R t u → R s u)
    {f : β → γ → EStateM ε σ β} (hf : ∀ b x, Keeps R F (f b x)) :
    ∀ (xs : List γ) (b : β), Keeps R F (xs.foldlM f b)
  | [], b => Keeps.pure hr b
  | x :: xs, b => by
    rw [List.foldlM_cons]
    exact Keeps.bind ht (hf b x) (fun b' => foldlM hr ht hf xs b')

theorem forM {γ : Type} (hr : ∀ s, R s s) (ht : ∀ {s t u}, R s t → R t u → R s u)
    {f : γ → EStateM ε σ PUnit} (hf : ∀ x, Keeps R F (f x)) :
    ∀ xs : List γ, Keeps R F (xs.forM f)
  | [] => Keeps.pure hr _
  | x :: xs => Keeps.bind ht (hf x) fun _ => forM hr ht hf xs

end Keeps

end Hoare
