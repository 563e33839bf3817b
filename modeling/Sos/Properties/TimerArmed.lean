import Sos.Properties.Sleepers

/-!
# When the timer is armed too late

With threads asleep the counter has to reach zero before the first of them is due. After a call of
`register_timer` or `timer_irq` that is so (`Armed`) if it was before and the call is `Timely`.

`register_timer` loads the counter if it has stopped, or if four times the new delay, as a word, is
less than what it reads. So the counter is not loaded although the new thread is due earlier, if
that is by less than a factor of four; it is loaded with a delay beyond other deadlines, if the
product wraps around, or if the counter has stopped and `timer_irq` has not run yet. `timer_irq`
subtracts the time it took from the delay it has found, which wraps around if it took longer, and
finds no delay if the only one is the largest word.
-/

namespace Sos.Clock

variable {c c' : State} {es : List Event} {t ts ts2 us d w : Nat} {bs : List Blocked}

/-- If threads are asleep, the counter runs and reaches zero when none of them is due yet, or within
a tick. -/
def Armed (c : State) (now : Nat) : Prop :=
  c.blocked ≠ [] → c.tim0.enabled = true ∧
    ∀ b ∈ c.blocked, now + c.tim0.count ≤ max b.unblock (now + 1)

/-- What a call needs of its arguments and of the state at its first time stamp. -/
def Timely (c : State) : Event → Prop
  | .register ts us _ =>
    ts + delayTicks us < stampLimit ∧
      if c.tim0.count = 0 then
        ∀ b ∈ c.blocked, ts + delayTicks us % wordLimit / 4 * 4 ≤ max b.unblock (ts + 1)
      else if c.tim0.rearms (delayTicks us) then delayTicks us % wordLimit ≤ c.tim0.count
      else c.tim0.count ≤ delayTicks us
  | .irq ts ts2 =>
    later ts c.blocked ≠ [] →
      (∃ b ∈ later ts c.blocked, (b.unblock - ts) % wordLimit ≠ wordLimit - 1) ∧
        ∀ b ∈ later ts c.blocked, ts2 - ts ≤ (b.unblock - ts) % wordLimit

instance (c : State) : ∀ e, Decidable (Timely c e)
  | .register .. => inferInstanceAs (Decidable (_ ∧ _))
  | .irq .. => inferInstanceAs (Decidable (_ → _ ∧ _))

/-! ## The counter -/

@[simp] theorem load_oneshot (w : Nat) : Tim0.load (w ||| oneshotEnable) = ⟨w / 4 * 4, true⟩ := by
  have hdiv : (w ||| 3) / 4 = w / 4 := by
    rw [show 4 = 2 ^ 2 from rfl, Nat.or_div_two_pow]
    simp
  have hmod : (w ||| 3) % 2 = 1 := by
    rw [show 2 = 2 ^ 1 from rfl, Nat.or_mod_two_pow]
    rcases Nat.mod_two_eq_zero_or_one w with h | h <;> simp [h]
  simp [Tim0.load, oneshotEnable, hdiv, hmod]

theorem elapse_enabled (h : c.tim0.count ≠ 0 → c.tim0.enabled = true)
    (hcount : (c.elapse d).tim0.count ≠ 0) :
    (c.elapse d).tim0.enabled = true ∧ (c.elapse d).tim0.count + d = c.tim0.count := by
  unfold State.elapse Tim0.elapse at *
  split at hcount
  · next hd =>
    rw [if_pos hd]
    dsimp only at hcount ⊢
    refine ⟨decide_eq_true (by omega), by omega⟩
  · next hd =>
    rw [if_neg hd]
    have henabled := h hcount
    have hzero : d = 0 := by
      by_contra hne
      exact hd ⟨henabled, Nat.pos_of_ne_zero hne⟩
    exact ⟨henabled, by rw [hzero]; rfl⟩

/-! ## The delay that `timer_irq` finds -/

/-- What the loop makes of a delay it has found. -/
def NextDelay.seeAll (n : NextDelay) (ts : Nat) (bs : List Blocked) : NextDelay :=
  bs.foldl (fun n b => n.see ts b) n

variable {n : NextDelay}

theorem seeAll_cons (n : NextDelay) (ts : Nat) (b : Blocked) (bs : List Blocked) :
    n.seeAll ts (b :: bs) = (n.see ts b).seeAll ts bs := rfl

theorem see_nextDelay (n : NextDelay) (ts : Nat) (b : Blocked) :
    (n.see ts b).nextDelay = min n.nextDelay ((b.unblock - ts) % wordLimit) := by
  unfold NextDelay.see
  split
  · next hlt => exact (Nat.min_eq_right (Nat.le_of_lt hlt)).symm
  · next hge => exact (Nat.min_eq_left (Nat.le_of_not_lt hge)).symm

theorem le_seeAll_iff {e : Nat} : e ≤ (n.seeAll ts bs).nextDelay ↔
    e ≤ n.nextDelay ∧ ∀ b ∈ bs, e ≤ (b.unblock - ts) % wordLimit := by
  induction bs generalizing n with
  | nil => simp [NextDelay.seeAll]
  | cons b bs ih =>
    rw [seeAll_cons, ih, see_nextDelay, Nat.le_min, List.forall_mem_cons, and_assoc]

theorem seeAll_delay_of_delay (h : n.delay = true) : (n.seeAll ts bs).delay = true := by
  induction bs generalizing n with
  | nil => exact h
  | cons b bs ih =>
    refine ih (n := n.see ts b) ?_
    unfold NextDelay.see
    split
    · rfl
    · exact h

/-- A delay is found if one is less than the largest word. -/
theorem seeAll_delay_of_lt {b : Blocked} (hb : b ∈ bs)
    (hlt : (b.unblock - ts) % wordLimit < n.nextDelay) : (n.seeAll ts bs).delay = true := by
  induction bs generalizing n with
  | nil => simp at hb
  | cons b' bs ih =>
    rw [seeAll_cons]
    by_cases hsee : (b'.unblock - ts) % wordLimit < n.nextDelay
    · exact seeAll_delay_of_delay (by simp [NextDelay.see, hsee])
    · rcases List.mem_cons.mp hb with rfl | hb
      · exact absurd hlt hsee
      · refine ih hb ?_
        simpa [NextDelay.see, hsee] using hlt

theorem adjust_eq {e : Nat} (hts : ts + e = ts2) (hn : n.nextDelay < wordLimit)
    (he : e ≤ n.nextDelay) : n.adjust ts ts2 / 4 * 4 ≤ n.nextDelay - e := by
  have hsub : (((n.nextDelay : Int) - ((ts2 : Int) - ts)) % wordLimit).toNat = n.nextDelay - e := by
    subst hts
    unfold wordLimit at *
    omega
  unfold NextDelay.adjust
  rw [hsub]
  dsimp only
  split <;> omega

/-! ## One call -/

/-- What holds between the calls. -/
structure Ready (c : State) (now : Nat) : Prop where
  armed : Armed c now
  stopped : c.blocked = [] → c.tim0.count = 0
  counts : c.tim0.count ≠ 0 → c.tim0.enabled = true

theorem ready_start (now : Nat) : Ready start now :=
  ⟨fun h => absurd rfl h, fun _ => rfl, fun h => absurd rfl h⟩

/-- A counter that still runs is as early as before. -/
theorem Ready.elapse (h : Ready c t) (hcount : (c.elapse d).tim0.count ≠ 0) :
    (c.elapse d).tim0.enabled = true ∧
      ∀ b ∈ c.blocked, t + d + (c.elapse d).tim0.count ≤ max b.unblock (t + d + 1) := by
  obtain ⟨henabled, hsum⟩ := elapse_enabled h.counts hcount
  refine ⟨henabled, fun b hb => ?_⟩
  have hle := (h.armed (List.ne_nil_of_mem hb)).2 b hb
  omega

theorem Ready.register {client : Nat} (h : Ready c t) (hholds : Holds c bs)
    (htimely : Timely (c.elapse d) (.register (t + d) us client))
    (hblocked : c'.blocked = ⟨client, deadline (t + d) us⟩ :: bs)
    (htim0 : c'.tim0 = if (c.elapse d).tim0.rearms (delayTicks us) then
      .load (delayTicks us % wordLimit ||| oneshotEnable) else (c.elapse d).tim0) :
    Ready c' (t + d) := by
  obtain rfl := hholds.blocked_eq
  obtain ⟨hlimit, hcond⟩ := htimely
  have hdeadline : deadline (t + d) us = t + d + delayTicks us := Nat.mod_eq_of_lt hlimit
  have hpos : 0 < delayTicks us := by
    unfold delayTicks
    split <;> omega
  have hmod : delayTicks us % wordLimit ≤ delayTicks us := Nat.mod_le ..
  by_cases harm : (c.elapse d).tim0.rearms (delayTicks us)
  · rw [if_pos harm, load_oneshot] at htim0
    refine ⟨fun _ => ⟨by rw [htim0], fun b hb => ?_⟩, fun hnil => ?_, fun _ => by rw [htim0]⟩
    · rw [htim0]
      dsimp only
      rcases List.mem_cons.mp (hblocked ▸ hb) with rfl | hb
      · change _ ≤ max (deadline (t + d) us) _
        rw [hdeadline]
        omega
      · by_cases hzero : (c.elapse d).tim0.count = 0
        · rw [if_pos hzero] at hcond
          exact hcond b hb
        · -- The counter is loaded with no more than what it reads.
          rw [if_neg hzero, if_pos harm] at hcond
          have := (h.elapse hzero).2 b hb
          omega
    · rw [hblocked] at hnil
      simp at hnil
  · rw [if_neg harm] at htim0
    have hcount : (c.elapse d).tim0.count ≠ 0 := fun hzero => harm (by simp [Tim0.rearms, hzero])
    rw [if_neg hcount, if_neg harm] at hcond
    obtain ⟨henabled, hold⟩ := h.elapse hcount
    refine ⟨fun _ => ⟨by rw [htim0, henabled], fun b hb => ?_⟩, fun hnil => ?_,
      fun _ => by rw [htim0, henabled]⟩
    · rw [htim0]
      rcases List.mem_cons.mp (hblocked ▸ hb) with rfl | hb
      · change _ ≤ max (deadline (t + d) us) _
        rw [hdeadline]
        omega
      · exact hold b hb
    · rw [hblocked] at hnil
      simp at hnil

theorem ready_irq {rest : List Blocked} (hts : ts ≤ ts2) (hrest : rest = later ts bs)
    (htimely : rest ≠ [] → (∃ b ∈ rest, (b.unblock - ts) % wordLimit ≠ wordLimit - 1) ∧
      ∀ b ∈ rest, ts2 - ts ≤ (b.unblock - ts) % wordLimit)
    (hblocked : c'.blocked = rest)
    (htim0 : c'.tim0 = if (nextDelay ts rest).delay then
      .load ((nextDelay ts rest).adjust ts ts2 ||| oneshotEnable) else .load 0) :
    Ready c' ts2 := by
  by_cases hnil : rest = []
  · have hzero : c'.tim0 = ⟨0, false⟩ := by
      rw [htim0, hnil]
      rfl
    refine ⟨fun hne => absurd (hblocked.trans hnil) hne, fun _ => by rw [hzero], fun hne => ?_⟩
    rw [hzero] at hne
    exact absurd rfl hne
  · obtain ⟨⟨b₀, hb₀, hword⟩, hshort⟩ := htimely hnil
    have hword₀ : (b₀.unblock - ts) % wordLimit < wordLimit := Nat.mod_lt _ (by decide)
    have hdelay : (nextDelay ts rest).delay = true := by
      refine seeAll_delay_of_lt hb₀ ?_
      dsimp only
      omega
    have hleast : (nextDelay ts rest).nextDelay ≤ wordLimit - 1 ∧
        ∀ b ∈ rest, (nextDelay ts rest).nextDelay ≤ (b.unblock - ts) % wordLimit :=
      le_seeAll_iff.mp (Nat.le_refl _)
    have hlong : ts2 - ts ≤ (nextDelay ts rest).nextDelay := by
      refine le_seeAll_iff.mpr ⟨?_, hshort⟩
      have := hshort b₀ hb₀
      dsimp only
      omega
    have hcount := adjust_eq (n := nextDelay ts rest) (Nat.add_sub_of_le hts)
      (show _ < wordLimit by unfold wordLimit at *; omega) hlong
    rw [hdelay, if_pos rfl, load_oneshot] at htim0
    refine ⟨fun _ => ⟨by rw [htim0], fun b hb => ?_⟩, fun hempty => ?_, fun _ => by rw [htim0]⟩
    · rw [htim0]
      dsimp only
      rw [hblocked] at hb
      have hb' : ts < b.unblock := by
        rw [hrest] at hb
        simpa [later] using (List.mem_filter.mp hb).2
      have hmod : (b.unblock - ts) % wordLimit ≤ b.unblock - ts := Nat.mod_le ..
      have := hleast.2 b hb
      omega
    · exact absurd (hblocked ▸ hempty) hnil

/-! ## Whole runs -/

theorem Run.ready (h : Run Timely es t c) : Ready c t := by
  induction h with
  | start t => exact ready_start t
  | @register es t ts us client a c c' hrun hle ha hclient htimely hcall ih =>
    obtain ⟨d, rfl⟩ := Nat.exists_eq_add_of_le hle
    rw [Nat.add_sub_cancel_left] at htimely hcall
    have hholds := hrun.holds.1
    obtain ⟨c₁, hcall₁, hholds₁, -, htim0⟩ :=
      registerTimer_spec (c := c.elapse d) hholds ha hclient (t + d) us
    obtain ⟨-, rfl⟩ := EStateM.Result.ok.inj (hcall₁.symm.trans hcall)
    exact ih.register hholds htimely hholds₁.blocked_eq htim0
  | @irq es t ts ts2 c c' hrun hle hle2 htimely hcall ih =>
    have hholds := hrun.holds.1
    obtain ⟨c₁, hcall₁, hholds₁, -, htim0⟩ :=
      timerIrq_spec (c := c.elapse (ts2 - t)) hholds ts ts2
    obtain ⟨-, rfl⟩ := EStateM.Result.ok.inj (hcall₁.symm.trans hcall)
    refine ready_irq hle2 rfl ?_ hholds₁.blocked_eq htim0
    rw [← hholds.blocked_eq]
    exact htimely

/-- **The timer is armed in time.** In every run whose calls are timely, the counter runs after each
call that leaves threads asleep, and reaches zero before the first of them is due, or within a tick
if that is over. -/
theorem timer_armed_in_time (h : Run Timely es t c) :
    c.blocked = (sleepers es).blocked.map Sleeper.toBlocked ∧ Armed c t :=
  ⟨h.holds.1.blocked_eq, h.ready.armed⟩

/-- A second thread is due much earlier than the first, so the counter is loaded again, and after
the interrupt once more. -/
theorem timer_armed_in_time_three :
    ∃ c, Run Timely [.register 0 1500 5, .register 0 15 6, .irq 999 1000] 1000 c ∧
      c.blocked = [⟨5, 99990⟩] ∧ Armed c 1000 := by
  obtain ⟨c₁, c₂, c₃, hcall₁, htimely₁, hfree, hcall₂, htimely₂, hcall₃, htimely₃⟩ :
      ∃ c₁ c₂ c₃, registerTimer 0 1500 5 7 (start.elapse 0) = .ok () c₁ ∧
        Timely (start.elapse 0) (.register 0 1500 5) ∧ c₁.nodes 8 = none ∧
        registerTimer 0 15 6 8 (c₁.elapse 0) = .ok () c₂ ∧
        Timely (c₁.elapse 0) (.register 0 15 6) ∧
        timerIrq 999 1000 (c₂.elapse 1000) = .ok () c₃ ∧
        Timely (c₂.elapse 999) (.irq 999 1000) :=
    ⟨_, _, _, rfl, by decide, rfl, rfl, by decide, rfl, by decide⟩
  have h₁ : Run Timely [.register 0 1500 5] 0 c₁ :=
    .register (.start 0) (by decide) rfl (by decide) htimely₁ hcall₁
  have h₂ := Run.register h₁ (Nat.le_refl 0) hfree (by decide) htimely₂ hcall₂
  have h₃ := Run.irq h₂ (by decide) (by decide) htimely₃ hcall₃
  obtain ⟨hblocked, harmed⟩ := timer_armed_in_time h₃
  exact ⟨c₃, h₃, hblocked, harmed⟩

/-- Threads that sleep for 1500 and 750 microseconds: the counter is left to reach zero after 99988
ticks, and the second thread is due after 49995. -/
theorem second_sleeper_late : ¬ ∀ es t c, Run (fun _ _ => True) es t c → Armed c t := by
  intro hall
  obtain ⟨c₁, c₂, hcall₁, hfree, hcall₂, hcount, hblocked⟩ :
      ∃ c₁ c₂, registerTimer 0 1500 5 7 (start.elapse 0) = .ok () c₁ ∧ c₁.nodes 8 = none ∧
        registerTimer 0 750 6 8 (c₁.elapse 0) = .ok () c₂ ∧ c₂.tim0.count = 99988 ∧
        c₂.blocked = [⟨6, 49995⟩, ⟨5, 99990⟩] := ⟨_, _, rfl, rfl, rfl, rfl, rfl⟩
  have h₁ : Run (fun _ _ => True) [.register 0 1500 5] 0 c₁ :=
    .register (.start 0) (by decide) rfl (by decide) trivial hcall₁
  have h₂ := Run.register h₁ (Nat.le_refl 0) hfree (by decide) trivial hcall₂
  have hlate := (hall _ _ _ h₂ (by rw [hblocked]; simp)).2 ⟨6, 49995⟩ (by rw [hblocked]; simp)
  rw [hcount] at hlate
  exact absurd hlate (by decide)

end Sos.Clock
