import Sos.Clock
import Mathlib.Data.List.Range

/-!
# When time runs backwards

The counter `OST_TS` wraps around at 2^32, and `timestamp_irq` counts that at some later time. A
read in between is 2^32 ticks too low. `SOS_TIME_STAMP` reads the clock once for each word of its
reply, so the words may belong to different times. Apart from that, and as long as 64 bits hold the
time in ticks times fifty, no read is less than one before it.

What bounds the reads so far (`Stamp.bound`) is the time if no interrupt is pending, and otherwise
the time at which the counter wrapped around. It never decreases.
-/

namespace Sos.Clock

/-- What may happen: the counter counts `n` ticks, the interrupt is handled, or the clock is read.
The two calls of `time_stamp` for an uptime are `n` ticks apart, in the order that the compiler
chose. -/
inductive Reading
  | tick (n : Nat)
  | irq
  | raw
  | time
  | uptime (n : Nat) (lowFirst : Bool)
deriving DecidableEq, Repr

/-- The clock and the values returned so far: those of `raw_time_stamp`, and those of `time_stamp`
and `uptime`. -/
structure Readings where
  stamp : Stamp
  raws : List Nat
  times : List Nat
deriving DecidableEq, Repr

/-- The uptime from two calls of `time_stamp`, `n` ticks apart. -/
def Stamp.uptime (s : Stamp) (n : Nat) (lowFirst : Bool) : Nat :=
  Clock.uptime (if lowFirst then timeStampReply s (s.tick n) else timeStampReply (s.tick n) s)

def Readings.step (r : Readings) : Reading → Readings
  | .tick n => { r with stamp := r.stamp.tick n }
  | .irq => { r with stamp := r.stamp.timestampIrq }
  | .raw => { r with raws := r.raws ++ [r.stamp.rawTimeStamp] }
  | .time => { r with times := r.times ++ [r.stamp.timeStamp] }
  | .uptime n lowFirst =>
    { r with stamp := r.stamp.tick n, times := r.times ++ [r.stamp.uptime n lowFirst] }

/-- The readings that can be reached by steps that satisfy `C`; the interrupt is handled only when
it is pending. -/
inductive Reads (C : Stamp → Reading → Prop) : Readings → Prop
  | start : Reads C ⟨.start, [], []⟩
  | step {r : Readings} {e : Reading} : Reads C r → (e = .irq → r.stamp.pending = true) →
      C r.stamp e → Reads C (r.step e)

/-- What a step needs. -/
def Steady (s : Stamp) : Reading → Prop
  | .tick _ => True
  | .irq => s.tsOverflow + 1 < wordLimit
  | .raw => s.pending = false
  | .time => s.pending = false ∧ s.rawTimeStamp * 50 < stampLimit
  | .uptime n _ =>
    s.pending = false ∧ s.ostTs + n < wordLimit ∧ (s.tick n).rawTimeStamp * 50 < stampLimit ∧
      s.timeStamp / wordLimit = (s.tick n).timeStamp / wordLimit

instance (s : Stamp) : ∀ e, Decidable (Steady s e)
  | .tick _ => inferInstanceAs (Decidable True)
  | .irq => inferInstanceAs (Decidable (_ < _))
  | .raw => inferInstanceAs (Decidable (_ = _))
  | .time => inferInstanceAs (Decidable (_ ∧ _))
  | .uptime .. => inferInstanceAs (Decidable (_ ∧ _))

/-! ## The bound -/

variable {s : Stamp} {r : Readings} {n : Nat}

/-- The time, and if an overflow is still to be counted, when that was. -/
def Stamp.bound (s : Stamp) : Nat :=
  if s.pending then (s.tsOverflow + 1) * wordLimit else s.ostTs + s.tsOverflow * wordLimit

/-- The registers are in range. -/
structure Stamp.InRange (s : Stamp) : Prop where
  ostTs : s.ostTs < wordLimit
  tsOverflow : s.tsOverflow < wordLimit

/-- Microseconds without the wrap at 64 bits. -/
def micros (ticks : Nat) : Nat := ticks * 50 / 3333

theorem micros_le {a b : Nat} (h : a ≤ b) : micros a ≤ micros b :=
  Nat.div_le_div_right (Nat.mul_le_mul_right 50 h)

theorem bound_le_tick (h : s.InRange) (n : Nat) : s.bound ≤ (s.tick n).bound := by
  have := h.ostTs
  unfold Stamp.bound Stamp.tick
  cases hp : s.pending with
  | true => simp
  | false =>
    simp only [Bool.false_or, decide_eq_true_eq, Bool.false_eq_true, if_false]
    unfold wordLimit at *
    split <;> omega

theorem bound_le_irq (hp : s.pending = true) (hlimit : s.tsOverflow + 1 < wordLimit) :
    s.bound ≤ s.timestampIrq.bound := by
  have hmod : (s.tsOverflow + 1) % stampLimit = s.tsOverflow + 1 := by
    unfold wordLimit stampLimit at *
    omega
  simp [Stamp.bound, Stamp.timestampIrq, hp, hmod]

theorem rawTimeStamp_eq (h : s.InRange) (hp : s.pending = false) : s.rawTimeStamp = s.bound := by
  obtain ⟨hts, hov⟩ := h
  unfold Stamp.rawTimeStamp Stamp.bound
  rw [hp]
  simp only [Bool.false_eq_true, if_false]
  unfold wordLimit stampLimit at *
  omega

theorem timeStamp_eq (h : s.InRange) (hp : s.pending = false)
    (hlimit : s.rawTimeStamp * 50 < stampLimit) : s.timeStamp = micros s.bound := by
  unfold Stamp.timeStamp ticks2us micros
  rw [Nat.mod_eq_of_lt hlimit, rawTimeStamp_eq h hp]

theorem Stamp.InRange.tick (h : s.InRange) (n : Nat) : (s.tick n).InRange :=
  ⟨Nat.mod_lt _ (by decide), h.tsOverflow⟩

theorem timeStamp_lt (s : Stamp) : s.timeStamp < stampLimit := by
  have : s.rawTimeStamp * 50 % stampLimit < stampLimit := Nat.mod_lt _ (by decide)
  unfold Stamp.timeStamp ticks2us
  omega

/-- The words of two times with the same high word make the time of the low word. -/
theorem uptime_eq {low high : Stamp} (h : low.timeStamp / wordLimit = high.timeStamp / wordLimit) :
    uptime (timeStampReply low high) = low.timeStamp := by
  have hlow := timeStamp_lt low
  unfold uptime timeStampReply
  rw [← h]
  unfold wordLimit stampLimit at *
  omega

/-- An uptime is a time between the two calls. -/
theorem stamp_uptime_eq (h : s.InRange) (lowFirst : Bool)
    (hsteady : Steady s (.uptime n lowFirst)) :
    micros s.bound ≤ s.uptime n lowFirst ∧ s.uptime n lowFirst ≤ micros (s.tick n).bound := by
  obtain ⟨hp, hwrap, hlimit, hhigh⟩ := hsteady
  have hp' : (s.tick n).pending = false := by
    simp [Stamp.tick, hp, hwrap]
  have hbound := bound_le_tick h n
  have hlimit' : s.rawTimeStamp * 50 < stampLimit := by
    rw [rawTimeStamp_eq h hp]
    rw [rawTimeStamp_eq (h.tick n) hp'] at hlimit
    omega
  have hle := micros_le hbound
  unfold Stamp.uptime
  cases lowFirst with
  | true =>
    rw [if_pos rfl, uptime_eq hhigh, timeStamp_eq h hp hlimit']
    exact ⟨le_rfl, hle⟩
  | false =>
    rw [if_neg (by simp), uptime_eq hhigh.symm, timeStamp_eq (h.tick n) hp' hlimit]
    exact ⟨hle, le_rfl⟩

/-! ## Whole runs -/

/-- The values so far are in order and within the bound. -/
structure Readings.Ordered (r : Readings) : Prop where
  inRange : r.stamp.InRange
  raws : r.raws.Pairwise (· ≤ ·)
  times : r.times.Pairwise (· ≤ ·)
  raws_le : ∀ v ∈ r.raws, v ≤ r.stamp.bound
  times_le : ∀ v ∈ r.times, v ≤ micros r.stamp.bound

/-- A value that is not below the others goes to the end. -/
theorem pairwise_append_le {l : List Nat} {v : Nat} (h : l.Pairwise (· ≤ ·)) (hv : ∀ u ∈ l, u ≤ v) :
    (l ++ [v]).Pairwise (· ≤ ·) :=
  List.pairwise_append.mpr ⟨h, List.pairwise_singleton .., by simpa using hv⟩

/-- The clock goes on. -/
theorem Readings.Ordered.advance {s' : Stamp} (h : r.Ordered) (hr : s'.InRange)
    (hb : r.stamp.bound ≤ s'.bound) : ({ r with stamp := s' } : Readings).Ordered :=
  ⟨hr, h.raws, h.times, fun v hv => (h.raws_le v hv).trans hb,
    fun v hv => (h.times_le v hv).trans (micros_le hb)⟩

theorem Readings.Ordered.addTime {v : Nat} (h : r.Ordered) (hle : ∀ u ∈ r.times, u ≤ v)
    (hv : v ≤ micros r.stamp.bound) : ({ r with times := r.times ++ [v] } : Readings).Ordered := by
  refine ⟨h.inRange, h.raws, pairwise_append_le h.times hle, h.raws_le, fun u hu => ?_⟩
  rcases List.mem_append.mp hu with hu | hu
  · exact h.times_le u hu
  · exact List.mem_singleton.mp hu ▸ hv

theorem Readings.Ordered.step {e : Reading} (h : r.Ordered)
    (hirq : e = .irq → r.stamp.pending = true)
    (hsteady : Steady r.stamp e) : (r.step e).Ordered := by
  cases e with
  | tick n => exact h.advance (h.inRange.tick n) (bound_le_tick h.inRange n)
  | irq =>
    have hmod : (r.stamp.tsOverflow + 1) % stampLimit = r.stamp.tsOverflow + 1 := by
      have : r.stamp.tsOverflow + 1 < wordLimit := hsteady
      unfold wordLimit stampLimit at *
      omega
    refine h.advance ⟨h.inRange.ostTs, ?_⟩ (bound_le_irq (hirq rfl) hsteady)
    rw [Stamp.timestampIrq, hmod]
    exact hsteady
  | raw =>
    have hraw := rawTimeStamp_eq h.inRange hsteady
    refine ⟨h.inRange, pairwise_append_le h.raws (hraw ▸ h.raws_le), h.times, fun v hv => ?_,
      h.times_le⟩
    rcases List.mem_append.mp hv with hv | hv
    · exact h.raws_le v hv
    · exact (List.mem_singleton.mp hv).trans_le hraw.le
  | time =>
    have htime := timeStamp_eq h.inRange hsteady.1 hsteady.2
    exact h.addTime (htime ▸ h.times_le) htime.le
  | uptime n lowFirst =>
    obtain ⟨hlow, hhigh⟩ := stamp_uptime_eq h.inRange lowFirst hsteady
    have hnext := h.advance (h.inRange.tick n) (bound_le_tick h.inRange n)
    exact hnext.addTime (fun u hu => (h.times_le u hu).trans hlow) hhigh

theorem Reads.ordered (h : Reads Steady r) : r.Ordered := by
  induction h with
  | start => exact ⟨⟨by decide, by decide⟩, .nil, .nil, by simp, by simp⟩
  | step _ hirq hsteady ih => exact ih.step hirq hsteady

/-- **Time does not run backwards.** In every run whose steps are steady, the values that
`raw_time_stamp` has returned do not decrease, nor do those of `time_stamp` and `uptime`. -/
theorem time_not_backwards (h : Reads Steady r) :
    r.raws.Pairwise (· ≤ ·) ∧ r.times.Pairwise (· ≤ ·) :=
  ⟨h.ordered.raws, h.ordered.times⟩

/-- The counter wraps around, and the clock is read after the interrupt. -/
theorem time_not_backwards_afterOverflow :
    ∃ r, Reads Steady r ∧ r.raws = [4294967295, 4294967298] ∧ r.times.Pairwise (· ≤ ·) ∧
      r.times.length = 2 := by
  have h₁ := Reads.step (C := Steady) (e := .tick 4294967294) .start nofun trivial
  have h₂ := h₁.step (e := .raw) nofun (by decide)
  have h₃ := h₂.step (e := .uptime 0 true) nofun (by decide)
  have h₄ := (h₃.step (e := .tick 3) nofun trivial).step (e := .irq) (fun _ => by decide)
    (by decide)
  have h₅ := (h₄.step (e := .raw) nofun (by decide)).step (e := .time) nofun (by decide)
  exact ⟨_, h₅, by decide, (time_not_backwards h₅).2, by decide⟩

/-- The clock is read a tick before the counter wraps around, and again a tick later, before the
interrupt is handled. -/
theorem read_before_overflow_counted :
    ¬ ∀ r, Reads (fun _ _ => True) r → r.raws.Pairwise (· ≤ ·) ∧ r.times.Pairwise (· ≤ ·) := by
  intro hall
  have h₁ := Reads.step (C := fun _ _ => True) (e := .tick 4294967294) .start nofun trivial
  have h₂ := (h₁.step (e := .raw) nofun trivial).step (e := .tick 1) nofun trivial
  have h₃ := h₂.step (e := .raw) nofun trivial
  have hraws : [4294967295, 0].Pairwise (· ≤ ·) := (hall _ h₃).1
  exact absurd hraws (by decide)

end Sos.Clock
