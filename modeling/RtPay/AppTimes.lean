import Mathlib.Data.List.Forall2
import RtPay.AppWave
import RtPay.Kernel.TimerPeriods
/-!
# AppTimes — the pulses on the kernel's clock

The app thread drives the pulse output beside all else that uses the timers: `rt_thread_mdelay` starts the timer of the
thread and gives the processor up, and `_thread_timeout` makes the thread ready again.  When a ready thread goes on is
the scheduler's matter; `lag` counts the ticks that it was ready for and did not.
-/
namespace RtPay

open Kernel

/-- The app thread in its calls on the pulse output: `calls` are to be made, of which the first has begun if the thread is
asleep, `done` have returned, and `written` are the levels with the ticks at which they were written. -/
structure AppThread (τ : Type) where
  timers : Timers τ
  calls : List PinCall
  asleep : Bool
  done : List PinCall
  written : List (Bool × Nat)
  lag : Nat

namespace AppThread

/-- A step of the kernel, or of the thread. -/
inductive Label (τ : Type)
  | kernel (l : Timers.Label τ)
  | run

variable {τ : Type}

/-- The thread is about to make its calls. -/
def ready (u : Timers τ) (calls : List PinCall) : AppThread τ := ⟨u, calls, false, [], [], 0⟩

/-- The first call returns. -/
def returns (s : AppThread τ) : AppThread τ :=
  match s.calls with
  | [] => s
  | c :: cs => { s with calls := cs, done := s.done ++ [c], asleep := false }

section
variable [DecidableEq τ] (t : τ)

/-- `rt_thread_sleep` on the timer of the thread; for no ticks it is an error, and the call returns. -/
def rtThreadSleep (s : AppThread τ) (tick : UInt32) : Option (AppThread τ) :=
  if tick = 0 then some s.returns
  else ((s.timers.rtTimerControl t (.setTime tick)).bind (fun u => u.1.rtTimerStart t)).map
    (fun u => { s with timers := u, asleep := true })

def rtThreadMdelay (s : AppThread τ) (ms : UInt32) : Option (AppThread τ) :=
  s.rtThreadSleep t (rtTickFromMillisecond ms)

/-- `_thread_timeout` has been called: the sleep is over. -/
def timeout (s : AppThread τ) (u : Timers τ) : Bool := s.asleep && u.firedAt t ≠ s.timers.firedAt t

def isTick : Timers.Label τ → Bool
  | .tick => true
  | _ => false

def isCallOn : Timers.Label τ → Bool
  | .call c => c.timer = t
  | _ => false

/-- No other thread calls on the timer of this one. -/
def step (s : AppThread τ) : Label τ → Option (AppThread τ)
  | .kernel l =>
    if isCallOn t l then none
    else (s.timers.step l).map (fun u =>
      let s' := { s with timers := u, lag := if isTick l ∧ ¬ s.asleep then s.lag + 1 else s.lag }
      if s.timeout t u then s'.returns else s')
  | .run =>
    if s.asleep then none
    else
      match s.calls with
      | [] => none
      | .write value :: _ => some { s.returns with written := s.written ++ [(value, s.timers.now)] }
      | .delay ms :: _ => s.rtThreadMdelay t ms

end

end AppThread

/-! ## What is seen on the output -/

/-- The phases of the levels written, in the phase at `level` since the tick `since`, up to now. -/
def measuredFrom (now : Nat) (level : Bool) (since : Nat) : List (Bool × Nat) → List Phase
  | [] => [⟨level, now - since⟩]
  | (value, n) :: ws =>
    if value = level then measuredFrom now level since ws else ⟨level, n - since⟩ :: measuredFrom now value n ws

def measured (now : Nat) : List (Bool × Nat) → List Phase
  | [] => []
  | (value, n) :: ws => measuredFrom now value n ws

/-- **The calls `cs` were made from the tick `n` on and have returned at `m`**, with a gap before each, `lag` in all. -/
inductive Timed : Nat → List PinCall → List (Bool × Nat) → Nat → Nat → Prop
  | nil {n m lag : Nat} (h : m = n + lag) : Timed n [] [] m lag
  | write {n m lag gap : Nat} {cs : List PinCall} {ws : List (Bool × Nat)} {value : Bool}
      (h : Timed (n + gap) cs ws m lag) : Timed n (.write value :: cs) ((value, n + gap) :: ws) m (gap + lag)
  | delay {n m lag gap : Nat} {cs : List PinCall} {ws : List (Bool × Nat)} {ms : UInt32}
      (h : Timed (n + gap + ms.toNat) cs ws m lag) : Timed n (.delay ms :: cs) ws m (gap + lag)

namespace Timed

variable {n m k lag lag' : Nat} {cs ds : List PinCall} {ws vs : List (Bool × Nat)}

theorem shift {gap : Nat} (h : Timed (n + gap) cs ws m lag) : Timed n cs ws m (gap + lag) := by
  cases h with
  | nil h => exact .nil (by omega)
  | @write _ _ lag gap' _ _ _ h =>
    rw [← Nat.add_assoc]
    rw [Nat.add_assoc] at h ⊢
    exact .write h
  | @delay _ _ lag gap' _ _ _ h =>
    rw [← Nat.add_assoc]
    rw [Nat.add_assoc n] at h
    exact .delay h

theorem append (h : Timed n cs ws k lag) (h' : Timed k ds vs m lag') :
    Timed n (cs ++ ds) (ws ++ vs) m (lag + lag') := by
  induction h with
  | nil h =>
    subst h
    exact h'.shift
  | write _ ih =>
    rw [Nat.add_assoc]
    exact .write (ih h')
  | delay _ ih =>
    rw [Nat.add_assoc]
    exact .delay (ih h')

theorem wait (h : Timed n cs ws m lag) : Timed n cs ws (m + 1) (lag + 1) := by
  have := h.append (show Timed m [] [] (m + 1) 1 from .nil rfl)
  rwa [List.append_nil, List.append_nil] at this

/-- **No phase is shorter than the waits in it**, and with no gap each is as long as they are. -/
theorem phasesFrom (h : Timed n cs ws m lag) (level : Bool) {since ms : Nat} (hle : since + ms ≤ n) :
    List.Forall₂ (fun p q => p.level = q.level ∧ p.ms ≤ q.ms) (phasesFrom ⟨level, ms⟩ cs)
      (measuredFrom m level since ws) := by
  induction h generalizing level since ms with
  | nil h =>
    refine List.Forall₂.cons ⟨rfl, ?_⟩ List.Forall₂.nil
    show ms ≤ _ - since
    omega
  | @write n m lag gap cs ws value h ih =>
    unfold RtPay.phasesFrom measuredFrom
    dsimp only
    split
    · exact ih level (by omega)
    · refine List.Forall₂.cons ⟨rfl, ?_⟩ (ih value le_rfl)
      show ms ≤ n + gap - since
      omega
  | @delay n m lag gap cs ws d h ih => exact ih level (show since + (ms + d.toNat) ≤ n + gap + d.toNat by omega)

theorem phasesFrom_eq (h : Timed n cs ws m lag) (hlag : lag = 0) (level : Bool) {since ms : Nat} (heq : since + ms = n) :
    RtPay.phasesFrom ⟨level, ms⟩ cs = measuredFrom m level since ws := by
  induction h generalizing level since ms with
  | @nil n m lag h =>
    unfold RtPay.phasesFrom measuredFrom
    have hms : m - since = ms := by omega
    rw [hms]
  | @write n m lag gap cs ws value h ih =>
    have ih := ih (by omega)
    unfold RtPay.phasesFrom measuredFrom
    dsimp only
    split
    · exact ih level (by omega)
    · have hms : n + gap - since = ms := by omega
      rw [hms, ih value (Nat.add_zero _)]
  | @delay n m lag gap cs ws d h ih =>
    exact ih (by omega) level (show since + (ms + d.toNat) = n + gap + d.toNat by omega)

theorem phases (h : Timed n cs ws m lag) :
    List.Forall₂ (fun p q => p.level = q.level ∧ p.ms ≤ q.ms) (phases cs) (measured m ws) := by
  induction h with
  | nil h => exact List.Forall₂.nil
  | write h _ => exact h.phasesFrom _ le_rfl
  | delay h ih => exact ih

theorem phases_eq (h : Timed n cs ws m lag) (hlag : lag = 0) : RtPay.phases cs = measured m ws := by
  induction h with
  | nil h => rfl
  | write h _ => exact h.phasesFrom_eq (by omega) _ rfl
  | delay h ih => exact ih (by omega)

end Timed

/-- The LOW phases of two waveforms, one no shorter than the other. -/
theorem forall₂_lows {v w : List Phase} (h : List.Forall₂ (fun p q => p.level = q.level ∧ p.ms ≤ q.ms) v w) :
    List.Forall₂ (· ≤ ·) ((v.filter (fun ph => ph.level = PIN_LOW)).map Phase.ms)
      ((w.filter (fun ph => ph.level = PIN_LOW)).map Phase.ms) := by
  induction h with
  | nil => exact List.Forall₂.nil
  | @cons p q v w hpq _ ih =>
    rw [List.filter_cons, List.filter_cons, hpq.1]
    split
    · exact List.Forall₂.cons hpq.2 ih
    · exact ih

/-! ## The thread on its timer -/

namespace AppThread

open Timers

variable {τ : Type} {t : τ}

/-- **Awake or asleep**: asleep, the thread has begun its first call, and its timer is in the list with the deadline at
which that call is to return. -/
structure Paced (t : τ) (n : Nat) (calls : List PinCall) (s : AppThread τ) : Prop where
  good : s.timers.Good
  isTimer : (s.timers.timer t).isTimer
  oneShot : ¬ (s.timers.timer t).periodic
  calls : s.done ++ s.calls = calls
  awake : s.asleep = false → t ∉ s.timers.timerList ∧ Timed n s.done s.written s.timers.now s.lag
  asleep : s.asleep = true → ∃ ms cs k, s.calls = .delay ms :: cs ∧ Timed n s.done s.written k s.lag ∧
    t ∈ s.timers.timerList ∧ 0 < (s.timers.start t).wait ∧ (s.timers.start t).deadline = k + ms.toNat

theorem paced_ready {u : Timers τ} (hu : u.Good) (hi : (u.timer t).isTimer) (hp : ¬ (u.timer t).periodic)
    (hn : t ∉ u.timerList) (calls : List PinCall) : Paced t u.now calls (ready u calls) where
  good := hu
  isTimer := hi
  oneShot := hp
  calls := rfl
  awake := fun _ => ⟨hn, .nil rfl⟩
  asleep := fun h => by cases h

section
variable [DecidableEq τ]

/-- The clock goes on by its own label only. -/
theorem now_of_step {u u' : Timers τ} {l : Timers.Label τ} (hu : u.Good) (h : u.step l = some u') :
    u'.now = if isTick l then u.now + 1 else u.now := by
  cases move_of_step hu h with
  | call c _ ht => cases ht <;> rfl
  | tick hc => rfl
  | fire v rest hc hl hd => exact takeDue_now u
  | leave hc hhead => rfl
  | again v hc hl => rfl
  | restart v hc hl hp ha => rfl
  | drop v hc hl hn => rfl

theorem timeout_of_awake {s : AppThread τ} (h : s.asleep = false) (u : Timers τ) : s.timeout t u = false := by
  rw [timeout, h]
  rfl

/-- **The kernel runs while the thread is awake**: its timer is in no list, and time is lost. -/
theorem Paced.kernel_awake {n : Nat} {calls : List PinCall} {s : AppThread τ} {u : Timers τ} {l : Timers.Label τ}
    (h : Paced t n calls s) (ha : s.asleep = false) (hu : s.timers.step l = some u) (hl : Spares t [l]) :
    Paced t n calls { s with timers := u, lag := if isTick l then s.lag + 1 else s.lag } := by
  obtain ⟨hout, htimed⟩ := h.awake ha
  have hkeep : u.timer t = s.timers.timer t ∧ t ∉ u.timerList := by
    rcases quiet_or_serving (move_of_step h.good hu) hl with hq | hq
    · exact ⟨hq.timer, fun hm => hout (hq.timerList.1 hm)⟩
    · cases hq with
      | fire hc hm hd => exact absurd hm hout
      | restart hc hm hp ha => exact absurd hp h.oneShot
      | drop hc hm hn => exact ⟨rfl, fun hm' => hout (List.mem_of_mem_erase hm')⟩
  refine ⟨h.good.step hu, ?_, ?_, h.calls, fun _ => ⟨hkeep.2, ?_⟩, fun hs => ?_⟩
  · rw [hkeep.1]
    exact h.isTimer
  · rw [hkeep.1]
    exact h.oneShot
  · show Timed n s.done s.written u.now (if isTick l then s.lag + 1 else s.lag)
    rw [now_of_step h.good hu]
    split
    · exact htimed.wait
    · exact htimed
  · rw [ha] at hs
    cases hs

/-- **The kernel runs while the thread is asleep**: the sleep goes on, or it is over at its deadline. -/
theorem Paced.kernel_asleep {n : Nat} {calls : List PinCall} {s : AppThread τ} {u : Timers τ} {l : Timers.Label τ}
    (h : Paced t n calls s) (ha : s.asleep = true) (hu : s.timers.step l = some u) (hl : Spares t [l]) :
    Paced t n calls (if s.timeout t u then ({ s with timers := u } : AppThread τ).returns else { s with timers := u }) := by
  obtain ⟨ms, cs, k, hcalls, htimed, hin, hwait, hdeadline⟩ := h.asleep ha
  have hg := h.good.step hu
  rcases quiet_or_serving (move_of_step h.good hu) hl with hq | hq
  · have ht : s.timeout t u = false := by
      rw [timeout, hq.fired]
      simp
    rw [ht]
    refine ⟨hg, ?_, ?_, h.calls, fun hs => ?_, fun _ => ⟨ms, cs, k, hcalls, htimed, hq.timerList.2 hin, ?_, ?_⟩⟩
    · show (u.timer t).isTimer
      rw [hq.timer]
      exact h.isTimer
    · show ¬ (u.timer t).periodic
      rw [hq.timer]
      exact h.oneShot
    · rw [ha] at hs
      cases hs
    · show 0 < (u.start t).wait
      rw [hq.start]
      exact hwait
    · show (u.start t).deadline = _
      rw [hq.start]
      exact hdeadline
  · cases hq with
    | fire hc hm hd =>
      have hnow := h.good.now_eq_deadline hm hwait hd
      have ht : s.timeout t (s.timers.fire t) = true := by
        rw [timeout, ha, firedAt_fire, if_pos rfl]
        simp
      rw [ht, if_pos rfl]
      have htimer : ((s.timers.fire t).timer t).isTimer = (s.timers.timer t).isTimer ∧
          ((s.timers.fire t).timer t).periodic = (s.timers.timer t).periodic := by
        show ((s.timers.takeDue t).timer t).isTimer = _ ∧ ((s.timers.takeDue t).timer t).periodic = _
        rw [takeDue_timer_self]
        exact ⟨rfl, rfl⟩
      have hnow' : (s.timers.fire t).now = k + ms.toNat := by
        show (s.timers.takeDue t).now = _
        rw [takeDue_now, hnow, hdeadline]
      have hback : Timed n (s.done ++ [.delay ms]) s.written (k + ms.toNat) s.lag := by
        have hd : Timed k [.delay ms] [] (k + ms.toNat) (0 + 0) := .delay (.nil rfl)
        have := htimed.append hd
        rwa [List.append_nil] at this
      unfold returns
      simp only [hcalls]
      refine ⟨hg, ?_, ?_, ?_, fun _ => ⟨?_, ?_⟩, fun hs => by cases hs⟩
      · exact htimer.1.trans h.isTimer
      · exact fun hp => h.oneShot (htimer.2.symm.trans hp)
      · rw [← h.calls, hcalls, List.append_assoc]
        rfl
      · show t ∉ (s.timers.takeDue t).timerList
        rw [takeDue_timerList]
        exact h.good.nodup.not_mem_erase
      · show Timed n (s.done ++ [.delay ms]) s.written (s.timers.fire t).now s.lag
        rw [hnow']
        exact hback
    | restart hc hm hp ha' => exact absurd hin (h.good.of_calling hc hm).1
    | drop hc hm hn => exact absurd hin (h.good.of_calling hc hm).1

theorem Paced.kernel {n : Nat} {calls : List PinCall} {s s' : AppThread τ} {l : Timers.Label τ} (h : Paced t n calls s)
    (hs : step t s (.kernel l) = some s') : Paced t n calls s' := by
  simp only [step] at hs
  split at hs
  · cases hs
  rename_i hcall
  obtain ⟨u, hu, rfl⟩ := Option.map_eq_some_iff.1 hs
  have hspares : Spares t [l] := by
    intro c hc e
    rw [List.mem_singleton] at hc
    subst hc
    simp [isCallOn, e] at hcall
  by_cases ha : s.asleep = true
  · have hk := h.kernel_asleep ha hu hspares
    simpa [ha] using hk
  · rw [Bool.not_eq_true] at ha
    have hk := h.kernel_awake ha hu hspares
    simpa [timeout_of_awake ha, ha] using hk

/-- A delay on the timer of the thread begins exactly when it is one of those that return. -/
theorem isSome_rtThreadMdelay {s : AppThread τ} (h : (s.timers.timer t).isTimer) (ms : UInt32) :
    (s.rtThreadMdelay t ms).isSome ↔ (RtPay.rtThreadMdelay ms).isSome := by
  rw [rtThreadMdelay, rtThreadSleep, RtPay.rtThreadMdelay]
  generalize rtTickFromMillisecond ms = tick
  by_cases h0 : tick = 0
  · have hlt : tick < RT_TICK_MAX / 2 := by rw [h0]; decide
    rw [if_pos h0, if_pos hlt]
    exact iff_of_true rfl rfl
  · rw [if_neg h0, Option.isSome_map, rtTimerControl, if_pos h]
    by_cases hlt : tick < RT_TICK_MAX / 2
    · have hset : ((s.timers.write t { s.timers.timer t with initTick := tick }).timer t).isTimer := by
        simpa [Timers.write] using h
      simp only [if_pos hlt, Option.bind_some, rtTimerStart, if_pos hset]
      exact iff_of_true rfl rfl
    · simp only [if_neg hlt]
      exact Iff.rfl

/-- **A wait begins**, or is over at once when it is one of no ticks. -/
theorem Paced.sleep {n : Nat} {calls : List PinCall} {s s' : AppThread τ} {ms : UInt32} {cs : List PinCall}
    (h : Paced t n calls s) (ha : s.asleep = false) (hcalls : s.calls = .delay ms :: cs)
    (hs : s.rtThreadMdelay t ms = some s') : Paced t n calls s' := by
  obtain ⟨hout, htimed⟩ := h.awake ha
  have hms : ms < 0x80000000 := by
    have hsome := (isSome_rtThreadMdelay h.isTimer ms).1 (by rw [hs]; rfl)
    rw [rtThreadMdelay_eq] at hsome
    split at hsome
    · exact UInt32.lt_trans ‹_› (by decide)
    · cases hsome
  rw [rtThreadMdelay, rtTickFromMillisecond_of_lt hms, rtThreadSleep] at hs
  split at hs
  · rename_i h0
    cases hs
    unfold returns
    simp only [hcalls]
    refine ⟨h.good, h.isTimer, h.oneShot, ?_, fun _ => ⟨hout, ?_⟩, fun hs => by cases hs⟩
    · rw [← h.calls, hcalls, List.append_assoc]
      rfl
    · have hd : Timed s.timers.now [.delay ms] [] s.timers.now (0 + 0) := .delay (.nil (by rw [h0]; rfl))
      have := htimed.append hd
      rwa [List.append_nil] at this
  · rename_i h0
    obtain ⟨u, hu, rfl⟩ := Option.map_eq_some_iff.1 hs
    obtain ⟨⟨v, arg⟩, hv, hu⟩ := Option.bind_eq_some_iff.1 hu
    have hset : s.timers.step (.call (.control t (.setTime ms))) = some v := by
      simp only [Timers.step, call, hv, Option.map_some]
    have hstart : v.step (.call (.start t)) = some u := hu
    have hg := (h.good.step hset).step hstart
    have hv : v = s.timers.write t { s.timers.timer t with initTick := ms } := by
      simp only [rtTimerControl, if_pos h.isTimer] at hv
      split at hv
      · exact (congrArg Prod.fst (Option.some.inj hv)).symm
      · cases hv
    have hx : v.timer t = { s.timers.timer t with initTick := ms } := by
      rw [hv]
      exact Function.update_self _ _ _
    have hu := of_start hstart
    refine ⟨hg, ?_, ?_, h.calls, fun hs => (by cases hs), fun _ => ⟨ms, cs, s.timers.now, hcalls, htimed, ?_, ?_, ?_⟩⟩
    · show (u.timer t).isTimer
      rw [hu, arm_timer_self, hx]
      exact h.isTimer
    · show ¬ (u.timer t).periodic
      rw [hu, arm_timer_self, hx]
      exact h.oneShot
    · show t ∈ u.timerList
      rw [hu]
      exact v.mem_arm_timerList.2 (Or.inl rfl)
    · show 0 < (u.start t).wait
      rw [hu, arm_start_self, hx]
      exact Nat.pos_of_ne_zero (fun h => h0 (UInt32.toNat_inj.1 h))
    · show (u.start t).deadline = _
      rw [hu, arm_start_self, hx, hv]
      rfl

/-- **The thread makes its next call.** -/
theorem Paced.run {n : Nat} {calls : List PinCall} {s s' : AppThread τ} (h : Paced t n calls s)
    (hs : step t s .run = some s') : Paced t n calls s' := by
  simp only [step] at hs
  split at hs
  · cases hs
  rename_i hasleep
  obtain ⟨hout, htimed⟩ := h.awake (Bool.not_eq_true _ ▸ hasleep)
  split at hs
  · cases hs
  · rename_i value cs hcalls
    cases hs
    unfold returns
    simp only [hcalls]
    refine ⟨h.good, h.isTimer, h.oneShot, ?_, fun _ => ⟨hout, ?_⟩, fun hs => by cases hs⟩
    · rw [← h.calls, hcalls, List.append_assoc]
      rfl
    · have hw : Timed s.timers.now [.write value] [(value, s.timers.now + 0)] s.timers.now (0 + 0) := .write (.nil rfl)
      exact htimed.append hw
  · rename_i ms cs hcalls
    exact h.sleep (Bool.not_eq_true _ ▸ hasleep) hcalls hs

theorem Paced.step {n : Nat} {calls : List PinCall} {s s' : AppThread τ} {l : AppThread.Label τ}
    (h : Paced t n calls s) (hs : AppThread.step t s l = some s') : Paced t n calls s' := by
  cases l with
  | kernel l => exact h.kernel hs
  | run => exact h.run hs

/-- **What a run of the thread beside all others keeps.** -/
theorem paced_of_run {u : Timers τ} {before : List (Timers.Label τ)} (hb : Run.run Timers.step (boot τ) before = some u)
    (hi : (u.timer t).isTimer) (hp : ¬ (u.timer t).periodic) (hn : t ∉ u.timerList) {calls : List PinCall}
    {s : AppThread τ} {ls : List (AppThread.Label τ)} (hr : Run.run (AppThread.step t) (ready u calls) ls = some s) :
    Paced t u.now calls s :=
  Run.run_invariant_of_step (fun _ _ _ h hs => h.step hs) (paced_ready (good_of_run hb) hi hp hn calls) hr

/-- **No phase on the output is shorter than its waits**, whatever other threads and timers do, and each is exactly as long
if the scheduler never leaves the thread waiting. -/
theorem phases_no_shorter {u : Timers τ} {before : List (Timers.Label τ)}
    (hb : Run.run Timers.step (boot τ) before = some u) (hi : (u.timer t).isTimer) (hp : ¬ (u.timer t).periodic)
    (hn : t ∉ u.timerList) {calls : List PinCall} {s : AppThread τ} {ls : List (AppThread.Label τ)}
    (hr : Run.run (AppThread.step t) (ready u calls) ls = some s) (ha : s.asleep = false) :
    s.done ++ s.calls = calls ∧
      List.Forall₂ (fun p q => p.level = q.level ∧ p.ms ≤ q.ms) (phases s.done) (measured s.timers.now s.written) ∧
      (s.lag = 0 → phases s.done = measured s.timers.now s.written) := by
  have h := paced_of_run hb hi hp hn hr
  obtain ⟨-, htimed⟩ := h.awake ha
  exact ⟨h.calls, htimed.phases, htimed.phases_eq⟩

theorem phases_no_shorter_beside_periodic :
    let u := (Run.run Timers.step (boot Bool)
      [.call (.init true 0 false), .call (.init false 3 true), .call (.start false), .tick, .look]).get (by decide +kernel)
    let s := (Run.run (AppThread.step true) (ready u [.write true, .delay 2, .write false, .delay 0])
      [.run, .run, .kernel .tick, .kernel .look, .kernel .tick, .kernel .look, .kernel .back, .kernel .look, .kernel .back,
        .kernel .look, .kernel .tick, .kernel .look, .run, .run]).get (by decide +kernel)
    s.done ++ s.calls = [.write true, .delay 2, .write false, .delay 0] ∧
      List.Forall₂ (fun p q => p.level = q.level ∧ p.ms ≤ q.ms) (phases s.done) (measured s.timers.now s.written) ∧
      (s.lag = 0 → phases s.done = measured s.timers.now s.written) :=
  phases_no_shorter (Option.some_get _).symm (by decide +kernel) (by decide +kernel) (by decide +kernel)
    (Option.some_get _).symm (by decide +kernel)

/-- **A credit of one pulse is one LOW phase on the clock**, of the high time at least. -/
theorem lows_of_credit {u : Timers τ} {before : List (Timers.Label τ)}
    (hb : Run.run Timers.step (boot τ) before = some u) (hi : (u.timer t).isTimer) (hp : ¬ (u.timer t).periodic)
    (hn : t ∉ u.timerList) {cfg : SystemConfig} {evt : CreditEvt} (he : cfg.enabled ≠ 0) (h1 : cfg.pulsesPerCredit = 1)
    {s : AppThread τ} {ls : List (AppThread.Label τ)}
    (hr : Run.run (AppThread.step t) (ready u (PinCall.onCreditEvent cfg evt)) ls = some s) (ha : s.asleep = false)
    (hc : s.calls = []) :
    List.Forall₂ (· ≤ ·) (List.replicate evt.count.toNat cfg.pulseHighTime.toNat)
      (((measured s.timers.now s.written).filter (fun ph => ph.level = PIN_LOW)).map Phase.ms) := by
  have h := paced_of_run hb hi hp hn hr
  have hdone := h.calls
  rw [hc, List.append_nil] at hdone
  have hlows := forall₂_lows (h.awake ha).2.phases
  rw [hdone] at hlows
  have hm : cfg.pulsesPerCredit.toNat = 0 + 1 := by rw [h1]; rfl
  cases hk : evt.count.toNat with
  | zero =>
    rcases phases_onCreditEvent_zero he (Or.inl hk) with ⟨hw, -⟩ | hw
    · rwa [hw] at hlows
    · rwa [hw] at hlows
  | succ k =>
    rw [phases_onCreditEvent he hk hm, lows_train] at hlows
    simpa using hlows

end

end AppThread

end RtPay
