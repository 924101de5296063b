import Mathlib.Logic.Function.Basic
import RtPay.Lib.Run
import RtPay.Lib.WrapClock
/-!
# Kernel.Timer — the hard timers of timer.c

The list of `rt_timer_start`, which the tick interrupt serves with `rt_timer_check`.  A call may come at any time, from a
thread or from a timeout function while the check waits for it to return.  The tick is a counter of 32 bits that wraps;
`now`, `starts`, `start` and `fired` are the history that the kernel does not keep.
-/
namespace RtPay
namespace Kernel

def RT_TICK_MAX : UInt32 := 0xFFFFFFFF

/-- `struct rt_timer`: the two flags that change, and whether the object is one of the timer class. -/
structure Timer where
  isTimer : Bool
  periodic : Bool
  activated : Bool
  initTick : UInt32
  timeoutTick : UInt32
  deriving DecidableEq

/-- A start of a timer: the how-manieth start of all, at which tick, and for how many. -/
structure Start where
  serial : Nat
  since : Nat
  wait : Nat
  deriving DecidableEq

/-- A call of a timeout function. -/
structure Fire (τ : Type) where
  timer : τ
  start : Start
  tick : Nat
  deriving DecidableEq

/-- Where `rt_timer_check` is: not running, at the head of its loop, or in a timeout function. -/
inductive Check (τ : Type)
  | left
  | looking
  | calling (t : τ)
  deriving DecidableEq

/-- The `cmd` of `rt_timer_control`. -/
inductive Control
  | getTime
  | setTime (time : UInt32)
  | setOneshot
  | setPeriodic
  | getState
  | getRemainTime

def RT_TIMER_FLAG_DEACTIVATED : UInt32 := 0

def RT_TIMER_FLAG_ACTIVATED : UInt32 := 1

/-- `_timer_list` as `timerList`, the list of one `rt_timer_check` as `list`. -/
structure Timers (τ : Type) where
  tick : UInt32
  timer : τ → Timer
  timerList : List τ
  list : List τ
  check : Check τ
  now : Nat
  starts : Nat
  start : τ → Start
  fired : List (Fire τ)

namespace Timers

/-- After `rt_system_timer_init`. -/
def boot (τ : Type) : Timers τ where
  tick := 0
  timer := fun _ => ⟨false, false, false, 0, 0⟩
  timerList := []
  list := []
  check := .left
  now := 0
  starts := 0
  start := fun _ => ⟨0, 0, 0⟩
  fired := []

inductive RtErr
  | eok
  | error
  deriving DecidableEq

/-- A call that a thread or a timeout function makes. -/
inductive Call (τ : Type)
  | init (t : τ) (time : UInt32) (periodic : Bool)
  | detach (t : τ)
  | start (t : τ)
  | stop (t : τ)
  | control (t : τ) (cmd : Control)

def Call.timer {τ : Type} : Call τ → τ
  | .init t _ _ => t
  | .detach t => t
  | .start t => t
  | .stop t => t
  | .control t _ => t

inductive Label (τ : Type)
  | call (c : Call τ)
  | tick
  | look
  | back

section
variable {τ : Type} [DecidableEq τ]

def write (s : Timers τ) (t : τ) (x : Timer) : Timers τ := { s with timer := Function.update s.timer t x }

/-- `_timer_remove`: out of whichever list the timer is in. -/
def timerRemove (s : Timers τ) (t : τ) : Timers τ :=
  { s with timerList := s.timerList.erase t, list := s.list.erase t }

/-- `rt_timer_init`; to initialise a timer that is in a list would break the list, and is no call. -/
def rtTimerInit (s : Timers τ) (t : τ) (time : UInt32) (periodic : Bool) : Option (Timers τ) :=
  if time < RT_TICK_MAX / 2 ∧ t ∉ s.timerList ∧ t ∉ s.list then some (s.write t ⟨true, periodic, false, time, 0⟩)
  else none

def rtTimerDetach (s : Timers τ) (t : τ) : Option (Timers τ) :=
  if (s.timer t).isTimer then some ((s.timerRemove t).write t { s.timer t with activated := false, isTimer := false })
  else none

/-- The walk of `rt_timer_start`: past every timer that is not later, the readings compared without a sign. -/
def insert (timer : τ → Timer) (t : τ) : List τ → List τ
  | [] => [t]
  | u :: us =>
    if (timer u).timeoutTick - (timer t).timeoutTick = 0 then u :: insert timer t us
    else if (timer u).timeoutTick - (timer t).timeoutTick < RT_TICK_MAX / 2 then t :: u :: us
    else u :: insert timer t us

/-- The body of `rt_timer_start`. -/
def arm (s : Timers τ) (t : τ) : Timers τ :=
  let s := s.timerRemove t
  let s := s.write t { s.timer t with activated := true, timeoutTick := s.tick + (s.timer t).initTick }
  { s with
    timerList := insert s.timer t s.timerList
    starts := s.starts + 1
    start := Function.update s.start t ⟨s.starts, s.now, (s.timer t).initTick.toNat⟩ }

def rtTimerStart (s : Timers τ) (t : τ) : Option (Timers τ) :=
  if (s.timer t).isTimer then some (s.arm t) else none

def rtTimerStop (s : Timers τ) (t : τ) : Option (Timers τ × RtErr) :=
  if (s.timer t).isTimer then
    if (s.timer t).activated then some ((s.timerRemove t).write t { s.timer t with activated := false }, .eok)
    else some (s, .error)
  else none

/-- `rt_timer_control` with what it writes through `arg`. -/
def rtTimerControl (s : Timers τ) (t : τ) (cmd : Control) : Option (Timers τ × Option UInt32) :=
  if (s.timer t).isTimer then
    match cmd with
    | .getTime => some (s, some (s.timer t).initTick)
    | .setTime time =>
      if time < RT_TICK_MAX / 2 then some (s.write t { s.timer t with initTick := time }, none) else none
    | .setOneshot => some (s.write t { s.timer t with periodic := false }, none)
    | .setPeriodic => some (s.write t { s.timer t with periodic := true }, none)
    | .getState =>
      some (s, some (if (s.timer t).activated then RT_TIMER_FLAG_ACTIVATED else RT_TIMER_FLAG_DEACTIVATED))
    | .getRemainTime => some (s, some (s.timer t).timeoutTick)
  else none

def rtTimerNextTimeoutTick (s : Timers τ) : UInt32 :=
  match s.timerList with
  | [] => RT_TICK_MAX
  | t :: _ => (s.timer t).timeoutTick

/-- `rt_timer_check` takes a due timer out of the list; a periodic one stays activated. -/
def takeDue (s : Timers τ) (t : τ) : Timers τ :=
  if (s.timer t).periodic then s.timerRemove t
  else (s.timerRemove t).write t { s.timer t with activated := false }

/-- The timer goes into the temporary list, and its timeout function is called. -/
def fire (s : Timers τ) (t : τ) : Timers τ :=
  { s.takeDue t with
    list := t :: (s.takeDue t).list
    check := .calling t
    fired := s.fired ++ [⟨t, s.start t, s.now⟩] }

/-- The head of the loop of `rt_timer_check`. -/
def look (s : Timers τ) : Timers τ :=
  match s.timerList with
  | [] => { s with check := .left }
  | t :: _ =>
    if s.tick - (s.timer t).timeoutTick < RT_TICK_MAX / 2 then s.fire t else { s with check := .left }

/-- The timer whose timeout function has returned leaves the temporary list. -/
def put (s : Timers τ) (t : τ) : Timers τ := { s.timerRemove t with check := .looking }

/-- The rest of the loop: a timer that was stopped, deleted or started in the meantime is not in the temporary list. -/
def back (s : Timers τ) (t : τ) : Option (Timers τ) :=
  if s.list = [] then some { s with check := .looking }
  else if (s.timer t).periodic ∧ (s.timer t).activated then
    ((s.put t).write t { s.timer t with activated := false }).rtTimerStart t
  else some (s.put t)

def call (s : Timers τ) : Call τ → Option (Timers τ)
  | .init t time periodic => s.rtTimerInit t time periodic
  | .detach t => s.rtTimerDetach t
  | .start t => s.rtTimerStart t
  | .stop t => (s.rtTimerStop t).map Prod.fst
  | .control t cmd => (s.rtTimerControl t cmd).map Prod.fst

/-- `rt_tick_increase` is `tick`, and then `look` and `back` until the check is left. -/
def step (s : Timers τ) : Label τ → Option (Timers τ)
  | .call c => s.call c
  | .tick =>
    match s.check with
    | .left => some { s with tick := s.tick + 1, now := s.now + 1, check := .looking }
    | _ => none
  | .look =>
    match s.check with
    | .looking => some s.look
    | _ => none
  | .back =>
    match s.check with
    | .calling t => s.back t
    | _ => none

end

end Timers

/-! ## The order of the list -/

namespace Start

def deadline (x : Start) : Nat := x.since + x.wait

/-- The last tick at which a start is still to be served: a start for no ticks, made between two interrupts, is served by
the second one. -/
def last (x : Start) : Nat := if x.wait = 0 then x.since + 1 else x.since + x.wait

/-- **The order in which starts are served**: by deadline, and the earlier start first. -/
def Before (x y : Start) : Prop := x.deadline < y.deadline ∨ x.deadline = y.deadline ∧ x.serial < y.serial

theorem Before.trans {x y z : Start} (h : x.Before y) (h' : y.Before z) : x.Before z := by
  unfold Before at *
  omega

theorem Before.irrefl (x : Start) : ¬ x.Before x := by
  unfold Before
  omega

theorem deadline_le_last (x : Start) : x.deadline ≤ x.last := by
  unfold deadline last
  split <;> omega

theorem last_le (x : Start) : x.last ≤ x.deadline + 1 := by
  unfold deadline last
  split <;> omega

theorem last_of_pos {x : Start} (h : 0 < x.wait) : x.last = x.deadline := by
  unfold deadline last
  rw [if_neg (by omega)]

end Start

namespace Timers

open WrapClock

variable {τ : Type} [DecidableEq τ]

theorem mem_insert {timer : τ → Timer} {t u : τ} {l : List τ} : u ∈ insert timer t l ↔ u = t ∨ u ∈ l := by
  induction l with
  | nil => simp [insert]
  | cons v l ih =>
    unfold insert
    split_ifs
    · rw [List.mem_cons, ih, List.mem_cons]
      tauto
    · rw [List.mem_cons]
    · rw [List.mem_cons, ih, List.mem_cons]
      tauto

/-- **The walk finds the place.**  `R` orders the list, and the readings tell for each timer in it on which side of the
new one it belongs. -/
theorem insert_pairwise {timer : τ → Timer} {t : τ} {R : τ → τ → Prop} {deadline : τ → Nat} {l : List τ}
    (hl : l.Pairwise R) (hmono : ∀ u v, R u v → deadline u ≤ deadline v)
    (hzero : ∀ u ∈ l, (timer u).timeoutTick - (timer t).timeoutTick = 0 ↔ deadline u = deadline t)
    (hlt : ∀ u ∈ l, (timer u).timeoutTick - (timer t).timeoutTick < RT_TICK_MAX / 2 ↔ deadline t ≤ deadline u)
    (hle : ∀ u ∈ l, deadline u ≤ deadline t → R u t) (hgt : ∀ u ∈ l, deadline t < deadline u → R t u) :
    (insert timer t l).Pairwise R := by
  induction l with
  | nil => exact List.pairwise_singleton R t
  | cons v l ih =>
    obtain ⟨hv, hl⟩ := List.pairwise_cons.1 hl
    have ih := ih hl (fun u hu => hzero u (List.mem_cons_of_mem v hu)) (fun u hu => hlt u (List.mem_cons_of_mem v hu))
      (fun u hu => hle u (List.mem_cons_of_mem v hu)) (fun u hu => hgt u (List.mem_cons_of_mem v hu))
    have hpast : deadline v ≤ deadline t → (v :: insert timer t l).Pairwise R := by
      intro hd
      refine List.pairwise_cons.2 ⟨fun u hu => ?_, ih⟩
      rcases mem_insert.1 hu with rfl | hu
      · exact hle v List.mem_cons_self hd
      · exact hv u hu
    have h0 := hzero v List.mem_cons_self
    have h1 := hlt v List.mem_cons_self
    unfold insert
    split_ifs with h h'
    · exact hpast (h0.1 h).le
    · have hd : deadline t < deadline v := lt_of_le_of_ne (h1.1 h') (fun e => h (h0.2 e.symm))
      refine List.pairwise_cons.2 ⟨fun u hu => ?_, List.pairwise_cons.2 ⟨hv, hl⟩⟩
      rcases List.mem_cons.1 hu with rfl | hu'
      · exact hgt u List.mem_cons_self hd
      · exact hgt u hu (lt_of_lt_of_le hd (hmono v u (hv u hu')))
    · exact hpast (le_of_lt (not_le.1 (fun hd => h' (h1.2 hd))))

/-! ## A start -/

section
variable (s : Timers τ) {t u : τ}

@[simp] theorem arm_start_self : (s.arm t).start t = ⟨s.starts, s.now, (s.timer t).initTick.toNat⟩ := by
  simp [arm, write, timerRemove]

theorem arm_start_of_ne (h : u ≠ t) : (s.arm t).start u = s.start u := Function.update_of_ne h _ _

@[simp] theorem arm_timer_self : (s.arm t).timer t =
    { s.timer t with activated := true, timeoutTick := s.tick + (s.timer t).initTick } := Function.update_self _ _ _

theorem arm_timer_of_ne (h : u ≠ t) : (s.arm t).timer u = s.timer u := Function.update_of_ne h _ _

theorem mem_arm_timerList : u ∈ (s.arm t).timerList ↔ u = t ∨ u ∈ s.timerList.erase t := mem_insert

end

/-! ## A timer that is due -/

section
variable (s : Timers τ) {t u : τ}

theorem takeDue_timer_of_ne (h : u ≠ t) : (s.takeDue t).timer u = s.timer u := by
  unfold takeDue
  split
  · rfl
  · exact Function.update_of_ne h _ _

theorem takeDue_timer_self : (s.takeDue t).timer t =
    { s.timer t with activated := (s.timer t).activated && (s.timer t).periodic } := by
  unfold takeDue
  split
  · rename_i h
    have ha : ((s.timer t).activated && (s.timer t).periodic) = (s.timer t).activated := by rw [h, Bool.and_true]
    rw [ha]
    rfl
  · rename_i h
    simp [write, h]

@[simp] theorem takeDue_timerList : (s.takeDue t).timerList = s.timerList.erase t := by
  unfold takeDue
  split <;> rfl

@[simp] theorem takeDue_list : (s.takeDue t).list = s.list.erase t := by
  unfold takeDue
  split <;> rfl

@[simp] theorem takeDue_start : (s.takeDue t).start = s.start := by
  unfold takeDue
  split <;> rfl

@[simp] theorem takeDue_starts : (s.takeDue t).starts = s.starts := by
  unfold takeDue
  split <;> rfl

@[simp] theorem takeDue_now : (s.takeDue t).now = s.now := by
  unfold takeDue
  split <;> rfl

@[simp] theorem takeDue_fired : (s.takeDue t).fired = s.fired := by
  unfold takeDue
  split <;> rfl

end

end Timers

end Kernel
end RtPay
