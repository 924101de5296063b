import RtPay.Kernel.Timer
/-!
# Kernel.TimerRuns — what every run of the timers keeps

Whatever is called and wherever the tick wraps, the list stays in the order of the deadlines and no deadline in it has
passed (`Good`): the half range that `rt_timer_init` allows is what makes the comparisons of readings right.
-/
namespace RtPay
namespace Kernel
namespace Timers

open WrapClock

variable {τ : Type}

/-! ## What a call can do -/

/-- The lengths of the timers are in the range that the assertions allow. -/
def Small (s : Timers τ) : Prop := ∀ t, (s.timer t).initTick < RT_TICK_MAX / 2

section
variable [DecidableEq τ]

/-- **A call on a timer**: it leaves all as it is, changes the timer where that does not move it, takes it out of its list, or
puts it into the list anew. -/
inductive Touch (s : Timers τ) (t : τ) : Timers τ → Prop
  | stay : Touch s t s
  | change (x : Timer) (hinit : x.initTick < RT_TICK_MAX / 2) (h : t ∉ s.timerList ∧ t ∉ s.list ∨
      x.isTimer = (s.timer t).isTimer ∧ x.activated = (s.timer t).activated ∧ x.timeoutTick = (s.timer t).timeoutTick) :
      Touch s t (s.write t x)
  | unlink (x : Timer) (hinit : x.initTick = (s.timer t).initTick) : Touch s t ((s.timerRemove t).write t x)
  | arm (h : (s.timer t).isTimer) : Touch s t (s.arm t)

theorem touch_of_call {s s' : Timers τ} {c : Call τ} (hs : s.call c = some s') (hsmall : s.Small) :
    Touch s c.timer s' := by
  cases c with
  | init t time periodic =>
    simp only [call, rtTimerInit] at hs
    split at hs
    · rename_i h
      cases hs
      exact .change _ h.1 (Or.inl h.2)
    · cases hs
  | detach t =>
    simp only [call, rtTimerDetach] at hs
    split at hs
    · cases hs
      exact .unlink _ rfl
    · cases hs
  | start t =>
    simp only [call, rtTimerStart] at hs
    split at hs
    · rename_i h
      cases hs
      exact .arm h
    · cases hs
  | stop t =>
    simp only [call, rtTimerStop] at hs
    split at hs
    · split at hs
      · cases hs
        exact .unlink _ rfl
      · cases hs
        exact .stay
    · cases hs
  | control t cmd =>
    simp only [call, rtTimerControl] at hs
    split at hs
    · cases cmd with
      | setTime time =>
        simp only at hs
        split at hs
        · rename_i h
          cases hs
          exact .change _ h (Or.inr ⟨rfl, rfl, rfl⟩)
        · cases hs
      | setOneshot =>
        cases hs
        exact .change _ (hsmall t) (Or.inr ⟨rfl, rfl, rfl⟩)
      | setPeriodic =>
        cases hs
        exact .change _ (hsmall t) (Or.inr ⟨rfl, rfl, rfl⟩)
      | getTime =>
        cases hs
        exact .stay
      | getState =>
        cases hs
        exact .stay
      | getRemainTime =>
        cases hs
        exact .stay
    · cases hs

end

/-! ## The invariant -/

/-- **A timer in the list** reads its deadline, and has not missed it. -/
structure Armed (s : Timers τ) (t : τ) : Prop where
  isTimer : (s.timer t).isTimer
  activated : (s.timer t).activated
  timeout : (s.timer t).timeoutTick = reading (s.start t).deadline
  since : (s.start t).since ≤ s.now
  wait : (s.start t).wait < 0x7FFFFFFF
  serial : (s.start t).serial < s.starts
  last : s.now ≤ (s.start t).last
  left : s.check = .left → s.now < (s.start t).last

/-- **What has been served**, each in time and all in order. -/
structure Served (s : Timers τ) : Prop where
  sorted : s.fired.Pairwise (fun f g => f.start.Before g.start)
  due : ∀ f ∈ s.fired, f.start.deadline ≤ f.tick
  last : ∀ f ∈ s.fired, f.tick ≤ f.start.last
  now : ∀ f ∈ s.fired, f.tick ≤ s.now
  serial : ∀ f ∈ s.fired, f.start.serial < s.starts
  ahead : ∀ f ∈ s.fired, ∀ t ∈ s.timerList, f.start.Before (s.start t)

structure Good (s : Timers τ) : Prop where
  clock : s.tick = reading s.now
  small : s.Small
  armed : ∀ t ∈ s.timerList, s.Armed t
  sorted : s.timerList.Pairwise (fun t u => (s.start t).Before (s.start u))
  list : s.list = [] ∨ ∃ t, s.check = .calling t ∧ s.list = [t] ∧ t ∉ s.timerList ∧ (s.timer t).isTimer
  served : s.Served

theorem good_boot : (boot τ).Good where
  clock := rfl
  small := fun t => by simp [boot, RT_TICK_MAX]
  armed := fun t ht => by cases ht
  sorted := List.Pairwise.nil
  list := Or.inl rfl
  served := ⟨List.Pairwise.nil, by simp [boot], by simp [boot], by simp [boot], by simp [boot], by simp [boot]⟩

theorem Good.nodup {s : Timers τ} (h : s.Good) : s.timerList.Nodup :=
  h.sorted.imp (fun hb => by
    rintro rfl
    exact Start.Before.irrefl _ hb)

theorem Armed.deadline_lt {s : Timers τ} {t : τ} (h : s.Armed t) : (s.start t).deadline < s.now + 0x7FFFFFFF := by
  have h1 := h.since
  have h2 := h.wait
  unfold Start.deadline
  omega

theorem half_toNat : (RT_TICK_MAX / 2).toNat = 0x7FFFFFFF := by decide +kernel

/-- **Due or not** is what the readings tell. -/
theorem Good.due_iff {s : Timers τ} (h : s.Good) {t : τ} (ht : t ∈ s.timerList) :
    s.tick - (s.timer t).timeoutTick < RT_TICK_MAX / 2 ↔ (s.start t).deadline ≤ s.now := by
  have ha := h.armed t ht
  have h1 := ha.deadline_lt
  have h2 := ha.last
  have h3 := (s.start t).last_le
  rw [h.clock, ha.timeout]
  refine sub_lt_iff ?_ ?_ <;> rw [half_toNat] <;> omega

/-- **A start that is served at its deadline**, when it is one of some ticks. -/
theorem Good.now_eq_deadline {s : Timers τ} (h : s.Good) {t : τ} (ht : t ∈ s.timerList) (hw : 0 < (s.start t).wait)
    (hd : (s.start t).deadline ≤ s.now) : s.now = (s.start t).deadline := by
  have hlast := (h.armed t ht).last
  rw [Start.last_of_pos hw] at hlast
  exact le_antisymm hlast hd

/-- The timer in the temporary list is in no other. -/
theorem Good.of_calling {s : Timers τ} (h : s.Good) {t : τ} (hc : s.check = .calling t) (hl : s.list = [t]) :
    t ∉ s.timerList ∧ (s.timer t).isTimer := by
  rcases h.list with hnil | ⟨u, hcu, -, hu, hi⟩
  · rw [hl] at hnil
    cases hnil
  · rw [hc] at hcu
    cases hcu
    exact ⟨hu, hi⟩

/-! ## Frames -/

/-- A timer that is not touched stays as it is in the list. -/
theorem Armed.frame {s s' : Timers τ} {t : τ} (h : s.Armed t) (ht : s'.timer t = s.timer t) (hs : s'.start t = s.start t)
    (hnow : s'.now = s.now) (hstarts : s.starts ≤ s'.starts) (hleft : s'.check = .left → s.check = .left) :
    s'.Armed t where
  isTimer := by rw [ht]; exact h.isTimer
  activated := by rw [ht]; exact h.activated
  timeout := by rw [ht, hs]; exact h.timeout
  since := by rw [hs, hnow]; exact h.since
  wait := by rw [hs]; exact h.wait
  serial := by rw [hs]; exact lt_of_lt_of_le h.serial hstarts
  last := by rw [hs, hnow]; exact h.last
  left := by rw [hs, hnow]; exact fun hc => h.left (hleft hc)

theorem Served.frame {s s' : Timers τ} (h : s.Served) (hfired : s'.fired = s.fired) (hnow : s.now ≤ s'.now)
    (hstarts : s.starts ≤ s'.starts) (hahead : ∀ f ∈ s.fired, ∀ t ∈ s'.timerList, f.start.Before (s'.start t)) :
    s'.Served := by
  constructor
  · rw [hfired]
    exact h.sorted
  · rw [hfired]
    exact h.due
  · rw [hfired]
    exact h.last
  · rw [hfired]
    exact fun f hf => (h.now f hf).trans hnow
  · rw [hfired]
    exact fun f hf => lt_of_lt_of_le (h.serial f hf) hstarts
  · rw [hfired]
    exact hahead

section
variable [DecidableEq τ]

theorem Small.write {s : Timers τ} (h : s.Small) {t : τ} {x : Timer} (hx : x.initTick < RT_TICK_MAX / 2) :
    (s.write t x).Small := by
  intro u
  by_cases hu : u = t
  · subst hu
    simpa [Timers.write] using hx
  · simpa [Timers.write, hu] using h u

/-- **Out of the list**: what is said of the others still holds. -/
theorem Good.remove {s : Timers τ} (h : s.Good) (t : τ) : (s.timerRemove t).Good where
  clock := h.clock
  small := h.small
  armed := fun u hu => (h.armed u (List.mem_of_mem_erase hu)).frame rfl rfl rfl le_rfl id
  sorted := h.sorted.sublist List.erase_sublist
  list := by
    rcases h.list with hl | ⟨u, hc, hl, hu, hi⟩
    · left
      show s.list.erase t = []
      rw [hl]
      rfl
    · by_cases hut : u = t
      · left
        show s.list.erase t = []
        rw [hl, hut, List.erase_cons_head]
      · refine Or.inr ⟨u, hc, ?_, fun hm => hu (List.mem_of_mem_erase hm), hi⟩
        show s.list.erase t = [u]
        rw [hl, List.erase_of_not_mem (by simpa using Ne.symm hut)]
  served := h.served.frame rfl le_rfl le_rfl (fun f hf u hu => h.served.ahead f hf u (List.mem_of_mem_erase hu))

theorem Good.not_mem_remove {s : Timers τ} (h : s.Good) (t : τ) :
    t ∉ (s.timerRemove t).timerList ∧ t ∉ (s.timerRemove t).list := by
  refine ⟨h.nodup.not_mem_erase, fun hm => ?_⟩
  rcases h.list with hl | ⟨u, -, hl, -, -⟩
  · exact List.not_mem_nil (hl ▸ List.mem_of_mem_erase hm)
  · have hnd : s.list.Nodup := hl ▸ List.nodup_cons.2 ⟨List.not_mem_nil, List.nodup_nil⟩
    exact hnd.not_mem_erase hm

/-- A write to a timer that is in no list, or that leaves what the list needs. -/
theorem Good.write {s : Timers τ} (h : s.Good) {t : τ} {x : Timer} (hinit : x.initTick < RT_TICK_MAX / 2)
    (hx : t ∉ s.timerList ∧ t ∉ s.list ∨
      x.isTimer = (s.timer t).isTimer ∧ x.activated = (s.timer t).activated ∧ x.timeoutTick = (s.timer t).timeoutTick) :
    (s.write t x).Good where
  clock := h.clock
  small := h.small.write hinit
  armed := by
    intro u hu
    by_cases hut : u = t
    · subst hut
      obtain ⟨h1, h2, h3⟩ := hx.resolve_left (fun hn => hn.1 hu)
      have ha := h.armed u hu
      have hself : (s.write u x).timer u = x := Function.update_self _ _ _
      constructor
      · rw [hself, h1]
        exact ha.isTimer
      · rw [hself, h2]
        exact ha.activated
      · rw [hself, h3]
        exact ha.timeout
      · exact ha.since
      · exact ha.wait
      · exact ha.serial
      · exact ha.last
      · exact ha.left
    · exact (h.armed u hu).frame (Function.update_of_ne hut _ _) rfl rfl le_rfl id
  sorted := h.sorted
  list := by
    rcases h.list with hl | ⟨u, hc, hl, hu, hi⟩
    · exact Or.inl hl
    · refine Or.inr ⟨u, hc, hl, hu, ?_⟩
      by_cases hut : u = t
      · subst hut
        obtain ⟨h1, -, -⟩ := hx.resolve_left (fun hn => hn.2 (by rw [hl]; exact List.mem_singleton.2 rfl))
        show (Function.update s.timer u x u).isTimer = true
        rw [Function.update_self, h1]
        exact hi
      · show (Function.update s.timer t x u).isTimer = true
        rw [Function.update_of_ne hut]
        exact hi
  served := h.served.frame rfl le_rfl le_rfl h.served.ahead

end

/-- Another place in the check; to leave it, no timer in the list may be due. -/
theorem Good.goes {s : Timers τ} (h : s.Good) {c : Check τ} (hc : s.list = [] ∨ c = s.check)
    (hleft : c = .left → ∀ t ∈ s.timerList, s.now < (s.start t).last) : ({ s with check := c } : Timers τ).Good where
  clock := h.clock
  small := h.small
  armed := by
    intro t ht
    have ha := h.armed t ht
    exact ⟨ha.isTimer, ha.activated, ha.timeout, ha.since, ha.wait, ha.serial, ha.last, fun hl => hleft hl t ht⟩
  sorted := h.sorted
  list := by
    rcases hc with hc | rfl
    · exact Or.inl hc
    · exact h.list
  served := h.served.frame rfl le_rfl le_rfl h.served.ahead

theorem Good.list_eq_nil {s : Timers τ} (h : s.Good) (hc : ∀ t, s.check ≠ .calling t) : s.list = [] := by
  rcases h.list with hl | ⟨t, ht, -⟩
  · exact hl
  · exact absurd ht (hc t)

/-! ## The steps -/

section
variable [DecidableEq τ]

/-- **A start puts the timer in its place.** -/
theorem Good.arm {s : Timers τ} (h : s.Good) {t : τ} (ht : (s.timer t).isTimer) : (s.arm t).Good := by
  have hr := h.remove t
  obtain ⟨hnl, hntemp⟩ := h.not_mem_remove t
  have hw := h.small t
  rw [UInt32.lt_iff_toNat_lt, half_toNat] at hw
  have hne : ∀ u ∈ (s.timerRemove t).timerList, u ≠ t := fun u hu => ne_of_mem_of_not_mem hu hnl
  have hlast : s.now < ((s.arm t).start t).last := by
    rw [arm_start_self]
    unfold Start.last
    split <;> dsimp only at * <;> omega
  have harmed : ∀ u ∈ (s.timerRemove t).timerList, (s.arm t).Armed u := fun u hu =>
    (hr.armed u hu).frame (s.arm_timer_of_ne (hne u hu)) (s.arm_start_of_ne (hne u hu)) rfl (Nat.le_succ _) id
  have harmed_t : (s.arm t).Armed t := by
    constructor
    · rw [arm_timer_self]
      exact ht
    · rw [arm_timer_self]
    · rw [arm_timer_self, arm_start_self]
      show s.tick + _ = _
      rw [h.clock, reading_add]
      rfl
    · rw [arm_start_self]
      exact le_rfl
    · rw [arm_start_self]
      exact hw
    · rw [arm_start_self]
      exact Nat.lt_succ_self _
    · exact hlast.le
    · exact fun _ => hlast
  -- the new start is after every one of its deadline, since it has the highest number
  have hbefore : ∀ x : Start, x.serial < s.starts → x.deadline ≤ ((s.arm t).start t).deadline →
      x.Before ((s.arm t).start t) := by
    intro x hx hd
    unfold Start.Before
    rw [arm_start_self] at hd ⊢
    dsimp only at *
    omega
  have hdeadline : ((s.arm t).start t).deadline = s.now + (s.timer t).initTick.toNat := by
    rw [arm_start_self]
    rfl
  constructor
  · exact h.clock
  · exact h.small.write (h.small t)
  · intro u hu
    rcases s.mem_arm_timerList.1 hu with rfl | hu
    · exact harmed_t
    · exact harmed u hu
  · have hsorted : (s.timerRemove t).timerList.Pairwise (fun u v => ((s.arm t).start u).Before ((s.arm t).start v)) :=
      hr.sorted.imp_of_mem (fun hu hv hb => by
        rw [s.arm_start_of_ne (hne _ hu), s.arm_start_of_ne (hne _ hv)]
        exact hb)
    have hfar : ∀ u ∈ (s.timerRemove t).timerList,
        s.now ≤ ((s.arm t).start u).deadline + 1 ∧ ((s.arm t).start u).deadline < s.now + 0x7FFFFFFF := by
      intro u hu
      have h1 := (harmed u hu).deadline_lt
      have h2 := (harmed u hu).last
      have h3 := ((s.arm t).start u).last_le
      exact ⟨h2.trans h3, h1⟩
    refine @insert_pairwise τ _ _ t _ (fun u => ((s.arm t).start u).deadline) _ hsorted ?_ ?_ ?_ ?_ ?_
    · intro u v hb
      rcases hb with hb | hb
      · exact hb.le
      · exact hb.1.le
    · intro u hu
      have hn := hfar u hu
      show ((s.arm t).timer u).timeoutTick - ((s.arm t).timer t).timeoutTick = 0 ↔ _
      rw [(harmed u hu).timeout, harmed_t.timeout]
      refine sub_eq_zero_iff ?_ ?_ <;> omega
    · intro u hu
      have hn := hfar u hu
      show ((s.arm t).timer u).timeoutTick - ((s.arm t).timer t).timeoutTick < RT_TICK_MAX / 2 ↔ _
      rw [(harmed u hu).timeout, harmed_t.timeout]
      refine sub_lt_iff ?_ ?_ <;> rw [half_toNat] <;> omega
    · intro u hu hd
      refine hbefore _ ?_ hd
      rw [s.arm_start_of_ne (hne u hu)]
      exact (hr.armed u hu).serial
    · exact fun u hu hd => Or.inl hd
  · rcases hr.list with hl | ⟨u, hc, hl, hu, hi⟩
    · exact Or.inl hl
    · have hut : u ≠ t := by
        rintro rfl
        exact hntemp (hl ▸ List.mem_singleton.2 rfl)
      refine Or.inr ⟨u, hc, hl, fun hm => ?_, ?_⟩
      · rcases s.mem_arm_timerList.1 hm with e | hm
        · exact hut e
        · exact hu hm
      · rw [s.arm_timer_of_ne hut]
        exact hi
  · refine h.served.frame rfl le_rfl (Nat.le_succ _) (fun f hf u hu => ?_)
    rcases s.mem_arm_timerList.1 hu with rfl | hu
    · refine hbefore _ (h.served.serial f hf) ?_
      have h1 := h.served.due f hf
      have h2 := h.served.now f hf
      omega
    · rw [s.arm_start_of_ne (hne u hu)]
      exact hr.served.ahead f hf u hu

theorem Good.touch {s s' : Timers τ} {t : τ} (h : s.Good) (hs : Touch s t s') : s'.Good := by
  cases hs with
  | stay => exact h
  | change x hinit hx => exact h.write hinit hx
  | unlink x hinit =>
    refine (h.remove t).write ?_ (Or.inl (h.not_mem_remove t))
    rw [hinit]
    exact h.small t
  | arm ht => exact h.arm ht

end

/-- **A tick** brings the deadlines nearer by one. -/
theorem Good.tick {s : Timers τ} (h : s.Good) (hc : s.check = .left) :
    ({ s with tick := s.tick + 1, now := s.now + 1, check := .looking } : Timers τ).Good where
  clock := by
    show s.tick + 1 = _
    rw [h.clock]
    exact reading_add s.now 1
  small := h.small
  armed := by
    intro t ht
    have ha := h.armed t ht
    exact ⟨ha.isTimer, ha.activated, ha.timeout, Nat.le_succ_of_le ha.since, ha.wait, ha.serial, ha.left hc,
      fun hl => by cases hl⟩
  sorted := h.sorted
  list := Or.inl (h.list_eq_nil (fun t ht => by rw [hc] at ht; cases ht))
  served := h.served.frame rfl (Nat.le_succ _) le_rfl h.served.ahead

/-- **The check leaves** when the first timer is not due, and so no timer is. -/
theorem Good.leave {s : Timers τ} (h : s.Good) (hc : s.check = .looking)
    (hhead : ∀ t rest, s.timerList = t :: rest → s.now < (s.start t).deadline) :
    ({ s with check := .left } : Timers τ).Good := by
  refine h.goes (Or.inl (h.list_eq_nil (fun t ht => by rw [hc] at ht; cases ht))) (fun _ t ht => ?_)
  refine lt_of_lt_of_le ?_ (s.start t).deadline_le_last
  cases hl : s.timerList with
  | nil =>
    rw [hl] at ht
    cases ht
  | cons u rest =>
    have hd := hhead u rest hl
    rw [hl] at ht
    rcases List.mem_cons.1 ht with rfl | ht
    · exact hd
    · have hb := (List.pairwise_cons.1 (hl ▸ h.sorted)).1 t ht
      unfold Start.Before at hb
      omega

/-- **A timer is served**: it is in the temporary list while its timeout function runs. -/
theorem Good.serve {s : Timers τ} (h : s.Good) {t : τ} (hlist : s.list = []) (ht : t ∉ s.timerList)
    (hi : (s.timer t).isTimer) {f : Fire τ} (hdue : f.start.deadline ≤ f.tick) (hlast : f.tick ≤ f.start.last)
    (hnow : f.tick = s.now) (hserial : f.start.serial < s.starts) (hbehind : ∀ g ∈ s.fired, g.start.Before f.start)
    (hahead : ∀ u ∈ s.timerList, f.start.Before (s.start u)) :
    ({ s with list := t :: s.list, check := .calling t, fired := s.fired ++ [f] } : Timers τ).Good where
  clock := h.clock
  small := h.small
  armed := fun u hu => (h.armed u hu).frame rfl rfl rfl le_rfl (fun hl => by cases hl)
  sorted := h.sorted
  list := Or.inr ⟨t, rfl, by rw [hlist], ht, hi⟩
  served := by
    have hs := h.served
    constructor
    · refine List.pairwise_append.2 ⟨hs.sorted, List.pairwise_singleton _ _, fun g hg f' hf' => ?_⟩
      rw [List.mem_singleton.1 hf']
      exact hbehind g hg
    · simp only [List.mem_append, List.mem_singleton]
      rintro g (hg | rfl)
      · exact hs.due g hg
      · exact hdue
    · simp only [List.mem_append, List.mem_singleton]
      rintro g (hg | rfl)
      · exact hs.last g hg
      · exact hlast
    · simp only [List.mem_append, List.mem_singleton]
      rintro g (hg | rfl)
      · exact hs.now g hg
      · exact hnow.le
    · simp only [List.mem_append, List.mem_singleton]
      rintro g (hg | rfl)
      · exact hs.serial g hg
      · exact hserial
    · simp only [List.mem_append, List.mem_singleton]
      rintro g (hg | rfl)
      · exact hs.ahead g hg
      · exact hahead

section
variable [DecidableEq τ]

theorem Good.takeDue {s : Timers τ} (h : s.Good) (t : τ) : (s.takeDue t).Good := by
  unfold Timers.takeDue
  split
  · exact h.remove t
  · exact (h.remove t).write (h.small t) (Or.inl (h.not_mem_remove t))

theorem Good.fire {s : Timers τ} (h : s.Good) {t : τ} {rest : List τ} (hc : s.check = .looking)
    (hl : s.timerList = t :: rest) (hd : (s.start t).deadline ≤ s.now) : (s.fire t).Good := by
  have ht : t ∈ s.timerList := hl ▸ List.mem_cons_self
  have ha := h.armed t ht
  have hnil := h.list_eq_nil (fun u hu => by rw [hc] at hu; cases hu)
  have hfire : s.fire t = { s.takeDue t with
      list := t :: (s.takeDue t).list, check := .calling t, fired := (s.takeDue t).fired ++ [⟨t, s.start t, s.now⟩] } := by
    rw [takeDue_fired]
    rfl
  rw [hfire]
  refine (h.takeDue t).serve ?_ ?_ ?_ hd ha.last (by simp) (by simpa using ha.serial) ?_ ?_
  · rw [takeDue_list, hnil]
    rfl
  · rw [takeDue_timerList]
    exact h.nodup.not_mem_erase
  · rw [takeDue_timer_self]
    exact ha.isTimer
  · intro g hg
    rw [takeDue_fired] at hg
    exact h.served.ahead g hg t ht
  · intro u hu
    rw [takeDue_timerList, hl, List.erase_cons_head] at hu
    rw [takeDue_start]
    exact (List.pairwise_cons.1 (hl ▸ h.sorted)).1 u hu

/-! ## What a step can do -/

/-- A periodic timer is started again. -/
def restart (s : Timers τ) (t : τ) : Timers τ := ((s.put t).write t { s.timer t with activated := false }).arm t

theorem restart_timer_self (s : Timers τ) (t : τ) : (s.restart t).timer t =
    { s.timer t with activated := true, timeoutTick := s.tick + (s.timer t).initTick } := by
  unfold restart
  rw [arm_timer_self]
  simp [write, put, timerRemove]

theorem restart_start_self (s : Timers τ) (t : τ) :
    (s.restart t).start t = ⟨s.starts, s.now, (s.timer t).initTick.toNat⟩ := by
  unfold restart
  rw [arm_start_self]
  simp [write, put, timerRemove]

theorem restart_timer_of_ne (s : Timers τ) {t u : τ} (h : u ≠ t) : (s.restart t).timer u = s.timer u :=
  (arm_timer_of_ne _ h).trans (Function.update_of_ne h _ _)

theorem restart_start_of_ne (s : Timers τ) {t u : τ} (h : u ≠ t) : (s.restart t).start u = s.start u :=
  arm_start_of_ne _ h

theorem restart_timerList (s : Timers τ) (t : τ) :
    (s.restart t).timerList = insert (s.restart t).timer t ((s.timerList.erase t).erase t) := rfl

/-- **The moves**: a call, the clock, and what `rt_timer_check` does before and after a timeout function. -/
inductive Move (s : Timers τ) : Label τ → Timers τ → Prop
  | call (c : Call τ) (s' : Timers τ) (h : Touch s c.timer s') : Move s (.call c) s'
  | tick (hc : s.check = .left) : Move s .tick { s with tick := s.tick + 1, now := s.now + 1, check := .looking }
  | fire (t : τ) (rest : List τ) (hc : s.check = .looking) (hl : s.timerList = t :: rest)
      (hd : (s.start t).deadline ≤ s.now) : Move s .look (s.fire t)
  | leave (hc : s.check = .looking) (hhead : ∀ t rest, s.timerList = t :: rest → s.now < (s.start t).deadline) :
      Move s .look { s with check := .left }
  | again (t : τ) (hc : s.check = .calling t) (hl : s.list = []) : Move s .back { s with check := .looking }
  | restart (t : τ) (hc : s.check = .calling t) (hl : s.list = [t]) (hp : (s.timer t).periodic)
      (ha : (s.timer t).activated) : Move s .back (s.restart t)
  | drop (t : τ) (hc : s.check = .calling t) (hl : s.list = [t])
      (hn : ¬ ((s.timer t).periodic ∧ (s.timer t).activated)) : Move s .back (s.put t)

theorem move_of_look {s : Timers τ} (h : s.Good) (hc : s.check = .looking) : Move s .look s.look := by
  unfold look
  split
  · rename_i hl
    refine .leave hc (fun t rest ht => ?_)
    rw [hl] at ht
    cases ht
  · rename_i t rest hl
    have hdue := h.due_iff (hl ▸ List.mem_cons_self : t ∈ s.timerList)
    split
    · rename_i hlt
      exact .fire t rest hc hl (hdue.1 hlt)
    · rename_i hlt
      refine .leave hc (fun u rest' hu => ?_)
      rw [hl] at hu
      cases hu
      exact not_le.1 (fun hd => hlt (hdue.2 hd))

theorem move_of_back {s s' : Timers τ} {t : τ} (h : s.Good) (hc : s.check = .calling t) (hs : s.back t = some s') :
    Move s .back s' := by
  simp only [back] at hs
  rcases h.list with hl | ⟨u, hcu, hl, -, -⟩
  · rw [if_pos hl] at hs
    cases hs
    exact .again t hc hl
  · rw [hc] at hcu
    cases hcu
    rw [if_neg (by simp [hl])] at hs
    split at hs
    · rename_i hpa
      simp only [rtTimerStart] at hs
      split at hs
      · cases hs
        exact .restart t hc hl hpa.1 hpa.2
      · cases hs
    · rename_i hn
      cases hs
      exact .drop t hc hl hn

theorem move_of_step {s s' : Timers τ} {l : Label τ} (h : s.Good) (hs : step s l = some s') : Move s l s' := by
  cases l with
  | call c => exact .call c s' (touch_of_call hs h.small)
  | tick =>
    simp only [step] at hs
    split at hs
    · rename_i hc
      cases hs
      exact .tick hc
    · cases hs
  | look =>
    simp only [step] at hs
    split at hs
    · rename_i hc
      cases hs
      exact move_of_look h hc
    · cases hs
  | back =>
    simp only [step] at hs
    split at hs
    · rename_i t hc
      exact move_of_back h hc hs
    · cases hs

theorem Good.put {s : Timers τ} (h : s.Good) {t : τ} (hl : s.list = [t]) : (s.put t).Good := by
  refine (h.remove t).goes (Or.inl ?_) (fun hc => by cases hc)
  show s.list.erase t = []
  rw [hl, List.erase_cons_head]

theorem Good.move {s s' : Timers τ} {l : Label τ} (h : s.Good) (hm : Move s l s') : s'.Good := by
  cases hm with
  | call c _ ht => exact h.touch ht
  | tick hc => exact h.tick hc
  | fire t rest hc hl hd => exact h.fire hc hl hd
  | leave hc hhead => exact h.leave hc hhead
  | again t hc hl => exact h.goes (Or.inl hl) (fun hc => by cases hc)
  | restart t hc hl hp ha =>
    have hi := (h.of_calling hc hl).2
    have hw := (h.put hl).write (x := { s.timer t with activated := false }) (h.small t) (Or.inl (h.not_mem_remove t))
    refine hw.arm ?_
    show (Function.update s.timer t _ t).isTimer = true
    rw [Function.update_self]
    exact hi
  | drop t hc hl hn => exact h.put hl

theorem Good.step {s s' : Timers τ} {l : Label τ} (h : s.Good) (hs : step s l = some s') : s'.Good :=
  h.move (move_of_step h hs)

theorem good_of_run {s : Timers τ} {ls : List (Label τ)} (hr : Run.run step (boot τ) ls = some s) : s.Good :=
  Run.run_invariant_of_step (fun _ _ _ h hs => h.step hs) good_boot hr

/-- **On time, and in order.**  A timeout function is called at the deadline of its start; one tick later at most, and
only for a start of no ticks.  The calls come in the order of the deadlines, and of the starts where these agree; what
is still in the list comes after them, and between two interrupts its time is ahead. -/
theorem timers_on_time {s : Timers τ} {ls : List (Label τ)} (hr : Run.run step (boot τ) ls = some s) :
    (∀ f ∈ s.fired, f.start.deadline ≤ f.tick ∧ f.tick ≤ f.start.last) ∧
      s.fired.Pairwise (fun f g => f.start.Before g.start) ∧
      (∀ f ∈ s.fired, ∀ t ∈ s.timerList, f.start.Before (s.start t)) ∧
      (s.check = .left → ∀ t ∈ s.timerList, s.now < (s.start t).last) := by
  have h := good_of_run hr
  exact ⟨fun f hf => ⟨h.served.due f hf, h.served.last f hf⟩, h.served.sorted, h.served.ahead,
    fun hc t ht => (h.armed t ht).left hc⟩

theorem timers_on_time_zero_ticks :
    ∃ s, Run.run step (boot Bool)
        [.call (.init true 2 true), .call (.init false 0 false), .call (.start true), .call (.start false), .tick, .look,
          .back, .look, .tick, .look, .back, .look] = some s ∧
      (∀ f ∈ s.fired, f.start.deadline ≤ f.tick ∧ f.tick ≤ f.start.last) ∧
      s.fired.Pairwise (fun f g => f.start.Before g.start) ∧
      (∀ f ∈ s.fired, ∀ t ∈ s.timerList, f.start.Before (s.start t)) ∧
      (s.check = .left → ∀ t ∈ s.timerList, s.now < (s.start t).last) :=
  Exists.imp (fun _ hs => ⟨hs, timers_on_time hs⟩) (Option.isSome_iff_exists.1 (by decide +kernel))

/-! ## What the flag tells -/

/-- No timeout function makes its own timer one for a single shot: the timer would stay activated, and be in no list. -/
def KeepsPeriod (s : Timers τ) (l : Label τ) : Prop := ∀ t, l = .call (.control t .setOneshot) → t ∉ s.list

/-- **An activated timer is in the list**, or is periodic and being served. -/
def Told (s : Timers τ) : Prop :=
  ∀ t, (s.timer t).activated → t ∈ s.timerList ∨ t ∈ s.list ∧ (s.timer t).periodic

theorem Told.write {s : Timers τ} (h : s.Told) {t : τ} {x : Timer}
    (hx : x.activated → t ∈ s.timerList ∨ t ∈ s.list ∧ x.periodic) : (s.write t x).Told := by
  intro u
  show (Function.update s.timer t x u).activated = true → u ∈ s.timerList ∨
    u ∈ s.list ∧ (Function.update s.timer t x u).periodic = true
  by_cases hu : u = t
  · subst hu
    rw [Function.update_self]
    exact hx
  · rw [Function.update_of_ne hu]
    exact h u

theorem Told.unlink {s : Timers τ} (h : s.Told) {t : τ} {x : Timer} (hx : x.activated = false) :
    ((s.timerRemove t).write t x).Told := by
  intro u
  show (Function.update s.timer t x u).activated = true → u ∈ s.timerList.erase t ∨
    u ∈ s.list.erase t ∧ (Function.update s.timer t x u).periodic = true
  by_cases hu : u = t
  · subst hu
    rw [Function.update_self, hx]
    exact fun hf => by cases hf
  · rw [Function.update_of_ne hu, List.mem_erase_of_ne hu, List.mem_erase_of_ne hu]
    exact h u

theorem Told.arm {s : Timers τ} (h : s.Told) (t : τ) : (s.arm t).Told := by
  intro u ha
  by_cases hu : u = t
  · exact Or.inl (s.mem_arm_timerList.2 (Or.inl hu))
  · rw [s.arm_timer_of_ne hu] at ha ⊢
    rcases h u ha with hm | ⟨hm, hp⟩
    · exact Or.inl (s.mem_arm_timerList.2 (Or.inr ((List.mem_erase_of_ne hu).2 hm)))
    · exact Or.inr ⟨(List.mem_erase_of_ne hu).2 hm, hp⟩

theorem Told.call {s s' : Timers τ} {c : Call τ} (h : s.Told) (hk : KeepsPeriod s (.call c)) (hs : s.call c = some s') :
    s'.Told := by
  cases c with
  | init t time periodic =>
    simp only [Timers.call, rtTimerInit] at hs
    split at hs
    · cases hs
      exact h.write (fun hf => by cases hf)
    · cases hs
  | detach t =>
    simp only [Timers.call, rtTimerDetach] at hs
    split at hs
    · cases hs
      exact h.unlink rfl
    · cases hs
  | start t =>
    simp only [Timers.call, rtTimerStart] at hs
    split at hs
    · cases hs
      exact h.arm t
    · cases hs
  | stop t =>
    simp only [Timers.call, rtTimerStop] at hs
    split at hs
    · split at hs
      · cases hs
        exact h.unlink rfl
      · cases hs
        exact h
    · cases hs
  | control t cmd =>
    simp only [Timers.call, rtTimerControl] at hs
    split at hs
    · cases cmd with
      | setTime time =>
        simp only at hs
        split at hs
        · cases hs
          exact h.write (h t)
        · cases hs
      | setOneshot =>
        cases hs
        refine h.write (fun ha => Or.inl ?_)
        exact (h t ha).resolve_right (fun hl => hk t rfl hl.1)
      | setPeriodic =>
        cases hs
        exact h.write (fun ha => (h t ha).imp_right (fun hl => ⟨hl.1, rfl⟩))
      | getTime =>
        cases hs
        exact h
      | getState =>
        cases hs
        exact h
      | getRemainTime =>
        cases hs
        exact h
    · cases hs

theorem Told.fire {s : Timers τ} (h : s.Told) (hlist : s.list = []) (t : τ) : (s.fire t).Told := by
  intro u ha
  by_cases hu : u = t
  · subst hu
    change ((s.takeDue u).timer u).activated = true at ha
    rw [takeDue_timer_self] at ha
    refine Or.inr ⟨List.mem_cons_self, ?_⟩
    show ((s.takeDue u).timer u).periodic = true
    rw [takeDue_timer_self]
    exact (Bool.and_eq_true_iff.1 ha).2
  · change ((s.takeDue t).timer u).activated = true at ha
    rw [s.takeDue_timer_of_ne hu] at ha
    left
    show u ∈ (s.takeDue t).timerList
    rw [takeDue_timerList, List.mem_erase_of_ne hu]
    refine (h u ha).resolve_right (fun hl => ?_)
    rw [hlist] at hl
    exact List.not_mem_nil hl.1

theorem Told.put {s : Timers τ} (h : s.Told) {t : τ} (hl : s.list = [t]) (hn : ¬ (s.timer t).activated) :
    (s.put t).Told := by
  intro u ha
  have hu : u ≠ t := by
    rintro rfl
    exact hn ha
  left
  show u ∈ s.timerList.erase t
  rw [List.mem_erase_of_ne hu]
  refine (h u ha).resolve_right (fun hm => hu ?_)
  rw [hl] at hm
  exact List.mem_singleton.1 hm.1

theorem Told.step {s s' : Timers τ} {l : Label τ} (hg : s.Good) (h : s.Told) (hk : KeepsPeriod s l)
    (hs : step s l = some s') : s'.Told := by
  cases move_of_step hg hs with
  | call c _ _ => exact h.call hk hs
  | tick hc => exact h
  | fire t rest hc hl hd => exact h.fire (hg.list_eq_nil (fun u hu => by rw [hc] at hu; cases hu)) t
  | leave hc hhead => exact h
  | again t hc hl => exact h
  | restart t hc hl hp ha =>
    have hm : ((s.put t).write t { s.timer t with activated := false }).Told := h.unlink (t := t) rfl
    exact hm.arm t
  | drop t hc hl hn =>
    refine h.put hl (fun ha => ?_)
    rcases h t ha with hm | ⟨-, hp⟩
    · exact (hg.of_calling hc hl).1 hm
    · exact hn ⟨hp, ha⟩

/-- **The flag tells the truth** between two interrupts: `RT_TIMER_CTRL_GET_STATE` says activated, and `rt_timer_stop`
succeeds, for the timers whose timeout functions are still to be called and for no other. -/
theorem activated_iff {s : Timers τ} {ls : List (Label τ)} (hr : Run.run step (boot τ) ls = some s)
    (hk : Run.Along step KeepsPeriod (boot τ) ls) (hc : s.check = .left) (t : τ) :
    (s.timer t).activated ↔ t ∈ s.timerList := by
  have hgood := good_of_run hr
  have htold := (Run.run_invariant (P := fun s => s.Good ∧ s.Told)
    (fun _ _ _ h hk hs => ⟨h.1.step hs, h.2.step h.1 hk hs⟩) ⟨good_boot, fun _ hf => by cases hf⟩ hk hr).2
  refine ⟨fun ha => (htold t ha).resolve_right (fun hm => ?_), fun hm => (hgood.armed t hm).activated⟩
  rw [hgood.list_eq_nil (fun u hu => by rw [hc] at hu; cases hu)] at hm
  exact List.not_mem_nil hm.1

theorem activated_iff_stopped :
    let s := (Run.run step (boot Bool)
      [.call (.init true 1 true), .call (.init false 3 false), .call (.start true), .call (.start false), .tick, .look,
        .call (.stop false), .call (.control true (.setTime 5)), .back, .look]).get (by decide +kernel)
    (s.timer true).activated ↔ true ∈ s.timerList :=
  activated_iff (Option.some_get _).symm
    (Run.along_of_forall_mem (fun l hl s t e => by subst e; simp at hl) _) (by decide +kernel) true

/-- The guard is needed: this timer stays activated, and is in no list. -/
example : (Run.run step (boot Bool)
    [.call (.init true 1 true), .call (.start true), .tick, .look, .call (.control true .setOneshot), .back, .look]).any
    (fun s => s.check = .left ∧ (s.timer true).activated ∧ true ∉ s.timerList) = true := by decide +kernel

/-- `rt_timer_next_timeout_tick` reads the earliest deadline. -/
theorem next_timeout_tick {s : Timers τ} {ls : List (Label τ)} (hr : Run.run step (boot τ) ls = some s)
    (hne : s.timerList ≠ []) :
    ∃ t ∈ s.timerList, s.rtTimerNextTimeoutTick = reading (s.start t).deadline ∧
      ∀ u ∈ s.timerList, (s.start t).deadline ≤ (s.start u).deadline := by
  have h := good_of_run hr
  obtain ⟨t, rest, hl⟩ := List.exists_cons_of_ne_nil hne
  have ht : t ∈ s.timerList := hl ▸ List.mem_cons_self
  refine ⟨t, ht, ?_, fun u hu => ?_⟩
  · unfold rtTimerNextTimeoutTick
    rw [hl]
    exact (h.armed t ht).timeout
  · rw [hl] at hu
    rcases List.mem_cons.1 hu with rfl | hu
    · exact le_rfl
    · rcases (List.pairwise_cons.1 (hl ▸ h.sorted)).1 u hu with hb | hb
      · exact hb.le
      · exact hb.1.le

end

end Timers
end Kernel
end RtPay
