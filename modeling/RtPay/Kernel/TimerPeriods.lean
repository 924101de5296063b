import Mathlib.Data.List.Range
import RtPay.Kernel.TimerRuns
/-!
# Kernel.TimerPeriods — what a timer does that is left alone

From its start on, a timer that no call touches is served at exact ticks, whatever the other timers and their timeout
functions do: a timer for one shot once, a periodic timer at every multiple of its length, without drift, also over the
wrap of the tick.  One check serves the timers that are due, each once, and comes to its end.
-/
namespace RtPay
namespace Kernel
namespace Timers

variable {τ : Type}

/-- No call of the run is on the timer. -/
def Spares (t : τ) (ls : List (Label τ)) : Prop := ∀ c, Label.call c ∈ ls → c.timer ≠ t

theorem Spares.head {t : τ} {l : Label τ} {ls : List (Label τ)} (h : Spares t (l :: ls)) : Spares t [l] :=
  fun c hc => h c (by rw [List.mem_singleton.1 hc]; exact List.mem_cons_self)

theorem Spares.tail {t : τ} {l : Label τ} {ls : List (Label τ)} (h : Spares t (l :: ls)) : Spares t ls :=
  fun c hc => h c (List.mem_cons_of_mem l hc)

section
variable [DecidableEq τ]

/-- The ticks at which the timeout function of a timer was called. -/
def firedAt (s : Timers τ) (t : τ) : List Nat := (s.fired.filter (fun f => f.timer = t)).map Fire.tick

/-! ## Steps of others -/

/-- **What a step of others leaves** to a timer. -/
structure Quiet (t : τ) (s s' : Timers τ) : Prop where
  timer : s'.timer t = s.timer t
  start : s'.start t = s.start t
  timerList : t ∈ s'.timerList ↔ t ∈ s.timerList
  fired : s'.firedAt t = s.firedAt t
  now : s.now ≤ s'.now
  calling : s.check = .calling t ∧ s.list = [t] → s'.check = .calling t ∧ s'.list = [t] ∧ s'.now = s.now

theorem quiet_of_remove (s : Timers τ) {t u : τ} (h : t ≠ u) : Quiet t s (s.timerRemove u) where
  timer := rfl
  start := rfl
  timerList := List.mem_erase_of_ne h
  fired := rfl
  now := le_rfl
  calling := fun ⟨hc, hl⟩ => by
    refine ⟨hc, ?_, rfl⟩
    show s.list.erase u = [t]
    rw [hl, List.erase_of_not_mem (by simpa using h.symm)]

theorem quiet_of_write (s : Timers τ) {t u : τ} (h : t ≠ u) (x : Timer) : Quiet t s (s.write u x) where
  timer := Function.update_of_ne h _ _
  start := rfl
  timerList := Iff.rfl
  fired := rfl
  now := le_rfl
  calling := fun ⟨hc, hl⟩ => ⟨hc, hl, rfl⟩

theorem quiet_of_arm (s : Timers τ) {t u : τ} (h : t ≠ u) : Quiet t s (s.arm u) where
  timer := s.arm_timer_of_ne h
  start := s.arm_start_of_ne h
  timerList := by
    rw [mem_arm_timerList, List.mem_erase_of_ne h]
    simp [h]
  fired := rfl
  now := le_rfl
  calling := (quiet_of_remove s h).calling

theorem Quiet.trans {t : τ} {s s' s'' : Timers τ} (h : Quiet t s s') (h' : Quiet t s' s'') : Quiet t s s'' where
  timer := h'.timer.trans h.timer
  start := h'.start.trans h.start
  timerList := h'.timerList.trans h.timerList
  fired := h'.fired.trans h.fired
  now := h.now.trans h'.now
  calling := fun hc => by
    obtain ⟨h1, h2, h3⟩ := h.calling hc
    obtain ⟨h4, h5, h6⟩ := h'.calling ⟨h1, h2⟩
    exact ⟨h4, h5, h6.trans h3⟩

theorem quiet_of_touch {s s' : Timers τ} {t u : τ} (hs : Touch s u s') (h : t ≠ u) : Quiet t s s' := by
  cases hs with
  | stay => exact ⟨rfl, rfl, Iff.rfl, rfl, le_rfl, fun ⟨hc, hl⟩ => ⟨hc, hl, rfl⟩⟩
  | change x hinit hx => exact quiet_of_write s h x
  | unlink x hinit => exact (quiet_of_remove s h).trans (quiet_of_write _ h x)
  | arm ht => exact quiet_of_arm s h

/-- The steps that are not quiet for a timer are those of the check that serves it. -/
inductive Serving (t : τ) (s : Timers τ) : Timers τ → Prop
  | fire (hc : s.check = .looking) (hl : t ∈ s.timerList) (hd : (s.start t).deadline ≤ s.now) : Serving t s (s.fire t)
  | restart (hc : s.check = .calling t) (hl : s.list = [t]) (hp : (s.timer t).periodic) (ha : (s.timer t).activated) :
      Serving t s (s.restart t)
  | drop (hc : s.check = .calling t) (hl : s.list = [t]) (hn : ¬ ((s.timer t).periodic ∧ (s.timer t).activated)) :
      Serving t s (s.put t)

theorem firedAt_fire (s : Timers τ) (t u : τ) :
    (s.fire u).firedAt t = s.firedAt t ++ if u = t then [s.now] else [] := by
  unfold firedAt fire
  rw [List.filter_append, List.map_append]
  by_cases h : u = t <;> simp [h]

theorem quiet_or_serving {s s' : Timers τ} {t : τ} {l : Label τ} (hm : Move s l s') (hl : Spares t [l]) :
    Quiet t s s' ∨ Serving t s s' := by
  cases hm with
  | call c _ h => exact Or.inl (quiet_of_touch h (Ne.symm (hl c (List.mem_singleton.2 rfl))))
  | tick hc =>
    refine Or.inl ⟨rfl, rfl, Iff.rfl, rfl, Nat.le_succ _, fun ⟨hc', _⟩ => ?_⟩
    rw [hc] at hc'
    cases hc'
  | fire u rest hc hlist hd =>
    by_cases h : t = u
    · subst h
      exact Or.inr (.fire hc (hlist ▸ List.mem_cons_self) hd)
    · refine Or.inl ⟨s.takeDue_timer_of_ne h, ?_, ?_, ?_, ?_, fun ⟨hc', _⟩ => ?_⟩
      · show (s.takeDue u).start t = s.start t
        rw [takeDue_start]
      · show t ∈ (s.takeDue u).timerList ↔ _
        rw [takeDue_timerList, List.mem_erase_of_ne h]
      · rw [firedAt_fire, if_neg (Ne.symm h), List.append_nil]
      · show s.now ≤ (s.takeDue u).now
        rw [takeDue_now]
      · rw [hc] at hc'
        cases hc'
  | leave hc hhead =>
    refine Or.inl ⟨rfl, rfl, Iff.rfl, rfl, le_rfl, fun ⟨hc', _⟩ => ?_⟩
    rw [hc] at hc'
    cases hc'
  | again u hc hlist =>
    refine Or.inl ⟨rfl, rfl, Iff.rfl, rfl, le_rfl, fun ⟨_, hl'⟩ => ?_⟩
    rw [hlist] at hl'
    cases hl'
  | restart u hc hlist hp ha =>
    by_cases h : t = u
    · subst h
      exact Or.inr (.restart hc hlist hp ha)
    · have hq := (quiet_of_write (s.put u) h { s.timer u with activated := false }).trans (quiet_of_arm _ h)
      refine Or.inl ⟨hq.timer, hq.start, hq.timerList.trans (List.mem_erase_of_ne h), hq.fired, hq.now, fun ⟨hc', _⟩ => ?_⟩
      rw [hc] at hc'
      cases hc'
      exact absurd rfl h
  | drop u hc hlist hn =>
    by_cases h : t = u
    · subst h
      exact Or.inr (.drop hc hlist hn)
    · refine Or.inl ⟨rfl, rfl, List.mem_erase_of_ne h, rfl, le_rfl, fun ⟨hc', _⟩ => ?_⟩
      rw [hc] at hc'
      cases hc'
      exact absurd rfl h

/-- **What the steps that spare a timer keep**, a run that spares it keeps. -/
theorem run_spares {P : Timers τ → Prop} {t : τ}
    (hquiet : ∀ s s', s'.Good → P s → Quiet t s s' → P s') (hserve : ∀ s s', s.Good → P s → Serving t s s' → P s')
    {s s' : Timers τ} {ls : List (Label τ)} (h : s.Good) (hP : P s) (hl : Spares t ls)
    (hr : Run.run step s ls = some s') : P s' := by
  induction ls generalizing s with
  | nil =>
    cases hr
    exact hP
  | cons l ls ih =>
    obtain ⟨u, hu, hr⟩ := Run.run_cons_some.1 hr
    have hm := move_of_step h hu
    refine ih (h.step hu) ?_ hl.tail hr
    rcases quiet_or_serving hm hl.head with hq | hq
    · exact hquiet s u (h.step hu) hP hq
    · exact hserve s u h hP hq

/-! ## A timer for one shot -/

/-- A start at `n` for `w` ticks is still ahead, or has been served at `n + w`. -/
structure Once (t : τ) (n w : Nat) (old : List Nat) (s : Timers τ) : Prop where
  oneShot : ¬ (s.timer t).periodic
  start : (s.start t).wait = w ∧ (s.start t).deadline = n + w
  served : t ∈ s.timerList ∧ s.firedAt t = old ∨ t ∉ s.timerList ∧ s.firedAt t = old ++ [n + w] ∧ n + w ≤ s.now

theorem Once.quiet {t : τ} {n w : Nat} {old : List Nat} {s s' : Timers τ} (h : Once t n w old s) (hq : Quiet t s s') :
    Once t n w old s' where
  oneShot := by
    rw [hq.timer]
    exact h.oneShot
  start := by
    rw [hq.start]
    exact h.start
  served := by
    rw [hq.timerList, hq.fired]
    rcases h.served with hs | ⟨h1, h2, h3⟩
    · exact Or.inl hs
    · exact Or.inr ⟨h1, h2, h3.trans hq.now⟩

theorem Once.serving {t : τ} {n w : Nat} {old : List Nat} {s s' : Timers τ} (hw : 0 < w) (hg : s.Good)
    (h : Once t n w old s) (hs : Serving t s s') : Once t n w old s' := by
  cases hs with
  | fire hc hl hd =>
    obtain ⟨h1, h2⟩ := h.start
    have hnow := hg.now_eq_deadline hl (by omega) hd
    have hfired : s.firedAt t = old := by
      rcases h.served with ⟨-, hs⟩ | ⟨hn, -⟩
      · exact hs
      · exact absurd hl hn
    refine ⟨?_, ?_, Or.inr ⟨?_, ?_, ?_⟩⟩
    · show ¬ ((s.takeDue t).timer t).periodic = true
      rw [takeDue_timer_self]
      exact h.oneShot
    · show ((s.takeDue t).start t).wait = w ∧ ((s.takeDue t).start t).deadline = n + w
      rw [takeDue_start]
      exact h.start
    · show t ∉ (s.takeDue t).timerList
      rw [takeDue_timerList]
      exact hg.nodup.not_mem_erase
    · rw [firedAt_fire, if_pos rfl, hfired, hnow, h2]
    · show n + w ≤ (s.takeDue t).now
      rw [takeDue_now]
      omega
  | restart hc hl hp ha => exact absurd hp h.oneShot
  | drop hc hl hn =>
    have hrem := (hg.of_calling hc hl).1
    refine ⟨h.oneShot, h.start, ?_⟩
    rcases h.served with ⟨hm, -⟩ | ⟨-, h2, h3⟩
    · exact absurd hm hrem
    · exact Or.inr ⟨fun hm => hrem (List.mem_of_mem_erase hm), h2, h3⟩

/-! ## A periodic timer -/

/-- The first `k` multiples of `w` after `n`. -/
def beats (n w k : Nat) : List Nat := (List.range k).map (fun i => n + (i + 1) * w)

theorem beats_succ (n w k : Nat) : beats n w (k + 1) = beats n w k ++ [n + (k + 1) * w] := by
  simp [beats, List.range_succ]

/-- A start at `n` for `w` ticks has been served `k` times, and is in the list for the next time or being served. -/
structure Beats (t : τ) (n w : Nat) (old : List Nat) (k : Nat) (s : Timers τ) : Prop where
  periodic : (s.timer t).periodic
  initTick : (s.timer t).initTick.toNat = w
  fired : s.firedAt t = old ++ beats n w k
  reached : n + k * w ≤ s.now
  next : t ∈ s.timerList ∧ (s.start t).wait = w ∧ (s.start t).deadline = n + (k + 1) * w ∨
    (s.check = .calling t ∧ s.list = [t]) ∧ (s.timer t).activated ∧ s.now = n + k * w

theorem Beats.quiet {t : τ} {n w k : Nat} {old : List Nat} {s s' : Timers τ} (h : Beats t n w old k s)
    (hq : Quiet t s s') : Beats t n w old k s' where
  periodic := by
    rw [hq.timer]
    exact h.periodic
  initTick := by
    rw [hq.timer]
    exact h.initTick
  fired := hq.fired.trans h.fired
  reached := h.reached.trans hq.now
  next := by
    rw [hq.timerList, hq.start, hq.timer]
    rcases h.next with hs | ⟨hc, ha, hnow⟩
    · exact Or.inl hs
    · obtain ⟨h1, h2, h3⟩ := hq.calling hc
      exact Or.inr ⟨⟨h1, h2⟩, ha, h3.trans hnow⟩

theorem Beats.serving {t : τ} {n w k : Nat} {old : List Nat} {s s' : Timers τ} (hw : 0 < w) (hg : s.Good)
    (h : Beats t n w old k s) (hs : Serving t s s') : ∃ k', Beats t n w old k' s' := by
  cases hs with
  | fire hc hl hd =>
    obtain ⟨-, h1, h2⟩ := h.next.resolve_right (fun hn => by rw [hc] at hn; cases hn.1.1)
    have hnow := hg.now_eq_deadline hl (by omega) hd
    have hnil := hg.list_eq_nil (fun u hu => by rw [hc] at hu; cases hu)
    refine ⟨k + 1, ⟨?_, ?_, ?_, ?_, Or.inr ⟨⟨rfl, ?_⟩, ?_, ?_⟩⟩⟩
    · show ((s.takeDue t).timer t).periodic = true
      rw [takeDue_timer_self]
      exact h.periodic
    · show ((s.takeDue t).timer t).initTick.toNat = w
      rw [takeDue_timer_self]
      exact h.initTick
    · rw [firedAt_fire, if_pos rfl, h.fired, beats_succ, hnow, h2, List.append_assoc]
    · show n + (k + 1) * w ≤ (s.takeDue t).now
      rw [takeDue_now]
      omega
    · show t :: (s.takeDue t).list = [t]
      rw [takeDue_list, hnil]
      rfl
    · show ((s.takeDue t).timer t).activated = true
      rw [takeDue_timer_self]
      show ((s.timer t).activated && (s.timer t).periodic) = true
      rw [(hg.armed t hl).activated, h.periodic]
      rfl
    · show (s.takeDue t).now = _
      rw [takeDue_now, hnow, h2]
  | restart hc hl hp ha =>
    have hrem := (hg.of_calling hc hl).1
    obtain ⟨-, -, hnow⟩ := h.next.resolve_left (fun hm => hrem hm.1)
    refine ⟨k, ⟨?_, ?_, h.fired, h.reached, Or.inl ⟨?_, ?_, ?_⟩⟩⟩
    · rw [restart_timer_self]
      exact hp
    · rw [restart_timer_self]
      exact h.initTick
    · exact (mem_arm_timerList _).2 (Or.inl rfl)
    · rw [restart_start_self]
      exact h.initTick
    · -- the new deadline is a length after the old one, since the timer is restarted at the tick it was due at
      rw [restart_start_self]
      show s.now + (s.timer t).initTick.toNat = _
      rw [hnow, h.initTick, Nat.add_mul, Nat.one_mul, Nat.add_assoc]
  | drop hc hl hn =>
    refine absurd ⟨h.periodic, ?_⟩ hn
    rcases h.next with ⟨hm, -⟩ | ⟨-, ha, -⟩
    · exact (hg.armed t hm).activated
    · exact ha

/-! ## From the start on -/

/-- What a call of `rt_timer_start` that is accepted leaves. -/
theorem of_start {s s₁ : Timers τ} {t : τ} (hs : step s (.call (.start t)) = some s₁) : s₁ = s.arm t := by
  simp only [step, call, rtTimerStart] at hs
  split at hs
  · cases hs
    rfl
  · cases hs

/-- **One shot.**  From the start of a timer of `w` ticks on, whatever the other timers do, its timeout function is called
once, `w` ticks later. -/
theorem one_shot_once {s s₁ s' : Timers τ} {t : τ} {before after : List (Label τ)}
    (hr : Run.run step (boot τ) before = some s) (hp : ¬ (s.timer t).periodic) (hw : (s.timer t).initTick ≠ 0)
    (hs : step s (.call (.start t)) = some s₁) (hr' : Run.run step s₁ after = some s') (hl : Spares t after)
    (hc : s'.check = .left) :
    s'.firedAt t = s.firedAt t ++
      if s.now + (s.timer t).initTick.toNat ≤ s'.now then [s.now + (s.timer t).initTick.toNat] else [] := by
  have hg := good_of_run hr
  have hg₁ := hg.step hs
  have hpos : 0 < (s.timer t).initTick.toNat :=
    Nat.pos_of_ne_zero (fun h0 => hw (UInt32.toNat_inj.1 h0))
  have h₁ : Once t s.now (s.timer t).initTick.toNat (s.firedAt t) s₁ := by
    rw [of_start hs]
    refine ⟨?_, ?_, Or.inl ⟨s.mem_arm_timerList.2 (Or.inl rfl), rfl⟩⟩
    · rw [arm_timer_self]
      exact hp
    · rw [arm_start_self]
      exact ⟨rfl, rfl⟩
  have h' := run_spares (fun _ _ _ h hq => h.quiet hq) (fun _ _ hg h hs => h.serving hpos hg hs) hg₁ h₁ hl hr'
  have hg' : s'.Good := Run.run_invariant_of_step (fun _ _ _ h hs => h.step hs) hg₁ hr'
  obtain ⟨h1, h2⟩ := h'.start
  rcases h'.served with ⟨hm, hf⟩ | ⟨-, hf, hle⟩
  · have hlt := (hg'.armed t hm).left hc
    rw [Start.last_of_pos (by omega)] at hlt
    rw [hf, if_neg (by omega), List.append_nil]
  · rw [hf, if_pos hle]

theorem one_shot_once_beside_periodic :
    let s := (Run.run step (boot Bool)
      [.call (.init true 2 false), .call (.init false 1 true), .call (.start false), .tick, .look]).get (by decide +kernel)
    let s₁ := (step s (.call (.start true))).get (by decide +kernel)
    let s' := (Run.run step s₁
      [.back, .look, .tick, .look, .back, .look, .tick, .look, .call (.control false .setOneshot), .back, .look,
        .call (.control false (.setTime 9)), .back, .look]).get (by decide +kernel)
    s'.firedAt true = s.firedAt true ++
      if s.now + (s.timer true).initTick.toNat ≤ s'.now then [s.now + (s.timer true).initTick.toNat] else [] :=
  one_shot_once (Option.some_get _).symm (by decide +kernel) (by decide +kernel) (Option.some_get _).symm
    (Option.some_get _).symm (fun c hc => by simp at hc; rcases hc with rfl | rfl <;> simp [Call.timer]) (by decide +kernel)

/-- **No drift.**  From the start of a periodic timer of `w` ticks on, whatever the other timers do, its timeout function
is called at each multiple of `w` after the start, and at no other tick. -/
theorem periodic_no_drift {s s₁ s' : Timers τ} {t : τ} {before after : List (Label τ)}
    (hr : Run.run step (boot τ) before = some s) (hp : (s.timer t).periodic) (hw : (s.timer t).initTick ≠ 0)
    (hs : step s (.call (.start t)) = some s₁) (hr' : Run.run step s₁ after = some s') (hl : Spares t after)
    (hc : s'.check = .left) :
    s'.firedAt t = s.firedAt t ++
      beats s.now (s.timer t).initTick.toNat ((s'.now - s.now) / (s.timer t).initTick.toNat) := by
  have hg := good_of_run hr
  have hg₁ := hg.step hs
  have hpos : 0 < (s.timer t).initTick.toNat :=
    Nat.pos_of_ne_zero (fun h0 => hw (UInt32.toNat_inj.1 h0))
  have h₁ : Beats t s.now (s.timer t).initTick.toNat (s.firedAt t) 0 s₁ := by
    rw [of_start hs]
    refine ⟨?_, ?_, ?_, ?_, Or.inl ⟨s.mem_arm_timerList.2 (Or.inl rfl), ?_, ?_⟩⟩
    · rw [arm_timer_self]
      exact hp
    · rw [arm_timer_self]
    · exact (List.append_nil _).symm
    · show s.now + 0 * _ ≤ s.now
      omega
    · rw [arm_start_self]
    · rw [arm_start_self]
      show s.now + (s.timer t).initTick.toNat = _
      omega
  obtain ⟨k, h'⟩ := run_spares (P := fun s => ∃ k, Beats t _ _ _ k s) (fun _ _ _ ⟨k, h⟩ hq => ⟨k, h.quiet hq⟩)
    (fun _ _ hg ⟨_, h⟩ hs => h.serving hpos hg hs) hg₁ ⟨0, h₁⟩ hl hr'
  have hg' : s'.Good := Run.run_invariant_of_step (fun _ _ _ h hs => h.step hs) hg₁ hr'
  obtain ⟨hm, h1, h2⟩ := h'.next.resolve_right (fun hn => by rw [hc] at hn; cases hn.1.1)
  have hlt := (hg'.armed t hm).left hc
  rw [Start.last_of_pos (by omega), h2] at hlt
  have hreached := h'.reached
  have hk : (s'.now - s.now) / (s.timer t).initTick.toNat = k :=
    Nat.div_eq_of_lt_le (by omega) (by omega)
  rw [hk]
  exact h'.fired

theorem periodic_no_drift_beside_one_shot :
    let s := (Run.run step (boot Bool)
      [.call (.init true 2 true), .call (.init false 3 false), .call (.start false), .tick, .look]).get (by decide +kernel)
    let s₁ := (step s (.call (.start true))).get (by decide +kernel)
    let s' := (Run.run step s₁
      [.tick, .look, .tick, .look, .back, .look, .call (.start false), .back, .look, .tick, .look, .tick, .look, .back,
        .look]).get (by decide +kernel)
    s'.firedAt true = s.firedAt true ++
      beats s.now (s.timer true).initTick.toNat ((s'.now - s.now) / (s.timer true).initTick.toNat) :=
  periodic_no_drift (Option.some_get _).symm (by decide +kernel) (by decide +kernel) (Option.some_get _).symm
    (Option.some_get _).symm (fun c hc => by simp at hc; subst hc; simp [Call.timer]) (by decide +kernel)

end

/-! ## One check -/

/-- The timers whose deadline has come, in the order of the list. -/
def due (s : Timers τ) : List τ := s.timerList.filter (fun t => (s.start t).deadline ≤ s.now)

theorem mem_due {s : Timers τ} {t : τ} : t ∈ s.due ↔ t ∈ s.timerList ∧ (s.start t).deadline ≤ s.now := by
  simp [due]

theorem Good.due_head {s : Timers τ} (h : s.Good) {t : τ} {l : List τ} (hd : s.due = t :: l) :
    ∃ rest, s.timerList = t :: rest ∧ rest.filter (fun u => (s.start u).deadline ≤ s.now) = l := by
  have ht := (mem_due.1 (hd ▸ List.mem_cons_self : t ∈ s.due)).2
  unfold due at hd
  cases hl : s.timerList with
  | nil =>
    rw [hl] at hd
    cases hd
  | cons u rest =>
    have hs := List.pairwise_cons.1 (hl ▸ h.sorted)
    rw [hl, List.filter_cons] at hd
    split at hd
    · cases hd
      exact ⟨rest, rfl, rfl⟩
    · rename_i hu
      -- the head is the earliest: were it not due, no timer would be
      have hm : t ∈ rest := (List.mem_filter.1 (hd ▸ List.mem_cons_self :
        t ∈ rest.filter (fun u => (s.start u).deadline ≤ s.now))).1
      have hb := hs.1 t hm
      simp only [decide_eq_true_eq] at hu
      unfold Start.Before at hb
      omega

theorem filter_insert {timer : τ → Timer} {t : τ} {p : τ → Bool} (ht : p t = false) (l : List τ) :
    (insert timer t l).filter p = l.filter p := by
  induction l with
  | nil => simp [insert, ht]
  | cons u l ih =>
    unfold insert
    split_ifs
    · rw [List.filter_cons, List.filter_cons, ih]
    · rw [List.filter_cons, if_neg (by simp [ht])]
    · rw [List.filter_cons, List.filter_cons, ih]

section
variable [DecidableEq τ]

/-- What a timeout function that makes no call returns to: a periodic timer is started again, another one is out. -/
def served (s : Timers τ) (t : τ) : Timers τ :=
  if (s.timer t).periodic then (s.fire t).restart t else (s.fire t).put t

/-- One turn of the loop, the timeout function making no call. -/
theorem run_turn {s : Timers τ} (h : s.Good) {t : τ} {rest : List τ} (hc : s.check = .looking)
    (hl : s.timerList = t :: rest) (hd : (s.start t).deadline ≤ s.now) :
    Run.run step s [.look, .back] = some (s.served t) := by
  have ht : t ∈ s.timerList := hl ▸ List.mem_cons_self
  have ha := h.armed t ht
  have hnil := h.list_eq_nil (fun u hu => by rw [hc] at hu; cases hu)
  have hlook : step s .look = some (s.fire t) := by
    simp only [step, hc, look, hl]
    rw [if_pos ((h.due_iff ht).2 hd)]
  have hx : (s.fire t).timer t = { s.timer t with activated := (s.timer t).activated && (s.timer t).periodic } :=
    s.takeDue_timer_self
  have hlist : (s.fire t).list = [t] := by
    show t :: (s.takeDue t).list = [t]
    rw [takeDue_list, hnil]
    rfl
  have hback : step (s.fire t) .back = some (s.served t) := by
    show (s.fire t).back t = _
    unfold back served
    rw [if_neg (by rw [hlist]; exact List.cons_ne_nil _ _), hx]
    by_cases hp : (s.timer t).periodic
    · rw [if_pos ⟨hp, by rw [ha.activated, hp]; rfl⟩, if_pos hp]
      unfold rtTimerStart restart
      rw [hx, if_pos]
      show (Function.update (s.fire t).timer t _ t).isTimer = true
      rw [Function.update_self]
      exact ha.isTimer
    · rw [if_neg (fun hn => hp hn.1), if_neg hp]
  simp only [Run.run, hlook, hback, Option.bind_some]

theorem served_now (s : Timers τ) {t : τ} : (s.served t).now = s.now := by
  unfold served
  split <;> exact takeDue_now s

theorem served_check (s : Timers τ) {t : τ} : (s.served t).check = .looking := by
  unfold served
  split <;> rfl

theorem served_fired (s : Timers τ) {t : τ} : (s.served t).fired = s.fired ++ [⟨t, s.start t, s.now⟩] := by
  unfold served
  split <;> rfl

theorem served_timer_of_ne (s : Timers τ) {t u : τ} (h : u ≠ t) : (s.served t).timer u = s.timer u := by
  unfold served
  split
  · exact (restart_timer_of_ne _ h).trans (s.takeDue_timer_of_ne h)
  · exact s.takeDue_timer_of_ne h

theorem served_start_of_ne (s : Timers τ) {t u : τ} (h : u ≠ t) : (s.served t).start u = s.start u := by
  unfold served
  split
  · exact (restart_start_of_ne _ h).trans (congrFun (takeDue_start s) u)
  · exact congrFun (takeDue_start s) u

theorem served_timerList_of_not_periodic (s : Timers τ) {t : τ} (h : ¬ (s.timer t).periodic) :
    (s.served t).timerList = (s.timerList.erase t).erase t := by
  unfold served
  rw [if_neg h]
  exact congrArg (fun l => l.erase t) (takeDue_timerList s)

/-- **One timer less is due**: a periodic one that is started again has its deadline ahead. -/
theorem Good.due_served {s : Timers τ} (h : s.Good) {t : τ} {l : List τ} (hd : s.due = t :: l)
    (hp : (s.timer t).periodic → (s.timer t).initTick ≠ 0) : (s.served t).due = l := by
  obtain ⟨rest, hl, hrest⟩ := h.due_head hd
  have hnd : t ∉ rest := (List.nodup_cons.1 (hl ▸ h.nodup)).1
  have herase : (s.timerList.erase t).erase t = rest := by
    rw [hl, List.erase_cons_head, List.erase_of_not_mem hnd]
  have hsame : rest.filter (fun u => ((s.served t).start u).deadline ≤ (s.served t).now) = l := by
    rw [← hrest]
    refine List.filter_congr (fun u hu => ?_)
    rw [served_now, s.served_start_of_ne (ne_of_mem_of_not_mem hu hnd)]
  unfold due
  by_cases hper : (s.timer t).periodic
  · have hstart : s.now < ((s.served t).start t).deadline := by
      have hpos : 0 < (s.timer t).initTick.toNat :=
        Nat.pos_of_ne_zero (fun h0 => hp hper (UInt32.toNat_inj.1 h0))
      unfold Timers.served
      rw [if_pos hper, restart_start_self]
      show s.now < (s.takeDue t).now + ((s.takeDue t).timer t).initTick.toNat
      rw [takeDue_now, takeDue_timer_self]
      show s.now < s.now + (s.timer t).initTick.toNat
      omega
    have hlist : ∃ timer, (s.served t).timerList = insert timer t rest := by
      unfold Timers.served
      rw [if_pos hper, restart_timerList]
      refine ⟨_, congrArg (insert _ t) ?_⟩
      show ((s.takeDue t).timerList.erase t).erase t = rest
      rw [takeDue_timerList, herase, List.erase_of_not_mem hnd]
    obtain ⟨timer, hlist⟩ := hlist
    rw [hlist, filter_insert (by rw [served_now]; simpa using hstart), hsame]
  · rw [s.served_timerList_of_not_periodic hper, herase, hsame]

theorem look_of_due_eq_nil {s : Timers τ} (h : s.Good) (hd : s.due = []) : s.look = { s with check := .left } := by
  unfold look
  split
  · rfl
  · rename_i t rest hl
    have ht : t ∈ s.timerList := hl ▸ List.mem_cons_self
    refine if_neg (fun hlt => List.not_mem_nil (a := t) ?_)
    rw [← hd]
    exact mem_due.2 ⟨ht, (h.due_iff ht).1 hlt⟩

/-- **The check comes to its end**, having served the timers that were due and no other, each once and in their order, if
no periodic timer of no ticks is among them and the timeout functions make no calls. -/
theorem check_serves_due {s : Timers τ} {ls : List (Label τ)} (hr : Run.run step (boot τ) ls = some s)
    (hc : s.check = .looking) (hp : ∀ t ∈ s.due, (s.timer t).periodic → (s.timer t).initTick ≠ 0) :
    ∃ s', Run.run step s ((List.replicate s.due.length [Label.look, Label.back]).flatten ++ [.look]) = some s' ∧
      s'.check = .left ∧ s'.now = s.now ∧ s'.fired = s.fired ++ s.due.map (fun t => ⟨t, s.start t, s.now⟩) := by
  have h := good_of_run hr
  clear hr
  generalize hd : s.due = l at *
  induction l generalizing s with
  | nil =>
    have hlook : step s .look = some { s with check := .left } := by
      simp only [step, hc]
      rw [look_of_due_eq_nil h hd]
    exact ⟨{ s with check := .left }, Run.run_cons_some.2 ⟨_, hlook, rfl⟩, rfl, rfl, (List.append_nil _).symm⟩
  | cons t l ih =>
    obtain ⟨rest, hl, hrest⟩ := h.due_head hd
    have hdt := (mem_due.1 (hd ▸ List.mem_cons_self : t ∈ s.due)).2
    have hturn := run_turn h hc hl hdt
    have hg : (s.served t).Good := Run.run_invariant_of_step (fun _ _ _ h hs => h.step hs) h hturn
    have hne : ∀ u ∈ l, u ≠ t := by
      intro u hu
      rw [← hrest] at hu
      exact ne_of_mem_of_not_mem (List.mem_filter.1 hu).1 (List.nodup_cons.1 (hl ▸ h.nodup)).1
    obtain ⟨s', hr, hc', hnow, hfired⟩ := ih (s := s.served t) s.served_check hg
      (h.due_served hd (hp t List.mem_cons_self))
      (fun u hu hper => by
        rw [s.served_timer_of_ne (hne u hu)] at hper ⊢
        exact hp u (List.mem_cons_of_mem t hu) hper)
    refine ⟨s', ?_, hc', hnow.trans s.served_now, ?_⟩
    · rw [List.length_cons, List.replicate_succ, List.flatten_cons, List.append_assoc, Run.run_append, hturn]
      exact hr
    · rw [hfired, served_fired, List.append_assoc, List.map_cons, served_now]
      refine congrArg (fun fs => s.fired ++ (_ :: fs)) (List.map_congr_left (fun u hu => ?_))
      rw [s.served_start_of_ne (hne u hu)]

theorem check_serves_due_two :
    let s := (Run.run step (boot Bool)
      [.call (.init true 1 true), .call (.init false 1 false), .call (.start false), .call (.start true), .tick]).get
        (by decide +kernel)
    ∃ s', Run.run step s ((List.replicate s.due.length [Label.look, Label.back]).flatten ++ [.look]) = some s' ∧
      s'.check = .left ∧ s'.now = s.now ∧ s'.fired = s.fired ++ s.due.map (fun t => ⟨t, s.start t, s.now⟩) :=
  check_serves_due (Option.some_get _).symm (by decide +kernel) (by decide +kernel)

end

end Timers
end Kernel
end RtPay
