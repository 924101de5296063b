import Mathlib.Data.List.Induction
import RtPay.App
/-!
# AppPulses — the pulses that reach the output

`OUTPUT_PULSE_PIN` is no pin name, so `app_init` keeps the error number for a pin and no write of `add_credit` reaches
an output (`gpio_appLoop`).  The paid pulses are therefore delivered exactly by the event sequences that owe none
(`falls_eq_due_iff`).  A pin that exists would not be enough: `add_credit` lowers it again and again without raising it
between, which is one falling edge for a credit of any number of pulses (`falls_addCredit`).
-/
namespace RtPay

open App

/-- The pulses an event owes in the state it is processed in. -/
def pulsesOf (s : App) : Event → Nat
  | .credit evt => if s.sysCfg.enabled ≠ 0 then evt.count.toNat * s.sysCfg.pulsesPerCredit.toNat else 0
  | _ => 0

def pulsesDue : App → List Event → Nat
  | _, [] => 0
  | s, e :: es => pulsesOf s e + pulsesDue (appStep s e) es

/-! ## A refused pin -/

theorem pulsePin_appInit : appInit.sysCfg.pulsePin = -RT_EINVAL := by
  show rtPinGet OUTPUT_PULSE_PIN = -RT_EINVAL
  exact rtPinGet_of_not_p (by decide) (by decide)

theorem writePulsePin_of_refused {s : App} (h : s.sysCfg.pulsePin = -RT_EINVAL) (v : Bool) :
    s.writePulsePin v = s := by
  rw [writePulsePin, h, rtPinWrite_of_refused]

theorem gpio_pulse_of_refused {s : App} (h : s.sysCfg.pulsePin = -RT_EINVAL) : s.pulse.gpio = s.gpio := by
  unfold pulse
  rw [gpio_mdelay, writePulsePin_of_refused (by rw [sysCfg_mdelay]; exact h), gpio_mdelay]

theorem gpio_iterate_of_refused {f : App → App} (hcfg : ∀ s, (f s).sysCfg = s.sysCfg)
    (hf : ∀ s, s.sysCfg.pulsePin = -RT_EINVAL → (f s).gpio = s.gpio) (n : Nat) :
    ∀ s, s.sysCfg.pulsePin = -RT_EINVAL → (f^[n] s).gpio = s.gpio := by
  induction n with
  | zero => exact fun _ _ => rfl
  | succ n ih =>
    intro s h
    rw [Function.iterate_succ_apply, ih _ (by rw [hcfg]; exact h), hf s h]

theorem gpio_addCredit_of_refused {s : App} (h : s.sysCfg.pulsePin = -RT_EINVAL) : s.addCredit.gpio = s.gpio := by
  unfold addCredit
  simp only [sysCfg_writePulsePin]
  rw [writePulsePin_of_refused (by rw [iterate_keeps App.sysCfg sysCfg_pulse]; exact h), writePulsePin_of_refused h]
  exact gpio_iterate_of_refused sysCfg_pulse (fun _ h => gpio_pulse_of_refused h) _ s h

theorem gpio_appStep_of_refused {s : App} (h : s.sysCfg.pulsePin = -RT_EINVAL) (e : Event) :
    (appStep s e).gpio = s.gpio := by
  by_cases hcredit : ∃ evt, e = .credit evt
  · obtain ⟨evt, rfl⟩ := hcredit
    rw [appStep, onCreditEvent]
    split
    · rfl
    · simp only [gpio_idleMessage, gpio_mdelay, gpio_creditMessage]
      exact gpio_iterate_of_refused sysCfg_addCredit (fun _ h => gpio_addCredit_of_refused h) _ s h
  · exact (outputs_appStep s (fun evt he => hcredit ⟨evt, he⟩)).1

/-- **No output is ever written**: the pin stays refused, and so does every write. -/
theorem gpio_appLoop (evts : List Event) :
    (appLoop evts).sysCfg.pulsePin = -RT_EINVAL ∧ (appLoop evts).gpio = Gpio.reset := by
  induction evts using List.reverseRecOn with
  | nil => exact ⟨pulsePin_appInit, rfl⟩
  | append_singleton evts e ih =>
    rw [appLoop_concat]
    exact ⟨by rw [pulsePin_appStep, ih.1], by rw [gpio_appStep_of_refused ih.1, ih.2]⟩

/-! ## The pulses owed -/

theorem pulsesDue_eq_zero_iff : ∀ (es : List Event) (s : App), pulsesDue s es = 0 ↔
    ∀ pre evt post, es = pre ++ .credit evt :: post → (pre.foldl appStep s).sysCfg.enabled ≠ 0 →
      evt.count = 0 ∨ (pre.foldl appStep s).sysCfg.pulsesPerCredit = 0
  | [], s => by simp [pulsesDue]
  | e :: es, s => by
    rw [pulsesDue, Nat.add_eq_zero_iff, pulsesDue_eq_zero_iff es (appStep s e)]
    have hone : pulsesOf s e = 0 ↔ ∀ evt, e = .credit evt → s.sysCfg.enabled ≠ 0 →
        evt.count = 0 ∨ s.sysCfg.pulsesPerCredit = 0 := by
      cases e with
      | credit evt =>
        simp only [pulsesOf, Event.credit.injEq, forall_eq']
        by_cases he : s.sysCfg.enabled = 0
        · simp [he]
        · rw [if_pos he, Nat.mul_eq_zero, ← UInt16.toNat_inj, ← UInt32.toNat_inj]
          exact ⟨fun h _ => h, fun h => h he⟩
      | _ => simp [pulsesOf]
    rw [hone]
    constructor
    · rintro ⟨hhead, htail⟩ pre evt post heq
      cases pre with
      | nil => obtain ⟨he, -⟩ := List.cons.inj heq; exact hhead evt he
      | cons e' pre =>
        obtain ⟨he, hrest⟩ := List.cons.inj heq
        subst he
        exact htail pre evt post hrest
    · exact fun h => ⟨fun evt he => h [] evt es (by rw [he]; rfl),
        fun pre evt post heq => h (e :: pre) evt post (by rw [heq]; rfl)⟩

/-- **The output carries the pulses owed exactly when none is owed**: every credit of the sequence is processed while
disabled, or is a credit of count 0, or finds 0 pulses per credit in force. -/
theorem falls_eq_due_iff (evts : List Event) :
    (appLoop evts).gpio.falls (appLoop evts).sysCfg.pulsePin = pulsesDue appInit.startMessage evts ↔
      ∀ pre evt post, evts = pre ++ .credit evt :: post → (appLoop pre).sysCfg.enabled ≠ 0 →
        evt.count = 0 ∨ (appLoop pre).sysCfg.pulsesPerCredit = 0 := by
  have hfalls : (appLoop evts).gpio.falls (appLoop evts).sysCfg.pulsePin = 0 := by
    rw [(gpio_appLoop evts).2]; rfl
  rw [hfalls, eq_comm]
  exact pulsesDue_eq_zero_iff evts appInit.startMessage

theorem paid_credit_gives_no_pulse : ¬ ∀ evts : List Event,
    (appLoop evts).gpio.falls (appLoop evts).sysCfg.pulsePin = pulsesDue appInit.startMessage evts := by
  intro h
  have h := h [.enable ⟨1⟩, .credit ⟨1, 500⟩]
  have hdue : pulsesDue appInit.startMessage [.enable ⟨1⟩, .credit ⟨1, 500⟩] = 1 := by
    simp only [pulsesDue, pulsesOf, appStep, sysCfg_onEnableEvent]
    rfl
  rw [hdue, (gpio_appLoop _).2] at h
  exact absurd h (by decide)

/-! ## A pin that exists -/

def App.pulseLevels (s : App) : List Bool := s.gpio.levels (pinPort s.sysCfg.pulsePin) (pinNo s.sysCfg.pulsePin)

theorem fallingEdges_append : ∀ (vs ws : List Bool) (l : Bool),
    fallingEdges l (vs ++ ws) = fallingEdges l vs + fallingEdges (vs.getLastD l) ws
  | [], _, _ => by simp [fallingEdges]
  | v :: vs, ws, l => by
    rw [List.cons_append, fallingEdges, fallingEdges, fallingEdges_append vs ws v, List.getLastD_cons, Nat.add_assoc]

theorem fallingEdges_low (n : Nat) (ws : List Bool) :
    fallingEdges false (List.replicate n false ++ ws) = fallingEdges false ws := by
  induction n with
  | zero => rfl
  | succ n ih => rw [List.replicate_succ, List.cons_append, fallingEdges, ih]; simp

theorem pulseLevels_writePulsePin {s : App} (h : pinPort s.sysCfg.pulsePin < PIN_STPORT_MAX) (v : Bool) :
    (s.writePulsePin v).pulseLevels = s.pulseLevels ++ [v] := by
  simp only [pulseLevels, writePulsePin, rtPinWrite, ch32PinWrite, if_pos h, Gpio.levels, List.filterMap_append]
  simp

theorem pulseLevels_pulses (n : Nat) : ∀ s : App, pinPort s.sysCfg.pulsePin < PIN_STPORT_MAX →
    (pulse^[n] s).pulseLevels = s.pulseLevels ++ List.replicate n false := by
  induction n with
  | zero => intro s _; simp
  | succ n ih =>
    intro s h
    have hone : s.pulse.pulseLevels = s.pulseLevels ++ [false] := pulseLevels_writePulsePin (s := s.mdelay _) h _
    rw [Function.iterate_succ_apply, ih _ (by rw [sysCfg_pulse]; exact h), hone, List.append_assoc,
      List.replicate_succ]
    rfl

/-- **On a pin that exists a credit is one falling edge at most**, however many pulses it owes. -/
theorem falls_addCredit {s : App} (h : pinPort s.sysCfg.pulsePin < PIN_STPORT_MAX) :
    s.addCredit.gpio.falls s.sysCfg.pulsePin =
      s.gpio.falls s.sysCfg.pulsePin + min 1 s.sysCfg.pulsesPerCredit.toNat := by
  have hlevels : s.addCredit.pulseLevels =
      s.pulseLevels ++ true :: (List.replicate s.sysCfg.pulsesPerCredit.toNat false ++ [true]) := by
    unfold addCredit
    simp only [sysCfg_writePulsePin]
    have hcfg : (pulse^[s.sysCfg.pulsesPerCredit.toNat] (s.writePulsePin PIN_HIGH)).sysCfg = s.sysCfg :=
      iterate_keeps App.sysCfg sysCfg_pulse _ _
    rw [pulseLevels_writePulsePin (by rw [hcfg]; exact h), pulseLevels_pulses _ (s.writePulsePin PIN_HIGH) h, pulseLevels_writePulsePin h]
    simp [PIN_HIGH]
  have hfalls : s.addCredit.gpio.falls s.sysCfg.pulsePin = fallingEdges PIN_LOW s.addCredit.pulseLevels := by
    rw [pulseLevels, sysCfg_addCredit]; rfl
  have hrise : ∀ l : Bool, (if l = true ∧ true = false then 1 else 0) = 0 := by simp
  rw [hfalls, hlevels, fallingEdges_append, fallingEdges, hrise, Nat.zero_add]
  cases hn : s.sysCfg.pulsesPerCredit.toNat with
  | zero => rfl
  | succ n =>
    rw [List.replicate_succ, List.cons_append, fallingEdges, fallingEdges_low, Nat.min_eq_left (by omega)]
    rfl

end RtPay
