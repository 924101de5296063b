import Mathlib.Data.List.Induction
import RtPay.App
/-!
# AppWave — the waveform of the pulse output

`add_credit` and `on_credit_event` as the calls they make on the pulse output, levels and waits in order, and the
phases a receiver of the output counts and measures.  Each pulse waits the high time twice and goes back to HIGH only
behind the last one: the pulses of a credit are one LOW phase, whatever their number.  A wait that does not return leaves
no waveform.
-/
namespace RtPay

open App

/-- A call on the pulse output: a level written, or a wait. -/
inductive PinCall
  | write (value : Bool)
  | delay (ms : UInt32)

namespace PinCall

def exec (s : App) : PinCall → App
  | .write value => s.writePulsePin value
  | .delay ms => s.mdelay ms

/-- The calls of one turn of the loop of `add_credit`. -/
def pulse (cfg : SystemConfig) : List PinCall :=
  [.delay cfg.pulseHighTime, .write PIN_LOW, .delay cfg.pulseHighTime]

def addCredit (cfg : SystemConfig) : List PinCall :=
  .write PIN_HIGH :: ((List.replicate cfg.pulsesPerCredit.toNat (pulse cfg)).flatten ++ [.write PIN_HIGH])

/-- The calls of `on_credit_event`, its wait between the two messages last. -/
def onCreditEvent (cfg : SystemConfig) (evt : CreditEvt) : List PinCall :=
  if cfg.enabled = 0 then []
  else (List.replicate evt.count.toNat (addCredit cfg)).flatten ++ [.delay 1500]

def returns : PinCall → Bool
  | .write _ => true
  | .delay ms => (rtThreadMdelay ms).isSome

theorem foldl_replicate (f : App → App) {cs : List PinCall} {cfg : SystemConfig}
    (hf : ∀ s, s.sysCfg = cfg → cs.foldl exec s = f s) (hcfg : ∀ s, (f s).sysCfg = s.sysCfg) :
    ∀ (n : Nat) (s : App), s.sysCfg = cfg → (List.replicate n cs).flatten.foldl exec s = f^[n] s
  | 0, _, _ => rfl
  | n + 1, s, h => by
    rw [List.replicate_succ, List.flatten_cons, List.foldl_append, hf s h, Function.iterate_succ_apply]
    exact foldl_replicate f hf hcfg n (f s) ((hcfg s).trans h)

theorem foldl_addCredit (s : App) : (addCredit s.sysCfg).foldl exec s = s.addCredit := by
  have hpulse : ∀ t : App, t.sysCfg = s.sysCfg → (pulse s.sysCfg).foldl exec t = t.pulse := by
    intro t ht
    rw [← ht]
    rfl
  rw [addCredit, List.foldl_cons, List.foldl_append, foldl_replicate App.pulse hpulse sysCfg_pulse _ (exec s (.write PIN_HIGH)) rfl]
  rfl

/-- **The calls are the handler's**: it drives the output and waits as they do, and writes two messages besides. -/
theorem onCreditEvent_eq (s : App) (evt : CreditEvt) :
    (s.onCreditEvent evt).gpio = ((onCreditEvent s.sysCfg evt).foldl exec s).gpio ∧
      (s.onCreditEvent evt).waited = ((onCreditEvent s.sysCfg evt).foldl exec s).waited := by
  unfold App.onCreditEvent onCreditEvent
  by_cases he : s.sysCfg.enabled = 0
  · rw [if_pos he, if_pos he]
    exact ⟨rfl, rfl⟩
  · have hcredit : ∀ t : App, t.sysCfg = s.sysCfg → (addCredit s.sysCfg).foldl exec t = t.addCredit := by
      intro t ht
      rw [← ht]
      exact foldl_addCredit t
    rw [if_neg he, if_neg he, List.foldl_append, foldl_replicate App.addCredit hcredit sysCfg_addCredit _ _ rfl]
    refine ⟨?_, rfl⟩
    rw [gpio_idleMessage, gpio_mdelay, gpio_creditMessage]
    rfl

theorem waited_exec (s : App) (c : PinCall) : (exec s c).waited.isSome = (s.waited.isSome && c.returns) := by
  cases c with
  | write value => exact (Bool.and_true _).symm
  | delay ms =>
    show (s.waited.bind (fun n => (rtThreadMdelay ms).map (n + ·))).isSome = (s.waited.isSome && (rtThreadMdelay ms).isSome)
    cases s.waited with
    | none => rfl
    | some n => rw [Option.bind_some, Option.isSome_map, Option.isSome_some, Bool.true_and]

theorem waited_foldl (cs : List PinCall) (s : App) :
    (cs.foldl exec s).waited.isSome = (s.waited.isSome && cs.all returns) := by
  induction cs generalizing s with
  | nil => exact (Bool.and_true _).symm
  | cons c cs ih => rw [List.foldl_cons, ih, waited_exec, List.all_cons, Bool.and_assoc]

/-- **A handler comes to its end exactly when each of its waits returns.** -/
theorem waited_onCreditEvent (s : App) (evt : CreditEvt) :
    (s.onCreditEvent evt).waited.isSome = (s.waited.isSome && (onCreditEvent s.sysCfg evt).all returns) := by
  rw [(onCreditEvent_eq s evt).2, waited_foldl]

theorem returns_repeated (n : Nat) (cs : List PinCall) :
    (List.replicate n cs).flatten.all returns ↔ n = 0 ∨ cs.all returns := by
  rw [List.all_flatten, List.all_replicate]
  by_cases h : n = 0
  · rw [if_pos h]
    exact iff_of_true rfl (Or.inl h)
  · rw [if_neg h, or_iff_right h]

theorem returns_pulse (cfg : SystemConfig) : (pulse cfg).all returns ↔ cfg.pulseHighTime < 0x7FFFFFFF := by
  simp only [pulse, List.all_cons, List.all_nil, returns, rtThreadMdelay_eq]
  split <;> simp_all

/-- **Each wait of a handler returns** exactly when there is no pulse to make or the high time is one a delay can have. -/
theorem returns_onCreditEvent {cfg : SystemConfig} (he : cfg.enabled ≠ 0) (evt : CreditEvt) :
    (onCreditEvent cfg evt).all returns ↔
      evt.count.toNat = 0 ∨ cfg.pulsesPerCredit.toNat = 0 ∨ cfg.pulseHighTime < 0x7FFFFFFF := by
  have hlast : [PinCall.delay 1500].all returns = true := by decide +kernel
  have hcredit : (addCredit cfg).all returns ↔ cfg.pulsesPerCredit.toNat = 0 ∨ cfg.pulseHighTime < 0x7FFFFFFF := by
    rw [addCredit, List.all_cons, List.all_append, ← returns_pulse, ← returns_repeated]
    simp [returns]
  rw [onCreditEvent, if_neg he, List.all_append, hlast, Bool.and_true, returns_repeated, hcredit]

end PinCall

theorem pulseHighTime_appStep (s : App) (e : Event) : (appStep s e).sysCfg.pulseHighTime = s.sysCfg.pulseHighTime := by
  cases e with
  | enable evt => rw [appStep, sysCfg_onEnableEvent]
  | config evt => rw [appStep, sysCfg_onConfigEvent]
  | credit evt => rw [appStep, sysCfg_onCreditEvent]
  | mqtt evt => rw [appStep, sysCfg_onMqttEvent]
  | undefined => rfl
  | card evt => rfl

/-- **No delay of a run keeps the app thread for ever**: the high time is the one of `app_init`. -/
theorem waited_appLoop (evts : List Event) : (appLoop evts).waited.isSome := by
  suffices h : (appLoop evts).sysCfg.pulseHighTime = DEFAULT_PULSE_HIGH_TIME ∧ (appLoop evts).waited.isSome from h.2
  induction evts using List.reverseRecOn with
  | nil => exact ⟨rfl, rfl⟩
  | append_singleton evts e ih =>
    obtain ⟨hhigh, hw⟩ := ih
    rw [appLoop_concat]
    refine ⟨(pulseHighTime_appStep _ e).trans hhigh, ?_⟩
    by_cases hcredit : ∃ evt, e = .credit evt
    · obtain ⟨evt, rfl⟩ := hcredit
      rw [appStep, PinCall.waited_onCreditEvent, hw, Bool.true_and]
      by_cases he : (appLoop evts).sysCfg.enabled = 0
      · rw [PinCall.onCreditEvent, if_pos he]
        rfl
      · exact (PinCall.returns_onCreditEvent he evt).2 (Or.inr (Or.inr (by rw [hhigh]; decide)))
    · rw [(outputs_appStep _ (fun evt he => hcredit ⟨evt, he⟩)).2]
      exact hw

/-! ## Phases -/

/-- A stretch of the output at one level. -/
structure Phase where
  level : Bool
  ms : Nat
  deriving DecidableEq

/-- The phases of calls that return, in the phase `ph` so far. -/
def phasesFrom (ph : Phase) : List PinCall → List Phase
  | [] => [ph]
  | .delay ms :: cs => phasesFrom ⟨ph.level, ph.ms + ms.toNat⟩ cs
  | .write value :: cs => if value = ph.level then phasesFrom ph cs else ph :: phasesFrom ⟨value, 0⟩ cs

/-- The phases from the first level written on. -/
def phases : List PinCall → List Phase
  | [] => []
  | .delay _ :: cs => phases cs
  | .write value :: cs => phasesFrom ⟨value, 0⟩ cs

/-- The phases, unless the calls do not come to an end. -/
def waveform (cs : List PinCall) : Option (List Phase) := if cs.all PinCall.returns then some (phases cs) else none

/-- `n` pulses: HIGH for `high`, then LOW for `low`. -/
def train (n high low : Nat) : List Phase := (List.replicate n [⟨PIN_HIGH, high⟩, ⟨PIN_LOW, low⟩]).flatten

/-- **The waveform of `credits` credits of `n` pulses each**: one LOW phase a pulse, of the low time, with a HIGH phase
of at least the high time between any two. -/
structure Conforms (credits n : Nat) (high low : UInt32) (w : List Phase) : Prop where
  shape : w = [] ∧ credits = 0 ∨ ∃ last, w = train (credits * n) high.toNat low.toNat ++ [⟨PIN_HIGH, last⟩]
  lows : (w.filter (fun ph => ph.level = PIN_LOW)).map Phase.ms = List.replicate (credits * n) low.toNat
  apart : ∀ pre a mid b post, w = pre ++ a :: (mid ++ b :: post) → a.level = PIN_LOW → b.level = PIN_LOW →
    ∃ ph ∈ mid, ph.level = PIN_HIGH ∧ high.toNat ≤ ph.ms

theorem train_succ (n high low : Nat) : train (n + 1) high low = ⟨PIN_HIGH, high⟩ :: ⟨PIN_LOW, low⟩ :: train n high low := by
  rw [train, List.replicate_succ, List.flatten_cons]
  rfl

/-! ## The phases of a handler -/

/-- The pulses behind the first lengthen its LOW phase by two high times each. -/
theorem phasesFrom_pulses (cfg : SystemConfig) (cs : List PinCall) : ∀ (n ms : Nat),
    phasesFrom ⟨PIN_LOW, ms⟩ ((List.replicate n (PinCall.pulse cfg)).flatten ++ cs) =
      phasesFrom ⟨PIN_LOW, ms + 2 * n * cfg.pulseHighTime.toNat⟩ cs
  | 0, ms => by simp
  | n + 1, ms => by
    rw [List.replicate_succ, List.flatten_cons, List.append_assoc, PinCall.pulse]
    simp only [List.cons_append, List.nil_append, phasesFrom, if_true]
    rw [← PinCall.pulse, phasesFrom_pulses cfg cs n]
    congr 2
    ring

theorem phasesFrom_addCredit (cfg : SystemConfig) {m : Nat} (hm : cfg.pulsesPerCredit.toNat = m + 1)
    (cs : List PinCall) : phasesFrom ⟨PIN_HIGH, 0⟩ (PinCall.addCredit cfg ++ cs) =
      ⟨PIN_HIGH, cfg.pulseHighTime.toNat⟩ :: ⟨PIN_LOW, (2 * m + 1) * cfg.pulseHighTime.toNat⟩ ::
        phasesFrom ⟨PIN_HIGH, 0⟩ cs := by
  rw [PinCall.addCredit, hm, List.replicate_succ, List.flatten_cons, PinCall.pulse]
  simp only [List.cons_append, List.nil_append, List.append_assoc, phasesFrom, if_true]
  rw [if_neg (by decide), ← PinCall.pulse, phasesFrom_pulses]
  simp only [phasesFrom]
  rw [if_neg (by decide)]
  congr 3
  · omega
  · ring

theorem phasesFrom_credits (cfg : SystemConfig) {m : Nat} (hm : cfg.pulsesPerCredit.toNat = m + 1) (cs : List PinCall) :
    ∀ k : Nat, phasesFrom ⟨PIN_HIGH, 0⟩ ((List.replicate k (PinCall.addCredit cfg)).flatten ++ cs) =
      train k cfg.pulseHighTime.toNat ((2 * m + 1) * cfg.pulseHighTime.toNat) ++ phasesFrom ⟨PIN_HIGH, 0⟩ cs
  | 0 => rfl
  | k + 1 => by
    rw [List.replicate_succ, List.flatten_cons, List.append_assoc, phasesFrom_addCredit cfg hm,
      phasesFrom_credits cfg hm cs k, train_succ]
    rfl

/-- Without pulses the output is never LOW. -/
theorem phasesFrom_credits_zero (cfg : SystemConfig) (h0 : cfg.pulsesPerCredit.toNat = 0) (cs : List PinCall) :
    ∀ k : Nat, phasesFrom ⟨PIN_HIGH, 0⟩ ((List.replicate k (PinCall.addCredit cfg)).flatten ++ cs) =
      phasesFrom ⟨PIN_HIGH, 0⟩ cs
  | 0 => rfl
  | k + 1 => by
    have hcredit : PinCall.addCredit cfg = [.write PIN_HIGH, .write PIN_HIGH] := by rw [PinCall.addCredit, h0]; rfl
    rw [← phasesFrom_credits_zero cfg h0 cs k, List.replicate_succ, List.flatten_cons, List.append_assoc, hcredit]
    simp only [List.cons_append, List.nil_append, phasesFrom, if_true]

/-- The first level a credit writes is HIGH. -/
theorem phases_credits (cfg : SystemConfig) (cs : List PinCall) (k : Nat) :
    phases ((List.replicate (k + 1) (PinCall.addCredit cfg)).flatten ++ cs) =
      phasesFrom ⟨PIN_HIGH, 0⟩ ((List.replicate (k + 1) (PinCall.addCredit cfg)).flatten ++ cs) := by
  rw [List.replicate_succ, List.flatten_cons, List.append_assoc, PinCall.addCredit]
  simp only [List.cons_append, phases, phasesFrom, if_true]

theorem phases_onCreditEvent_zero {cfg : SystemConfig} (he : cfg.enabled ≠ 0) {evt : CreditEvt}
    (h : evt.count.toNat = 0 ∨ cfg.pulsesPerCredit.toNat = 0) : phases (PinCall.onCreditEvent cfg evt) = [] ∧ evt.count.toNat = 0 ∨
      phases (PinCall.onCreditEvent cfg evt) = [⟨PIN_HIGH, 1500⟩] := by
  rw [PinCall.onCreditEvent, if_neg he]
  cases hk : evt.count.toNat with
  | zero => exact Or.inl ⟨rfl, rfl⟩
  | succ k =>
    have h0 : cfg.pulsesPerCredit.toNat = 0 := h.resolve_left (by omega)
    refine Or.inr ?_
    rw [phases_credits, phasesFrom_credits_zero cfg h0]
    rfl

theorem phases_onCreditEvent {cfg : SystemConfig} (he : cfg.enabled ≠ 0) {evt : CreditEvt} {k m : Nat}
    (hk : evt.count.toNat = k + 1) (hm : cfg.pulsesPerCredit.toNat = m + 1) : phases (PinCall.onCreditEvent cfg evt) =
      train (k + 1) cfg.pulseHighTime.toNat ((2 * m + 1) * cfg.pulseHighTime.toNat) ++ [⟨PIN_HIGH, 1500⟩] := by
  rw [PinCall.onCreditEvent, if_neg he, hk, phases_credits, phasesFrom_credits cfg hm]
  rfl

/-! ## The waveform -/

theorem lows_train (n high low last : Nat) :
    ((train n high low ++ [Phase.mk PIN_HIGH last]).filter (fun ph => ph.level = PIN_LOW)).map Phase.ms =
      List.replicate n low := by
  induction n with
  | zero => rfl
  | succ n ih => rw [train_succ, List.replicate_succ, ← ih]; rfl

/-- Between two LOW phases of a train stands a HIGH phase of the high time. -/
theorem apart_train (n high low last : Nat) : ∀ pre a mid b post,
    train n high low ++ [⟨PIN_HIGH, last⟩] = pre ++ a :: (mid ++ b :: post) → a.level = PIN_LOW → b.level = PIN_LOW →
      ∃ ph ∈ mid, ph.level = PIN_HIGH ∧ high ≤ ph.ms := by
  induction n with
  | zero =>
    intro pre a mid b post h ha hb
    have := congrArg List.length h
    simp [train] at this
    omega
  | succ n ih =>
    intro pre a mid b post h ha hb
    rw [train_succ] at h
    rcases pre with - | ⟨x, - | ⟨y, pre⟩⟩
    · -- the first phase is HIGH
      obtain ⟨rfl, -⟩ := List.cons.inj h
      cases ha
    · obtain ⟨-, h⟩ := List.cons.inj h
      obtain ⟨-, h⟩ := List.cons.inj h
      cases n with
      | zero =>
        rcases mid with - | ⟨z, mid⟩
        · obtain ⟨rfl, -⟩ := List.cons.inj h
          cases hb
        · have := congrArg List.length h
          simp [train] at this
      | succ n =>
        rw [train_succ] at h
        rcases mid with - | ⟨z, mid⟩
        · obtain ⟨rfl, -⟩ := List.cons.inj h
          cases hb
        · obtain ⟨rfl, -⟩ := List.cons.inj h
          exact ⟨_, List.mem_cons_self, rfl, Nat.le_refl _⟩
    · obtain ⟨-, h⟩ := List.cons.inj h
      obtain ⟨-, h⟩ := List.cons.inj h
      exact ih pre a mid b post h ha hb

theorem conforms_train (credits n : Nat) (high low : UInt32) (last : Nat) :
    Conforms credits n high low (train (credits * n) high.toNat low.toNat ++ [⟨PIN_HIGH, last⟩]) :=
  ⟨Or.inr ⟨last, rfl⟩, lows_train _ _ _ _, apart_train _ _ _ _⟩

/-- The handler makes the waveform that `pulses_per_credit` and the two times ask for. -/
def Conforming (cfg : SystemConfig) (evt : CreditEvt) : Prop :=
  ∃ w, waveform (PinCall.onCreditEvent cfg evt) = some w ∧
    Conforms evt.count.toNat cfg.pulsesPerCredit.toNat cfg.pulseHighTime cfg.pulseLowTime w

theorem conforming_iff (cfg : SystemConfig) (evt : CreditEvt) : Conforming cfg evt ↔
    (PinCall.onCreditEvent cfg evt).all PinCall.returns ∧
      Conforms evt.count.toNat cfg.pulsesPerCredit.toNat cfg.pulseHighTime cfg.pulseLowTime
        (phases (PinCall.onCreditEvent cfg evt)) := by
  unfold Conforming waveform
  split
  · rename_i h
    exact ⟨fun ⟨w, hw, hc⟩ => ⟨h, by rwa [Option.some.inj hw]⟩, fun hc => ⟨_, rfl, hc.2⟩⟩
  · rename_i h
    exact ⟨fun ⟨w, hw, _⟩ => (by cases hw), fun hc => absurd hc.1 h⟩

/-- With no pulse to make, the output stays HIGH or is not written. -/
theorem conforms_without_pulses {cfg : SystemConfig} (he : cfg.enabled ≠ 0) {evt : CreditEvt}
    (h0 : evt.count.toNat = 0 ∨ cfg.pulsesPerCredit.toNat = 0) :
    Conforms evt.count.toNat cfg.pulsesPerCredit.toNat cfg.pulseHighTime cfg.pulseLowTime
      (phases (PinCall.onCreditEvent cfg evt)) := by
  have hzero : evt.count.toNat * cfg.pulsesPerCredit.toNat = 0 := Nat.mul_eq_zero.2 h0
  rcases phases_onCreditEvent_zero he h0 with ⟨hw, hk⟩ | hw
  · rw [hw]
    exact ⟨Or.inl ⟨rfl, hk⟩, by rw [hzero]; rfl, fun pre a mid b post h => by simp at h⟩
  · have hconf := conforms_train evt.count.toNat cfg.pulsesPerCredit.toNat cfg.pulseHighTime cfg.pulseLowTime 1500
    rw [hzero] at hconf
    rw [hw]
    exact hconf

/-- With a pulse to make, the one LOW phase of a credit is `2 * n - 1` high times. -/
theorem conforms_with_pulses {cfg : SystemConfig} (he : cfg.enabled ≠ 0) {evt : CreditEvt} {k m : Nat}
    (hk : evt.count.toNat = k + 1) (hm : cfg.pulsesPerCredit.toNat = m + 1) :
    Conforms evt.count.toNat cfg.pulsesPerCredit.toNat cfg.pulseHighTime cfg.pulseLowTime
      (phases (PinCall.onCreditEvent cfg evt)) ↔ m = 0 ∧ cfg.pulseHighTime = cfg.pulseLowTime := by
  rw [phases_onCreditEvent he hk hm, hk, hm]
  constructor
  · intro hconf
    have hlows := hconf.lows
    rw [lows_train, List.replicate_inj] at hlows
    obtain ⟨hlen, hms⟩ := hlows
    have hm0 : m = 0 := by
      have : (k + 1) * (m + 1) = (k + 1) * 1 := by omega
      have := Nat.eq_of_mul_eq_mul_left (Nat.succ_pos k) this
      omega
    have hms := hms.resolve_left (Nat.succ_ne_zero k)
    rw [hm0, Nat.mul_zero, Nat.zero_add, Nat.one_mul] at hms
    exact ⟨hm0, UInt32.toNat_inj.1 hms⟩
  · rintro ⟨hm0, htimes⟩
    have hconf := conforms_train (k + 1) 1 cfg.pulseHighTime cfg.pulseLowTime 1500
    rw [hm0, ← htimes, Nat.mul_zero, Nat.zero_add, Nat.one_mul]
    rwa [← htimes, Nat.mul_one] at hconf

/-- **The output gets one LOW phase a pulse exactly when a credit is one pulse** whose two times are equal and of a length
that a delay can have, or there is no pulse at all. -/
theorem conforms_iff (s : App) (evt : CreditEvt) (he : s.sysCfg.enabled ≠ 0) : Conforming s.sysCfg evt ↔
    evt.count = 0 ∨ s.sysCfg.pulsesPerCredit = 0 ∨
      s.sysCfg.pulsesPerCredit = 1 ∧ s.sysCfg.pulseHighTime = s.sysCfg.pulseLowTime ∧
        s.sysCfg.pulseHighTime < 0x7FFFFFFF := by
  generalize s.sysCfg = cfg at he
  have hcount : evt.count = 0 ↔ evt.count.toNat = 0 := UInt16.toNat_inj.symm
  have hpulses : cfg.pulsesPerCredit = 0 ↔ cfg.pulsesPerCredit.toNat = 0 := UInt32.toNat_inj.symm
  have hone : cfg.pulsesPerCredit = 1 ↔ cfg.pulsesPerCredit.toNat = 1 := UInt32.toNat_inj.symm
  rw [conforming_iff]
  by_cases h0 : evt.count.toNat = 0 ∨ cfg.pulsesPerCredit.toNat = 0
  · exact iff_of_true ⟨(PinCall.returns_onCreditEvent he evt).2 (by tauto), conforms_without_pulses he h0⟩
      (h0.elim (fun h => Or.inl (hcount.2 h)) (fun h => Or.inr (Or.inl (hpulses.2 h))))
  · obtain ⟨hk, hm⟩ := not_or.1 h0
    rw [hcount, hpulses, hone, or_iff_right hk, or_iff_right hm]
    obtain ⟨k, hk⟩ := Nat.exists_eq_add_one_of_ne_zero hk
    obtain ⟨m, hm⟩ := Nat.exists_eq_add_one_of_ne_zero hm
    rw [PinCall.returns_onCreditEvent he, conforms_with_pulses he hk hm, hk, hm, Nat.add_eq_right]
    constructor
    · rintro ⟨hr, hm0, htimes⟩
      exact ⟨hm0, htimes, (hr.resolve_left (Nat.succ_ne_zero k)).resolve_left (Nat.succ_ne_zero m)⟩
    · rintro ⟨hm0, htimes, hhigh⟩
      exact ⟨Or.inr (Or.inr hhigh), hm0, htimes⟩

def twoPulses : SystemConfig := { appInit.sysCfg with pulsesPerCredit := 2, enabled := 1 }

/-- **Two pulses are one LOW phase** of three high times. -/
theorem two_pulses_are_one_low : waveform (PinCall.onCreditEvent twoPulses ⟨1, 500⟩) =
      some [⟨PIN_HIGH, 100⟩, ⟨PIN_LOW, 300⟩, ⟨PIN_HIGH, 1500⟩] ∧
    ¬ ∀ (s : App) (evt : CreditEvt), s.sysCfg.enabled ≠ 0 → Conforming s.sysCfg evt := by
  have hw : waveform (PinCall.onCreditEvent twoPulses ⟨1, 500⟩) =
      some [⟨PIN_HIGH, 100⟩, ⟨PIN_LOW, 300⟩, ⟨PIN_HIGH, 1500⟩] := by decide +kernel
  refine ⟨hw, fun h => ?_⟩
  obtain ⟨w, hwave, hconf⟩ := h { appInit with sysCfg := twoPulses } ⟨1, 500⟩ (by decide)
  have hlows := hconf.lows
  rw [← Option.some.inj (hw.symm.trans hwave)] at hlows
  exact absurd hlows (by decide)

theorem conforms_iff_default : Conforming { appInit.sysCfg with enabled := 1 } ⟨3, 500⟩ :=
  (conforms_iff { appInit with sysCfg := { appInit.sysCfg with enabled := 1 } } ⟨3, 500⟩ (by decide)).2
    (Or.inr (Or.inr (by decide)))

end RtPay
