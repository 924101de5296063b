import RtPay.Event
import RtPay.Gpio
import RtPay.Kernel.Timer
import RtPay.Lib.CStr
import RtPay.Lcd.Driver
/-!
# App — app.c

The statics of app.c with what they drive: the outputs, the display driver and the milliseconds waited.  `app_loop` is
a fold of `appStep` over the events it reads, from the state `start_message` leaves.
-/
namespace RtPay

open Bytes CStr Lcd

def RT_TICK_PER_SECOND : UInt32 := 1000

def RT_WAITING_FOREVER : UInt32 := 0xFFFFFFFF

/-- The parameter is signed: a number from 2³¹ on is negative. -/
def rtTickFromMillisecond (ms : UInt32) : UInt32 :=
  if ms < 0x80000000 then RT_TICK_PER_SECOND * (ms / 1000) + (RT_TICK_PER_SECOND * (ms % 1000) + 999) / 1000
  else RT_WAITING_FOREVER

/-- The ticks of `rt_thread_mdelay`: none where `rt_timer_control` asserts that the timer cannot be set to so many, and the
call does not return. -/
def rtThreadMdelay (ms : UInt32) : Option Nat :=
  if rtTickFromMillisecond ms < Kernel.RT_TICK_MAX / 2 then some (rtTickFromMillisecond ms).toNat else none

def DEFAULT_PRICE : UInt32 := 100
def DEFAULT_PULSES_PER_CREDIT : UInt32 := 1
def DEFAULT_PULSE_HIGH_TIME : UInt32 := 100
def DEFAULT_PULSE_LOW_TIME : UInt32 := 100
def OUTPUT_PULSE_PIN : List Byte := text "RB0"

structure SystemConfig where
  name : List Byte
  price : UInt32
  pulsesPerCredit : UInt32
  enabled : Int32
  pulseHighTime : UInt32
  pulseLowTime : UInt32
  pulsePin : Int
  deriving DecidableEq

/-- `waited` is `none` once a delay was asked for that does not return: what the handlers do behind it is not done. -/
structure App where
  sysCfg : SystemConfig
  gpio : Gpio
  lcd : Driver
  waited : Option Nat
  deriving DecidableEq

namespace App

def mdelay (s : App) (ms : UInt32) : App :=
  { s with waited := s.waited.bind (fun n => (rtThreadMdelay ms).map (n + ·)) }

def writePulsePin (s : App) (value : Bool) : App := { s with gpio := rtPinWrite s.gpio s.sysCfg.pulsePin value }

def puts (s : App) (x y : Byte) (str : List Byte) : App := { s with lcd := lcdPuts s.lcd x y str }

/-- `snprintf` into `char line[17]`. -/
def snprintfLine (str : List Byte) : List Byte := str.take 16

/-- An amount in cents after its label, as `"%02d.%02d"` prints it. -/
def amount (label : List Byte) (cents : UInt32) : List Byte :=
  label ++ (fmt02d (cents / 100).toNat ++ (text "." ++ fmt02d (cents % 100).toNat))

def startMessage (s : App) : App :=
  let s := s.puts 0 0 (text " Booting system ")
  s.puts 0 1 (text "   Please wait  ")

def idleMessage (s : App) : App :=
  let line := snprintfLine (amount (text "Price $") s.sysCfg.price)
  let s := s.puts 0 0 (text "                 ")
  let s := s.puts 0 0 line
  s.puts 0 1 (text "swipe or scan QR")

def creditMessage (s : App) (balance : UInt32) : App :=
  let line := snprintfLine (amount (text "Balance $") balance)
  let s := s.puts 0 0 (text "  Thank you!!!  ")
  let s := s.puts 0 1 (text "                ")
  s.puts 0 1 line

def outOfServiceMessage (s : App) (reason : List Byte) : App :=
  let s := s.puts 0 0 (text " Out of service ")
  s.puts 0 1 reason

def connectingMessage (s : App) : App :=
  let s := s.puts 0 0 (text "   connecting   ")
  s.puts 0 1 (text "   to  server   ")

def onEnableEvent (s : App) (evt : EnableEvt) : App :=
  if evt.enable ≠ s.sysCfg.enabled then
    let s := { s with sysCfg := { s.sysCfg with enabled := evt.enable } }
    if evt.enable ≠ 0 then s.idleMessage else s.outOfServiceMessage (text "disabled by ownr")
  else s

def setNumbers (s : App) (evt : ConfigEvt) : App :=
  { s with sysCfg := { s.sysCfg with price := evt.price, pulsesPerCredit := evt.pulsesPerCredit.toUInt32 } }

/-- `evt->name[0] =! '\n'` assigns `!'\n'`, and the assigned value is the condition. -/
def onConfigEvent (s : App) (evt : ConfigEvt) : App :=
  let s := s.setNumbers evt
  let assigned : Byte := if (0x0A : Byte) = 0 then 1 else 0
  let name := evt.name.set 0 assigned
  let s := if assigned ≠ 0 then
      { s with sysCfg := { s.sysCfg with name := strncpyBytes name MAX_DEVICE_NAME_LEN } }
    else s
  if s.sysCfg.enabled ≠ 0 then s.idleMessage else s

/-- One pulse of `add_credit`: both delays are the high time. -/
def pulse (s : App) : App :=
  let s := s.mdelay s.sysCfg.pulseHighTime
  let s := s.writePulsePin PIN_LOW
  s.mdelay s.sysCfg.pulseHighTime

def addCredit (s : App) : App :=
  let s := s.writePulsePin PIN_HIGH
  let s := pulse^[s.sysCfg.pulsesPerCredit.toNat] s
  s.writePulsePin PIN_HIGH

def onCreditEvent (s : App) (evt : CreditEvt) : App :=
  if s.sysCfg.enabled = 0 then s
  else
    let s := addCredit^[evt.count.toNat] s
    let s := s.creditMessage evt.balance
    let s := s.mdelay 1500
    s.idleMessage

def onMqttEvent (s : App) : MqttEvent → App
  | .connecting => s.connectingMessage
  | .connFailed => s.outOfServiceMessage (text "connection error")
  | .connSuccess =>
    if s.sysCfg.enabled ≠ 0 then s.idleMessage else s.outOfServiceMessage (text "disabled by ownr")
  | .undefined => s

end App

open App

/-- `app_init`, with the outputs at reset and the statics of the display driver as the program starts. -/
def appInit : App :=
  { sysCfg :=
      { name := strncpyBytes (text "rt-pay") MAX_DEVICE_NAME_LEN
        price := DEFAULT_PRICE
        pulsesPerCredit := DEFAULT_PULSES_PER_CREDIT
        enabled := 0
        pulseHighTime := DEFAULT_PULSE_HIGH_TIME
        pulseLowTime := DEFAULT_PULSE_LOW_TIME
        pulsePin := rtPinGet OUTPUT_PULSE_PIN }
    gpio := Gpio.reset
    lcd := lcdInit Driver.boot
    waited := some 0 }

def appStep (s : App) : Event → App
  | .enable evt => s.onEnableEvent evt
  | .config evt => s.onConfigEvent evt
  | .credit evt => s.onCreditEvent evt
  | .mqtt evt => s.onMqttEvent evt
  | .undefined => s
  | .card _ => s

def appLoop (evts : List Event) : App := evts.foldl appStep appInit.startMessage

theorem appLoop_concat (evts : List Event) (e : Event) : appLoop (evts ++ [e]) = appStep (appLoop evts) e := by
  rw [appLoop, List.foldl_append]; rfl

/-! ## Delays -/

/-- A tick is a millisecond. -/
theorem rtTickFromMillisecond_of_lt {ms : UInt32} (h : ms < 0x80000000) : rtTickFromMillisecond ms = ms := by
  have hsize : ms.toNat < 0x80000000 := UInt32.lt_iff_toNat_lt.1 h
  unfold rtTickFromMillisecond RT_TICK_PER_SECOND
  rw [if_pos h]
  have hsum : (1000 * (ms.toNat % 1000) % 2 ^ 32 + 999) % 2 ^ 32 = 1000 * (ms.toNat % 1000) + 999 := by omega
  have hup : (1000 * (ms.toNat % 1000) + 999) / 1000 = ms.toNat % 1000 := by omega
  apply UInt32.toNat_inj.1
  simp only [UInt32.toNat_add, UInt32.toNat_mul, UInt32.toNat_div, UInt32.toNat_mod, UInt32.reduceToNat]
  rw [hsum, hup]
  omega

/-- **A delay returns exactly when it is shorter than 2³¹ − 1 milliseconds**, and then it is of so many ticks. -/
theorem rtThreadMdelay_eq (ms : UInt32) :
    rtThreadMdelay ms = if ms < 0x7FFFFFFF then some ms.toNat else none := by
  have hhalf : Kernel.RT_TICK_MAX / 2 = 0x7FFFFFFF := by decide +kernel
  unfold rtThreadMdelay
  rw [hhalf]
  by_cases h : ms < 0x80000000
  · rw [rtTickFromMillisecond_of_lt h]
  · have hge : ¬ ms < 0x7FFFFFFF := by
      rw [UInt32.lt_iff_toNat_lt] at h ⊢
      simp only [UInt32.reduceToNat] at h ⊢
      omega
    rw [rtTickFromMillisecond, if_neg h, if_neg (by decide), if_neg hge]

/-! ## What each part of a handler leaves alone -/

namespace App

@[simp] theorem sysCfg_puts (s : App) (x y : Byte) (str : List Byte) : (s.puts x y str).sysCfg = s.sysCfg := rfl
@[simp] theorem gpio_puts (s : App) (x y : Byte) (str : List Byte) : (s.puts x y str).gpio = s.gpio := rfl
@[simp] theorem waited_puts (s : App) (x y : Byte) (str : List Byte) : (s.puts x y str).waited = s.waited := rfl
@[simp] theorem sysCfg_mdelay (s : App) (ms : UInt32) : (s.mdelay ms).sysCfg = s.sysCfg := rfl
@[simp] theorem gpio_mdelay (s : App) (ms : UInt32) : (s.mdelay ms).gpio = s.gpio := rfl
@[simp] theorem lcd_mdelay (s : App) (ms : UInt32) : (s.mdelay ms).lcd = s.lcd := rfl
@[simp] theorem sysCfg_writePulsePin (s : App) (v : Bool) : (s.writePulsePin v).sysCfg = s.sysCfg := rfl
@[simp] theorem lcd_writePulsePin (s : App) (v : Bool) : (s.writePulsePin v).lcd = s.lcd := rfl
@[simp] theorem sysCfg_startMessage (s : App) : s.startMessage.sysCfg = s.sysCfg := by
  rw [startMessage, sysCfg_puts, sysCfg_puts]
@[simp] theorem sysCfg_idleMessage (s : App) : s.idleMessage.sysCfg = s.sysCfg := by
  rw [idleMessage, sysCfg_puts, sysCfg_puts, sysCfg_puts]
@[simp] theorem gpio_idleMessage (s : App) : s.idleMessage.gpio = s.gpio := by
  rw [idleMessage, gpio_puts, gpio_puts, gpio_puts]
@[simp] theorem waited_idleMessage (s : App) : s.idleMessage.waited = s.waited := by
  rw [idleMessage, waited_puts, waited_puts, waited_puts]
@[simp] theorem sysCfg_creditMessage (s : App) (b : UInt32) : (s.creditMessage b).sysCfg = s.sysCfg := by
  rw [creditMessage, sysCfg_puts, sysCfg_puts, sysCfg_puts]
@[simp] theorem gpio_creditMessage (s : App) (b : UInt32) : (s.creditMessage b).gpio = s.gpio := by
  rw [creditMessage, gpio_puts, gpio_puts, gpio_puts]
@[simp] theorem sysCfg_outOfServiceMessage (s : App) (r : List Byte) : (s.outOfServiceMessage r).sysCfg = s.sysCfg := by
  rw [outOfServiceMessage, sysCfg_puts, sysCfg_puts]
@[simp] theorem gpio_outOfServiceMessage (s : App) (r : List Byte) : (s.outOfServiceMessage r).gpio = s.gpio := by
  rw [outOfServiceMessage, gpio_puts, gpio_puts]
@[simp] theorem waited_outOfServiceMessage (s : App) (r : List Byte) : (s.outOfServiceMessage r).waited = s.waited := by
  rw [outOfServiceMessage, waited_puts, waited_puts]
@[simp] theorem sysCfg_connectingMessage (s : App) : s.connectingMessage.sysCfg = s.sysCfg := by
  rw [connectingMessage, sysCfg_puts, sysCfg_puts]
@[simp] theorem gpio_connectingMessage (s : App) : s.connectingMessage.gpio = s.gpio := by
  rw [connectingMessage, gpio_puts, gpio_puts]
@[simp] theorem waited_connectingMessage (s : App) : s.connectingMessage.waited = s.waited := by
  rw [connectingMessage, waited_puts, waited_puts]

@[simp] theorem sysCfg_pulse (s : App) : s.pulse.sysCfg = s.sysCfg := rfl
@[simp] theorem lcd_pulse (s : App) : s.pulse.lcd = s.lcd := rfl

theorem iterate_keeps {β : Type} (g : App → β) {f : App → App} (h : ∀ s, g (f s) = g s) (n : Nat) (s : App) :
    g (f^[n] s) = g s := by
  induction n generalizing s with
  | zero => rfl
  | succ n ih => rw [Function.iterate_succ_apply, ih, h]

@[simp] theorem sysCfg_addCredit (s : App) : s.addCredit.sysCfg = s.sysCfg := by
  rw [addCredit, sysCfg_writePulsePin, iterate_keeps App.sysCfg sysCfg_pulse, sysCfg_writePulsePin]

@[simp] theorem lcd_addCredit (s : App) : s.addCredit.lcd = s.lcd := by
  rw [addCredit, lcd_writePulsePin, iterate_keeps App.lcd lcd_pulse, lcd_writePulsePin]

theorem sysCfg_onEnableEvent (s : App) (evt : EnableEvt) :
    (s.onEnableEvent evt).sysCfg = { s.sysCfg with enabled := evt.enable } := by
  unfold onEnableEvent
  split
  · dsimp only
    split
    · rw [sysCfg_idleMessage]
    · rw [sysCfg_outOfServiceMessage]
  · rename_i h
    rw [not_not.1 h]

theorem onConfigEvent_eq (s : App) (evt : ConfigEvt) : s.onConfigEvent evt =
    if s.sysCfg.enabled ≠ 0 then (s.setNumbers evt).idleMessage else s.setNumbers evt := by
  unfold onConfigEvent
  simp only [show ((0x0A : Byte) = 0) ↔ False by decide, if_false, ne_eq, not_true_eq_false]
  rfl

/-- **A config event always sets both numbers and never the name.** -/
theorem sysCfg_onConfigEvent (s : App) (evt : ConfigEvt) : (s.onConfigEvent evt).sysCfg =
    { s.sysCfg with price := evt.price, pulsesPerCredit := evt.pulsesPerCredit.toUInt32 } := by
  rw [onConfigEvent_eq]
  split
  · rw [sysCfg_idleMessage, setNumbers]
  · rw [setNumbers]

theorem sysCfg_onCreditEvent (s : App) (evt : CreditEvt) : (s.onCreditEvent evt).sysCfg = s.sysCfg := by
  unfold onCreditEvent
  split
  · rfl
  · simp only [sysCfg_idleMessage, sysCfg_mdelay, sysCfg_creditMessage]
    exact iterate_keeps App.sysCfg sysCfg_addCredit _ s

theorem sysCfg_onMqttEvent (s : App) (evt : MqttEvent) : (s.onMqttEvent evt).sysCfg = s.sysCfg := by
  cases evt with
  | connecting => exact sysCfg_connectingMessage s
  | connFailed => exact sysCfg_outOfServiceMessage s _
  | connSuccess =>
    rw [onMqttEvent]
    split
    · exact sysCfg_idleMessage s
    · exact sysCfg_outOfServiceMessage s _
  | undefined => rfl

end App

/-- **Only a credit event drives the output and waits.** -/
theorem outputs_appStep (s : App) {e : Event} (h : ∀ evt, e ≠ .credit evt) :
    (appStep s e).gpio = s.gpio ∧ (appStep s e).waited = s.waited := by
  cases e with
  | enable evt =>
    rw [appStep, onEnableEvent]
    split
    · dsimp only
      split
      · exact ⟨gpio_idleMessage _, waited_idleMessage _⟩
      · exact ⟨gpio_outOfServiceMessage _ _, waited_outOfServiceMessage _ _⟩
    · exact ⟨rfl, rfl⟩
  | config evt =>
    rw [appStep, onConfigEvent_eq]
    split
    · exact ⟨gpio_idleMessage _, waited_idleMessage _⟩
    · exact ⟨rfl, rfl⟩
  | credit evt => exact absurd rfl (h evt)
  | mqtt evt =>
    rw [appStep]
    cases evt with
    | connecting => exact ⟨gpio_connectingMessage s, waited_connectingMessage s⟩
    | connFailed => exact ⟨gpio_outOfServiceMessage s _, waited_outOfServiceMessage s _⟩
    | connSuccess =>
      rw [onMqttEvent]
      split
      · exact ⟨gpio_idleMessage s, waited_idleMessage s⟩
      · exact ⟨gpio_outOfServiceMessage s _, waited_outOfServiceMessage s _⟩
    | undefined => exact ⟨rfl, rfl⟩
  | undefined => exact ⟨rfl, rfl⟩
  | card evt => exact ⟨rfl, rfl⟩

theorem pulsePin_appStep (s : App) (e : Event) : (appStep s e).sysCfg.pulsePin = s.sysCfg.pulsePin := by
  cases e with
  | enable evt => rw [appStep, sysCfg_onEnableEvent]
  | config evt => rw [appStep, sysCfg_onConfigEvent]
  | credit evt => rw [appStep, sysCfg_onCreditEvent]
  | mqtt evt => rw [appStep, sysCfg_onMqttEvent]
  | undefined => rfl
  | card evt => rfl

end RtPay
