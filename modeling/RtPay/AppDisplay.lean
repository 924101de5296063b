import RtPay.App
import RtPay.Lcd.Screen
import Mathlib.Data.List.Induction
/-!
# AppDisplay — the display while connected

Every message writes all 32 cells, and every event that changes what the display depends on writes one.  So, from the
last connection on, the display is a function of the configuration (`display_of_connected`).
-/
namespace RtPay

open Bytes CStr Lcd App

def lastMqtt (evts : List Event) : Option MqttEvent :=
  evts.foldl (fun last e => match e with | .mqtt evt => some evt | _ => last) none

def pad16 (line : List Byte) : List Byte := (line ++ List.replicate 16 0x20).take 16

/-- What the two rows are to show while connected. -/
def display (cfg : SystemConfig) : List Byte × List Byte :=
  if cfg.enabled ≠ 0 then (pad16 (amount (text "Price $") cfg.price), text "swipe or scan QR")
  else (text " Out of service ", text "disabled by ownr")

structure Shows (power : Screen) (s : App) (rows : List Byte × List Byte) : Prop where
  row0 : (screen power s.lcd).row 0 = rows.1
  row1 : (screen power s.lcd).row 1 = rows.2

variable {power : Screen}

/-! ## Rows of overlaid cells -/

theorem getElem?_row (sc : Screen) (r c : Nat) : (sc.row r)[c]? = if c < 16 then some (sc.cell (16 * r + c)) else none := by
  unfold Screen.row
  rw [List.getElem?_map]
  split
  · rename_i h; rw [List.getElem?_range h]; rfl
  · rename_i h; rw [List.getElem?_eq_none (by simpa using h)]; rfl

theorem row_eq {sc : Screen} {r : Nat} (l : List Byte) (hl : l.length = 16)
    (h : ∀ c, c < 16 → sc.cell (16 * r + c) = (l[c]?).getD 0x20) : sc.row r = l := by
  apply List.ext_getElem?
  intro c
  rw [getElem?_row]
  split
  · rename_i hc
    rw [h c hc, List.getElem?_eq_getElem (by omega), Option.getD_some]
  · rename_i hc
    rw [List.getElem?_eq_none (by omega)]

theorem getD_full {l : List Byte} (hl : l.length = 16) {c : Nat} (hc : c < 16) (b : Byte) :
    (l[c]?).getD b = (l[c]?).getD 0x20 := by
  rw [List.getElem?_eq_getElem (by omega)]; rfl

theorem overlay_of_lt (g : Nat → Byte) {p q : Nat} (h : q < p) (str : List Byte) : overlay g p str q = g q :=
  if_neg (by omega)

theorem overlay_add (g : Nat → Byte) (p c : Nat) (str : List Byte) :
    overlay g p str (p + c) = (str[c]?).getD (g (p + c)) := by
  rw [overlay, if_pos (by omega), Nat.add_sub_cancel_left]

theorem getElem?_pad16 (l : List Byte) {c : Nat} (h : c < 16) : ((pad16 l)[c]?).getD 0x20 = (l[c]?).getD 0x20 := by
  unfold pad16
  rw [List.getElem?_take_of_lt h, List.getElem?_append]
  split
  · rfl
  · rename_i hc
    rw [List.getElem?_replicate, List.getElem?_eq_none (Nat.le_of_not_lt hc)]
    split <;> rfl

theorem length_pad16 (l : List Byte) : (pad16 l).length = 16 := by
  simp [pad16]

/-! ## Messages -/

theorem cells_puts_row0 {s : App} (h : Forward power s.lcd) (str : List Byte) (hl : str.length ≤ 32)
    (hc : ∀ c ∈ str, Printable c) : Forward power (s.puts 0 0 str).lcd ∧ ∀ q, q < 32 →
      (screen power (s.puts 0 0 str).lcd).cell q = overlay (screen power s.lcd).cell 0 str q := by
  have hrow : (clampRow 0).toNat = 0 := by decide
  have := cells_lcdPuts h 0 0 str (by decide) (by rw [hrow]; simpa using hl) hc
  rw [hrow] at this
  exact this

theorem cells_puts_row1 {s : App} (h : Forward power s.lcd) (str : List Byte) (hl : str.length ≤ 16)
    (hc : ∀ c ∈ str, Printable c) : Forward power (s.puts 0 1 str).lcd ∧ ∀ q, q < 32 →
      (screen power (s.puts 0 1 str).lcd).cell q = overlay (screen power s.lcd).cell 16 str q := by
  have hrow : (clampRow 1).toNat = 1 := by decide
  have := cells_lcdPuts h 0 1 str (by decide) (by rw [hrow]; simp; omega) hc
  rw [hrow] at this
  exact this

/-- **Two full rows leave no cell of what was there.** -/
theorem shows_puts_rows {s : App} (h : Forward power s.lcd) {a b : List Byte} (ha : a.length = 16)
    (hb : b.length = 16) (hca : ∀ c ∈ a, Printable c) (hcb : ∀ c ∈ b, Printable c) :
    Forward power ((s.puts 0 0 a).puts 0 1 b).lcd ∧ Shows power ((s.puts 0 0 a).puts 0 1 b) (a, b) := by
  obtain ⟨h0, hcell0⟩ := cells_puts_row0 h a (by omega) hca
  obtain ⟨h1, hcell1⟩ := cells_puts_row1 h0 b (by omega) hcb
  refine ⟨h1, row_eq a ha (fun c hc => ?_), row_eq b hb (fun c hc => ?_)⟩
  · rw [hcell1 _ (by omega), overlay_of_lt _ (by omega), hcell0 _ (by omega), Nat.mul_zero, overlay_add,
      getD_full ha hc]
  · rw [hcell1 _ (by omega), Nat.mul_one, overlay_add, getD_full hb hc]

theorem printable_of_isdigit {c : Byte} (h : isdigit c = true) : Printable c := by
  simp only [isdigit, Bool.and_eq_true, decide_eq_true_eq] at h
  refine ⟨fun hc => ?_, fun hc => ?_, fun hc => ?_⟩ <;> (subst hc; simp at h)

theorem printable_fmt02d (n : Nat) : ∀ c ∈ fmt02d n, Printable c := by
  intro c hc
  rcases List.mem_append.1 hc with hc | hc
  · rw [List.eq_of_mem_replicate hc]; exact ⟨by decide, by decide, by decide⟩
  · exact printable_of_isdigit (isdigit_of_mem_dec n c hc)

theorem printable_of_all {str : List Byte} (h : str.all (fun c => c != 0x00 && c != 0x0A && c != 0x0D) = true) :
    ∀ c ∈ str, Printable c := by
  intro c hc
  have := List.all_eq_true.1 h c hc
  simp only [Bool.and_eq_true, bne_iff_ne] at this
  exact ⟨this.1.1, this.1.2, this.2⟩

theorem printable_amount {label : List Byte} (h : ∀ c ∈ label, Printable c) (cents : UInt32) :
    ∀ c ∈ amount label cents, Printable c := by
  intro c hc
  rcases List.mem_append.1 hc with hc | hc
  · exact h c hc
  · rcases List.mem_append.1 hc with hc | hc
    · exact printable_fmt02d _ c hc
    · rcases List.mem_append.1 hc with hc | hc
      · exact printable_of_all (by decide) c hc
      · exact printable_fmt02d _ c hc

/-- **`idle_message` writes every cell**: the blanking string reaches into the second row, which is written after it. -/
theorem shows_idleMessage {s : App} (h : Forward power s.lcd) : Forward power s.idleMessage.lcd ∧
    Shows power s.idleMessage (pad16 (amount (text "Price $") s.sysCfg.price), text "swipe or scan QR") := by
  have hpr : ∀ c ∈ snprintfLine (amount (text "Price $") s.sysCfg.price), Printable c := fun c hc =>
    printable_amount (printable_of_all (by decide)) _ c (List.mem_of_mem_take hc)
  obtain ⟨h0, hblank⟩ := cells_puts_row0 h (text "                 ") (by decide) (printable_of_all (by decide))
  obtain ⟨h1, hline⟩ := cells_puts_row0 h0 (snprintfLine (amount (text "Price $") s.sysCfg.price))
    (by simp [snprintfLine]) hpr
  obtain ⟨h2, hswipe⟩ := cells_puts_row1 h1 (text "swipe or scan QR") (by decide) (printable_of_all (by decide))
  have hidle : s.idleMessage = ((s.puts 0 0 (text "                 ")).puts 0 0
      (snprintfLine (amount (text "Price $") s.sysCfg.price))).puts 0 1 (text "swipe or scan QR") := rfl
  rw [← hidle] at h2 hswipe
  refine ⟨h2, row_eq _ (length_pad16 _) (fun c hc => ?_), row_eq (text "swipe or scan QR") (by decide) (fun c hc => ?_)⟩
  · have hspace : (text "                 ")[c]? = some 0x20 := by
      rw [show text "                 " = List.replicate 17 0x20 by decide, List.getElem?_replicate, if_pos (by omega)]
    rw [hswipe _ (by omega), overlay_of_lt _ (by omega), hline _ (by omega), Nat.mul_zero, overlay_add,
      hblank _ (by omega), overlay_add, hspace, Option.getD_some, snprintfLine, List.getElem?_take_of_lt hc,
      getElem?_pad16 _ hc]
  · rw [hswipe _ (by omega), Nat.mul_one, overlay_add, getD_full (by decide) hc]

theorem shows_outOfServiceMessage {s : App} (h : Forward power s.lcd) {reason : List Byte} (hl : reason.length = 16)
    (hc : ∀ c ∈ reason, Printable c) : Forward power (s.outOfServiceMessage reason).lcd ∧
      Shows power (s.outOfServiceMessage reason) (text " Out of service ", reason) :=
  shows_puts_rows h (by decide) hl (printable_of_all (by decide)) hc

theorem forward_startMessage {s : App} (h : Forward power s.lcd) : Forward power s.startMessage.lcd :=
  (shows_puts_rows h (a := text " Booting system ") (b := text "   Please wait  ") (by decide) (by decide)
    (printable_of_all (by decide)) (printable_of_all (by decide))).1

theorem forward_connectingMessage {s : App} (h : Forward power s.lcd) : Forward power s.connectingMessage.lcd :=
  (shows_puts_rows h (a := text "   connecting   ") (b := text "   to  server   ") (by decide) (by decide)
    (printable_of_all (by decide)) (printable_of_all (by decide))).1

theorem forward_creditMessage {s : App} (h : Forward power s.lcd) (balance : UInt32) :
    Forward power (s.creditMessage balance).lcd := by
  have hpr : ∀ c ∈ snprintfLine (amount (text "Balance $") balance), Printable c := fun c hc =>
    printable_amount (printable_of_all (by decide)) _ c (List.mem_of_mem_take hc)
  have h1 := (shows_puts_rows h (a := text "  Thank you!!!  ") (b := text "                ") (by decide) (by decide)
    (printable_of_all (by decide)) (printable_of_all (by decide))).1
  exact (cells_puts_row1 h1 _ (by simp [snprintfLine]) hpr).1

/-! ## Events -/

/-- The driver still writes forward, and the display shows the configuration under a condition. -/
structure Redraws (power : Screen) (s : App) (connected : Prop) : Prop where
  forward : Forward power s.lcd
  shows : connected → Shows power s (display s.sysCfg)

theorem redraws_idleMessage {s : App} (h : Forward power s.lcd) (he : s.sysCfg.enabled ≠ 0) (connected : Prop) :
    Redraws power s.idleMessage connected := by
  obtain ⟨hf, hs⟩ := shows_idleMessage h
  refine ⟨hf, fun _ => ?_⟩
  rw [sysCfg_idleMessage, display, if_pos he]
  exact hs

theorem redraws_disabled {s : App} (h : Forward power s.lcd) (he : s.sysCfg.enabled = 0) (connected : Prop) :
    Redraws power (s.outOfServiceMessage (text "disabled by ownr")) connected := by
  have hc : ∀ c ∈ text "disabled by ownr", Printable c := printable_of_all (by decide)
  obtain ⟨hf, hs⟩ := shows_outOfServiceMessage h (by decide) hc
  refine ⟨hf, fun _ => ?_⟩
  rw [sysCfg_outOfServiceMessage, display, if_neg (not_not.2 he)]
  exact hs

theorem redraws_onEnableEvent {s : App} (h : Forward power s.lcd) (evt : EnableEvt) :
    Redraws power (s.onEnableEvent evt) (Shows power s (display s.sysCfg)) := by
  unfold onEnableEvent
  split
  · dsimp only
    split
    · rename_i he
      exact redraws_idleMessage (by exact h) he _
    · rename_i he
      exact redraws_disabled (by exact h) (not_not.1 he) _
  · exact ⟨h, id⟩

/-- A disabled device shows no price, so a config event need not redraw it. -/
theorem redraws_onConfigEvent {s : App} (h : Forward power s.lcd) (evt : ConfigEvt) :
    Redraws power (s.onConfigEvent evt) (Shows power s (display s.sysCfg)) := by
  rw [onConfigEvent_eq]
  have hf : Forward power (s.setNumbers evt).lcd := h
  by_cases he : s.sysCfg.enabled = 0
  · rw [if_neg (not_not.2 he)]
    have hsame : display (s.setNumbers evt).sysCfg = display s.sysCfg := by
      rw [display, display, if_neg (not_not.2 he), if_neg (show ¬ (s.setNumbers evt).sysCfg.enabled ≠ 0 from not_not.2 he)]
    exact ⟨hf, fun hs => by rw [hsame]; exact ⟨hs.row0, hs.row1⟩⟩
  · rw [if_pos he]
    exact redraws_idleMessage hf he _

theorem redraws_onCreditEvent {s : App} (h : Forward power s.lcd) (evt : CreditEvt) :
    Redraws power (s.onCreditEvent evt) (Shows power s (display s.sysCfg)) := by
  unfold onCreditEvent
  split
  · exact ⟨h, id⟩
  · rename_i he
    dsimp only
    have hlcd : (addCredit^[evt.count.toNat] s).lcd = s.lcd := iterate_keeps App.lcd lcd_addCredit _ s
    have hcfg : (addCredit^[evt.count.toNat] s).sysCfg = s.sysCfg := iterate_keeps App.sysCfg sysCfg_addCredit _ s
    refine redraws_idleMessage ?_ ?_ _
    · rw [lcd_mdelay]
      exact forward_creditMessage (by rw [hlcd]; exact h) _
    · rw [sysCfg_mdelay, sysCfg_creditMessage, hcfg]
      exact he

theorem redraws_onMqttEvent {s : App} (h : Forward power s.lcd) (evt : MqttEvent) :
    Redraws power (s.onMqttEvent evt) (evt = .connSuccess) := by
  cases evt with
  | connecting => exact ⟨forward_connectingMessage h, fun h => nomatch h⟩
  | connFailed =>
    have hc : ∀ c ∈ text "connection error", Printable c := printable_of_all (by decide)
    exact ⟨(shows_outOfServiceMessage h (by decide) hc).1, fun h => nomatch h⟩
  | undefined => exact ⟨h, fun h => nomatch h⟩
  | connSuccess =>
    rw [onMqttEvent]
    by_cases he : s.sysCfg.enabled = 0
    · rw [if_neg (not_not.2 he)]
      exact redraws_disabled h he _
    · rw [if_pos he]
      exact redraws_idleMessage h he _

theorem lastMqtt_concat (evts : List Event) (e : Event) :
    lastMqtt (evts ++ [e]) = match e with | .mqtt evt => some evt | _ => lastMqtt evts := by
  rw [lastMqtt, List.foldl_append]; rfl

theorem redraws_appLoop (power : Screen) (evts : List Event) :
    Redraws power (appLoop evts) (lastMqtt evts = some .connSuccess) := by
  induction evts using List.reverseRecOn with
  | nil =>
    exact ⟨forward_startMessage (forward_lcdInit Driver.boot), fun h => nomatch h⟩
  | append_singleton evts e ih =>
    rw [appLoop_concat, lastMqtt_concat]
    have hf := ih.forward
    cases e with
    | enable evt => have hr := redraws_onEnableEvent hf evt; exact ⟨hr.forward, fun h => hr.shows (ih.shows h)⟩
    | config evt => have hr := redraws_onConfigEvent hf evt; exact ⟨hr.forward, fun h => hr.shows (ih.shows h)⟩
    | credit evt => have hr := redraws_onCreditEvent hf evt; exact ⟨hr.forward, fun h => hr.shows (ih.shows h)⟩
    | mqtt evt =>
      have hr := redraws_onMqttEvent hf evt
      exact ⟨hr.forward, fun h => hr.shows (Option.some.inj h)⟩
    | undefined => exact ⟨hf, ih.shows⟩
    | card evt => exact ⟨hf, ih.shows⟩

/-- **While connected the display is the configuration's**: from whatever the controller held at power-up, and after
any events whose last mqtt event is a successful connection. -/
theorem display_of_connected (power : Screen) (evts : List Event) (h : lastMqtt evts = some .connSuccess) :
    (screen power (appLoop evts).lcd).row 0 = (display (appLoop evts).sysCfg).1 ∧
      (screen power (appLoop evts).lcd).row 1 = (display (appLoop evts).sysCfg).2 := by
  have hs := (redraws_appLoop power evts).shows h
  exact ⟨hs.row0, hs.row1⟩

theorem display_of_connected_enabled : lastMqtt [.enable ⟨1⟩, .mqtt .connSuccess, .credit ⟨1, 500⟩] = some .connSuccess ∧
    (screen ⟨fun _ => 0x3F, 5, true, false⟩
      (appLoop [.enable ⟨1⟩, .mqtt .connSuccess, .credit ⟨1, 500⟩]).lcd).row 0 = text "Price $01.00    " := by
  refine ⟨by decide, ?_⟩
  rw [(display_of_connected _ _ (by decide)).1]
  have hcfg : (appLoop [.enable ⟨1⟩, .mqtt .connSuccess, .credit ⟨1, 500⟩]).sysCfg =
      { appInit.sysCfg with enabled := 1 } := by
    simp only [appLoop, List.foldl, appStep, sysCfg_onCreditEvent, sysCfg_onMqttEvent, sysCfg_onEnableEvent,
      sysCfg_startMessage]
  rw [hcfg]
  decide

end RtPay
