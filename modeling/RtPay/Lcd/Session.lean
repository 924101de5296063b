import RtPay.Lcd.Bus
/-!
# Lcd.Session — every call of lcd.h, as bytes on the bus

`LCD_Init` brings the controller to a 4-bit interface waiting for a high nibble, from whatever interface it was left in
(`feed_stray_widthStrobes`).  From there each call strobes out exactly the pairs it hands to `LCD_Cmd` and `LCD_Data`, so the
controller assembles them in order (`assembled_after_init`).  A repeated `LCD_Init` alone adds to them: the controller
reads its four nibbles as three function sets.
-/
namespace RtPay
namespace Lcd

open Bytes

/-- Between calls: the port idle, and a display control byte that is no function set. -/
structure Ready (s : Driver) : Prop where
  idle : Idle s.portValue
  control : s.opts.displayControl.toBitVec.getLsbD 5 = false

/-- From `s` to `t` the driver hands down the pairs `ps`, strobes them out, and widens no interface. -/
structure Talks (s t : Driver) (ps : List (Bool × Byte)) : Prop where
  emits : Emits s t (ps.flatMap byteStrobes)
  handed : t.handed = s.handed ++ ps
  narrow : ∀ p ∈ ps, widens (onBus p) = false

/-- A stretch of driver code that only talks. -/
structure Said (s t : Driver) : Prop where
  ready : Ready t
  talks : ∃ ps, Talks s t ps

theorem Talks.trans {s t u : Driver} {ps qs : List (Bool × Byte)} (h₁ : Talks s t ps) (h₂ : Talks t u qs) :
    Talks s u (ps ++ qs) := by
  refine ⟨?_, by rw [h₂.handed, h₁.handed, List.append_assoc], fun p hp => ?_⟩
  · rw [List.flatMap_append]; exact h₁.emits.trans h₂.emits
  · rcases List.mem_append.1 hp with hp | hp
    · exact h₁.narrow p hp
    · exact h₂.narrow p hp

theorem Said.refl {s : Driver} (h : Ready s) : Said s s :=
  ⟨h, [], Emits.refl h.idle, by simp, by simp⟩

theorem Said.trans {s t u : Driver} (h₁ : Said s t) (h₂ : Said t u) : Said s u := by
  obtain ⟨ps, hp⟩ := h₁.talks
  obtain ⟨qs, hq⟩ := h₂.talks
  exact ⟨h₂.ready, ps ++ qs, hp.trans hq⟩

theorem Said.andThen {s t : Driver} (h : Said s t) {f : Driver → Driver} (hf : ∀ u, Ready u → Said u (f u)) :
    Said s (f t) :=
  h.trans (hf t h.ready)

theorem said_setOpts {s : Driver} (h : Ready s) (o : LcdOptions) (ho : o.displayControl.toBitVec.getLsbD 5 = false) :
    Said s { s with opts := o } :=
  ⟨⟨h.idle, ho⟩, [], (Emits.refl h.idle).congr rfl rfl rfl, by simp, by simp⟩

/-! ## One byte -/

theorem said_lcdSend {s : Driver} (h : Ready s) (rs : Bool) (b : Byte) (hw : widens (onBus (rs, b)) = false) :
    Said s (lcdSend s rs b) := by
  obtain ⟨he, hh, ho⟩ := emits_lcdSend h.idle rs b
  exact ⟨⟨he.idle, by rw [ho]; exact h.control⟩, [(rs, b)], by simpa using he, hh, by simpa using hw⟩

theorem said_lcdData {s : Driver} (h : Ready s) (b : Byte) : Said s (lcdData s b) :=
  said_lcdSend h true b rfl

theorem said_lcdCmd {s : Driver} (h : Ready s) (b : Byte) (hb : isFunctionSet b.toBitVec = false) :
    Said s (lcdCmd s b) :=
  said_lcdSend h false b (by simp [widens, onBus, hb])

theorem isFunctionSet_or_setDdram (b : Byte) : isFunctionSet (LCD_SETDDRAMADDR ||| b).toBitVec = false := by
  simp [isFunctionSet, LCD_SETDDRAMADDR]

theorem isFunctionSet_or_setCgram (b : Byte) : isFunctionSet (LCD_SETCGRAMADDR ||| b).toBitVec = false := by
  simp [isFunctionSet, LCD_SETCGRAMADDR]

theorem isFunctionSet_or_control (b : Byte) (hb : b.toBitVec.getLsbD 5 = false) :
    isFunctionSet (LCD_DISPLAYCONTROL ||| b).toBitVec = false := by
  have hb : b.toBitVec[5] = false := by simpa using hb
  simp [isFunctionSet, LCD_DISPLAYCONTROL, hb]

/-! ## The calls -/

theorem said_lcdCursorSet {s : Driver} (h : Ready s) (col row : Byte) : Said s (lcdCursorSet s col row) := by
  unfold lcdCursorSet
  have ho := said_setOpts h { s.opts with currentX := col, currentY := if LCD_ROWS ≤ row then 0 else row } h.control
  exact ho.trans (said_lcdCmd ho.ready _ (isFunctionSet_or_setDdram _))

theorem said_lcdControl {s : Driver} (h : Ready s) (control : Byte) (hc : control.toBitVec.getLsbD 5 = false) :
    Said s (lcdControl s control) := by
  unfold lcdControl
  have ho := said_setOpts h { s.opts with displayControl := control } hc
  exact ho.trans (said_lcdCmd ho.ready _ (isFunctionSet_or_control _ hc))

theorem control_or {a b : Byte} (ha : a.toBitVec.getLsbD 5 = false) (hb : b.toBitVec.getLsbD 5 = false) :
    (a ||| b).toBitVec.getLsbD 5 = false := by
  rw [UInt8.toBitVec_or, BitVec.getLsbD_or, ha, hb]; rfl

theorem control_and {a : Byte} (b : Byte) (ha : a.toBitVec.getLsbD 5 = false) :
    (a &&& b).toBitVec.getLsbD 5 = false := by
  rw [UInt8.toBitVec_and, BitVec.getLsbD_and, ha]; rfl

theorem said_lcdWrap {s : Driver} (h : Ready s) : Said s (lcdWrap s) := by
  unfold lcdWrap
  split
  · exact said_lcdCursorSet h _ _
  · exact Said.refl h

theorem said_lcdPutsStep {s : Driver} (h : Ready s) (c : Byte) : Said s (lcdPutsStep s c) := by
  have hw := said_lcdWrap h
  simp only [lcdPutsStep]
  split
  · exact hw.trans (said_lcdCursorSet hw.ready _ _)
  · split
    · exact hw.trans (said_lcdCursorSet hw.ready _ _)
    · have hd := said_lcdData hw.ready c
      exact (hw.trans hd).trans (said_setOpts hd.ready _ hd.ready.control)

theorem said_lcdPutsLoop : ∀ (str : List Byte) (s : Driver), Ready s → Said s (lcdPutsLoop s str)
  | [], _, h => Said.refl h
  | c :: str, s, h => by
    rw [lcdPutsLoop]
    split
    · exact Said.refl h
    · have hc := said_lcdPutsStep h c
      exact hc.trans (said_lcdPutsLoop str _ hc.ready)

theorem said_foldl_lcdData {α : Type} (f : α → Byte) : ∀ (is : List α) (s : Driver), Ready s →
    Said s (is.foldl (fun s i => lcdData s (f i)) s)
  | [], _, h => Said.refl h
  | i :: is, s, h => by
    have hd := said_lcdData h (f i)
    exact hd.trans (said_foldl_lcdData f is _ hd.ready)

theorem said_lcdCreateChar {s : Driver} (h : Ready s) (location : Byte) (data : Fin 8 → Byte) :
    Said s (lcdCreateChar s location data) := by
  have hc := said_lcdCmd h (LCD_SETCGRAMADDR ||| ((location &&& 0x07) <<< 3)) (isFunctionSet_or_setCgram _)
  exact hc.trans (said_foldl_lcdData data _ _ hc.ready)

theorem control_displayOn : LCD_DISPLAYON.toBitVec.getLsbD 5 = false := by decide

/-- The commands of `LCD_Init` once the interface is 4 bits wide: its function set keeps it so. -/
theorem said_lcdConfigure {s : Driver} (h : Ready s) (hf : s.opts.displayFunction = LCD_2LINE) :
    Said s (lcdConfigure s) := by
  have h1 : Said s (lcdCmd s (LCD_FUNCTIONSET ||| s.opts.displayFunction)) :=
    said_lcdSend h false _ (by rw [hf]; decide)
  have h2 := h1.andThen (f := fun u => lcdDisplayOn { u with opts := { u.opts with displayControl := LCD_DISPLAYON } })
    (fun u hu => (said_setOpts hu { u.opts with displayControl := LCD_DISPLAYON } control_displayOn).andThen
      (f := fun u => lcdControl u (LCD_DISPLAYON ||| LCD_DISPLAYON)) (fun v hv => said_lcdControl hv _ (by decide)))
  have h3 := h2.andThen (f := lcdClear) (fun u hu => said_lcdCmd hu _ (by decide))
  have hlast : ∀ u, Ready u → Said u (lcdCmd { u with opts := { u.opts with
      displayMode := LCD_ENTRYLEFT ||| LCD_ENTRYSHIFTDECREMENT } }
      (LCD_ENTRYMODESET ||| (LCD_ENTRYLEFT ||| LCD_ENTRYSHIFTDECREMENT))) := fun u hu =>
    (said_setOpts hu { u.opts with displayMode := LCD_ENTRYLEFT ||| LCD_ENTRYSHIFTDECREMENT } hu.control).andThen
      (f := fun u => lcdCmd u (LCD_ENTRYMODESET ||| (LCD_ENTRYLEFT ||| LCD_ENTRYSHIFTDECREMENT)))
      (fun v hv => said_lcdCmd hv _ (by decide))
  exact h3.andThen hlast

/-- **Every call but `LCD_Init` only talks.** -/
theorem said_call {s : Driver} (h : Ready s) (c : Call) (hc : c ≠ .init) : Said s (call s c) := by
  cases c with
  | init => exact absurd rfl hc
  | displayOn => exact said_lcdControl h _ (control_or h.control (by decide))
  | displayOff => exact said_lcdControl h _ (control_and _ h.control)
  | clear => exact said_lcdCmd h _ (by decide)
  | puts x y str =>
    have hs := said_lcdCursorSet h x y
    exact hs.trans (said_lcdPutsLoop str _ hs.ready)
  | blinkOn => exact said_lcdControl h _ (control_or h.control (by decide))
  | blinkOff => exact said_lcdControl h _ (control_and _ h.control)
  | cursorOn => exact said_lcdControl h _ (control_or h.control (by decide))
  | cursorOff => exact said_lcdControl h _ (control_and _ h.control)
  | scrollLeft => exact said_lcdCmd h _ (by decide)
  | scrollRight => exact said_lcdCmd h _ (by decide)
  | createChar location data => exact said_lcdCreateChar h location data
  | putCustom x y location =>
    have hs := said_lcdCursorSet h x y
    exact hs.trans (said_lcdData hs.ready location)
  | put data => exact said_lcdData h data

/-! ## LCD_Init -/

def widthStrobes : List Strobe := [⟨false, false, 3#4⟩, ⟨false, false, 3#4⟩, ⟨false, false, 3#4⟩, ⟨false, false, 2#4⟩]

theorem emits_lowerPins : ∀ (pins : List Nat) (s : Driver), Idle s.portValue → LCD_BT_PIN ∉ pins →
    Emits s (pins.foldl (fun s pin => lcdPinWrite s pin false) s) []
  | [], _, h, _ => Emits.refl h
  | pin :: pins, s, h, hb => by
    rw [List.mem_cons, not_or] at hb
    have hone := emits_lcdPinWrite h pin false ⟨Or.inl rfl, Ne.symm hb.1⟩
    exact hone.trans (emits_lowerPins pins _ hone.idle hb.2)

theorem emits_lcdLowerPins {s : Driver} (h : Idle s.portValue) :
    Emits s (lcdLowerPins s) [] ∧ (lcdLowerPins s).portValue.getLsbD LCD_RS_PIN = false := by
  refine ⟨emits_lowerPins _ s h (by decide), ?_⟩
  simp only [lcdLowerPins, List.foldl, lcdPinWrite]
  rw [getLsbD_setPin _ _ _ _ (by decide), if_neg (by decide), getLsbD_setPin _ _ _ _ (by decide), if_pos rfl]

theorem emits_lcdSetWidth {s : Driver} (h : Idle s.portValue) (hrs : s.portValue.getLsbD LCD_RS_PIN = false) :
    Emits s (lcdSetWidth s) widthStrobes ∧ (lcdSetWidth s).handed = s.handed ∧ (lcdSetWidth s).opts = s.opts := by
  obtain ⟨h1, hh1, ho1, hr1⟩ := emits_lcdCmd4bit h 0x03#8
  obtain ⟨h2, hh2, ho2, hr2⟩ := emits_lcdCmd4bit h1.idle 0x03#8
  obtain ⟨h3, hh3, ho3, hr3⟩ := emits_lcdCmd4bit h2.idle 0x03#8
  obtain ⟨h4, hh4, ho4, -⟩ := emits_lcdCmd4bit h3.idle 0x02#8
  rw [hr3, hr2, hr1, hrs] at h4
  rw [hr2, hr1, hrs] at h3
  rw [hr1, hrs] at h2
  rw [hrs] at h1
  refine ⟨((h1.trans h2).trans h3).trans h4, ?_, ?_⟩
  · rw [lcdSetWidth, hh4, hh3, hh2, hh1]
  · rw [lcdSetWidth, ho4, ho3, ho2, ho1]

def lcdWidthAndConfigure (s : Driver) : Driver :=
  lcdConfigure (lcdSetWidth { s with opts := { s.opts with currentX := 0, currentY := 0, displayFunction := LCD_2LINE } })

theorem lcdInit_eq (s : Driver) : lcdInit s = lcdWidthAndConfigure (lcdLowerPins s) := rfl

structure Inits (s t : Driver) (ps : List (Bool × Byte)) : Prop where
  emits : Emits s t (widthStrobes ++ ps.flatMap byteStrobes)
  handed : t.handed = s.handed ++ ps
  narrow : ∀ p ∈ ps, widens (onBus p) = false

theorem inits_widthAndConfigure {s : Driver} (h : Ready s) (hrs : s.portValue.getLsbD LCD_RS_PIN = false) :
    Ready (lcdWidthAndConfigure s) ∧ ∃ ps, Inits s (lcdWidthAndConfigure s) ps := by
  unfold lcdWidthAndConfigure
  generalize ht : ({ s with opts := { s.opts with currentX := 0, currentY := 0, displayFunction := LCD_2LINE } } : Driver)
    = t
  have hp : t.portValue = s.portValue := by rw [← ht]
  obtain ⟨hw, hh, ho⟩ := emits_lcdSetWidth (s := t) (by rw [hp]; exact h.idle) (by rw [hp]; exact hrs)
  have hr : Ready (lcdSetWidth t) := ⟨hw.idle, by rw [ho, ← ht]; exact h.control⟩
  obtain ⟨hready, ps, hps⟩ := said_lcdConfigure hr (by rw [ho, ← ht])
  have hall : Emits s (lcdConfigure (lcdSetWidth t)) (widthStrobes ++ ps.flatMap byteStrobes) :=
    (hw.trans hps.emits).congr (by rw [← ht]) rfl rfl
  exact ⟨hready, ps, hall, by rw [hps.handed, hh, ← ht], hps.narrow⟩

theorem inits_lcdInit {s : Driver} (h : Ready s) : Ready (lcdInit s) ∧ ∃ ps, Inits s (lcdInit s) ps := by
  obtain ⟨hl, hrs⟩ := emits_lcdLowerPins h.idle
  have hr : Ready (lcdLowerPins s) := ⟨hl.idle, h.control⟩
  obtain ⟨hready, ps, hps⟩ := inits_widthAndConfigure hr hrs
  rw [lcdInit_eq]
  exact ⟨hready, ps, hl.trans hps.emits, hps.handed, hps.narrow⟩

/-! ## The interface after the width strobes -/

theorem not_widens_zero : ∀ x : BitVec 4, widens (false, 0#4 ++ x) = false := by decide

theorem not_narrows_zero : ∀ x : BitVec 4, narrows (false, 0#4 ++ x) = false := by decide

theorem widens_three : ∀ x : BitVec 4, widens (false, 3#4 ++ x) = true := by decide

theorem narrows_two : ∀ x : BitVec 4, widens (false, 2#4 ++ x) = false ∧ narrows (false, 2#4 ++ x) = true := by decide

/-- The three function sets an in-phase 4-bit interface reads in the width strobes, `x` and `y` undriven. -/
def widthBytes (x y : BitVec 4) : List (Bool × BitVec 8) := [(false, 0x33#8), (false, 3#4 ++ x), (false, 2#4 ++ y)]

theorem after_three (x : BitVec 4) : Width.after .eight (false, 3#4 ++ x) = .eight := by
  rw [Width.after, widens_three]
  rfl

theorem after_two (x : BitVec 4) : Width.after .eight (false, 2#4 ++ x) = .four none := by
  rw [Width.after, (narrows_two x).1, (narrows_two x).2]
  rfl

theorem after_zero (x : BitVec 4) : Width.after .eight (false, 0#4 ++ x) = .eight := by
  rw [Width.after, not_widens_zero, not_narrows_zero]
  rfl

/-- The byte 0x33 widens a 4-bit interface. -/
theorem after_widening (pending : Option (Bool × BitVec 4)) : Width.after (.four pending) (false, 0x33#8) = .eight := rfl

theorem feed_widthStrobes_eight (env : Floating) (n : Nat) :
    ∃ bytes, (Iface.mk .eight n).feed env widthStrobes = (⟨.four none, n + 4⟩, bytes) := by
  refine ⟨[(false, 3#4 ++ env.low n), (false, 3#4 ++ env.low (n + 1)), (false, 3#4 ++ env.low (n + 2)),
    (false, 2#4 ++ env.low (n + 3))], ?_⟩
  simp [Iface.feed, Iface.take, widthStrobes, after_three, after_two]

theorem feed_widthStrobes_four (env : Floating) (n : Nat) :
    (Iface.mk (.four none) n).feed env widthStrobes =
      (⟨.four none, n + 4⟩, widthBytes (env.low (n + 2)) (env.low (n + 3))) := by
  simp [Iface.feed, Iface.take, widthStrobes, widthBytes, after_widening, after_three, after_two]

/-- The stray strobe of the first `LCD_Init`: E falls from the all-ones port value, the other lines already low. -/
def strayStrobe : Strobe := ⟨false, false, 0#4⟩

theorem after_four (p : Bool × BitVec 8) (pending : Option (Bool × BitVec 4)) :
    Width.after (.four pending) p = .eight ∨ Width.after (.four pending) p = .four none := by
  unfold Width.after
  split
  · exact Or.inl rfl
  · split <;> exact Or.inr rfl

/-- An 8-bit interface reads the stray strobe as an instruction below 0x10, and stays as it is. -/
theorem feed_stray_eight (env : Floating) (n : Nat) :
    ∃ bytes, (Iface.mk .eight n).feed env (strayStrobe :: widthStrobes) = (⟨.four none, n + 5⟩, bytes) := by
  have hstray : (Iface.mk .eight n).feed env [strayStrobe] = (⟨.eight, n + 1⟩, [(false, 0#4 ++ env.low n)]) := by
    simp [Iface.feed, Iface.take, strayStrobe, after_zero]
  obtain ⟨bytes, hwidth⟩ := feed_widthStrobes_eight env (n + 1)
  exact ⟨_, Iface.feed_append hwidth hstray⟩

/-- On an in-phase 4-bit interface the stray strobe shifts the phase by one: after 0x03, a byte 0x33 widens the
interface, and the last nibble narrows it. -/
theorem feed_stray_four (env : Floating) (n : Nat) :
    ∃ bytes, (Iface.mk (.four none) n).feed env (strayStrobe :: widthStrobes) = (⟨.four none, n + 5⟩, bytes) := by
  have h03 : ∀ pending, Width.after (.four pending) (false, 0x03#8) = .four none := fun _ => rfl
  have hstray : (Iface.mk (.four none) n).feed env [strayStrobe, ⟨false, false, 3#4⟩] =
      (⟨.four none, n + 2⟩, [(false, 0x03#8)]) := by
    simp [Iface.feed, Iface.take, strayStrobe, h03]
  have hrest : (Iface.mk (.four none) (n + 2)).feed env
      [⟨false, false, 3#4⟩, ⟨false, false, 3#4⟩, ⟨false, false, 2#4⟩] =
      (⟨.four none, n + 5⟩, [(false, 0x33#8), (false, 2#4 ++ env.low (n + 4))]) := by
    simp [Iface.feed, Iface.take, after_widening, after_two]
  exact ⟨_, Iface.feed_append hrest hstray⟩

/-- The stray strobe completes a waiting byte, which may itself be a function set that widens the interface. -/
theorem feed_stray_pending (env : Floating) (n : Nat) (rs : Bool) (hi : BitVec 4) :
    ∃ bytes, (Iface.mk (.four (some (rs, hi))) n).feed env (strayStrobe :: widthStrobes) =
      (⟨.four none, n + 5⟩, bytes) := by
  obtain ⟨p, hp⟩ : ∃ p, (Iface.mk (.four (some (rs, hi))) n).feed env [strayStrobe] =
      (⟨Width.after (.four (some (rs, hi))) p, n + 1⟩, [p]) := ⟨_, rfl⟩
  rcases after_four p (some (rs, hi)) with hw | hw
  · rw [hw] at hp
    obtain ⟨bytes, hwidth⟩ := feed_widthStrobes_eight env (n + 1)
    exact ⟨_, Iface.feed_append hwidth hp⟩
  · rw [hw] at hp
    exact ⟨_, Iface.feed_append (feed_widthStrobes_four env (n + 1)) hp⟩

/-- **`LCD_Init` finds the phase**: the stray strobe and the width strobes leave a 4-bit interface that waits for a high
nibble, whatever it was before. -/
theorem feed_stray_widthStrobes (env : Floating) (i : Iface) :
    ∃ bytes, i.feed env (strayStrobe :: widthStrobes) = (⟨.four none, i.strobed + 5⟩, bytes) := by
  obtain ⟨width, n⟩ := i
  rcases width with _ | _ | ⟨rs, hi⟩
  · exact feed_stray_eight env n
  · exact feed_stray_four env n
  · exact feed_stray_pending env n rs hi

/-! ## Runs of calls -/

def Call.preamble : Call → List Strobe
  | .init => widthStrobes
  | _ => []

/-- The bytes those strobes are to a 4-bit interface in phase, its undriven nibbles left open. -/
def Call.PreambleBytes : Call → List (Bool × BitVec 8) → Prop
  | .init, bs => ∃ x y, bs = widthBytes x y
  | _, bs => bs = []

/-- The bytes of a run of calls: for each the pairs it hands down, after the function sets of an `LCD_Init`. -/
def Assembles : Driver → List Call → List (Bool × BitVec 8) → Prop
  | _, [], bytes => bytes = []
  | s, c :: cs, bytes => ∃ pre ps rest, c.PreambleBytes pre ∧ (call s c).handed = s.handed ++ ps ∧
      Assembles (call s c) cs rest ∧ bytes = pre ++ ps.map onBus ++ rest

theorem emits_call {s : Driver} (h : Ready s) (c : Call) :
    Ready (call s c) ∧ ∃ ps, Emits s (call s c) (c.preamble ++ ps.flatMap byteStrobes) ∧
      (call s c).handed = s.handed ++ ps ∧ ∀ p ∈ ps, widens (onBus p) = false := by
  by_cases hc : c = .init
  · subst hc
    obtain ⟨hr, ps, hps⟩ := inits_lcdInit h
    exact ⟨hr, ps, hps.emits, hps.handed, hps.narrow⟩
  · obtain ⟨hr, ps, hps⟩ := said_call h c hc
    have hpre : c.preamble = [] := by
      cases c <;> first | rfl | exact absurd rfl hc
    exact ⟨hr, ps, by rw [hpre]; exact hps.emits, hps.handed, hps.narrow⟩

theorem feed_preamble (env : Floating) (n : Nat) (c : Call) :
    ∃ m pre, (Iface.mk (.four none) n).feed env c.preamble = (⟨.four none, m⟩, pre) ∧ c.PreambleBytes pre := by
  cases c with
  | init => exact ⟨_, _, feed_widthStrobes_four env n, _, _, rfl⟩
  | _ => exact ⟨n, [], rfl, rfl⟩

theorem rw_preamble (c : Call) : ∀ t ∈ c.preamble, t.rw = false := by
  cases c <;> simp [Call.preamble, widthStrobes]

theorem rw_byteStrobes (ps : List (Bool × Byte)) : ∀ t ∈ ps.flatMap byteStrobes, t.rw = false := by
  intro t ht
  obtain ⟨p, -, ht⟩ := List.mem_flatMap.1 ht
  simp only [byteStrobes, List.mem_cons, List.not_mem_nil, or_false] at ht
  rcases ht with rfl | rfl <;> rfl

/-- The induction over the calls: the strobes they emit, and what an interface in phase makes of them. -/
theorem emits_calls : ∀ (cs : List Call) (s : Driver), Ready s →
    ∃ ss, Emits s (cs.foldl call s) ss ∧ (∀ t ∈ ss, t.rw = false) ∧
      ∀ env n, ∃ m bytes, (Iface.mk (.four none) n).feed env ss = (⟨.four none, m⟩, bytes) ∧ Assembles s cs bytes
  | [], s, h => ⟨[], Emits.refl h.idle, by simp, fun _ n => ⟨n, [], rfl, rfl⟩⟩
  | c :: cs, s, h => by
    obtain ⟨hr, ps, he, hh, hn⟩ := emits_call h c
    obtain ⟨ss, hes, hrw, hfeed⟩ := emits_calls cs (call s c) hr
    refine ⟨c.preamble ++ ps.flatMap byteStrobes ++ ss, he.trans hes, ?_, fun env n => ?_⟩
    · intro t ht
      rcases List.mem_append.1 ht with ht | ht
      · rcases List.mem_append.1 ht with ht | ht
        · exact rw_preamble c t ht
        · exact rw_byteStrobes ps t ht
      · exact hrw t ht
    · obtain ⟨k, pre, hpre, hp⟩ := feed_preamble env n c
      obtain ⟨m, rest, hrest, ha⟩ := hfeed env (k + 2 * ps.length)
      refine ⟨m, pre ++ ps.map onBus ++ rest, ?_, pre, ps, rest, hp, hh, ha, rfl⟩
      exact Iface.feed_append hrest (Iface.feed_append (Iface.feed_bytes env k ps hn) hpre)

/-- Without a second `LCD_Init`, the bytes are the pairs handed down, and nothing else. -/
theorem handed_of_assembles : ∀ (cs : List Call) (s : Driver) (bytes : List (Bool × BitVec 8)), Call.init ∉ cs →
    Assembles s cs bytes → ∃ ps, (cs.foldl call s).handed = s.handed ++ ps ∧ bytes = ps.map onBus
  | [], s, bytes, _, h => ⟨[], by simp, by simpa [Assembles] using h⟩
  | c :: cs, s, bytes, hc, h => by
    rw [List.mem_cons, not_or] at hc
    obtain ⟨pre, ps, rest, hp, hh, ha, rfl⟩ := h
    obtain ⟨qs, hq, rfl⟩ := handed_of_assembles cs _ rest hc.2 ha
    have hpre : pre = [] := by
      cases c <;> first | exact hp | exact absurd rfl hc.1
    exact ⟨ps ++ qs, by rw [List.foldl_cons, hq, hh, List.append_assoc], by rw [hpre]; simp⟩

theorem lowered_boot : Ready (lcdLowerPins Driver.boot) ∧
    (lcdLowerPins Driver.boot).portValue.getLsbD LCD_RS_PIN = false ∧
    (∀ e, strobes e (lcdLowerPins Driver.boot).wire = [strayStrobe]) ∧
    (∀ e, levelE e (lcdLowerPins Driver.boot).wire = false) ∧
    (∀ p ∈ (lcdLowerPins Driver.boot).wire, p.getLsbD LCD_BT_PIN = true) :=
  ⟨⟨⟨by decide, by decide, by decide⟩, by decide⟩, by decide, by decide, by decide, List.all_eq_true.1 (by decide)⟩

theorem init_boot : Ready (lcdInit Driver.boot) ∧ ∃ ps : List (Bool × Byte), (∀ p ∈ ps, widens (onBus p) = false) ∧
    (∀ e, strobes e (lcdInit Driver.boot).wire = strayStrobe :: widthStrobes ++ ps.flatMap byteStrobes) ∧
    (∀ e, levelE e (lcdInit Driver.boot).wire = false) ∧
    ∀ p ∈ (lcdInit Driver.boot).wire, p.getLsbD LCD_BT_PIN = true := by
  obtain ⟨hr, hrs, hstray, hlevel, hbt⟩ := lowered_boot
  obtain ⟨hready, ps, hps⟩ := inits_widthAndConfigure hr hrs
  obtain ⟨w, hw, hs, hl, hb⟩ := hps.emits.wire
  rw [lcdInit_eq]
  refine ⟨hready, ps, hps.narrow, fun e => ?_, fun e => ?_, ?_⟩
  · rw [hw, strobes_append, hlevel, hs, hstray]; rfl
  · rw [hw, levelE_append, hlevel, hl]
  · intro p hp
    rw [hw] at hp
    rcases List.mem_append.1 hp with hp | hp
    · exact hbt p hp
    · exact hb p hp

/-- The strobes of the calls after the first `LCD_Init`, and what the interface makes of them. -/
theorem feed_after_init (env : Floating) (e : Bool) (i : Iface) (cs : List Call) :
    ∃ ss bytes, strobes e (cs.foldl call (lcdInit Driver.boot)).wire = strobes e (lcdInit Driver.boot).wire ++ ss ∧
      (∀ t ∈ ss, t.rw = false) ∧ (∀ p ∈ (cs.foldl call (lcdInit Driver.boot)).wire, p.getLsbD LCD_BT_PIN = true) ∧
      (i.feed env (strobes e (cs.foldl call (lcdInit Driver.boot)).wire)).2 =
        (i.feed env (strobes e (lcdInit Driver.boot).wire)).2 ++ bytes ∧ Assembles (lcdInit Driver.boot) cs bytes := by
  obtain ⟨hready, ps, hn, hinit, hlevel, hbt⟩ := init_boot
  obtain ⟨ss, hes, hrw, hfeed⟩ := emits_calls cs _ hready
  obtain ⟨w, hw, hs, -, hb⟩ := hes.wire
  obtain ⟨initBytes, hsync⟩ := feed_stray_widthStrobes env i
  have hsync : i.feed env (strobes e (lcdInit Driver.boot).wire) =
      (⟨.four none, i.strobed + 5 + 2 * ps.length⟩, initBytes ++ ps.map onBus) := by
    rw [hinit]
    exact Iface.feed_append (Iface.feed_bytes env _ ps hn) hsync
  have hstrobes : strobes e (cs.foldl call (lcdInit Driver.boot)).wire = strobes e (lcdInit Driver.boot).wire ++ ss := by
    rw [hw, strobes_append, hlevel, hs]
  obtain ⟨m, bytes, hm, ha⟩ := hfeed env (i.strobed + 5 + 2 * ps.length)
  refine ⟨ss, bytes, hstrobes, hrw, fun p hp => ?_, ?_, ha⟩
  · rw [hw] at hp
    rcases List.mem_append.1 hp with hp | hp
    · exact hbt p hp
    · exact hb p hp
  · rw [hstrobes, Iface.feed_append hm hsync, hsync]

theorem rw_init (e : Bool) : ∀ t ∈ strobes e (lcdInit Driver.boot).wire, t.rw = false := by
  obtain ⟨-, ps, -, hinit, -⟩ := init_boot
  intro t ht
  rw [hinit] at ht
  rcases List.mem_append.1 ht with ht | ht
  · simp only [strayStrobe, widthStrobes, List.mem_cons, List.not_mem_nil, or_false] at ht
    rcases ht with rfl | rfl | rfl | rfl | rfl <;> rfl
  · exact rw_byteStrobes ps t ht

/-- **After `LCD_Init`, the controller assembles the bytes handed down**: from every level of E and every state of the
interface before it, and for every sequence of calls after it, with RW low at each strobe and the backlight never off.
A further `LCD_Init` among the calls puts its three function sets ahead of its own pairs. -/
theorem assembled_after_init (env : Floating) (e : Bool) (i : Iface) (cs : List Call) :
    ∃ bytes, (i.feed env (strobes e (cs.foldl call (lcdInit Driver.boot)).wire)).2 =
        (i.feed env (strobes e (lcdInit Driver.boot).wire)).2 ++ bytes ∧
      Assembles (lcdInit Driver.boot) cs bytes ∧
      (Call.init ∉ cs → ∃ ps, (cs.foldl call (lcdInit Driver.boot)).handed = (lcdInit Driver.boot).handed ++ ps ∧
        bytes = ps.map onBus) ∧
      (∀ t ∈ strobes e (cs.foldl call (lcdInit Driver.boot)).wire, t.rw = false) ∧
      ∀ p ∈ (cs.foldl call (lcdInit Driver.boot)).wire, p.getLsbD LCD_BT_PIN = true := by
  obtain ⟨ss, bytes, hstrobes, hrw, hbt, hfeed, ha⟩ := feed_after_init env e i cs
  refine ⟨bytes, hfeed, ha, fun hc => handed_of_assembles cs _ bytes hc ha, fun t ht => ?_, hbt⟩
  rw [hstrobes] at ht
  rcases List.mem_append.1 ht with ht | ht
  · exact rw_init e t ht
  · exact hrw t ht

/-- A second `LCD_Init` is read as more than it hands down: its width nibbles are three function sets. -/
theorem second_init_adds_bytes : ¬ ∀ (env : Floating) (e : Bool) (i : Iface) (cs : List Call),
    ∃ ps, (cs.foldl call (lcdInit Driver.boot)).handed = (lcdInit Driver.boot).handed ++ ps ∧
      (i.feed env (strobes e (cs.foldl call (lcdInit Driver.boot)).wire)).2 =
        (i.feed env (strobes e (lcdInit Driver.boot).wire)).2 ++ ps.map onBus := by
  intro h
  obtain ⟨ps, hhanded, hbytes⟩ := h ⟨fun _ => 0, false⟩ true ⟨.eight, 0⟩ [.init]
  obtain ⟨-, bytes, -, -, -, hfeed, pre, qs, rest, ⟨x, y, hpre⟩, hq, hrest, hall⟩ :=
    feed_after_init ⟨fun _ => 0, false⟩ true ⟨.eight, 0⟩ [.init]
  have hqs : qs = ps := List.append_cancel_left (hq.symm.trans hhanded)
  have hlen := congrArg List.length (List.append_cancel_left (hfeed.symm.trans hbytes))
  rw [hall, hpre, hqs, List.length_append, List.length_append, List.length_map] at hlen
  simp only [widthBytes, List.length_cons] at hlen
  omega

end Lcd
end RtPay
