import Mathlib.Logic.Function.Basic
import RtPay.Lcd.Driver
/-!
# Lcd.Screen — the cells the handed bytes leave

The display memory of the controller, as the bytes handed to `LCD_Cmd` and `LCD_Data` change it.  Of the instructions,
those that move the visible window are left out: neither `LCD_Init` nor `LCD_Puts` sends one.  A cell of the 16x2 grid
is numbered row by row, and `cells_lcdPuts` says which of them a text overwrites, the wrap at the end of a row included.
-/
namespace RtPay
namespace Lcd

open Bytes

structure Screen where
  ddram : Nat → Byte
  address : Nat
  inCgram : Bool
  increment : Bool

/-- The address after a transfer: the two lines of the display memory follow each other. -/
def Screen.advance (s : Screen) : Nat :=
  if s.increment then
    if s.address = 0x27 then 0x40 else if s.address = 0x67 then 0 else s.address + 1
  else
    if s.address = 0 then 0x67 else if s.address = 0x40 then 0x27 else s.address - 1

def Screen.exec (s : Screen) : Bool × Byte → Screen
  | (true, b) =>
    if s.inCgram then { s with address := s.advance }
    else { s with ddram := Function.update s.ddram s.address b, address := s.advance }
  | (false, b) =>
    if 0x80 ≤ b.toNat then { s with address := b.toNat - 0x80, inCgram := false }
    else if 0x40 ≤ b.toNat then { s with address := b.toNat - 0x40, inCgram := true }
    else if 0x08 ≤ b.toNat then s
    else if 0x04 ≤ b.toNat then { s with increment := 0x06 ≤ b.toNat }
    else if 0x02 ≤ b.toNat then { s with address := 0, inCgram := false }
    else if b.toNat = 0x01 then { ddram := fun _ => 0x20, address := 0, inCgram := false, increment := true }
    else s

def screen (power : Screen) (d : Driver) : Screen := d.handed.foldl Screen.exec power

/-- Cell `q` of the grid: row `q / 16`, column `q % 16`. -/
def Screen.cell (s : Screen) (q : Nat) : Byte := s.ddram (0x40 * (q / 16) + q % 16)

def Screen.row (s : Screen) (r : Nat) : List Byte := (List.range 16).map (fun c => s.cell (16 * r + c))

def overlay (g : Nat → Byte) (p : Nat) (str : List Byte) (q : Nat) : Byte :=
  if p ≤ q then (str[q - p]?).getD (g q) else g q

variable {power : Screen}

theorem screen_lcdSend (d : Driver) (rs : Bool) (b : Byte) :
    screen power (lcdSend d rs b) = (screen power d).exec (rs, b) := by
  show (d.handed ++ [(rs, b)]).foldl Screen.exec power = _
  rw [List.foldl_append]; rfl

theorem opts_lcdSend (d : Driver) (rs : Bool) (b : Byte) : (lcdSend d rs b).opts = d.opts := rfl

theorem screen_setOpts (d : Driver) (o : LcdOptions) : screen power { d with opts := o } = screen power d := rfl

/-! ## The cursor -/

/-- The next character goes to cell `p`, `p = 32` once the last cell is written. -/
structure Cursor (power : Screen) (d : Driver) (p : Nat) : Prop where
  ddram : (screen power d).inCgram = false
  increment : (screen power d).increment = true
  col : d.opts.currentX.toNat ≤ 16
  row : d.opts.currentY.toNat < 2
  place : 16 * d.opts.currentY.toNat + d.opts.currentX.toNat = p
  address : (screen power d).address = 0x40 * d.opts.currentY.toNat + d.opts.currentX.toNat

/-- What `LCD_Init` leaves and `LCD_Puts` keeps: characters move the address up. -/
def Forward (power : Screen) (d : Driver) : Prop := (screen power d).increment = true

theorem toNat_setDdram_row0 : ∀ x : Fin 17, (LCD_SETDDRAMADDR ||| (UInt8.ofNat x + 0x00)).toNat = 0x80 + x := by
  decide

theorem toNat_setDdram_row1 : ∀ x : Fin 17, (LCD_SETDDRAMADDR ||| (UInt8.ofNat x + 0x40)).toNat = 0x80 + (0x40 + x) := by
  decide

theorem toNat_setDdram (x : Byte) (hx : x.toNat ≤ 16) (y : Byte) (hy : y.toNat < 2) :
    (LCD_SETDDRAMADDR ||| (x + rowOffset y)).toNat = 0x80 + (0x40 * y.toNat + x.toNat) := by
  have h0 := toNat_setDdram_row0 ⟨x.toNat, by omega⟩
  have h1 := toNat_setDdram_row1 ⟨x.toNat, by omega⟩
  simp only [UInt8.ofNat_toNat] at h0 h1
  unfold rowOffset
  have hy' : y.toNat = 0 ∨ y.toNat = 1 := by omega
  rcases hy' with hy | hy
  · rw [if_pos (UInt8.toNat_inj.1 hy), h0, hy]; omega
  · rw [if_neg (fun h => by rw [h] at hy; cases hy), h1, hy]

def clampRow (row : Byte) : Byte := if LCD_ROWS ≤ row then 0 else row

theorem clampRow_lt (row : Byte) : (clampRow row).toNat < 2 := by
  unfold clampRow
  split
  · decide
  · rename_i h
    have := UInt8.lt_iff_toNat_lt.1 (UInt8.not_le.1 h)
    simpa [LCD_ROWS] using this

theorem clampRow_of_lt {row : Byte} (h : row.toNat < 2) : clampRow row = row := by
  unfold clampRow
  rw [if_neg]
  intro hle
  have := UInt8.le_iff_toNat_le.1 hle
  simp [LCD_ROWS] at this
  omega

theorem exec_setDdram (s : Screen) {b : Byte} {a : Nat} (h : b.toNat = 0x80 + a) :
    s.exec (false, b) = { s with address := a, inCgram := false } := by
  rw [Screen.exec, if_pos (by omega), h, Nat.add_sub_cancel_left]

theorem cursor_lcdCursorSet {d : Driver} (h : Forward power d) (col row : Byte) (hc : col.toNat ≤ 16) :
    Cursor power (lcdCursorSet d col row) (16 * (clampRow row).toNat + col.toNat) ∧
      (screen power (lcdCursorSet d col row)).ddram = (screen power d).ddram := by
  have hn := toNat_setDdram col hc (clampRow row) (clampRow_lt row)
  have hs : screen power (lcdCursorSet d col row) =
      { screen power d with address := 0x40 * (clampRow row).toNat + col.toNat, inCgram := false } := by
    unfold lcdCursorSet lcdCmd
    rw [screen_lcdSend, screen_setOpts]
    exact exec_setDdram _ hn
  refine ⟨⟨by rw [hs], by rw [hs]; exact h, hc, clampRow_lt row, rfl, by rw [hs]; rfl⟩, by rw [hs]⟩

/-! ## LCD_Puts -/

/-- A character that is written, and is no line break or end of text. -/
def Printable (c : Byte) : Prop := c ≠ 0x00 ∧ c ≠ 0x0A ∧ c ≠ 0x0D

theorem toNat_succ {x : Byte} (h : x.toNat ≤ 16) : (x + 1).toNat = x.toNat + 1 := by
  rw [UInt8.toNat_add]
  show (x.toNat + 1) % 256 = _
  omega

/-- The wrap leaves the cursor on the same cell, inside a row. -/
theorem cursor_lcdWrap {d : Driver} {p : Nat} (h : Cursor power d p) (hp : p < 32) :
    Cursor power (lcdWrap d) p ∧ (lcdWrap d).opts.currentX.toNat < 16 ∧
      (screen power (lcdWrap d)).ddram = (screen power d).ddram := by
  have hcol := h.col
  have hplace := h.place
  unfold lcdWrap
  split
  · rename_i hx
    have hx := UInt8.le_iff_toNat_le.1 hx
    simp only [LCD_COLS, UInt8.reduceToNat] at hx
    have hy : d.opts.currentY.toNat = 0 := by omega
    obtain ⟨hc, hd⟩ := cursor_lcdCursorSet h.increment 0 (d.opts.currentY + 1) (by simp)
    have hy1 : (d.opts.currentY + 1).toNat = 1 := by rw [toNat_succ (by omega), hy]
    rw [clampRow_of_lt (by omega), hy1] at hc
    have hp' : 16 * 1 + UInt8.toNat 0 = p := by simp; omega
    rw [hp'] at hc
    exact ⟨hc, by simp [lcdCursorSet, lcdCmd, opts_lcdSend], hd⟩
  · rename_i hx
    have hx := UInt8.lt_iff_toNat_lt.1 (UInt8.not_le.1 hx)
    exact ⟨h, by simpa [LCD_COLS] using hx, rfl⟩

/-- **A printable character takes the cell of the cursor**, and no other. -/
theorem cursor_lcdPutsStep {d : Driver} {p : Nat} (h : Cursor power d p) (hp : p < 32) {c : Byte}
    (hc : Printable c) :
    Cursor power (lcdPutsStep d c) (p + 1) ∧
      ∀ q, q < 32 → (screen power (lcdPutsStep d c)).cell q = if q = p then c else (screen power d).cell q := by
  obtain ⟨hw, hx, hd⟩ := cursor_lcdWrap h hp
  simp only [lcdPutsStep, if_neg hc.2.1, if_neg hc.2.2]
  generalize lcdWrap d = w at hw hx hd
  have hcol := hw.col
  have hrow := hw.row
  have hplace := hw.place
  have haddr := hw.address
  have hs : screen power (lcdData w c) = { screen power w with
      ddram := Function.update (screen power w).ddram (screen power w).address c, address := (screen power w).address + 1 } := by
    rw [lcdData, screen_lcdSend, Screen.exec]
    simp only [hw.ddram, Bool.false_eq_true, if_false, Screen.advance, hw.increment, if_true]
    rw [if_neg (by omega), if_neg (by omega)]
  have hx1 : (w.opts.currentX + 1).toNat = w.opts.currentX.toNat + 1 := toNat_succ (by omega)
  refine ⟨⟨?_, ?_, ?_, hrow, ?_, ?_⟩, fun q hq => ?_⟩
  · rw [screen_setOpts, hs]; exact hw.ddram
  · rw [screen_setOpts, hs]; exact hw.increment
  · show (w.opts.currentX + 1).toNat ≤ 16
    omega
  · show 16 * w.opts.currentY.toNat + (w.opts.currentX + 1).toNat = p + 1
    omega
  · rw [screen_setOpts, hs]
    show (screen power w).address + 1 = 0x40 * w.opts.currentY.toNat + (w.opts.currentX + 1).toNat
    omega
  · rw [screen_setOpts, hs, Screen.cell, Screen.cell, ← hd]
    show Function.update (screen power w).ddram (screen power w).address c (0x40 * (q / 16) + q % 16) = _
    rw [haddr]
    by_cases hqp : q = p
    · rw [if_pos hqp, show 0x40 * (q / 16) + q % 16 = 0x40 * w.opts.currentY.toNat + w.opts.currentX.toNat by omega,
        Function.update_self]
    · rw [if_neg hqp, Function.update_of_ne (by omega)]

theorem overlay_cons (g : Nat → Byte) (p : Nat) (c : Byte) (str : List Byte) (q : Nat) :
    overlay g p (c :: str) q = overlay (fun r => if r = p then c else g r) (p + 1) str q := by
  unfold overlay
  by_cases h1 : p + 1 ≤ q
  · have hq : q ≠ p := by omega
    rw [if_pos (by omega), if_pos h1, show q - p = (q - (p + 1)) + 1 by omega, List.getElem?_cons_succ]
    simp only [if_neg hq]
  · by_cases h2 : q = p
    · subst h2; simp
    · simp only [if_neg h1, if_neg h2, if_neg (show ¬ p ≤ q by omega)]

theorem cells_lcdPutsLoop : ∀ (str : List Byte) (d : Driver) (p : Nat), Cursor power d p → p + str.length ≤ 32 →
    (∀ c ∈ str, Printable c) → Cursor power (lcdPutsLoop d str) (p + str.length) ∧
      ∀ q, q < 32 → (screen power (lcdPutsLoop d str)).cell q = overlay (screen power d).cell p str q
  | [], d, p, h, _, _ => ⟨h, fun q _ => by simp [lcdPutsLoop, overlay]⟩
  | c :: str, d, p, h, hl, hc => by
    have hl' : p + (str.length + 1) ≤ 32 := hl
    have hpr := hc c List.mem_cons_self
    obtain ⟨h1, hcell⟩ := cursor_lcdPutsStep h (by omega) hpr
    obtain ⟨h2, hrest⟩ := cells_lcdPutsLoop str _ (p + 1) h1 (by omega) (fun e he => hc e (List.mem_cons_of_mem _ he))
    rw [lcdPutsLoop, if_neg hpr.1]
    refine ⟨by rw [List.length_cons, show p + (str.length + 1) = p + 1 + str.length by omega]; exact h2, fun q hq => ?_⟩
    rw [hrest q hq, overlay_cons]
    unfold overlay
    simp only [hcell q hq]

/-- **`LCD_Puts` overwrites the cells from its place on**, in reading order, and leaves the others. -/
theorem cells_lcdPuts {d : Driver} (h : Forward power d) (x y : Byte) (str : List Byte) (hx : x.toNat ≤ 16)
    (hl : 16 * (clampRow y).toNat + x.toNat + str.length ≤ 32) (hc : ∀ c ∈ str, Printable c) :
    Forward power (lcdPuts d x y str) ∧ ∀ q, q < 32 → (screen power (lcdPuts d x y str)).cell q =
      overlay (screen power d).cell (16 * (clampRow y).toNat + x.toNat) str q := by
  obtain ⟨hset, hd⟩ := cursor_lcdCursorSet h x y hx
  obtain ⟨hcur, hcell⟩ := cells_lcdPutsLoop str _ _ hset hl hc
  refine ⟨hcur.increment, fun q hq => ?_⟩
  rw [lcdPuts, hcell q hq]
  have hsame : (screen power (lcdCursorSet d x y)).cell = (screen power d).cell := by
    funext r; rw [Screen.cell, Screen.cell, hd]
  rw [hsame]

theorem forward_lcdInit (d : Driver) : Forward power (lcdInit d) := by
  show ((lcdInit d).handed.foldl Screen.exec power).increment = true
  have h : ∃ ps, (lcdInit d).handed = ps ++ [(false, LCD_ENTRYMODESET ||| (LCD_ENTRYLEFT ||| LCD_ENTRYSHIFTDECREMENT))] :=
    ⟨_, rfl⟩
  obtain ⟨ps, hps⟩ := h
  rw [hps, List.foldl_append]
  show (Screen.exec _ (false, 0x06)).increment = true
  simp [Screen.exec]

end Lcd
end RtPay
