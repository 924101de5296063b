import Mathlib.Data.List.Induction
import RtPay.Lcd.Screen
/-!
# Lcd.Track — the tracked cursor and the address counter

`LCD_Opts` and the controller each keep a cursor.  From any start of `LCD_Puts` and through any text the two name the
same cell of the window whenever a character is written, after any calls since `LCD_Init`: a start beyond the last
column is put right by the wrap before the first character, and every line break sets both.
-/
namespace RtPay
namespace Lcd

open Bytes

variable {power : Screen}

/-! ## Characters move the address up after any call -/

theorem forward_lcdSend {d : Driver} (h : Forward power d) {rs : Bool} {b : Byte}
    (hb : rs = true ∨ 0x06 ≤ b.toNat ∨ b.toNat < 0x04) : Forward power (lcdSend d rs b) := by
  unfold Forward at h ⊢
  rw [screen_lcdSend]
  cases rs with
  | true =>
    rw [Screen.exec]
    split <;> exact h
  | false =>
    rw [Screen.exec]
    have hb := hb.resolve_left (by decide)
    split
    · exact h
    · split
      · exact h
      · split
        · exact h
        · split
          · simp only [decide_eq_true_eq]; omega
          · split
            · exact h
            · split
              · rfl
              · exact h

theorem forward_setOpts {d : Driver} (h : Forward power d) (o : LcdOptions) : Forward power { d with opts := o } := h

theorem forward_lcdData {d : Driver} (h : Forward power d) (b : Byte) : Forward power (lcdData d b) :=
  forward_lcdSend h (Or.inl rfl)

theorem forward_lcdCmd_or {d : Driver} (h : Forward power d) {flag : Byte} (hf : 0x06 ≤ flag.toNat) (b : Byte) :
    Forward power (lcdCmd d (flag ||| b)) := by
  refine forward_lcdSend h (Or.inr (Or.inl ?_))
  rw [UInt8.toNat_or]
  exact Nat.le_trans hf Nat.left_le_or

theorem forward_lcdCursorSet {d : Driver} (h : Forward power d) (col row : Byte) : Forward power (lcdCursorSet d col row) :=
  forward_lcdCmd_or (forward_setOpts h _) (by decide) _

theorem forward_lcdPutsStep {d : Driver} (h : Forward power d) (c : Byte) : Forward power (lcdPutsStep d c) := by
  have hw : Forward power (lcdWrap d) := by
    unfold lcdWrap
    split
    · exact forward_lcdCursorSet h _ _
    · exact h
  unfold lcdPutsStep
  dsimp only
  split
  · exact forward_lcdCursorSet hw _ _
  · split
    · exact forward_lcdCursorSet hw _ _
    · exact forward_setOpts (forward_lcdData hw c) _

theorem forward_lcdPutsLoop : ∀ (str : List Byte) {d : Driver}, Forward power d → Forward power (lcdPutsLoop d str)
  | [], _, h => h
  | c :: str, d, h => by
    rw [lcdPutsLoop]
    split
    · exact h
    · exact forward_lcdPutsLoop str (forward_lcdPutsStep h c)

theorem forward_lcdControl {d : Driver} (h : Forward power d) (control : Byte) : Forward power (lcdControl d control) :=
  forward_lcdCmd_or (forward_setOpts h _) (by decide) _

theorem forward_call {d : Driver} (h : Forward power d) (c : Call) : Forward power (call d c) := by
  cases c with
  | init => exact forward_lcdInit d
  | displayOn => exact forward_lcdControl h _
  | displayOff => exact forward_lcdControl h _
  | clear => exact forward_lcdSend h (Or.inr (Or.inr (by decide)))
  | puts x y str => exact forward_lcdPutsLoop str (forward_lcdCursorSet h x y)
  | blinkOn => exact forward_lcdControl h _
  | blinkOff => exact forward_lcdControl h _
  | cursorOn => exact forward_lcdControl h _
  | cursorOff => exact forward_lcdControl h _
  | scrollLeft => exact forward_lcdSend h (Or.inr (Or.inl (by decide)))
  | scrollRight => exact forward_lcdSend h (Or.inr (Or.inl (by decide)))
  | createChar location data =>
    have hdata : ∀ (is : List (Fin 8)) (e : Driver), Forward power e →
        Forward power (is.foldl (fun s i => lcdData s (data i)) e) := by
      intro is
      induction is with
      | nil => exact fun e he => he
      | cons i is ih => exact fun e he => ih _ (forward_lcdData he _)
    exact hdata _ _ (forward_lcdCmd_or h (by decide) _)
  | putCustom x y location => exact forward_lcdData (forward_lcdCursorSet h x y) _
  | put data => exact forward_lcdData h data

theorem forward_calls (s : Driver) (cs : List Call) : Forward power (cs.foldl call (lcdInit s)) := by
  induction cs using List.reverseRecOn with
  | nil => exact forward_lcdInit s
  | append_singleton cs c ih =>
    rw [List.foldl_append]
    exact forward_call ih c

/-! ## The two cursors -/

/-- The cell the tracked cursor names: the row's offset and the column. -/
def Driver.cell (d : Driver) : Nat := (rowOffset d.opts.currentY).toNat + d.opts.currentX.toNat

/-- The tracked cursor and the address counter name the same cell, unless the column is beyond the window. -/
structure Tracks (power : Screen) (d : Driver) : Prop where
  forward : Forward power d
  ddram : (screen power d).inCgram = false
  row : d.opts.currentY.toNat < 2
  address : d.opts.currentX.toNat < 16 → (screen power d).address = d.cell

theorem toNat_rowOffset {y : Byte} (hy : y.toNat < 2) : (rowOffset y).toNat = 0x40 * y.toNat := by
  have hy' : y = 0 ∨ y = 1 := by
    rcases Nat.lt_or_eq_of_le (Nat.le_of_lt_succ hy) with h | h
    · exact Or.inl (UInt8.toNat_inj.1 (by simpa using h))
    · exact Or.inr (UInt8.toNat_inj.1 h)
  rcases hy' with rfl | rfl <;> rfl

/-- **Setting the cursor sets both**, and no cell. -/
theorem tracks_lcdCursorSet {d : Driver} (h : Forward power d) (col row : Byte) :
    Tracks power (lcdCursorSet d col row) ∧ (screen power (lcdCursorSet d col row)).ddram = (screen power d).ddram := by
  have hscreen : screen power (lcdCursorSet d col row) =
      (screen power d).exec (false, LCD_SETDDRAMADDR ||| (col + rowOffset (clampRow row))) := by
    unfold lcdCursorSet lcdCmd
    rw [screen_lcdSend, screen_setOpts]
    rfl
  have hset : 0x80 ≤ (LCD_SETDDRAMADDR ||| (col + rowOffset (clampRow row))).toNat := by
    rw [UInt8.toNat_or]
    exact Nat.left_le_or
  refine ⟨⟨forward_lcdCursorSet h col row, ?_, clampRow_lt row, fun hcol => ?_⟩, ?_⟩
  · rw [hscreen, Screen.exec, if_pos hset]
  · have hcol : col.toNat < 16 := hcol
    rw [hscreen, exec_setDdram _ (toNat_setDdram col (Nat.le_of_lt hcol) (clampRow row) (clampRow_lt row))]
    show _ = (rowOffset (clampRow row)).toNat + col.toNat
    rw [toNat_rowOffset (clampRow_lt row)]
  · rw [hscreen, Screen.exec, if_pos hset]

/-- Behind the wrap the column is inside the window. -/
theorem tracks_lcdWrap {d : Driver} (h : Tracks power d) :
    Tracks power (lcdWrap d) ∧ (lcdWrap d).opts.currentX.toNat < 16 ∧
      (screen power (lcdWrap d)).ddram = (screen power d).ddram := by
  unfold lcdWrap
  split
  · obtain ⟨ht, hd⟩ := tracks_lcdCursorSet h.forward 0 (d.opts.currentY + 1)
    exact ⟨ht, (by decide : (0 : Byte).toNat < 16), hd⟩
  · rename_i hx
    have hx := UInt8.lt_iff_toNat_lt.1 (UInt8.not_le.1 hx)
    exact ⟨h, by simpa [LCD_COLS] using hx, rfl⟩

/-- **A character goes to the cell the tracked cursor names**, and both cursors to the next. -/
theorem tracks_lcdPutsStep {d : Driver} (h : Tracks power d) {c : Byte} (hc : Printable c) :
    Tracks power (lcdPutsStep d c) ∧
      (screen power (lcdPutsStep d c)).ddram = Function.update (screen power d).ddram (lcdWrap d).cell c := by
  obtain ⟨hw, hx, hd⟩ := tracks_lcdWrap h
  simp only [lcdPutsStep, if_neg hc.2.1, if_neg hc.2.2]
  generalize lcdWrap d = w at hw hx hd
  have hrow := hw.row
  have haddr : (screen power w).address = 0x40 * w.opts.currentY.toNat + w.opts.currentX.toNat := by
    rw [hw.address hx, Driver.cell, toNat_rowOffset hrow]
  have hforward : (screen power w).increment = true := hw.forward
  have hs : screen power (lcdData w c) = { screen power w with
      ddram := Function.update (screen power w).ddram (screen power w).address c, address := (screen power w).address + 1 } := by
    rw [lcdData, screen_lcdSend, Screen.exec]
    simp only [hw.ddram, Bool.false_eq_true, if_false, Screen.advance, hforward, if_true]
    rw [if_neg (by omega), if_neg (by omega)]
  have hx1 : (w.opts.currentX + 1).toNat = w.opts.currentX.toNat + 1 := toNat_succ (by omega)
  refine ⟨⟨?_, ?_, hrow, fun _ => ?_⟩, ?_⟩
  · exact forward_setOpts (forward_lcdData hw.forward c) _
  · rw [screen_setOpts, hs]
    exact hw.ddram
  · rw [screen_setOpts, hs]
    show (screen power w).address + 1 = (rowOffset w.opts.currentY).toNat + (w.opts.currentX + 1).toNat
    rw [toNat_rowOffset hrow, hx1, haddr]
    omega
  · rw [screen_setOpts, hs, ← hd, ← hw.address hx]

/-- A line break moves both cursors and writes no cell. -/
theorem tracks_lcdPutsStep_break {d : Driver} (h : Tracks power d) {c : Byte} (h0 : c ≠ 0) (hc : ¬ Printable c) :
    Tracks power (lcdPutsStep d c) ∧ (screen power (lcdPutsStep d c)).ddram = (screen power d).ddram := by
  obtain ⟨hw, -, hd⟩ := tracks_lcdWrap h
  unfold lcdPutsStep
  dsimp only
  split
  · obtain ⟨ht, hset⟩ := tracks_lcdCursorSet hw.forward (lcdWrap d).opts.currentX ((lcdWrap d).opts.currentY + 1)
    exact ⟨ht, hset.trans hd⟩
  · split
    · obtain ⟨ht, hset⟩ := tracks_lcdCursorSet hw.forward 0 (lcdWrap d).opts.currentY
      exact ⟨ht, hset.trans hd⟩
    · rename_i hn hr
      exact absurd ⟨h0, hn, hr⟩ hc

/-! ## Texts -/

theorem lcdPutsLoop_append : ∀ (pre : List Byte) (d : Driver) (r : List Byte), (∀ c ∈ pre, c ≠ 0) →
    lcdPutsLoop d (pre ++ r) = lcdPutsLoop (lcdPutsLoop d pre) r
  | [], _, _, _ => rfl
  | c :: pre, d, r, h => by
    have hc := h c List.mem_cons_self
    rw [List.cons_append, lcdPutsLoop, lcdPutsLoop, if_neg hc, if_neg hc]
    exact lcdPutsLoop_append pre _ r (fun e he => h e (List.mem_cons_of_mem _ he))

theorem tracks_lcdPutsLoop : ∀ (str : List Byte) {d : Driver}, Tracks power d → Tracks power (lcdPutsLoop d str)
  | [], _, h => h
  | c :: str, d, h => by
    rw [lcdPutsLoop]
    split
    · exact h
    · rename_i h0
      by_cases hc : Printable c
      · exact tracks_lcdPutsLoop str (tracks_lcdPutsStep h hc).1
      · exact tracks_lcdPutsLoop str (tracks_lcdPutsStep_break h h0 hc).1

/-- A cell that no character of the text names keeps its contents. -/
theorem ddram_lcdPutsLoop (a : Nat) : ∀ (str : List Byte) {d : Driver}, Tracks power d →
    (∀ pre c post, str = pre ++ c :: post → (∀ e ∈ pre, e ≠ 0) → Printable c → a ≠ (lcdWrap (lcdPutsLoop d pre)).cell) →
    (screen power (lcdPutsLoop d str)).ddram a = (screen power d).ddram a
  | [], _, _, _ => rfl
  | c :: str, d, h, ha => by
    rw [lcdPutsLoop]
    split
    · rfl
    · rename_i h0
      have hrest : ∀ pre e post, str = pre ++ e :: post → (∀ e ∈ pre, e ≠ 0) → Printable e →
          a ≠ (lcdWrap (lcdPutsLoop (lcdPutsStep d c) pre)).cell := by
        intro pre e post hstr hpre he
        have := ha (c :: pre) e post (by rw [hstr]; rfl)
          (fun b hb => (List.mem_cons.1 hb).elim (fun hbc => hbc ▸ h0) (hpre b)) he
        rwa [lcdPutsLoop, if_neg h0] at this
      by_cases hc : Printable c
      · obtain ⟨ht, hd⟩ := tracks_lcdPutsStep h hc
        rw [ddram_lcdPutsLoop a str ht hrest, hd]
        exact Function.update_of_ne (ha [] c str rfl (fun _ hm => absurd hm List.not_mem_nil) hc) _ _
      · obtain ⟨ht, hd⟩ := tracks_lcdPutsStep_break h h0 hc
        rw [ddram_lcdPutsLoop a str ht hrest, hd]

/-- **`LCD_Puts` keeps the two cursors in step**: behind every part of the text they name the same cell or the column is
beyond the window; each character is written to the cell of the window that both name; and no other cell changes. -/
theorem puts_tracked (power : Screen) (s : Driver) (cs : List Call) (x y : Byte) (str : List Byte) :
    (∀ pre post, str = pre ++ post →
      Tracks power (lcdPutsLoop (lcdCursorSet (cs.foldl call (lcdInit s)) x y) pre)) ∧
    (∀ pre c post, str = pre ++ c :: post → (∀ e ∈ pre, e ≠ 0) → Printable c →
      let before := lcdPutsLoop (lcdCursorSet (cs.foldl call (lcdInit s)) x y) pre
      (lcdWrap before).opts.currentX.toNat < 16 ∧ (lcdWrap before).opts.currentY.toNat < 2 ∧
      (screen power (lcdWrap before)).inCgram = false ∧ (screen power (lcdWrap before)).address = (lcdWrap before).cell ∧
      lcdPutsLoop (lcdCursorSet (cs.foldl call (lcdInit s)) x y) (pre ++ [c]) = lcdPutsStep before c ∧
      (screen power (lcdPutsStep before c)).ddram = Function.update (screen power before).ddram (lcdWrap before).cell c) ∧
    (∀ a, (∀ pre c post, str = pre ++ c :: post → (∀ e ∈ pre, e ≠ 0) → Printable c →
        a ≠ (lcdWrap (lcdPutsLoop (lcdCursorSet (cs.foldl call (lcdInit s)) x y) pre)).cell) →
      (screen power (lcdPuts (cs.foldl call (lcdInit s)) x y str)).ddram a =
        (screen power (cs.foldl call (lcdInit s))).ddram a) := by
  obtain ⟨hset, hd⟩ := tracks_lcdCursorSet (@forward_calls power s cs) x y
  refine ⟨fun pre post _ => tracks_lcdPutsLoop pre hset, fun pre c post _ hpre hc => ?_, fun a ha => ?_⟩
  · have ht := tracks_lcdPutsLoop pre hset
    obtain ⟨hw, hx, -⟩ := tracks_lcdWrap ht
    refine ⟨hx, hw.row, hw.ddram, hw.address hx, ?_, (tracks_lcdPutsStep ht hc).2⟩
    rw [lcdPutsLoop_append pre _ [c] hpre, lcdPutsLoop, if_neg hc.1, lcdPutsLoop]
  · rw [lcdPuts, ddram_lcdPutsLoop a str hset ha, hd]

/-- A start far beyond the window, behind a call that moved only the address counter. -/
theorem puts_tracked_beyond :
    (screen ⟨fun _ => 0x3F, 5, true, false⟩ (lcdPuts ([Call.put 0x42].foldl call (lcdInit Driver.boot)) 200 9 [0x41])).ddram =
      Function.update (screen ⟨fun _ => 0x3F, 5, true, false⟩
        (lcdCursorSet ([Call.put 0x42].foldl call (lcdInit Driver.boot)) 200 9)).ddram 0x40 0x41 :=
  ((puts_tracked ⟨fun _ => 0x3F, 5, true, false⟩ Driver.boot [.put 0x42] 200 9 [0x41]).2.1 [] 0x41 [] rfl
    (fun _ h => absurd h List.not_mem_nil) ⟨by decide, by decide, by decide⟩).2.2.2.2.2

end Lcd
end RtPay
