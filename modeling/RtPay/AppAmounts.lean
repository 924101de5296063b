import RtPay.AppDisplay
/-!
# AppAmounts — the amounts a customer reads

A row that shows an amount is read back by its label, its dollars and its two cents.  The row has 16 columns, the
labels take 7 and 9 of them: a price reads back below a million dollars and a balance below ten thousand, and beyond
the row ends before the cents do.
-/
namespace RtPay

open Bytes CStr Lcd App

/-- The cents a row shows behind a label: dollars, a point, two digits, and blanks. -/
def readCents (label row : List Byte) : Option Nat :=
  if label <+: row then
    let amount := row.drop label.length
    let dollars := amount.takeWhile isdigit
    match amount.dropWhile isdigit with
    | point :: tens :: ones :: rest =>
      if dollars ≠ [] ∧ point = 0x2E ∧ isdigit tens = true ∧ isdigit ones = true ∧ ∀ c ∈ rest, c = 0x20 then
        some (100 * decVal dollars + decVal [tens, ones])
      else none
    | _ => none
  else none

example : readCents (text "Price $") (text "Price $12.05    ") = some 1205 := by decide

variable {power : Screen}

/-! ## The row of an amount -/

theorem pad16_snprintfLine (line : List Byte) : pad16 (snprintfLine line) = pad16 line := by
  unfold pad16 snprintfLine
  rw [List.take_append, List.take_append, List.take_take, Nat.min_self, List.length_take]
  congr 1
  rcases Nat.le_total 16 line.length with h | h
  · rw [Nat.min_eq_left h, Nat.sub_self, Nat.sub_eq_zero_of_le h]
  · rw [Nat.min_eq_right h]

theorem row_creditMessage {s : App} (h : Forward power s.lcd) (balance : UInt32) :
    (screen power (s.creditMessage balance).lcd).row 1 = pad16 (amount (text "Balance $") balance) := by
  have hpr : ∀ c ∈ snprintfLine (amount (text "Balance $") balance), Printable c := fun c hc =>
    printable_amount (printable_of_all (by decide)) _ c (List.mem_of_mem_take hc)
  obtain ⟨h1, hs⟩ := shows_puts_rows h (a := text "  Thank you!!!  ") (b := text "                ") (by decide) (by decide)
    (printable_of_all (by decide)) (printable_of_all (by decide))
  obtain ⟨-, hcell⟩ := cells_puts_row1 h1 (snprintfLine (amount (text "Balance $") balance)) (by simp [snprintfLine]) hpr
  rw [← pad16_snprintfLine]
  refine row_eq _ (length_pad16 _) (fun c hc => ?_)
  have hblank : (screen power ((s.puts 0 0 (text "  Thank you!!!  ")).puts 0 1 (text "                ")).lcd).cell (16 + c) =
      0x20 := by
    have hget := getElem?_row (screen power ((s.puts 0 0 (text "  Thank you!!!  ")).puts 0 1 (text "                ")).lcd) 1 c
    rw [hs.row1, if_pos hc, show text "                " = List.replicate 16 0x20 by decide, List.getElem?_replicate,
      if_pos hc] at hget
    exact (Option.some.inj hget).symm
  rw [creditMessage, hcell _ (by omega), Nat.mul_one, overlay_add, hblank, getElem?_pad16 _ hc]

/-! ## Reading it back -/

theorem readCents_label (label amount : List Byte) : readCents label (label ++ amount) =
    match amount.dropWhile isdigit with
    | point :: tens :: ones :: rest =>
      if amount.takeWhile isdigit ≠ [] ∧ point = 0x2E ∧ isdigit tens = true ∧ isdigit ones = true ∧ ∀ c ∈ rest, c = 0x20 then
        some (100 * decVal (amount.takeWhile isdigit) + decVal [tens, ones])
      else none
    | _ => none := by
  rw [readCents, if_pos (List.prefix_append _ _), List.drop_left]

theorem fmt02d_cents (cents : UInt32) : ∃ tens ones, fmt02d (cents % 100).toNat = [tens, ones] := by
  have hlt : (cents % 100).toNat < 10 ^ (0 + 2) := by
    rw [UInt32.toNat_mod]
    exact Nat.mod_lt _ (by decide)
  have hle := (length_fmt02d_le_iff _ 0).2 hlt
  have hge := two_le_length_fmt02d (cents % 100).toNat
  exact List.length_eq_two.1 (by omega)

theorem pad16_amount_fits {label : List Byte} {cents : UInt32} {tens ones : Byte}
    (hc : fmt02d (cents % 100).toNat = [tens, ones]) (h : label.length + (fmt02d (cents / 100).toNat).length + 3 ≤ 16) :
    ∃ k, pad16 (amount label cents) =
      label ++ (fmt02d (cents / 100).toNat ++ 0x2E :: tens :: ones :: List.replicate k 0x20) := by
  have hlen : (amount label cents).length = label.length + (fmt02d (cents / 100).toNat).length + 3 := by
    rw [amount, hc, show text "." = [0x2E] from rfl]
    simp
    omega
  refine ⟨16 - (amount label cents).length, ?_⟩
  rw [pad16, List.take_append, List.take_of_length_le (by omega), List.take_replicate, Nat.min_eq_left (by omega)]
  rw [amount, hc, show text "." = [0x2E] from rfl]
  simp

/-- **An amount whose cents are inside the row is read back.** -/
theorem readCents_fits {label : List Byte} {cents : UInt32}
    (h : label.length + (fmt02d (cents / 100).toNat).length + 3 ≤ 16) :
    readCents label (pad16 (amount label cents)) = some cents.toNat := by
  obtain ⟨tens, ones, hc⟩ := fmt02d_cents cents
  obtain ⟨k, hpad⟩ := pad16_amount_fits hc h
  have hdollars := isdigit_of_mem_fmt02d (cents / 100).toNat
  have hcents : ∀ c ∈ [tens, ones], isdigit c = true := hc ▸ isdigit_of_mem_fmt02d (cents % 100).toNat
  have hne : fmt02d (cents / 100).toNat ≠ [] := by
    intro hnil
    have := two_le_length_fmt02d (cents / 100).toNat
    rw [hnil] at this
    exact absurd this (by decide)
  have hpoint : ∀ r, (0x2E :: r : List Byte).takeWhile isdigit = [] ∧ (0x2E :: r : List Byte).dropWhile isdigit = 0x2E :: r :=
    fun r => ⟨rfl, rfl⟩
  rw [hpad, readCents_label, List.dropWhile_append_of_pos hdollars, List.takeWhile_append_of_pos hdollars,
    (hpoint _).1, (hpoint _).2, List.append_nil]
  dsimp only
  rw [if_pos ⟨hne, rfl, hcents tens (by simp), hcents ones (by simp), fun c h => List.eq_of_mem_replicate h⟩, ← hc,
    decVal_fmt02d, decVal_fmt02d, UInt32.toNat_div, UInt32.toNat_mod]
  exact congrArg some (Nat.div_add_mod _ _)

/-- **An amount whose cents are cut is read as none.** -/
theorem readCents_cut {label : List Byte} {cents : UInt32} (hl : label.length ≤ 16)
    (h : 16 < label.length + (fmt02d (cents / 100).toNat).length + 3) :
    readCents label (pad16 (amount label cents)) = none := by
  obtain ⟨tens, ones, hc⟩ := fmt02d_cents cents
  generalize hds : fmt02d (cents / 100).toNat = ds at h
  have hdollars : ∀ c ∈ ds, isdigit c = true := hds ▸ isdigit_of_mem_fmt02d (cents / 100).toNat
  have hamount : amount label cents = label ++ (ds ++ [0x2E, tens, ones]) := by
    rw [amount, hc, hds]
    rfl
  have hpad : pad16 (amount label cents) = label ++ (ds ++ [0x2E, tens, ones]).take (16 - label.length) := by
    rw [pad16, hamount, List.take_append_of_le_length (by simp; omega), List.take_append, List.take_of_length_le hl]
  rw [hpad, readCents_label, List.take_append]
  have htake : ∀ c ∈ ds.take (16 - label.length), isdigit c = true := fun c hc => hdollars c (List.mem_of_mem_take hc)
  rw [List.dropWhile_append_of_pos htake]
  -- at most the point and one digit are left behind the dollars
  have hleft : 16 - label.length - ds.length ≤ 2 := by omega
  generalize 16 - label.length - ds.length = left at hleft
  rcases (by omega : left = 0 ∨ left = 1 ∨ left = 2) with rfl | rfl | rfl
  · rfl
  · rfl
  · rfl

theorem readCents_amount_iff {label : List Byte} (hl : label.length + 5 ≤ 16) (cents : UInt32) :
    readCents label (pad16 (amount label cents)) = some cents.toNat ↔ cents.toNat < 10 ^ (15 - label.length) := by
  have hdigits := length_fmt02d_le_iff (cents / 100).toNat (11 - label.length)
  have hpow : 10 ^ (15 - label.length) = 10 ^ (11 - label.length + 2) * 100 := by
    rw [show 15 - label.length = 11 - label.length + 2 + 2 by omega, Nat.pow_add _ _ 2]
  have hdiv : (cents / 100).toNat < 10 ^ (11 - label.length + 2) ↔ cents.toNat < 10 ^ (15 - label.length) := by
    rw [UInt32.toNat_div, hpow]
    exact Nat.div_lt_iff_lt_mul (by decide)
  rw [← hdiv, ← hdigits]
  constructor
  · intro hread
    by_contra hcut
    rw [readCents_cut (by omega) (by omega)] at hread
    cases hread
  · intro hfit
    exact readCents_fits (by omega)

/-- **A price reads back below a million dollars, and a balance below ten thousand**, in every state of the device and
under every configuration. -/
theorem amounts_read_back_iff (power : Screen) (evts : List Event) (cfg : SystemConfig) (balance : UInt32) :
    (readCents (text "Price $") ((screen power { appLoop evts with sysCfg := cfg }.idleMessage.lcd).row 0) =
        some cfg.price.toNat ↔ cfg.price.toNat < 100000000) ∧
      (readCents (text "Balance $") ((screen power ({ appLoop evts with sysCfg := cfg }.creditMessage balance).lcd).row 1) =
        some balance.toNat ↔ balance.toNat < 1000000) := by
  have hf : Forward power ({ appLoop evts with sysCfg := cfg } : App).lcd := (redraws_appLoop power evts).forward
  rw [(shows_idleMessage hf).2.row0, row_creditMessage hf]
  exact ⟨readCents_amount_iff (by decide) cfg.price, readCents_amount_iff (by decide) balance⟩

def blankScreen : Screen := ⟨fun _ => 0x20, 0, false, true⟩

/-- **Two balances a cent apart are shown alike**, without their last digit. -/
theorem balances_shown_alike :
    (screen blankScreen ((appLoop []).creditMessage 1000000).lcd).row 1 = text "Balance $10000.0" ∧
      (screen blankScreen ((appLoop []).creditMessage 1000001).lcd).row 1 = text "Balance $10000.0" ∧
      ¬ ∀ (power : Screen) (balance : UInt32), balance ≠ 0xFFFFFFFF →
        readCents (text "Balance $") ((screen power ((appLoop []).creditMessage balance).lcd).row 1) = some balance.toNat := by
  have hrow : ∀ balance, (screen blankScreen ((appLoop []).creditMessage balance).lcd).row 1 =
      pad16 (amount (text "Balance $") balance) := row_creditMessage (redraws_appLoop blankScreen []).forward
  refine ⟨?_, ?_, fun h => ?_⟩
  · rw [hrow]; decide
  · rw [hrow]; decide
  · have hread := h blankScreen 1000000 (by decide)
    rw [hrow] at hread
    exact absurd hread (by decide)

end RtPay
