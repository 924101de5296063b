import RtPay.Lcd.Driver
/-!
# Lcd.Bus — what an HD44780 makes of the port writes

The controller samples RS, RW and D7..D4 at each falling edge of E (`strobes`).  On an 8-bit interface a strobe is a
byte whose low half nobody drives; on a 4-bit one two strobes are a byte, high nibble first (`Iface.take`).  The width
follows the DL bit of every function set.  What the datasheet leaves open is an argument: the undriven half bytes, and
the RS of a byte whose two strobes disagree on it.
-/
namespace RtPay
namespace Lcd

open Bytes

/-! ## Strobes -/

structure Strobe where
  rs : Bool
  rw : Bool
  nibble : BitVec 4
  deriving DecidableEq

def strobeOf (port : BitVec 8) : Strobe :=
  ⟨port.getLsbD LCD_RS_PIN, port.getLsbD LCD_RW_PIN, port.extractLsb' 4 4⟩

/-- The strobes in a sequence of port writes, E at level `e` before the first. -/
def strobes : Bool → List (BitVec 8) → List Strobe
  | _, [] => []
  | e, p :: ps =>
    (if e && !p.getLsbD LCD_E_PIN then [strobeOf p] else []) ++ strobes (p.getLsbD LCD_E_PIN) ps

def levelE : Bool → List (BitVec 8) → Bool
  | e, [] => e
  | _, p :: ps => levelE (p.getLsbD LCD_E_PIN) ps

theorem strobes_append (e : Bool) (ps qs : List (BitVec 8)) :
    strobes e (ps ++ qs) = strobes e ps ++ strobes (levelE e ps) qs := by
  induction ps generalizing e with
  | nil => rfl
  | cons p ps ih => simp [strobes, levelE, ih]

theorem levelE_append (e : Bool) (ps qs : List (BitVec 8)) : levelE e (ps ++ qs) = levelE (levelE e ps) qs := by
  induction ps generalizing e with
  | nil => rfl
  | cons p ps ih => simp [levelE, ih]

/-! ## The interface -/

/-- The interface width, and on a 4-bit interface the high nibble that waits for its low one. -/
inductive Width
  | eight
  | four (pending : Option (Bool × BitVec 4))
  deriving DecidableEq

/-- What the controller receives that the device does not drive. -/
structure Floating where
  low : Nat → BitVec 4
  mixedRs : Bool

structure Iface where
  width : Width
  strobed : Nat
  deriving DecidableEq

/-- A function set: an instruction byte `001xxxxx`. -/
def isFunctionSet (b : BitVec 8) : Bool := !b.getLsbD 7 && !b.getLsbD 6 && b.getLsbD 5

/-- A function set with DL high, which widens the interface. -/
def widens (p : Bool × BitVec 8) : Bool := !p.1 && isFunctionSet p.2 && p.2.getLsbD 4

def narrows (p : Bool × BitVec 8) : Bool := !p.1 && isFunctionSet p.2 && !p.2.getLsbD 4

def Width.after (w : Width) (p : Bool × BitVec 8) : Width :=
  if widens p then .eight
  else if narrows p then .four none
  else match w with
    | .eight => .eight
    | .four _ => .four none

/-- One strobe: the interface after it and the byte it completes, if it does. -/
def Iface.take (env : Floating) (i : Iface) (s : Strobe) : Iface × List (Bool × BitVec 8) :=
  match i.width with
  | .eight =>
    let p := (s.rs, s.nibble ++ env.low i.strobed)
    (⟨i.width.after p, i.strobed + 1⟩, [p])
  | .four none => (⟨.four (some (s.rs, s.nibble)), i.strobed + 1⟩, [])
  | .four (some (rs, hi)) =>
    let p := (if rs = s.rs then rs else env.mixedRs, hi ++ s.nibble)
    (⟨i.width.after p, i.strobed + 1⟩, [p])

def Iface.feed (env : Floating) : Iface → List Strobe → Iface × List (Bool × BitVec 8)
  | i, [] => (i, [])
  | i, s :: ss =>
    let r := (i.take env s).1.feed env ss
    (r.1, (i.take env s).2 ++ r.2)

/-- What is fed in two parts. -/
theorem Iface.feed_append {env : Floating} {j k : Iface} {ts : List Strobe} {cs : List (Bool × BitVec 8)}
    (h₂ : j.feed env ts = (k, cs)) : ∀ {i : Iface} {ss : List Strobe} {bs : List (Bool × BitVec 8)},
    i.feed env ss = (j, bs) → i.feed env (ss ++ ts) = (k, bs ++ cs)
  | i, [], bs, h₁ => by
    cases h₁
    exact h₂
  | i, s :: ss, bs, h₁ => by
    cases h₁
    rw [List.cons_append, Iface.feed, Iface.feed_append h₂ (i := (i.take env s).1) rfl]
    simp only [List.append_assoc]

def byteStrobes (p : Bool × Byte) : List Strobe :=
  [⟨p.1, false, p.2.toBitVec.extractLsb' 4 4⟩, ⟨p.1, false, p.2.toBitVec.extractLsb' 0 4⟩]

def onBus (p : Bool × Byte) : Bool × BitVec 8 := (p.1, p.2.toBitVec)

theorem nibbles_append (b : BitVec 8) : b.extractLsb' 4 4 ++ b.extractLsb' 0 4 = b := by
  apply BitVec.eq_of_getLsbD_eq
  intro i hi
  rw [BitVec.getLsbD_append, BitVec.getLsbD_extractLsb', BitVec.getLsbD_extractLsb']
  split
  · rename_i h; simp [h]
  · rename_i h
    have h1 : i - 4 < 4 := by omega
    have h2 : 4 + (i - 4) = i := by omega
    simp [h1, h2]

/-- **An in-phase 4-bit interface assembles the bytes it is sent**, as long as none of them widens it. -/
theorem Iface.feed_bytes (env : Floating) (n : Nat) :
    ∀ (ps : List (Bool × Byte)), (∀ p ∈ ps, widens (onBus p) = false) →
      (Iface.mk (.four none) n).feed env (ps.flatMap byteStrobes) = (⟨.four none, n + 2 * ps.length⟩, ps.map onBus) := by
  intro ps
  induction ps generalizing n with
  | nil => intro _; rfl
  | cons p ps ih =>
    intro h
    have hp := h p List.mem_cons_self
    have hw : Width.after (.four (some (p.1, p.2.toBitVec.extractLsb' 4 4))) (onBus p) = .four none := by
      unfold Width.after
      rw [hp]
      simp
    have hone : (Iface.mk (.four none) n).feed env (byteStrobes p) = (⟨.four none, n + 2⟩, [onBus p]) := by
      simp only [byteStrobes, Iface.feed, Iface.take, if_true, nibbles_append, List.nil_append, List.append_nil]
      rw [show (p.1, p.2.toBitVec) = onBus p from rfl, hw]
    rw [List.flatMap_cons, Iface.feed_append (ih (n + 2) (fun q hq => h q (List.mem_cons_of_mem _ hq))) hone]
    simp only [List.length_cons, List.map_cons, List.singleton_append]
    congr 2
    omega

/-! ## What the driver emits -/

/-- Between calls: E and RW low, the backlight on. -/
structure Idle (port : BitVec 8) : Prop where
  e : port.getLsbD LCD_E_PIN = false
  rw : port.getLsbD LCD_RW_PIN = false
  bt : port.getLsbD LCD_BT_PIN = true

/-- From `s` to `t` the driver writes port bytes that strobe `ss`, and never clears the backlight bit. -/
structure Emits (s t : Driver) (ss : List Strobe) : Prop where
  idle : Idle t.portValue
  wire : ∃ w, t.wire = s.wire ++ w ∧ strobes false w = ss ∧ levelE false w = false ∧
    ∀ p ∈ w, p.getLsbD LCD_BT_PIN = true

theorem Emits.refl {s : Driver} (h : Idle s.portValue) : Emits s s [] :=
  ⟨h, [], by simp, rfl, rfl, by simp⟩

theorem Emits.trans {s t u : Driver} {ss ts : List Strobe} (h₁ : Emits s t ss) (h₂ : Emits t u ts) :
    Emits s u (ss ++ ts) := by
  obtain ⟨v, hv, hvs, hve, hvb⟩ := h₁.wire
  obtain ⟨w, hw, hws, hwe, hwb⟩ := h₂.wire
  refine ⟨h₂.idle, v ++ w, by rw [hw, hv, List.append_assoc], ?_, ?_, ?_⟩
  · rw [strobes_append, hve, hvs, hws]
  · rw [levelE_append, hve, hwe]
  · intro p hp
    rcases List.mem_append.1 hp with hp | hp
    · exact hvb p hp
    · exact hwb p hp

theorem Emits.congr {s s' t t' : Driver} {ss : List Strobe} (h : Emits s t ss) (hs : s'.wire = s.wire)
    (ht : t'.wire = t.wire) (hp : t'.portValue = t.portValue) : Emits s' t' ss :=
  ⟨by rw [hp]; exact h.idle, by rw [hs, ht]; exact h.wire⟩

theorem getLsbD_setPin (port : BitVec 8) (pin j : Nat) (v : Bool) (hj : j < 8) :
    (setPin port pin v).getLsbD j = if pin = j then v else port.getLsbD j := by
  unfold setPin
  cases v
  · by_cases h : pin = j
    · subst h; simp [hj]
    · simp [hj, h, Ne.symm h]
  · by_cases h : pin = j
    · subst h; simp [hj]
    · simp [hj, h, Ne.symm h]

/-- A pin other than the backlight changes no strobe, as long as E and RW are only lowered. -/
theorem emits_lcdPinWrite {s : Driver} (h : Idle s.portValue) (pin : Nat) (v : Bool)
    (hpin : (v = false ∨ (pin ≠ LCD_E_PIN ∧ pin ≠ LCD_RW_PIN)) ∧ pin ≠ LCD_BT_PIN) :
    Emits s (lcdPinWrite s pin v) [] := by
  obtain ⟨hv, h3⟩ := hpin
  have hlow : ∀ j, j < 8 → j = LCD_E_PIN ∨ j = LCD_RW_PIN → s.portValue.getLsbD j = false →
      (setPin s.portValue pin v).getLsbD j = false := by
    intro j hj hj' hs
    rw [getLsbD_setPin _ _ _ _ hj]
    split
    · rename_i hp
      rcases hv with rfl | ⟨h1, h2⟩
      · rfl
      · rcases hj' with rfl | rfl
        · exact absurd hp h1
        · exact absurd hp h2
    · exact hs
  have he := hlow LCD_E_PIN (by decide) (Or.inl rfl) h.e
  have hr := hlow LCD_RW_PIN (by decide) (Or.inr rfl) h.rw
  have hb : (setPin s.portValue pin v).getLsbD LCD_BT_PIN = true := by
    rw [getLsbD_setPin _ _ _ _ (by decide), if_neg h3, h.bt]
  exact ⟨⟨he, hr, hb⟩, [setPin s.portValue pin v], rfl, by simp [strobes], by simp [levelE, he], by simp [hb]⟩

theorem emits_strobe {s : Driver} (h : Idle s.portValue) :
    Emits s (lcdPinWrite (lcdPinWrite (lcdPinWrite s LCD_E_PIN false) LCD_E_PIN true) LCD_E_PIN false)
      [strobeOf s.portValue] := by
  have hlow : setPin s.portValue LCD_E_PIN false = s.portValue := by
    apply BitVec.eq_of_getLsbD_eq
    intro j hj
    rw [getLsbD_setPin _ _ _ _ hj]
    split
    · rename_i hp; rw [← hp, h.e]
    · rfl
  have hback : setPin (setPin s.portValue LCD_E_PIN true) LCD_E_PIN false = s.portValue := by
    apply BitVec.eq_of_getLsbD_eq
    intro j hj
    rw [getLsbD_setPin _ _ _ _ hj, getLsbD_setPin _ _ _ _ hj]
    split
    · rename_i hp; rw [← hp, h.e]
    · rfl
  have hhigh : (setPin s.portValue LCD_E_PIN true).getLsbD LCD_E_PIN = true := by
    rw [getLsbD_setPin _ _ _ _ (by decide), if_pos rfl]
  have hbt : (setPin s.portValue LCD_E_PIN true).getLsbD LCD_BT_PIN = true := by
    rw [getLsbD_setPin _ _ _ _ (by decide), if_neg (by decide), h.bt]
  refine ⟨?_, [s.portValue, setPin s.portValue LCD_E_PIN true, s.portValue], ?_, ?_, ?_, ?_⟩
  · simp only [lcdPinWrite, hlow, hback]; exact h
  · simp [lcdPinWrite, hlow, hback]
  · simp [strobes, h.e, hhigh]
  · simp [levelE, h.e]
  · simp [h.bt, hbt]

/-- **`LCD_Cmd4bit` is one strobe**: the low nibble of its argument under the RS the port holds. -/
theorem emits_lcdCmd4bit {s : Driver} (h : Idle s.portValue) (cmd : BitVec 8) :
    Emits s (lcdCmd4bit s cmd) [⟨s.portValue.getLsbD LCD_RS_PIN, false, cmd.extractLsb' 0 4⟩] ∧
      (lcdCmd4bit s cmd).handed = s.handed ∧ (lcdCmd4bit s cmd).opts = s.opts ∧
      (lcdCmd4bit s cmd).portValue.getLsbD LCD_RS_PIN = s.portValue.getLsbD LCD_RS_PIN := by
  let s1 := lcdPinWrite s LCD_D7_PIN (cmd.getLsbD 3)
  let s2 := lcdPinWrite s1 LCD_D6_PIN (cmd.getLsbD 2)
  let s3 := lcdPinWrite s2 LCD_D5_PIN (cmd.getLsbD 1)
  let s4 := lcdPinWrite s3 LCD_D4_PIN (cmd.getLsbD 0)
  have h1 : Emits s s1 [] := emits_lcdPinWrite h _ _ ⟨Or.inr (by decide), by decide⟩
  have h2 : Emits s1 s2 [] := emits_lcdPinWrite h1.idle _ _ ⟨Or.inr (by decide), by decide⟩
  have h3 : Emits s2 s3 [] := emits_lcdPinWrite h2.idle _ _ ⟨Or.inr (by decide), by decide⟩
  have h4 : Emits s3 s4 [] := emits_lcdPinWrite h3.idle _ _ ⟨Or.inr (by decide), by decide⟩
  have hdata : Emits s s4 [] := ((h1.trans h2).trans h3).trans h4
  have hbit : ∀ j, j < 8 → s4.portValue.getLsbD j =
      if LCD_D4_PIN = j then cmd.getLsbD 0 else if LCD_D5_PIN = j then cmd.getLsbD 1
      else if LCD_D6_PIN = j then cmd.getLsbD 2 else if LCD_D7_PIN = j then cmd.getLsbD 3
      else s.portValue.getLsbD j := by
    intro j hj
    simp only [s4, s3, s2, s1, lcdPinWrite, getLsbD_setPin _ _ _ _ hj]
  have hstrobe : strobeOf s4.portValue = ⟨s.portValue.getLsbD LCD_RS_PIN, false, cmd.extractLsb' 0 4⟩ := by
    unfold strobeOf
    rw [hdata.idle.rw, hbit LCD_RS_PIN (by decide)]
    congr 1
    apply BitVec.eq_of_getLsbD_eq
    intro i hi
    rw [BitVec.getLsbD_extractLsb', BitVec.getLsbD_extractLsb', hbit (4 + i) (by omega)]
    have hcases : i = 0 ∨ i = 1 ∨ i = 2 ∨ i = 3 := by omega
    rcases hcases with rfl | rfl | rfl | rfl <;> rfl
  have hlast := emits_strobe hdata.idle
  rw [hstrobe] at hlast
  refine ⟨hdata.trans hlast, rfl, rfl, ?_⟩
  show (setPin (setPin (setPin s4.portValue LCD_E_PIN false) LCD_E_PIN true) LCD_E_PIN false).getLsbD LCD_RS_PIN = _
  rw [getLsbD_setPin _ _ _ _ (by decide), getLsbD_setPin _ _ _ _ (by decide), getLsbD_setPin _ _ _ _ (by decide),
    if_neg (by decide), if_neg (by decide), if_neg (by decide), hbit LCD_RS_PIN (by decide)]
  rfl

theorem low_shiftRight (b : BitVec 8) : (b >>> 4).extractLsb' 0 4 = b.extractLsb' 4 4 := by
  apply BitVec.eq_of_getLsbD_eq
  intro i hi
  simp [hi]

theorem low_and (b : BitVec 8) : (b &&& 0x0F#8).extractLsb' 0 4 = b.extractLsb' 0 4 := by
  apply BitVec.eq_of_getLsbD_eq
  intro i hi
  have hcases : i = 0 ∨ i = 1 ∨ i = 2 ∨ i = 3 := by omega
  rcases hcases with rfl | rfl | rfl | rfl <;> simp

/-- **A byte handed down is a byte strobed out**: what `LCD_Cmd` and `LCD_Data` share. -/
theorem emits_lcdSend {s : Driver} (h : Idle s.portValue) (rs : Bool) (b : Byte) :
    Emits s (lcdSend s rs b) (byteStrobes (rs, b)) ∧ (lcdSend s rs b).handed = s.handed ++ [(rs, b)] ∧
      (lcdSend s rs b).opts = s.opts := by
  have h1 : Emits s (lcdPinWrite s LCD_RS_PIN rs) [] := emits_lcdPinWrite h _ _ ⟨Or.inr (by decide), by decide⟩
  have hrs : (lcdPinWrite s LCD_RS_PIN rs).portValue.getLsbD LCD_RS_PIN = rs := by
    simp only [lcdPinWrite, getLsbD_setPin _ _ _ _ (show LCD_RS_PIN < 8 by decide), if_true]
  obtain ⟨h2, hh2, ho2, hr2⟩ := emits_lcdCmd4bit h1.idle (b.toBitVec >>> 4)
  obtain ⟨h3, hh3, ho3, -⟩ := emits_lcdCmd4bit h2.idle (b.toBitVec &&& 0x0F#8)
  rw [hr2, hrs, low_and] at h3
  rw [hrs, low_shiftRight] at h2
  rw [hh2] at hh3
  rw [ho2] at ho3
  have hall := (h1.trans h2).trans h3
  simp only [lcdSend]
  generalize lcdCmd4bit (lcdCmd4bit (lcdPinWrite s LCD_RS_PIN rs) (b.toBitVec >>> 4)) (b.toBitVec &&& 0x0F#8) = t
    at hall hh3 ho3 ⊢
  exact ⟨hall.congr rfl rfl rfl, by rw [hh3]; rfl, ho3⟩

end Lcd
end RtPay
