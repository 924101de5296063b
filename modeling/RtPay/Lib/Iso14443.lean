import RtPay.Lib.Bytes
/-!
# Iso14443 — a type A card between a reader's frames

The card of ISO/IEC 14443-3: idle until a REQA, ready through the cascade levels of its UID, active once it is
selected, halted by HLTA.  A frame it does not expect sends it back to idle, without an answer.  The CRC is a
parameter, the same for the card and its reader.
-/
namespace Iso14443

open Bytes

/-- The CRC_A of some bytes, in the order of transmission. -/
abbrev Crc := List Byte → Byte × Byte

/-- The CRC_A of the standard, byte by byte. -/
def crcA : Crc := fun bs =>
  let sum := bs.foldl (fun (sum : UInt16) b =>
    let ch := b ^^^ sum.toUInt8
    let ch := (ch ^^^ (ch <<< 4)).toUInt16
    (sum >>> 8) ^^^ (ch <<< 8) ^^^ (ch <<< 3) ^^^ (ch >>> 4)) 0x6363
  (sum.toUInt8, (sum >>> 8).toUInt8)

example : crcA [0x50, 0x00] = (0x57, 0xCD) := by decide

def withCrc (crc : Crc) (bs : List Byte) : List Byte := bs ++ [(crc bs).1, (crc bs).2]

def reqa : Byte := 0x26
def wupa : Byte := 0x52
def hlta : Byte := 0x50
def cascadeTag : Byte := 0x88

def sel : Nat → Byte
  | 1 => 0x93
  | 2 => 0x95
  | _ => 0x97

inductive Frame
  | short (cmd : Byte)
  | bytes (bs : List Byte)
  deriving DecidableEq

/-- The four bytes a UID shows at each cascade level. -/
def levels : List Byte → List (List Byte)
  | [a, b, c, d] => [[a, b, c, d]]
  | a :: b :: c :: uid => [cascadeTag, a, b, c] :: levels uid
  | _ => []

/-- A card with a single, double or triple size UID. -/
structure Card where
  uid : List Byte
  size : uid.length = 4 ∨ uid.length = 7 ∨ uid.length = 10
  atqa : Byte × Byte
  sak : Byte
  complete : sak &&& 0x04 = 0

inductive State
  | idle
  | ready (level : Nat) (todo : List (List Byte))
  | active
  | halt
  deriving DecidableEq

def bcc (level : List Byte) : Byte := level.foldl (· ^^^ ·) 0

def anticollision (n : Nat) : Frame := .bytes [sel n, 0x20]

def select (crc : Crc) (n : Nat) (level : List Byte) : Frame :=
  .bytes (withCrc crc ([sel n, 0x70] ++ (level ++ [bcc level])))

/-- **The card's next state and its answer.** -/
def receive (crc : Crc) (c : Card) : State → Frame → State × Option (List Byte)
  | .idle, f =>
    if f = .short reqa ∨ f = .short wupa then (.ready 1 (levels c.uid), some [c.atqa.1, c.atqa.2]) else (.idle, none)
  | .ready n (level :: todo), f =>
    if f = anticollision n then (.ready n (level :: todo), some (level ++ [bcc level]))
    else if f = select crc n level then
      if todo = [] then (.active, some (withCrc crc [c.sak])) else (.ready (n + 1) todo, some (withCrc crc [0x04]))
    else (.idle, none)
  | .ready _ [], _ => (.idle, none)
  | .active, f => if f = .bytes (withCrc crc [hlta, 0x00]) then (.halt, none) else (.idle, none)
  | .halt, f =>
    if f = .short wupa then (.ready 1 (levels c.uid), some [c.atqa.1, c.atqa.2]) else (.halt, none)

/-! ## The levels of a UID -/

theorem levels_of_card (c : Card) :
    ∃ level todo, levels c.uid = level :: todo ∧ todo.length ≤ 2 ∧ ∀ l ∈ level :: todo, l.length = 4 := by
  obtain ⟨uid, hsize, _, _, _⟩ := c
  match uid, hsize with
  | [a, b, c, d], _ => exact ⟨_, _, rfl, by simp, by simp⟩
  | [_, _, _, _, _, _, _], _ => exact ⟨_, _, rfl, by simp [levels], by simp [levels]⟩
  | [_, _, _, _, _, _, _, _, _, _], _ => exact ⟨_, _, rfl, by simp [levels], by simp [levels]⟩

/-! ## The answers on the way to active -/

section
variable (crc : Crc) (c : Card)

theorem receive_reqa_idle : receive crc c .idle (.short reqa) = (.ready 1 (levels c.uid), some [c.atqa.1, c.atqa.2]) := by
  rw [receive, if_pos (Or.inl rfl)]

/-- **An active card answers no REQA**, and is idle afterwards. -/
theorem receive_reqa_active : receive crc c .active (.short reqa) = (.idle, none) := by
  rw [receive, if_neg (by simp)]

theorem receive_anticollision (n : Nat) (level : List Byte) (todo : List (List Byte)) :
    receive crc c (.ready n (level :: todo)) (anticollision n) = (.ready n (level :: todo), some (level ++ [bcc level])) := by
  rw [receive, if_pos rfl]

theorem anticollision_ne_select (n : Nat) (level : List Byte) : select crc n level ≠ anticollision n := by
  unfold select anticollision withCrc
  simp

theorem receive_select_last (n : Nat) (level : List Byte) :
    receive crc c (.ready n [level]) (select crc n level) = (.active, some (withCrc crc [c.sak])) := by
  rw [receive, if_neg (anticollision_ne_select crc n level), if_pos rfl, if_pos rfl]

theorem receive_select_more (n : Nat) (level next : List Byte) (todo : List (List Byte)) :
    receive crc c (.ready n (level :: next :: todo)) (select crc n level) =
      (.ready (n + 1) (next :: todo), some (withCrc crc [0x04])) := by
  rw [receive, if_neg (anticollision_ne_select crc n level), if_pos rfl, if_neg (by simp)]

end

end Iso14443
