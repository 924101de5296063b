import RtPay.Lib.Bytes
/-!
# Event — event.h

The messages of the event queue.  `ConfigEvt` is kept as the bytes of its C layout, since a name is copied into it by a
length the payload chooses: the fields are reads of those bytes, and the size is a field of the structure.
-/
namespace RtPay

open Bytes

def MAX_DEVICE_NAME_LEN : Nat := 16

/-- `sizeof(config_evt_t)`: the name, the price, the pulses and two bytes of padding. -/
def sizeofConfigEvt : Nat := 24

/-- `config_evt_t` as it lies in memory: `name` at 0, `price` at 16, `pulses_per_credit` at 20. -/
structure ConfigEvt where
  bytes : List Byte
  size : bytes.length = sizeofConfigEvt
  deriving DecidableEq

namespace ConfigEvt

def zero : ConfigEvt := ⟨List.replicate sizeofConfigEvt 0, by simp⟩

def name (c : ConfigEvt) : List Byte := peek c.bytes 0 MAX_DEVICE_NAME_LEN
def price (c : ConfigEvt) : UInt32 := UInt32.ofNat (leVal (peek c.bytes 16 4))
def pulsesPerCredit (c : ConfigEvt) : UInt16 := UInt16.ofNat (leVal (peek c.bytes 20 2))

/-- A store of bytes at an offset of the structure; `none` when it runs past its end. -/
def store (c : ConfigEvt) (i : Nat) (src : List Byte) : Option ConfigEvt :=
  match h : poke c.bytes i src with
  | none => none
  | some m => some ⟨m, by rw [length_of_poke h, c.size]⟩

def setPrice (c : ConfigEvt) (v : UInt32) : ConfigEvt := (c.store 16 (le 4 v.toNat)).getD c
def setPulses (c : ConfigEvt) (v : UInt16) : ConfigEvt := (c.store 20 (le 2 v.toNat)).getD c

theorem ext_bytes {c d : ConfigEvt} (h : c.bytes = d.bytes) : c = d := by
  cases c; cases d; cases h; rfl

theorem store_eq_some_iff {c d : ConfigEvt} {i : Nat} {src : List Byte} :
    c.store i src = some d ↔ poke c.bytes i src = some d.bytes := by
  unfold store
  split
  · rename_i h; simp [h]
  · rename_i m h
    refine ⟨fun he => ?_, fun he => ?_⟩
    · cases he; exact h
    · rw [h] at he; exact congrArg some (ext_bytes (Option.some.inj he))

theorem store_of_le (c : ConfigEvt) (i : Nat) (src : List Byte) (h : i + src.length ≤ sizeofConfigEvt) :
    ∃ d, c.store i src = some d := by
  refine ⟨⟨_, ?_⟩, store_eq_some_iff.2 (poke_of_le (by rw [c.size]; exact h))⟩
  rw [length_of_poke (poke_of_le (by rw [c.size]; exact h)), c.size]

theorem poke_setPrice (c : ConfigEvt) (v : UInt32) : poke c.bytes 16 (le 4 v.toNat) = some (c.setPrice v).bytes := by
  obtain ⟨d, hd⟩ := c.store_of_le 16 (le 4 v.toNat) (by simp [sizeofConfigEvt])
  rw [setPrice, hd, Option.getD_some]
  exact store_eq_some_iff.1 hd

theorem poke_setPulses (c : ConfigEvt) (v : UInt16) :
    poke c.bytes 20 (le 2 v.toNat) = some (c.setPulses v).bytes := by
  obtain ⟨d, hd⟩ := c.store_of_le 20 (le 2 v.toNat) (by simp [sizeofConfigEvt])
  rw [setPulses, hd, Option.getD_some]
  exact store_eq_some_iff.1 hd

theorem toNat_price (c : ConfigEvt) : c.price.toNat = leVal (peek c.bytes 16 4) := by
  have hlt := leVal_lt (peek c.bytes 16 4)
  rw [length_peek (by rw [c.size]; decide)] at hlt
  rw [price, UInt32.toNat_ofNat', Nat.mod_eq_of_lt (by simpa using hlt)]

theorem toNat_pulsesPerCredit (c : ConfigEvt) : c.pulsesPerCredit.toNat = leVal (peek c.bytes 20 2) := by
  have hlt := leVal_lt (peek c.bytes 20 2)
  rw [length_peek (by rw [c.size]; decide)] at hlt
  rw [pulsesPerCredit, UInt16.toNat_ofNat', Nat.mod_eq_of_lt (by simpa using hlt)]

@[simp] theorem price_setPrice (c : ConfigEvt) (v : UInt32) : (c.setPrice v).price = v := by
  have h := peek_of_poke_same (poke_setPrice c v)
  rw [length_le] at h
  rw [price, h, leVal_le_of_lt (by have := v.toNat_lt; simpa using this), UInt32.ofNat_toNat]

@[simp] theorem pulsesPerCredit_setPulses (c : ConfigEvt) (v : UInt16) : (c.setPulses v).pulsesPerCredit = v := by
  have h := peek_of_poke_same (poke_setPulses c v)
  rw [length_le] at h
  rw [pulsesPerCredit, h, leVal_le_of_lt (by have := v.toNat_lt; simpa using this), UInt16.ofNat_toNat]

@[simp] theorem pulsesPerCredit_setPrice (c : ConfigEvt) (v : UInt32) :
    (c.setPrice v).pulsesPerCredit = c.pulsesPerCredit := by
  rw [pulsesPerCredit, peek_of_poke_apart (poke_setPrice c v) (Or.inr (by simp)), ← pulsesPerCredit]

@[simp] theorem price_setPulses (c : ConfigEvt) (v : UInt16) : (c.setPulses v).price = c.price := by
  rw [price, peek_of_poke_apart (poke_setPulses c v) (Or.inl (by simp)), ← price]

@[simp] theorem name_setPrice (c : ConfigEvt) (v : UInt32) : (c.setPrice v).name = c.name := by
  rw [name, peek_of_poke_apart (poke_setPrice c v) (Or.inl (by simp [MAX_DEVICE_NAME_LEN])), ← name]

@[simp] theorem name_setPulses (c : ConfigEvt) (v : UInt16) : (c.setPulses v).name = c.name := by
  rw [name, peek_of_poke_apart (poke_setPulses c v) (Or.inl (by simp [MAX_DEVICE_NAME_LEN])), ← name]

/-- **A store inside the name leaves the numbers alone.** -/
theorem numbers_of_store_name {c d : ConfigEvt} {src : List Byte} (h : c.store 0 src = some d)
    (hl : src.length ≤ MAX_DEVICE_NAME_LEN) : d.price = c.price ∧ d.pulsesPerCredit = c.pulsesPerCredit := by
  have hp := store_eq_some_iff.1 h
  unfold MAX_DEVICE_NAME_LEN at hl
  refine ⟨?_, ?_⟩
  · rw [price, peek_of_poke_apart hp (Or.inr (by omega)), ← price]
  · rw [pulsesPerCredit, peek_of_poke_apart hp (Or.inr (by omega)), ← pulsesPerCredit]

theorem name_of_store_name {c d : ConfigEvt} {src : List Byte} (h : c.store 0 src = some d)
    (hl : src.length ≤ MAX_DEVICE_NAME_LEN) : d.name = src ++ c.name.drop src.length := by
  have hp := store_eq_some_iff.1 h
  rw [poke_of_le (by rw [c.size, Nat.zero_add]; exact Nat.le_trans hl (by decide))] at hp
  simp only [List.take_zero, List.nil_append, Nat.zero_add, Option.some.injEq] at hp
  rw [name, name, peek, peek, ← hp, List.drop_zero, List.drop_zero, List.take_append, List.take_of_length_le hl,
    List.drop_take]

theorem name_zero : zero.name = List.replicate MAX_DEVICE_NAME_LEN 0 := by decide

end ConfigEvt

structure CreditEvt where
  count : UInt16
  balance : UInt32
  deriving DecidableEq, Repr

/-- `enable_evt_t`; `rt_bool_t` is an `int`. -/
structure EnableEvt where
  enable : Int32
  deriving DecidableEq, Repr

inductive MqttEvent
  | undefined
  | connecting
  | connFailed
  | connSuccess
  deriving DecidableEq, Repr

/-- `sizeof(card_event_t)`: 32 hex characters and a terminator. -/
def sizeofCardUid : Nat := 33

structure CardEvent where
  uid : List Byte
  size : uid.length = sizeofCardUid
  deriving DecidableEq

inductive Event
  | undefined
  | config (evt : ConfigEvt)
  | credit (evt : CreditEvt)
  | enable (evt : EnableEvt)
  | mqtt (evt : MqttEvent)
  | card (evt : CardEvent)
  deriving DecidableEq

end RtPay
