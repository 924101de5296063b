import RtPay.Lib.Bytes
/-!
# Gpio — pin.c and drv_gpio.c

A pin is a number: the port in bits 7..4, the line in bits 3..0, and a negative number for a name that was refused.
`Gpio` is the sequence of `GPIO_WriteBit` calls, the only thing that reaches an output.
-/
namespace RtPay

open Bytes

def RT_EINVAL : Int := 10

def PIN_LOW : Bool := false
def PIN_HIGH : Bool := true

/-- `PIN_STPORT_MAX`: the part defines ports A to G. -/
def PIN_STPORT_MAX : Nat := 7

/-- `PIN_PORT`, on a signed pin: the shift is arithmetic. -/
def pinPort (pin : Int) : Nat := (pin / 16 % 16).toNat

def pinNo (pin : Int) : Nat := (pin % 16).toNat

def pinNum (port no : Int) : Int := port % 16 * 16 + no % 16

/-- `ch32_pin_get`: names such as `PB.0`. -/
def ch32PinGet (name : List Byte) : Int :=
  if name.length < 4 ∨ 6 ≤ name.length then -RT_EINVAL
  else if name[0]? ≠ some 0x50 ∨ name[2]? ≠ some 0x2E then -RT_EINVAL
  else
    let letter := (name.getD 1 0).toNat
    if 65 ≤ letter ∧ letter ≤ 90 then
      let no := (name.drop 3).foldl (fun (n : Int) c => n * 10 + ((c.toNat : Int) - 48)) 0
      pinNum ((letter : Int) - 65) no
    else -RT_EINVAL

def rtPinGet (name : List Byte) : Int :=
  if name[0]? ≠ some 0x50 ∧ name[0]? ≠ some 0x70 then -RT_EINVAL else ch32PinGet name

/-- The `GPIO_WriteBit` calls so far: port, line and level. -/
structure Gpio where
  writes : List (Nat × Nat × Bool)
  deriving DecidableEq, Repr

/-- The outputs after reset: nothing written, every line low. -/
def Gpio.reset : Gpio := ⟨[]⟩

/-- `ch32_pin_write`: a pin whose port the part does not have is ignored. -/
def ch32PinWrite (g : Gpio) (pin : Int) (value : Bool) : Gpio :=
  if pinPort pin < PIN_STPORT_MAX then ⟨g.writes ++ [(pinPort pin, pinNo pin, value)]⟩ else g

def rtPinWrite (g : Gpio) (pin : Int) (value : Bool) : Gpio := ch32PinWrite g pin value

def Gpio.levels (g : Gpio) (port no : Nat) : List Bool :=
  g.writes.filterMap (fun w => if w.1 = port ∧ w.2.1 = no then some w.2.2 else none)

/-- The HIGH-to-LOW transitions of a line that starts at `l`. -/
def fallingEdges : Bool → List Bool → Nat
  | _, [] => 0
  | l, v :: vs => (if l = true ∧ v = false then 1 else 0) + fallingEdges v vs

def Gpio.falls (g : Gpio) (pin : Int) : Nat := fallingEdges PIN_LOW (g.levels (pinPort pin) (pinNo pin))

/-- **A refused name is a pin of a port that does not exist**: nothing written to it reaches an output. -/
theorem rtPinWrite_of_refused (g : Gpio) (value : Bool) : rtPinWrite g (-RT_EINVAL) value = g := by
  unfold rtPinWrite ch32PinWrite
  rw [if_neg (by decide)]

theorem rtPinGet_of_not_p {name : List Byte} (h : name[0]? ≠ some 0x50) (h' : name[0]? ≠ some 0x70) :
    rtPinGet name = -RT_EINVAL := by
  unfold rtPinGet
  rw [if_pos ⟨h, h'⟩]

example : rtPinGet (text "PB.0") = 16 := by decide

end RtPay
