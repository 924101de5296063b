import RtPay.Lib.Bytes
/-!
# Lcd.Driver — lcd.c

The statics of lcd.c, with two logs beside them: `wire`, every byte written to the PCF8574 port, and `handed`, the
pairs (RS, byte) given to `LCD_Cmd` and `LCD_Data`.  The delays are waits and leave no trace.  The reads that follow
each port write go to `read_value`, which nothing uses.
-/
namespace RtPay
namespace Lcd

open Bytes

structure LcdOptions where
  displayControl : Byte
  displayFunction : Byte
  displayMode : Byte
  currentX : Byte
  currentY : Byte
  deriving DecidableEq

structure Driver where
  portValue : BitVec 8
  opts : LcdOptions
  wire : List (BitVec 8)
  handed : List (Bool × Byte)
  deriving DecidableEq

/-- The statics as the program starts. -/
def Driver.boot : Driver := ⟨0xFF#8, ⟨0, 0, 0, 0, 0⟩, [], []⟩

def LCD_D7_PIN : Nat := 7
def LCD_D6_PIN : Nat := 6
def LCD_D5_PIN : Nat := 5
def LCD_D4_PIN : Nat := 4
def LCD_BT_PIN : Nat := 3
def LCD_E_PIN : Nat := 2
def LCD_RW_PIN : Nat := 1
def LCD_RS_PIN : Nat := 0
def LCD_COLS : Byte := 16
def LCD_ROWS : Byte := 2

def LCD_CLEARDISPLAY : Byte := 0x01
def LCD_ENTRYMODESET : Byte := 0x04
def LCD_DISPLAYCONTROL : Byte := 0x08
def LCD_CURSORSHIFT : Byte := 0x10
def LCD_FUNCTIONSET : Byte := 0x20
def LCD_SETCGRAMADDR : Byte := 0x40
def LCD_SETDDRAMADDR : Byte := 0x80
def LCD_ENTRYLEFT : Byte := 0x02
def LCD_ENTRYSHIFTDECREMENT : Byte := 0x00
def LCD_DISPLAYON : Byte := 0x04
def LCD_CURSORON : Byte := 0x02
def LCD_BLINKON : Byte := 0x01
def LCD_DISPLAYMOVE : Byte := 0x08
def LCD_MOVERIGHT : Byte := 0x04
def LCD_MOVELEFT : Byte := 0x00
def LCD_4BITMODE : Byte := 0x00
def LCD_2LINE : Byte := 0x08
def LCD_1LINE : Byte := 0x00
def LCD_5x8DOTS : Byte := 0x00

def setPin (port : BitVec 8) (pin : Nat) (value : Bool) : BitVec 8 :=
  if value then port ||| BitVec.twoPow 8 pin else port &&& ~~~BitVec.twoPow 8 pin

/-- `lcd_pin_write`: one pin of the port byte, and one transfer of the whole byte. -/
def lcdPinWrite (s : Driver) (pin : Nat) (value : Bool) : Driver :=
  { s with portValue := setPin s.portValue pin value, wire := s.wire ++ [setPin s.portValue pin value] }

/-- `LCD_Cmd4bit`: the low four bits of `cmd` on D7..D4, and one strobe of E. -/
def lcdCmd4bit (s : Driver) (cmd : BitVec 8) : Driver :=
  let s := lcdPinWrite s LCD_D7_PIN (cmd.getLsbD 3)
  let s := lcdPinWrite s LCD_D6_PIN (cmd.getLsbD 2)
  let s := lcdPinWrite s LCD_D5_PIN (cmd.getLsbD 1)
  let s := lcdPinWrite s LCD_D4_PIN (cmd.getLsbD 0)
  let s := lcdPinWrite s LCD_E_PIN false
  let s := lcdPinWrite s LCD_E_PIN true
  lcdPinWrite s LCD_E_PIN false

/-- The two nibbles of a byte, with RS at the given level. -/
def lcdSend (s : Driver) (rs : Bool) (b : Byte) : Driver :=
  let s := lcdPinWrite s LCD_RS_PIN rs
  let s := lcdCmd4bit s (b.toBitVec >>> 4)
  let s := lcdCmd4bit s (b.toBitVec &&& 0x0F#8)
  { s with handed := s.handed ++ [(rs, b)] }

def lcdCmd (s : Driver) (cmd : Byte) : Driver := lcdSend s false cmd

def lcdData (s : Driver) (data : Byte) : Driver := lcdSend s true data

/-- `row_offsets`, with `row >= _LCD_ROWS` taken as row 0 before. -/
def rowOffset (row : Byte) : Byte := if row = 0 then 0x00 else 0x40

def lcdCursorSet (s : Driver) (col row : Byte) : Driver :=
  let row := if LCD_ROWS ≤ row then 0 else row
  lcdCmd { s with opts := { s.opts with currentX := col, currentY := row } }
    (LCD_SETDDRAMADDR ||| (col + rowOffset row))

/-- The write of the display control byte that the on/off functions share. -/
def lcdControl (s : Driver) (control : Byte) : Driver :=
  lcdCmd { s with opts := { s.opts with displayControl := control } } (LCD_DISPLAYCONTROL ||| control)

def lcdDisplayOn (s : Driver) : Driver := lcdControl s (s.opts.displayControl ||| LCD_DISPLAYON)
def lcdDisplayOff (s : Driver) : Driver := lcdControl s (s.opts.displayControl &&& ~~~LCD_DISPLAYON)
def lcdBlinkOn (s : Driver) : Driver := lcdControl s (s.opts.displayControl ||| LCD_BLINKON)
def lcdBlinkOff (s : Driver) : Driver := lcdControl s (s.opts.displayControl &&& ~~~LCD_BLINKON)
def lcdCursorOn (s : Driver) : Driver := lcdControl s (s.opts.displayControl ||| LCD_CURSORON)
def lcdCursorOff (s : Driver) : Driver := lcdControl s (s.opts.displayControl &&& ~~~LCD_CURSORON)

def lcdClear (s : Driver) : Driver := lcdCmd s LCD_CLEARDISPLAY

def lcdScrollLeft (s : Driver) : Driver := lcdCmd s (LCD_CURSORSHIFT ||| LCD_DISPLAYMOVE ||| LCD_MOVELEFT)
def lcdScrollRight (s : Driver) : Driver := lcdCmd s (LCD_CURSORSHIFT ||| LCD_DISPLAYMOVE ||| LCD_MOVERIGHT)

/-- The wrap at the last column, before a character is looked at. -/
def lcdWrap (s : Driver) : Driver :=
  if LCD_COLS ≤ s.opts.currentX then lcdCursorSet s 0 (s.opts.currentY + 1) else s

def lcdPutsStep (s : Driver) (c : Byte) : Driver :=
  let s := lcdWrap s
  if c = 0x0A then lcdCursorSet s s.opts.currentX (s.opts.currentY + 1)
  else if c = 0x0D then lcdCursorSet s 0 s.opts.currentY
  else
    let s := lcdData s c
    { s with opts := { s.opts with currentX := s.opts.currentX + 1 } }

/-- The loop of `LCD_Puts`, up to the terminator. -/
def lcdPutsLoop : Driver → List Byte → Driver
  | s, [] => s
  | s, c :: str => if c = 0 then s else lcdPutsLoop (lcdPutsStep s c) str

def lcdPuts (s : Driver) (x y : Byte) (str : List Byte) : Driver := lcdPutsLoop (lcdCursorSet s x y) str

def lcdCreateChar (s : Driver) (location : Byte) (data : Fin 8 → Byte) : Driver :=
  let location := location &&& 0x07
  (List.finRange 8).foldl (fun s i => lcdData s (data i)) (lcdCmd s (LCD_SETCGRAMADDR ||| (location <<< 3)))

def lcdPutCustom (s : Driver) (x y location : Byte) : Driver := lcdData (lcdCursorSet s x y) location

def lcdPut (s : Driver) (data : Byte) : Driver := lcdData s data

/-- The pins `LCD_Init` lowers before it talks: the data lines, RW, RS and E. -/
def lcdLowerPins (s : Driver) : Driver :=
  [LCD_D4_PIN, LCD_D5_PIN, LCD_D6_PIN, LCD_D7_PIN, LCD_RW_PIN, LCD_RS_PIN, LCD_E_PIN].foldl
    (fun s pin => lcdPinWrite s pin false) s

/-- The four nibbles that leave the controller on a 4-bit interface. -/
def lcdSetWidth (s : Driver) : Driver :=
  lcdCmd4bit (lcdCmd4bit (lcdCmd4bit (lcdCmd4bit s 0x03#8) 0x03#8) 0x03#8) 0x02#8

/-- The commands of `LCD_Init`, once the interface is 4 bits wide. -/
def lcdConfigure (s : Driver) : Driver :=
  let s := lcdCmd s (LCD_FUNCTIONSET ||| s.opts.displayFunction)
  let s := lcdDisplayOn { s with opts := { s.opts with displayControl := LCD_DISPLAYON } }
  let s := lcdClear s
  let mode := LCD_ENTRYLEFT ||| LCD_ENTRYSHIFTDECREMENT
  lcdCmd { s with opts := { s.opts with displayMode := mode } } (LCD_ENTRYMODESET ||| mode)

def lcdInit (s : Driver) : Driver :=
  let s := lcdLowerPins s
  let function := LCD_4BITMODE ||| LCD_5x8DOTS ||| LCD_1LINE
  let function := if 1 < LCD_ROWS then function ||| LCD_2LINE else function
  let s := { s with opts := { s.opts with currentX := 0, currentY := 0, displayFunction := function } }
  lcdConfigure (lcdSetWidth s)

/-- A call of a function declared in lcd.h. -/
inductive Call
  | init
  | displayOn
  | displayOff
  | clear
  | puts (x y : Byte) (str : List Byte)
  | blinkOn
  | blinkOff
  | cursorOn
  | cursorOff
  | scrollLeft
  | scrollRight
  | createChar (location : Byte) (data : Fin 8 → Byte)
  | putCustom (x y location : Byte)
  | put (data : Byte)

def call (s : Driver) : Call → Driver
  | .init => lcdInit s
  | .displayOn => lcdDisplayOn s
  | .displayOff => lcdDisplayOff s
  | .clear => lcdClear s
  | .puts x y str => lcdPuts s x y str
  | .blinkOn => lcdBlinkOn s
  | .blinkOff => lcdBlinkOff s
  | .cursorOn => lcdCursorOn s
  | .cursorOff => lcdCursorOff s
  | .scrollLeft => lcdScrollLeft s
  | .scrollRight => lcdScrollRight s
  | .createChar location data => lcdCreateChar s location data
  | .putCustom x y location => lcdPutCustom s x y location
  | .put data => lcdPut s data

end Lcd
end RtPay
