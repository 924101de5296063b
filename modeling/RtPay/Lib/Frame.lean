import RtPay.Lib.VarInt
/-!
# Frame — packets with a header byte and a length in front

A frame is a header, the digits of its body's length and the body; the digits say where it ends, whatever is behind it.
-/
namespace Framed

open VarInt

/-- The digits are any that are read as the length, not only the fewest. -/
structure Frame where
  header : UInt8
  digits : List UInt8
  body : List UInt8
  length : decode 4 digits = some (body.length, [])

namespace Frame

def bytes (f : Frame) : List UInt8 := f.header :: (f.digits ++ f.body)

/-- The frame of a body, with as few digits as there can be. -/
def of (header : UInt8) (body : List UInt8) (h : body.length < 128 ^ 4) : Frame where
  header := header
  digits := encode 4 body.length
  body := body
  length := by
    have := decode_encode (by decide) h []
    rwa [List.append_nil] at this

theorem decode_digits (f : Frame) (l : List UInt8) : decode 4 (f.digits ++ l) = some (f.body.length, l) := by
  obtain ⟨p, hp, -, -, -, hany⟩ := decode_some f.length
  rw [List.append_nil] at hp
  rw [hp]
  exact hany l

theorem length_digits (f : Frame) : 0 < f.digits.length ∧ f.digits.length ≤ 4 ∧ f.body.length < 128 ^ f.digits.length := by
  obtain ⟨p, hp, hpos, hle, hlt, -⟩ := decode_some f.length
  rw [List.append_nil] at hp
  rw [hp]
  exact ⟨hpos, hle, hlt⟩

theorem length_bytes (f : Frame) : f.bytes.length = 1 + f.digits.length + f.body.length := by
  simp only [bytes, List.length_cons, List.length_append]
  omega

end Frame

def stream (fs : List Frame) : List UInt8 := (fs.map Frame.bytes).flatten

@[simp] theorem stream_nil : stream [] = [] := rfl

@[simp] theorem stream_cons (f : Frame) (fs : List Frame) : stream (f :: fs) = f.bytes ++ stream fs := rfl

end Framed
