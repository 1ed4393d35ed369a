/-!
# UTF-8, with the place and the cause of a failure

* `Decoder`        what is known after a prefix of the bytes: the characters so far and, inside a character, the bytes still
                   owed and the bounds of the next one;
* `Decoder.feed`   one byte; `Decoder.finish` the end of the bytes;
* `decode bytes`   the text, or the `Fault` at the first byte that no text continues;
* `encode text`    the bytes of a text.

The bounds on the second byte keep overlong forms, surrogates and code points above `0x10FFFF` out, so a
sequence is refused at the first byte that rules it out. The range of a fault is the part of the sequence that
was well formed: it is what `Fault.message` quotes.
-/

namespace StaticPromotion.Utf8

/-! ## faults -/

inductive Cause where
  | startByte
  | continuationByte
  | endOfData
deriving DecidableEq, Repr

def Cause.message : Cause → String
  | .startByte => "invalid start byte"
  | .continuationByte => "invalid continuation byte"
  | .endOfData => "unexpected end of data"

/-- the bytes from `first` to `last`, both included, start with `byte` and cannot be decoded -/
structure Fault where
  first : Nat
  last : Nat
  byte : UInt8
  cause : Cause
deriving DecidableEq, Repr

/-- two hexadecimal digits, in lower case -/
def hexByte (b : UInt8) : String :=
  String.ofList [Nat.digitChar (b.toNat / 16), Nat.digitChar (b.toNat % 16)]

def Fault.message (f : Fault) : String :=
  if f.first = f.last then
    s!"'utf-8' codec can't decode byte 0x{hexByte f.byte} in position {f.first}: {f.cause.message}"
  else
    s!"'utf-8' codec can't decode bytes in position {f.first}-{f.last}: {f.cause.message}"

/-! ## decoding -/

/-- a character begun: its first byte and place, the bytes still owed, the bounds of the next one, and the
bits collected -/
structure Pending where
  first : Nat
  byte : UInt8
  owed : Nat
  low : UInt8
  high : UInt8
  bits : Nat
deriving DecidableEq, Repr

/-- what the first byte of a character longer than one byte announces -/
def Pending.start? (position : Nat) (b : UInt8) : Option Pending :=
  let begun (owed : Nat) (low high : UInt8) (mask : Nat) : Option Pending :=
    some ⟨position, b, owed, low, high, b.toNat % mask⟩
  if b < 0xC2 then none
  else if b < 0xE0 then begun 1 0x80 0xBF 32
  else if b = 0xE0 then begun 2 0xA0 0xBF 16
  else if b = 0xED then begun 2 0x80 0x9F 16
  else if b < 0xF0 then begun 2 0x80 0xBF 16
  else if b = 0xF0 then begun 3 0x90 0xBF 8
  else if b < 0xF4 then begun 3 0x80 0xBF 8
  else if b = 0xF4 then begun 3 0x80 0x8F 8
  else none

structure Decoder where
  position : Nat := 0
  pending : Option Pending := none
  /-- the characters decoded so far, last one first -/
  reversed : List Char := []

def Decoder.feed (d : Decoder) (b : UInt8) : Except Fault Decoder :=
  match d.pending with
  | none =>
    if b < 0x80 then
      .ok { position := d.position + 1, reversed := Char.ofNat b.toNat :: d.reversed }
    else
      match Pending.start? d.position b with
      | none => .error ⟨d.position, d.position, b, .startByte⟩
      | some p => .ok { d with position := d.position + 1, pending := some p }
  | some p =>
    if p.low ≤ b ∧ b ≤ p.high then
      let bits := p.bits * 64 + b.toNat % 64
      if p.owed = 1 then
        .ok { position := d.position + 1, reversed := Char.ofNat bits :: d.reversed }
      else
        .ok { d with
          position := d.position + 1
          pending := some { p with owed := p.owed - 1, low := 0x80, high := 0xBF, bits := bits } }
    else .error ⟨p.first, d.position - 1, p.byte, .continuationByte⟩

def Decoder.finish (d : Decoder) : Except Fault (List Char) :=
  match d.pending with
  | none => .ok d.reversed.reverse
  | some p => .error ⟨p.first, d.position - 1, p.byte, .endOfData⟩

def decodeChars (bytes : List UInt8) : Except Fault (List Char) := do
  (← bytes.foldlM Decoder.feed {}).finish

def decode (bytes : List UInt8) : Except Fault String :=
  (decodeChars bytes).map String.ofList

/-! ## encoding -/

def encode (text : String) : List UInt8 :=
  text.toList.flatMap String.utf8EncodeChar

theorem encode_ofList (cs : List Char) :
    encode (String.ofList cs) = cs.flatMap String.utf8EncodeChar := by
  simp [encode]

end StaticPromotion.Utf8
