/-!
# ByteMatch.Encoding

Character encodings.

* `Encoding`: the encodings in which character sets are built.
* `Encoding.encode`: the bytes of a code point, if it has any. Surrogates and numbers above
  `0x10FFFF` have none in any encoding.
* `Encoding.encodeString`: the bytes of a text, if every character has some.
* `Encoding.ofName?`: reading the name of an encoding.
-/

namespace ByteMatch

inductive Encoding where
  | utf8
  | utf16le
  | utf16be
  | utf32le
  | utf32be
  | latin1
  | ascii
deriving DecidableEq, Repr

namespace Encoding

/-- The name of an encoding in class files and in the directories of class files. -/
def name : Encoding → String
  | utf8 => "utf_8"
  | utf16le => "utf_16_le"
  | utf16be => "utf_16_be"
  | utf32le => "utf_32_le"
  | utf32be => "utf_32_be"
  | latin1 => "latin_1"
  | ascii => "ascii"

/-- The encoding with a name. Dashes, underscores and the case of ASCII letters do not count. -/
def ofName? (s : String) : Option Encoding :=
  let letters := (s.toList.filter fun c => c ≠ '-' ∧ c ≠ '_').map Char.toLower
  match String.ofList letters with
  | "utf8" | "u8" => some utf8
  | "utf16le" => some utf16le
  | "utf16be" => some utf16be
  | "utf32le" => some utf32le
  | "utf32be" => some utf32be
  | "latin1" | "iso88591" | "l1" => some latin1
  | "ascii" | "usascii" => some ascii
  | _ => none

/-! ## Bytes of code points -/

def lastCodePoint : Nat := 0x10FFFF

/-- Whether a number is a code point of a character, which surrogates are not. -/
def isScalar (n : Nat) : Bool := n < 0xD800 || (0xE000 ≤ n && n ≤ lastCodePoint)

/-- One to four bytes: a lead byte that tells their number, and six bits in each of the rest. -/
def utf8Bytes (n : Nat) : List UInt8 :=
  if n < 0x80 then [UInt8.ofNat n]
  else if n < 0x800 then
    [UInt8.ofNat (0xC0 + n / 64), UInt8.ofNat (0x80 + n % 64)]
  else if n < 0x10000 then
    [UInt8.ofNat (0xE0 + n / 4096), UInt8.ofNat (0x80 + n / 64 % 64), UInt8.ofNat (0x80 + n % 64)]
  else
    [UInt8.ofNat (0xF0 + n / 262144), UInt8.ofNat (0x80 + n / 4096 % 64),
      UInt8.ofNat (0x80 + n / 64 % 64), UInt8.ofNat (0x80 + n % 64)]

/-- One unit of 16 bits, or a pair of surrogates above `0xFFFF`. -/
def utf16Units (n : Nat) : List Nat :=
  if n < 0x10000 then [n]
  else [0xD800 + (n - 0x10000) / 1024, 0xDC00 + (n - 0x10000) % 1024]

/-- The two bytes of a unit, the least significant first. -/
def unitBytesLe (u : Nat) : List UInt8 := [UInt8.ofNat (u % 256), UInt8.ofNat (u / 256)]

def unitBytesBe (u : Nat) : List UInt8 := [UInt8.ofNat (u / 256), UInt8.ofNat (u % 256)]

/-- The four bytes of a code point, the least significant first. -/
def wordBytesLe (n : Nat) : List UInt8 :=
  [UInt8.ofNat (n % 256), UInt8.ofNat (n / 256 % 256), UInt8.ofNat (n / 65536 % 256),
    UInt8.ofNat (n / 16777216)]

def wordBytesBe (n : Nat) : List UInt8 :=
  [UInt8.ofNat (n / 16777216), UInt8.ofNat (n / 65536 % 256), UInt8.ofNat (n / 256 % 256),
    UInt8.ofNat (n % 256)]

/-- The bytes of the character with code point `n`, if the encoding has it. -/
def encodeScalar (e : Encoding) (n : Nat) : Option (List UInt8) :=
  match e with
  | utf8 => some (utf8Bytes n)
  | utf16le => some ((utf16Units n).flatMap unitBytesLe)
  | utf16be => some ((utf16Units n).flatMap unitBytesBe)
  | utf32le => some (wordBytesLe n)
  | utf32be => some (wordBytesBe n)
  | latin1 => if n < 256 then some [UInt8.ofNat n] else none
  | ascii => if n < 128 then some [UInt8.ofNat n] else none

/-- The bytes of a code point, if it is one of a character that the encoding has. -/
def encode (e : Encoding) (n : Nat) : Option (List UInt8) :=
  if isScalar n then e.encodeScalar n else none

def encodeChars (e : Encoding) : List Char → Option (List UInt8)
  | [] => some []
  | c :: rest => do
    let head ← e.encode c.toNat
    let tail ← e.encodeChars rest
    pure (head ++ tail)

/-- The bytes of a text, if the encoding has all of its characters. -/
def encodeString (e : Encoding) (s : String) : Option (List UInt8) := e.encodeChars s.toList

end Encoding
end ByteMatch
