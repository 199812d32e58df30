/-! The 64-bit FNV-1a hash of text. -/

namespace Scriptlet.Text

/-- The hash of the empty text. -/
def hashBasis : UInt64 := 0xcbf29ce484222325

/-- The number that every step multiplies by. -/
def hashPrime : UInt64 := 0x100000001b3

/-- One step of the hash: a byte is mixed in, then all is multiplied modulo 2^64. -/
def hashByte (h : UInt64) (b : UInt8) : UInt64 := (h ^^^ b.toUInt64) * hashPrime

/-- The FNV-1a hash of the UTF-8 bytes of a text. -/
def hash (s : String) : UInt64 := s.toUTF8.toList.foldl hashByte hashBasis

end Scriptlet.Text
