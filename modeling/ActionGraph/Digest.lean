import ActionGraph.Value
-- A 64-bit digest of a byte message (the FNV-1a fold), and the messages of the values written
-- into it. What is hashed is a list of bytes, so that statements can be about the message.
namespace ActionGraph

structure Digest where
  word : UInt64 := 0xcbf29ce484222325
  deriving DecidableEq

namespace Digest

def factor : UInt64 := 0x100000001b3

def absorb (d : Digest) (b : UInt8) : Digest := ⟨(d.word ^^^ b.toUInt64) * factor⟩

def write (d : Digest) (message : List UInt8) : Digest := message.foldl absorb d

theorem write_append (d : Digest) (m n : List UInt8) : d.write (m ++ n) = (d.write m).write n :=
  List.foldl_append

end Digest

namespace Message

def littleEndian : Nat → Nat → List UInt8
  | 0, _ => []
  | count + 1, n => UInt8.ofNat n :: littleEndian count (n / 256)

def u32 (n : Nat) : List UInt8 := littleEndian 4 n
def u64 (n : Nat) : List UInt8 := littleEndian 8 n
def flag (b : Bool) : List UInt8 := u32 (if b then 1 else 0)

-- The length goes before the bytes, so that neighbouring texts do not run together.
def text (s : String) : List UInt8 := u64 s.utf8ByteSize ++ s.toUTF8.data.toList

def value : Value → List UInt8
  | .int n => u32 0 ++ u64 n.toUInt64.toNat
  | .float x => u32 1 ++ u64 x.bits.toNat
  | .bool b => u32 2 ++ flag b
  | .text s => u32 3 ++ text s
  | .member s => u32 4 ++ text s

end Message
end ActionGraph
