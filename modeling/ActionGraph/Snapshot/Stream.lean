import ActionGraph.Snapshot.History
import ActionGraph.Snapshot.Plain
-- Streams of snapshots behind a header that lets a reader refuse foreign or future data before
-- it trusts the content. How a stream becomes bytes is left to a codec.
namespace ActionGraph

def streamMagic : Nat := 0xB1E00001
def streamVersion : Nat := 1

structure Header where
  magic : Nat
  version : Nat
  count : Nat
  deriving DecidableEq

structure Stream where
  header : Header
  snapshots : List Snapshot
  deriving DecidableEq

-- Either way may fail. What keeps a stream from being written is of a type of the codec's own, so
-- that a codec that writes everything can say so; what keeps bytes from being read is told.
structure Codec (ε : Type) where
  write : Stream → Except ε (List UInt8)
  read : List UInt8 → Except String Stream

inductive Malformation where
  | bytes (cause : String)
  | count (announced held : Nat)
  | notSingle
  deriving DecidableEq

inductive StreamError (ε : Type := Empty) where
  | tooMany (count : Nat)
  | encode (cause : ε)
  | invalidMagic (magic : Nat)
  | futureVersion (version : Nat)
  | unsupportedVersion (version : Nat)
  | decode (cause : Malformation)
  deriving DecidableEq

def Malformation.message : Malformation → String
  | bytes cause => cause
  | count announced held =>
    "header announces " ++ toString announced ++ " snapshots, payload has " ++ toString held
  | notSingle => "expected exactly one snapshot"

def hexWord (n : Nat) : String :=
  let digits := (Nat.toDigits 16 n).map Char.toUpper
  "0x" ++ String.ofList (List.replicate (8 - digits.length) '0' ++ digits)

instance emptyToString : ToString Empty := ⟨nofun⟩

def StreamError.message [ToString ε] : StreamError ε → String
  | tooMany count => toString count ++ " snapshots do not fit in one stream"
  | encode cause => "bitcode encoding failed: " ++ toString cause
  | invalidMagic magic =>
    "invalid magic number: expected " ++ hexWord streamMagic ++ ", got " ++ hexWord magic
  | futureVersion version =>
    "snapshot from future version " ++ toString version ++ " (this build supports up to " ++
      toString streamVersion ++ ")"
  | unsupportedVersion version =>
    "unsupported format version: expected " ++ toString streamVersion ++ ", got " ++
      toString version
  | decode cause => "bitcode decoding failed: " ++ cause.message

namespace Header

def ofCount (count : Nat) : Except (StreamError ε) Header :=
  if count < UInt32.size then .ok ⟨streamMagic, streamVersion, count⟩ else .error (.tooMany count)

def validate (h : Header) : Except (StreamError ε) Unit :=
  if h.magic ≠ streamMagic then .error (.invalidMagic h.magic)
  else if streamVersion < h.version then .error (.futureVersion h.version)
  else if h.version < streamVersion then .error (.unsupportedVersion h.version)
  else .ok ()

end Header

namespace Codec
variable (codec : Codec ε)

def encode (snapshots : List Snapshot) : Except (StreamError ε) (List UInt8) := do
  let header ← Header.ofCount snapshots.length
  (codec.write ⟨header, snapshots⟩).mapError .encode

def decode (data : List UInt8) : Except (StreamError ε) (List Snapshot) := do
  let s ← (codec.read data).mapError fun cause => .decode (.bytes cause)
  s.header.validate
  if s.header.count = s.snapshots.length then .ok s.snapshots
  else .error (.decode (.count s.header.count s.snapshots.length))

def encodeOne (s : Snapshot) : Except (StreamError ε) (List UInt8) := codec.encode [s]

def decodeOne (data : List UInt8) : Except (StreamError ε) Snapshot := do
  match ← codec.decode data with
  | [s] => .ok s
  | _ => .error (.decode .notSingle)

def ofHistory (h : History) : Except (StreamError ε) (List UInt8) := codec.encode h.ring

end Codec

namespace Plain

def header (h : Header) : List UInt8 := natural h.magic ++ natural h.version ++ natural h.count

def header? : Reader Header := fun bytes => do
  let (magic, bytes) ← natural? bytes
  let (version, bytes) ← natural? bytes
  let (count, bytes) ← natural? bytes
  return (⟨magic, version, count⟩, bytes)

def stream (s : Stream) : List UInt8 := header s.header ++ list snapshot s.snapshots

def stream? (data : List UInt8) : Option Stream := do
  let (header, data) ← header? data
  let (snapshots, data) ← list? snapshot? data
  if data.isEmpty then return ⟨header, snapshots⟩ else none

end Plain

def Codec.plain : Codec Empty where
  write s := .ok (Plain.stream s)
  read data := ((Plain.stream? data).map .ok).getD (.error "malformed stream")

-- The streams of a program that writes them plainly.
namespace Stream

def bytes : Stream → List UInt8 := Plain.stream
def encodeOne : Snapshot → Except StreamError (List UInt8) := Codec.plain.encodeOne
def decodeOne : List UInt8 → Except StreamError Snapshot := Codec.plain.decodeOne
def ofHistory : History → Except StreamError (List UInt8) := Codec.plain.ofHistory
def decode : List UInt8 → Except StreamError (List Snapshot) := Codec.plain.decode

end Stream
end ActionGraph
