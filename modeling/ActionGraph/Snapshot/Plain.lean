import ActionGraph.Snapshot
-- A plain way to put snapshots into bytes. Reading takes exactly what was written and leaves what
-- follows alone.
namespace ActionGraph.Plain

abbrev Reader (α : Type) := List UInt8 → Option (α × List UInt8)

-- Naturals in groups of seven bits, lowest first; the high bit says that more follow.
def naturalFrom : Nat → Nat → List UInt8
  | 0, n => [UInt8.ofNat n]
  | fuel + 1, n =>
    if n < 128 then [UInt8.ofNat n]
    else UInt8.ofNat (128 + n % 128) :: naturalFrom fuel (n / 128)

def natural (n : Nat) : List UInt8 := naturalFrom n n

def natural? : Reader Nat
  | [] => none
  | b :: rest =>
    if b.toNat < 128 then some (b.toNat, rest)
    else (natural? rest).map fun (n, rest) => (b.toNat - 128 + 128 * n, rest)

def list (item : α → List UInt8) (xs : List α) : List UInt8 :=
  natural xs.length ++ xs.flatMap item

def items? (item? : Reader α) : Nat → Reader (List α)
  | 0, bytes => some ([], bytes)
  | count + 1, bytes => do
    let (x, bytes) ← item? bytes
    let (xs, bytes) ← items? item? count bytes
    return (x :: xs, bytes)

def list? (item? : Reader α) : Reader (List α) := fun bytes => do
  let (count, bytes) ← natural? bytes
  items? item? count bytes

def char (c : Char) : List UInt8 := natural c.toNat

def char? : Reader Char := fun bytes => do
  let (n, bytes) ← natural? bytes
  if h : n.isValidChar then return (Char.ofNatAux n h, bytes) else none

def text (s : String) : List UInt8 := list char s.toList

def text? : Reader String := fun bytes => (list? char? bytes).map fun (cs, rest) =>
  (String.ofList cs, rest)

def phase : Phase → List UInt8
  | .idle => natural 0
  | .running => natural 1
  | .listening => natural 2
  | .completed => natural 3
  | .cancelled => natural 4

def phase? : Reader Phase := fun bytes => do
  let (n, bytes) ← natural? bytes
  let phase ← Phase.all[n]?
  return (phase, bytes)

def flag (b : Bool) : List UInt8 := natural (if b then 1 else 0)

def flag? : Reader Bool := fun bytes => do
  let (n, bytes) ← natural? bytes
  if n < 2 then return (n = 1, bytes) else none

def status (s : Status) : List UInt8 :=
  phase s.phase ++ natural s.age ++ flag s.fresh ++ flag s.propagated

def status? : Reader Status := fun bytes => do
  let (phase, bytes) ← phase? bytes
  let (age, bytes) ← natural? bytes
  let (fresh, bytes) ← flag? bytes
  let (propagated, bytes) ← flag? bytes
  return (⟨phase, age, fresh, propagated⟩, bytes)

def pulse (p : Pulse) : List UInt8 :=
  natural p.source ++ text p.sourcePort ++ natural p.target ++ text p.targetPort

def pulse? : Reader Pulse := fun bytes => do
  let (source, bytes) ← natural? bytes
  let (sourcePort, bytes) ← text? bytes
  let (target, bytes) ← natural? bytes
  let (targetPort, bytes) ← text? bytes
  return (⟨source, sourcePort, target, targetPort⟩, bytes)

def change (c : PhaseChange) : List UInt8 := natural c.index ++ phase c.old ++ phase c.new

def change? : Reader PhaseChange := fun bytes => do
  let (index, bytes) ← natural? bytes
  let (old, bytes) ← phase? bytes
  let (new, bytes) ← phase? bytes
  return (⟨index, old, new⟩, bytes)

def snapshot (s : Snapshot) : List UInt8 :=
  natural s.tick ++ list status s.statuses ++ list pulse s.pending ++ list change s.changes

def snapshot? : Reader Snapshot := fun bytes => do
  let (tick, bytes) ← natural? bytes
  let (statuses, bytes) ← list? status? bytes
  let (pending, bytes) ← list? pulse? bytes
  let (changes, bytes) ← list? change? bytes
  return (⟨tick, statuses, pending, changes⟩, bytes)

end ActionGraph.Plain
