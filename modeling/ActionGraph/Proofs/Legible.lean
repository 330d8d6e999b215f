import ActionGraph.Run.Fingerprint
import Mathlib.Algebra.Group.Nat.Defs
import Mathlib.Data.List.Basic
-- What is hashed can be read back. Everything written into a digest ends where it ends, whatever
-- comes behind it, so the bytes of a run tell all that a fingerprint is about, and a series of
-- writes tells each of them.
namespace ActionGraph

namespace Message

def Legible (fits : α → Prop) (write : α → List UInt8) : Prop :=
  ∀ a b x y, fits a → fits b → write a ++ x = write b ++ y → a = b ∧ x = y

@[simp] theorem littleEndian_length (count n : Nat) : (littleEndian count n).length = count := by
  induction count generalizing n with
  | zero => rfl
  | succ count ih => rw [littleEndian, List.length_cons, ih]

theorem littleEndian_inj {count a b : Nat} (below : a < 256 ^ count) (within : b < 256 ^ count)
    (same : littleEndian count a = littleEndian count b) : a = b := by
  induction count generalizing a b with
  | zero => omega
  | succ count ih =>
    obtain ⟨low, rest⟩ := List.cons.inj same
    have first : a % 256 = b % 256 := by simpa using congrArg UInt8.toNat low
    rw [Nat.pow_succ'] at below within
    have others : a / 256 = b / 256 :=
      ih (Nat.div_lt_of_lt_mul below) (Nat.div_lt_of_lt_mul within) rest
    omega

theorem legible_littleEndian (count : Nat) : Legible (· < 256 ^ count) (littleEndian count) := by
  intro a b x y below within same
  obtain ⟨number, rest⟩ := List.append_inj same (by simp)
  exact ⟨littleEndian_inj below within number, rest⟩

theorem legible_u32 : Legible (· < UInt32.size) u32 := legible_littleEndian 4

theorem legible_u64 : Legible (· < UInt64.size) u64 := legible_littleEndian 8

theorem legible_flag : Legible (fun _ => True) flag := by
  intro a b x y _ _ same
  have small (c : Bool) : (if c then 1 else 0) < UInt32.size := by cases c <;> decide
  obtain ⟨number, rest⟩ := legible_u32 _ _ _ _ (small a) (small b) same
  refine ⟨?_, rest⟩
  cases a <;> cases b <;> first | rfl | cases number

theorem legible_text : Legible (·.utf8ByteSize < UInt64.size) text := by
  intro a b x y short short' same
  simp only [text, List.append_assoc] at same
  obtain ⟨size, same⟩ := legible_u64 _ _ _ _ short short' same
  obtain ⟨bytes, rest⟩ := List.append_inj same (by simpa using size)
  refine ⟨String.toByteArray_inj.mp (ByteArray.ext (Array.toList_inj.mp bytes)), rest⟩

end Message

namespace Value

def tag : Value → Nat
  | int _ => 0
  | float _ => 1
  | bool _ => 2
  | text _ => 3
  | member _ => 4

def body : Value → List UInt8
  | int n => Message.u64 n.toUInt64.toNat
  | float x => Message.u64 x.bits.toNat
  | bool b => Message.flag b
  | text s | member s => Message.text s

def Fits : Value → Prop
  | text s | member s => s.utf8ByteSize < UInt64.size
  | _ => True

theorem message_eq (v : Value) : Message.value v = Message.u32 v.tag ++ v.body := by cases v <;> rfl

theorem tag_lt (v : Value) : v.tag < UInt32.size := by cases v <;> simp [tag, UInt32.size]

end Value

namespace Message

theorem legible_value : Legible Value.Fits value := by
  intro a b x y fits fits' same
  rw [a.message_eq, b.message_eq, List.append_assoc, List.append_assoc] at same
  obtain ⟨tags, same⟩ := legible_u32 _ _ _ _ a.tag_lt b.tag_lt same
  cases a with
  | int n =>
    cases b with
    | int m =>
      obtain ⟨number, rest⟩ := legible_u64 _ _ _ _ n.toUInt64.toNat_lt m.toUInt64.toNat_lt same
      cases n
      cases m
      cases UInt64.toNat_inj.mp number
      exact ⟨rfl, rest⟩
    | _ => cases tags
  | float u =>
    cases b with
    | float v =>
      obtain ⟨number, rest⟩ := legible_u64 _ _ _ _ u.bits.toNat_lt v.bits.toNat_lt same
      cases u
      cases v
      cases UInt64.toNat_inj.mp number
      exact ⟨rfl, rest⟩
    | _ => cases tags
  | bool p =>
    cases b with
    | bool q =>
      obtain ⟨rfl, rest⟩ := legible_flag _ _ _ _ trivial trivial same
      exact ⟨rfl, rest⟩
    | _ => cases tags
  | text s =>
    cases b with
    | text t =>
      obtain ⟨rfl, rest⟩ := legible_text _ _ _ _ fits fits' same
      exact ⟨rfl, rest⟩
    | _ => cases tags
  | member s =>
    cases b with
    | member t =>
      obtain ⟨rfl, rest⟩ := legible_text _ _ _ _ fits fits' same
      exact ⟨rfl, rest⟩
    | _ => cases tags

theorem legible_phase : Legible (fun _ => True) phase := by
  intro a b x y _ _ same
  have numbered (p : Phase) : phase p = u32 (Phase.all.idxOf p) ∧ Phase.all.idxOf p < UInt32.size := by
    cases p <;> exact ⟨rfl, by decide⟩
  rw [(numbered a).1, (numbered b).1] at same
  obtain ⟨number, rest⟩ := legible_u32 _ _ _ _ (numbered a).2 (numbered b).2 same
  refine ⟨(List.idxOf_inj ?_).mp number, rest⟩
  cases a <;> decide

theorem legible_status : Legible (·.age < UInt64.size) status := by
  rintro ⟨p, age, fresh, sent⟩ ⟨p', age', fresh', sent'⟩ x y young young' same
  simp only [status, List.append_assoc] at same
  obtain ⟨rfl, afterPhase⟩ := legible_phase _ _ _ _ trivial trivial same
  obtain ⟨rfl, afterAge⟩ := legible_u64 _ _ _ _ young young' afterPhase
  obtain ⟨rfl, afterFresh⟩ := legible_flag _ _ _ _ trivial trivial afterAge
  obtain ⟨rfl, rest⟩ := legible_flag _ _ _ _ trivial trivial afterFresh
  exact ⟨rfl, rest⟩

end Message

structure Pulse.Fits (q : Pulse) : Prop where
  source : q.source < UInt32.size
  sourcePort : q.sourcePort.utf8ByteSize < UInt64.size
  target : q.target < UInt32.size
  targetPort : q.targetPort.utf8ByteSize < UInt64.size

namespace Message

theorem legible_pulse : Legible Pulse.Fits pulse := by
  rintro ⟨i, port, j, port'⟩ ⟨k, port₂, l, port₃⟩ x y fits fits' same
  simp only [pulse, List.append_assoc] at same
  obtain ⟨rfl, afterSource⟩ := legible_u32 _ _ _ _ fits.source fits'.source same
  obtain ⟨rfl, afterPort⟩ := legible_text _ _ _ _ fits.sourcePort fits'.sourcePort afterSource
  obtain ⟨rfl, afterTarget⟩ := legible_u32 _ _ _ _ fits.target fits'.target afterPort
  obtain ⟨rfl, rest⟩ := legible_text _ _ _ _ fits.targetPort fits'.targetPort afterTarget
  exact ⟨rfl, rest⟩

theorem legible_entry : Legible (fun e => e.1.utf8ByteSize < UInt64.size ∧ e.2.Fits) entry := by
  rintro ⟨key, v⟩ ⟨key', v'⟩ x y fits fits' same
  simp only [entry, List.append_assoc] at same
  obtain ⟨rfl, afterKey⟩ := legible_text _ _ _ _ fits.1 fits'.1 same
  obtain ⟨rfl, rest⟩ := legible_value _ _ _ _ fits.2 fits'.2 afterKey
  exact ⟨rfl, rest⟩

theorem Legible.items {fits : α → Prop} {item : α → List UInt8} (legible : Legible fits item)
    {as bs : List α} (size : as.length = bs.length) (all : ∀ a ∈ as, fits a) (all' : ∀ b ∈ bs, fits b)
    (same : as.flatMap item ++ x = bs.flatMap item ++ y) : as = bs ∧ x = y := by
  induction as generalizing bs with
  | nil =>
    cases List.length_eq_zero_iff.mp size.symm
    exact ⟨rfl, same⟩
  | cons a as ih =>
    cases bs with
    | nil => cases size
    | cons b bs =>
      obtain ⟨first, others⟩ := List.forall_mem_cons.mp all
      obtain ⟨first', others'⟩ := List.forall_mem_cons.mp all'
      simp only [List.flatMap_cons, List.append_assoc] at same
      obtain ⟨rfl, afterFirst⟩ := legible _ _ _ _ first first' same
      obtain ⟨rfl, rest⟩ := ih (Nat.succ.inj size) others others' afterFirst
      exact ⟨rfl, rest⟩

theorem Legible.list {fits : α → Prop} {item : α → List UInt8} (legible : Legible fits item) :
    Legible (fun as => as.length < UInt64.size ∧ ∀ a ∈ as, fits a) (list item) := by
  intro as bs x y fits fits' same
  simp only [Message.list, List.append_assoc] at same
  obtain ⟨size, same⟩ := legible_u64 _ _ _ _ fits.1 fits'.1 same
  exact legible.items size fits.2 fits'.2 same

end Message

structure Run.Fits (r : Run) : Prop where
  tick : r.tick < UInt64.size
  statuses : r.statuses.length < UInt64.size ∧ ∀ s ∈ r.statuses, s.age < UInt64.size
  pending : r.pending.length < UInt64.size ∧ ∀ q ∈ r.pending, q.Fits
  board : r.board.entries.length < UInt64.size ∧
    ∀ e ∈ r.board.entries, e.1.utf8ByteSize < UInt64.size ∧ e.2.Fits

theorem Run.Fits.beginTick {r : Run} (fits : r.Fits) (room : r.tick + 1 < UInt64.size) :
    r.beginTick.Fits := ⟨room, fits.statuses, fits.pending, fits.board⟩

theorem Message.run_inj {r r' : Run} (fits : r.Fits) (fits' : r'.Fits) (same : run r = run r') :
    r.tick = r'.tick ∧ r.statuses = r'.statuses ∧ r.pending = r'.pending ∧ r.board = r'.board := by
  simp only [run, List.append_assoc] at same
  obtain ⟨tick, same⟩ := legible_u64 _ _ _ _ fits.tick fits'.tick same
  obtain ⟨statuses, same⟩ := legible_status.list _ _ _ _ fits.statuses fits'.statuses same
  obtain ⟨pending, same⟩ := legible_pulse.list _ _ _ _ fits.pending fits'.pending same
  obtain ⟨board, _⟩ := legible_entry.list _ _ [] [] fits.board fits'.board (by simpa using same)
  exact ⟨tick, statuses, pending, Keyed.ext board⟩

inductive Write where
  | bytes (raw : List UInt8)
  | word32 (n : UInt32)
  | word64 (n : UInt64)
  | text (s : String)
  | value (v : Value)

namespace Write

def message : Write → List UInt8
  | bytes raw => raw
  | word32 n => Message.u32 n.toNat
  | word64 n => Message.u64 n.toNat
  | text s => Message.text s
  | value v => Message.value v

def Fits : Write → Prop
  | text s => s.utf8ByteSize < UInt64.size
  | value v => v.Fits
  | _ => True

inductive SameKind : Write → Write → Prop where
  | bytes (size : raw.length = raw'.length) : SameKind (bytes raw) (bytes raw')
  | word32 : SameKind (word32 n) (word32 n')
  | word64 : SameKind (word64 n) (word64 n')
  | text : SameKind (text s) (text s')
  | value : SameKind (value v) (value v')

theorem legible {w w' : Write} (kind : SameKind w w') (fits : w.Fits) (fits' : w'.Fits)
    (same : w.message ++ x = w'.message ++ y) : w = w' ∧ x = y := by
  cases kind with
  | bytes size =>
    obtain ⟨rfl, rest⟩ := List.append_inj same size
    exact ⟨rfl, rest⟩
  | @word32 n n' =>
    obtain ⟨number, same⟩ := Message.legible_u32 _ _ _ _ n.toNat_lt n'.toNat_lt same
    exact ⟨congrArg word32 (UInt32.toNat_inj.mp number), same⟩
  | @word64 n n' =>
    obtain ⟨number, same⟩ := Message.legible_u64 _ _ _ _ n.toNat_lt n'.toNat_lt same
    exact ⟨congrArg word64 (UInt64.toNat_inj.mp number), same⟩
  | text =>
    obtain ⟨rfl, rest⟩ := Message.legible_text _ _ _ _ fits fits' same
    exact ⟨rfl, rest⟩
  | value =>
    obtain ⟨rfl, rest⟩ := Message.legible_value _ _ _ _ fits fits' same
    exact ⟨rfl, rest⟩

def stream (ws : List Write) : List UInt8 := ws.flatMap message

theorem stream_inj {ws ws' : List Write} (kinds : List.Forall₂ SameKind ws ws')
    (fits : ∀ w ∈ ws, w.Fits) (fits' : ∀ w ∈ ws', w.Fits) (same : stream ws = stream ws') :
    ws = ws' := by
  induction kinds with
  | nil => rfl
  | cons kind _ ih =>
    obtain ⟨first, others⟩ := List.forall_mem_cons.mp fits
    obtain ⟨first', others'⟩ := List.forall_mem_cons.mp fits'
    obtain ⟨rfl, rest⟩ := legible kind first first' same
    rw [ih others others' rest]

end Write

-- Equal bytes come from equal states, and from equal writes where the kinds of the writes are known.
theorem streams_tell_what_was_written :
    (∀ r r' : Run, r.Fits → r'.Fits → (Message.run r = Message.run r' ↔
      r.tick = r'.tick ∧ r.statuses = r'.statuses ∧ r.pending = r'.pending ∧ r.board = r'.board)) ∧
    ∀ ws ws' : List Write, List.Forall₂ Write.SameKind ws ws' → (∀ w ∈ ws, w.Fits) →
      (∀ w ∈ ws', w.Fits) → (Write.stream ws = Write.stream ws' ↔ ws = ws') := by
  constructor
  · intro r r' fits fits'
    refine ⟨Message.run_inj fits fits', ?_⟩
    rintro ⟨tick, statuses, pending, board⟩
    rw [Message.run, Message.run, tick, statuses, pending, board]
  · intro ws ws' kinds fits fits'
    exact ⟨Write.stream_inj kinds fits fits', congrArg Write.stream⟩

def lamp : Run where
  plan := ⟨{}, ∅, 0, ∅, [], [], []⟩
  statuses := [{}, { phase := .running, age := 3 }]
  pending := [⟨0, "out", 1, "in"⟩]
  board := (∅ : Keyed Value).insert "lamp" (.text "on")

theorem lamp_fits : lamp.Fits where
  tick := by decide
  statuses := by decide
  pending := by
    refine ⟨by decide, List.forall_mem_singleton.mpr ?_⟩
    constructor <;> decide
  board := by
    refine ⟨by decide, List.forall_mem_singleton.mpr ⟨by decide, ?_⟩⟩
    show "on".utf8ByteSize < UInt64.size
    decide

theorem lamp_is_told : Message.run lamp ≠ Message.run lamp.beginTick ∧
    Write.stream [.text "ab", .text "c"] ≠ Write.stream [.text "a", .text "bc"] := by
  constructor
  · intro same
    have told := streams_tell_what_was_written.1 _ _ lamp_fits (lamp_fits.beginTick (by decide))
    cases (told.mp same).1
  · intro same
    have told := streams_tell_what_was_written.2 [.text "ab", .text "c"] [.text "a", .text "bc"]
      (.cons .text (.cons .text .nil)) (by simp [Write.Fits]; decide) (by simp [Write.Fits]; decide)
    simpa using told.mp same

end ActionGraph
