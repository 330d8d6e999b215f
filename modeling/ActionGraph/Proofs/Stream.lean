import ActionGraph.Proofs.Plan
import ActionGraph.Snapshot.Stream
-- Streams lose nothing that their codec does not lose. What was written is read back whole, and what
-- is refused is refused by the codec, for its header or for the number of its snapshots. The plain
-- codec loses nothing: each of its readers takes from a list of bytes exactly what its writer put
-- there and leaves the rest.
namespace ActionGraph

namespace Plain

theorem natural?_naturalFrom {fuel n : Nat} (enough : n ≤ fuel) (rest : List UInt8) :
    natural? (naturalFrom fuel n ++ rest) = some (n, rest) := by
  induction fuel generalizing n with
  | zero =>
    obtain rfl : n = 0 := Nat.le_zero.mp enough
    rfl
  | succ fuel ih =>
    unfold naturalFrom
    split
    · next small =>
      have byte : (UInt8.ofNat n).toNat = n :=
        UInt8.toNat_ofNat_of_lt' (Nat.lt_trans small (by decide))
      simp only [List.cons_append, List.nil_append, natural?, byte, small, if_true]
    · next large =>
      have byte : (UInt8.ofNat (128 + n % 128)).toNat = 128 + n % 128 :=
        UInt8.toNat_ofNat_of_lt' (Nat.add_lt_add_left (Nat.mod_lt n (by decide)) 128)
      have carries : ¬128 + n % 128 < 128 := by omega
      simp only [List.cons_append, natural?, byte, carries, if_false, ih (n := n / 128) (by omega),
        Option.map_some, Option.some.injEq, Prod.mk.injEq, and_true]
      omega

@[simp] theorem natural?_natural (n : Nat) (rest : List UInt8) :
    natural? (natural n ++ rest) = some (n, rest) := natural?_naturalFrom (Nat.le_refl n) rest

section Lists
variable {item : α → List UInt8} {item? : Reader α}
  (recovers : ∀ a rest, item? (item a ++ rest) = some (a, rest))
include recovers

theorem items?_flatMap (xs : List α) (rest : List UInt8) :
    items? item? xs.length (xs.flatMap item ++ rest) = some (xs, rest) := by
  induction xs with
  | nil => rfl
  | cons x xs ih =>
    simp only [List.length_cons, List.flatMap_cons, List.append_assoc, items?, recovers, ih,
      Option.bind_eq_bind, Option.bind_some, Option.pure_def]

theorem list?_list (xs : List α) (rest : List UInt8) :
    list? item? (list item xs ++ rest) = some (xs, rest) := by
  simp only [list, list?, List.append_assoc, natural?_natural, items?_flatMap recovers,
    Option.bind_eq_bind, Option.bind_some]

end Lists

theorem char?_char (c : Char) (rest : List UInt8) : char? (char c ++ rest) = some (c, rest) := by
  have valid : c.toNat.isValidChar := c.valid
  have same : Char.ofNatAux c.toNat valid = c := by
    apply Char.ext
    rfl
  rw [char, char?, natural?_natural]
  refine (dif_pos valid).trans ?_
  rw [same]
  rfl

@[simp] theorem text?_text (s : String) (rest : List UInt8) :
    text? (text s ++ rest) = some (s, rest) := by
  simp [text, text?, list?_list char?_char]

@[simp] theorem phase?_phase (p : Phase) (rest : List UInt8) :
    phase? (phase p ++ rest) = some (p, rest) := by
  cases p <;> simp [phase, phase?, Phase.all]

@[simp] theorem flag?_flag (b : Bool) (rest : List UInt8) : flag? (flag b ++ rest) = some (b, rest) := by
  cases b <;> simp [flag, flag?]

theorem status?_status (s : Status) (rest : List UInt8) :
    status? (status s ++ rest) = some (s, rest) := by simp [status, status?]

theorem pulse?_pulse (p : Pulse) (rest : List UInt8) : pulse? (pulse p ++ rest) = some (p, rest) := by
  simp [pulse, pulse?]

theorem change?_change (c : PhaseChange) (rest : List UInt8) :
    change? (change c ++ rest) = some (c, rest) := by simp [change, change?]

theorem snapshot?_snapshot (s : Snapshot) (rest : List UInt8) :
    snapshot? (snapshot s ++ rest) = some (s, rest) := by
  simp [snapshot, snapshot?, list?_list status?_status, list?_list pulse?_pulse,
    list?_list change?_change]

theorem header?_header (h : Header) (rest : List UInt8) :
    header? (header h ++ rest) = some (h, rest) := by simp [header, header?]

theorem stream?_stream (s : Stream) : stream? (stream s) = some s := by
  have whole := list?_list snapshot?_snapshot s.snapshots []
  rw [List.append_nil] at whole
  simp [stream, stream?, header?_header, whole]

end Plain

-- What stands in the way of a stream with so many snapshots: the first check that fails.
inductive Header.Refuses (h : Header) (held : Nat) : StreamError ε → Prop where
  | foreign (magic : h.magic ≠ streamMagic) : Refuses h held (.invalidMagic h.magic)
  | newer (magic : h.magic = streamMagic) (version : streamVersion < h.version) :
    Refuses h held (.futureVersion h.version)
  | older (magic : h.magic = streamMagic) (version : h.version < streamVersion) :
    Refuses h held (.unsupportedVersion h.version)
  | miscounted (magic : h.magic = streamMagic) (version : h.version = streamVersion)
    (count : h.count ≠ held) : Refuses h held (.decode (.count h.count held))

def Header.Admits (h : Header) (held : Nat) : Prop :=
  h.magic = streamMagic ∧ h.version = streamVersion ∧ h.count = held

theorem Header.admits_or_refuses (h : Header) (held : Nat) :
    h.Admits held ∨ ∃ e : StreamError ε, h.Refuses held e := by
  by_cases magic : h.magic = streamMagic
  · rcases Nat.lt_trichotomy h.version streamVersion with older | version | newer
    · exact .inr ⟨_, .older magic older⟩
    · by_cases count : h.count = held
      · exact .inl ⟨magic, version, count⟩
      · exact .inr ⟨_, .miscounted magic version count⟩
    · exact .inr ⟨_, .newer magic newer⟩
  · exact .inr ⟨_, .foreign magic⟩

def Stream.ours (held : List Snapshot) : Stream := ⟨⟨streamMagic, streamVersion, held.length⟩, held⟩

namespace Codec
variable {codec : Codec ε}

-- Whatever a codec writes it reads back as it was.
def Lossless (codec : Codec ε) : Prop :=
  ∀ s data, codec.write s = .ok data → codec.read data = .ok s

theorem plain_lossless : plain.Lossless := by
  intro s data written
  obtain rfl : Plain.stream s = data := Except.ok.inj written
  simp [plain, Plain.stream?_stream]

def Writes (codec : Codec ε) (s : Stream) : Prop := ∃ data, codec.write s = .ok data

theorem plain_writes (s : Stream) : plain.Writes s := ⟨Plain.stream s, rfl⟩

section Decode
variable {h : Header} {held : List Snapshot}
  (lossless : codec.Lossless) (written : codec.write ⟨h, held⟩ = .ok data)
include lossless written

theorem decode_admitted (admits : h.Admits held.length) : codec.decode data = .ok held := by
  obtain ⟨magic, version, count⟩ := admits
  simp [decode, lossless _ _ written, Except.mapError, bind, Except.bind, Header.validate, magic,
    version, count]

theorem decode_refused (refuses : h.Refuses held.length e) : codec.decode data = .error e := by
  simp only [decode, lossless _ _ written, Except.mapError, bind, Except.bind, Header.validate]
  cases refuses with
  | foreign magic => simp [magic]
  | newer magic newer => simp [magic, newer]
  | older magic older => simp [magic, older, Nat.lt_asymm older]
  | miscounted magic version count => simp [magic, version, count]

theorem decode_ok_iff : codec.decode data = .ok got ↔ h.Admits held.length ∧ got = held := by
  constructor
  · intro decodes
    rcases h.admits_or_refuses held.length with admits | ⟨e : StreamError ε, refuses⟩
    · rw [decode_admitted lossless written admits, Except.ok.injEq] at decodes
      exact ⟨admits, decodes.symm⟩
    · rw [decode_refused lossless written refuses] at decodes
      cases decodes
  · rintro ⟨admits, rfl⟩
    exact decode_admitted lossless written admits

theorem decode_error_iff : codec.decode data = .error e ↔ h.Refuses held.length e := by
  constructor
  · intro decodes
    rcases h.admits_or_refuses held.length with admits | ⟨e', refuses⟩
    · rw [decode_admitted lossless written admits] at decodes
      cases decodes
    · rw [decode_refused lossless written refuses, Except.error.injEq] at decodes
      exact decodes ▸ refuses
  · exact decode_refused lossless written

end Decode

theorem decode_unread (unread : codec.read data = .error cause) :
    codec.decode data = .error (.decode (.bytes cause)) := by
  simp [decode, unread, Except.mapError, bind, Except.bind]

theorem decodeOne_ok_iff : codec.decodeOne data = .ok one ↔ codec.decode data = .ok [one] := by
  rw [decodeOne, bind_ok_iff]
  constructor
  · rintro ⟨held, decodes, single⟩
    split at single
    · rw [decodes, Except.ok.inj single]
    · cases single
  · intro decodes
    exact ⟨[one], decodes, rfl⟩

theorem decodeOne_error_iff : codec.decodeOne data = .error e ↔ codec.decode data = .error e ∨
    ∃ held, codec.decode data = .ok held ∧ held.length ≠ 1 ∧ e = .decode .notSingle := by
  rw [decodeOne, bind_error_iff]
  refine or_congr_right (exists_congr fun held => and_congr_right fun _ => ?_)
  split
  · simp
  · next other =>
    have several : held.length ≠ 1 := by
      intro single
      obtain ⟨one, same⟩ := List.length_eq_one_iff.mp single
      exact other one same
    simp [several, eq_comm]

theorem encode_ok_iff : codec.encode held = .ok data ↔
    held.length < UInt32.size ∧ codec.write (.ours held) = .ok data := by
  rw [encode, bind_ok_iff]
  by_cases few : held.length < UInt32.size
  · simp [Header.ofCount, few, mapError_ok_iff, Stream.ours]
  · simp [Header.ofCount, few]

theorem encode_error_iff : codec.encode held = .error e ↔
    UInt32.size ≤ held.length ∧ e = .tooMany held.length ∨
      held.length < UInt32.size ∧ ∃ cause, codec.write (.ours held) = .error cause ∧ e = .encode cause := by
  rw [encode, bind_error_iff]
  by_cases few : held.length < UInt32.size
  · simp [Header.ofCount, few, Nat.not_le.mpr few, mapError_error_iff, Stream.ours,
      eq_comm (a := e)]
  · simp [Header.ofCount, few, Nat.not_lt.mp few, eq_comm]

theorem one_returns (lossless : codec.Lossless) (s : Snapshot) :
    (∃ data, codec.encodeOne s = .ok data ∧ codec.decodeOne data = .ok s) ↔
      codec.Writes (.ours [s]) := by
  have few : [s].length < UInt32.size := by simp [UInt32.size]
  constructor
  · rintro ⟨data, encodes, _⟩
    exact ⟨data, (encode_ok_iff.mp encodes).2⟩
  · rintro ⟨data, written⟩
    exact ⟨data, encode_ok_iff.mpr ⟨few, written⟩,
      decodeOne_ok_iff.mpr (decode_admitted lossless written ⟨rfl, rfl, rfl⟩)⟩

theorem history_returns (lossless : codec.Lossless) (history : History) :
    (∃ data, codec.ofHistory history = .ok data ∧ codec.decode data = .ok history.ring ∧
        ∀ one, codec.decodeOne data = .ok one ↔ history.ring = [one]) ↔
      history.ring.length < UInt32.size ∧ codec.Writes (.ours history.ring) := by
  constructor
  · rintro ⟨data, encodes, _⟩
    obtain ⟨fits, written⟩ := encode_ok_iff.mp encodes
    exact ⟨fits, data, written⟩
  · rintro ⟨fits, data, written⟩
    have decodes := decode_admitted lossless written ⟨rfl, rfl, rfl⟩
    refine ⟨data, encode_ok_iff.mpr ⟨fits, written⟩, decodes, fun one => ?_⟩
    rw [decodeOne_ok_iff, decodes, Except.ok.injEq]

-- A snapshot and a history come back as they were unless the codec fails, which is then told, and a
-- history as one snapshot just if it holds one. Under any header, a stream that was written is read for
-- what it holds if the header is ours and counts right, and is refused else for the first check that
-- fails; the reader of one snapshot agrees, and refuses what is admitted but does not hold exactly one.
theorem reads_what_was_written (lossless : codec.Lossless) (s : Snapshot) (history : History)
    (h : Header) (held : List Snapshot) :
    ((∃ data, codec.encodeOne s = .ok data ∧ codec.decodeOne data = .ok s) ↔
      codec.Writes (.ours [s])) ∧
    (∀ e, codec.encodeOne s = .error e ↔
      ∃ cause, codec.write (.ours [s]) = .error cause ∧ e = .encode cause) ∧
    ((∃ data, codec.ofHistory history = .ok data ∧ codec.decode data = .ok history.ring ∧
        ∀ one, codec.decodeOne data = .ok one ↔ history.ring = [one]) ↔
      history.ring.length < UInt32.size ∧ codec.Writes (.ours history.ring)) ∧
    (∀ e, codec.ofHistory history = .error e ↔
      UInt32.size ≤ history.ring.length ∧ e = .tooMany history.ring.length ∨
        history.ring.length < UInt32.size ∧
          ∃ cause, codec.write (.ours history.ring) = .error cause ∧ e = .encode cause) ∧
    (∀ data, codec.write ⟨h, held⟩ = .ok data →
      (∀ got, codec.decode data = .ok got ↔
        h.magic = streamMagic ∧ h.version = streamVersion ∧ h.count = held.length ∧ got = held) ∧
      (∀ e, codec.decode data = .error e ↔ h.Refuses held.length e) ∧
      (∀ one, codec.decodeOne data = .ok one ↔
        h.magic = streamMagic ∧ h.version = streamVersion ∧ h.count = held.length ∧ held = [one]) ∧
      ∀ e, codec.decodeOne data = .error e ↔ h.Refuses held.length e ∨
        h.magic = streamMagic ∧ h.version = streamVersion ∧ h.count = held.length ∧
          held.length ≠ 1 ∧ e = .decode .notSingle) ∧
    ∀ data cause, codec.read data = .error cause →
      codec.decode data = .error (.decode (.bytes cause)) ∧
        codec.decodeOne data = .error (.decode (.bytes cause)) := by
  have few : [s].length < UInt32.size := by simp [UInt32.size]
  refine ⟨one_returns lossless s, fun e => ?_, history_returns lossless history,
    fun e => encode_error_iff, fun data written => ?_, fun data cause unread => ?_⟩
  · simp only [encodeOne, encode_error_iff, few, Nat.not_le.mpr few, false_and, false_or, true_and]
  · have read : ∀ got, codec.decode data = .ok got ↔ h.Admits held.length ∧ got = held :=
      fun _ => decode_ok_iff lossless written
    have refused : ∀ e, codec.decode data = .error e ↔ h.Refuses held.length e :=
      fun _ => decode_error_iff lossless written
    refine ⟨fun got => ?_, refused, fun one => ?_, fun e => ?_⟩
    · rw [read, Header.Admits, and_assoc, and_assoc]
    · rw [decodeOne_ok_iff, read, Header.Admits, and_assoc, and_assoc, eq_comm (a := [one])]
    · simp only [decodeOne_error_iff, refused, read, Header.Admits]
      constructor
      · rintro (refuses | ⟨_, ⟨⟨magic, version, count⟩, rfl⟩, several, rfl⟩)
        · exact .inl refuses
        · exact .inr ⟨magic, version, count, several, rfl⟩
      · rintro (refuses | ⟨magic, version, count, several, rfl⟩)
        · exact .inl refuses
        · exact .inr ⟨held, ⟨⟨magic, version, count⟩, rfl⟩, several, rfl⟩
  · have failed := decode_unread unread
    exact ⟨failed, decodeOne_error_iff.mpr (.inl failed)⟩

def sample : Snapshot :=
  ⟨3, [⟨.running, 2, false, true⟩, ⟨.idle, 0, false, false⟩], [⟨0, "out", 1, "in"⟩],
    [⟨0, .idle, .running⟩]⟩

theorem plain_reads_what_was_written :
    (∃ data, plain.encodeOne sample = .ok data ∧ plain.decodeOne data = .ok sample) ∧
    (∃ data, plain.ofHistory { capacity := 4, ring := [{}, sample] } = .ok data ∧
      plain.decode data = .ok [{}, sample] ∧ ∀ one, plain.decodeOne data ≠ .ok one) ∧
    plain.decode (Plain.stream ⟨⟨streamMagic, 2, 0⟩, [sample]⟩) = .error (.futureVersion 2) := by
  obtain ⟨single, _, several, _, headed, _⟩ := reads_what_was_written plain_lossless sample
    { capacity := 4, ring := [{}, sample] } ⟨streamMagic, 2, 0⟩ [sample]
  obtain ⟨data, encodes, decodes, one⟩ := several.mpr ⟨by decide, plain_writes _⟩
  refine ⟨single.mpr (plain_writes _), ⟨data, encodes, decodes, fun s whole => ?_⟩, ?_⟩
  · exact absurd ((one s).mp whole) (by simp)
  · obtain ⟨_, refused, _⟩ := headed _ rfl
    exact (refused _).mpr (.newer rfl (by decide))

end Codec

theorem Stream.one_returns (s : Snapshot) :
    ∃ data, Stream.encodeOne s = .ok data ∧ Stream.decodeOne data = .ok s :=
  (Codec.one_returns Codec.plain_lossless s).mpr (Codec.plain_writes _)

theorem Stream.history_returns (history : History) (few : history.ring.length < UInt32.size) :
    ∃ data, Stream.ofHistory history = .ok data ∧ Stream.decode data = .ok history.ring ∧
      ∀ one, Stream.decodeOne data = .ok one ↔ history.ring = [one] :=
  (Codec.history_returns Codec.plain_lossless history).mpr ⟨few, Codec.plain_writes _⟩

end ActionGraph
