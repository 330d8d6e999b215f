import ActionGraph.Proofs.Legible
import Mathlib.Data.List.TakeDrop
-- A digest misses no change of one byte. Absorbing a byte can be undone, so what differs once
-- differs for good, and a fingerprint tells the phase and the flags of every action.
namespace ActionGraph

namespace Message

-- Messages that are the same but for one byte.
inductive OneByteOff : List UInt8 → List UInt8 → Prop where
  | intro (before after : List UInt8) (differ : x ≠ y) :
      OneByteOff (before ++ x :: after) (before ++ y :: after)

namespace OneByteOff

theorem behind (off : OneByteOff m n) (before : List UInt8) :
    OneByteOff (before ++ m) (before ++ n) := by
  cases off with
  | intro first after differ =>
    have longer := OneByteOff.intro (before ++ first) after differ
    simpa only [List.append_assoc] using longer

theorem ahead (off : OneByteOff m n) (after : List UInt8) :
    OneByteOff (m ++ after) (n ++ after) := by
  cases off with
  | intro before last differ =>
    have longer := OneByteOff.intro before (last ++ after) differ
    simpa only [List.append_assoc, List.cons_append] using longer

theorem of_position {m n : List UInt8} (size : m.length = n.length)
    (only : ∃! i : Nat, m[i]? ≠ n[i]?) : OneByteOff m n := by
  obtain ⟨i, differs, unique⟩ := only
  have same : ∀ j, j ≠ i → m[j]? = n[j]? := by
    intro j other
    apply Classical.byContradiction
    intro differ
    exact other (unique j differ)
  have inside : i < m.length := by
    apply Nat.lt_of_not_le
    intro outside
    apply differs
    rw [List.getElem?_eq_none outside, List.getElem?_eq_none (size ▸ outside)]
  have inside' : i < n.length := size ▸ inside
  have before : m.take i = n.take i := by
    apply List.ext_getElem?
    intro j
    simp only [List.getElem?_take]
    split
    · next early => exact same j (Nat.ne_of_lt early)
    · rfl
  have after : m.drop (i + 1) = n.drop (i + 1) := by
    apply List.ext_getElem?
    intro j
    simp only [List.getElem?_drop]
    exact same (i + 1 + j) (by omega)
  have differ : m[i] ≠ n[i] := by
    intro equal
    apply differs
    rw [List.getElem?_eq_getElem inside, List.getElem?_eq_getElem inside', equal]
  have cut := OneByteOff.intro (m.take i) (m.drop (i + 1)) differ
  have whole : m.take i ++ m[i] :: m.drop (i + 1) = m := by
    rw [List.cons_getElem_drop_succ, List.take_append_drop]
  have whole' : m.take i ++ n[i] :: m.drop (i + 1) = n := by
    rw [before, after, List.cons_getElem_drop_succ, List.take_append_drop]
  rwa [whole, whole'] at cut

end OneByteOff
end Message

namespace Digest

theorem word_inj {d e : Digest} : d.word = e.word ↔ d = e := by
  cases d
  cases e
  simp

-- The factor is odd, so in 64 bits it has an inverse.
theorem factor_cancels {x y : UInt64} (same : x * factor = y * factor) : x = y := by
  have undone : factor * 0xce965057aff6957b = 1 := by decide
  have product := congrArg (· * 0xce965057aff6957b) same
  simpa only [UInt64.mul_assoc, undone, UInt64.mul_one] using product

theorem absorb_inj {d e : Digest} {b c : UInt8} (same : d.absorb b = e.absorb c) :
    d.word ^^^ b.toUInt64 = e.word ^^^ c.toUInt64 :=
  factor_cancels (congrArg word same)

-- By induction on the message: each byte of it can be undone.
theorem write_inj {d e : Digest} {m : List UInt8} (same : d.write m = e.write m) : d = e := by
  induction m generalizing d e with
  | nil => exact same
  | cons b rest ih =>
    have absorbed : d.absorb b = e.absorb b := ih same
    apply word_inj.mp
    exact (UInt64.xor_left_inj _).mp (absorb_inj absorbed)

theorem write_off {m n : List UInt8} (off : Message.OneByteOff m n) (d : Digest) :
    d.write m ≠ d.write n := by
  cases off with
  | @intro x y before after differ =>
    intro same
    simp only [write_append] at same
    have absorbed : (d.write before).absorb x = (d.write before).absorb y := write_inj same
    have widened := (UInt64.xor_right_inj _).mp (absorb_inj absorbed)
    exact differ (UInt8.toUInt64_inj.mp widened)

end Digest

inductive Status.Off : Status → Status → Prop where
  | phase (s : Status) (next : Phase) (differ : s.phase ≠ next) : s.Off { s with phase := next }
  | fresh (s : Status) : s.Off { s with fresh := !s.fresh }
  | propagated (s : Status) : s.Off { s with propagated := !s.propagated }

-- Runs that agree on all that a fingerprint is about but for the status of one action, which
-- differs in its phase or in one of its flags.
structure Run.OffAt (i : Nat) (r r' : Run) : Prop where
  tick : r'.tick = r.tick
  pending : r'.pending = r.pending
  board : r'.board = r.board
  status : ∃ s s', r.statuses[i]? = some s ∧ s.Off s' ∧ r'.statuses = r.statuses.set i s'

namespace Message

theorem phase_off (differ : p ≠ q) : OneByteOff (phase p) (phase q) := by
  have lowest (p : Phase) : phase p = UInt8.ofNat (Phase.all.idxOf p) :: [0, 0, 0] := by
    cases p <;> rfl
  rw [lowest, lowest]
  apply OneByteOff.intro []
  intro same
  have whole : phase p ++ [] = phase q ++ [] := by rw [lowest, lowest, same]
  exact differ (legible_phase p q [] [] trivial trivial whole).1

theorem flag_off (b : Bool) : OneByteOff (flag b) (flag !b) := by
  cases b with
  | true => exact .intro [] [0, 0, 0] (by decide)
  | false => exact .intro [] [0, 0, 0] (by decide)

theorem status_off (off : s.Off s') : OneByteOff (status s) (status s') := by
  cases off with
  | phase next differ => exact (((phase_off differ).ahead _).ahead _).ahead _
  | fresh => exact ((flag_off _).behind _).ahead _
  | propagated => exact (flag_off _).behind _

theorem list_off {item : α → List UInt8} {as : List α} (there : as[i]? = some a)
    (off : OneByteOff (item a) (item b)) : OneByteOff (list item as) (list item (as.set i b)) := by
  obtain ⟨inside, found⟩ := List.getElem?_eq_some_iff.mp there
  have whole : as = as.take i ++ a :: as.drop (i + 1) := by
    rw [← found, List.cons_getElem_drop_succ, List.take_append_drop]
  have changed : as.set i b = as.take i ++ b :: as.drop (i + 1) :=
    List.set_eq_take_append_cons_drop.trans (if_pos inside)
  have items : OneByteOff (as.flatMap item) ((as.set i b).flatMap item) := by
    rw [changed]
    conv => lhs; rw [whole]
    simp only [List.flatMap_append, List.flatMap_cons]
    exact (off.ahead _).behind _
  have size : (as.set i b).length = as.length := List.length_set
  rw [list, list, size]
  exact items.behind _

theorem run_off {r r' : Run} (off : r.OffAt i r') : OneByteOff (run r) (run r') := by
  obtain ⟨s, s', there, differ, statuses⟩ := off.status
  rw [run, run, off.tick, off.pending, off.board, statuses]
  exact (((list_off there (status_off differ)).behind _).ahead _).ahead _

end Message

-- Messages of one length that differ at one position are told apart from wherever the digest stood,
-- and no message makes two digests meet. So are runs of which one action has another phase or
-- another flag, however many there are.
theorem no_byte_goes_unnoticed :
    (∀ (d : Digest) (m n : List UInt8), m.length = n.length → (∃! i : Nat, m[i]? ≠ n[i]?) →
      (d.write m).word ≠ (d.write n).word) ∧
    (∀ (d e : Digest) (m : List UInt8), d.word ≠ e.word → (d.write m).word ≠ (e.write m).word) ∧
    ∀ (i : Nat) (r r' : Run), r.OffAt i r' → r.fingerprint ≠ r'.fingerprint := by
  refine ⟨?_, ?_, ?_⟩
  · intro d m n size only same
    exact Digest.write_off (.of_position size only) d (Digest.word_inj.mp same)
  · intro d e m differ same
    apply differ
    exact Digest.word_inj.mpr (Digest.write_inj (Digest.word_inj.mp same))
  · intro i r r' off same
    exact Digest.write_off (Message.run_off off) {} (Digest.word_inj.mp same)

theorem lamp_is_noticed :
    (({} : Digest).write [7, 1, 9]).word ≠ (({} : Digest).write [7, 2, 9]).word ∧
    ((⟨5⟩ : Digest).write [7, 1, 9]).word ≠ ((⟨6⟩ : Digest).write [7, 1, 9]).word ∧
    lamp.fingerprint ≠ (lamp.complete 0).1.fingerprint ∧
    lamp.fingerprint ≠ (lamp.markPropagated 1).fingerprint := by
  obtain ⟨bytes, starts, runs⟩ := no_byte_goes_unnoticed
  refine ⟨bytes {} _ _ rfl ⟨1, by decide, ?_⟩, starts ⟨5⟩ ⟨6⟩ _ (by decide), runs 0 _ _ ?_,
    runs 1 _ _ ?_⟩
  · intro j differs
    match j with
    | 0 | 2 => exact (differs rfl).elim
    | 1 => rfl
    | _ + 3 => exact (differs rfl).elim
  · exact ⟨rfl, rfl, rfl, _, _, rfl, .phase _ .completed (by decide), rfl⟩
  · exact ⟨rfl, rfl, rfl, _, _, rfl, .propagated _, rfl⟩

end ActionGraph
