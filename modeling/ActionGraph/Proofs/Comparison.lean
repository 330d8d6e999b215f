import ActionGraph.Proofs.Rounding
import ActionGraph.Proofs.Stages
import Mathlib.Data.String.Basic
-- What the operators make of two integers, and of a value against itself. Both go through the numeric
-- view, which keeps fifty-three bits of an integer and reads some texts as numbers.
namespace ActionGraph
open Binary64 (Rounds rounded rounded_rounds fits_of_le)

namespace Comparison

def relates : Comparison → Int → Int → Prop
  | equal, a, b => a = b
  | differ, a, b => a ≠ b
  | above, a, b => b < a
  | atLeast, a, b => b ≤ a
  | below, a, b => a < b
  | atMost, a, b => a ≤ b

theorem accepts_iff (op : Comparison) (a b : Int) :
    op.accepts (some (compare a b)) = true ↔ op.relates a b := by
  rcases Int.lt_trichotomy a b with less | rfl | more
  · have order : compare a b = .lt := compare_lt_iff_lt.mpr less
    cases op <;> simp [accepts, relates, order] <;> omega
  · have order : compare a a = .eq := compare_eq_iff_eq.mpr rfl
    rw [order]
    cases op <;> simp [accepts, relates]
  · have order : compare a b = .gt := compare_gt_iff_gt.mpr more
    cases op <;> simp [accepts, relates, order] <;> omega

theorem relates_alike {a b x y : Int} (below : x < y ↔ a < b) (above : y < x ↔ b < a) (op : Comparison) :
    op.relates x y ↔ op.relates a b := by
  rw [← accepts_iff, ← accepts_iff, Binary64.compare_alike below above]

def Exact (a b : Int64) : Prop :=
  ∀ op : Comparison, op.holds (.int a) (.int b) = true ↔ op.relates a.toInt b.toInt

theorem holds_ints (op : Comparison) (a b : Int64) :
    op.holds (.int a) (.int b) = true ↔ op.relates (rounded a.toInt) (rounded b.toInt) := by
  have small (n : Int64) : n.toInt.natAbs < 2 ^ 64 := by
    have low := n.le_toInt
    have high := n.toInt_lt
    omega
  rw [← accepts_iff, ← Binary64.compare?_ofInt (small a) (small b)]
  rfl

theorem exact_iff (a b : Int64) : Exact a b ↔ a = b ∨ rounded a.toInt ≠ rounded b.toInt := by
  constructor
  · intro exact
    by_cases same : rounded a.toInt = rounded b.toInt
    · refine .inl (Int64.toInt_inj.mp ((exact .equal).mp ?_))
      exact (holds_ints .equal a b).mpr same
    · exact .inr same
  · intro apart op
    rw [holds_ints]
    have forth := (rounded_rounds a.toInt).mono (rounded_rounds b.toInt)
    have back := (rounded_rounds b.toInt).mono (rounded_rounds a.toInt)
    rcases apart with rfl | apart
    · exact relates_alike (by omega) (by omega) op
    · have differ : a.toInt ≠ b.toInt := fun same => apart (congrArg rounded same)
      exact relates_alike (by omega) (by omega) op

-- Every pair of integers is compared as their roundings are. So the comparison is exact unless two
-- different integers round to the same one, which takes more than fifty-three bits.
theorem ints_compare_as_rounded (a b : Int64) :
    ∃ x y, Rounds a.toInt x ∧ Rounds b.toInt y ∧
      (∀ op : Comparison, op.holds (.int a) (.int b) = true ↔ op.relates x y) ∧
      (Exact a b ↔ a = b ∨ x ≠ y) ∧
      (a.toInt.natAbs ≤ 2 ^ 53 → b.toInt.natAbs ≤ 2 ^ 53 → Exact a b) := by
  have left := rounded_rounds a.toInt
  have right := rounded_rounds b.toInt
  refine ⟨_, _, left, right, fun op => holds_ints op a b, exact_iff a b, fun smallLeft smallRight => ?_⟩
  apply (exact_iff a b).mpr
  rw [left.exact (fits_of_le smallLeft), right.exact (fits_of_le smallRight), Ne, Int64.toInt_inj]
  exact Classical.em (a = b)

theorem neighbours_compare_equal :
    Comparison.equal.holds (.int 9007199254740992) (.int 9007199254740993) = true ∧
      ¬Exact 9007199254740992 9007199254740993 := by
  have equal : Comparison.equal.holds (.int 9007199254740992) (.int 9007199254740993) = true := by
    decide +kernel
  refine ⟨equal, fun exact => ?_⟩
  have same : (9007199254740992 : Int64) = 9007199254740993 := Int64.toInt_inj.mp ((exact .equal).mp equal)
  exact absurd same (by decide)

end Comparison

-- The text is the name of what is no number, in any case, behind at most one sign.
def Literal.namesNaN (cs : List Char) : Bool :=
  String.ofList ((sign cs).2.map Char.toLower) = "nan"

theorem Literal.unsigned?_parts (read : unsigned? negative cs = some x) :
    ∃ digits exponent, x = Binary64.ofDecimal negative digits exponent := by
  simp only [unsigned?] at read
  split at read
  all_goals
    split at read
    · cases read
    · obtain ⟨e, _, rfl⟩ := Option.map_eq_some_iff.mp read
      exact ⟨_, _, rfl⟩

theorem Literal.read?_isNaN (cs : List Char) : (read? cs).any Binary64.isNaN = namesNaN cs := by
  simp only [read?, namesNaN]
  split
  case h_1 infinite =>
    rw [infinite]
    exact Binary64.infinity_isNaN _
  case h_2 infinite =>
    rw [infinite]
    exact Binary64.infinity_isNaN _
  case h_3 unordered =>
    rw [unordered]
    exact Binary64.nan_isNaN _
  case h_4 other =>
    rw [decide_eq_false other]
    cases read : unsigned? (sign cs).1 (sign cs).2 with
    | none => rfl
    | some x =>
      obtain ⟨digits, exponent, rfl⟩ := unsigned?_parts read
      exact Binary64.ofDecimal_isNaN ..

def Value.isUnordered : Value → Bool
  | float x => x.isNaN
  | text s => Literal.namesNaN (Text.trimmed s.toList)
  | _ => false

theorem Value.number?_isNaN (v : Value) : v.number?.any Binary64.isNaN = v.isUnordered := by
  cases v with
  | int n => exact Binary64.ofInt_isNaN n.toInt
  | float x => rfl
  | bool b => rfl
  | text s => exact Literal.read?_isNaN _
  | member name => rfl

namespace Comparison

theorem compare?_same (x : Binary64) :
    Binary64.compare? x x = if x.isNaN then none else some .eq := by
  cases number : x.isNaN with
  | true => simp [Binary64.compare?, Binary64.rank?, number]
  | false => exact Binary64.compare?_self number

theorem holds_same (v : Value) :
    equal.holds v v = !v.isUnordered ∧ differ.holds v v = v.isUnordered := by
  have unordered := v.number?_isNaN
  simp only [holds]
  cases number : v.number? with
  | some x =>
    rw [number, Option.any_some] at unordered
    simp only [compare?_same, ← unordered]
    cases x.isNaN <;> decide
  | none =>
    rw [number, Option.any_none] at unordered
    cases v.bool? with
    | some b => simp [ofBools, ← unordered]
    | none =>
      have order : compare v.toText v.toText = .eq := compare_eq_iff_eq.mpr rfl
      rw [order, ← unordered]
      decide

-- A stored value equals itself unless it is unordered, and then it differs from itself. So a guard
-- or a filter that asks for the value that is there is met by all others.
theorem equal_to_itself (v : Value) :
    (equal.holds v v = !v.isUnordered ∧ differ.holds v v = v.isUnordered) ∧
      (∀ (m : Moment) (key : String), m.board.get? key = some v →
        Guard.holds m (.expression key .equal v) = !v.isUnordered) ∧
      ∀ (r : Run) (i : Nat), Filter.comparison r.plan i = .equal →
        r.plan.property? i "target" = some v →
        Filter.lookup? r i (r.plan.reading Value.text? i "key" "") = some v →
        ((Filter.judge r i).2 = .pass ↔ v.isUnordered = false) := by
  obtain ⟨same, differs⟩ := holds_same v
  refine ⟨⟨same, differs⟩, fun m key there => ?_, fun r i operator target there => ?_⟩
  · rw [Guard.holds, there, Option.any_some, same]
  · rw [(Filter.judge_parts r i).2, target, there, operator]
    simp [same]

theorem nan_text_differs :
    equal.holds (.text "nan") (.text "nan") = false ∧ differ.holds (.text "nan") (.text "nan") = true ∧
      equal.holds (.member "nan") (.member "nan") = true := by
  decide +kernel

end Comparison
end ActionGraph
