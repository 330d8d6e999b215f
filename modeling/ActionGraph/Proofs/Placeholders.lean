import ActionGraph.Blackboard.Template
import Mathlib.Data.List.Basic
-- Placeholders of a template. What is filled in can be told from the template alone: a walk reads
-- every opening brace up to the next closing one, so a brace that was left open before a placeholder
-- takes it in, and the placeholder stays as it is written.
namespace ActionGraph.Template

-- A template cut into characters that are kept and placeholders that are replaced.
inductive Piece where
  | kept (c : Char)
  | filled (key : List Char) (v : Value)

namespace Piece

def written : Piece → List Char
  | kept c => [c]
  | filled key _ => '{' :: (key ++ ['}'])

def shown : Piece → List Char
  | kept c => [c]
  | filled _ v => v.toText.toList

def At (pieces : List Piece) (before key : List Char) (v : Value) : Prop :=
  ∃ ps qs, pieces = ps ++ filled key v :: qs ∧ ps.flatMap written = before

theorem at_cons {p : Piece} : At (p :: pieces) before key v ↔ (before = [] ∧ p = filled key v) ∨
    ∃ later, before = p.written ++ later ∧ At pieces later key v := by
  constructor
  · intro ⟨ps, qs, split, same⟩
    cases ps with
    | nil => exact .inl ⟨same.symm, (List.cons.inj split).1⟩
    | cons q ps =>
      obtain ⟨rfl, rest⟩ := List.cons.inj split
      exact .inr ⟨_, same.symm, ps, qs, rest, rfl⟩
  · intro either
    cases either with
    | inl first => exact ⟨[], pieces, by rw [first.2, List.nil_append], first.1.symm⟩
    | inr rest =>
      obtain ⟨later, split, ps, qs, found, same⟩ := rest
      exact ⟨p :: ps, qs, by rw [found, List.cons_append], by rw [List.flatMap_cons, same, split]⟩

theorem at_kept {text : List Char} : At (text.map kept ++ pieces) before key v ↔
    ∃ later, before = text ++ later ∧ At pieces later key v := by
  induction text generalizing before with
  | nil => simp
  | cons c text ih =>
    rw [List.map_cons, List.cons_append, at_cons]
    simp only [reduceCtorEq, and_false, false_or, written, ih, List.cons_append, List.nil_append]
    constructor
    · intro ⟨_, here, later, same, found⟩
      exact ⟨later, by rw [here, same], found⟩
    · intro ⟨later, here, found⟩
      exact ⟨text ++ later, here, later, rfl, found⟩

theorem kept_written (text : List Char) : (text.map kept).flatMap written = text := by
  induction text with
  | nil => rfl
  | cons c text ih => rw [List.map_cons, List.flatMap_cons, ih]; rfl

theorem kept_shown (text : List Char) : (text.map kept).flatMap shown = text := by
  induction text with
  | nil => rfl
  | cons c text ih => rw [List.map_cons, List.flatMap_cons, ih]; rfl

end Piece

-- What is cut comes out in order, and of the placeholders with a known key those are replaced that
-- count, by what stands before them and by their key, and no other.
def Replaced (board : Blackboard) (counts : List Char → List Char → Prop)
    (template out : List Char) : Prop :=
  ∃ pieces : List Piece, pieces.flatMap Piece.written = template ∧
    pieces.flatMap Piece.shown = out ∧
    (∀ key v, .filled key v ∈ pieces → board.get? (String.ofList key) = some v) ∧
    ∀ before key after v, template = before ++ '{' :: (key ++ '}' :: after) →
      board.get? (String.ofList key) = some v →
      (counts before key ↔ Piece.At pieces before key v)

def Tidy (_before key : List Char) : Prop := '{' ∉ key ∧ '}' ∉ key

def Closed (text : List Char) : Prop := ∀ a b, text = a ++ '{' :: b → '}' ∈ b

-- The placeholder is not taken in by an earlier brace, and ends at the next closing one.
def Leading (before key : List Char) : Prop := Closed before ∧ '}' ∉ key

def TakenIn (template inner key : List Char) : Prop :=
  ∃ before after, template = before ++ '{' :: (inner ++ '{' :: (key ++ '}' :: after)) ∧
    Closed before ∧ '}' ∉ inner ∧ Tidy before key

theorem closed_nil : Closed [] := by
  intro a b split
  simp at split

theorem closed_cons (other : c ≠ '{') : Closed (c :: text) ↔ Closed text := by
  constructor
  · intro closed a b split
    exact closed (c :: a) b (by rw [split, List.cons_append])
  · intro closed a b split
    cases a with
    | nil => exact (other (List.cons.inj split).1).elim
    | cons d a => exact closed a b (List.cons.inj split).2

theorem closed_behind : Closed (before ++ '}' :: text) ↔ Closed text := by
  constructor
  · intro closed a b split
    exact closed (before ++ '}' :: a) b (by rw [split, List.append_assoc, List.cons_append])
  · intro closed a b split
    cases List.append_eq_append_iff.mp split with
    | inl inside =>
      obtain ⟨c, _, rest⟩ := inside
      cases c with
      | nil => cases (List.cons.inj rest).1
      | cons d c => exact closed c b (List.cons.inj rest).2
    | inr early =>
      obtain ⟨c, _, rest⟩ := early
      cases c with
      | nil => cases (List.cons.inj rest).1
      | cons d c =>
        rw [(List.cons.inj rest).2]
        exact List.mem_append_right c List.mem_cons_self

theorem closed_opening (closing : '}' ∈ text) : Closed ('{' :: text) ↔ Closed text := by
  obtain ⟨before, after, rfl⟩ := List.append_of_mem closing
  rw [← List.cons_append, closed_behind, closed_behind]

theorem cut_unique {key key' : List Char} (ends : '}' ∉ key) (ends' : '}' ∉ key')
    (same : key ++ '}' :: after = key' ++ '}' :: after') : key = key' ∧ after = after' := by
  cases List.append_eq_append_iff.mp same with
  | inl longer =>
    obtain ⟨c, rfl, rest⟩ := longer
    cases c with
    | nil => exact ⟨(List.append_nil key).symm, (List.cons.inj rest).2⟩
    | cons d c => simp [(List.cons.inj rest).1.symm] at ends'
  | inr shorter =>
    obtain ⟨c, rfl, rest⟩ := shorter
    cases c with
    | nil => exact ⟨List.append_nil key', (List.cons.inj rest).2.symm⟩
    | cons d c => simp [(List.cons.inj rest).1.symm] at ends

theorem leading_kept (other : c ≠ '{') (split : c :: rest = before ++ '{' :: behind) :
    Leading before key ↔ ∃ later, before = c :: later ∧ Leading later key := by
  cases before with
  | nil => exact (other (List.cons.inj split).1).elim
  | cons d before =>
    obtain ⟨rfl, _⟩ := List.cons.inj split
    constructor
    · intro ⟨closed, ends⟩
      exact ⟨before, rfl, (closed_cons other).mp closed, ends⟩
    · intro ⟨later, same, closed, ends⟩
      exact ⟨(closed_cons other).mpr ((List.cons.inj same).2 ▸ closed), ends⟩

theorem leading_closed (ends : '}' ∉ key)
    (split : '{' :: (key ++ '}' :: rest) = before ++ '{' :: (key' ++ '}' :: after)) :
    Leading before key' ↔ (before = [] ∧ key' = key) ∨
      ∃ later, before = '{' :: (key ++ '}' :: later) ∧ Leading later key' := by
  constructor
  · intro ⟨closed, ends'⟩
    cases before with
    | nil =>
      have same : key ++ '}' :: rest = key' ++ '}' :: after := (List.cons.inj split).2
      exact .inl ⟨rfl, (cut_unique ends ends' same).1.symm⟩
    | cons d before =>
      obtain ⟨rfl, rest⟩ := List.cons.inj split
      obtain ⟨first, later, rfl, none⟩ := List.eq_append_cons_of_mem (closed [] before rfl)
      simp only [List.append_eq, List.append_assoc, List.cons_append] at rest
      obtain ⟨rfl, _⟩ := cut_unique ends none rest
      rw [← List.cons_append] at closed
      exact .inr ⟨later, rfl, closed_behind.mp closed, ends'⟩
  · intro either
    cases either with
    | inl first =>
      obtain ⟨rfl, rfl⟩ := first
      exact ⟨closed_nil, ends⟩
    | inr behind =>
      obtain ⟨later, rfl, closed, ends'⟩ := behind
      rw [← List.cons_append]
      exact ⟨closed_behind.mpr closed, ends'⟩

namespace Replaced
variable {board : Blackboard}

theorem nil : Replaced board Leading [] [] := by
  refine ⟨[], rfl, rfl, ?_, ?_⟩
  · intro key v member
    cases member
  · intro before key after v split
    simp at split

theorem kept (other : c ≠ '{') (rest : Replaced board Leading text out) :
    Replaced board Leading (c :: text) (c :: out) := by
  obtain ⟨pieces, rfl, rfl, sound, replaced⟩ := rest
  refine ⟨.kept c :: pieces, rfl, rfl, ?_, ?_⟩
  · intro key v member
    exact sound key v (by simpa using member)
  · intro before key after v split known
    rw [leading_kept other split, Piece.at_cons]
    simp only [reduceCtorEq, and_false, false_or, Piece.written, List.singleton_append]
    refine exists_congr fun later => and_congr_right fun here => ?_
    subst here
    exact replaced later key after v (List.cons.inj split).2 known

theorem unclosed (left : '}' ∉ text) : Replaced board Leading ('{' :: text) ('{' :: text) := by
  refine ⟨('{' :: text).map .kept, Piece.kept_written _, Piece.kept_shown _, ?_, ?_⟩
  · intro key v member
    simp at member
  · intro before key after v split
    have closing : '}' ∈ '{' :: text := by rw [split]; simp
    simp [left] at closing

theorem closed (ends : '}' ∉ key) (rest : Replaced board Leading text out) :
    Replaced board Leading ('{' :: (key ++ '}' :: text)) (expansion board key ++ out) := by
  obtain ⟨pieces, rfl, rfl, sound, replaced⟩ := rest
  have behind : ∀ before key' after v, '{' :: (key ++ '}' :: pieces.flatMap Piece.written) =
      before ++ '{' :: (key' ++ '}' :: after) → board.get? (String.ofList key') = some v →
      ((∃ later, before = '{' :: (key ++ '}' :: later) ∧ Leading later key') ↔
        ∃ later, before = '{' :: (key ++ ['}']) ++ later ∧ Piece.At pieces later key' v) := by
    intro before key' after v split known
    simp only [List.cons_append, List.append_assoc, List.nil_append]
    refine exists_congr fun later => and_congr_right fun here => ?_
    subst here
    refine replaced later key' after v ?_ known
    simpa using split
  cases found : board.get? (String.ofList key) with
  | some v =>
    refine ⟨.filled key v :: pieces, by simp [Piece.written], by simp [Piece.shown, expansion, found],
      ?_, ?_⟩
    · intro key' v' member
      cases List.mem_cons.mp member with
      | inl same => cases same; exact found
      | inr later => exact sound key' v' later
    · intro before key' after v' split known
      rw [leading_closed ends split, Piece.at_cons, behind before key' after v' split known]
      refine or_congr_left (and_congr_right fun _ => ?_)
      rw [Piece.filled.injEq]
      constructor
      · intro same
        subst same
        exact ⟨rfl, Option.some.inj (found.symm.trans known)⟩
      · intro same
        exact same.1.symm
  | none =>
    refine ⟨('{' :: (key ++ ['}'])).map .kept ++ pieces, ?_, ?_, ?_, ?_⟩
    · rw [List.flatMap_append, Piece.kept_written]
      simp
    · rw [List.flatMap_append, Piece.kept_shown]
      simp [expansion, found]
    · intro key' v' member
      exact sound key' v' (by simpa using member)
    · intro before key' after v' split known
      rw [leading_closed ends split, Piece.at_kept, behind before key' after v' split known]
      refine or_iff_right fun first => ?_
      rw [← first.2, known] at found
      cases found

end Replaced

-- By induction on what is left to read. With a brace open, what was read since then belongs to it.
theorem fillFrom_replaced (board : Blackboard) (rest : List Char) :
    Replaced board Leading rest (fillFrom board none rest) ∧ ∀ key, '}' ∉ key →
      Replaced board Leading ('{' :: (key.reverse ++ rest)) (fillFrom board (some key) rest) := by
  induction rest with
  | nil =>
    refine ⟨.nil, fun key left => ?_⟩
    rw [List.append_nil]
    exact .unclosed (by simpa using left)
  | cons c rest ih =>
    obtain ⟨outside, within⟩ := ih
    constructor
    · by_cases opening : c = '{'
      · subst opening
        exact within [] List.not_mem_nil
      · rw [fillFrom, if_neg opening]
        exact outside.kept opening
    · intro key left
      by_cases closing : c = '}'
      · subst closing
        rw [fillFrom, if_pos rfl]
        exact outside.closed (by simpa using left)
      · rw [fillFrom, if_neg closing]
        have longer := within (c :: key) (by simp [left, Ne.symm closing])
        simpa using longer

theorem first_open {text : List Char} (opens : ¬Closed text) :
    ∃ a b, text = a ++ '{' :: b ∧ Closed a ∧ '}' ∉ b := by
  induction text with
  | nil => exact (opens closed_nil).elim
  | cons c text ih =>
    by_cases opening : c = '{'
    · subst opening
      by_cases closing : '}' ∈ text
      · rw [closed_opening closing] at opens
        obtain ⟨a, b, rfl, closed, left⟩ := ih opens
        have early : '}' ∈ a := by simpa [left] using closing
        exact ⟨'{' :: a, b, rfl, (closed_opening early).mpr closed, left⟩
      · exact ⟨[], text, rfl, closed_nil, closing⟩
    · rw [closed_cons opening] at opens
      obtain ⟨a, b, rfl, closed, left⟩ := ih opens
      exact ⟨c :: a, b, rfl, (closed_cons opening).mpr closed, left⟩

theorem last_open {text : List Char} (opening : '{' ∈ text) :
    ∃ a b, text = a ++ '{' :: b ∧ '{' ∉ b := by
  obtain ⟨b, a, split, none⟩ := List.eq_append_cons_of_mem (List.mem_reverse.mpr opening)
  refine ⟨a.reverse, b.reverse, ?_, by simpa using none⟩
  simpa using congrArg List.reverse split

theorem Replaced.tidy {board : Blackboard} (replaced : Replaced board Leading template out)
    (clear : ∀ inner key, TakenIn template inner key → board.get? (String.ofList key) = none ∧
      board.get? (String.ofList (inner ++ '{' :: key)) = none) :
    Replaced board Tidy template out := by
  obtain ⟨pieces, written, shown, sound, leads⟩ := replaced
  refine ⟨pieces, written, shown, sound, fun before key after v split known => ?_⟩
  refine Iff.trans ?_ (leads before key after v split known)
  constructor
  · intro ⟨plain, ends⟩
    refine ⟨?_, ends⟩
    apply Classical.byContradiction
    intro opens
    obtain ⟨a, b, rfl, closed, left⟩ := first_open opens
    rw [List.append_assoc, List.cons_append] at split
    have unknown := (clear b key ⟨a, after, split, closed, left, plain, ends⟩).1
    rw [known] at unknown
    cases unknown
  · intro ⟨closed, ends⟩
    refine ⟨?_, ends⟩
    intro opening
    obtain ⟨inner, last, rfl, plain⟩ := last_open opening
    simp only [List.append_assoc, List.cons_append] at split
    simp only [List.mem_append, List.mem_cons, not_or] at ends
    have unknown := (clear inner last ⟨before, after, split, closed, ends.1, plain, ends.2.2⟩).2
    rw [known] at unknown
    cases unknown

-- Whatever the template and the blackboard: of the placeholders with a known key, those are replaced
-- that no earlier brace has taken in, up to the next closing brace, and every other character stays
-- where it is. So all that have no brace within are replaced, and only they, unless a brace was left
-- open before one with a known key, or a known key has that brace in it.
theorem fill_replaced (board : Blackboard) (template : String) :
    Replaced board Leading template.toList (fill board template).toList ∧
    ((∀ inner key, TakenIn template.toList inner key → board.get? (String.ofList key) = none ∧
        board.get? (String.ofList (inner ++ '{' :: key)) = none) →
      Replaced board Tidy template.toList (fill board template).toList) := by
  have walked := (fillFrom_replaced board template.toList).1
  rw [fill, String.toList_ofList]
  exact ⟨walked, walked.tidy⟩

def waves : Blackboard := (∅ : Keyed Value).insert "wave" (.int 2)

def strays : String := "\x7d\x7bwave\x7d/\x7btop\x7d\x7b"

theorem waves_replaced :
    Replaced waves Tidy strays.toList (fill waves strays).toList ∧
    fill waves strays = "\x7d2/\x7btop\x7d\x7b" := by
  refine ⟨(fill_replaced waves strays).2 ?_, by decide +kernel⟩
  intro inner key ⟨before, after, split, closed, left, tidy⟩
  have chars : strays.toList =
      ['}', '{', 'w', 'a', 'v', 'e', '}', '/', '{', 't', 'o', 'p', '}', '{'] := by decide
  -- Only one opening brace stands between another one and a closing one.
  have place : inner = ['w', 'a', 'v', 'e', '}', '/'] := by
    simp [chars, List.cons_eq_append_iff, List.append_eq_cons_iff] at split
    exact split.2.1
  simp [place] at left

def leftOpen : String := "\x7b \x7bwave\x7d"

theorem waves_taken_in :
    ¬Replaced waves Tidy leftOpen.toList (fill waves leftOpen).toList := by
  intro ⟨pieces, written, shown, _, replaced⟩
  obtain ⟨ps, qs, rfl, before⟩ := (replaced ['{', ' '] "wave".toList [] (.int 2) (by decide)
    (by decide +kernel)).mp ⟨by decide, by decide⟩
  have kept : fill waves leftOpen = leftOpen := by decide +kernel
  have chars : leftOpen.toList = ['{', ' ', '{', 'w', 'a', 'v', 'e', '}'] := by decide
  rw [List.flatMap_append, List.flatMap_cons] at written shown
  rw [before, chars] at written
  have behind : qs.flatMap Piece.written = [] := by simpa [Piece.written] using written
  have last : qs = [] := by
    cases qs with
    | nil => rfl
    | cons q qs => cases q <;> simp [Piece.written] at behind
  have two : Piece.shown (.filled "wave".toList (.int 2)) = ['2'] := by decide +kernel
  rw [last, two, kept, chars] at shown
  have ends := congrArg List.getLast? shown
  simp at ends

end ActionGraph.Template
