-- Counts per action. A position that was never counted reads as zero. Programs keep them in words of
-- 32 bits: what a host takes on is summed in such a word, and what grows with the run, by one for
-- each pulse that arrives or each tick that fires, is summed as it is, which is the same up to there.
namespace ActionGraph

structure Tally where
  counts : List Nat := []
  deriving DecidableEq

namespace Tally

def update (f : Nat → Nat) : Nat → List Nat → List Nat
  | 0, [] => [f 0]
  | i + 1, [] => 0 :: update f i []
  | 0, n :: rest => f n :: rest
  | i + 1, n :: rest => n :: update f i rest

def get (t : Tally) (i : Nat) : Nat := t.counts[i]?.getD 0
def change (t : Tally) (i : Nat) (f : Nat → Nat) : Tally := ⟨update f i t.counts⟩
def add (t : Tally) (i n : Nat) : Tally := t.change i (· + n)
def addWord (t : Tally) (i n : Nat) : Tally := t.change i fun count => (count + n) % UInt32.size
def total (t : Tally) : Nat := t.counts.foldr (· + ·) 0

theorem update_getD (f : Nat → Nat) : (i : Nat) → (counts : List Nat) → (j : Nat) →
    (update f i counts)[j]?.getD 0 = if j = i then f (counts[i]?.getD 0) else counts[j]?.getD 0
  | 0, [], j => by cases j <;> simp [update]
  | i + 1, [], j => by
    cases j with
    | zero => simp [update]
    | succ j => simpa [update] using update_getD f i [] j
  | 0, n :: rest, j => by cases j <;> simp [update]
  | i + 1, n :: rest, j => by
    cases j with
    | zero => simp [update]
    | succ j => simpa [update] using update_getD f i rest j

theorem get_change (t : Tally) (i j : Nat) (f : Nat → Nat) :
    (t.change i f).get j = if j = i then f (t.get i) else t.get j :=
  update_getD f i t.counts j

@[simp] theorem get_empty (i : Nat) : ({} : Tally).get i = 0 := by simp [get]

theorem get_add (t : Tally) (i j n : Nat) :
    (t.add i n).get j = if j = i then t.get i + n else t.get j := get_change t i j (· + n)

theorem get_addWord (t : Tally) (i j n : Nat) : (t.addWord i n).get j =
    if j = i then (t.get i + n) % UInt32.size else t.get j :=
  get_change t i j fun count => (count + n) % UInt32.size

theorem update_congr (f g : Nat → Nat) : (i : Nat) → (counts : List Nat) →
    f (counts[i]?.getD 0) = g (counts[i]?.getD 0) → update f i counts = update g i counts
  | 0, [], same => by simpa [update] using same
  | i + 1, [], same => by simpa [update] using update_congr f g i [] (by simpa using same)
  | 0, n :: rest, same => by simpa [update] using same
  | i + 1, n :: rest, same => by simpa [update] using update_congr f g i rest (by simpa using same)

theorem addWord_eq_add {t : Tally} (fits : t.get i + n < UInt32.size) : t.addWord i n = t.add i n :=
  congrArg Tally.mk (update_congr _ _ i t.counts (Nat.mod_eq_of_lt fits))

end Tally
end ActionGraph
