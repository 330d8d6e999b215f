import ActionGraph.Proofs.Window
-- Snapshots are made rarely and used over and over. A pool accounts for all that it has made, given
-- out and taken back, and a history that draws on one never has more made than fit its ring.
namespace ActionGraph

namespace Pool

-- A snapshot that is given back may hold anything, whether it was acquired here or not.
inductive Step where
  | acquire
  | release (s : Snapshot)
  deriving DecidableEq

def Step.isAcquire : Step → Bool
  | acquire => true
  | release _ => false

def follow (p : Pool) : List Step → Pool × List Snapshot
  | [] => (p, [])
  | .acquire :: rest =>
    let (after, given) := p.acquire.1.follow rest
    (after, p.acquire.2 :: given)
  | .release s :: rest => (p.release s).follow rest

def Clean (p : Pool) : Prop := ∀ s ∈ p.free, s = {}

theorem acquire_cases (p : Pool) :
    p.free = [] ∧ p.acquire = ({ p with created := p.created + 1 }, {}) ∨
    ∃ s rest, p.free = s :: rest ∧ p.acquire = ({ p with free := rest, reused := p.reused + 1 }, s) := by
  obtain ⟨free, created, reused⟩ := p
  cases free with
  | nil => exact .inl ⟨rfl, rfl⟩
  | cons s rest => exact .inr ⟨s, rest, rfl, rfl⟩

theorem acquire_counts (p : Pool) :
    let after := p.acquire.1
    after.free.length + after.reused = p.free.length + p.reused ∧
      after.created + after.reused = p.created + p.reused + 1 ∧
      (after.created = p.created ∨ after.free = []) := by
  obtain ⟨empty, same⟩ | ⟨s, rest, waiting, same⟩ := p.acquire_cases
  · rw [same]
    refine ⟨rfl, ?_, .inr empty⟩
    dsimp only
    omega
  · rw [same, waiting]
    refine ⟨?_, rfl, .inl rfl⟩
    rw [List.length_cons]
    dsimp only
    omega

namespace Clean

theorem acquire {p : Pool} (clean : p.Clean) : p.acquire.2 = {} ∧ p.acquire.1.Clean := by
  obtain ⟨_, same⟩ | ⟨s, rest, waiting, same⟩ := p.acquire_cases
  · rw [same]
    exact ⟨rfl, clean⟩
  · rw [same]
    have inside : ∀ t ∈ s :: rest, t = {} := waiting ▸ clean
    exact ⟨inside s List.mem_cons_self, fun t there => inside t (List.mem_cons_of_mem s there)⟩

theorem release {p : Pool} (clean : p.Clean) (s : Snapshot) : (p.release s).Clean := by
  intro t there
  rcases List.mem_cons.mp there with rfl | there
  · rfl
  · exact clean t there

theorem releaseAll {p : Pool} (clean : p.Clean) (given : List Snapshot) :
    (given.foldl Pool.release p).Clean := by
  induction given generalizing p with
  | nil => exact clean
  | cons s rest ih => exact ih (clean.release s)

theorem follow {p : Pool} (clean : p.Clean) (steps : List Step) :
    ∀ s ∈ (p.follow steps).2, s = {} := by
  induction steps generalizing p with
  | nil => exact fun s there => by cases there
  | cons step rest ih =>
    cases step with
    | acquire =>
      obtain ⟨empty, after⟩ := clean.acquire
      intro s there
      rcases List.mem_cons.mp there with rfl | there
      · exact empty
      · exact ih after s there
    | release s => exact ih (clean.release s)

end Clean

theorem releaseAll_counts (p : Pool) (given : List Snapshot) :
    let after := given.foldl release p
    after.free.length = p.free.length + given.length ∧ after.created = p.created ∧
      after.reused = p.reused := by
  induction given generalizing p with
  | nil => exact ⟨rfl, rfl, rfl⟩
  | cons s rest ih =>
    obtain ⟨free, created, reused⟩ := ih (p.release s)
    refine ⟨?_, created, reused⟩
    rw [List.foldl_cons, free, release, List.length_cons, List.length_cons]
    omega

-- Each step is booked on both sides of both accounts: what came back waits or went out again, and
-- what went out was made for it or was there.
theorem follow_counts (p : Pool) (steps : List Step) :
    let after := (p.follow steps).1
    after.free.length + after.reused = p.free.length + p.reused + steps.countP (!·.isAcquire) ∧
      after.created + after.reused = p.created + p.reused + steps.countP (·.isAcquire) ∧
      (p.follow steps).2.length = steps.countP (·.isAcquire) := by
  induction steps generalizing p with
  | nil => exact ⟨rfl, rfl, rfl⟩
  | cons step rest ih =>
    cases step with
    | acquire =>
      obtain ⟨back, out, given⟩ := ih p.acquire.1
      obtain ⟨back', out', _⟩ := p.acquire_counts
      refine ⟨?_, ?_, ?_⟩
      · rw [List.countP_cons_of_neg (by decide), ← back']
        exact back
      · rw [List.countP_cons_of_pos rfl, ← Nat.add_assoc, Nat.add_right_comm, ← out']
        exact out
      · rw [List.countP_cons_of_pos rfl, ← given]
        rfl
    | release s =>
      obtain ⟨back, out, given⟩ := ih (p.release s)
      refine ⟨?_, ?_, ?_⟩
      · rw [List.countP_cons_of_pos rfl, ← Nat.add_assoc, Nat.add_right_comm,
          Nat.add_right_comm p.free.length]
        exact back
      · rw [List.countP_cons_of_neg (by simp [Step.isAcquire])]
        exact out
      · rw [List.countP_cons_of_neg (by simp [Step.isAcquire])]
        exact given

end Pool

namespace History

inductive Step where
  | reset (r : Run)
  | record (r : Run)

def Step.isRecord : Step → Bool
  | reset _ => false
  | record _ => true

def follow (h : History) : Step → History
  | .reset r => h.reset r
  | .record r => h.record r

-- Every snapshot that was made is in the ring or waits in the pool, and there are never more of them
-- than the ring has room for.
structure Balanced (h : History) : Prop where
  room : 1 ≤ h.capacity
  clean : h.pool.Clean
  fits : h.ring.length ≤ h.capacity
  whole : h.pool.created = h.ring.length + h.pool.free.length
  bounded : h.pool.created ≤ h.capacity

theorem ofCapacity_balanced (capacity : Nat) : (ofCapacity capacity).Balanced :=
  ⟨ofCapacity_room capacity, fun _ there => (by cases there), Nat.zero_le _, rfl, Nat.zero_le _⟩

namespace Balanced

theorem reset {h : History} (balanced : h.Balanced) (r : Run) : (h.reset r).Balanced := by
  obtain ⟨free, created, _⟩ := h.pool.releaseAll_counts h.ring
  refine ⟨balanced.room, balanced.clean.releaseAll h.ring, Nat.zero_le _, ?_, ?_⟩
  · change (h.ring.foldl Pool.release h.pool).created =
      0 + (h.ring.foldl Pool.release h.pool).free.length
    rw [free, created, balanced.whole]
    omega
  · change (h.ring.foldl Pool.release h.pool).created ≤ h.capacity
    rw [created]
    exact balanced.bounded

theorem makeRoom {h : History} (balanced : h.Balanced) :
    h.makeRoom.Balanced ∧ h.makeRoom.ring.length < h.capacity := by
  obtain ⟨room, clean, fits, whole, bounded⟩ := balanced
  unfold History.makeRoom
  split
  · next full =>
    split
    · next empty =>
      rw [empty] at full
      exact absurd full (by rw [List.length_nil]; omega)
    · next oldest rest there =>
      rw [there, List.length_cons] at fits full whole
      refine ⟨⟨room, clean.release oldest, by dsimp only; omega, ?_, bounded⟩, by dsimp only; omega⟩
      simp only [Pool.release, List.length_cons]
      omega
  · next free => exact ⟨⟨room, clean, fits, whole, bounded⟩, by omega⟩

theorem record {h : History} (balanced : h.Balanced) (r : Run) : (h.record r).Balanced := by
  obtain ⟨⟨room, clean, _, whole, bounded⟩, below⟩ := balanced.makeRoom
  rw [← h.makeRoom_capacity] at below
  have grown : (h.record r).ring.length = h.makeRoom.ring.length + 1 := List.length_append
  obtain ⟨back, out, either⟩ := h.makeRoom.pool.acquire_counts
  have accounted : (h.record r).pool.created = (h.record r).ring.length + (h.record r).pool.free.length := by
    rw [grown]
    change h.makeRoom.pool.acquire.1.created = _ + h.makeRoom.pool.acquire.1.free.length
    omega
  refine ⟨room, clean.acquire.2, grown ▸ below, accounted, ?_⟩
  change h.makeRoom.pool.acquire.1.created ≤ h.makeRoom.capacity
  rcases either with kept | spent
  · rw [kept]
    exact bounded
  · -- What is made last is the only thing outside the ring, and it goes there.
    change h.makeRoom.pool.acquire.1.created = _ + h.makeRoom.pool.acquire.1.free.length at accounted
    rw [spent, grown, List.length_nil] at accounted
    omega

theorem follow {h : History} (balanced : h.Balanced) : ∀ s, (h.follow s).Balanced
  | .reset r => balanced.reset r
  | .record r => balanced.record r

theorem followAll {h : History} (balanced : h.Balanced) (steps : List Step) :
    (steps.foldl History.follow h).Balanced := by
  induction steps generalizing h with
  | nil => exact balanced
  | cons s rest ih => exact ih (balanced.follow s)

end Balanced

theorem follow_capacity (h : History) : ∀ s, (h.follow s).capacity = h.capacity
  | .reset _ => rfl
  | .record _ => h.makeRoom_capacity

def drawn (h : History) : Nat := h.pool.created + h.pool.reused

theorem follow_drawn (h : History) (s : Step) :
    (h.follow s).drawn = h.drawn + if s.isRecord then 1 else 0 := by
  cases s with
  | reset r =>
    obtain ⟨_, created, reused⟩ := h.pool.releaseAll_counts h.ring
    change (h.ring.foldl Pool.release h.pool).created + (h.ring.foldl Pool.release h.pool).reused = _
    rw [created, reused]
    rfl
  | record r =>
    have kept : h.makeRoom.pool.created + h.makeRoom.pool.reused = h.drawn := by
      unfold makeRoom
      split
      · split <;> rfl
      · rfl
    change h.makeRoom.pool.acquire.1.created + h.makeRoom.pool.acquire.1.reused = h.drawn + 1
    rw [← kept]
    exact h.makeRoom.pool.acquire_counts.2.1

theorem followAll_drawn (h : History) (steps : List Step) :
    (steps.foldl follow h).drawn = h.drawn + steps.countP (·.isRecord) ∧
      (steps.foldl follow h).capacity = h.capacity := by
  induction steps generalizing h with
  | nil => exact ⟨rfl, rfl⟩
  | cons s rest ih =>
    obtain ⟨drawn, capacity⟩ := ih (h.follow s)
    refine ⟨?_, capacity.trans (h.follow_capacity s)⟩
    rw [List.foldl_cons, drawn, follow_drawn, List.countP_cons]
    omega

end History

-- A pool gives out empty snapshots only, whatever was in those it got back, and its counts add up to
-- what came and went. Recording, however long and however often it is reset, has at most as many
-- snapshots made as the ring has room for; all of them are in the ring or in the pool.
theorem snapshots_conserved :
    (∀ steps : List Pool.Step, let (p, acquired) := ({} : Pool).follow steps
      (∀ s ∈ acquired, s = {}) ∧ acquired.length = steps.countP (·.isAcquire) ∧
      p.free.length + p.reused = steps.countP (!·.isAcquire) ∧
      p.created + p.reused = steps.countP (·.isAcquire)) ∧
    ∀ (capacity : Nat) (steps : List History.Step),
      let h := steps.foldl History.follow (.ofCapacity capacity)
      h.ring.length ≤ max capacity 1 ∧ h.pool.created = h.ring.length + h.pool.free.length ∧
      h.pool.created ≤ max capacity 1 ∧
      h.pool.created + h.pool.reused = steps.countP (·.isRecord) ∧ ∀ s ∈ h.pool.free, s = {} := by
  refine ⟨fun steps => ?_, fun capacity steps => ?_⟩
  · have clean : ({} : Pool).Clean := fun _ there => by cases there
    obtain ⟨back, out, given⟩ := Pool.follow_counts {} steps
    exact ⟨clean.follow steps, given, back.trans (Nat.zero_add _), out.trans (Nat.zero_add _)⟩
  · obtain ⟨drawn, same⟩ := (History.ofCapacity capacity).followAll_drawn steps
    obtain ⟨_, clean, fits, whole, bounded⟩ := (History.ofCapacity_balanced capacity).followAll steps
    rw [same] at fits bounded
    exact ⟨fits, whole, bounded, drawn.trans (Nat.zero_add _), clean⟩

example : ({} : Pool).follow [.acquire, .release { tick := 7 }, .acquire, .acquire] =
    (⟨[], 2, 1⟩, [{}, {}, {}]) := rfl

end ActionGraph
