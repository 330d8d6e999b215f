import ActionGraph.Proofs.Core
import Mathlib.Data.ENat.Lattice
import Mathlib.Order.CompletePartialOrder
-- Breadth first. Where every action passes on what it is sent, each tick completes what the last tick
-- reached and reaches what lies one edge further, so an action completes in the tick after its distance
-- from the start. Pulses that lead back to what is completed come to nothing.
namespace ActionGraph

namespace Graph
variable (g : Graph)

def Walk : Nat → String → Prop
  | 0, id => ∃ a ∈ g.actions, a.isStart = true ∧ a.id = id
  | n + 1, id => ∃ e ∈ g.edges, e.sourcePort = "out" ∧ e.target = id ∧ Walk n e.source

instance decidableWalk : (n : Nat) → (id : String) → Decidable (g.Walk n id)
  | 0, id => inferInstanceAs (Decidable (∃ a ∈ g.actions, a.isStart = true ∧ a.id = id))
  | n + 1, id =>
    have := decidableWalk n
    inferInstanceAs (Decidable
      (∃ e ∈ g.edges, e.sourcePort = "out" ∧ e.target = id ∧ g.Walk n e.source))

-- The length of the shortest such walk, and the top where there is none.
noncomputable def distance (id : String) : ℕ∞ := ⨅ (n : ℕ) (_ : g.Walk n id), (n : ℕ∞)

theorem distance_lt {id : String} {n : ℕ} : g.distance id < n ↔ ∃ k < n, g.Walk k id := by
  simp only [distance, iInf_lt_iff, Nat.cast_lt, exists_prop]
  exact exists_congr fun k => and_comm

namespace Structural
variable {g : Graph} (structural : g.Structural)
include structural

theorem cases_of (member : a ∈ g.actions) :
    a.kind = Action.startKind ∨ a.kind = Action.fanoutKind ∨ a.kind = Action.endKind := by
  simpa [passKinds] using structural.kinds a member

theorem start_only {a b : Action} (member : a ∈ g.actions) (other : b ∈ g.actions) (same : a.id = b.id) :
    a = b := List.inj_on_of_nodup_map structural.formed.ids member other same

theorem done_next (member : a ∈ g.actions) (passes : a.kind = Action.fanoutKind ∨ a.kind = Action.endKind)
    (n : Nat) : g.trunk.Done a.id (n + 1) ↔
      ∃ e ∈ g.edges, e.sourcePort = "out" ∧ e.target = a.id ∧ g.trunk.Done e.source n := by
  have phase := structural.clockwork.passes member passes (n + 1)
  have positive : g.trunk.Done a.id (n + 1) ↔ 0 < g.trunk.arrived a.id (n + 1) := by
    rw [Done, phase]
    split <;> simp [*]
  have edges : g.trunk.edges = g.edges.filter (·.sourcePort = "out") := rfl
  rw [positive, arrived, inflow, List.countP_pos_iff, edges]
  simp only [List.mem_filter, decide_eq_true_eq, and_assoc]

theorem done_iff (member : a ∈ g.actions) (n : Nat) : g.trunk.Done a.id n ↔ ∃ k < n, g.Walk k a.id := by
  induction n generalizing a with
  | zero => simp [g.trunk.not_done_zero]
  | succ n ih =>
    by_cases isStart : a.kind = Action.startKind
    · have done := (structural.clockwork.started member isStart (n + 1)).mpr (Nat.le_add_left ..)
      refine iff_of_true done ⟨0, Nat.succ_pos n, a, member, ?_, rfl⟩
      simpa [Action.isStart] using isStart
    · have passes := (structural.cases_of member).resolve_left isStart
      rw [structural.done_next member passes]
      constructor
      · intro fed
        obtain ⟨e, edge, port, target, done⟩ := fed
        obtain ⟨b, inside, source⟩ := List.mem_map.mp (structural.formed.ends e edge).1
        rw [← source, ih inside] at done
        obtain ⟨k, early, walk⟩ := done
        exact ⟨k + 1, Nat.succ_lt_succ early, e, edge, port, target, source ▸ walk⟩
      · intro walks
        obtain ⟨k, early, walk⟩ := walks
        cases k with
        | zero =>
          obtain ⟨b, inside, starts, same⟩ := walk
          cases structural.start_only inside member same
          exact (isStart (by simpa [Action.isStart] using starts)).elim
        | succ k =>
          obtain ⟨e, edge, port, target, walk⟩ := walk
          obtain ⟨b, inside, source⟩ := List.mem_map.mp (structural.formed.ends e edge).1
          refine ⟨e, edge, port, target, ?_⟩
          rw [← source] at walk ⊢
          exact (ih inside).mpr ⟨k, Nat.lt_of_succ_lt_succ early, walk⟩

theorem done_distance (member : a ∈ g.actions) (n : Nat) : g.trunk.Done a.id n ↔ g.distance a.id < n :=
  (structural.done_iff member n).trans g.distance_lt.symm

theorem phase_at (member : a ∈ g.actions) (n : Nat) (apart : a.kind = Action.startKind → 0 < n) :
    (g.trunk.course n).phase? a.id = some (if g.distance a.id < n then .completed else .idle) := by
  by_cases isStart : a.kind = Action.startKind
  · have done := (structural.clockwork.started member isStart n).mpr (apart isStart)
    rw [if_pos ((structural.done_distance member n).mp done)]
    exact done
  · have phase := structural.clockwork.passes member ((structural.cases_of member).resolve_left isStart) n
    have done := structural.done_distance member n
    rw [Done, phase] at done
    rw [phase]
    split at done <;> simp_all

theorem over_iff (n : ℕ) : (∀ a ∈ g.actions, g.trunk.Done a.id n) ↔
    1 + ⨆ a ∈ g.actions, g.distance a.id ≤ (n : ℕ∞) := by
  constructor
  · intro done
    obtain ⟨a, member, _⟩ := List.countP_pos_iff.mp (structural.formed.start ▸ Nat.one_pos)
    have some : n ≠ 0 := by
      intro none
      subst none
      exact g.trunk.not_done_zero a.id (done a member)
    obtain ⟨m, rfl⟩ := Nat.exists_eq_succ_of_ne_zero some
    have near : ⨆ a ∈ g.actions, g.distance a.id ≤ (m : ℕ∞) := by
      refine iSup₂_le fun a member => ?_
      have early := (structural.done_distance member _).mp (done a member)
      rw [Nat.cast_succ] at early
      exact Order.le_of_lt_add_one early
    calc 1 + ⨆ a ∈ g.actions, g.distance a.id ≤ 1 + (m : ℕ∞) := by gcongr
      _ = ((m + 1 : ℕ) : ℕ∞) := by rw [Nat.cast_succ, add_comm]
  · intro late a member
    rw [structural.done_distance member]
    have far : g.distance a.id ≤ ⨆ a ∈ g.actions, g.distance a.id :=
      le_iSup₂_of_le a member le_rfl
    apply lt_of_not_ge
    intro beyond
    have loop : ((1 + n : ℕ) : ℕ∞) ≤ n := calc
      ((1 + n : ℕ) : ℕ∞) = 1 + (n : ℕ∞) := Nat.cast_add 1 n
      _ ≤ 1 + g.distance a.id := by gcongr
      _ ≤ 1 + ⨆ a ∈ g.actions, g.distance a.id := by gcongr
      _ ≤ n := late
    have short : 1 + n ≤ n := Nat.cast_le.mp loop
    omega

end Structural
end Graph

namespace Launches

-- Graphs of the kinds that pass on are played breadth first. After `n` ticks just those actions are
-- completed that lie less than `n` edges from the start, and the others are idle, for ever if no walk
-- leads to them. So a run is over one tick after it reaches what is farthest away, and if something
-- cannot be reached it takes the whole budget.
theorem plays_breadth_first (launches : Launches Stage.core g e)
    (kinds : ∀ a ∈ g.actions, a.kind ∈ passKinds)
    (unguarded : ∀ e ∈ g.edges, e.guard = none) :
    (∀ n : ℕ, ∃ e', e.tickFor n = .ok e' ∧ ∀ a ∈ g.actions,
      (0 < n → (n : ℕ∞) ≤ g.distance a.id → e'.phase? a.id = some .idle) ∧
      (g.distance a.id < n → e'.phase? a.id = some .completed) ∧
      (g.distance a.id = ⊤ → e'.phase? a.id = some .idle)) ∧
    ∀ budget : ℕ, ∃ e', ∃ n : ℕ, e.runUntilComplete budget = .ok (e', n) ∧
      (n : ℕ∞) = min (budget : ℕ∞) (1 + ⨆ a ∈ g.actions, g.distance a.id) ∧
      ((∃ a ∈ g.actions, g.distance a.id = ⊤) → n = budget) := by
  obtain ⟨p, log, planned, _, loaded, _⟩ := launches.parts
  have structural : g.Structural := ⟨(Plan.ofGraph_ok_iff g).mp ⟨p, planned⟩, kinds, unguarded⟩
  obtain ⟨c, first, ticks⟩ := launches.ticks_on structural
  refine ⟨fun n => ⟨c n, (ticks n).1, fun a member => ?_⟩, fun budget => ?_⟩
  · rw [(ticks n).2.1.phase]
    refine ⟨fun begun near => ?_, fun near => ?_, fun never => ?_⟩
    · rw [structural.phase_at member n fun _ => begun, if_neg (not_lt.mpr near)]
    · exact (structural.done_distance member n).mpr near
    · have apart : a.kind ≠ Action.startKind := by
        intro isStart
        have done := (structural.clockwork.started member isStart 1).mpr (Nat.le_refl 1)
        rw [structural.done_distance member, never] at done
        exact not_top_lt done
      rw [structural.phase_at member n fun isStart => (apart isStart).elim, never, if_neg not_top_lt]
  · generalize far : 1 + ⨆ a ∈ g.actions, g.distance a.id = total
    have finite : min (budget : ℕ∞) total ≠ ⊤ :=
      ne_top_of_le_ne_top (ENat.natCast_ne_top budget) (min_le_left ..)
    obtain ⟨m, least⟩ := ENat.ne_top_iff_exists.mp finite
    have ends := far ▸ structural.over_iff
    subst first
    have within : m ≤ budget := Nat.cast_le.mp (least.trans_le (min_le_left ..))
    have enough : (m : ℕ∞) ≤ total := least.trans_le (min_le_right ..)
    refine ⟨c m, m, ?_, least, fun ⟨a, member, never⟩ => ?_⟩
    · refine Engine.ends_at loaded (fun n => (ticks n).2.1) (fun n => (ticks n).2.2) within ?_ ?_
      · intro k early
        by_contra none
        have done : ∀ a ∈ g.actions, g.trunk.Done a.id k :=
          fun a member => by_contra fun left => none ⟨a, member, left⟩
        have late := Nat.cast_le.mp (enough.trans ((ends k).mp done))
        omega
      · rcases min_choice (budget : ℕ∞) total with short | whole
        · exact .inl (Nat.cast_injective (least.trans short))
        · exact .inr ((ends m).mpr (least.trans whole).ge)
    · have endless : total = ⊤ := by
        rw [← far, eq_top_iff, ← never]
        exact le_add_left (le_iSup₂_of_le a member le_rfl)
      rw [endless, min_top_right] at least
      exact Nat.cast_injective least

-- A circle with a doubled edge, an edge on another port that would be a short cut, and an action that
-- only leads away.
def maze : Graph where
  actions := [{ id := "start", kind := Action.startKind }, { id := "near", kind := Action.fanoutKind },
    { id := "far", kind := Action.endKind }, { id := "lost", kind := Action.fanoutKind }]
  edges := [{ source := "start", target := "near" }, { source := "near", target := "far" },
    { source := "near", target := "far" }, { source := "far", target := "start" },
    { source := "start", target := "far", sourcePort := "aside" }, { source := "lost", target := "far" }]

def coreEngine : Engine := { stages := Stage.core, locked := true }

theorem maze_distances : maze.distance "far" = 2 ∧ maze.distance "lost" = ⊤ := by
  constructor
  · have less : maze.distance "far" < (3 : ℕ) := maze.distance_lt.mpr (by decide)
    have more : ¬maze.distance "far" < (2 : ℕ) := mt maze.distance_lt.mp (by decide)
    exact le_antisymm (Order.le_of_lt_add_one less) (not_lt.mp more)
  · refine iInf₂_eq_top.mpr fun n walk => ?_
    cases n with
    | zero => exact absurd walk (by decide)
    | succ n =>
      obtain ⟨e, edge, _, target, _⟩ := walk
      exact absurd ⟨e, edge, target⟩ (by decide : ¬∃ e ∈ maze.edges, e.target = "lost")

theorem maze_played : (∃ e', (coreEngine.load maze).1.tickFor 2 = .ok e' ∧ e'.phase? "far" = some .idle) ∧
    (∃ e', (coreEngine.load maze).1.tickFor 3 = .ok e' ∧ e'.phase? "far" = some .completed) ∧
    (∀ n, ∃ e', (coreEngine.load maze).1.tickFor n = .ok e' ∧ e'.phase? "lost" = some .idle) ∧
    ∀ budget, ∃ e', (coreEngine.load maze).1.runUntilComplete budget = .ok (e', budget) := by
  obtain ⟨far, lost⟩ := maze_distances
  obtain ⟨plays, runs⟩ := plays_breadth_first (g := maze) (.load coreEngine rfl rfl) (by decide)
    (by simp [maze])
  have far_member : { id := "far", kind := Action.endKind } ∈ maze.actions := by simp [maze]
  have lost_member : { id := "lost", kind := Action.fanoutKind } ∈ maze.actions := by simp [maze]
  refine ⟨?_, ?_, fun n => ?_, fun budget => ?_⟩
  · obtain ⟨e', ticked, phases⟩ := plays 2
    exact ⟨e', ticked, (phases _ far_member).1 Nat.two_pos far.ge⟩
  · obtain ⟨e', ticked, phases⟩ := plays 3
    refine ⟨e', ticked, (phases _ far_member).2.1 ?_⟩
    rw [far]
    decide
  · obtain ⟨e', ticked, phases⟩ := plays n
    exact ⟨e', ticked, (phases _ lost_member).2.2 lost⟩
  · obtain ⟨e', n, ran, _, endless⟩ := runs budget
    exact ⟨e', endless ⟨_, lost_member, lost⟩ ▸ ran⟩

end Launches
end ActionGraph
