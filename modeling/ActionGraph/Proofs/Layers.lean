import ActionGraph.Proofs.Timing
-- Layers, each a fanout into parallel delays and a join of all of them. Each layer takes two ticks and
-- as many more as its slowest delay does, so the tick in which the run is over is known.
namespace ActionGraph

theorem underscore_apart (n : Nat) : '_' ∉ (toString n).toList := by
  intro member
  rw [Nat.toString_eq_repr, Nat.toList_repr] at member
  have digit := Nat.isDigit_of_mem_toDigits (by decide) (by decide) member
  cases digit

theorem numeral_injective {m n : Nat} (same : m.repr = n.repr) : m = n := by
  rw [Nat.repr_eq_ofList_toDigits, Nat.repr_eq_ofList_toDigits, String.ofList_inj] at same
  rw [← Nat.ofDigitChars_ten_toDigits (n := m), same, Nat.ofDigitChars_ten_toDigits]

inductive Stop where
  | start
  | fan (layer : Nat)
  | lane (layer place : Nat)
  | join (layer : Nat)
  | finish
  deriving DecidableEq

namespace Stop

def id : Stop → String
  | start => "start"
  | fan layer => Graph.fanId layer
  | lane layer place => Graph.laneId layer place
  | join layer => Graph.joinId layer
  | finish => "end"

theorem laneId_injective {layer place layer' place' : Nat}
    (same : Graph.laneId layer place = Graph.laneId layer' place') : layer = layer' ∧ place = place' := by
  have letters := congrArg String.toList same
  simp only [Graph.laneId, String.toList_append, List.append_assoc, List.append_cancel_left_eq] at letters
  have underscore : "_".toList = ['_'] := rfl
  rw [underscore, List.singleton_append, List.singleton_append,
    List.append_cons_inj_of_notMem (underscore_apart _) (underscore_apart _)] at letters
  obtain ⟨first, _, second⟩ := letters
  exact ⟨numeral_injective (String.toList_inj.mp first), numeral_injective (String.toList_inj.mp second)⟩

theorem id_injective : Function.Injective Stop.id := by
  intro s s' same
  have letters := congrArg String.toList same
  cases s <;> cases s'
  case fan.fan => exact congrArg _ (numeral_injective (by simpa [Stop.id, Graph.fanId] using same))
  case join.join => exact congrArg _ (numeral_injective (by simpa [Stop.id, Graph.joinId] using same))
  case lane.lane =>
    obtain ⟨rfl, rfl⟩ := laneId_injective same
    rfl
  case start.start | finish.finish => rfl
  all_goals simp [Stop.id, Graph.fanId, Graph.joinId, Graph.laneId] at letters

def action : Stop → Action
  | start => { id := "start", kind := Action.startKind }
  | fan layer => { id := Graph.fanId layer, kind := Action.fanoutKind }
  | lane layer place => Graph.delayAction (Graph.laneId layer place) (Graph.laneTicks place)
  | join layer => { id := Graph.joinId layer, kind := Action.joinKind }
  | finish => { id := "end", kind := Action.endKind }

@[simp] theorem action_id (s : Stop) : s.action.id = s.id := by cases s <;> rfl

def before : Nat → Stop
  | 0 => start
  | layer + 1 => join layer

theorem before_id (layer : Nat) : (before layer).id = Graph.beforeLayer layer := by
  cases layer <;> rfl

def all (width depth : Nat) : List Stop :=
  start :: (List.range depth).flatMap (fun layer =>
    fan layer :: join layer :: (List.range width).map (lane layer)) ++ [finish]

def Within (width depth : Nat) : Stop → Prop
  | start | finish => True
  | fan layer | join layer => layer < depth
  | lane layer place => layer < depth ∧ place < width

inductive Flows (width depth : Nat) : Stop → Stop → Prop where
  | enter (inside : layer < depth) : Flows width depth (before layer) (fan layer)
  | split (inside : layer < depth) (among : place < width) :
    Flows width depth (fan layer) (lane layer place)
  | merge (inside : layer < depth) (among : place < width) :
    Flows width depth (lane layer place) (join layer)
  | leave : Flows width depth (before depth) finish

theorem Flows.within {s s' : Stop} (flows : Flows width depth s s') :
    s.Within width depth ∧ s'.Within width depth := by
  have earlier : ∀ layer ≤ depth, (before layer).Within width depth := by
    intro layer inside
    cases layer with
    | zero => trivial
    | succ layer => exact inside
  cases flows with
  | enter inside => exact ⟨earlier _ (Nat.le_of_lt inside), inside⟩
  | split inside among => exact ⟨inside, inside, among⟩
  | merge inside among => exact ⟨⟨inside, among⟩, inside⟩
  | leave => exact ⟨earlier _ (Nat.le_refl _), trivial⟩

theorem mem_all {s : Stop} : s ∈ all width depth ↔ s.Within width depth := by
  cases s <;> simp [all, Within]

theorem all_nodup (width depth : Nat) : (all width depth).Nodup := by
  have layers : ((List.range depth).flatMap fun layer =>
      fan layer :: join layer :: (List.range width).map (lane layer)).Nodup := by
    refine List.nodup_flatMap.mpr ⟨fun layer _ => ?_, List.nodup_range.imp fun differ => ?_⟩
    · simp [List.nodup_map_iff_inj_on, List.nodup_range]
    · intro s member member'
      simp only [List.mem_cons, List.mem_map] at member member'
      rcases member with rfl | rfl | ⟨place, _, rfl⟩ <;> simp_all
  have last : finish ∉ start :: (List.range depth).flatMap fun layer =>
      fan layer :: join layer :: (List.range width).map (lane layer) := by simp
  have first : start ∉ (List.range depth).flatMap fun layer =>
      fan layer :: join layer :: (List.range width).map (lane layer) := by simp
  rw [all, ← List.concat_eq_append]
  exact (List.nodup_cons.mpr ⟨first, layers⟩).concat last

end Stop

namespace Graph
variable {width depth : Nat}

theorem layered_actions : (layered width depth).actions = (Stop.all width depth).map Stop.action := by
  simp only [layered, Stop.all, List.map_append, List.map_cons, List.map_flatMap, List.map_map]
  rfl

theorem layered_edges : e ∈ (layered width depth).edges ↔
    ∃ s s', Stop.Flows width depth s s' ∧ e = { source := s.id, target := s'.id } := by
  constructor
  · intro member
    simp only [layered, layerEdges, List.mem_append, List.mem_flatMap, List.mem_range, List.mem_cons,
      List.not_mem_nil, or_false] at member
    rcases member with ⟨layer, inside, rfl | ⟨place, among, rfl | rfl⟩⟩ | rfl
    · exact ⟨_, _, .enter inside, by rw [Stop.before_id]; rfl⟩
    · exact ⟨_, _, .split inside among, rfl⟩
    · exact ⟨_, _, .merge inside among, rfl⟩
    · exact ⟨_, _, .leave, by rw [Stop.before_id]; rfl⟩
  · rintro ⟨s, s', flows, rfl⟩
    simp only [layered, layerEdges, List.mem_append, List.mem_flatMap, List.mem_range, List.mem_cons,
      List.not_mem_nil, or_false]
    cases flows with
    | @enter layer inside => exact .inl ⟨layer, inside, .inl (by rw [Stop.before_id]; rfl)⟩
    | @split layer place inside among => exact .inl ⟨layer, inside, .inr ⟨place, among, .inl rfl⟩⟩
    | @merge layer place inside among => exact .inl ⟨layer, inside, .inr ⟨place, among, .inr rfl⟩⟩
    | leave => exact .inr (by rw [Stop.before_id]; rfl)

theorem layered_clockwork (width depth : Nat) : (layered width depth).Clockwork where
  formed := by
    have ids : (layered width depth).actions.map (·.id) = (Stop.all width depth).map Stop.id := by
      simp [layered_actions, Function.comp_def]
    refine ⟨?_, fun e member => ?_, ?_⟩
    · rw [ids]
      exact (Stop.all_nodup width depth).map Stop.id_injective
    · rw [ids]
      obtain ⟨s, s', flows, rfl⟩ := layered_edges.mp member
      obtain ⟨here, there⟩ := flows.within
      exact ⟨List.mem_map_of_mem (Stop.mem_all.mpr here), List.mem_map_of_mem (Stop.mem_all.mpr there)⟩
    · have starts : Action.isStart ∘ Stop.action = (· == Stop.start) := by
        funext s
        cases s <;> rfl
      rw [layered_actions, List.countP_map, starts]
      exact List.count_eq_one_of_mem (Stop.all_nodup width depth) (Stop.mem_all.mpr trivial)
  kinds a member := by
    rw [layered_actions] at member
    obtain ⟨s, _, rfl⟩ := List.mem_map.mp member
    cases s <;> simp [Stop.action, timedKinds, delayAction, Delay.kind]
  edges e member := by
    obtain ⟨_, _, _, rfl⟩ := layered_edges.mp member
    exact ⟨rfl, rfl⟩

end Graph

namespace Stop
variable {width depth : Nat}

theorem fed {s s' : Stop} (flows : Flows width depth s s')
    (only : ∀ other, Flows width depth other s' → other = s) :
    (Graph.layered width depth).FedBy s'.action.id s.id := by
  rw [action_id]
  refine ⟨List.countP_pos_iff.mpr ⟨_, Graph.layered_edges.mpr ⟨s, s', flows, rfl⟩, by simp⟩, ?_⟩
  intro e member target
  obtain ⟨other, s'', flows', rfl⟩ := Graph.layered_edges.mp member
  obtain rfl := id_injective target
  rw [only other flows']

theorem member {s : Stop} (within : s.Within width depth) :
    s.action ∈ (Graph.layered width depth).actions := by
  rw [Graph.layered_actions]
  exact List.mem_map_of_mem (mem_all.mpr within)

-- The tick in which what stands before a layer completes.
def since (width layer : Nat) : Nat := 1 + layer * (min width 3 + 2)

theorem since_succ (width layer : Nat) : since width (layer + 1) = since width layer + (min width 3 + 2) := by
  rw [since, since, Nat.add_mul]
  omega

section Layer
variable (inside : layer < depth)
  (entered : (Graph.layered width depth).DoneAt (before layer).id (since width layer))
include inside entered

theorem fan_done : (Graph.layered width depth).DoneAt (fan layer).id (since width layer + 1) := by
  have clock := Graph.layered_clockwork width depth
  rw [← action_id]
  refine clock.passes_at (member (s := fan layer) inside) (.inl rfl) (fed (.enter inside) ?_) entered
  intro other flows
  cases flows
  rfl

theorem lane_done (among : place < width) :
    (Graph.layered width depth).DoneAt (lane layer place).id (since width layer + 2 + place % 3) := by
  have clock := Graph.layered_clockwork width depth
  have patience : (lane layer place).action.patience = place % 3 + 1 := by
    rw [action, Graph.delayAction_patience, Graph.laneTicks, Int64.toInt_ofNat_of_lt (by omega)]
    omega
  have within : (lane layer place).Within width depth := ⟨inside, among⟩
  have done := clock.delays_at (member within) rfl (fed (.split inside among) ?_)
    (fan_done inside entered)
  · rw [patience, action_id] at done
    rwa [show since width layer + 2 + place % 3 = since width layer + 1 + (place % 3 + 1) by omega]
  · intro other flows
    cases flows
    rfl

theorem join_done (busy : 0 < width) :
    (Graph.layered width depth).DoneAt (join layer).id (since width (layer + 1)) := by
  have clock := Graph.layered_clockwork width depth
  have slowest := since_succ width layer
  intro n
  cases n with
  | zero =>
    refine iff_of_false (Graph.not_done_zero _ _) ?_
    omega
  | succ n =>
    have fed : 0 < (Graph.layered width depth).indegree (join layer).action.id :=
      List.countP_pos_iff.mpr ⟨_, Graph.layered_edges.mpr ⟨_, _, .merge inside busy, rfl⟩, by simp⟩
    have waits : (Graph.layered width depth).Done (join layer).id (n + 1) ↔
        ∀ place < width, since width layer + 2 + place % 3 ≤ n := by
      rw [← action_id, clock.joins_all (member (s := join layer) inside) rfl rfl fed]
      constructor
      · intro done place among
        rw [← lane_done inside entered among n]
        exact done _ (Graph.layered_edges.mpr ⟨_, _, .merge inside among, rfl⟩) (action_id (join layer)).symm
      · intro late e member target
        obtain ⟨s, s', flows, rfl⟩ := Graph.layered_edges.mp member
        obtain rfl := id_injective (target.trans (action_id _))
        cases flows with
        | @merge _ place _ among => exact (lane_done inside entered among n).mpr (late place among)
    rw [waits]
    constructor
    · intro late
      have last := late (min width 3 - 1) (by omega)
      omega
    · intro late place among
      omega

end Layer

section Busy
variable (busy : 0 < width)
include busy

theorem entered (inside : layer ≤ depth) :
    (Graph.layered width depth).DoneAt (before layer).id (since width layer) := by
  induction layer with
  | zero =>
    have clock := Graph.layered_clockwork width depth
    rw [since, Nat.zero_mul]
    exact clock.started (member (s := start) trivial) rfl
  | succ layer ih => exact join_done inside (ih (Nat.le_of_lt inside)) busy

theorem finish_done : (Graph.layered width depth).DoneAt finish.id (since width depth + 1) := by
  have clock := Graph.layered_clockwork width depth
  refine clock.passes_at (member (s := finish) trivial) (.inr rfl) (fed .leave ?_)
    (entered busy (Nat.le_refl depth))
  intro other flows
  cases flows
  rfl

theorem done_iff (n : Nat) : (∀ a ∈ (Graph.layered width depth).actions,
    (Graph.layered width depth).Done a.id n) ↔ since width depth + 1 ≤ n := by
  constructor
  · intro done
    exact (finish_done busy n).mp (done _ (member (s := finish) trivial))
  · intro late a member
    have earlier : ∀ layer < depth, since width (layer + 1) ≤ since width depth := by
      intro layer inside
      exact Nat.add_le_add_left (Nat.mul_le_mul_right _ inside) 1
    rw [Graph.layered_actions] at member
    obtain ⟨s, inside, rfl⟩ := List.mem_map.mp member
    rw [mem_all] at inside
    rw [action_id]
    cases s with
    | start => exact (entered busy (Nat.zero_le depth) n).mpr (by rw [since] at *; omega)
    | fan layer =>
      have last := earlier layer inside
      rw [since_succ] at last
      exact (fan_done inside (entered busy (Nat.le_of_lt inside)) n).mpr (by omega)
    | lane layer place =>
      obtain ⟨inside, among⟩ := inside
      have last := earlier layer inside
      rw [since_succ] at last
      exact (lane_done inside (entered busy (Nat.le_of_lt inside)) among n).mpr (by omega)
    | join layer =>
      have last := earlier layer inside
      have next : layer + 1 ≤ depth := inside
      exact (entered busy next n).mpr (by omega)
    | finish => exact (finish_done busy n).mpr late

end Busy

theorem join_never (inside : layer < depth) (n : Nat) :
    ¬(Graph.layered 0 depth).Done (join layer).id n := by
  have barren : (Graph.layered 0 depth).indegree (join layer).action.id = 0 := by
    refine List.countP_eq_zero.mpr fun e edge => ?_
    obtain ⟨s, s', flows, rfl⟩ := Graph.layered_edges.mp edge
    simp only [decide_eq_true_eq]
    intro target
    obtain rfl := id_injective (target.trans (action_id _))
    cases flows with
    | merge _ among => exact Nat.not_lt_zero _ among
  exact (Graph.layered_clockwork 0 depth).joins_never (member (s := join layer) inside) rfl barren n

end Stop

namespace Chronicle

-- Any number of layers of any width is well formed. With lanes in them every action is completed in
-- one tick that is known beforehand, and not all of them are before. Without lanes the run goes on
-- for as long as it may.
theorem layers_complete (width depth : Nat) :
    (∃ d, (Graph.layered width depth).check = .ok d) ∧
    ∀ e, Opens (Graph.layered width depth) e →
      (0 < width →
        (∀ n, ∃ c, (⟨e, []⟩ : Chronicle).play (List.replicate n .tick) = .ok c ∧
          (c.engine.isComplete = true ↔ 2 + depth * (min width 3 + 2) ≤ n)) ∧
        ∀ budget, ∃ e',
          e.runUntilComplete budget = .ok (e', min budget (2 + depth * (min width 3 + 2))) ∧
          (2 + depth * (min width 3 + 2) ≤ budget →
            ∀ a ∈ (Graph.layered width depth).actions, e'.phase? a.id = some .completed)) ∧
      (width = 0 → 0 < depth → ∀ budget, ∃ e',
        e.runUntilComplete budget = .ok (e', budget) ∧ e'.isComplete = false) := by
  have clock := Graph.layered_clockwork width depth
  refine ⟨(Graph.check_ok_iff _).mpr clock.formed, fun e opens => ⟨fun busy => ?_, ?_⟩⟩
  · have total : 2 + depth * (min width 3 + 2) = Stop.since width depth + 1 := by
      rw [Stop.since]
      omega
    rw [total]
    have ends : ∀ n, (∀ a ∈ (Graph.layered width depth).actions,
        (Graph.layered width depth).Done a.id n) ↔ Stop.since width depth + 1 ≤ n := Stop.done_iff busy
    obtain ⟨c, _, keeps⟩ := ticks_on opens clock
    refine ⟨fun n => ?_, fun budget => ?_⟩
    · obtain ⟨played, keeps, _⟩ := keeps n
      exact ⟨c n, played, keeps.complete.trans (ends n)⟩
    · obtain ⟨e', runs, keeps⟩ := runs_over opens clock ends budget
      refine ⟨e', runs, fun enough a member => ?_⟩
      rw [keeps.phase]
      exact (ends _).mpr (by omega) a member
  · rintro rfl deep budget
    have member : (Stop.join 0).action ∈ (Graph.layered 0 depth).actions := Stop.member deep
    have never : ∀ n, ¬(Graph.layered 0 depth).Done (Stop.join 0).action.id n := Stop.join_never deep
    obtain ⟨e', runs, keeps⟩ := runs_out opens clock member never budget
    exact ⟨e', runs, Bool.eq_false_iff.mpr fun ends => never _ (keeps.complete.mp ends _ member)⟩

theorem two_lanes_complete : ∀ budget, ∃ e',
    (relayEngine.load (Graph.layered 2 1)).1.runUntilComplete budget = .ok (e', min budget 6) ∧
    (6 ≤ budget → ∀ a ∈ (Graph.layered 2 1).actions, e'.phase? a.id = some .completed) :=
  (((layers_complete 2 1).2 _ (.load relayEngine rfl rfl)).1 (by decide)).2

end Chronicle
end ActionGraph
