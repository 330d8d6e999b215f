import ActionGraph.Proofs.Timing
-- Delays side by side, and a join that waits for some of them. The join completes one tick after the
-- last delay that it waits for, whichever delays these are.
namespace ActionGraph

theorem sorted_admits {test : Nat → Bool} (down : ∀ a b, a ≤ b → test b = true → test a = true)
    {xs : List Nat} (sorted : xs.Pairwise (· ≤ ·)) {k x : Nat} (there : xs[k]? = some x) :
    test x = true ↔ k < xs.countP test := by
  induction xs generalizing k with
  | nil => cases there
  | cons first rest ih =>
    obtain ⟨least, sorted⟩ := List.pairwise_cons.mp sorted
    by_cases admits : test first = true
    · rw [List.countP_cons_of_pos admits]
      cases k with
      | zero =>
        cases there
        exact iff_of_true admits (Nat.succ_pos _)
      | succ k => rw [ih sorted there, Nat.succ_lt_succ_iff]
    · have none : (first :: rest).countP test = 0 := by
        refine List.countP_eq_zero.mpr fun y member passes => admits ?_
        rcases List.mem_cons.mp member with rfl | later
        · exact passes
        · exact down _ _ (least y later) passes
      rw [none]
      refine iff_of_false (fun passes => admits ?_) (Nat.not_lt_zero k)
      rcases List.mem_cons.mp (List.mem_of_getElem? there) with rfl | later
      · exact passes
      · exact down _ _ (least x later) passes

structure FanIn where
  start : String
  -- The delays, each with the ticks that it is given.
  lanes : List (String × Int64)
  join : String
  count : Nat
  finish : String
  ids : (start :: lanes.map Prod.fst ++ [join, finish]).Nodup
  busy : lanes ≠ []
  counts : 1 ≤ count ∧ count < UInt32.size

namespace FanIn
variable (f : FanIn)

def joinAction : Action where
  id := f.join
  kind := Action.joinKind
  properties := Keyed.empty.insert "count" (.int (Int64.ofNat f.count))

def graph : Graph where
  actions := { id := f.start, kind := Action.startKind } ::
    f.lanes.map (fun lane => Graph.delayAction lane.1 lane.2) ++
      [f.joinAction, { id := f.finish, kind := Action.endKind }]
  edges := f.lanes.map (fun lane => { source := f.start, target := lane.1 }) ++
    f.lanes.map (fun lane => { source := lane.1, target := f.join }) ++
      [{ source := f.join, target := f.finish }]

def waits : List Nat := f.lanes.map fun lane => max 1 lane.2.toInt.toNat

-- The smallest number of ticks in which so many of the delays are over.
def nth? (k : Nat) : Option Nat := (f.waits.mergeSort fun a b => a ≤ b)[k - 1]?

theorem nth?_admits (test : Nat → Bool) (down : ∀ a b, a ≤ b → test b = true → test a = true)
    {k x : Nat} (positive : 1 ≤ k) (there : f.nth? k = some x) :
    test x = true ↔ k ≤ f.waits.countP test := by
  have sorted : (f.waits.mergeSort fun a b => a ≤ b).Pairwise (· ≤ ·) := by
    refine (List.pairwise_mergeSort ?_ ?_ f.waits).imp of_decide_eq_true
    · simp only [decide_eq_true_eq]; omega
    · simp only [Bool.or_eq_true, decide_eq_true_eq]; omega
  rw [sorted_admits down sorted there, (List.mergeSort_perm ..).countP_eq]
  omega

def joined (b c : Int64) : FanIn where
  start := "start"
  lanes := [("b", b), ("c", c)]
  join := "join"
  count := 2
  finish := "end"
  ids := by simp
  busy := by simp
  counts := by decide

example (b c : Int64) : (joined b c).graph = Graph.joined b c := rfl

theorem mem_actions : a ∈ f.graph.actions ↔ a = { id := f.start, kind := Action.startKind } ∨
    (∃ lane ∈ f.lanes, a = Graph.delayAction lane.1 lane.2) ∨ a = f.joinAction ∨
    a = { id := f.finish, kind := Action.endKind } := by
  simp [graph, eq_comm]

theorem mem_edges : e ∈ f.graph.edges ↔ (∃ lane ∈ f.lanes, e = { source := f.start, target := lane.1 }) ∨
    (∃ lane ∈ f.lanes, e = { source := lane.1, target := f.join }) ∨
    e = { source := f.join, target := f.finish } := by
  simp [graph, eq_comm]

theorem apart : (f.start ≠ f.join ∧ f.start ≠ f.finish ∧ f.join ≠ f.finish) ∧
    ∀ lane ∈ f.lanes, f.start ≠ lane.1 ∧ lane.1 ≠ f.join ∧ lane.1 ≠ f.finish := by
  have ids := f.ids
  simp only [List.cons_append, List.nodup_cons, List.nodup_append, List.mem_append, List.mem_map,
    List.mem_cons, List.not_mem_nil, or_false, not_or, not_exists, not_and] at ids
  obtain ⟨⟨first, join, finish⟩, _, ⟨last, _⟩, behind⟩ := ids
  refine ⟨⟨join, finish, last⟩, fun lane member => ⟨fun same => first lane member same.symm, ?_, ?_⟩⟩
  · exact behind _ ⟨lane, member, rfl⟩ _ (.inl rfl)
  · exact behind _ ⟨lane, member, rfl⟩ _ (.inr rfl)

theorem clockwork : f.graph.Clockwork where
  formed := by
    have ids : f.graph.actions.map (·.id) = f.start :: f.lanes.map Prod.fst ++ [f.join, f.finish] := by
      simp [graph, Graph.delayAction, joinAction, Function.comp_def]
    refine ⟨ids ▸ f.ids, ?_, ?_⟩
    · rw [ids]
      intro e member
      rcases f.mem_edges.mp member with ⟨lane, inside, rfl⟩ | ⟨lane, inside, rfl⟩ | rfl
      · simp [List.mem_map_of_mem inside]
      · simp [List.mem_map_of_mem inside]
      · simp
    · have none : (f.lanes.map fun lane => Graph.delayAction lane.1 lane.2).countP Action.isStart = 0 := by
        simp [List.countP_map, List.countP_eq_zero, Graph.delayAction, Action.isStart, Action.startKind]
      rw [graph, List.countP_append, List.countP_cons, none]
      rfl
  kinds a member := by
    rcases f.mem_actions.mp member with rfl | ⟨lane, _, rfl⟩ | rfl | rfl
    · simp [timedKinds]
    · simp [timedKinds, Graph.delayAction, Delay.kind]
    · simp [timedKinds, joinAction]
    · simp [timedKinds]
  edges e member := by
    rcases f.mem_edges.mp member with ⟨lane, _, rfl⟩ | ⟨lane, _, rfl⟩ | rfl
    all_goals exact ⟨rfl, rfl⟩

theorem start_done : f.graph.DoneAt f.start 1 :=
  f.clockwork.started (f.mem_actions.mpr (.inl rfl)) rfl

theorem lane_done (inside : lane ∈ f.lanes) :
    f.graph.DoneAt lane.1 (1 + max 1 lane.2.toInt.toNat) := by
  have member := f.mem_actions.mpr (.inr (.inl ⟨lane, inside, rfl⟩))
  obtain ⟨_, apart⟩ := f.apart
  obtain ⟨_, notJoin, notFinish⟩ := apart lane inside
  rw [← Graph.delayAction_patience lane.1]
  refine f.clockwork.delays_at member rfl ⟨?_, fun e edge target => ?_⟩ f.start_done
  · exact List.countP_pos_iff.mpr ⟨_, f.mem_edges.mpr (.inl ⟨lane, inside, rfl⟩), by simp [Graph.delayAction]⟩
  · rcases f.mem_edges.mp edge with ⟨_, _, rfl⟩ | ⟨_, _, rfl⟩ | rfl
    · rfl
    · exact (notJoin target.symm).elim
    · exact (notFinish target.symm).elim

theorem join_arrived (n : Nat) :
    f.graph.arrived f.join n = f.waits.countP fun wait => wait + 2 ≤ n := by
  cases n with
  | zero => exact (List.countP_eq_zero.mpr fun _ _ => by simp).symm
  | succ n =>
    obtain ⟨⟨_, _, last⟩, apart⟩ := f.apart
    have first : (f.lanes.map fun lane => ({ source := f.start, target := lane.1 } : Edge)).countP
        (fun e => e.target = f.join ∧ f.graph.Done e.source n) = 0 := by
      rw [List.countP_map, List.countP_eq_zero]
      intro lane inside
      simp [(apart lane inside).2.1]
    have third : [({ source := f.join, target := f.finish } : Edge)].countP
        (fun e => e.target = f.join ∧ f.graph.Done e.source n) = 0 := by
      simp [last.symm]
    have edges : f.graph.edges = f.lanes.map (fun lane => { source := f.start, target := lane.1 }) ++
      f.lanes.map (fun lane => { source := lane.1, target := f.join }) ++
        [{ source := f.join, target := f.finish }] := rfl
    rw [Graph.arrived, Graph.inflow, edges, List.countP_append, List.countP_append, first, third,
      Nat.zero_add, Nat.add_zero, List.countP_map, waits, List.countP_map]
    refine List.countP_congr fun lane inside => ?_
    have done := f.lane_done inside n
    simp only [Function.comp, decide_eq_true_eq, true_and, done]
    omega

theorem joinCount_eq : f.graph.joinCount f.joinAction = f.count := by
  obtain ⟨positive, small⟩ := f.counts
  have fits : (Int64.ofNat f.count).toInt = f.count :=
    Int64.toInt_ofNat_of_lt (Nat.lt_trans small (by decide))
  have reads : Value.u32? (.int (Int64.ofNat f.count)) = some f.count := by
    simp only [Value.u32?, Value.below?, Value.int?, fits, Option.bind_some]
    exact if_pos ⟨by omega, by omega⟩
  rw [Graph.joinCount, joinAction, Keyed.get?_insert, if_pos rfl, Option.bind_some, reads, Option.getD_some]
  split
  · omega
  · rfl

theorem join_iff (n : Nat) :
    (f.graph.Done f.join n ↔ f.count ≤ f.waits.countP fun wait => wait + 2 ≤ n) ∧
      ((f.graph.course n).phase? f.join = some .listening ↔
        0 < (f.waits.countP fun wait => wait + 2 ≤ n) ∧
          (f.waits.countP fun wait => wait + 2 ≤ n) < f.count) := by
  have law := f.clockwork.joins_iff (f.mem_actions.mpr (.inr (.inr (.inl rfl)))) rfl n
  rwa [f.joinCount_eq, show f.joinAction.id = f.join from rfl, f.join_arrived] at law

theorem join_done (there : f.nth? f.count = some wait) : f.graph.DoneAt f.join (wait + 2) := by
  intro n
  have admits := f.nth?_admits (fun wait => wait + 2 ≤ n) (by simp; omega) f.counts.1 there
  rw [(f.join_iff n).1, ← admits, decide_eq_true_eq]

theorem finish_fed : f.graph.FedBy f.finish f.join := by
  obtain ⟨⟨_, _, last⟩, apart⟩ := f.apart
  refine ⟨List.countP_pos_iff.mpr ⟨_, f.mem_edges.mpr (.inr (.inr rfl)), by simp⟩, fun e edge target => ?_⟩
  rcases f.mem_edges.mp edge with ⟨lane, inside, rfl⟩ | ⟨_, _, rfl⟩ | rfl
  · exact ((apart lane inside).2.2 target).elim
  · exact (last target).elim
  · rfl

theorem finish_done (there : f.nth? f.count = some wait) : f.graph.DoneAt f.finish (wait + 3) :=
  f.clockwork.passes_at (f.mem_actions.mpr (.inr (.inr (.inr rfl)))) (.inr rfl) f.finish_fed
    (f.join_done there)

theorem done_iff (there : f.nth? f.count = some wait) (longest : f.waits.max? = some high) (n : Nat) :
    (∀ a ∈ f.graph.actions, f.graph.Done a.id n) ↔ max (wait + 3) (high + 1) ≤ n := by
  obtain ⟨longest, bound⟩ := List.max?_eq_some_iff.mp longest
  constructor
  · intro done
    obtain ⟨lane, inside, rfl⟩ := List.mem_map.mp longest
    have last := (f.finish_done there n).mp (done _ (f.mem_actions.mpr (.inr (.inr (.inr rfl)))))
    have slow := (f.lane_done inside n).mp (done _ (f.mem_actions.mpr (.inr (.inl ⟨lane, inside, rfl⟩))))
    omega
  · intro late a member
    rcases f.mem_actions.mp member with rfl | ⟨lane, inside, rfl⟩ | rfl | rfl
    · exact (f.start_done n).mpr (by omega)
    · have short := bound _ (List.mem_map_of_mem inside)
      exact (f.lane_done inside n).mpr (by omega)
    · exact (f.join_done there n).mpr (by omega)
    · exact (f.finish_done there n).mpr (by omega)

theorem listening_iff (there : f.nth? f.count = some wait) (shortest : f.waits.min? = some low) (n : Nat) :
    (f.graph.course n).phase? f.join = some .listening ↔ low + 2 ≤ n ∧ n ≤ wait + 1 := by
  obtain ⟨shortest, bound⟩ := List.min?_eq_some_iff.mp shortest
  obtain ⟨done, listening⟩ := f.join_iff n
  have first : (0 < f.waits.countP fun wait => wait + 2 ≤ n) ↔ low + 2 ≤ n := by
    rw [List.countP_pos_iff]
    constructor
    · rintro ⟨wait, member, late⟩
      have short := bound wait member
      simp only [decide_eq_true_eq] at late
      omega
    · exact fun late => ⟨low, shortest, decide_eq_true late⟩
  have before := not_congr (done.symm.trans (f.join_done there n))
  rw [listening, first]
  omega

theorem join_never (short : f.lanes.length < f.count) (n : Nat) : ¬f.graph.Done f.join n := by
  rw [(f.join_iff n).1, Nat.not_le]
  refine Nat.lt_of_le_of_lt List.countP_le_length ?_
  rwa [waits, List.length_map]

theorem nth?_some (enough : f.count ≤ f.lanes.length) : ∃ wait, f.nth? f.count = some wait := by
  have positive := f.counts.1
  have inside : f.count - 1 < (f.waits.mergeSort fun a b => a ≤ b).length := by
    rw [List.length_mergeSort, waits, List.length_map]
    omega
  exact ⟨_, List.getElem?_eq_getElem inside⟩

end FanIn

namespace Chronicle

-- The join completes in the second tick after the wait that its count picks out, and listens from the
-- second tick after the shortest wait until then. The end follows one tick later, and the run is over
-- when the longest wait is too. A count above the number of delays is never reached.
theorem fan_in_completes (f : FanIn) :
    (∀ e : Engine, e.closed = false → (e.load f.graph).2 = .ok ()) ∧ ∀ e, Opens f.graph e →
    ∃ low high, f.waits.min? = some low ∧ f.waits.max? = some high ∧
      (f.count ≤ f.lanes.length → ∃ wait, f.nth? f.count = some wait ∧
        (∀ n, ∃ c, (⟨e, []⟩ : Chronicle).play (List.replicate n .tick) = .ok c ∧
          c.engine.currentTick = n ∧
          (c.engine.phase? f.join = some .completed ↔ wait + 2 ≤ n) ∧
          (c.engine.phase? f.join = some .listening ↔ low + 2 ≤ n ∧ n ≤ wait + 1) ∧
          (c.engine.phase? f.finish = some .completed ↔ wait + 3 ≤ n)) ∧
        ∀ budget, ∃ e', e.runUntilComplete budget =
          .ok (e', min budget (max (wait + 3) (high + 1)))) ∧
      (f.lanes.length < f.count →
        (∀ n, ∃ c, (⟨e, []⟩ : Chronicle).play (List.replicate n .tick) = .ok c ∧
          c.engine.currentTick = n ∧ c.engine.phase? f.join ≠ some .completed) ∧
        ∀ budget, ∃ e', e.runUntilComplete budget = .ok (e', budget)) := by
  have clock := f.clockwork
  refine ⟨fun e isOpen => Engine.load_ok isOpen clock.formed, fun e opens => ?_⟩
  have some : f.waits ≠ [] := by simpa [FanIn.waits] using f.busy
  obtain ⟨low, shortest⟩ := Option.isSome_iff_exists.mp (List.isSome_min?_of_ne_nil some)
  obtain ⟨high, longest⟩ := Option.isSome_iff_exists.mp (List.isSome_max?_of_ne_nil some)
  obtain ⟨c, _, keeps⟩ := ticks_on opens clock
  refine ⟨low, high, shortest, longest, ?_, ?_⟩
  · intro enough
    obtain ⟨wait, there⟩ := f.nth?_some enough
    refine ⟨wait, there, fun n => ?_, fun budget => ?_⟩
    · obtain ⟨played, keeps, _⟩ := keeps n
      refine ⟨c n, played, keeps.tick, ?_⟩
      rw [keeps.phase, keeps.phase]
      exact ⟨f.join_done there n, f.listening_iff there shortest n, f.finish_done there n⟩
    · obtain ⟨e', runs, _⟩ := runs_over opens clock (f.done_iff there longest) budget
      exact ⟨e', runs⟩
  · intro short
    refine ⟨fun n => ?_, fun budget => ?_⟩
    · obtain ⟨played, keeps, _⟩ := keeps n
      exact ⟨c n, played, keeps.tick, keeps.phase f.join ▸ f.join_never short n⟩
    · have member := f.mem_actions.mpr (.inr (.inr (.inl rfl)))
      obtain ⟨e', runs, _⟩ := runs_out opens clock member (f.join_never short) budget
      exact ⟨e', runs⟩

theorem joined_completes :
    (∀ n, ∃ c, (⟨(relayEngine.load (Graph.joined 2 3)).1, []⟩ : Chronicle).play
        (List.replicate n .tick) = .ok c ∧ c.engine.currentTick = n ∧
      (c.engine.phase? "join" = some .completed ↔ 5 ≤ n) ∧
      (c.engine.phase? "join" = some .listening ↔ 4 ≤ n ∧ n ≤ 4) ∧
      (c.engine.phase? "end" = some .completed ↔ 6 ≤ n)) ∧
    ∀ budget, ∃ e', (relayEngine.load (Graph.joined 2 3)).1.runUntilComplete budget =
      .ok (e', min budget 6) := by
  have waits : (FanIn.joined 2 3).waits = [2, 3] := by decide
  obtain ⟨low, high, shortest, longest, completes, _⟩ :=
    (fan_in_completes (FanIn.joined 2 3)).2 _ (.load relayEngine rfl rfl)
  obtain ⟨wait, there, plays, runs⟩ := completes (by decide)
  rw [waits] at shortest longest
  rw [FanIn.nth?, waits, List.mergeSort_of_pairwise (by decide)] at there
  cases shortest
  cases longest
  cases there
  exact ⟨plays, runs⟩

end Chronicle
end ActionGraph
