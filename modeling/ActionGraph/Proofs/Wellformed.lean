import ActionGraph.Proofs.Plan
-- What the structural check asks of a graph: ids that differ, edges between ids that are there, and
-- one start. None of it depends on the order in which actions and edges are written down.
namespace ActionGraph.Graph

structure Wellformed (g : Graph) : Prop where
  ids : (g.actions.map (·.id)).Nodup
  ends : ∀ e ∈ g.edges, e.source ∈ g.actions.map (·.id) ∧ e.target ∈ g.actions.map (·.id)
  start : g.actions.countP Action.isStart = 1

theorem enrol_ok_iff (actions : List Action) (i : Nat) (known : Keyed Nat) :
    (∃ all, enrol actions i known = .ok all) ↔
      (actions.map (·.id)).Nodup ∧ ∀ a ∈ actions, known.contains a.id = false := by
  induction actions generalizing i known with
  | nil => simp [enrol]
  | cons a rest ih =>
    have later : (∀ b ∈ rest, (known.insert a.id i).contains b.id = false) ↔
        a.id ∉ rest.map (·.id) ∧ ∀ b ∈ rest, known.contains b.id = false := by
      simp only [Keyed.contains, Keyed.get?_insert, List.mem_map, not_exists, not_and]
      rw [← forall₂_and]
      refine forall₂_congr fun b _ => ?_
      by_cases same : b.id = a.id
      · simp [same]
      · simp [same, Ne.symm same]
    unfold enrol
    split
    · next taken => simp [taken]
    · next fresh =>
      rw [ih, later]
      simp only [List.map_cons, List.nodup_cons, List.forall_mem_cons]
      simp only [fresh]
      tauto

theorem checkEdges_ok_iff (known : Keyed Nat) (edges : List Edge) (i : Nat) :
    checkEdges known edges i = .ok () ↔
      ∀ e ∈ edges, known.contains e.source = true ∧ known.contains e.target = true := by
  constructor
  · exact checkEdges_known
  · intro ends
    induction edges generalizing i with
    | nil => rfl
    | cons e rest ih =>
      obtain ⟨source, target⟩ := ends e List.mem_cons_self
      rw [checkEdges, source, target]
      exact ih _ fun later member => ends later (List.mem_cons_of_mem _ member)

theorem theStart_ok_iff (actions : List Action) :
    (∃ i, theStart actions = .ok i) ↔ actions.countP Action.isStart = 1 := by
  rw [← positionsOf_length, List.length_eq_one_iff, theStart]
  split <;> simp_all

theorem enrol_contains {actions : List Action} {all : Keyed Nat}
    (enrolled : enrol actions 0 ∅ = .ok all) (id : String) :
    all.contains id = true ↔ id ∈ actions.map (·.id) := by
  rw [Keyed.contains, Option.isSome_iff_exists, List.mem_iff_getElem?]
  simp only [enrolled_get? enrolled, List.getElem?_map]

theorem check_ok_iff (g : Graph) : (∃ d, g.check = .ok d) ↔ g.Wellformed := by
  constructor
  · rintro ⟨d, checked⟩
    obtain ⟨enrolled, edges, start⟩ := check_parts checked
    refine ⟨((enrol_ok_iff ..).mp ⟨_, enrolled⟩).1, ?_, (theStart_ok_iff _).mp ⟨_, start⟩⟩
    simpa only [enrol_contains enrolled] using checkEdges_known edges
  · intro formed
    obtain ⟨known, enrolled⟩ := (enrol_ok_iff g.actions 0 ∅).mpr ⟨formed.ids, fun _ _ => rfl⟩
    have edges : checkEdges known g.edges 0 = .ok () := by
      rw [checkEdges_ok_iff]
      simpa only [enrol_contains enrolled] using formed.ends
    obtain ⟨start, found⟩ := (theStart_ok_iff g.actions).mpr formed.start
    refine ⟨⟨known, start⟩, ?_⟩
    simp only [check, enrolled, edges, found, bind, Except.bind, pure, Except.pure]

theorem Wellformed.perm {g g' : Graph} (formed : g.Wellformed) (actions : g.actions.Perm g'.actions)
    (edges : g.edges.Perm g'.edges) : g'.Wellformed where
  ids := (actions.map _).nodup_iff.mp formed.ids
  ends e member := by
    simpa only [(actions.map (·.id)).mem_iff] using formed.ends e (edges.mem_iff.mpr member)
  start := actions.countP_eq _ ▸ formed.start

end Graph

theorem Plan.ofGraph_ok_iff (g : Graph) : (∃ p, ofGraph g = .ok p) ↔ g.Wellformed := by
  rw [← Graph.check_ok_iff]
  constructor
  · rintro ⟨p, planned⟩
    obtain ⟨d, checked, _⟩ := ofGraph_parts planned
    exact ⟨d, checked⟩
  · rintro ⟨d, checked⟩
    exact ⟨_, by rw [ofGraph, checked]; rfl⟩

end ActionGraph
