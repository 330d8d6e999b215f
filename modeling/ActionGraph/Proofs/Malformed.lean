import ActionGraph.Proofs.Mirrors
-- A property that its stage cannot make sense of counts as none. Taking it out of the graph changes
-- nothing but the reports.
namespace ActionGraph

def Action.malformed (a : Action) (key : String) : Bool :=
  Slot.all.any fun slot => slot.kind == a.kind && slot.key == key &&
    (a.properties.get? key).any fun v => !slot.want.takes v

def Action.without (a : Action) (key : String) : Action :=
  { a with properties := a.properties.erase key }

def Action.face (a : Action) : String × String := (a.id, a.kind)

theorem Action.malformed_useless {a : Action} (bad : a.malformed key = true) :
    ∃ v, a.properties.get? key = some v ∧ v.Useless key := by
  obtain ⟨slot, member, fits⟩ := List.any_eq_true.mp bad
  simp only [Bool.and_eq_true, beq_iff_eq, Option.any_eq_true, Bool.not_eq_true'] at fits
  obtain ⟨⟨_, same⟩, v, there, refuses⟩ := fits
  exact ⟨v, there, slot, member, same, refuses⟩

namespace Graph

def without (g : Graph) (i : Nat) (key : String) : Graph :=
  { g with actions := g.actions.modify i (·.without key) }

theorem without_at {g : Graph} (there : g.actions[i]? = some a) (key : String) :
    (g.without i key).actions[i]? = some (a.without key) := by
  rw [without, List.getElem?_modify_eq, there]
  rfl

theorem without_other (g : Graph) (differ : i ≠ j) (key : String) :
    (g.without i key).actions[j]? = g.actions[j]? := by
  rw [without, List.getElem?_modify_ne _ _ differ]

theorem without_like {g : Graph} (there : g.actions[i]? = some a) (bad : a.malformed key = true) :
    g.Like (g.without i key) where
  ids := by
    intro j
    by_cases same : i = j
    · subst same
      rw [without_at there, there]
      rfl
    · rw [without_other g same]
  bindings := by
    intro j name
    by_cases same : i = j
    · subst same
      rw [without_at there, there]
      rfl
    · rw [without_other g same]
  properties := by
    intro j other
    by_cases same : i = j
    · subst same
      simp only [property?, without_at there, there, Option.bind_some, Action.without, Keyed.get?_erase]
      split
      · next hit =>
        subst hit
        exact .inr ⟨rfl, a.malformed_useless bad⟩
      · exact .inl rfl
    · exact .inl (by rw [property?, without_other g same, property?])

section Faces
variable {as bs : List Action} (same : as.map Action.face = bs.map Action.face)

theorem enrol_faces (same : as.map Action.face = bs.map Action.face) (i : Nat) (known : Keyed Nat) :
    enrol as i known = enrol bs i known := by
  induction as generalizing bs i known with
  | nil => rw [List.map_eq_nil_iff.mp same.symm]
  | cons a as ih =>
    cases bs with
    | nil => cases same
    | cons b bs =>
      obtain ⟨first, rest⟩ := List.cons.inj same
      obtain ⟨id, _⟩ := Prod.mk.inj first
      rw [enrol, enrol, id]
      split
      · rfl
      · exact ih rest (i + 1) _

include same

theorem positionsOf_faces (q : String × String → Bool) :
    positionsOf (q ∘ Action.face) as = positionsOf (q ∘ Action.face) bs := by
  have through : ∀ l : List Action, positionsOf (q ∘ Action.face) l =
      positionsOf q (l.map Action.face) := by
    intro l
    rw [positionsOf, positionsOf, List.zipIdx_map, List.filter_map, List.map_map]
    rfl
  rw [through, through, same]

theorem theStart_faces : theStart as = theStart bs := by
  have starts : Action.isStart = (fun f : String × String => f.2 == Action.startKind) ∘ Action.face := rfl
  have ids : ∀ l : List Action, (l.filter Action.isStart).map (·.id) =
      ((l.map Action.face).filter fun f => f.2 == Action.startKind).map Prod.fst := by
    intro l
    rw [List.filter_map, List.map_map]
    rfl
  rw [theStart, theStart, ids, ids, same, starts, positionsOf_faces same]

theorem sortByKind_faces : Plan.sortByKind as = Plan.sortByKind bs := by
  have through : ∀ l : List Action, Plan.sortByKind l = (l.map Action.face).zipIdx.foldl
      (fun table f => Plan.file table f.1.2 f.2) ∅ := by
    intro l
    rw [Plan.sortByKind, List.zipIdx_map, List.foldl_map]
    rfl
  rw [through, through, same]

end Faces

theorem load_faces {g : Graph} {actions : List Action}
    (same : g.actions.map Action.face = actions.map Action.face) :
    Run.load { g with actions := actions } =
      (Run.load g).map (·.under { g with actions := actions } {}) := by
  have length : actions.length = g.actions.length := by
    simpa using (congrArg List.length same).symm
  have checked : check { g with actions := actions } = g.check := by
    rw [check, check, enrol_faces same, theStart_faces same]
  have idle : (actions.map fun _ => ({} : Status)) = g.actions.map fun _ => {} := by
    rw [List.map_const', List.map_const', length]
  rw [Run.load, Run.load, Plan.ofGraph, Plan.ofGraph, checked]
  cases g.check with
  | error fault => rfl
  | ok d =>
    simp only [bind, Except.bind, pure, Except.pure, Except.map, Run.ofPlan, Run.under,
      sortByKind_faces same, length, idle]

theorem without_replaces {g : Graph} (there : g.actions[i]? = some a)
    (bad : a.malformed key = true) : g.Replaces (g.without i key) where
  toLike := without_like there bad
  loads := by
    refine load_faces (List.ext_getElem? fun j => ?_)
    by_cases same : i = j
    · subst same
      rw [List.getElem?_map, List.getElem?_map, there]
      change _ = ((g.without i key).actions[i]?).map Action.face
      rw [without_at there]
      rfl
    · rw [List.getElem?_map, List.getElem?_map, List.getElem?_modify_ne _ _ same]

end Graph

namespace Engine

theorem Twin.refl {e : Engine} (unscripted : ∀ s ∈ e.stages, s.isScript = false) : Twin none e e where
  run := by
    cases e.run with
    | none => exact .none
    | some r => exact .some (.intro (r := r) (.refl _) fun _ _ given => by cases given)
  given := fun _ _ given => (by cases given)
  stages := rfl
  unscripted := unscripted
  locked := rfl
  closed := rfl
  host := rfl
  effects := rfl
  budget := rfl

-- A graph with such a property and the graph without it: the one is loaded if the other is, and
-- whatever is asked of the engine from then on, it is in the same state and does the same to its host.
theorem malformed_reads_as_absent {e : Engine} (unscripted : ∀ s ∈ e.stages, s.isScript = false)
    (there : g.actions[i]? = some a) (bad : a.malformed key = true) (asks : List Request)
    (plain : ∀ q ∈ asks, q.Unscripted) :
    (e.load (g.without i key)).2 = (e.load g).2 ∧
      Mirrors (asks.foldl serve (e.load g).1) (asks.foldl serve (e.load (g.without i key)).1) := by
  obtain ⟨twin, same⟩ := (Twin.refl unscripted).load (Graph.without_replaces there bad)
    fun seen => by cases seen
  exact ⟨same, (twin.serveAll plain).mirrors⟩

def blurred : Graph where
  actions := [{ id := "start", kind := Action.startKind },
    { id := "wait", kind := Delay.kind, properties := Keyed.empty.insert "ticks" (.text "3") },
    { id := "line", kind := Log.kind, properties := Keyed.empty.insert "message" (.text "done") }]
  edges := [{ source := "start", target := "wait" }, { source := "wait", target := "line" }]

def readyEngine : Engine := { Engine.ofConfig .all {} with stages := Stage.standard, locked := true }

theorem blurred_reads_as_absent :
    (readyEngine.load (blurred.without 1 "ticks")).2 = (readyEngine.load blurred).2 ∧
      Mirrors ([Request.runFor 2, .signal (.cancel "line"), .signal .tick].foldl serve
          (readyEngine.load blurred).1)
        ([Request.runFor 2, .signal (.cancel "line"), .signal .tick].foldl serve
          (readyEngine.load (blurred.without 1 "ticks")).1) :=
  malformed_reads_as_absent
    (by simp [readyEngine, Stage.standard, Stage.core, Stage.domain, Stage.isScript]) rfl
    (by decide +kernel) _ (by simp [Request.Unscripted])

end Engine
end ActionGraph
