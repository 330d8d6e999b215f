import ActionGraph.Proofs.Wellformed
import ActionGraph.Proofs.Between
import Mathlib.Logic.Relation
-- What a loaded run answers about its graph. Every look-up is settled by the graph as its author wrote
-- it, whatever edges it has between whatever actions, and nothing that is done to the run changes one.
namespace ActionGraph

namespace Plan

-- The look-ups of a plan as the graph has them. An ascending list is settled by its members, so each
-- index is told by what it lists.
structure Exact (p : Plan) (g : Graph) : Prop where
  leaving : ∀ i, (p.leaving i).Pairwise (· < ·) ∧ ∀ t, t ∈ p.leaving i ↔
    ∃ e a, g.edges[t]? = some e ∧ g.actions[i]? = some a ∧ e.source = a.id
  entering : ∀ i, (p.entering i).Pairwise (· < ·) ∧ ∀ t, t ∈ p.entering i ↔
    ∃ e a, g.edges[t]? = some e ∧ g.actions[i]? = some a ∧ e.target = a.id
  leavesOnce : ∀ t < g.edges.length, ∃! i, t ∈ p.leaving i
  entersOnce : ∀ t < g.edges.length, ∃! i, t ∈ p.entering i
  kinds : ∀ kind, (p.ofKind kind).Pairwise (· < ·) ∧ ∀ i, i ∈ p.ofKind kind ↔
    ∃ a, g.actions[i]? = some a ∧ a.kind = kind
  kindOnce : ∀ i < g.actions.length, ∃! kind, i ∈ p.ofKind kind
  position : ∀ id i, p.indexOf? id = some i ↔ i < g.actions.length ∧ p.actionId i = id
  action : ∀ i, p.action? i = g.actions[i]?
  edge : ∀ t, p.edge? t = g.edges[t]?
  outside : ∀ i, g.actions.length ≤ i →
    p.leaving i = [] ∧ p.entering i = [] ∧ p.action? i = none ∧ p.actionId i = ""
  beyond : ∀ t, g.edges.length ≤ t → p.edge? t = none
  unknownKind : ∀ kind, (∀ a ∈ g.actions, a.kind ≠ kind) → p.ofKind kind = []
  unknownId : ∀ id, (∀ a ∈ g.actions, a.id ≠ id) → p.indexOf? id = none

section Indexed
variable {p : Plan} (indexed : p.Indexed)
include indexed

theorem filed_iff {finish : Route → Nat} {name : Edge → String}
    (ends : ∀ e, finish (route p.positions e) = (p.indexOf? (name e)).getD 0)
    (known : ∀ e ∈ p.graph.edges, (p.indexOf? (name e)).isSome) (i t : Nat) :
    t ∈ Graph.positionsOf (fun route : Route => finish route == i) p.routes ↔
      ∃ e a, p.graph.edges[t]? = some e ∧ p.graph.actions[i]? = some a ∧ name e = a.id := by
  have here : ∀ e, p.graph.edges[t]? = some e → (finish (route p.positions e) = i ↔
      ∃ a, p.graph.actions[i]? = some a ∧ a.id = name e) := by
    intro e there
    rw [ends, end_eq_iff indexed (known e (List.mem_of_getElem? there)), Option.map_eq_some_iff]
    rfl
  rw [Graph.mem_positionsOf, indexed.routes]
  constructor
  · rintro ⟨_, found, hit⟩
    rw [List.getElem?_map] at found
    obtain ⟨e, there, rfl⟩ := Option.map_eq_some_iff.mp found
    obtain ⟨a, stands, same⟩ := (here e there).mp (of_decide_eq_true hit)
    exact ⟨e, a, there, stands, same.symm⟩
  · rintro ⟨e, a, there, stands, same⟩
    refine ⟨route p.positions e, by rw [List.getElem?_map, there]; rfl, ?_⟩
    exact decide_eq_true ((here e there).mpr ⟨a, stands, same.symm⟩)

theorem filed_once {file : Nat → List Nat} {name : Edge → String}
    (filed : ∀ i t, t ∈ file i ↔
      ∃ e a, p.graph.edges[t]? = some e ∧ p.graph.actions[i]? = some a ∧ name e = a.id)
    (known : ∀ e ∈ p.graph.edges, (p.indexOf? (name e)).isSome) {t : Nat}
    (inside : t < p.graph.edges.length) : ∃! i, t ∈ file i := by
  have there := List.getElem?_eq_getElem inside
  obtain ⟨i, found⟩ := Option.isSome_iff_exists.mp (known _ (List.mem_of_getElem? there))
  obtain ⟨a, stands, same⟩ := Option.map_eq_some_iff.mp ((indexed.position _ i).mp found)
  refine ⟨i, (filed i t).mpr ⟨_, a, there, stands, same.symm⟩, fun j member => ?_⟩
  obtain ⟨e, b, again, stands', same'⟩ := (filed j t).mp member
  cases there.symm.trans again
  exact same_position indexed stands' stands (same'.symm.trans same.symm)

theorem kind_iff (kind : String) (i : Nat) :
    i ∈ p.ofKind kind ↔ ∃ a, p.graph.actions[i]? = some a ∧ a.kind = kind := by
  rw [mem_ofKind indexed, kind?, Graph.kind?, Option.map_eq_some_iff]

theorem position_iff (id : String) (i : Nat) :
    p.indexOf? id = some i ↔ i < p.graph.actions.length ∧ p.actionId i = id := by
  rw [indexed.position, actionId, Option.map_eq_some_iff]
  constructor
  · rintro ⟨a, there, same⟩
    exact ⟨(List.getElem?_eq_some_iff.mp there).1, by rw [there]; exact same⟩
  · rintro ⟨inside, same⟩
    have there : p.action? i = some p.graph.actions[i] := List.getElem?_eq_getElem inside
    rw [there] at same
    exact ⟨_, there, same⟩

theorem leaving_iff (i t : Nat) : t ∈ p.leaving i ↔
    ∃ e a, p.graph.edges[t]? = some e ∧ p.graph.actions[i]? = some a ∧ e.source = a.id := by
  rw [indexed.leaving]
  exact filed_iff indexed (fun _ => rfl) (fun e there => (indexed.known e there).1) i t

theorem entering_iff (i t : Nat) : t ∈ p.entering i ↔
    ∃ e a, p.graph.edges[t]? = some e ∧ p.graph.actions[i]? = some a ∧ e.target = a.id := by
  rw [indexed.entering]
  exact filed_iff indexed (fun _ => rfl) (fun e there => (indexed.known e there).2) i t

theorem kindOnce {i : Nat} (inside : i < p.graph.actions.length) : ∃! kind, i ∈ p.ofKind kind := by
  have there := List.getElem?_eq_getElem inside
  refine ⟨_, (kind_iff indexed _ i).mpr ⟨_, there, rfl⟩, fun kind member => ?_⟩
  obtain ⟨a, again, same⟩ := (kind_iff indexed kind i).mp member
  cases there.symm.trans again
  exact same.symm

theorem nothing_outside {i : Nat} (outside : p.graph.actions.length ≤ i) :
    p.leaving i = [] ∧ p.entering i = [] ∧ p.action? i = none ∧ p.actionId i = "" := by
  have none : p.graph.actions[i]? = none := List.getElem?_eq_none outside
  refine ⟨List.eq_nil_iff_forall_not_mem.mpr fun t member => ?_,
    List.eq_nil_iff_forall_not_mem.mpr fun t member => ?_, none, by rw [actionId, action?, none]; rfl⟩
  · obtain ⟨_, a, _, there, _⟩ := (leaving_iff indexed i t).mp member
    cases none.symm.trans there
  · obtain ⟨_, a, _, there, _⟩ := (entering_iff indexed i t).mp member
    cases none.symm.trans there

theorem nothing_unknown (kind : String) (unknown : ∀ a ∈ p.graph.actions, a.kind ≠ kind) :
    p.ofKind kind = [] := by
  refine List.eq_nil_iff_forall_not_mem.mpr fun i member => ?_
  obtain ⟨a, there, same⟩ := (kind_iff indexed kind i).mp member
  exact unknown a (List.mem_of_getElem? there) same

theorem nowhere_unknown (id : String) (unknown : ∀ a ∈ p.graph.actions, a.id ≠ id) :
    p.indexOf? id = none := by
  refine Option.eq_none_iff_forall_ne_some.mpr fun i found => ?_
  obtain ⟨a, there, same⟩ := Option.map_eq_some_iff.mp ((indexed.position id i).mp found)
  exact unknown a (List.mem_of_getElem? there) same

theorem Indexed.exact : p.Exact p.graph where
  leaving i := ⟨indexed.leaving i ▸ Graph.positionsOf_ascending .., leaving_iff indexed i⟩
  entering i := ⟨indexed.entering i ▸ Graph.positionsOf_ascending .., entering_iff indexed i⟩
  leavesOnce _ :=
    filed_once indexed (leaving_iff indexed) fun e there => (indexed.known e there).1
  entersOnce _ :=
    filed_once indexed (entering_iff indexed) fun e there => (indexed.known e there).2
  kinds kind := ⟨indexed.kinds kind ▸ Graph.positionsOf_ascending .., kind_iff indexed kind⟩
  kindOnce _ := kindOnce indexed
  position := position_iff indexed
  action _ := rfl
  edge _ := rfl
  outside _ := nothing_outside indexed
  beyond _ := List.getElem?_eq_none
  unknownKind := nothing_unknown indexed
  unknownId := nowhere_unknown indexed

end Indexed

theorem ofGraph_exact (planned : ofGraph g = .ok p) : p.Exact g := by
  obtain ⟨_, _, graph, _⟩ := ofGraph_parts planned
  exact graph ▸ (ofGraph_indexed planned).exact

end Plan

-- All that can be done to a run: by a host or a scripted stage, by any other stage, and by the ticks
-- themselves.
inductive Run.Move : Run → Run → Prop where
  | perform (r : Run) (op : Operation) : Move r (r.perform op).1
  | limit (r : Run) (n : Nat) : Move r (r.withDiagnosticLimit n)
  | beginTick (r : Run) : Move r r.beginTick
  | drain (r : Run) : Move r { r with pending := [], delivered := [] }
  | deliver (r : Run) (p : Pulse) : Move r (r.deliver p).1
  | releaseDeferred (r : Run) : Move r r.releaseDeferred
  | update (host : Host) (s : Stage) (r : Run) : Move r (s.update host r).2.1
  | endTick (r : Run) : Move r r.endTick

namespace Run

theorem deliver_plan (r : Run) (p : Pulse) : (r.deliver p).1.plan = r.plan := by
  unfold deliver
  split
  · rfl
  · split <;> rfl

theorem Move.plan (move : Move r r') : r'.plan = r.plan := by
  cases move with
  | perform r op => exact (r.perform_frames op).plan
  | update host s r => exact (s.update_frames host r).plan
  | deliver r p => exact r.deliver_plan p
  | limit | beginTick | drain | releaseDeferred | endTick => rfl

theorem moved_plan (moved : Relation.ReflTransGen Move r r') : r'.plan = r.plan := by
  induction moved with
  | refl => rfl
  | tail _ move ih => exact move.plan.trans ih

end Run

def Request.isLoad : Request → Bool
  | load _ => true
  | _ => false

namespace Engine

def KeepsPlan (e e' : Engine) : Prop := e'.run.map Run.plan = e.run.map Run.plan

namespace KeepsPlan

theorem tick {e e' : Engine} (ticks : e.tick = .ok e') : KeepsPlan e e' := by
  obtain ⟨_, r, loaded, rfl⟩ := tick_parts ticks
  rw [KeepsPlan, loaded]
  exact congrArg some (pass_frames e.host r.beginTick e.stages).plan

theorem register {e e' : Engine} {given : List Stage} (done : e.register given = .ok e') :
    KeepsPlan e e' := by
  obtain ⟨_, _, ⟨_, rfl⟩ | ⟨r, log, loaded, rfl⟩⟩ := register_cases done
  · rfl
  · rw [KeepsPlan, loaded]
    rfl

theorem serve (e : Engine) {q : Request} (other : q.isLoad = false) : KeepsPlan e (e.serve q) := by
  have inner : q.isInner = true → KeepsPlan e (e.serve q) :=
    serve_inner (R := KeepsPlan) (fun _ => rfl) (fun first later => Eq.trans later first) tick
      Quiet.plan e
  cases q with
  | load g => cases other
  | shutdown => exact congrArg (Option.map Run.plan) e.shutdown_run
  | signal | perform | runFor | runToEnd => exact inner rfl
  | register given =>
    rw [Engine.serve]
    cases done : e.register given with
    | error refusal => rfl
    | ok e' => exact register done

theorem serveAll (e : Engine) {since : List Request} (others : ∀ q ∈ since, q.isLoad = false) :
    KeepsPlan e (since.foldl Engine.serve e) := by
  induction since generalizing e with
  | nil => rfl
  | cons q rest ih =>
    exact (ih _ fun q member => others q (List.mem_cons_of_mem _ member)).trans
      (serve e (others q List.mem_cons_self))

end KeepsPlan

-- Every graph that passes the check is loaded with look-ups that say what the graph says, and so it
-- stays: through whatever is done to the run, and in an engine, for as long as it loads nothing else.
theorem indices_are_exact (checked : g.check = .ok d) :
    (∃ r, Run.load g = .ok r ∧ r.plan.Exact g ∧
      ∀ r', Relation.ReflTransGen Run.Move r r' → r'.plan.Exact g) ∧
    ∀ (e : Engine) (since : List Request), e.closed = false → (∀ q ∈ since, q.isLoad = false) →
      ∃ r, (since.foldl Engine.serve (e.load g).1).run = some r ∧ r.plan.Exact g := by
  obtain ⟨p, planned⟩ := (Plan.ofGraph_ok_iff g).mpr ((Graph.check_ok_iff g).mp ⟨d, checked⟩)
  have exact := Plan.ofGraph_exact planned
  have loads : Run.load g = .ok (Run.ofPlan p) := by rw [Run.load, planned]; rfl
  refine ⟨⟨_, loads, exact, fun r' moved => ?_⟩, fun e since isOpen others => ?_⟩
  · rw [Run.moved_plan moved]
    exact exact
  · have loaded : (e.load g).2 = .ok () := by
      simp only [load, isOpen, Bool.false_eq_true, if_false, loads]
    obtain ⟨_, log, again, _, there, _⟩ := load_parts loaded
    cases planned.symm.trans again
    have keeps := KeepsPlan.serveAll (e.load g).1 others
    rw [KeepsPlan, there, Option.map_some] at keeps
    obtain ⟨r, now, same⟩ := Option.map_eq_some_iff.mp keeps
    exact ⟨r, now, same ▸ exact⟩

-- An edge written twice, one that leads back to where it starts, and one against the current.
def tangle : Graph where
  actions := [⟨"begin", "start", ∅, ∅⟩, ⟨"wait", "delay", ∅, ∅⟩, ⟨"again", "delay", ∅, ∅⟩]
  edges := [{ source := "begin", target := "wait" }, { source := "wait", target := "wait" },
    { source := "begin", target := "wait" }, { source := "again", target := "begin" }]

theorem tangle_indices_exact :
    (∃ r, Run.load tangle = .ok r ∧ (r.perform (.completeAndEmit 0 "out")).1.plan.Exact tangle) ∧
    ∃ r, (([.register Stage.standard, .signal .tick, .perform (.cancel 1), .runFor 3,
      .shutdown] : List Request).foldl serve ((ofConfig .all {}).load tangle).1).run = some r ∧
        r.plan.Exact tangle := by
  obtain ⟨⟨r, loads, _, moved⟩, lasts⟩ := indices_are_exact (g := tangle)
    (d := ⟨.ofList [("begin", 0), ("wait", 1), ("again", 2)], 0⟩) rfl
  exact ⟨⟨r, loads, moved _ (.single (.perform r _))⟩, lasts _ _ rfl (by decide)⟩

example : (Plan.ofGraph tangle).toOption.map (fun p => (p.leaving 0, p.entering 1, p.ofKind "delay")) =
    some ([0, 2], [0, 1, 2], [1, 2]) := rfl

end Engine
end ActionGraph
