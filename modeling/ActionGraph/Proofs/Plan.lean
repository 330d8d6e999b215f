import ActionGraph.Run
import Mathlib.Data.List.Nodup
import Mathlib.Logic.ExistsUnique
-- The indices of a plan are exact. Whatever a run looks up by id, by kind or by the end of an
-- edge is what a walk over the graph would find, in the same order.
namespace ActionGraph

section Steps
variable {x : Except ε α} {f : α → Except ε β}

theorem bind_ok_iff : x >>= f = .ok b ↔ ∃ a, x = .ok a ∧ f a = .ok b := by
  cases x <;> simp [bind, Except.bind]

theorem bind_error_iff : x >>= f = .error e ↔ x = .error e ∨ ∃ a, x = .ok a ∧ f a = .error e := by
  cases x <;> simp [bind, Except.bind]

theorem map_ok_iff {f : α → β} : x.map f = .ok b ↔ ∃ a, x = .ok a ∧ f a = b := by
  cases x <;> simp [Except.map]

theorem mapError_ok_iff {f : ε → δ} : x.mapError f = .ok a ↔ x = .ok a := by
  cases x <;> simp [Except.mapError]

theorem mapError_error_iff {f : ε → δ} : x.mapError f = .error e ↔ ∃ d, x = .error d ∧ f d = e := by
  cases x <;> simp [Except.mapError]

end Steps

namespace Graph

theorem mem_positionsOf {p : α → Bool} {xs : List α} {i : Nat} :
    i ∈ positionsOf p xs ↔ ∃ a, xs[i]? = some a ∧ p a = true := by
  simp [positionsOf, List.mem_zipIdx_iff_getElem?]

theorem positionsOf_ascending (p : α → Bool) (xs : List α) :
    (positionsOf p xs).Pairwise (· < ·) := by
  have sorted : (xs.zipIdx.map (·.2)).Pairwise (· < ·) := by
    rw [List.zipIdx_map_snd]; exact List.pairwise_lt_range'
  exact sorted.sublist (List.filter_sublist.map _)

theorem positionsOf_nodup (p : α → Bool) (xs : List α) : (positionsOf p xs).Nodup :=
  (positionsOf_ascending p xs).imp Nat.ne_of_lt

theorem positionsOf_length (p : α → Bool) (xs : List α) : (positionsOf p xs).length = xs.countP p := by
  rw [positionsOf, List.length_map, ← List.countP_eq_length_filter, ← Function.comp_def p Prod.fst,
    ← List.countP_map, List.zipIdx_map_fst]

theorem enrol_get? {actions : List Action} {i : Nat} {known all : Keyed Nat}
    (enrolled : enrol actions i known = .ok all) (id : String) (j : Nat) :
    all.get? id = some j ↔
      known.get? id = some j ∨ ∃ k, j = i + k ∧ actions[k]?.map (·.id) = some id := by
  induction actions generalizing i known with
  | nil => cases enrolled; simp
  | cons a rest ih =>
    unfold enrol at enrolled
    split at enrolled
    · cases enrolled
    · rename_i fresh
      rw [ih enrolled, Keyed.get?_insert]
      have absent : known.get? a.id = none := by
        simpa [Keyed.contains] using fresh
      constructor
      · rintro (here | ⟨k, rfl, there⟩)
        · split at here
          · next same =>
            cases Option.some.inj here
            exact .inr ⟨0, rfl, by simp [same]⟩
          · exact .inl here
        · exact .inr ⟨k + 1, by omega, by simpa using there⟩
      · rintro (old | ⟨k, rfl, there⟩)
        · left
          rw [if_neg fun same => by rw [same, old] at absent; cases absent]
          exact old
        · cases k with
          | zero => left; rw [if_pos (by simpa using there)]; rfl
          | succ k => exact .inr ⟨k, by omega, by simpa using there⟩

theorem enrolled_get? {actions : List Action} {all : Keyed Nat}
    (enrolled : enrol actions 0 ∅ = .ok all) (id : String) (i : Nat) :
    all.get? id = some i ↔ actions[i]?.map (·.id) = some id := by
  rw [enrol_get? enrolled]
  constructor
  · rintro (none | ⟨k, rfl, there⟩)
    · cases none
    · rwa [Nat.zero_add]
  · intro there
    exact .inr ⟨i, (Nat.zero_add i).symm, there⟩

theorem checkEdges_known {known : Keyed Nat} {edges : List Edge} {i : Nat}
    (checked : checkEdges known edges i = .ok ()) :
    ∀ e ∈ edges, known.contains e.source = true ∧ known.contains e.target = true := by
  induction edges generalizing i with
  | nil => simp
  | cons e rest ih =>
    unfold checkEdges at checked
    split at checked
    · cases checked
    · rename_i source
      split at checked
      · cases checked
      · rename_i target
        intro e' member
        rcases List.mem_cons.mp member with rfl | later
        · exact ⟨by simpa using source, by simpa using target⟩
        · exact ih checked e' later

theorem check_parts {g : Graph} {d : Directory} (checked : g.check = .ok d) :
    enrol g.actions 0 ∅ = .ok d.positions ∧ checkEdges d.positions g.edges 0 = .ok () ∧
      theStart g.actions = .ok d.start := by
  simp only [check, bind_ok_iff, pure, Except.pure, Except.ok.injEq] at checked
  obtain ⟨known, enrolled, _, edges, start, found, rfl⟩ := checked
  exact ⟨enrolled, edges, found⟩

theorem theStart_isStart {actions : List Action} {i : Nat} (found : theStart actions = .ok i) :
    ∃ a, actions[i]? = some a ∧ a.isStart = true := by
  unfold theStart at found
  split at found
  · cases found
  · next j only =>
    cases found
    exact mem_positionsOf.mp (by rw [only]; exact List.mem_singleton.mpr rfl)
  · cases found

def kind? (g : Graph) (i : Nat) : Option String := (g.actions[i]?).map (·.kind)

def multiplicity (g : Graph) (q : Pulse) : Nat :=
  g.edges.countP fun e =>
    g.actions[q.source]?.map (·.id) = some e.source ∧ e.sourcePort = q.sourcePort ∧
      g.actions[q.target]?.map (·.id) = some e.target ∧ e.targetPort = q.targetPort

def indegree (g : Graph) (id : String) : Nat := g.edges.countP (·.target = id)

end Graph

namespace Plan

def kind? (p : Plan) (i : Nat) : Option String := p.graph.kind? i

theorem kind_of {p : Plan} (there : p.action? i = some a) : p.kind? i = some a.kind :=
  congrArg (Option.map _) there

theorem sortByKind_from (actions : List (Action × Nat)) (table : Keyed (List Nat)) (kind : String) :
    ((actions.foldl (fun table a => file table a.1.kind a.2) table).get? kind).getD [] =
      (table.get? kind).getD [] ++ (actions.filter fun a => a.1.kind == kind).map (·.2) := by
  induction actions generalizing table with
  | nil => simp
  | cons a rest ih =>
    rw [List.foldl_cons, ih, file, Keyed.get?_insert]
    by_cases same : a.1.kind = kind
    · simp [same]
    · simp [same]

theorem sortByKind_get? (actions : List Action) (kind : String) :
    ((sortByKind actions).get? kind).getD [] =
      Graph.positionsOf (fun a : Action => a.kind == kind) actions := by
  rw [sortByKind, sortByKind_from]; rfl

theorem sortByEnd_from (finish : Route → Nat) (routes : List (Route × Nat))
    (table : List (List Nat)) (i : Nat) (inside : i < table.length) :
    ((routes.foldl (fun table r => table.modify (finish r.1) (· ++ [r.2])) table)[i]?).getD [] =
      table[i]?.getD [] ++ (routes.filter fun r => finish r.1 == i).map (·.2) := by
  induction routes generalizing table with
  | nil => simp
  | cons r rest ih =>
    rw [List.foldl_cons, ih _ (by simpa using inside), List.getElem?_modify]
    have there : table[i]? = some table[i] := List.getElem?_eq_getElem inside
    by_cases same : finish r.1 = i
    · simp [same, there]
    · simp [same, there]

theorem sortByEnd_length (n : Nat) (finish : Route → Nat) (routes : List Route) :
    (sortByEnd n finish routes).length = n := by
  have keep : ∀ (routes : List (Route × Nat)) (table : List (List Nat)),
      (routes.foldl (fun table r => table.modify (finish r.1) (· ++ [r.2])) table).length =
        table.length := by
    intro routes
    induction routes with
    | nil => intro table; rfl
    | cons r rest ih => intro table; rw [List.foldl_cons, ih]; simp
  rw [sortByEnd, keep]; simp

theorem sortByEnd_get? (n : Nat) (finish : Route → Nat) (routes : List Route)
    (bounded : ∀ route ∈ routes, finish route < n) (i : Nat) :
    (sortByEnd n finish routes)[i]?.getD [] =
      Graph.positionsOf (fun route : Route => finish route == i) routes := by
  by_cases inside : i < n
  · rw [sortByEnd, sortByEnd_from _ _ _ _ (by simpa using inside)]
    simp [Graph.positionsOf, inside]
  · have outside : (sortByEnd n finish routes)[i]? = none :=
      List.getElem?_eq_none (by rw [sortByEnd_length]; omega)
    have empty : Graph.positionsOf (fun route : Route => finish route == i) routes = [] := by
      refine List.eq_nil_iff_forall_not_mem.mpr fun t member => ?_
      obtain ⟨route, there, hit⟩ := Graph.mem_positionsOf.mp member
      have := bounded route (List.mem_of_getElem? there)
      have : finish route = i := by simpa using hit
      omega
    rw [outside, empty]; rfl

-- What a plan owes to the check that its graph passed: every index agrees with the graph.
structure Indexed (p : Plan) : Prop where
  position : ∀ id i, p.indexOf? id = some i ↔ (p.action? i).map (·.id) = some id
  routes : p.routes = p.graph.edges.map (route p.positions)
  known : ∀ e ∈ p.graph.edges, (p.indexOf? e.source).isSome ∧ (p.indexOf? e.target).isSome
  kinds : ∀ kind, p.ofKind kind =
    Graph.positionsOf (fun a : Action => a.kind == kind) p.graph.actions
  leaving : ∀ i, p.leaving i = Graph.positionsOf (fun route : Route => route.source == i) p.routes
  entering : ∀ i, p.entering i = Graph.positionsOf (fun route : Route => route.target == i) p.routes
  start : ∃ a, p.action? p.start = some a ∧ a.isStart = true

theorem ofGraph_parts {g : Graph} {p : Plan} (planned : ofGraph g = .ok p) :
    ∃ d, g.check = .ok d ∧ p.graph = g ∧ p.positions = d.positions ∧ p.start = d.start ∧
      p.byKind = sortByKind g.actions ∧ p.routes = g.edges.map (route d.positions) ∧
      p.outgoing = sortByEnd g.actions.length Route.source p.routes ∧
      p.incoming = sortByEnd g.actions.length Route.target p.routes := by
  simp only [ofGraph, bind_ok_iff, pure, Except.pure, Except.ok.injEq] at planned
  obtain ⟨d, checked, rfl⟩ := planned
  exact ⟨d, checked, rfl, rfl, rfl, rfl, rfl, rfl, rfl⟩

theorem ofGraph_indexed {g : Graph} {p : Plan} (planned : ofGraph g = .ok p) : p.Indexed := by
  obtain ⟨d, checked, hg, hp, hs, hk, hr, ho, hi⟩ := ofGraph_parts planned
  obtain ⟨enrolled, edges, start⟩ := Graph.check_parts checked
  have position : ∀ id i, p.indexOf? id = some i ↔ (p.action? i).map (·.id) = some id := by
    intro id i
    rw [indexOf?, hp, Graph.enrolled_get? enrolled, action?, hg]
  have known : ∀ e ∈ g.edges, (p.indexOf? e.source).isSome ∧ (p.indexOf? e.target).isSome := by
    simpa only [indexOf?, hp, Keyed.contains] using Graph.checkEdges_known edges
  have bounded : ∀ id, (p.indexOf? id).isSome → (p.indexOf? id).getD 0 < g.actions.length := by
    intro id found
    obtain ⟨i, here⟩ := Option.isSome_iff_exists.mp found
    obtain ⟨a, there, _⟩ := Option.map_eq_some_iff.mp ((position id i).mp here)
    rw [here, Option.getD_some]
    rw [action?, hg] at there
    exact (List.getElem?_eq_some_iff.mp there).1
  have ends : ∀ r ∈ p.routes, r.source < g.actions.length ∧ r.target < g.actions.length := by
    intro r member
    rw [hr, ← hp] at member
    obtain ⟨e, there, rfl⟩ := List.mem_map.mp member
    exact ⟨bounded _ (known e there).1, bounded _ (known e there).2⟩
  exact {
    position := position
    routes := by rw [hr, hg, hp]
    known := by rw [hg]; exact known
    kinds := fun kind => by rw [ofKind, hk, sortByKind_get?, hg]
    leaving := fun i => by
      rw [Plan.leaving, ho, sortByEnd_get? _ _ _ fun r member => (ends r member).1]
    entering := fun i => by
      rw [Plan.entering, hi, sortByEnd_get? _ _ _ fun r member => (ends r member).2]
    start := by rw [hs, action?, hg]; exact Graph.theStart_isStart start }

section Exact
variable {p : Plan} (indexed : p.Indexed)
include indexed

theorem mem_ofKind {kind : String} {i : Nat} : i ∈ p.ofKind kind ↔ p.kind? i = some kind := by
  rw [indexed.kinds, Graph.mem_positionsOf]
  simp [kind?, Graph.kind?]

theorem ofKind_nodup (kind : String) : (p.ofKind kind).Nodup := by
  rw [indexed.kinds]; exact Graph.positionsOf_nodup _ _

theorem same_position {i j : Nat} (first : p.action? i = some a) (second : p.action? j = some b)
    (same : a.id = b.id) : i = j := by
  have here := (indexed.position a.id i).mpr (by rw [first]; rfl)
  have there := (indexed.position a.id j).mpr (by rw [second, same]; rfl)
  exact Option.some.inj (here.symm.trans there)

theorem end_eq_iff {id : String} (found : (p.indexOf? id).isSome) (i : Nat) :
    (p.indexOf? id).getD 0 = i ↔ (p.action? i).map (·.id) = some id := by
  obtain ⟨j, here⟩ := Option.isSome_iff_exists.mp found
  rw [here, Option.getD_some, ← indexed.position, here, Option.some.injEq]

theorem multiplicity_eq (q : Pulse) :
    p.graph.multiplicity q = p.routes.countP fun route => route.pulse = q := by
  rw [indexed.routes, List.countP_map, Graph.multiplicity]
  refine List.countP_congr fun e member => ?_
  have source := end_eq_iff indexed (indexed.known e member).1 q.source
  have target := end_eq_iff indexed (indexed.known e member).2 q.target
  obtain ⟨i, port, j, port'⟩ := q
  simp only [indexOf?, action?] at source target
  simp only [Function.comp, decide_eq_true_eq, Route.pulse, Pulse.mk.injEq, route, source, target]

theorem entering_length {i : Nat} {a : Action} (there : p.action? i = some a) :
    (p.entering i).length = p.graph.indegree a.id := by
  have here : ∀ e ∈ p.graph.edges, (route p.positions e).target = i ↔ e.target = a.id := by
    intro e member
    have target := end_eq_iff indexed (indexed.known e member).2 i
    rw [there] at target
    simpa [eq_comm, indexOf?, route] using target
  rw [indexed.entering, Graph.positionsOf_length, indexed.routes, List.countP_map, Graph.indegree]
  refine List.countP_congr fun e member => ?_
  simpa using here e member

end Exact

end Plan
end ActionGraph
