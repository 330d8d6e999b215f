import ActionGraph.Proofs.Delivery
-- The two queues together. An emission puts one entry into them for each route of its port, a
-- release only moves entries or drops those of a cancelled source.
namespace ActionGraph

def Plan.pulse? (p : Plan) (d : Deferred) : Option Pulse := (p.routes[d.route]?).map Route.pulse

namespace Graph

theorem positionsOf_filterMap (p : α → Bool) (f : Nat → α → Option β) (xs : List α) :
    ((positionsOf p xs).filterMap fun t => xs[t]?.bind (f t)) =
      (xs.zipIdx.filter fun x => p x.1).filterMap fun x => f x.2 x.1 := by
  rw [positionsOf, List.filterMap_map]
  refine List.filterMap_congr fun x member => ?_
  have there := List.mem_zipIdx_iff_getElem?.mp (List.mem_filter.mp member).1
  simp [there]

end Graph

def Graph.exits (g : Graph) (id port : String) : List Nat :=
  positionsOf (fun e => e.source = id ∧ e.sourcePort = port) g.edges

namespace Run

def waiting (r : Run) (q : Pulse) : Nat := r.deferred.countP fun d => r.plan.pulse? d = some q

section Routes
variable {r : Run} (indexed : r.plan.Indexed)
include indexed

theorem routesOn_eq (i : Nat) (port : String) : r.routesOn i port =
    (r.plan.routes.zipIdx.filter fun x => x.1.source = i ∧ x.1.sourcePort = port).map fun x =>
      (x.2, x.1) := by
  rw [routesOn, indexed.leaving, Graph.positionsOf_filterMap _
    fun t (route : Route) => if route.sourcePort = port then some (t, route) else none]
  rw [← List.filterMap_eq_map, List.filterMap_filter, List.filterMap_filter]
  refine List.filterMap_congr fun x _ => ?_
  by_cases source : x.1.source = i <;> by_cases leaves : x.1.sourcePort = port <;>
    simp [source, leaves]

theorem mem_routesOn : (t, route) ∈ r.routesOn i port ↔
    r.plan.routes[t]? = some route ∧ route.source = i ∧ route.sourcePort = port := by
  rw [routesOn_eq indexed]
  simp only [List.mem_map, List.mem_filter, Prod.exists, Prod.mk.injEq, List.mem_zipIdx_iff_getElem?,
    decide_eq_true_eq]
  constructor
  · rintro ⟨a, b, ⟨there, leaves⟩, rfl, rfl⟩
    exact ⟨there, leaves⟩
  · rintro ⟨there, leaves⟩
    exact ⟨route, t, ⟨there, leaves⟩, rfl, rfl⟩

theorem routesOn_nodup (i : Nat) (port : String) : (r.routesOn i port).Nodup := by
  refine List.Nodup.of_map Prod.fst ?_
  rw [routesOn_eq indexed, List.map_map]
  exact Graph.positionsOf_nodup (fun route : Route => route.source = i ∧ route.sourcePort = port) _

theorem routesOn_exits {a : Action} (there : r.plan.action? i = some a) (port : String) :
    (r.routesOn i port).map Prod.fst = r.plan.graph.exits a.id port := by
  have here : ∀ e ∈ r.plan.graph.edges,
      (Plan.route r.plan.positions e).source = i ↔ e.source = a.id := by
    intro e member
    have source := Plan.end_eq_iff indexed (indexed.known e member).1 i
    rw [there] at source
    simpa [eq_comm, Plan.indexOf?, Plan.route] using source
  rw [routesOn_eq indexed, indexed.routes, Graph.exits, Graph.positionsOf, List.zipIdx_map,
    List.filter_map, List.map_map, List.map_map]
  refine congrArg (List.map Prod.snd) (List.filter_congr fun x member => ?_)
  have source := here x.1 (List.mem_of_getElem? (List.mem_zipIdx_iff_getElem?.mp member))
  exact decide_eq_decide.mpr (and_congr_left fun _ => source)

theorem routesOn_count (i : Nat) (port : String) (q : Pulse) :
    (r.routesOn i port).countP (fun t => t.2.pulse = q) =
      if i = q.source ∧ port = q.sourcePort then r.plan.graph.multiplicity q else 0 := by
  rw [routesOn_eq indexed, List.countP_map, List.countP_filter]
  split
  · next same =>
    rw [Plan.multiplicity_eq indexed, ← List.zipIdx_map_fst 0 r.plan.routes, List.countP_map,
      List.zipIdx_map_fst]
    refine List.countP_congr fun x _ => ?_
    by_cases hit : x.1.pulse = q
    · have source : x.1.source = i := by rw [same.1, ← hit]; rfl
      have leaves : x.1.sourcePort = port := by rw [same.2, ← hit]; rfl
      simp [source, leaves, hit]
    · simp [hit]
  · next other =>
    refine List.countP_eq_zero.mpr fun x _ counted => other ?_
    simp only [Function.comp, Bool.and_eq_true, decide_eq_true_eq] at counted
    obtain ⟨rfl, source, leaves⟩ := counted
    exact ⟨source.symm, leaves.symm⟩

end Routes

end Run

theorem Work.mem_routes {w : Work} (indexed : w.run.plan.Indexed) : (t, route) ∈ w.routes ↔
    w.run.plan.routes[t]? = some route ∧ route.source = w.action ∧
      w.deed.port? = some route.sourcePort := by
  unfold routes
  cases w.deed.port? with
  | none => simp
  | some port =>
    rw [Run.mem_routesOn indexed, Option.some.injEq]
    exact ⟨fun ⟨there, source, same⟩ => ⟨there, source, same.symm⟩,
      fun ⟨there, source, same⟩ => ⟨there, source, same.symm⟩⟩

theorem Work.routes_nodup {w : Work} (indexed : w.run.plan.Indexed) : w.routes.Nodup := by
  unfold routes
  cases w.deed.port? with
  | none => exact List.nodup_nil
  | some port => exact Run.routesOn_nodup indexed _ _

def Plan.sender? (p : Plan) (d : Deferred) : Option Nat := (p.pulse? d).map Pulse.source

theorem Work.sent_source {w : Work} (indexed : w.run.plan.Indexed) (member : q ∈ w.sent) :
    q.source = w.action := by
  obtain ⟨⟨t, route⟩, inside, rfl⟩ := List.mem_map.mp member
  exact ((mem_routes indexed).mp (List.mem_filter.mp inside).1).2.1

theorem Work.armed_source {w : Work} (indexed : w.run.plan.Indexed) (member : d ∈ w.armed) :
    w.run.plan.sender? d = some w.action := by
  obtain ⟨⟨t, route⟩, inside, rfl⟩ := List.mem_map.mp member
  obtain ⟨there, source, _⟩ := (mem_routes indexed).mp (List.mem_filter.mp inside).1
  rw [Plan.sender?, Plan.pulse?, there]
  exact congrArg some source

theorem flatMap_idle {ws : List Work} {f : Work → List β} (source : β → Option Nat)
    (own : ∀ w ∈ ws, ∀ b ∈ f w, source b = some w.action) (idle : i ∉ ws.map Work.action) :
    (ws.flatMap f).filter (fun b => source b = some i) = [] := by
  refine List.filter_eq_nil_iff.mpr fun b member => ?_
  obtain ⟨w, inside, here⟩ := List.mem_flatMap.mp member
  rw [own w inside b here, decide_eq_true_eq, Option.some.injEq]
  rintro rfl
  exact idle (List.mem_map_of_mem inside)

theorem flatMap_single {ws : List Work} {f : Work → List β} (source : β → Option Nat)
    (own : ∀ w ∈ ws, ∀ b ∈ f w, source b = some w.action) (once : (ws.map Work.action).Nodup)
    (member : w ∈ ws) : (ws.flatMap f).filter (fun b => source b = some w.action) = f w := by
  induction ws with
  | nil => cases member
  | cons first rest ih =>
    obtain ⟨fresh, once⟩ := List.nodup_cons.mp once
    have later := fun v inside => own v (List.mem_cons_of_mem _ inside)
    have here := own first List.mem_cons_self
    rw [List.flatMap_cons, List.filter_append]
    rcases List.mem_cons.mp member with rfl | inside
    · rw [flatMap_idle source later fresh, List.append_nil, List.filter_eq_self]
      exact fun b mine => decide_eq_true (here b mine)
    · rw [ih later once inside, List.filter_eq_nil_iff.mpr, List.nil_append]
      intro b mine
      rw [here b mine, decide_eq_true_eq, Option.some.injEq]
      exact fun same => fresh (same ▸ List.mem_map_of_mem inside)

namespace Run

theorem countP_split {p q whole : α → Bool} {l : List α}
    (parts : ∀ a ∈ l, (p a || q a) = whole a ∧ (p a && q a) = false) :
    l.countP p + l.countP q = l.countP whole := by
  induction l with
  | nil => rfl
  | cons a rest ih =>
    have later := ih fun b member => parts b (List.mem_cons_of_mem _ member)
    obtain ⟨either, notBoth⟩ := parts a List.mem_cons_self
    simp only [List.countP_cons, ← either]
    cases here : p a <;> cases there : q a <;> simp only [here, there] at notBoth ⊢
    case true.true => cases notBoth
    all_goals
      simp only [Bool.or_false, Bool.or_true, Bool.false_eq_true, if_true, if_false]
      omega

theorem work_count {r : Run} (w : Work) (indexed : r.plan.Indexed) (same : w.run.plan = r.plan)
    (q : Pulse) : w.sent.count q + w.armed.countP (fun d => r.plan.pulse? d = some q) =
      if w.action = q.source ∧ w.deed.port? = some q.sourcePort then r.plan.graph.multiplicity q
      else 0 := by
  rw [← same] at indexed ⊢
  have total : w.sent.count q + w.armed.countP (fun d => w.run.plan.pulse? d = some q) =
      w.routes.countP fun t => t.2.pulse = q := by
    rw [Work.sent, Work.armed, List.count_eq_countP, List.countP_map, List.countP_map,
      List.countP_filter, List.countP_filter]
    refine countP_split fun t member => ?_
    have there : w.run.plan.routes[t.1]? = some t.2 := by
      unfold Work.routes at member
      cases leaves : w.deed.port? with
      | none => rw [leaves] at member; cases member
      | some port => rw [leaves] at member; exact ((mem_routesOn indexed).mp member).1
    cases w.run.open? 0 t.2 <;> simp [Plan.pulse?, there, beq_eq_decide]
  rw [total, Work.routes]
  cases w.deed.port? with
  | none => simp
  | some port =>
    simp only [routesOn_count indexed, Option.some.injEq]

end Run

theorem Run.Works.count (works : Run.Works r ws r') (indexed : r.plan.Indexed) (q : Pulse) :
    (ws.flatMap Work.sent).count q +
        (ws.flatMap Work.armed).countP (fun d => r.plan.pulse? d = some q) =
      emissions ws q.source q.sourcePort * r.plan.graph.multiplicity q := by
  have each : ∀ w ∈ ws, w.run.plan = r.plan := fun w member => (works.keeps_at member).plan
  clear works
  induction ws with
  | nil => simp [emissions]
  | cons w rest ih =>
    have later := ih fun v member => each v (List.mem_cons_of_mem _ member)
    have here := Run.work_count w indexed (each w List.mem_cons_self) q
    rw [show w :: rest = [w] ++ rest from rfl, emissions_append, Nat.add_mul, ← later]
    simp only [List.singleton_append, List.flatMap_cons, List.count_append, List.countP_append]
    have one : emissions [w] q.source q.sourcePort * r.plan.graph.multiplicity q =
        w.sent.count q + w.armed.countP (fun d => r.plan.pulse? d = some q) := by
      rw [here, emissions, List.countP_singleton]
      simp only [decide_eq_true_eq]
      split <;> simp
    omega

namespace Run

theorem fate_eq {r : Run} {d : Deferred} (there : r.plan.routes[d.route]? = some route) :
    r.fate d = if r.phase route.source = .cancelled then .dropped
      else if r.open? (r.tick - d.armed) route then .released route.pulse else .kept := by
  rw [fate, there]

-- A release keeps the entries of a pulse or moves them to the pending queue, unless it drops them
-- all because their source was cancelled.
theorem release_count (r : Run) (q : Pulse) :
    r.released.count q + r.retained.countP (fun d => r.plan.pulse? d = some q) =
      if r.phase q.source = .cancelled then 0 else r.waiting q := by
  have each : ∀ d ∈ r.deferred,
      ((r.fate d).pulse? == some q || (decide (r.plan.pulse? d = some q) && (r.fate d).isKept)) =
        (decide (r.plan.pulse? d = some q) && !decide (r.phase q.source = .cancelled)) ∧
      ((r.fate d).pulse? == some q && (decide (r.plan.pulse? d = some q) && (r.fate d).isKept)) =
        false := by
    intro d _
    cases there : r.plan.routes[d.route]? with
    | none => simp [fate, Plan.pulse?, there, Fate.pulse?]
    | some route =>
      rw [fate_eq there]
      simp only [Plan.pulse?, there, Option.map_some, Option.some.injEq]
      by_cases hit : route.pulse = q
      · subst hit
        by_cases lapses : r.phase route.source = .cancelled
        · simp [Route.pulse, lapses, Fate.pulse?, Fate.isKept]
        · cases r.open? (r.tick - d.armed) route <;>
            simp [Route.pulse, lapses, Fate.pulse?, Fate.isKept]
      · by_cases lapses : r.phase route.source = .cancelled
        · simp [hit, lapses, Fate.pulse?]
        · cases r.open? (r.tick - d.armed) route <;> simp [hit, lapses, Fate.pulse?]
  rw [released, retained, List.count_filterMap, List.countP_filter, countP_split each, waiting]
  by_cases lapses : r.phase q.source = .cancelled <;> simp [lapses]

end Run
end ActionGraph
