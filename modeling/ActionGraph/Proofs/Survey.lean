import ActionGraph.Proofs.Census
-- Every tick of a run is the tick of its census, if no action touches the blackboard and no guard
-- reads it. Each part of the census is followed through the deliveries, the release and the deeds.
namespace ActionGraph

theorem Deed.Suits.passes_on {d : Deed} (suits : d.Suits kind) (known : kind ∈ outKinds)
    (simple : kind ∉ [Action.joinKind, Delay.kind, Trigger.kind]) : d = .finishOn "out" := by
  have loud : ∀ kind ∈ outKinds, kind ∉ quietKinds ∧ kind ≠ Filter.kind := by decide
  simp only [List.mem_cons, List.not_mem_nil, or_false, not_or] at simple
  cases d with
  | rest => exact (simple.2.1 suits).elim
  | listen => exact (suits.elim simple.1 simple.2.2).elim
  | finish => exact ((loud _ known).1 suits).elim
  | finishOn port =>
    rcases suits with ⟨isFilter, _⟩ | ⟨_, rfl⟩
    · exact ((loud _ known).2 isFilter).elim
    · rfl
  | pulse => exact (simple.2.2 suits).elim
  | propagate => exact suits.elim

namespace Plan
variable {p : Plan} (indexed : p.Indexed)
include indexed

theorem index_of (there : p.action? i = some a) : p.indexOf? a.id = some i :=
  (indexed.position _ _).mpr (by rw [there]; rfl)

theorem named?_eq (id : String) : p.graph.named? id = (p.indexOf? id).bind p.action? := by
  have here : ∀ b, p.graph.named? id = some b → (p.indexOf? id).bind p.action? = some b := by
    intro b found
    obtain ⟨k, there⟩ := List.mem_iff_getElem?.mp (List.mem_of_find?_eq_some found)
    have same : b.id = id := by simpa using List.find?_some found
    rw [← same, index_of indexed (a := b) there]
    exact there
  cases found : p.graph.named? id with
  | some b => exact (here b found).symm
  | none =>
    cases index : p.indexOf? id with
    | none => rfl
    | some i =>
      obtain ⟨a, there, same⟩ := Option.map_eq_some_iff.mp ((indexed.position id i).mp index)
      simpa [same] using List.find?_eq_none.mp found a (List.mem_of_getElem? there)

theorem look (id : String) : p.indexOf? id = none ∧ p.graph.named? id = none ∨
    ∃ i a, p.action? i = some a ∧ a.id = id := by
  rw [named?_eq indexed]
  cases index : p.indexOf? id with
  | none => exact .inl ⟨rfl, rfl⟩
  | some i =>
    obtain ⟨a, there, same⟩ := Option.map_eq_some_iff.mp ((indexed.position id i).mp index)
    exact .inr ⟨i, a, there, same⟩

theorem named?_of (there : p.action? i = some a) : p.graph.named? a.id = some a := by
  rw [named?_eq indexed, index_of indexed there]
  exact there

theorem id_iff (there : p.action? i = some a) (j : Nat) :
    (p.action? j).map (·.id) = some a.id ↔ j = i := by
  rw [← indexed.position, index_of indexed there, Option.some.injEq, eq_comm]

theorem source_at (member : e ∈ p.graph.edges) :
    ∃ a, p.action? (route p.positions e).source = some a ∧ a.id = e.source := by
  obtain ⟨i, index⟩ := Option.isSome_iff_exists.mp (indexed.known e member).1
  have there := (indexed.position _ i).mp index
  rw [indexOf?] at index
  rw [route, index]
  exact Option.map_eq_some_iff.mp there

theorem parcel_route (member : e ∈ p.graph.edges) : p.parcel (route p.positions e).pulse = e.parcel := by
  have ends : ∀ id, (p.indexOf? id).isSome → (p.action? ((p.indexOf? id).getD 0)).map (·.id) = some id := by
    intro id known
    obtain ⟨i, index⟩ := Option.isSome_iff_exists.mp known
    rw [index]
    exact (indexed.position id i).mp index
  have source := ends _ (indexed.known e member).1
  have target := ends _ (indexed.known e member).2
  simp only [indexOf?] at source target
  simp only [parcel, Route.pulse, route, source, target, Edge.parcel]

end Plan

namespace Run

section Looks
variable {r : Run} (indexed : r.plan.Indexed) (t : Tables) (there : r.plan.action? i = some a)
include indexed there

theorem census_status : (r.census t).status a.id = r.statuses[i]? := by
  simp only [census, Plan.index_of indexed there, Option.bind_some]

theorem census_arrivals : (r.census t).arrivals a.id = t.arrivals.get i := by
  simp only [census, Plan.index_of indexed there, Option.map_some, Option.getD_some]

theorem census_fires : (r.census t).fires a.id = t.fires.get i := by
  simp only [census, Plan.index_of indexed there, Option.map_some, Option.getD_some]

theorem census_inbox : (r.census t).inbox a.id = (r.pending.filter (·.target = i)).length := by
  rw [Census.inbox, census, Multiset.coe_countP, List.countP_map, ← List.countP_eq_length_filter]
  refine List.countP_congr fun q _ => ?_
  simp only [Function.comp, decide_eq_true_eq, Plan.parcel]
  exact decide_eq_true_iff.trans (Plan.id_iff indexed there q.target)

theorem census_met : (r.census t).met a.id = r.statuses[i]?.map (r.met i) := by
  rw [Census.met, census_status indexed t there, census_inbox indexed t there]
  refine congrArg (Option.map · _) (funext fun s => ?_)
  have some : 0 < (r.pending.filter (·.target = i)).length ↔ i ∈ r.pending.map Pulse.target := by
    simp [List.length_pos_iff_exists_mem]
  simp only [some, met]

end Looks

theorem Ticks.left_of_acts (ticks : Ticks t r ps ws t' r') (acts : i ∈ ws.map Work.action)
    (found : r.statuses[i]? = some s) : s.phase.isTerminal = false := by
  obtain ⟨_, _, _, driven⟩ := (ticks.acts i).mp acts
  have active := driven.isActive
  rw [phase_of (arrived_met found)] at active
  rcases r.met_parts i s with same | ⟨left, _⟩
  · exact isTerminal_of_isActive (same ▸ active)
  · exact left

-- The runs whose census tells what a tick makes of them: none of their actions completes quietly or
-- judges the blackboard, and none of their guards does.
structure Plain (r : Run) : Prop where
  indexed : r.plan.Indexed
  settled : r.Settled
  size : r.statuses.length = r.plan.graph.actions.length
  kinds : ∀ a ∈ r.plan.graph.actions, a.kind ∈ outKinds
  guards : ∀ e ∈ r.plan.graph.edges, e.isBlind = true

theorem Plain.opens {r m : Run} (plain : r.Plain) (t : Tables) (member : e ∈ r.plan.graph.edges)
    (same : (m.tags, m.raised) = (r.tags, r.raised)) (elapsed : Nat) :
    m.open? elapsed (Plan.route r.plan.positions e) = (r.census t).opens elapsed e := by
  have blind := plain.guards e member
  rw [Edge.isBlind] at blind
  simp only [open?, Plan.route, Census.opens]
  cases guard : e.guard with
  | none => rfl
  | some g =>
    rw [guard] at blind
    refine Guard.holds_blind ?_ g blind
    simp only [Prod.mk.injEq] at same
    simp only [moment, census, same]

namespace Ticks
variable {t t' : Tables} {r r' : Run} {ps ws : List Work} (ticks : Ticks t r ps ws t' r')
  (plain : r.Plain)
include ticks plain

theorem unswept : ps = [] := by
  refine List.eq_nil_iff_forall_not_mem.mpr fun w member => ?_
  obtain ⟨s, found, due⟩ := ticks.swept (List.mem_map_of_mem member)
  have inside := (List.getElem?_eq_some_iff.mp found).1
  rw [plain.size] at inside
  have there := List.getElem?_eq_getElem inside
  have loud : ∀ kind ∈ outKinds, kind ∉ quietKinds := by decide
  exact loud _ (plain.kinds _ (List.mem_of_getElem? there))
    ((plain.settled.met found).2 _ (Plan.kind_of there) due)

theorem census_deed (member : w ∈ ws) (there : r.plan.action? w.action = some a)
    (found : r.statuses[w.action]? = some s) :
    w.deed = (r.census t).deed r.plan.graph a (r.met w.action s) := by
  have known := plain.kinds a (List.mem_of_getElem? there)
  have kind := Plan.kind_of there
  have after : r.arrived.plan.action? w.action = some a := r.arrived_plan ▸ there
  rw [Census.deed]
  split
  · next simple => exact (ticks.suits member kind).passes_on known simple
  split
  · next isJoin =>
    have left := ticks.left_of_acts (List.mem_map_of_mem member) found
    rw [ticks.joins member (isJoin ▸ kind), Flow.joinDeed,
      Flow.needed_eq (r.arrived_plan ▸ plain.indexed) after, r.arrived_plan,
      ticks.arrived_deliveredTo, ticks.deliveredTo found, left,
      census_arrivals plain.indexed t there, census_inbox plain.indexed t there]
    rfl
  split
  · next isDelay =>
    have unswept : w.action ∉ ps.map Work.action := by rw [ticks.unswept plain]; exact List.not_mem_nil
    rw [ticks.delays member unswept (isDelay ▸ kind), Delay.deed, Delay.waited,
      arrived_met found, Plan.reading, Plan.property?, after]
    rfl
  · next simple notJoin notDelay =>
    have isTrigger : a.kind = Trigger.kind := by
      simpa [notJoin, notDelay] using simple
    rw [ticks.triggers member (isTrigger ▸ kind), Trigger.deed, Trigger.fires?_eq after,
      r.arrived_delivers.raised, census_fires plain.indexed t there]
    simp only [Trigger.exhausted_iff after]
    rfl

theorem census_acts (member : w ∈ ws) (there : r.plan.action? w.action = some a) :
    (r.census t).deed? r.plan.graph a.id = some w.deed := by
  have acts : w.action ∈ ws.map Work.action := List.mem_map_of_mem member
  obtain ⟨s, found⟩ := ticks.acted member
  obtain ⟨kind, _, same, driven⟩ := (ticks.acts _).mp acts
  rw [Plan.kind_of there, Option.some.injEq] at same
  rw [phase_of (arrived_met found), ← same] at driven
  rw [Census.deed?, Plan.named?_of plain.indexed there, Option.bind_some, census_met plain.indexed t there, found, Option.map_some,
    Option.bind_some, if_pos driven, ticks.census_deed plain member there found]

theorem census_idle (idle : i ∉ ws.map Work.action) (there : r.plan.action? i = some a) :
    (r.census t).deed? r.plan.graph a.id = none := by
  have known : ∀ kind ∈ outKinds, kind ∈ drivenKinds := by decide
  rw [Census.deed?, Plan.named?_of plain.indexed there, Option.bind_some, census_met plain.indexed t there]
  cases found : r.statuses[i]? with
  | none => rfl
  | some s =>
    refine if_neg fun driven => idle ((ticks.acts i).mpr ?_)
    refine ⟨a.kind, known _ (plain.kinds a (List.mem_of_getElem? there)), Plan.kind_of there, ?_⟩
    rwa [phase_of (arrived_met found)]

theorem census_after (there : r.plan.action? i = some a) :
    (r.census t).after r.plan.graph a.id = r'.statuses[i]? := by
  rw [Census.after, census_met plain.indexed t there]
  cases found : r.statuses[i]? with
  | none =>
    have outside := List.getElem?_eq_none_iff.mp found
    rw [List.getElem?_eq_none (by rw [ticks.size]; exact outside)]
    rfl
  | some s =>
    obtain ⟨s', after, fares⟩ := ticks.fares found
    rw [after]
    cases fares with
    | propagated _ swept => rw [ticks.unswept plain] at swept; cases swept
    | did member acts =>
      subst acts
      rw [ticks.census_acts plain member there]
      rfl
    | left _ idle => rw [ticks.census_idle plain idle there]; rfl

theorem census_exit (member : e ∈ r.plan.graph.edges) :
    ((r.census t).deed? r.plan.graph e.source).bind Deed.port? = some e.sourcePort ↔
      ∃ w ∈ ws, (Plan.route r.plan.positions e).source = w.action ∧
        w.deed.port? = some e.sourcePort := by
  obtain ⟨a, there, same⟩ := Plan.source_at plain.indexed member
  generalize (Plan.route r.plan.positions e).source = i at there
  rw [← same]
  constructor
  · intro sends
    by_cases acts : i ∈ ws.map Work.action
    · obtain ⟨w, inside, rfl⟩ := List.mem_map.mp acts
      rw [ticks.census_acts plain inside there] at sends
      exact ⟨w, inside, rfl, sends⟩
    · rw [ticks.census_idle plain acts there] at sends
      cases sends
  · rintro ⟨w, inside, rfl, sends⟩
    rw [ticks.census_acts plain inside there]
    exact sends

-- The routes that the deeds of a tick emit on, each work taking those it picks, are the edges that
-- are emitted on: each of them once, though in the order of the works.
theorem emitted_routes {picks : Work → Route → Bool} {opens : Edge → Bool}
    (same : ∀ w ∈ ws, ∀ e ∈ r.plan.graph.edges, picks w (Plan.route r.plan.positions e) = opens e) :
    (ws.flatMap fun w => w.routes.filter fun x => picks w x.2).Perm
      ((r.plan.graph.edges.zipIdx.filter fun x =>
        ((r.census t).deed? r.plan.graph x.1.source).bind Deed.port? = some x.1.sourcePort ∧
          opens x.1 = true).map fun x => (x.2, Plan.route r.plan.positions x.1)) := by
  have plan : ∀ w ∈ ws, w.run.plan = r.plan := fun w member =>
    ticks.plan_at (List.mem_append_right ps member)
  have routes : ∀ w ∈ ws, ∀ x, x ∈ w.routes ↔ r.plan.routes[x.1]? = some x.2 ∧
      x.2.source = w.action ∧ w.deed.port? = some x.2.sourcePort := by
    intro w member x
    rw [← plan w member]
    exact Work.mem_routes (plan w member ▸ plain.indexed)
  refine (List.perm_ext_iff_of_nodup ?_ ?_).mpr ?_
  · refine List.nodup_flatMap.mpr ⟨fun w member => ?_, ?_⟩
    · exact (Work.routes_nodup (plan w member ▸ plain.indexed)).filter _
    · have apart := List.pairwise_map.mp ticks.once.2
      refine apart.imp_of_mem fun {v w} early late differ x inV inW => differ ?_
      rw [← ((routes v early x).mp (List.mem_filter.mp inV).1).2.1,
        ((routes w late x).mp (List.mem_filter.mp inW).1).2.1]
  · refine List.Nodup.of_map Prod.fst ?_
    rw [List.map_map]
    exact Graph.positionsOf_nodup (fun e : Edge =>
      ((r.census t).deed? r.plan.graph e.source).bind Deed.port? = some e.sourcePort ∧
        opens e = true) _
  · rintro ⟨k, route⟩
    simp only [List.mem_flatMap, List.mem_filter, List.mem_map, Prod.exists, Prod.mk.injEq,
      List.mem_zipIdx_iff_getElem?, decide_eq_true_eq]
    constructor
    · rintro ⟨w, member, inside, picked⟩
      obtain ⟨there, source, port⟩ := (routes w member _).mp inside
      rw [plain.indexed.routes, List.getElem?_map] at there
      obtain ⟨e, found, rfl⟩ := Option.map_eq_some_iff.mp there
      have edge := List.mem_of_getElem? found
      refine ⟨e, k, ⟨found, (ticks.census_exit plain edge).mpr ⟨w, member, source, port⟩, ?_⟩, rfl, rfl⟩
      rw [← same w member e edge]
      exact picked
    · rintro ⟨e, _, ⟨found, sends, opened⟩, rfl, rfl⟩
      have edge := List.mem_of_getElem? found
      obtain ⟨w, member, source, port⟩ := (ticks.census_exit plain edge).mp sends
      refine ⟨w, member, (routes w member _).mpr ⟨?_, source, port⟩, ?_⟩
      · rw [plain.indexed.routes, List.getElem?_map, found]
        rfl
      · rw [same w member e edge]
        exact opened

theorem emitted_bag (picks : Work → Route → Bool) (opens : Edge → Bool) {f : Nat × Route → β}
    {h : Edge → β}
    (same : ∀ w ∈ ws, ∀ e ∈ r.plan.graph.edges, picks w (Plan.route r.plan.positions e) = opens e)
    (alike : ∀ (k : Nat) e, r.plan.graph.edges[k]? = some e → f (k, Plan.route r.plan.positions e) = h e) :
    (↑((ws.flatMap fun w => w.routes.filter fun x => picks w x.2).map f) : Multiset β) =
      (((r.census t).emitted r.plan.graph).filter fun e => opens e = true).map h := by
  rw [Census.emitted, Multiset.filter_filter, Multiset.filter_coe, Multiset.map_coe,
    Multiset.coe_eq_coe]
  refine ((ticks.emitted_routes plain same).map f).trans (.of_eq ?_)
  conv_rhs => rw [← List.zipIdx_map_fst 0 r.plan.graph.edges, List.filter_map, List.map_map]
  rw [List.map_map]
  have swap : ∀ x : Edge × Nat, (((r.census t).deed? r.plan.graph x.1.source).bind Deed.port? =
      some x.1.sourcePort ∧ opens x.1 = true) ↔ (opens x.1 = true ∧
      ((r.census t).deed? r.plan.graph x.1.source).bind Deed.port? = some x.1.sourcePort) :=
    fun x => and_comm
  simp only [swap]
  refine List.map_congr_left fun x member => ?_
  exact alike _ _ (List.mem_zipIdx_iff_getElem?.mp (List.mem_filter.mp member).1)

theorem opens_at (member : w ∈ ws) (edge : e ∈ r.plan.graph.edges) :
    w.run.open? 0 (Plan.route r.plan.positions e) = (r.census t).opens 0 e := by
  have keeps := ticks.keeps_at (List.mem_append_right ps member)
  have early := r.arrived_delivers
  refine plain.opens t edge ?_ 0
  rw [keeps.tags, keeps.raised, early.tags, early.raised]
  rfl

theorem census_sent : (↑((ws.flatMap Work.sent).map r.plan.parcel) : Multiset Parcel) =
    (((r.census t).emitted r.plan.graph).filter fun e => (r.census t).opens 0 e = true).map
      Edge.parcel := by
  rw [show ws.flatMap Work.sent = (ws.flatMap fun w => w.routes.filter fun x => w.run.open? 0 x.2).map
    fun x => x.2.pulse from List.map_flatMap.symm, List.map_map]
  refine ticks.emitted_bag plain (fun w route => w.run.open? 0 route)
    (fun e => (r.census t).opens 0 e) (fun w member e edge => ticks.opens_at plain member edge)
    fun k e there => Plan.parcel_route plain.indexed (List.mem_of_getElem? there)

theorem census_armed :
    (↑((ws.flatMap Work.armed).map fun d => (r.plan.edge? d.route, d.armed)) :
      Multiset (Option Edge × Nat)) =
    (((r.census t).emitted r.plan.graph).filter fun e => (!(r.census t).opens 0 e) = true).map
      fun e => (some e, r.tick + 1) := by
  have each : ∀ w ∈ ws, w.armed =
      (w.routes.filter fun x => !w.run.open? 0 x.2).map fun x => ⟨x.1, r.tick + 1⟩ := by
    intro w member
    rw [Work.armed, (ticks.keeps_at (List.mem_append_right ps member)).tick, r.arrived_tick]
  rw [List.flatMap_congr each, ← List.map_flatMap, List.map_map]
  refine ticks.emitted_bag plain (fun w route => !w.run.open? 0 route)
    (fun e => !(r.census t).opens 0 e) (fun w member e edge => ?_)
    fun k e there => congrArg (·, r.tick + 1) there
  rw [ticks.opens_at plain member edge]

end Ticks

section Release
variable {r : Run} (plain : r.Plain) (t : Tables) (d : Deferred)
include plain

theorem Plain.cancelled_iff (member : e ∈ r.plan.graph.edges) :
    r.arrived.phase (Plan.route r.plan.positions e).source = .cancelled ↔
      (r.census t).phase? e.source = some .cancelled := by
  obtain ⟨a, there, same⟩ := Plan.source_at plain.indexed member
  rw [r.arrived_cancelled, Census.phase?, ← same, census_status plain.indexed t there, phase]
  cases r.statuses[(Plan.route r.plan.positions e).source]? with
  | none => simp
  | some s => simp

theorem Plain.live : r.arrived.live? d = ((r.census t).live? (r.plan.edge? d.route, d.armed)).map
    (Plan.route r.plan.positions) := by
  rw [live?, r.arrived_plan, plain.indexed.routes, List.getElem?_map, Census.live?, Plan.edge?]
  cases there : r.plan.graph.edges[d.route]? with
  | none => rfl
  | some e =>
    have cancelled := plain.cancelled_iff t (List.mem_of_getElem? there)
    simp only [Option.map_some, Option.filter_some, ne_eq, cancelled]
    split <;> rfl

theorem Plain.judged {e : Edge} (live : (r.census t).live? (r.plan.edge? d.route, d.armed) = some e) :
    r.plan.parcel (Plan.route r.plan.positions e).pulse = e.parcel ∧
    r.arrived.open? (r.arrived.tick - d.armed) (Plan.route r.plan.positions e) =
      (r.census t).opens ((r.census t).tick + 1 - d.armed) e := by
  have member : e ∈ r.plan.graph.edges :=
    List.mem_of_getElem? (Option.filter_eq_some_iff.mp live).1
  have early := r.arrived_delivers
  rw [r.arrived_tick]
  exact ⟨Plan.parcel_route plain.indexed member,
    plain.opens t member (by rw [early.tags, early.raised]; rfl) _⟩

theorem Plain.lets : (r.arrived.lets? d).map r.plan.parcel =
    (r.census t).lets? (r.plan.edge? d.route, d.armed) := by
  rw [lets?, plain.live t, Census.lets?]
  cases live : (r.census t).live? (r.plan.edge? d.route, d.armed) with
  | none => rfl
  | some e =>
    obtain ⟨parcel, opens⟩ := plain.judged t d live
    simp only [Option.map_some, Option.filter_some, opens]
    split
    · exact congrArg some parcel
    · rfl

theorem Plain.holdsBack : r.arrived.holdsBack d =
    (r.census t).holdsBack (r.plan.edge? d.route, d.armed) := by
  rw [Run.holdsBack, plain.live t, Census.holdsBack]
  cases live : (r.census t).live? (r.plan.edge? d.route, d.armed) with
  | none => rfl
  | some e =>
    simp only [Option.map_some, Option.any_some, (plain.judged t d live).2]

end Release
namespace Ticks
variable {t t' : Tables} {r r' : Run} {ps ws : List Work} (ticks : Ticks t r ps ws t' r')
  (plain : r.Plain)
include ticks plain

theorem census_pending : (r'.census t').pending = ((r.census t).next r.plan.graph).pending := by
  have released : (↑(r.arrived.released.map r.plan.parcel) : Multiset Parcel) =
      (r.census t).deferred.filterMap (r.census t).lets? := by
    have queue : (r.census t).deferred =
        ↑(r.deferred.map fun d => (r.plan.edge? d.route, d.armed)) := rfl
    rw [released_eq, r.arrived_deferred, List.map_filterMap, queue, Multiset.filterMap_coe,
      List.filterMap_map]
    exact congrArg _ (List.filterMap_congr fun d _ => plain.lets t d)
  rw [census, ticks.plan, ticks.pending, ticks.unswept plain, List.nil_append, List.map_append,
    ← Multiset.coe_add, ticks.census_sent plain, released]
  rfl

theorem census_deferred : (r'.census t').deferred = ((r.census t).next r.plan.graph).deferred := by
  have retained : (↑(r.arrived.retained.map fun d => (r.plan.edge? d.route, d.armed)) :
      Multiset (Option Edge × Nat)) =
      (r.census t).deferred.filter fun d => (r.census t).holdsBack d = true := by
    have queue : (r.census t).deferred =
        ↑(r.deferred.map fun d => (r.plan.edge? d.route, d.armed)) := rfl
    rw [retained_eq, r.arrived_deferred, queue, Multiset.filter_coe, List.filter_map,
      List.filter_congr fun d _ => plain.holdsBack t d]
    simp only [Function.comp_def, Bool.decide_eq_true]
  rw [census, ticks.plan, ticks.deferred, ticks.unswept plain, List.nil_append, List.map_append,
    ← Multiset.coe_add, ticks.census_armed plain, retained]
  rfl

section Looks
variable (there : r.plan.action? i = some a)
include there

theorem census_counted : t'.arrivals.get i = t.arrivals.get i +
    if a.kind = Action.joinKind ∧ ((r.census t).deed? r.plan.graph a.id).isSome then
      (r.census t).inbox a.id else 0 := by
  by_cases isJoin : a.kind = Action.joinKind
  · rw [ticks.arrivals (isJoin ▸ Plan.kind_of there)]
    by_cases acts : i ∈ ws.map Work.action
    · obtain ⟨w, member, rfl⟩ := List.mem_map.mp acts
      obtain ⟨s, found⟩ := ticks.acted member
      rw [ticks.census_acts plain member there, if_pos acts, if_pos ⟨isJoin, rfl⟩,
        ticks.arrived_deliveredTo, ticks.deliveredTo found, ticks.left_of_acts acts found,
        census_inbox plain.indexed t there]
      rfl
    · rw [ticks.census_idle plain acts there, if_neg acts, if_neg (by simp)]
  · rw [(ticks.uncounted i).1 (by rwa [Plan.kind_of there, ne_eq, Option.some.injEq]),
      if_neg fun both => isJoin both.1, Nat.add_zero]

theorem census_fired : t'.fires.get i = t.fires.get i +
    if a.kind = Trigger.kind ∧
      ((r.census t).deed? r.plan.graph a.id).bind Deed.port? = some "out" then 1 else 0 := by
  by_cases isTrigger : a.kind = Trigger.kind
  · rw [ticks.fires (isTrigger ▸ Plan.kind_of there)]
    by_cases acts : i ∈ ws.map Work.action
    · obtain ⟨w, member, rfl⟩ := List.mem_map.mp acts
      rw [ticks.census_acts plain member there, emissions_single ticks.once.2 member]
      simp only [isTrigger, true_and, Option.bind_some]
    · rw [ticks.census_idle plain acts there, emissions_idle acts, if_neg (by simp)]
  · rw [(ticks.uncounted i).2 (by rwa [Plan.kind_of there, ne_eq, Option.some.injEq]),
      if_neg fun both => isTrigger both.1, Nat.add_zero]

theorem census_phases : (r.census t).phase? a.id = some (r.phase i) ∧
    ((r.census t).met a.id).map (·.phase) = some (r.arrived.phase i) ∧
    ((r.census t).after r.plan.graph a.id).map (·.phase) = some (r'.phase i) := by
  have inside : i < r.statuses.length := plain.size ▸ (List.getElem?_eq_some_iff.mp there).1
  have found := List.getElem?_eq_getElem inside
  obtain ⟨s', after, _⟩ := ticks.fares found
  rw [Census.phase?, census_status plain.indexed t there, census_met plain.indexed t there,
    ticks.census_after plain there, found, after, phase_of found, phase_of (arrived_met found),
    phase_of after]
  exact ⟨rfl, rfl, rfl⟩

end Looks

theorem census_lastChange : r'.lastChange = ((r.census t).next r.plan.graph).lastChange := by
  obtain ⟨calm, changed⟩ := ticks.dates
  rw [Census.next]
  dsimp only
  split
  · next same =>
    refine calm fun i => ?_
    cases there : r.plan.action? i with
    | some a =>
      obtain ⟨before, met, after⟩ := ticks.census_phases plain there
      have here := same a (List.mem_of_getElem? there)
      rwa [before, met, after, Option.some.injEq, Option.some.injEq] at here
    | none =>
      have outside : r.statuses.length ≤ i := plain.size ▸ List.getElem?_eq_none_iff.mp there
      have first : r.statuses[i]? = none := List.getElem?_eq_none outside
      have second : r.arrived.statuses[i]? = none :=
        List.getElem?_eq_none (by rw [r.arrived_size]; exact outside)
      have third : r'.statuses[i]? = none := List.getElem?_eq_none (by rw [ticks.size]; exact outside)
      simp only [phase, first, second, third, Option.map_none, and_self]
  · next differ =>
    simp only [not_forall] at differ
    obtain ⟨a, member, differ⟩ := differ
    obtain ⟨i, there⟩ := List.mem_iff_getElem?.mp member
    obtain ⟨before, met, after⟩ := ticks.census_phases plain there
    rw [before, met, after, Option.some.injEq, Option.some.injEq, not_and_or] at differ
    exact changed i differ

theorem census : r'.census t' = (r.census t).next r.plan.graph := by
  have indexed : r'.plan.Indexed := ticks.plan ▸ plain.indexed
  have unknown : ∀ id, r.plan.indexOf? id = none → r'.plan.indexOf? id = none := fun id none => by
    rw [ticks.plan, none]
  refine Census.ext (funext fun id => ?_) (funext fun id => ?_) (funext fun id => ?_)
    (ticks.census_pending plain) (ticks.census_deferred plain) ?_ ticks.raised ticks.tick
    (ticks.census_lastChange plain)
  · rcases Plan.look plain.indexed id with ⟨index, _⟩ | ⟨i, a, there, rfl⟩
    · simp only [Run.census, Census.next, Census.after, Census.met, index, unknown id index]
      rfl
    · rw [census_status indexed t' (ticks.plan ▸ there)]
      exact (ticks.census_after plain there).symm
  · rcases Plan.look plain.indexed id with ⟨index, none⟩ | ⟨i, a, there, rfl⟩
    · simp only [Run.census, Census.next, index, unknown id index, none]
      rfl
    · rw [census_arrivals indexed t' (ticks.plan ▸ there), ticks.census_counted plain there]
      simp only [Census.next, census_arrivals plain.indexed t there, Plan.named?_of plain.indexed there,
        Option.map_some, Option.some.injEq]
  · rcases Plan.look plain.indexed id with ⟨index, none⟩ | ⟨i, a, there, rfl⟩
    · simp only [Run.census, Census.next, index, unknown id index, none]
      rfl
    · rw [census_fires indexed t' (ticks.plan ▸ there), ticks.census_fired plain there]
      simp only [Census.next, census_fires plain.indexed t there, Plan.named?_of plain.indexed there,
        Option.map_some, Option.some.injEq]
  · obtain ⟨_, rfl, keeps⟩ := ticks.keeps
    exact keeps.tags.trans r.arrived_delivers.tags

end Ticks
end Run
end ActionGraph
