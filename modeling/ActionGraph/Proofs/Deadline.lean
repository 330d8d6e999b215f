import ActionGraph.Proofs.Deferral
import ActionGraph.Proofs.Emission
import Mathlib.Data.ENat.Lattice
-- Guards and time. No guard is lost by waiting, by another tag or by another event, and one that looks
-- at nothing but time is met from a certain tick on. What such a guard holds back is sent in just that
-- tick, for every emission on its edge, unless the source is cancelled before.
namespace ActionGraph

-- A later look at the same blackboard, with nothing taken back that was signalled.
structure Moment.Grows (m m' : Moment) : Prop where
  board : m'.board = m.board
  tags : m.tags ⊆ m'.tags
  raised : m.raised ⊆ m'.raised
  elapsed : m.elapsed ≤ m'.elapsed

namespace Guard

mutual
theorem holds_grows {m m' : Moment} (grows : m.Grows m') :
    (g : Guard) → g.holds m = true → g.holds m' = true
  | immediate, _ => by simp only [holds]
  | delay ticks, held => by
    simp only [holds, decide_eq_true_eq] at held ⊢
    exact held.trans grows.elapsed
  | expression key op value, held => by
    simp only [holds] at held ⊢
    rwa [grows.board]
  | tag name, held => by
    simp only [holds, List.contains_iff_mem] at held ⊢
    exact grows.tags held
  | event name, held => by
    simp only [holds, List.contains_iff_mem] at held ⊢
    exact grows.raised held
  | allOf parts, held => by
    simp only [holds] at held ⊢
    exact (lists_grow grows parts).1 held
  | anyOf parts, held => by
    simp only [holds] at held ⊢
    exact (lists_grow grows parts).2 held

theorem lists_grow {m m' : Moment} (grows : m.Grows m') : (parts : List Guard) →
    (allHold m parts = true → allHold m' parts = true) ∧
      (anyHolds m parts = true → anyHolds m' parts = true)
  | [] => ⟨id, id⟩
  | g :: rest => by
    have here := holds_grows grows g
    have later := lists_grow grows rest
    simp only [allHold, anyHolds, Bool.and_eq_true, Bool.or_eq_true]
    exact ⟨And.imp here later.1, Or.imp here later.2⟩
end

mutual
def isTimed : Guard → Bool
  | immediate | delay _ => true
  | allOf parts => allTimed parts
  | anyOf parts => allTimed parts
  | _ => false

def allTimed : List Guard → Bool
  | [] => true
  | g :: rest => isTimed g && allTimed rest
end

mutual
noncomputable def deadline : Guard → ℕ∞
  | delay ticks => ticks
  | allOf parts => slowest parts
  | anyOf parts => quickest parts
  | _ => 0

noncomputable def slowest : List Guard → ℕ∞
  | [] => 0
  | g :: rest => max (deadline g) (slowest rest)

noncomputable def quickest : List Guard → ℕ∞
  | [] => ⊤
  | g :: rest => min (deadline g) (quickest rest)
end

mutual
theorem holds_timed (m : Moment) : (g : Guard) → g.isTimed = true →
    (g.holds m = true ↔ g.deadline ≤ m.elapsed)
  | immediate, _ => by simp [holds, deadline]
  | delay ticks, _ => by simp [holds, deadline]
  | expression .., timed | tag _, timed | event _, timed => by simp [isTimed] at timed
  | allOf parts, timed => by
    simp only [isTimed] at timed
    simp only [holds, deadline]
    exact (lists_timed m parts timed).1
  | anyOf parts, timed => by
    simp only [isTimed] at timed
    simp only [holds, deadline]
    exact (lists_timed m parts timed).2

theorem lists_timed (m : Moment) : (parts : List Guard) → allTimed parts = true →
    (allHold m parts = true ↔ slowest parts ≤ m.elapsed) ∧
      (anyHolds m parts = true ↔ quickest parts ≤ m.elapsed)
  | [], _ => by simp [allHold, anyHolds, slowest, quickest]
  | g :: rest, timed => by
    simp only [allTimed, Bool.and_eq_true] at timed
    have here := holds_timed m g timed.1
    have later := lists_timed m rest timed.2
    simp only [allHold, anyHolds, slowest, quickest, Bool.and_eq_true, Bool.or_eq_true, max_le_iff,
      min_le_iff]
    exact ⟨and_congr here later.1, or_congr here later.2⟩
end

example : deadline (.allOf [.delay 2, .anyOf []]) = ⊤ := by simp [deadline, slowest, quickest]

end Guard

theorem Run.open_timed {r : Run} {route : Route} {guard : Guard} (guarded : route.guard = some guard)
    (timed : guard.isTimed = true) (elapsed : Nat) :
    r.open? elapsed route = true ↔ guard.deadline ≤ elapsed := by
  rw [Run.open?, guarded]
  exact guard.holds_timed (r.moment elapsed) timed

-- Nothing but time is in the way of the route at `t`.
structure Plan.Times (p : Plan) (t : Nat) (route : Route) (guard : Guard) : Prop where
  there : p.routes[t]? = some route
  guarded : route.guard = some guard
  timed : guard.isTimed = true

def Work.prompt (w : Work) : List Deferred :=
  (w.routes.filter fun t => w.run.open? 0 t.2).map fun t => ⟨t.1, w.run.tick⟩

def Tale.origins (earlier : List Tale) (tale : Tale) : List Deferred :=
  (stillWaiting earlier).filter (fun d => (tale.point.lets? d).isSome) ++
    tale.works.flatMap Work.prompt

namespace Work
variable {w : Work} (indexed : w.run.plan.Indexed)
include indexed

theorem prompt_pulses : w.prompt.filterMap w.run.plan.pulse? = w.sent := by
  rw [prompt, sent, List.filterMap_map, ← List.filterMap_eq_map]
  refine List.filterMap_congr fun x member => ?_
  have there := ((mem_routes indexed).mp (List.mem_filter.mp member).1).1
  rw [Function.comp, Plan.pulse?, there]
  rfl

theorem dated_nodup (test : Route → Bool) :
    ((w.routes.filter fun x => test x.2).map fun x => (⟨x.1, w.run.tick⟩ : Deferred)).Nodup := by
  refine List.Nodup.map_on ?_ ((routes_nodup indexed).filter _)
  intro x here y other same
  have left := ((mem_routes indexed).mp (List.mem_filter.mp here).1).1
  have right := ((mem_routes indexed).mp (List.mem_filter.mp other).1).1
  have index : x.1 = y.1 := congrArg Deferred.route same
  rw [index, right] at left
  exact Prod.ext index (Option.some.inj left).symm

theorem count_dated (there : w.run.plan.routes[t]? = some route) (test : Route → Bool) (date : Nat) :
    ((w.routes.filter fun x => test x.2).map fun x => (⟨x.1, w.run.tick⟩ : Deferred)).count ⟨t, date⟩ =
      if (date = w.run.tick ∧ test route = true) ∧ w.action = route.source ∧
        w.deed.port? = some route.sourcePort then 1 else 0 := by
  rw [(dated_nodup indexed test).count]
  refine if_congr ?_ rfl rfl
  constructor
  · intro member
    obtain ⟨⟨t', route'⟩, inside, same⟩ := List.mem_map.mp member
    obtain ⟨rfl, rfl⟩ := Deferred.mk.inj same
    obtain ⟨inside, opens⟩ := List.mem_filter.mp inside
    obtain ⟨found, source, leaves⟩ := (mem_routes indexed).mp inside
    cases there.symm.trans found
    exact ⟨⟨rfl, opens⟩, source.symm, leaves⟩
  · rintro ⟨⟨rfl, opens⟩, source, leaves⟩
    have inside := (mem_routes indexed).mpr ⟨there, source.symm, leaves⟩
    exact List.mem_map.mpr ⟨(t, route), List.mem_filter.mpr ⟨inside, opens⟩, rfl⟩

end Work

theorem flatMap_count {ws : List Work} {entries : Work → List Deferred} {held : Prop}
    [Decidable held] (each : ∀ w ∈ ws, (entries w).count d =
      if held ∧ w.action = i ∧ w.deed.port? = some port then 1 else 0) :
    (ws.flatMap entries).count d = if held then emissions ws i port else 0 := by
  induction ws with
  | nil => simp [emissions]
  | cons w rest ih =>
    have later := ih fun v member => each v (List.mem_cons_of_mem _ member)
    rw [List.flatMap_cons, List.count_append, each w List.mem_cons_self, later]
    by_cases held : held <;> simp [held, emissions, List.countP_cons, Nat.add_comm]

theorem count_filter_ite [DecidableEq α] (f : α → Bool) (a : α) (l : List α) :
    (l.filter f).count a = if f a = true then l.count a else 0 := by
  split
  · next holds => exact List.count_filter holds
  · next fails => exact List.count_eq_zero.mpr fun member => fails (List.mem_filter.mp member).2

theorem Run.open_at_once (r : Run) {route : Route} {guard : Guard}
    (guarded : route.guard = some guard) (timed : guard.isTimed = true) :
    r.open? 0 route = true ↔ guard.deadline = 0 := by
  rw [Run.open_timed guarded timed, Nat.cast_zero, nonpos_iff_eq_zero]

namespace Tale.Follows
variable {p : Plan} {earlier : List Tale} {tale : Tale} (follows : tale.Follows p earlier)
include follows

theorem dated (member : d ∈ tale.armed) : d.armed = earlier.length + 1 := by
  obtain ⟨w, works, member⟩ := List.mem_flatMap.mp member
  obtain ⟨_, _, rfl⟩ := List.mem_map.mp member
  exact (follows.works w works).2.1

section Judged
variable {route : Route} {guard : Guard} (times : p.Times t route guard)
include times

theorem holdsBack_iff (date : Nat) : tale.point.holdsBack ⟨t, date⟩ = true ↔
    tale.point.phase route.source ≠ .cancelled ∧
      ((earlier.length + 1 - date : Nat) : ℕ∞) < guard.deadline := by
  have there := times.there
  rw [← follows.point.1] at there
  rw [Run.holdsBack, Run.live?, there, follows.point.2.1, ← not_le,
    ← Run.open_timed times.guarded times.timed (r := tale.point)]
  by_cases lapses : tale.point.phase route.source = .cancelled <;> simp [lapses]

theorem lets_iff (date : Nat) : (tale.point.lets? ⟨t, date⟩).isSome = true ↔
    tale.point.phase route.source ≠ .cancelled ∧
      guard.deadline ≤ (earlier.length + 1 - date : Nat) := by
  have there := times.there
  rw [← follows.point.1] at there
  rw [Run.lets?, Run.live?, there, follows.point.2.1,
    ← Run.open_timed times.guarded times.timed (r := tale.point)]
  by_cases lapses : tale.point.phase route.source = .cancelled <;> simp [lapses]

end Judged

variable (indexed : p.Indexed)
include indexed

theorem origins_pulses :
    tale.turn.after.pending = (tale.origins earlier).filterMap p.pulse? := by
  have lets : ∀ d, tale.point.lets? d = if (tale.point.lets? d).isSome then p.pulse? d else none := by
    intro d
    cases lets : tale.point.lets? d with
    | none => rfl
    | some q =>
      obtain ⟨route, opens, rfl⟩ := Option.map_eq_some_iff.mp lets
      obtain ⟨there, _⟩ := Run.live_parts (Option.filter_eq_some_iff.mp opens).1
      rw [follows.point.1] at there
      rw [Plan.pulse?, there]
      rfl
  have prompt : ∀ w ∈ tale.works, w.prompt.filterMap p.pulse? = w.sent := by
    intro w member
    have plan := (follows.works w member).1
    rw [← plan]
    exact Work.prompt_pulses (plan ▸ indexed)
  rw [follows.pending, origins, List.filterMap_append, List.filterMap_filter, sent]
  congr 1
  · exact List.filterMap_congr fun d _ => lets d
  · rw [List.filterMap_flatMap]
    exact (List.flatMap_congr prompt).symm

variable {route : Route} {guard : Guard} (times : p.Times t route guard)
include times

theorem prompt_count (date : Nat) : (tale.works.flatMap Work.prompt).count ⟨t, date⟩ =
    if date = earlier.length + 1 ∧ guard.deadline = 0
      then emissions tale.works route.source route.sourcePort else 0 := by
  refine flatMap_count fun w member => ?_
  obtain ⟨plan, tick, _, _⟩ := follows.works w member
  have atOnce := w.run.open_at_once times.guarded times.timed
  rw [Work.prompt, Work.count_dated (plan ▸ indexed) (plan ▸ times.there) (w.run.open? 0)]
  simp only [tick, atOnce]

theorem armed_count (date : Nat) : tale.armed.count ⟨t, date⟩ =
    if date = earlier.length + 1 ∧ guard.deadline ≠ 0
      then emissions tale.works route.source route.sourcePort else 0 := by
  refine flatMap_count fun w member => ?_
  obtain ⟨plan, tick, _, _⟩ := follows.works w member
  have atOnce := w.run.open_at_once times.guarded times.timed
  rw [Work.armed, Work.count_dated (plan ▸ indexed) (plan ▸ times.there) (!w.run.open? 0 ·)]
  simp only [tick, Bool.not_eq_true', Bool.eq_false_iff, ne_eq, atOnce]

end Tale.Follows

def Flows (p : Plan) (told : List Tale) : Prop :=
  ∀ earlier tale later, told = earlier ++ tale :: later → tale.Follows p earlier

namespace Flows
variable {p : Plan} {told : List Tale}

theorem init (flows : Flows p (told ++ rest)) : Flows p told := by
  rintro earlier tale later rfl
  exact flows earlier tale (later ++ rest) (by simp)

theorem last (flows : Flows p (told ++ [tale])) : tale.Follows p told :=
  flows told tale [] rfl

theorem dated (flows : Flows p told) : ∀ d ∈ stillWaiting told, d.armed ≤ told.length := by
  induction told using List.reverseRecOn with
  | nil => simp [stillWaiting]
  | append_singleton told tale ih =>
    intro d member
    rw [stillWaiting_append, List.mem_append] at member
    rw [List.length_append, List.length_singleton]
    rcases member with old | new
    · exact (ih flows.init d (List.mem_filter.mp old).1).trans (Nat.le_succ _)
    · exact (flows.last.dated new).le

theorem undated (flows : Flows p told) (f : Deferred → Bool) {date : Nat}
    (late : told.length < date) : ((stillWaiting told).filter f).count ⟨t, date⟩ = 0 := by
  refine List.count_eq_zero.mpr fun member => ?_
  have early := flows.dated _ (List.mem_filter.mp member).1
  exact Nat.not_lt.mpr early late

-- What a turn arms on such a route waits through the next turns until its time is up, unless the
-- source is cancelled before.
theorem waiting_count (indexed : p.Indexed) {route : Route} {guard : Guard}
    (times : p.Times t route guard) {earlier later : List Tale} {tale : Tale}
    (flows : Flows p (earlier ++ tale :: later)) :
    (stillWaiting (earlier ++ tale :: later)).count ⟨t, earlier.length + 1⟩ =
      if (later.length : ℕ∞) < guard.deadline ∧
        ∀ since ∈ later, since.point.phase route.source ≠ .cancelled
      then emissions tale.works route.source route.sourcePort else 0 := by
  induction later using List.reverseRecOn with
  | nil =>
    have old := flows.init.undated tale.point.holdsBack (t := t) (Nat.lt_succ_self _)
    rw [stillWaiting_append, List.count_append, old, flows.last.armed_count indexed times]
    simp [pos_iff_ne_zero]
  | append_singleton later since ih =>
    rw [← List.cons_append, ← List.append_assoc] at flows ⊢
    have new : since.armed.count ⟨t, earlier.length + 1⟩ = 0 := by
      refine List.count_eq_zero.mpr fun member => ?_
      have := flows.last.dated member
      simp at this
    have held := flows.last.holdsBack_iff times (earlier.length + 1)
    have elapsed : (earlier ++ tale :: later).length + 1 - (earlier.length + 1) = later.length + 1 := by
      simp
    rw [elapsed] at held
    rw [stillWaiting_append, List.count_append, new, Nat.add_zero, count_filter_ite, ih flows.init,
      ← ite_and]
    refine if_congr ?_ rfl rfl
    rw [held, List.length_append, List.length_singleton, List.forall_mem_append]
    simp only [List.forall_mem_singleton]
    constructor
    · rintro ⟨⟨last, waits⟩, _, before⟩
      exact ⟨waits, before, last⟩
    · rintro ⟨waits, before, last⟩
      have less : (later.length : ℕ∞) ≤ (later.length + 1 : Nat) := Nat.cast_le.mpr (Nat.le_succ _)
      exact ⟨⟨last, waits⟩, less.trans_lt waits, before⟩

section Sent
variable (indexed : p.Indexed) {route : Route} {guard : Guard} (times : p.Times t route guard)
include indexed times

theorem origins_before {since : Tale} (flows : Flows p (told ++ [since])) (late : told.length < n) :
    (since.origins told).count ⟨t, n + 1⟩ = 0 := by
  have old := flows.init.undated (fun d => (since.point.lets? d).isSome) (t := t)
    (Nat.lt_succ_of_lt late)
  rw [Tale.origins, List.count_append, old, flows.last.prompt_count indexed times, if_neg]
  omega

theorem origins_same {since : Tale} (flows : Flows p (told ++ [since])) :
    (since.origins told).count ⟨t, told.length + 1⟩ = if guard.deadline = 0
      then emissions since.works route.source route.sourcePort else 0 := by
  have old := flows.init.undated (fun d => (since.point.lets? d).isSome) (t := t)
    (Nat.lt_succ_self _)
  rw [Tale.origins, List.count_append, old, flows.last.prompt_count indexed times]
  simp

theorem origins_after {earlier later : List Tale} {tale since : Tale}
    (flows : Flows p (earlier ++ tale :: later ++ [since])) :
    (since.origins (earlier ++ tale :: later)).count ⟨t, earlier.length + 1⟩ =
      if guard.deadline = (later.length + 1 : Nat) ∧
        ∀ turn ∈ later ++ [since], turn.point.phase route.source ≠ .cancelled
      then emissions tale.works route.source route.sourcePort else 0 := by
  have lets := flows.last.lets_iff times (earlier.length + 1)
  have elapsed : (earlier ++ tale :: later).length + 1 - (earlier.length + 1) = later.length + 1 := by
    simp
  rw [elapsed] at lets
  have new : (since.works.flatMap Work.prompt).count ⟨t, earlier.length + 1⟩ = 0 := by
    rw [flows.last.prompt_count indexed times, if_neg]
    simp
  rw [Tale.origins, List.count_append, new, Nat.add_zero, count_filter_ite,
    flows.init.waiting_count indexed times, ← ite_and]
  refine if_congr ?_ rfl rfl
  have due : guard.deadline = (later.length + 1 : Nat) ↔
      guard.deadline ≤ (later.length + 1 : Nat) ∧ (later.length : ℕ∞) < guard.deadline := by
    rw [le_antisymm_iff, ← ENat.add_one_le_iff (ENat.natCast_ne_top later.length), Nat.cast_succ]
  rw [lets, due, List.forall_mem_append]
  simp only [List.forall_mem_singleton]
  constructor
  · rintro ⟨⟨last, ripe⟩, waits, before⟩
    exact ⟨⟨ripe, waits⟩, before, last⟩
  · rintro ⟨⟨ripe, waits⟩, before, last⟩
    exact ⟨⟨last, ripe⟩, waits, before⟩

end Sent
end Flows

namespace Run.Works

theorem cancelled_idle (works : Works r ws r') (cancelled : r.phase i = .cancelled) :
    i ∉ ws.map Work.action := by
  induction works with
  | nil => simp
  | @cons _ _ _ _ _ d j there fits done _ ih =>
    have differ : j ≠ i := by
      rintro rfl
      rw [phase_of there] at cancelled
      cases d <;> simp [Deed.Fits, cancelled, Phase.isActive] at fits
    have later := ih (by rw [phase, done.other differ, ← phase, cancelled])
    rw [List.map_cons, List.mem_cons, not_or]
    exact ⟨differ.symm, later⟩

end Run.Works

theorem Reached.stays_cancelled {turn : Turn} (reached : Reached g script t r turns)
    (member : turn ∈ turns) (cancelled : turn.before.phase i = .cancelled) : r.phase i = .cancelled := by
  induction reached using Reached.induct with
  | opened => cases member
  | heeded _ _ r _ s _ _ ih =>
    rw [(r.heed_heeds s).final (by rw [ih member]; rfl), ih member]
  | ticked _ _ r _ _ _ _ _ _ ticks ih =>
    have before : r.phase i = .cancelled := by
      rcases List.mem_append.mp member with old | last
      · exact ih old
      · cases List.mem_singleton.mp last
        exact cancelled
    rw [ticks.final (by rw [before]; rfl), before]

namespace Reached

theorem flows (reached : Reached g script t r turns) (tells : Tells told turns) :
    Flows r.plan told := by
  rintro earlier tale later rfl
  exact reached.follows tells

theorem was_left {earlier later : List Tale} {tale since : Tale}
    (reached : Reached g script t r turns) (tells : Tells (earlier ++ since :: later) turns)
    (member : tale ∈ earlier) (left : since.point.phase i ≠ .cancelled) :
    tale.point.phase i ≠ .cancelled := by
  obtain ⟨same, _⟩ := tells
  rw [List.map_append, List.map_cons] at same
  subst same
  obtain ⟨_, _, _, _, _, prior, _⟩ := reached.turn
  refine fun cancelled => left ?_
  rw [Tale.point, Run.arrived_cancelled] at cancelled ⊢
  exact prior.stays_cancelled (List.mem_map_of_mem member) cancelled

end Reached

theorem Tale.Holds.cancelled_idle {tale : Tale} (holds : tale.Holds)
    (cancelled : tale.point.phase i = .cancelled) (port : String) : emissions tale.works i port = 0 := by
  obtain ⟨done, works, _⟩ := holds
  refine emissions_idle (works.cancelled_idle ?_) port
  rw [Run.releaseDeferred_eq]
  exact cancelled

structure Graph.Carries (g : Graph) (edge : Edge) (q : Pulse) : Prop where
  source : (g.actions[q.source]?).map (·.id) = some edge.source
  sourcePort : q.sourcePort = edge.sourcePort
  target : (g.actions[q.target]?).map (·.id) = some edge.target
  targetPort : q.targetPort = edge.targetPort

theorem Plan.Indexed.carried {p : Plan} (indexed : p.Indexed) {edge : Edge}
    {t : Nat} (there : p.graph.edges[t]? = some edge) : ∃ route : Route, p.routes[t]? = some route ∧
      route.guard = edge.guard ∧ p.graph.Carries edge route.pulse := by
  refine ⟨Plan.route p.positions edge, ?_, rfl, ?_⟩
  · rw [indexed.routes, List.getElem?_map, there]
    rfl
  · obtain ⟨source, target⟩ := indexed.known edge (List.mem_of_getElem? there)
    exact ⟨(Plan.end_eq_iff indexed source _).mp rfl, rfl,
      (Plan.end_eq_iff indexed target _).mp rfl, rfl⟩

theorem split_at {l : List α} {n : Nat} (there : l[n]? = some a) :
    ∃ before after, l = before ++ a :: after ∧ before.length = n := by
  obtain ⟨inside, rfl⟩ := List.getElem?_eq_some_iff.mp there
  refine ⟨l.take n, l.drop (n + 1), ?_, List.length_take_of_le inside.le⟩
  rw [List.getElem_cons_drop, List.take_append_drop]

theorem due_iff (n k : Nat) (deadline : ℕ∞) : ((n + k : Nat) : ℕ∞) = n + deadline ↔ deadline = k := by
  induction deadline using ENat.recTopCoe with
  | top => simp
  | coe ticks =>
    norm_cast
    omega

theorem Reached.punctual (reached : Reached g script t r turns) {route : Route} {guard : Guard}
    (times : r.plan.Times edge route guard) {earlier rest : List Tale} {tale since : Tale}
    (tells : Tells (earlier ++ since :: rest) turns) {n : Nat}
    (emits : (earlier ++ since :: rest)[n]? = some tale) :
    (since.origins earlier).count ⟨edge, n + 1⟩ =
      if (earlier.length : ℕ∞) = n + guard.deadline ∧ since.point.phase route.source ≠ .cancelled
      then emissions tale.works route.source route.sourcePort else 0 := by
  have indexed := reached.indexed
  have flows : Flows r.plan (earlier ++ [since]) := by
    have all := reached.flows tells
    rw [List.append_cons] at all
    exact all.init
  rcases Nat.lt_trichotomy earlier.length n with late | rfl | early
  · rw [flows.origins_before indexed times late, if_neg]
    rintro ⟨due, _⟩
    have less : (earlier.length : ℕ∞) < n := Nat.cast_lt.mpr late
    exact less.not_ge (due ▸ le_self_add)
  · rw [List.getElem?_append_right le_rfl, Nat.sub_self, List.getElem?_cons_zero,
      Option.some.injEq] at emits
    subst emits
    have due := due_iff earlier.length 0 guard.deadline
    rw [Nat.add_zero, Nat.cast_zero] at due
    rw [flows.origins_same indexed times]
    by_cases cancelled : since.point.phase route.source = .cancelled
    · have idle := (tells.2 since (by simp)).cancelled_idle cancelled route.sourcePort
      rw [idle, ite_self, ite_self]
    · simp [due, cancelled]
  · rw [List.getElem?_append_left early] at emits
    obtain ⟨before, later, rfl, rfl⟩ := split_at emits
    have due := due_iff before.length (later.length + 1) guard.deadline
    have alive : (∀ turn ∈ later ++ [since], turn.point.phase route.source ≠ .cancelled) ↔
        since.point.phase route.source ≠ .cancelled := by
      constructor
      · intro all
        exact all since (by simp)
      · intro left turn member
        rcases List.mem_append.mp member with old | last
        · exact reached.was_left tells (by simp [old]) left
        · cases List.mem_singleton.mp last
          exact left
    rw [flows.origins_after indexed times]
    refine if_congr ?_ rfl rfl
    rw [List.length_append, List.length_cons, due, alive]

theorem Reached.last_pending {turn : Turn} (reached : Reached g script t r (earlier ++ [turn])) :
    r.pending = turn.after.pending := by
  generalize all : earlier ++ [turn] = turns at reached
  induction reached using Reached.induct generalizing earlier with
  | opened => simp at all
  | heeded _ _ r _ s _ _ ih => rw [(r.heed_heeds s).pending, ih all]
  | ticked =>
    obtain ⟨_, same⟩ := List.append_inj' all rfl
    cases same
    rfl

theorem Reached.passed_on {turn next : Turn}
    (reached : Reached g script t r (earlier ++ turn :: next :: later)) :
    next.after.delivered = turn.after.pending.filter next.before.accepts := by
  rw [List.append_cons] at reached
  obtain ⟨_, _, _, _, _, prior, ticks⟩ := reached.turn
  rw [ticks.delivered, prior.last_pending]

-- The start sounds a bell after a while, and a second edge never lets its pulse through.
def kitchen : Graph where
  actions := [⟨"start", Action.startKind, ∅, ∅⟩, ⟨"bell", Trigger.kind, ∅, ∅⟩]
  edges := [⟨"start", "bell", "out", "in", some (.allOf [.delay 1, .anyOf [.delay 4, .delay 2]])⟩,
    ⟨"start", "bell", "out", "in", some (.anyOf [])⟩]

def kitchenEngine : Engine := { stages := Stage.standard, locked := true }

theorem kitchen_opens : Opens kitchen (kitchenEngine.load kitchen).1 := .load kitchenEngine rfl rfl

namespace Chronicle

-- Guards only ever come to hold while the blackboard stays as it is, and those that look at nothing
-- but the time hold from their deadline on. So after any script, what a turn sends is what became
-- due in it: the pulse of a timed edge once for each emission that many ticks before, if the source
-- is not cancelled by then. The next turn delivers it to a target that is not final.
theorem timed_guards_keep_their_deadline (opens : Opens g e) (script : List Signal) :
    (∀ (m m' : Moment) (guard : Guard), m.Grows m' → guard.holds m = true → guard.holds m' = true) ∧
    (∀ (m : Moment) (guard : Guard), guard.isTimed = true →
      (guard.holds m = true ↔ guard.deadline ≤ m.elapsed)) ∧
    ∃ c r, (⟨e, []⟩ : Chronicle).play script = .ok c ∧ c.engine.run = some r ∧
      (∃ told, Tells told c.turns) ∧ ∀ told, Tells told c.turns →
      ∀ earlier since later, told = earlier ++ since :: later →
        since.point.tick = earlier.length + 1 ∧
        since.turn.after.pending = (since.origins earlier).filterMap r.plan.pulse? ∧
        (∀ next rest, later = next :: rest → next.turn.after.delivered =
          since.turn.after.pending.filter next.turn.before.accepts) ∧
        ∀ (n : Nat) tale, told[n]? = some tale →
        ∀ (t : Nat) (edge : Edge) (guard : Guard), g.edges[t]? = some edge →
          edge.guard = some guard → guard.isTimed = true →
          ∃ q, r.plan.pulse? ⟨t, n + 1⟩ = some q ∧ g.Carries edge q ∧
            (since.origins earlier).count ⟨t, n + 1⟩ =
              if (earlier.length : ℕ∞) = n + guard.deadline ∧ since.point.phase q.source ≠ .cancelled
              then emissions tale.works q.source q.sourcePort else 0 := by
  refine ⟨fun m m' guard grows => guard.holds_grows grows, fun m guard => guard.holds_timed m, ?_⟩
  obtain ⟨c, _, r, played, shows, reached⟩ := play_reached opens script
  refine ⟨c, r, played, shows.run, reached.telling, ?_⟩
  rintro told tells earlier since later rfl
  have follows := reached.follows tells
  refine ⟨follows.point.2.1, follows.origins_pulses reached.indexed, ?_, ?_⟩
  · rintro next rest rfl
    obtain ⟨same, _⟩ := tells
    rw [List.map_append, List.map_cons, List.map_cons] at same
    exact (same ▸ reached).passed_on
  · intro n tale emits t edge guard there guarded timed
    rw [← reached.graph] at there ⊢
    obtain ⟨route, found, same, carries⟩ := reached.indexed.carried there
    refine ⟨route.pulse, ?_, carries, ?_⟩
    · rw [Plan.pulse?, found]
      rfl
    · exact reached.punctual ⟨found, same.trans guarded, timed⟩ tells emits

theorem kitchen_keeps_its_deadline :
    (∀ (m m' : Moment) (guard : Guard), m.Grows m' → guard.holds m = true → guard.holds m' = true) ∧
    (∀ (m : Moment) (guard : Guard), guard.isTimed = true →
      (guard.holds m = true ↔ guard.deadline ≤ m.elapsed)) ∧
    ∃ c r, (⟨(kitchenEngine.load kitchen).1, []⟩ : Chronicle).play
        [.tick, .tick, .tick, .tick] = .ok c ∧ c.engine.run = some r ∧
      (∃ told, Tells told c.turns) ∧ ∀ told, Tells told c.turns →
      ∀ earlier since later, told = earlier ++ since :: later →
        since.point.tick = earlier.length + 1 ∧
        since.turn.after.pending = (since.origins earlier).filterMap r.plan.pulse? ∧
        (∀ next rest, later = next :: rest → next.turn.after.delivered =
          since.turn.after.pending.filter next.turn.before.accepts) ∧
        ∀ (n : Nat) tale, told[n]? = some tale →
        ∀ (t : Nat) (edge : Edge) (guard : Guard), kitchen.edges[t]? = some edge →
          edge.guard = some guard → guard.isTimed = true →
          ∃ q, r.plan.pulse? ⟨t, n + 1⟩ = some q ∧ kitchen.Carries edge q ∧
            (since.origins earlier).count ⟨t, n + 1⟩ =
              if (earlier.length : ℕ∞) = n + guard.deadline ∧ since.point.phase q.source ≠ .cancelled
              then emissions tale.works q.source q.sourcePort else 0 :=
  timed_guards_keep_their_deadline kitchen_opens _

end Chronicle
end ActionGraph
