import ActionGraph.Proofs.Change
import ActionGraph.Proofs.Deferral
import ActionGraph.Proofs.Firing
import ActionGraph.Proofs.Wellformed
import Mathlib.Data.Multiset.Count
import Mathlib.Data.Multiset.Filter
-- Runs without their order. A census tells everything that is to be known of a run by the ids of
-- actions and the edges themselves, and the queues as bags. What a tick makes of a census is said
-- here without any walk over lists, so it cannot depend on how the graph is written down.
namespace ActionGraph

namespace Guard

mutual
def isBlind : Guard → Bool
  | expression .. => false
  | allOf parts => allBlind parts
  | anyOf parts => allBlind parts
  | _ => true

def allBlind : List Guard → Bool
  | [] => true
  | g :: rest => isBlind g && allBlind rest
end

mutual
theorem holds_blind {m m' : Moment}
    (same : (m.tags, m.raised, m.elapsed) = (m'.tags, m'.raised, m'.elapsed)) :
    (g : Guard) → g.isBlind = true → g.holds m = g.holds m'
  | immediate, _ => by simp only [holds]
  | delay _, _ | tag _, _ | event _, _ => by
    simp only [Prod.mk.injEq] at same
    simp only [holds, same]
  | allOf parts, blind => by
    rw [isBlind] at blind
    rw [holds, holds, (lists_blind same parts blind).1]
  | anyOf parts, blind => by
    rw [isBlind] at blind
    rw [holds, holds, (lists_blind same parts blind).2]

theorem lists_blind {m m' : Moment}
    (same : (m.tags, m.raised, m.elapsed) = (m'.tags, m'.raised, m'.elapsed)) :
    (parts : List Guard) → allBlind parts = true →
      allHold m parts = allHold m' parts ∧ anyHolds m parts = anyHolds m' parts
  | [], _ => by simp [allHold, anyHolds]
  | g :: rest, blind => by
    rw [allBlind, Bool.and_eq_true] at blind
    have later := lists_blind same rest blind.2
    simp only [allHold, anyHolds, holds_blind same g blind.1, later.1, later.2, and_self]
end

end Guard

def Edge.isBlind (e : Edge) : Bool := e.guard.all Guard.isBlind

structure Parcel where
  source : Option String
  sourcePort : String
  target : Option String
  targetPort : String
  deriving DecidableEq

def Edge.parcel (e : Edge) : Parcel := ⟨some e.source, e.sourcePort, some e.target, e.targetPort⟩

def Plan.parcel (p : Plan) (q : Pulse) : Parcel :=
  ⟨(p.action? q.source).map (·.id), q.sourcePort, (p.action? q.target).map (·.id), q.targetPort⟩

def Graph.named? (g : Graph) (id : String) : Option Action := g.actions.find? (·.id = id)

@[ext]
structure Census where
  status : String → Option Status
  arrivals : String → Nat
  fires : String → Nat
  pending : Multiset Parcel
  -- Each entry with its edge and the tick in which it was armed.
  deferred : Multiset (Option Edge × Nat)
  tags : List String
  raised : List String
  tick : Nat
  lastChange : Nat

def Run.census (t : Tables) (r : Run) : Census where
  status id := (r.plan.indexOf? id).bind fun i => r.statuses[i]?
  arrivals id := ((r.plan.indexOf? id).map t.arrivals.get).getD 0
  fires id := ((r.plan.indexOf? id).map t.fires.get).getD 0
  pending := ↑(r.pending.map r.plan.parcel)
  deferred := ↑(r.deferred.map fun d => (r.plan.edge? d.route, d.armed))
  tags := r.tags
  raised := r.raised
  tick := r.tick
  lastChange := r.lastChange

instance (kind : String) (phase : Phase) : Decidable (Driven kind phase) :=
  inferInstanceAs (Decidable (phase = .running ∨ kind = Trigger.kind ∧ phase = .listening))

namespace Census
section Tick
variable (g : Graph) (c : Census)

def phase? (id : String) : Option Phase := (c.status id).map (·.phase)

def inbox (id : String) : Nat := c.pending.countP fun q => q.target = some id

def met (id : String) : Option Status :=
  (c.status id).map fun s => if 0 < c.inbox id then s.address else s

def opens (elapsed : Nat) (e : Edge) : Bool := e.guard.all (Guard.holds ⟨∅, c.tags, c.raised, elapsed⟩)

-- What is done for a driven action. The first case is the one of the kinds that only pass on.
noncomputable def deed (a : Action) (s : Status) : Deed :=
  if a.kind ∉ [Action.joinKind, Delay.kind, Trigger.kind] then .finishOn "out"
  else if a.kind = Action.joinKind then
    if g.joinCount a ≤ c.arrivals a.id + c.inbox a.id then .finishOn "out" else .listen
  else if a.kind = Delay.kind then
    if ((a.properties.get? "ticks").bind Value.u64?).getD Delay.defaultTicks ≤
        (s.age + 1) % UInt64.size then .finishOn "out" else .rest
  else if a.hears c.raised then
    if a.fireLimit ≤ (c.fires a.id + 1 : ℕ) then .finishOn "out" else .pulse
  else .listen

noncomputable def deed? (id : String) : Option Deed :=
  (g.named? id).bind fun a => (c.met id).bind fun s =>
    if Driven a.kind s.phase then some (c.deed g a s) else none

noncomputable def after (id : String) : Option Status :=
  (c.met id).map fun s => (((c.deed? g id).map fun d => d.settle s).getD s).endTick

noncomputable def emitted : Multiset Edge :=
  (g.edges : Multiset Edge).filter fun e => (c.deed? g e.source).bind Deed.port? = some e.sourcePort

def live? (d : Option Edge × Nat) : Option Edge :=
  d.1.filter fun e => c.phase? e.source ≠ some .cancelled

def lets? (d : Option Edge × Nat) : Option Parcel :=
  ((c.live? d).filter fun e => c.opens (c.tick + 1 - d.2) e).map Edge.parcel

def holdsBack (d : Option Edge × Nat) : Bool :=
  (c.live? d).any fun e => !c.opens (c.tick + 1 - d.2) e

noncomputable def next : Census where
  status := c.after g
  arrivals id := c.arrivals id +
    if (g.named? id).map (·.kind) = some Action.joinKind ∧ (c.deed? g id).isSome then c.inbox id else 0
  fires id := c.fires id +
    if (g.named? id).map (·.kind) = some Trigger.kind ∧
      (c.deed? g id).bind Deed.port? = some "out" then 1 else 0
  pending := c.deferred.filterMap c.lets? + ((c.emitted g).filter fun e => c.opens 0 e).map Edge.parcel
  deferred := c.deferred.filter (fun d => c.holdsBack d) +
    ((c.emitted g).filter fun e => !c.opens 0 e).map fun e => (some e, c.tick + 1)
  tags := c.tags
  raised := []
  tick := c.tick + 1
  lastChange :=
    if ∀ a ∈ g.actions, (c.met a.id).map (·.phase) = c.phase? a.id ∧
      (c.after g a.id).map (·.phase) = (c.met a.id).map (·.phase) then c.lastChange else c.tick + 1

end Tick

end Census

theorem Graph.Wellformed.named?_iff {g : Graph} {id : String} (formed : g.Wellformed) :
    g.named? id = some a ↔ a ∈ g.actions ∧ a.id = id := by
  constructor
  · intro found
    exact ⟨List.mem_of_find?_eq_some found, by simpa using List.find?_some found⟩
  · rintro ⟨member, rfl⟩
    cases found : g.named? a.id with
    | none => simpa using List.find?_eq_none.mp found a member
    | some b =>
      have same : b.id = a.id := by simpa using List.find?_some found
      rw [List.inj_on_of_nodup_map formed.ids (List.mem_of_find?_eq_some found) member same]

section Order
variable {g g' : Graph} (formed : g.Wellformed) (actions : g.actions.Perm g'.actions)
  (edges : g.edges.Perm g'.edges)

theorem Graph.joinCount_perm (edges : g.edges.Perm g'.edges) (a : Action) :
    g.joinCount a = g'.joinCount a := by
  rw [joinCount, joinCount, indegree, indegree, edges.countP_eq]

include formed actions edges

theorem Graph.named?_perm (id : String) : g.named? id = g'.named? id := by
  refine Option.ext fun a => ?_
  rw [formed.named?_iff, (formed.perm actions edges).named?_iff, actions.mem_iff]

namespace Census
variable (c : Census)

theorem deed?_perm (id : String) : c.deed? g id = c.deed? g' id := by
  simp only [deed?, deed, Graph.named?_perm formed actions edges, Graph.joinCount_perm edges]

theorem after_perm : c.after g = c.after g' :=
  funext fun id => by simp only [after, deed?_perm formed actions edges]

theorem emitted_perm : c.emitted g = c.emitted g' := by
  simp only [emitted, deed?_perm formed actions edges]
  rw [Multiset.coe_eq_coe.mpr edges]

theorem next_perm : c.next g = c.next g' := by
  rw [next, next, emitted_perm formed actions edges, after_perm formed actions edges]
  simp only [deed?_perm formed actions edges, Graph.named?_perm formed actions edges, actions.mem_iff]

end Census
end Order
end ActionGraph
