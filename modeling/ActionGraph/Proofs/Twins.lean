import ActionGraph.Proofs.Course
-- Twins: two runs in the same state over graphs that every stage reads alike. Whatever the stages do
-- with the one they do with the other, and the host is handed the same. Only what is reported may
-- differ, and where the graphs are the same the reports are too.
namespace ActionGraph

inductive Want where
  | text | flag | count | ticks | comparison | level
  deriving DecidableEq

def Want.takes : Want → Value → Bool
  | text, v => v.text?.isSome
  | flag, v => v.bool?.isSome
  | count, v => v.u32?.isSome
  | ticks, v => v.u64?.isSome
  | comparison, v => (v.text?.bind Comparison.read?).isSome
  | level, v => (v.text?.bind Level.read?).isSome

structure Slot where
  kind : String
  key : String
  want : Want
  deriving DecidableEq

def Slot.all : List Slot :=
  [⟨Delay.kind, "ticks", .ticks⟩, ⟨Warning.kind, "duration_ticks", .ticks⟩,
    ⟨Action.joinKind, "count", .count⟩, ⟨Spawn.kind, "count", .count⟩,
    ⟨Trigger.kind, "max_fires", .count⟩, ⟨Trigger.kind, "repeat", .flag⟩,
    ⟨Assign.kind, "global", .flag⟩, ⟨Filter.kind, "op", .comparison⟩, ⟨Log.kind, "level", .level⟩,
    ⟨Filter.kind, "key", .text⟩, ⟨Assign.kind, "key", .text⟩, ⟨Spawn.kind, "prefab", .text⟩,
    ⟨Warning.kind, "message", .text⟩, ⟨Log.kind, "message", .text⟩, ⟨Trigger.kind, "event", .text⟩]

def Value.Useless (v : Value) (key : String) : Prop :=
  ∃ slot ∈ Slot.all, slot.key = key ∧ slot.want.takes v = false

theorem Value.Useless.refused {v : Value} (useless : v.Useless key) (want : Want)
    (only : ∀ slot ∈ Slot.all, slot.key = key → slot.want = want) : want.takes v = false := by
  obtain ⟨slot, member, same, refuses⟩ := useless
  rw [← only slot member same]
  exact refuses

section Useless
variable {v : Value} (useless : v.Useless key)
include useless

theorem Value.Useless.text (only : ∀ slot ∈ Slot.all, slot.key = key → slot.want = .text) :
    v.text? = none := by simpa [Want.takes] using useless.refused _ only
theorem Value.Useless.flag (only : ∀ slot ∈ Slot.all, slot.key = key → slot.want = .flag) :
    v.bool? = none := by simpa [Want.takes] using useless.refused _ only
theorem Value.Useless.count (only : ∀ slot ∈ Slot.all, slot.key = key → slot.want = .count) :
    v.u32? = none := by simpa [Want.takes] using useless.refused _ only
theorem Value.Useless.ticks (only : ∀ slot ∈ Slot.all, slot.key = key → slot.want = .ticks) :
    v.u64? = none := by simpa [Want.takes] using useless.refused _ only

end Useless

namespace Diagnostics

-- The log of a limit once all of these were pushed, the first of them first.
def keeping (limit : Nat) (all : List Diagnostic) : Diagnostics :=
  ⟨limit, all.take limit, all.length - limit⟩

theorem keeping_nil (limit : Nat) : { limit := limit } = keeping limit [] := by
  simp [keeping]

theorem push_keeping (limit : Nat) (all : List Diagnostic) (d : Diagnostic) :
    (keeping limit all).push d = keeping limit (all ++ [d]) := by
  unfold push keeping
  simp only [List.length_take, List.length_append, List.length_singleton]
  split
  · next room =>
    rw [List.take_of_length_le (by omega), List.take_of_length_le (by simp; omega)]
    congr 1
    omega
  · next full =>
    rw [List.take_append_of_le_length (by omega)]
    congr 1
    omega

end Diagnostics

def Graph.property? (g : Graph) (i : Nat) (key : String) : Option Value :=
  (g.actions[i]?).bind fun a => a.properties.get? key

structure Graph.Like (g g' : Graph) : Prop where
  ids : ∀ i : Nat, (g'.actions[i]?).map (·.id) = (g.actions[i]?).map (·.id)
  bindings : ∀ (i : Nat) name, ((g'.actions[i]?).bind fun a => a.bindings.get? name) =
    (g.actions[i]?).bind fun a => a.bindings.get? name
  properties : ∀ i key, g'.property? i key = g.property? i key ∨
    g'.property? i key = none ∧ ∃ v, g.property? i key = some v ∧ v.Useless key

theorem Graph.Like.refl (g : Graph) : g.Like g :=
  ⟨fun _ => rfl, fun _ _ => rfl, fun _ _ => .inl rfl⟩

namespace Run

def under (r : Run) (g : Graph) (log : Diagnostics) : Run :=
  { r with plan := { r.plan with graph := g }, log := log }

-- With limits for their logs given the graph is one and the same, and so is what is reported: each
-- log keeps of it what its limit lets it. Without limits the logs are not looked at.
inductive Twin (limits : Option (Nat × Nat)) (r : Run) : Run → Prop where
  | intro {g : Graph} {log : Diagnostics} (like : r.plan.graph.Like g)
    (logs : ∀ m n, limits = some (m, n) →
      r.plan.graph = g ∧ ∃ all, r.log = .keeping m all ∧ log = .keeping n all) :
    Twin limits r (r.under g log)

def Twins (limits : Option (Nat × Nat)) (x y : Run × α) : Prop :=
  ∃ a b v, x = (a, v) ∧ y = (b, v) ∧ Twin limits a b

structure Mirrors (r r' : Run) : Prop where
  statuses : r'.statuses = r.statuses
  pending : r'.pending = r.pending
  delivered : r'.delivered = r.delivered
  deferred : r'.deferred = r.deferred
  board : r'.board = r.board
  raised : r'.raised = r.raised
  tags : r'.tags = r.tags
  tick : r'.tick = r.tick
  lastChange : r'.lastChange = r.lastChange

theorem Mirrors.fingerprint {r r' : Run} (mirrors : r.Mirrors r') : r'.fingerprint = r.fingerprint := by
  simp only [Run.fingerprint, Message.run, mirrors.tick, mirrors.statuses, mirrors.pending, mirrors.board]

namespace Twin
variable {limits : Option (Nat × Nat)} {a b : Run} (twin : Twin limits a b)
include twin

theorem mirrors : a.Mirrors b := by
  cases twin
  exact ⟨rfl, rfl, rfl, rfl, rfl, rfl, rfl, rfl, rfl⟩

theorem phase (i : Nat) : b.phase i = a.phase i := by rw [Run.phase, twin.mirrors.statuses, Run.phase]

theorem ofKind (kind : String) : b.plan.ofKind kind = a.plan.ofKind kind := by cases twin; rfl

theorem entering (i : Nat) : b.plan.entering i = a.plan.entering i := by cases twin; rfl

theorem running (kind : String) : b.running kind = a.running kind := by cases twin; rfl

theorem actionId (i : Nat) : b.plan.actionId i = a.plan.actionId i := by
  cases twin with
  | intro like _ => exact congrArg (·.getD "") (like.ids i)

theorem binding? (i : Nat) (name : String) : b.plan.binding? i name = a.plan.binding? i name := by
  cases twin with
  | intro like _ => exact like.bindings i name

theorem relog (unseen : limits = none) (log log' : Diagnostics) :
    Twin limits (a.withLog log) (b.withLog log') := by
  cases twin with
  | intro like _ =>
    refine .intro (r := a.withLog log) like fun m n given => ?_
    rw [unseen] at given
    cases given

theorem move {f : Run → Run} (commutes : ∀ r g log, f (r.under g log) = (f r).under g log)
    (plan : (f a).plan = a.plan) (log : (f a).log = a.log) : Twin limits (f a) (f b) := by
  cases twin with
  | intro like logs =>
    rw [commutes]
    exact .intro (plan ▸ like) fun m n given => plan ▸ log ▸ logs m n given

theorem warn (i : Nat) (message : String) : Twin limits (a.warn i message) (b.warn i message) := by
  cases twin with
  | @intro g log like logs =>
    refine .intro (r := a.warn i message) like fun m n given => ?_
    obtain ⟨same, all, here, there⟩ := logs m n given
    cases same
    refine ⟨rfl, _, by rw [Run.warn, here, Diagnostics.push_keeping], ?_⟩
    rw [under, there, Diagnostics.push_keeping]

theorem modifyStatus (i : Nat) (f : Status → Status) :
    Twin limits (a.modifyStatus i f) (b.modifyStatus i f) :=
  twin.move (f := (·.modifyStatus i f)) (fun _ _ _ => rfl) rfl rfl

theorem takeFresh (i : Nat) : Twins limits (a.takeFresh i) (b.takeFresh i) := by
  refine ⟨_, _, (a.takeFresh i).2, rfl, ?_, twin.modifyStatus i fun s => { s with fresh := false }⟩
  rw [Run.takeFresh, twin.mirrors.statuses]
  rfl

theorem setPhase (i : Nat) (next : Phase) : Twins limits (a.setPhase i next) (b.setPhase i next) := by
  unfold Run.setPhase
  rw [twin.mirrors.statuses]
  split
  · exact ⟨_, _, _, rfl, rfl, twin⟩
  · split
    · exact ⟨_, _, _, rfl, rfl, twin⟩
    · split
      · exact ⟨_, _, _, rfl, rfl, twin.warn i _⟩
      · refine ⟨_, _, _, rfl, rfl, ?_⟩
        exact twin.move (f := fun r => { r.modifyStatus i (·.enter next) with lastChange := r.tick })
          (fun _ _ _ => rfl) rfl rfl

theorem markPropagated (i : Nat) : Twin limits (a.markPropagated i) (b.markPropagated i) :=
  twin.modifyStatus i fun s => { s with propagated := true }

theorem emit (i : Nat) (port : String) : Twins limits (a.emit i port) (b.emit i port) := by
  refine ⟨(a.emit i port).1, (b.emit i port).1, (a.emit i port).2, rfl, ?_, ?_⟩
  · cases twin
    rfl
  · exact twin.move (f := fun r => (r.emit i port).1) (fun _ _ _ => rfl) rfl rfl

theorem completeAndEmit (i : Nat) (port : String) :
    Twins limits (a.completeAndEmit i port) (b.completeAndEmit i port) := by
  obtain ⟨a₁, b₁, changed, here, there, twin⟩ := twin.setPhase i .completed
  simp only [Run.completeAndEmit, complete, here, there]
  cases changed with
  | false => exact ⟨_, _, _, rfl, rfl, twin⟩
  | true =>
    obtain ⟨a₂, b₂, sent, here, there, twin⟩ := twin.emit i port
    simp only [here, there]
    exact ⟨_, _, _, rfl, rfl, twin.markPropagated i⟩

theorem onBoard (f : Blackboard → Blackboard) : Twin limits (a.onBoard f) (b.onBoard f) :=
  twin.move (f := (·.onBoard f)) (fun _ _ _ => rfl) rfl rfl

theorem deliver (p : Pulse) : Twins limits (a.deliver p) (b.deliver p) := by
  unfold Run.deliver
  rw [twin.mirrors.statuses, twin.actionId, twin.actionId]
  split
  · exact ⟨_, _, _, rfl, rfl, twin⟩
  · next s _ =>
    split
    · exact ⟨_, _, _, rfl, rfl, twin⟩
    · refine ⟨_, _, _, rfl, rfl, ?_⟩
      exact twin.move (f := fun r => { r.modifyStatus p.target Status.activate with
          lastChange := if s.phase = .running then r.lastChange else r.tick
          board := r.board.recordActivation (a.plan.actionId p.target) (a.plan.actionId p.source)
          delivered := r.delivered ++ [p] }) (fun _ _ _ => rfl) rfl rfl

theorem releaseDeferred : Twin limits a.releaseDeferred b.releaseDeferred :=
  twin.move (f := Run.releaseDeferred) (fun _ _ _ => rfl) rfl rfl

theorem beginTick : Twin limits a.beginTick b.beginTick :=
  twin.move (f := Run.beginTick) (fun _ _ _ => rfl) rfl rfl

theorem endTick : Twin limits a.endTick b.endTick :=
  twin.move (f := Run.endTick) (fun _ _ _ => rfl) rfl rfl

end Twin

section Properties
variable {limits : Option (Nat × Nat)} {a b : Run}

theorem Twin.property? (twin : Twin limits a b) (i : Nat) (key : String) :
    b.plan.property? i key = a.plan.property? i key ∨ limits = none ∧
      b.plan.property? i key = none ∧ ∃ v, a.plan.property? i key = some v ∧ v.Useless key := by
  cases twin with
  | intro like logs =>
    rcases like.properties i key with same | ⟨none, v, some, useless⟩
    · exact .inl same
    · refine .inr ⟨Option.eq_none_iff_forall_not_mem.mpr fun (m, n) given => ?_, none, v, some, useless⟩
      rw [← (logs m n given).1] at none
      cases none.symm.trans some

theorem Twin.property?_eq (twin : Twin limits a b) (i : Nat) (key : String)
    (used : ∀ slot ∈ Slot.all, slot.key ≠ key) : b.plan.property? i key = a.plan.property? i key := by
  rcases twin.property? i key with same | ⟨_, _, _, _, slot, member, same, _⟩
  · exact same
  · exact (used slot member same).elim

theorem Twin.propertyOr_run (twin : Twin limits a b) (read? : Value → Option α) (i : Nat)
    (key : String) (fallback : α) :
    Twin limits (a.propertyOr read? i key fallback).1 (b.propertyOr read? i key fallback).1 := by
  rcases twin.property? i key with same | ⟨unseen, _⟩
  · unfold propertyOr
    rw [same]
    split
    · exact twin
    · split
      · exact twin
      · exact twin.warn i _
  · obtain ⟨log, here⟩ := a.propertyOr_parts read? i key fallback
    obtain ⟨log', there⟩ := b.propertyOr_parts read? i key fallback
    rw [here, there]
    exact twin.relog unseen log log'

theorem Twin.requireProperty_run (twin : Twin limits a b) (read? : Value → Option α) (i : Nat)
    (key : String) (fallback : α) :
    Twin limits (a.requireProperty read? i key fallback).1 (b.requireProperty read? i key fallback).1 := by
  rcases twin.property? i key with same | ⟨unseen, _⟩
  · unfold requireProperty
    rw [same]
    split
    · exact twin.warn i _
    · exact twin.propertyOr_run read? i key fallback
  · obtain ⟨log, here⟩ := a.requireProperty_parts read? i key fallback
    obtain ⟨log', there⟩ := b.requireProperty_parts read? i key fallback
    rw [here, there]
    exact twin.relog unseen log log'

theorem Twin.reading (twin : Twin limits a b) {read? : Value → Option α} (i : Nat) {key : String}
    (refused : ∀ v : Value, v.Useless key → read? v = none) (fallback : α) :
    b.plan.reading read? i key fallback = a.plan.reading read? i key fallback := by
  unfold Plan.reading
  rcases twin.property? i key with same | ⟨_, none, v, some, useless⟩
  · rw [same]
  · rw [none, some, Option.bind_some, refused v useless, Option.bind_none]

theorem Twin.alike (twin : Twin limits a b) {read? : Value → Option α} {i : Nat} {key : String}
    (refused : ∀ v : Value, v.Useless key → read? v = none) {fallback : α} {x y : Run × α}
    (here : ∃ log, x = (a.withLog log, a.plan.reading read? i key fallback))
    (there : ∃ log, y = (b.withLog log, b.plan.reading read? i key fallback))
    (run : Twin limits x.1 y.1) : Twins limits x y := by
  obtain ⟨_, rfl⟩ := here
  obtain ⟨_, rfl⟩ := there
  exact ⟨_, _, _, rfl, by rw [twin.reading i refused], run⟩

theorem Twin.propertyOr (twin : Twin limits a b) (read? : Value → Option α) (i : Nat) (key : String)
    (refused : ∀ v : Value, v.Useless key → read? v = none) (fallback : α) :
    Twins limits (a.propertyOr read? i key fallback) (b.propertyOr read? i key fallback) :=
  twin.alike refused (a.propertyOr_parts read? i key fallback)
    (b.propertyOr_parts read? i key fallback) (twin.propertyOr_run read? i key fallback)

theorem Twin.requireProperty (twin : Twin limits a b) (read? : Value → Option α) (i : Nat) (key : String)
    (refused : ∀ v : Value, v.Useless key → read? v = none) (fallback : α) :
    Twins limits (a.requireProperty read? i key fallback) (b.requireProperty read? i key fallback) :=
  twin.alike refused (a.requireProperty_parts read? i key fallback)
    (b.requireProperty_parts read? i key fallback) (twin.requireProperty_run read? i key fallback)

def parsed (r : Run) (parse : String → Option β) (i : Nat) (key absent : String) (fallback : β)
    (message : String → String) : Run × β :=
  match r.propertyOr Value.text? i key absent with
  | (r, text) => match parse text with
    | some word => (r, word)
    | none => (r.warn i (message text), fallback)

theorem parsed_parts (r : Run) {parse : String → Option β} (i : Nat) (key : String) {absent : String}
    {fallback : β} (known : parse absent = some fallback) (message : String → String) :
    ∃ log, r.parsed parse i key absent fallback message =
      (r.withLog log, r.plan.reading (fun v => v.text?.bind parse) i key fallback) := by
  obtain ⟨log, read⟩ := r.propertyOr_parts Value.text? i key absent
  simp only [parsed, read, Plan.reading]
  cases r.plan.property? i key with
  | none => exact ⟨log, by simp [known]⟩
  | some v =>
    cases text : v.text? with
    | none => exact ⟨log, by simp [text, known]⟩
    | some t =>
      cases word : parse t with
      | none => exact ⟨_, by simp [text, word]; rfl⟩
      | some w => exact ⟨log, by simp [text, word]⟩

theorem Twin.parsed_run (twin : Twin limits a b) {parse : String → Option β} (i : Nat) (key : String)
    {absent : String} {fallback : β} (known : parse absent = some fallback)
    (message : String → String) : Twin limits (a.parsed parse i key absent fallback message).1
      (b.parsed parse i key absent fallback message).1 := by
  rcases twin.property? i key with same | ⟨unseen, _⟩
  · have asked := twin.propertyOr_run Value.text? i key absent
    obtain ⟨_, here⟩ := a.propertyOr_parts Value.text? i key absent
    obtain ⟨_, there⟩ := b.propertyOr_parts Value.text? i key absent
    rw [here, there] at asked
    rw [Run.parsed, Run.parsed, here, there, Plan.reading, Plan.reading, same]
    dsimp only
    split
    · exact asked
    · exact asked.warn i _
  · obtain ⟨log, here⟩ := a.parsed_parts i key known message
    obtain ⟨log', there⟩ := b.parsed_parts i key known message
    rw [here, there]
    exact twin.relog unseen log log'

theorem Twin.parsed (twin : Twin limits a b) {parse : String → Option β} (i : Nat) (key : String)
    (refused : ∀ v : Value, v.Useless key → v.text?.bind parse = none) {absent : String} {fallback : β}
    (known : parse absent = some fallback) (message : String → String) :
    Twins limits (a.parsed parse i key absent fallback message)
      (b.parsed parse i key absent fallback message) :=
  twin.alike refused (a.parsed_parts i key known message) (b.parsed_parts i key known message)
    (twin.parsed_run i key known message)

end Properties

theorem Twins.run {limits : Option (Nat × Nat)} {x y : Run × α} (twins : Twins limits x y) :
    Twin limits x.1 y.1 := by
  obtain ⟨_, _, _, rfl, rfl, twin⟩ := twins
  exact twin

-- The same beside each of two twins, in whatever shape a loop has it.
def Abreast (limits : Option (Nat × Nat)) (shape : τ → Run → σ) (x y : σ) : Prop :=
  ∃ t a b, x = shape t a ∧ y = shape t b ∧ Twin limits a b

theorem Abreast.foldl {shape : τ → Run → σ} {f : σ → ι → σ}
    (each : ∀ t {a b} i, Twin limits a b → Abreast limits shape (f (shape t a) i) (f (shape t b) i))
    (l : List ι) (abreast : Abreast limits shape x y) :
    Abreast limits shape (l.foldl f x) (l.foldl f y) := by
  induction l generalizing x y with
  | nil => exact abreast
  | cons i l ih =>
    obtain ⟨t, a, b, rfl, rfl, twin⟩ := abreast
    exact ih (each t i twin)

end Run
end ActionGraph
