import ActionGraph.Document
import ActionGraph.Proofs.Faults
-- What becomes of a draft. Every part of the graph stands for a part of it, in the same place; the
-- first operator that means nothing is the one failure, before anything is asked of the structure.
namespace ActionGraph

theorem all_mapped_iff {R : α → β → Prop} {f : α → β} (one : ∀ a b, R a b ↔ f a = b) :
    List.Forall₂ R l l' ↔ l.map f = l' := by
  obtain rfl : R = fun a b => f a = b := by
    funext a b
    exact propext (one a b)
  rw [← List.forall₂_map_left_iff, List.forall₂_eq_eq_eq]

def Keyed.Matches (R : α → β → Prop) (a : Keyed α) (b : Keyed β) : Prop :=
  List.Forall₂ (fun x y => y.1 = x.1 ∧ R x.2 y.2) a.entries b.entries

theorem Keyed.matches_iff {R : α → β → Prop} {f : α → β} (one : ∀ a b, R a b ↔ f a = b)
    (a : Keyed α) (b : Keyed β) : a.Matches R b ↔ a.map f = b := by
  rw [Matches, all_mapped_iff (f := fun x => (x.1, f x.2))]
  · exact ⟨fun same => Keyed.ext (a := a.map f) same, fun same => same ▸ rfl⟩
  · intro x y
    rw [one, Prod.ext_iff, eq_comm]

namespace Document

def refusal? : Except ε α → Option ε
  | .error e => some e
  | .ok _ => none

theorem refusal_some_iff {x : Except ε α} : refusal? x = some e ↔ x = .error e := by
  cases x <;> simp [refusal?]

theorem refusal_none_iff {x : Except ε α} : refusal? x = none ↔ ∃ a, x = .ok a := by
  cases x <;> simp [refusal?]

@[simp] theorem refusal_map (x : Except ε α) (f : α → β) : refusal? (x.map f) = refusal? x := by
  cases x <;> rfl

def isOperator (op : String) : Bool := (Comparison.read? op).isSome

def firstUnknown? (ops : List String) : Option String := ops.find? (!isOperator ·)

inductive ValueDraft.Denotes : ValueDraft → Value → Prop where
  | bool : Denotes (.bool b) (.bool b)
  | int : Denotes (.int n) (.int n)
  | float : Denotes (.float x) (.float x)
  | text : Denotes (.text s) (.text s)
  | member : Denotes (.member name) (.member name)

theorem ValueDraft.denotes_iff (d : ValueDraft) (v : Value) : d.Denotes v ↔ d.resolve = v := by
  constructor
  · rintro ⟨⟩ <;> rfl
  · rintro rfl
    cases d <;> constructor

theorem ValueDraft.all_denoted_iff (d : Keyed ValueDraft) (values : Keyed Value) :
    d.Matches Denotes values ↔ d.map resolve = values := d.matches_iff denotes_iff values

structure ActionDraft.Denotes (a : ActionDraft) (action : Action) : Prop where
  id : action.id = a.id
  kind : action.kind = a.kind
  properties : a.properties.Matches ValueDraft.Denotes action.properties
  bindings : action.bindings = a.bindings

theorem ActionDraft.denotes_iff (a : ActionDraft) (action : Action) :
    a.Denotes action ↔ a.resolve = action := by
  constructor
  · rintro ⟨id, kind, properties, bindings⟩
    obtain ⟨_, _, _, _⟩ := action
    subst id kind bindings
    rw [resolve, (ValueDraft.all_denoted_iff ..).mp properties]
  · rintro rfl
    exact ⟨rfl, rfl, (ValueDraft.all_denoted_iff ..).mpr rfl, rfl⟩

namespace GuardDraft

inductive Denotes : GuardDraft → Guard → Prop where
  | immediate : Denotes .immediate .immediate
  | delay : Denotes (.delay ticks) (.delay ticks)
  | expression (reads : Comparison.read? op = some comparison) (value : ValueDraft.Denotes d v) :
    Denotes (.expression key op d) (.expression key comparison v)
  | tag : Denotes (.tag name) (.tag name)
  | event : Denotes (.event name) (.event name)
  | allOf (parts : List.Forall₂ Denotes drafts guards) : Denotes (.allOf drafts) (.allOf guards)
  | anyOf (parts : List.Forall₂ Denotes drafts guards) : Denotes (.anyOf drafts) (.anyOf guards)

mutual
theorem resolve_iff : (d : GuardDraft) → (g : Guard) → (d.resolve = .ok g ↔ Denotes d g)
  | immediate, g => by
    rw [resolve, Except.ok.injEq]
    exact ⟨fun same => same ▸ .immediate, fun denotes => by cases denotes; rfl⟩
  | delay ticks, g => by
    rw [resolve, Except.ok.injEq]
    exact ⟨fun same => same ▸ .delay, fun denotes => by cases denotes; rfl⟩
  | expression key op value, g => by
    rw [resolve]
    constructor
    · intro resolved
      cases reads : Comparison.read? op with
      | none => simp [reads] at resolved
      | some comparison =>
        simp only [reads, Except.ok.injEq] at resolved
        exact resolved ▸ .expression reads ((value.denotes_iff _).mpr rfl)
    · intro denotes
      cases denotes with
      | expression reads same =>
        rw [reads, (value.denotes_iff _).mp same]
  | tag name, g => by
    rw [resolve, Except.ok.injEq]
    exact ⟨fun same => same ▸ .tag, fun denotes => by cases denotes; rfl⟩
  | event name, g => by
    rw [resolve, Except.ok.injEq]
    exact ⟨fun same => same ▸ .event, fun denotes => by cases denotes; rfl⟩
  | allOf parts, g => by
    simp only [resolve, map_ok_iff, resolveAll_iff parts]
    constructor
    · rintro ⟨guards, all, rfl⟩
      exact .allOf all
    · intro denotes
      cases denotes with
      | allOf all => exact ⟨_, all, rfl⟩
  | anyOf parts, g => by
    simp only [resolve, map_ok_iff, resolveAll_iff parts]
    constructor
    · rintro ⟨guards, all, rfl⟩
      exact .anyOf all
    · intro denotes
      cases denotes with
      | anyOf all => exact ⟨_, all, rfl⟩

theorem resolveAll_iff : (ds : List GuardDraft) → (gs : List Guard) →
    (resolveAll ds = .ok gs ↔ List.Forall₂ Denotes ds gs)
  | [], gs => by
    rw [resolveAll, Except.ok.injEq, List.forall₂_nil_left_iff, eq_comm]
  | d :: rest, gs => by
    simp only [resolveAll, bind_ok_iff, resolve_iff d, resolveAll_iff rest, pure, Except.pure,
      Except.ok.injEq, List.forall₂_cons_left_iff]
    constructor
    · rintro ⟨first, here, others, later, rfl⟩
      exact ⟨first, others, here, later, rfl⟩
    · rintro ⟨first, others, here, later, rfl⟩
      exact ⟨first, here, others, later, rfl⟩
end

mutual
theorem refusal_resolve : (d : GuardDraft) → refusal? d.resolve = firstUnknown? d.operators
  | immediate | delay _ | tag _ | event _ => by simp [resolve, operators, refusal?, firstUnknown?]
  | expression key op value => by
    simp only [resolve, operators, firstUnknown?, isOperator, List.find?_singleton]
    cases Comparison.read? op <;> rfl
  | allOf parts => by
    simp only [resolve, operators, refusal_map]
    exact refusal_resolveAll parts
  | anyOf parts => by
    simp only [resolve, operators, refusal_map]
    exact refusal_resolveAll parts

theorem refusal_resolveAll : (ds : List GuardDraft) →
    refusal? (resolveAll ds) = firstUnknown? (operatorsOfAll ds)
  | [] => rfl
  | d :: rest => by
    have here := refusal_resolve d
    have later := refusal_resolveAll rest
    rw [firstUnknown?] at here later ⊢
    rw [operatorsOfAll, List.find?_append, ← here, ← later, resolveAll]
    cases resolve d with
    | error op => rfl
    | ok first => cases resolveAll rest <;> rfl
end

end GuardDraft

namespace EdgeDraft

structure Denotes (e : EdgeDraft) (edge : Edge) : Prop where
  source : edge.source = e.source
  target : edge.target = e.target
  sourcePort : edge.sourcePort = e.sourcePort
  targetPort : edge.targetPort = e.targetPort
  guard : Option.Rel GuardDraft.Denotes e.guard edge.guard

def resolveGuard (e : EdgeDraft) : Except String (Option Guard) :=
  match e.guard with
  | none => .ok none
  | some draft => draft.resolve.map some

theorem resolve_eq (e : EdgeDraft) : e.resolve = e.resolveGuard.map fun guard =>
    ⟨e.source, e.target, e.sourcePort, e.targetPort, guard⟩ := by
  rw [resolve, resolveGuard]
  cases e.guard with
  | none => rfl
  | some draft =>
    dsimp only
    cases draft.resolve <;> rfl

theorem resolveGuard_iff (e : EdgeDraft) (guard : Option Guard) :
    e.resolveGuard = .ok guard ↔ Option.Rel GuardDraft.Denotes e.guard guard := by
  rw [resolveGuard]
  cases e.guard with
  | none =>
    rw [Except.ok.injEq]
    exact ⟨fun same => same ▸ .none, fun denotes => by cases denotes; rfl⟩
  | some draft =>
    simp only [map_ok_iff, draft.resolve_iff]
    constructor
    · rintro ⟨g, denotes, rfl⟩
      exact .some denotes
    · intro denotes
      cases denotes with
      | some denotes => exact ⟨_, denotes, rfl⟩

theorem resolve_iff (e : EdgeDraft) (edge : Edge) : e.resolve = .ok edge ↔ e.Denotes edge := by
  simp only [resolve_eq, map_ok_iff, resolveGuard_iff]
  constructor
  · rintro ⟨guard, denotes, rfl⟩
    exact ⟨rfl, rfl, rfl, rfl, denotes⟩
  · rintro ⟨source, target, sourcePort, targetPort, denotes⟩
    refine ⟨edge.guard, denotes, ?_⟩
    rw [← source, ← target, ← sourcePort, ← targetPort]

theorem refusal_resolve (e : EdgeDraft) : refusal? e.resolve = firstUnknown? e.operators := by
  rw [resolve_eq, refusal_map, resolveGuard, operators]
  cases e.guard with
  | none => rfl
  | some draft => exact (refusal_map ..).trans draft.refusal_resolve

theorem resolveFrom_ok_iff (edges : List EdgeDraft) (i : Nat) (resolved : List Edge) :
    resolveFrom i edges = .ok resolved ↔ List.Forall₂ Denotes edges resolved := by
  induction edges generalizing i resolved with
  | nil => rw [resolveFrom, Except.ok.injEq, List.forall₂_nil_left_iff, eq_comm]
  | cons e rest ih =>
    simp only [resolveFrom, bind_ok_iff, mapError_ok_iff, resolve_iff, ih, pure, Except.pure,
      Except.ok.injEq, List.forall₂_cons_left_iff]
    constructor
    · rintro ⟨first, here, others, later, rfl⟩
      exact ⟨first, others, here, later, rfl⟩
    · rintro ⟨first, others, here, later, rfl⟩
      exact ⟨first, here, others, later, rfl⟩

def Readable (e : EdgeDraft) : Prop := ∀ op ∈ e.operators, isOperator op = true

theorem readable_iff (e : EdgeDraft) : (∃ edge, e.resolve = .ok edge) ↔ e.Readable := by
  rw [← refusal_none_iff, refusal_resolve, firstUnknown?, List.find?_eq_none]
  simp [Readable]

theorem resolveFrom_error_iff (edges : List EdgeDraft) (i : Nat) (u : UnknownOperator) :
    resolveFrom i edges = .error u ↔ FirstAt Readable
      (fun n e => u.edge = i + n ∧ firstUnknown? e.operators = some u.op) edges := by
  induction edges generalizing i with
  | nil => simp [resolveFrom, firstAt_nil]
  | cons e rest ih =>
    have later := ih (i + 1)
    simp only [Nat.add_assoc, Nat.add_comm 1] at later
    rw [firstAt_cons, ← later, ← readable_iff, ← refusal_resolve, refusal_some_iff]
    simp only [resolveFrom, bind_error_iff, mapError_error_iff, mapError_ok_iff, pure, Except.pure,
      reduceCtorEq, and_false, exists_false, or_false, exists_and_right]
    refine or_congr_left ?_
    constructor
    · rintro ⟨op, refused, rfl⟩
      exact ⟨rfl, refused⟩
    · rintro ⟨edge, refused⟩
      refine ⟨u.op, refused, ?_⟩
      rw [← Nat.add_zero i, ← edge]

end EdgeDraft

theorem all_related_iff {R : α → β → Prop} {l : List α} :
    (∃ l', List.Forall₂ R l l') ↔ ∀ a ∈ l, ∃ b, R a b := by
  induction l with
  | nil => simp
  | cons a rest ih =>
    rw [List.forall_mem_cons, ← ih]
    simp only [List.forall₂_cons_left_iff]
    constructor
    · rintro ⟨_, b, others, here, later, rfl⟩
      exact ⟨⟨b, here⟩, others, later⟩
    · rintro ⟨⟨b, here⟩, others, later⟩
      exact ⟨b :: others, b, others, here, later, rfl⟩

namespace Draft

structure Denotes (d : Draft) (g : Graph) : Prop where
  actions : List.Forall₂ ActionDraft.Denotes d.actions g.actions
  edges : List.Forall₂ EdgeDraft.Denotes d.edges g.edges
  board : d.board.Matches ValueDraft.Denotes g.board

theorem resolve_ok_iff (d : Draft) (g : Graph) : d.resolve = .ok g ↔ d.Denotes g := by
  obtain ⟨actions, edges, board⟩ := g
  simp only [resolve, bind_ok_iff, EdgeDraft.resolveFrom_ok_iff, pure, Except.pure,
    Except.ok.injEq, Graph.mk.injEq]
  constructor
  · rintro ⟨resolved, all, rfl, rfl, rfl⟩
    exact ⟨(all_mapped_iff ActionDraft.denotes_iff).mpr rfl, all,
      (ValueDraft.all_denoted_iff ..).mpr rfl⟩
  · rintro ⟨actions, all, board⟩
    exact ⟨edges, all, (all_mapped_iff ActionDraft.denotes_iff).mp actions, rfl,
      (ValueDraft.all_denoted_iff ..).mp board⟩

theorem resolve_error_iff (d : Draft) (u : UnknownOperator) : d.resolve = .error u ↔
    FirstAt EdgeDraft.Readable
      (fun n e => u.edge = n ∧ firstUnknown? e.operators = some u.op) d.edges := by
  have walk := EdgeDraft.resolveFrom_error_iff d.edges 0 u
  simp only [Nat.zero_add] at walk
  rw [resolve, bind_error_iff, walk]
  simp [pure, Except.pure]

theorem resolves_iff (d : Draft) : (∃ g, d.resolve = .ok g) ↔ ∀ e ∈ d.edges, e.Readable := by
  simp only [← EdgeDraft.readable_iff, EdgeDraft.resolve_iff, ← all_related_iff]
  constructor
  · rintro ⟨g, resolved⟩
    exact ⟨g.edges, ((d.resolve_ok_iff g).mp resolved).edges⟩
  · rintro ⟨edges, all⟩
    refine ⟨⟨d.actions.map ActionDraft.resolve, edges, d.board.map ValueDraft.resolve⟩,
      (d.resolve_ok_iff _).mpr ⟨?_, all, ?_⟩⟩
    · exact (all_mapped_iff ActionDraft.denotes_iff).mpr rfl
    · exact (ValueDraft.all_denoted_iff ..).mpr rfl

theorem runs_iff (g : Graph) : (∃ r, Run.load g = .ok r) ↔ ∃ directory, g.check = .ok directory := by
  rw [g.check_ok_iff, ← Plan.ofGraph_ok_iff]
  simp only [Run.load, map_ok_iff]
  constructor
  · rintro ⟨_, p, planned, _⟩
    exact ⟨p, planned⟩
  · rintro ⟨p, planned⟩
    exact ⟨_, p, planned, rfl⟩

theorem load_ok_iff (d : Draft) (g : Graph) : d.load = .ok g ↔
    d.resolve = .ok g ∧ (∃ directory, g.check = .ok directory) ∧ ∃ r, Run.load g = .ok r := by
  rw [runs_iff, and_self]
  simp only [load, bind_ok_iff, mapError_ok_iff, pure, Except.pure, Except.ok.injEq]
  constructor
  · rintro ⟨g, resolved, directory, checked, rfl⟩
    exact ⟨resolved, directory, checked⟩
  · rintro ⟨resolved, directory, checked⟩
    exact ⟨g, resolved, directory, checked, rfl⟩

theorem load_error_iff (d : Draft) (e : LoadError) : d.load = .error e ↔
    (∃ u, d.resolve = .error u ∧ .unknownOperator u = e) ∨
      ∃ g, d.resolve = .ok g ∧ ∃ fault, g.check = .error fault ∧ .fault fault = e := by
  simp only [load, bind_error_iff, mapError_error_iff, mapError_ok_iff, pure, Except.pure,
    reduceCtorEq, and_false, exists_false, or_false]

end Draft

section Decoders
variable (decoder : String → Option Draft) (source content : String)

theorem decode_ok_iff (d : Draft) : decode decoder source content = .ok d ↔ decoder content = some d := by
  rw [decode]
  cases decoder content <;> simp

theorem decode_error_iff (e : LoadError) : decode decoder source content = .error e ↔
    decoder content = none ∧ .malformed source = e := by
  rw [decode]
  cases decoder content <;> simp

theorem loadGraphBy_error_iff (e : LoadError) : loadGraphBy decoder source content = .error e ↔
    decoder content = none ∧ .malformed source = e ∨
      ∃ d, decoder content = some d ∧ d.load = .error e := by
  simp only [loadGraphBy, bind_error_iff, decode_error_iff, decode_ok_iff]

end Decoders

-- Of every draft, and of every text under any decoder: what comes of it, and which fault is told.
theorem resolution_is_faithful (d : Draft) (decoder : String → Option Draft)
    (source content : String) :
    ((∃ g, d.resolve = .ok g) ↔ ∀ e ∈ d.edges, ∀ op ∈ e.operators, (Comparison.read? op).isSome) ∧
    (∀ g, d.resolve = .ok g ↔ List.Forall₂ ActionDraft.Denotes d.actions g.actions ∧
      List.Forall₂ EdgeDraft.Denotes d.edges g.edges ∧
      d.board.Matches ValueDraft.Denotes g.board) ∧
    (∀ u, d.resolve = .error u ↔ FirstAt EdgeDraft.Readable
      (fun n e => u.edge = n ∧ firstUnknown? e.operators = some u.op) d.edges) ∧
    (∀ g, loadGraphBy decoder source content = .ok g ↔
      ∃ read, decoder content = some read ∧ read.resolve = .ok g ∧
        (∃ directory, g.check = .ok directory) ∧ ∃ r, Run.load g = .ok r) ∧
    (∀ u, loadGraphBy decoder source content = .error (.unknownOperator u) ↔
      ∃ read, decoder content = some read ∧ read.resolve = .error u) ∧
    (∀ fault, loadGraphBy decoder source content = .error (.fault fault) ↔
      ∃ read g, decoder content = some read ∧ read.resolve = .ok g ∧ g.check = .error fault) ∧
    ∀ name, loadGraphBy decoder source content = .error (.malformed name) ↔
      decoder content = none ∧ name = source := by
  refine ⟨d.resolves_iff, fun g => ?_, d.resolve_error_iff, fun g => ?_, fun u => ?_, fun fault => ?_,
    fun name => ?_⟩
  · rw [d.resolve_ok_iff]
    exact ⟨fun denotes => ⟨denotes.actions, denotes.edges, denotes.board⟩,
      fun ⟨actions, edges, board⟩ => ⟨actions, edges, board⟩⟩
  · simp only [loadGraphBy, bind_ok_iff, decode_ok_iff, Draft.load_ok_iff]
  · rw [loadGraphBy_error_iff]
    simp [Draft.load_error_iff]
  · rw [loadGraphBy_error_iff]
    simp [Draft.load_error_iff]
  · rw [loadGraphBy_error_iff]
    simp [Draft.load_error_iff, eq_comm]

end Document
end ActionGraph
