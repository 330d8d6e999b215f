import ActionGraph.Proofs.Wellformed
-- What the structural check answers, told without its walks. A graph without faults gets the
-- directory of its ids; of several faults the first is reported, in the order in which the check
-- looks for them and then in the order of the graph.
namespace ActionGraph

namespace Keyed

theorem find_iff {entries : List (String × α)}
    (ascending : entries.Pairwise fun a b => a.1 < b.1) (key : String) (value : α) :
    find key entries = some value ↔ (key, value) ∈ entries := by
  induction entries with
  | nil => simp [find]
  | cons entry rest ih =>
    obtain ⟨first, later⟩ := List.pairwise_cons.mp ascending
    rw [find, List.mem_cons]
    split
    · next same =>
      subst same
      have absent : (entry.1, value) ∉ rest := fun member =>
        String.lt_irrefl entry.1 (first (entry.1, value) member)
      simp [absent, Prod.ext_iff, eq_comm]
    · next differ => simp [ih later, Prod.ext_iff, Ne.symm differ]

theorem mem_entries {table : Keyed α} {key : String} {value : α} :
    (key, value) ∈ table.entries ↔ table.get? key = some value :=
  (find_iff table.ascending key value).symm

theorem ext_mem {a b : Keyed α} (same : ∀ entry, entry ∈ a.entries ↔ entry ∈ b.entries) : a = b := by
  have differ (table : Keyed α) : table.entries.Nodup := by
    refine table.ascending.imp ?_
    rintro x _ less rfl
    exact String.lt_irrefl _ less
  have perm := (List.perm_ext_iff_of_nodup (differ a) (differ b)).mpr same
  refine ext (perm.eq_of_pairwise (fun x y _ _ less more => ?_) a.ascending b.ascending)
  exact (String.lt_irrefl _ (String.lt_trans less more)).elim

end Keyed

-- The first element that is not fine, with what is bad about it at its place.
def FirstAt (fine : α → Prop) (bad : Nat → α → Prop) (l : List α) : Prop :=
  ∃ before a after, l = before ++ a :: after ∧ (∀ b ∈ before, fine b) ∧ bad before.length a

theorem firstAt_nil {fine : α → Prop} {bad : Nat → α → Prop} : ¬FirstAt fine bad [] := by
  rintro ⟨before, a, after, split, _⟩
  simp at split

theorem firstAt_cons {fine : α → Prop} {bad : Nat → α → Prop} {a : α} {rest : List α} :
    FirstAt fine bad (a :: rest) ↔
      bad 0 a ∨ fine a ∧ FirstAt fine (fun n => bad (n + 1)) rest := by
  constructor
  · rintro ⟨before, b, after, split, calm, here⟩
    cases before with
    | nil =>
      cases split
      exact .inl here
    | cons first before =>
      cases split
      obtain ⟨first, calm⟩ := List.forall_mem_cons.mp calm
      exact .inr ⟨first, before, b, after, rfl, calm, here⟩
  · rintro (here | ⟨first, before, b, after, rfl, calm, later⟩)
    · exact ⟨[], a, rest, rfl, by simp, here⟩
    · exact ⟨a :: before, b, after, rfl, List.forall_mem_cons.mpr ⟨first, calm⟩, later⟩

namespace Graph

def ids (g : Graph) : List String := g.actions.map (·.id)

def Joins (g : Graph) (e : Edge) : Prop := e.source ∈ g.ids ∧ e.target ∈ g.ids

inductive Misses (known : List String) (e : Edge) : EdgeEnd → String → Prop where
  | source (absent : e.source ∉ known) : Misses known e .source e.source
  | target (there : e.source ∈ known) (absent : e.target ∉ known) : Misses known e .target e.target

-- What is wrong with a graph, everything that the check looks at before being fine.
inductive Faulty (g : Graph) : Fault → Prop where
  | duplicate (split : g.actions = before ++ a :: after) (first : (before.map (·.id)).Nodup)
    (again : a.id ∈ before.map (·.id)) : Faulty g (.duplicateId a.id)
  | dangling (once : g.ids.Nodup) (split : g.edges = before ++ e :: after)
    (fine : ∀ d ∈ before, g.Joins d) (misses : Misses g.ids e side name) :
    Faulty g (.danglingEdge before.length side name)
  | startless (once : g.ids.Nodup) (joined : ∀ e ∈ g.edges, g.Joins e)
    (none : ∀ a ∈ g.actions, a.isStart = false) : Faulty g .noStart
  | crowded (once : g.ids.Nodup) (joined : ∀ e ∈ g.edges, g.Joins e)
    (many : 1 < (g.actions.filter Action.isStart).length) :
    Faulty g (.manyStarts ((g.actions.filter Action.isStart).map (·.id)))

def Repeats (seen actions : List Action) (a : Action) : Prop :=
  ∃ before after, actions = before ++ a :: after ∧ ((seen ++ before).map (·.id)).Nodup ∧
    a.id ∈ (seen ++ before).map (·.id)

theorem repeats_now {seen rest : List Action} {first a : Action} (once : (seen.map (·.id)).Nodup)
    (again : first.id ∈ seen.map (·.id)) : Repeats seen (first :: rest) a ↔ a = first := by
  constructor
  · rintro ⟨before, after, split, distinct, _⟩
    cases before with
    | nil =>
      cases split
      rfl
    | cons b before =>
      cases split
      rw [List.map_append, List.nodup_append] at distinct
      exact (distinct.2.2 _ again _ List.mem_cons_self rfl).elim
  · rintro rfl
    exact ⟨[], rest, rfl, by simpa using once, by simpa using again⟩

theorem repeats_later {seen rest : List Action} {first a : Action}
    (fresh : first.id ∉ seen.map (·.id)) :
    Repeats seen (first :: rest) a ↔ Repeats (seen ++ [first]) rest a := by
  constructor
  · rintro ⟨before, after, split, distinct, again⟩
    cases before with
    | nil =>
      cases split
      rw [List.append_nil] at again
      exact (fresh again).elim
    | cons b before =>
      cases split
      exact ⟨before, after, rfl, by simpa using distinct, by simpa using again⟩
  · rintro ⟨before, after, rfl, distinct, again⟩
    exact ⟨first :: before, after, rfl, by simpa using distinct, by simpa using again⟩

theorem enrol_error_iff {seen : List Action} {known : Keyed Nat}
    (knows : ∀ id, known.contains id = true ↔ id ∈ seen.map (·.id))
    (once : (seen.map (·.id)).Nodup) (actions : List Action) (i : Nat) (fault : Fault) :
    enrol actions i known = .error fault ↔
      ∃ a, Repeats seen actions a ∧ fault = .duplicateId a.id := by
  induction actions generalizing i known seen with
  | nil => simp [enrol, Repeats]
  | cons first rest ih =>
    unfold enrol
    split
    · next taken =>
      simp only [repeats_now once ((knows first.id).mp taken), exists_eq_left, Except.error.injEq]
      exact eq_comm
    · next untaken =>
      have fresh : first.id ∉ seen.map (·.id) := mt (knows first.id).mpr untaken
      have enrols : ∀ id, (known.insert first.id i).contains id = true ↔
          id ∈ (seen ++ [first]).map (·.id) := by
        intro id
        have old := knows id
        rw [Keyed.contains] at old
        rw [Keyed.contains, Keyed.get?_insert, List.map_append, List.mem_append, ← old]
        by_cases same : first.id = id
        · simp [same]
        · simp [same, Ne.symm same]
      have distinct : ((seen ++ [first]).map (·.id)).Nodup := by
        rw [List.map_append, List.nodup_append_comm]
        exact List.nodup_cons.mpr ⟨fresh, once⟩
      rw [ih enrols distinct]
      simp only [repeats_later fresh]

theorem misses_iff {known : List String} {e : Edge} {side : EdgeEnd} {id : String} :
    Misses known e side id ↔ (e.source ∉ known ∧ side = .source ∧ id = e.source) ∨
      (e.source ∈ known ∧ e.target ∉ known ∧ side = .target ∧ id = e.target) := by
  constructor
  · intro misses
    cases misses with
    | source absent => exact .inl ⟨absent, rfl, rfl⟩
    | target there absent => exact .inr ⟨there, absent, rfl, rfl⟩
  · rintro (⟨absent, rfl, rfl⟩ | ⟨there, absent, rfl, rfl⟩)
    · exact .source absent
    · exact .target there absent

theorem checkEdges_error_iff {known : Keyed Nat} {ids : List String}
    (knows : ∀ id, known.contains id = true ↔ id ∈ ids) (edges : List Edge) (i : Nat)
    (fault : Fault) : checkEdges known edges i = .error fault ↔
      FirstAt (fun e : Edge => e.source ∈ ids ∧ e.target ∈ ids) (fun n e => ∃ side id,
        Misses ids e side id ∧ fault = .danglingEdge (i + n) side id) edges := by
  induction edges generalizing i with
  | nil => simp [checkEdges, firstAt_nil]
  | cons e rest ih =>
    have later := ih (i + 1)
    simp only [Nat.add_assoc, Nat.add_comm 1] at later
    rw [checkEdges, firstAt_cons, ← later]
    simp only [Bool.not_eq_true', Bool.eq_false_iff, ne_eq, knows, misses_iff]
    by_cases source : e.source ∈ ids
    · by_cases target : e.target ∈ ids
      · simp [source, target]
      · simp [source, target, eq_comm]
    · simp [source, eq_comm]

theorem theStart_error_iff (actions : List Action) (fault : Fault) :
    theStart actions = .error fault ↔
      (∀ a ∈ actions, a.isStart = false) ∧ fault = .noStart ∨
      1 < (actions.filter Action.isStart).length ∧
        fault = .manyStarts ((actions.filter Action.isStart).map (·.id)) := by
  have size := positionsOf_length Action.isStart actions
  have none : (∀ a ∈ actions, a.isStart = false) ↔ (actions.filter Action.isStart).length = 0 := by
    simp
  rw [List.countP_eq_length_filter] at size
  rw [none, ← size, theStart]
  cases positionsOf Action.isStart actions with
  | nil => simp [eq_comm]
  | cons i rest =>
    cases rest with
    | nil => simp
    | cons j more => simp [eq_comm]

theorem check_error_iff (g : Graph) (fault : Fault) : g.check = .error fault ↔
    enrol g.actions 0 ∅ = .error fault ∨ ∃ known, enrol g.actions 0 ∅ = .ok known ∧
      (checkEdges known g.edges 0 = .error fault ∨
        checkEdges known g.edges 0 = .ok () ∧ theStart g.actions = .error fault) := by
  simp only [check, bind_error_iff, pure, Except.pure, reduceCtorEq, and_false, exists_false, or_false,
    Unique.exists_iff, PUnit.default_eq_unit]

theorem enrolled_once {g : Graph} {known : Keyed Nat} (enrolled : enrol g.actions 0 ∅ = .ok known) :
    g.ids.Nodup := ((enrol_ok_iff ..).mp ⟨_, enrolled⟩).1

theorem joined_iff {g : Graph} {known : Keyed Nat} (enrolled : enrol g.actions 0 ∅ = .ok known) :
    checkEdges known g.edges 0 = .ok () ↔ ∀ e ∈ g.edges, g.Joins e := by
  rw [checkEdges_ok_iff]
  simp only [enrol_contains enrolled]
  rfl

theorem faulty_iff (g : Graph) (fault : Fault) : g.check = .error fault ↔ g.Faulty fault := by
  have untouched : ∀ id, (∅ : Keyed Nat).contains id = true ↔ id ∈ ([] : List Action).map (·.id) := by
    simp [Keyed.contains, EmptyCollection.emptyCollection]
  have walk := enrol_error_iff untouched .nil g.actions 0 fault
  rw [check_error_iff]
  constructor
  · rintro (refused | ⟨known, enrolled, refused | ⟨fine, refused⟩⟩)
    · obtain ⟨a, ⟨before, after, split, first, again⟩, rfl⟩ := walk.mp refused
      exact .duplicate split first again
    · obtain ⟨before, e, after, split, fine, side, id, misses, rfl⟩ :=
        (checkEdges_error_iff (enrol_contains enrolled) ..).mp refused
      rw [Nat.zero_add]
      exact .dangling (enrolled_once enrolled) split fine misses
    · have joined := (joined_iff enrolled).mp fine
      rcases (theStart_error_iff ..).mp refused with ⟨none, rfl⟩ | ⟨many, rfl⟩
      · exact .startless (enrolled_once enrolled) joined none
      · exact .crowded (enrolled_once enrolled) joined many
  · intro faulty
    have enrols (once : g.ids.Nodup) := (enrol_ok_iff g.actions 0 ∅).mpr ⟨once, fun _ _ => rfl⟩
    cases faulty with
    | duplicate split first again => exact .inl (walk.mpr ⟨_, ⟨_, _, split, first, again⟩, rfl⟩)
    | dangling once split fine misses =>
      obtain ⟨known, enrolled⟩ := enrols once
      refine .inr ⟨known, enrolled, .inl ?_⟩
      refine (checkEdges_error_iff (enrol_contains enrolled) ..).mpr ?_
      exact ⟨_, _, _, split, fine, _, _, misses, by rw [Nat.zero_add]⟩
    | startless once joined none =>
      obtain ⟨known, enrolled⟩ := enrols once
      refine .inr ⟨known, enrolled, .inr ⟨(joined_iff enrolled).mpr joined, ?_⟩⟩
      exact (theStart_error_iff ..).mpr (.inl ⟨none, rfl⟩)
    | crowded once joined many =>
      obtain ⟨known, enrolled⟩ := enrols once
      refine .inr ⟨known, enrolled, .inr ⟨(joined_iff enrolled).mpr joined, ?_⟩⟩
      exact (theStart_error_iff ..).mpr (.inr ⟨many, rfl⟩)

theorem one_start_iff (g : Graph) :
    g.actions.countP Action.isStart = 1 ↔ ∃! i, g.kind? i = some Action.startKind := by
  rw [← positionsOf_length, List.length_eq_one_iff]
  have here : ∀ i, i ∈ positionsOf Action.isStart g.actions ↔ g.kind? i = some Action.startKind := by
    intro i
    rw [mem_positionsOf, kind?, Option.map_eq_some_iff]
    simp only [Action.isStart, beq_iff_eq]
  simp only [← here]
  constructor
  · rintro ⟨i, only⟩
    rw [only]
    exact ⟨i, List.mem_singleton_self i, fun j => List.mem_singleton.mp⟩
  · rintro ⟨i, member, only⟩
    refine ⟨i, List.perm_singleton.mp ?_⟩
    refine (List.perm_ext_iff_of_nodup (positionsOf_nodup ..) (List.nodup_singleton i)).mpr fun j => ?_
    rw [List.mem_singleton]
    exact ⟨only j, fun same => same ▸ member⟩

structure Lists (g : Graph) (d : Directory) : Prop where
  position : ∀ id i, (id, i) ∈ d.positions.entries ↔ (g.actions[i]?).map (·.id) = some id
  start : g.kind? d.start = some Action.startKind

theorem lists_of_check {g : Graph} {d : Directory} (checked : g.check = .ok d) : g.Lists d := by
  obtain ⟨enrolled, _, start⟩ := check_parts checked
  obtain ⟨a, there, isStart⟩ := theStart_isStart start
  constructor
  · intro id i
    rw [Keyed.mem_entries, enrolled_get? enrolled]
  · rw [kind?, there, Option.map_some, Option.some.injEq]
    exact beq_iff_eq.mp isStart

theorem Lists.unique {g : Graph} {d d' : Directory} (only : ∃! i, g.kind? i = some Action.startKind)
    (lists : g.Lists d) (lists' : g.Lists d') : d = d' := by
  have positions : d.positions = d'.positions := Keyed.ext_mem fun entry => by
    rw [lists.position, lists'.position]
  have start := only.unique lists.start lists'.start
  cases d
  cases d'
  cases positions
  cases start
  rfl

-- The check says of every graph whether it is fine. If so it answers with exactly the positions of
-- the ids and the place of the start, and if not with the first fault.
theorem check_decides (g : Graph) :
    ((∃ d, g.check = .ok d) ↔ g.ids.Nodup ∧ (∀ e ∈ g.edges, g.Joins e) ∧
      ∃! i, g.kind? i = some Action.startKind) ∧
    (∀ d, g.check = .ok d ↔ (∃ d, g.check = .ok d) ∧ g.Lists d) ∧
    ∀ fault, g.check = .error fault ↔ g.Faulty fault := by
  have fine : (∃ d, g.check = .ok d) ↔ g.ids.Nodup ∧ (∀ e ∈ g.edges, g.Joins e) ∧
      ∃! i, g.kind? i = some Action.startKind := by
    rw [check_ok_iff, ← one_start_iff]
    exact ⟨fun ⟨ids, ends, start⟩ => ⟨ids, ends, start⟩, fun ⟨ids, ends, start⟩ => ⟨ids, ends, start⟩⟩
  refine ⟨fine, fun d => ⟨fun checked => ⟨⟨d, checked⟩, lists_of_check checked⟩, ?_⟩, g.faulty_iff⟩
  rintro ⟨⟨d', checked⟩, lists⟩
  have only := (fine.mp ⟨d', checked⟩).2.2
  rw [checked, (lists_of_check checked).unique only lists]

end Graph
end ActionGraph
