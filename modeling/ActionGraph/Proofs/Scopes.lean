import ActionGraph.Proofs.Provenance
-- The scopes of actions. What an action leaves in its own scope goes under one key, its id and the
-- field with a dot between them. Since ids and fields may have dots of their own, the same key can
-- lie in the scope of another action, and it does so only where one scope lies within the other.
namespace ActionGraph

namespace Blackboard

-- One scope lies within another: the inner id goes on behind the outer one by a step, and the field
-- of the outer scope leads by that step to the field of the inner one.
def Nests (outer field inner field' : String) : Prop :=
  ∃ step, inner = scopedKey outer step ∧ field = scopedKey step field'

theorem scopedKey_assoc (outer step field : String) :
    scopedKey outer (scopedKey step field) = scopedKey (scopedKey outer step) field := by
  simp only [scopedKey, String.append_assoc]

theorem scopedKey_toList (id field : String) :
    (scopedKey id field).toList = id.toList ++ '.' :: field.toList := by
  simp [scopedKey]

section Keys
variable {id id' field field' : String}

theorem Nests.same (nests : Nests id field id' field') :
    scopedKey id field = scopedKey id' field' := by
  obtain ⟨step, rfl, rfl⟩ := nests
  exact scopedKey_assoc id step field'

theorem Nests.of_longer {rest : List Char} (differ : id ≠ id')
    (longer : id'.toList = id.toList ++ rest)
    (tail : '.' :: field.toList = rest ++ '.' :: field'.toList) : Nests id field id' field' := by
  cases rest with
  | nil =>
    rw [List.append_nil] at longer
    exact (differ (String.toList_inj.mp longer).symm).elim
  | cons dot step =>
    obtain ⟨rfl, onward⟩ := List.cons.inj tail
    refine ⟨String.ofList step, String.toList_inj.mp ?_, String.toList_inj.mp ?_⟩
    · rw [longer, scopedKey_toList, String.toList_ofList]
    · rw [onward, scopedKey_toList, String.toList_ofList]
      rfl

theorem scopedKey_eq_iff (differ : id ≠ id') : scopedKey id field = scopedKey id' field' ↔
    Nests id field id' field' ∨ Nests id' field' id field := by
  constructor
  · intro same
    have chars := congrArg String.toList same
    rw [scopedKey_toList, scopedKey_toList] at chars
    rcases List.append_eq_append_iff.mp chars with ⟨rest, longer, tail⟩ | ⟨rest, longer, tail⟩
    · exact .inl (.of_longer differ longer tail)
    · exact .inr (.of_longer differ.symm longer tail)
  · rintro (nests | nests)
    · exact nests.same
    · exact nests.same.symm

end Keys
end Blackboard

def Action.scoped? (a : Action) (h : Host) : Option (String × Value) :=
  if a.kind = Spawn.kind then some ("spawned", .int (Int64.ofNat (a.accepts h)))
  else if a.kind = Assign.kind && !a.reading Value.bool? "global" false &&
      !(a.reading Value.text? "key" "").isEmpty then
    (a.properties.get? "value").map fun v => (a.reading Value.text? "key" "", v)
  else none

namespace Action
variable {a : Action} {h : Host}

theorem scoped?_spawn (isSpawn : a.kind = Spawn.kind) (leaves : a.scoped? h = some (field, v)) :
    field = "spawned" ∧ v = .int (Int64.ofNat (a.accepts h)) := by
  rw [scoped?, if_pos isSpawn, Option.some.injEq, Prod.mk.injEq] at leaves
  exact ⟨leaves.1.symm, leaves.2.symm⟩

theorem scoped?_assign (isAssign : a.kind = Assign.kind) (leaves : a.scoped? h = some (field, v)) :
    a.reading Value.bool? "global" false = false ∧ a.reading Value.text? "key" "" = field ∧
      field.isEmpty = false ∧ a.properties.get? "value" = some v := by
  have noSpawn : a.kind ≠ Spawn.kind := by rw [isAssign]; decide
  rw [scoped?, if_neg noSpawn] at leaves
  split at leaves
  · next plain =>
    obtain ⟨v', found, same⟩ := Option.map_eq_some_iff.mp leaves
    cases same
    simp only [Bool.and_eq_true, Bool.not_eq_true'] at plain
    exact ⟨plain.1.2, rfl, plain.2, found⟩
  · cases leaves

end Action

theorem Assign.updateOne_scoped {s : Nat × Run} (there : s.2.plan.action? i = some a)
    (isAssign : a.kind = kind) (leaves : a.scoped? h = some (field, v)) :
    (updateOne s i).2.board = s.2.board.insert (Blackboard.scopedKey a.id field) v := by
  obtain ⟨plain, rfl, named, found⟩ := Action.scoped?_assign isAssign leaves
  obtain ⟨r, plan, board, wrote⟩ := updateOne_board there
  have here : r.plan.action? i = some a := plan ▸ there
  have value : r.plan.property? i "value" = some v := by
    rw [Plan.property?, here, Option.bind_some, found]
  rw [wrote, plain]
  simp only [write, value, named, Bool.false_eq_true, if_false, Run.onBoard, Plan.actionId_eq here, board]

theorem Spawn.updateOne_scoped (host : Host) {s : Tally × Run × List Effect}
    (there : s.2.1.plan.action? i = some a) (isSpawn : a.kind = kind)
    (leaves : a.scoped? host = some (field, v)) :
    (updateOne host s i).2.1.board = s.2.1.board.insert (Blackboard.scopedKey a.id field) v := by
  obtain ⟨rfl, rfl⟩ := Action.scoped?_spawn isSpawn leaves
  obtain ⟨_, _, board, _⟩ := updateOne_hands host there isSpawn s.2.1.board
  rw [board, entryKey, Plan.actionId_eq there]

-- A stage that writes in scopes takes up the running actions of its kind in turn: whom it takes up,
-- with the run that it finds then and the run that it leaves.
inductive Stage.Visits (host : Host) : Stage → Run → Nat → Run → Run → Prop where
  | assign (writes : Nat) (early rest : List Nat) (all : r.running Assign.kind = early ++ i :: rest)
      (upTo : early.foldl Assign.updateOne (writes, r) = s) :
      Visits host (.assign writes) r i s.2 (Assign.updateOne s i).2
  | spawn (spawned : Tally) (early rest : List Nat) (all : r.running Spawn.kind = early ++ i :: rest)
      (upTo : early.foldl (Spawn.updateOne host) (spawned, r, []) = s) :
      Visits host (.spawn spawned) r i s.2.1 (Spawn.updateOne host s i).2.1

inductive Engine.Visits (host : Host) : List Stage → Run → Nat → Run → Run → Prop where
  | here (visits : s.Visits host r i before after) : Visits host (s :: rest) r i before after
  | later (s : Stage) (r : Run) (visits : Visits host rest (s.update host r).2.1 i before after) :
      Visits host (s :: rest) r i before after

theorem Stage.Visits.writes {host : Host} (visits : Stage.Visits host s r i before after)
    (indexed : r.plan.Indexed) : ∃ a, r.plan.action? i = some a ∧
      ∀ field v, a.scoped? host = some (field, v) →
        after.board = before.board.insert (Blackboard.scopedKey a.id field) v := by
  cases visits with
  | assign writes early rest all upTo =>
    subst upTo
    obtain ⟨a, there, isAssign⟩ := Run.running_action indexed
      (all ▸ List.mem_append_right early List.mem_cons_self)
    have plan := (Run.Steps.foldl (v := Prod.snd) Assign.updateOne_steps early (writes, r)).plan
    refine ⟨a, there, fun field v leaves => ?_⟩
    exact Assign.updateOne_scoped (plan ▸ there) isAssign leaves
  | spawn spawned early rest all upTo =>
    subst upTo
    obtain ⟨a, there, isSpawn⟩ := Run.running_action indexed
      (all ▸ List.mem_append_right early List.mem_cons_self)
    have plan := (Run.Steps.foldl (v := fun s => s.2.1) (Spawn.updateOne_steps host) early
      (spawned, r, [])).plan
    refine ⟨a, there, fun field v leaves => ?_⟩
    exact Spawn.updateOne_scoped host (plan ▸ there) isSpawn leaves

theorem Engine.Visits.writes {host : Host} {stages : List Stage}
    (visits : Engine.Visits host stages r i before after)
    (indexed : r.plan.Indexed) : ∃ a, r.plan.action? i = some a ∧
      ∀ field v, a.scoped? host = some (field, v) →
        after.board = before.board.insert (Blackboard.scopedKey a.id field) v := by
  induction visits with
  | here visits => exact visits.writes indexed
  | later s r _ ih =>
    have plan := (s.update_frames host r).plan
    rw [← plan]
    exact ih (plan ▸ indexed)

-- Two actions that each leave a value under a field of their own, at the same time.
def scribes (first field second field' : String) : Graph where
  actions := [⟨"start", Action.startKind, ∅, ∅⟩,
    ⟨first, Assign.kind, ((∅ : Keyed Value).insert "key" (.text field)).insert "value" (.text "mine"), ∅⟩,
    ⟨second, Assign.kind, ((∅ : Keyed Value).insert "key" (.text field')).insert "value" (.text "other"), ∅⟩]
  edges := [⟨"start", first, "out", "in", none⟩, ⟨"start", second, "out", "in", none⟩]

namespace Chronicle

-- Whatever was played, in the next tick an action that leaves a value in its own scope changes the
-- blackboard by that one entry. So what the scope of another action has under any field stays,
-- unless one of the scopes lies within the other and both keys lead there; that entry it takes over.
theorem scoped_write_stays (opens : Opens g e) (script : List Signal) : ∃ c r,
    (⟨e, []⟩ : Chronicle).play script = .ok c ∧ c.engine.run = some r ∧
    ∀ i before after, Engine.Visits c.engine.host c.engine.stages r.beginTick i before after →
      ∃ a, g.actions[i]? = some a ∧ ∀ field v, a.scoped? c.engine.host = some (field, v) →
        after.board = before.board.insert (Blackboard.scopedKey a.id field) v ∧
        ∀ (j : Nat) b field', j ≠ i → g.actions[j]? = some b →
          (¬(Blackboard.Nests a.id field b.id field' ∨ Blackboard.Nests b.id field' a.id field) →
            after.board.get? (Blackboard.scopedKey b.id field') =
              before.board.get? (Blackboard.scopedKey b.id field')) ∧
          (Blackboard.Nests a.id field b.id field' ∨ Blackboard.Nests b.id field' a.id field →
            after.board.get? (Blackboard.scopedKey b.id field') = some v) := by
  obtain ⟨c, t, r, played, shows, reached⟩ := play_reached opens script
  refine ⟨c, r, played, shows.run, fun i before after visits => ?_⟩
  obtain ⟨a, there, writes⟩ := visits.writes reached.indexed
  refine ⟨a, by rw [← reached.graph]; exact there, fun field v leaves => ?_⟩
  have entry := writes field v leaves
  refine ⟨entry, fun j b field' other here => ?_⟩
  have differ : a.id ≠ b.id := by
    intro same
    rw [← reached.graph] at here
    exact other (Plan.same_position reached.indexed here there same.symm)
  rw [← Blackboard.scopedKey_eq_iff differ, entry, Keyed.get?_insert]
  constructor
  · intro apart
    rw [if_neg apart]
  · intro same
    rw [if_pos same]

theorem tidy_scope_stays : ∃ c r before after,
    (⟨(relayEngine.load (scribes "a" "x" "b" "x")).1, []⟩ : Chronicle).play [.tick] = .ok c ∧
    c.engine.run = some r ∧
    Engine.Visits c.engine.host c.engine.stages r.beginTick 2 before after ∧
    before.board.get? (Blackboard.scopedKey "a" "x") = some (.text "mine") ∧
    after.board.get? (Blackboard.scopedKey "a" "x") = some (.text "mine") ∧
    after.board.get? (Blackboard.scopedKey "b" "x") = some (.text "other") := by
  obtain ⟨c, r, played, loaded, stays⟩ := scoped_write_stays (g := scribes "a" "x" "b" "x")
    (e := (relayEngine.load (scribes "a" "x" "b" "x")).1) (.load relayEngine rfl rfl) [.tick]
  obtain ⟨c', r', before, after, plays, loads, visits, mine⟩ : ∃ c r before after,
      (⟨(relayEngine.load (scribes "a" "x" "b" "x")).1, []⟩ : Chronicle).play [.tick] = .ok c ∧
      c.engine.run = some r ∧
      Engine.Visits c.engine.host c.engine.stages r.beginTick 2 before after ∧
      before.board.get? (Blackboard.scopedKey "a" "x") = some (.text "mine") := by
    refine ⟨_, _, _, _, rfl, rfl,
      .later _ _ (.later _ _ (.later _ _ (.here (.assign _ [1] [] rfl rfl)))), ?_⟩
    decide +kernel
  cases plays.symm.trans played
  cases loads.symm.trans loaded
  obtain ⟨a, there, leaves⟩ := stays 2 before after visits
  cases there
  obtain ⟨entry, others⟩ := leaves "x" (.text "other") rfl
  have apart : ¬(Blackboard.Nests "b" "x" "a" "x" ∨ Blackboard.Nests "a" "x" "b" "x") := by
    rw [← Blackboard.scopedKey_eq_iff (by decide)]
    decide
  obtain ⟨kept, _⟩ := others 1 _ "x" (by decide) rfl
  refine ⟨c, r, before, after, played, loaded, visits, mine, ?_, ?_⟩
  · rw [← mine]
    exact kept apart
  · rw [entry]
    exact (Keyed.get?_insert ..).trans (if_pos rfl)

theorem nested_scope_taken_over :
    Opens (scribes "a.b" "x" "a" "b.x") (relayEngine.load (scribes "a.b" "x" "a" "b.x")).1 ∧
    ∃ c r before after,
      (⟨(relayEngine.load (scribes "a.b" "x" "a" "b.x")).1, []⟩ : Chronicle).play [.tick] = .ok c ∧
      c.engine.run = some r ∧
      (r.plan.action? 2).map (fun a => (a.id, a.scoped? c.engine.host)) =
        some ("a", some ("b.x", .text "other")) ∧
      Engine.Visits c.engine.host c.engine.stages r.beginTick 2 before after ∧
      (r.plan.action? 1).map Action.id = some "a.b" ∧
      before.board.get? (Blackboard.scopedKey "a.b" "x") = some (.text "mine") ∧
      after.board.get? (Blackboard.scopedKey "a.b" "x") = some (.text "other") := by
  refine ⟨.load relayEngine rfl rfl, _, _, _, _, rfl, rfl, rfl,
    .later _ _ (.later _ _ (.later _ _ (.here (.assign _ [1] [] rfl rfl)))), rfl, ?_, ?_⟩
  · decide +kernel
  · decide +kernel

end Chronicle
end ActionGraph
