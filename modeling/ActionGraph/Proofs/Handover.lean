import ActionGraph.Proofs.Outbox
import ActionGraph.Proofs.Join
import ActionGraph.Proofs.Reload
-- Whole runs as the host sees them. What completes without sending does so in the very tick that
-- first activates it, and hands over then what it has to say, so the host hears of no action twice.
namespace ActionGraph

def AtOnce (arrived : Nat) : Phase → Prop
  | .idle => arrived = 0
  | .completed => 0 < arrived
  | .cancelled => True
  | .running | .listening => False

theorem Deed.Suits.finish {d : Deed} (suits : d.Suits kind) (known : kind ∈ quietKinds) :
    d = .finish := by
  have foreign : ∀ kind ∈ quietKinds, kind ∉ outKinds ∧ kind ≠ Filter.kind := by decide
  have loud : Delay.kind ∈ outKinds ∧ Action.joinKind ∈ outKinds ∧ Trigger.kind ∈ outKinds := by
    decide
  cases d with
  | finish => rfl
  | rest => exact ((foreign kind known).1 (suits ▸ loud.1)).elim
  | listen =>
    rcases suits with isJoin | isTrigger
    · exact ((foreign kind known).1 (isJoin ▸ loud.2.1)).elim
    · exact ((foreign kind known).1 (isTrigger ▸ loud.2.2)).elim
  | pulse => exact ((foreign kind known).1 (suits ▸ loud.2.2)).elim
  | finishOn =>
    rcases suits with ⟨isFilter, _⟩ | ⟨sends, _⟩
    · exact ((foreign kind known).2 isFilter).elim
    · exact ((foreign kind known).1 sends).elim
  | propagate => exact suits.elim

namespace Run.Ticks
variable {t t' : Tables} {r r' : Run} {ps ws : List Work} (ticks : Ticks t r ps ws t' r')
include ticks

theorem activated (there : r.statuses[j]? = some s) (some : 0 < (r'.deliveredTo j).length) :
    s.phase.isTerminal = false ∧ (r.met j s).phase = .running := by
  cases final : s.phase.isTerminal with
  | true =>
    rw [ticks.deliveredTo there, if_pos final] at some
    cases some
  | false =>
    refine ⟨rfl, ?_⟩
    rw [ticks.deliveredTo there, final] at some
    obtain ⟨p, member⟩ := List.exists_mem_of_length_pos some
    obtain ⟨inside, target⟩ := List.mem_filter.mp member
    have addressed : j ∈ r.pending.map Pulse.target :=
      List.mem_map.mpr ⟨p, inside, by simpa using target⟩
    rw [met, if_pos addressed, Status.address_of_left final]

theorem unmet (there : r.statuses[j]? = some s) (none : ¬0 < (r'.deliveredTo j).length) :
    r.met j s = s := by
  by_cases addressed : j ∈ r.pending.map Pulse.target
  · rw [met, if_pos addressed]
    apply Status.address_of_terminal
    apply Classical.byContradiction
    intro left
    exact none (ticks.delivered_some there (Bool.eq_false_iff.mpr left) addressed)
  · exact met_unaddressed addressed s

theorem quiet (there : r.statuses[j]? = some s) (isKind : r.plan.kind? j = some kind)
    (known : kind ∈ quietKinds) (before : AtOnce n s.phase) :
    AtOnce (n + (r'.deliveredTo j).length) (r'.phase j) ∧
      (r.arrived.phase j = .running ↔ 0 < (r'.deliveredTo j).length) ∧
      (Turn.completes ⟨r, r'⟩ j = true ↔ 0 < (r'.deliveredTo j).length) ∧
      (0 < (r'.deliveredTo j).length → n = 0) := by
  have quiet : ∀ kind ∈ quietKinds, kind ∈ drivenKinds ∧ kind ≠ Trigger.kind := by decide
  obtain ⟨s', after, fares⟩ := ticks.fares there
  simp only [Turn.completes, phase_of (arrived_met there), phase_of there, phase_of after,
    Bool.and_eq_true, decide_eq_true_eq]
  by_cases some : 0 < (r'.deliveredTo j).length
  · obtain ⟨left, running⟩ := ticks.activated there some
    have idle : s.phase = .idle := by
      cases here : s.phase with
      | idle => rfl
      | running | listening => rw [here] at before; exact before.elim
      | completed | cancelled => rw [here] at left; cases left
    have completed : s'.phase = .completed := by
      cases fares with
      | propagated due =>
        simp only [Status.isDue, running, Bool.and_eq_true, decide_eq_true_eq] at due
        cases due.1
      | did member acts =>
        subst acts
        rw [(ticks.suits member isKind).finish known, Status.endTick_phase, Deed.settle,
          Status.enter_phase]
      | left _ _ _ undriven =>
        exact (undriven kind (quiet kind known).1 isKind (.inl running)).elim
    rw [idle] at before
    have none : n = 0 := before
    simp [completed, idle, running, AtOnce, some, none]
  · have same := ticks.unmet there some
    rw [same] at fares ⊢
    have waits : s.phase ≠ .running := by
      intro running
      rw [running] at before
      exact before
    have still : s'.phase = s.phase := by
      cases fares with
      | propagated => rfl
      | did _ _ _ isKind' active =>
        rcases active with running | ⟨isTrigger, _⟩
        · exact (waits running).elim
        · rw [isKind, Option.some.injEq] at isKind'
          exact ((quiet kind known).2 (isKind'.trans isTrigger)).elim
      | left => rfl
    have none : (r'.deliveredTo j).length = 0 := Nat.eq_zero_of_not_pos some
    simp [still, none, before, waits]

end Run.Ticks

theorem Reached.quiet (reached : Reached g script t r turns) (there : g.actions[j]? = some a)
    (known : a.kind ∈ quietKinds) : AtOnce (arrivedIn turns j) (r.phase j) := by
  induction reached using Reached.induct with
  | opened p log planned =>
    rw [Run.opened_idle planned there]
    · rfl
    · intro isStart
      rw [isStart] at known
      exact absurd known (by decide)
  | heeded _ _ r _ s _ _ ih =>
    rcases (r.heed_heeds s).statuses j with same | ⟨_, _, _, _, _, _, after⟩
    · rw [Run.phase, same]; exact ih
    · rw [Run.phase_of after, Status.enter_phase]; trivial
  | ticked _ _ r _ _ _ _ r' prior ticks ih =>
    obtain ⟨s, found⟩ := prior.found there
    rw [Run.phase_of found] at ih
    rw [arrivedIn_append]
    exact (ticks.quiet found (prior.kind_of there) known ih).1

structure Scene extends Turn where
  host : Host
  handed : List Effect

def Engine.hands (e : Engine) : List Effect :=
  match e.run with
  | none => []
  | some r => (pass e.host.listening e.stages r.beginTick).2.2

def Graph.hostOrder (g : Graph) : List Nat :=
  hostKinds.flatMap fun kind => positionsOf (fun a : Action => a.kind == kind) g.actions

namespace Chronicle

def sceneOf (s : Signal) (before after : Engine) : List Scene :=
  (turnOf s before.run after.run).map fun turn => ⟨turn, before.host, before.hands⟩

def scenes (c : Chronicle) : List Signal → List Scene
  | [] => []
  | s :: rest =>
    match c.next s with
    | .error _ => []
    | .ok c' => sceneOf s c.engine c'.engine ++ c'.scenes rest

theorem scenes_concat {c mid : Chronicle} (played : c.play script = .ok mid)
    (step : mid.engine.obey s = .ok e) :
    c.scenes (script ++ [s]) = c.scenes script ++ sceneOf s mid.engine e := by
  induction script generalizing c with
  | nil =>
    cases played
    simp [scenes, next, step]
  | cons first rest ih =>
    rw [List.cons_append, scenes, scenes]
    rw [play] at played
    cases here : c.next first with
    | error refusal => rw [here] at played; cases played
    | ok c' =>
      rw [here] at played
      simp only [ih played, List.append_assoc]

theorem scenes_heeded {c mid : Chronicle} (played : c.play script = .ok mid) (quiet : s ≠ .tick)
    (step : mid.engine.obey s = .ok e) : c.scenes (script ++ [s]) = c.scenes script := by
  rw [scenes_concat played step, sceneOf, turnOf_quiet quiet, List.map_nil, List.append_nil]

theorem scenes_ticked {c mid : Chronicle} (played : c.play script = .ok mid)
    (shows : mid.engine.Shows t r) (step : mid.engine.tick = .ok e) (shows' : e.Shows t' r') :
    c.scenes (script ++ [.tick]) =
      c.scenes script ++ [⟨⟨r, r'⟩, mid.engine.host, mid.engine.hands⟩] := by
  rw [scenes_concat played (s := .tick) step, sceneOf, shows.run, shows'.run]
  rfl

end Chronicle

-- A scene as the standard pipeline plays it: who completes hands over in turn, and the entries of
-- the spawn actions are there at the end.
structure Scene.Faithful (g : Graph) (scene : Scene) : Prop where
  handed : scene.handed = (g.hostOrder.filter scene.completes).flatMap
    (g.handsAt scene.host scene.after.tick scene.after.board)
  entries : ∀ i a, g.actions[i]? = some a → a.kind = Spawn.kind → scene.completes i = true →
    scene.after.board.get? (Blackboard.scopedKey a.id "spawned") =
      some (.int (Int64.ofNat (a.accepts scene.host)))

theorem Reached.completes (reached : Reached g script t r turns) (ticks : r.Ticks t ps ws t' r')
    (there : g.actions[j]? = some a) (known : a.kind ∈ quietKinds) :
    (r.arrived.phase j = .running ↔ Turn.completes ⟨r, r'⟩ j = true) ∧
      (Turn.completes ⟨r, r'⟩ j = true ↔
        arrivedIn turns j = 0 ∧ 0 < (r'.deliveredTo j).length) := by
  obtain ⟨s, found⟩ := reached.found there
  have before := reached.quiet there known
  rw [Run.phase_of found] at before
  obtain ⟨_, running, completes, first⟩ := ticks.quiet found (reached.kind_of there) known before
  rw [running, completes, and_iff_right_of_imp first]
  exact ⟨Iff.rfl, Iff.rfl⟩

theorem Reached.running (reached : Reached g script t r turns) (ticks : r.Ticks t ps ws t' r')
    (known : kind ∈ hostKinds) : r.arrived.running kind =
      (Graph.positionsOf (fun a : Action => a.kind == kind) g.actions).filter
        (Turn.completes ⟨r, r'⟩) := by
  rw [Run.running, r.arrived_plan, reached.indexed.kinds, reached.graph]
  refine List.filter_congr fun i member => ?_
  obtain ⟨a, there, isKind⟩ := Graph.mem_positionsOf.mp member
  rw [← beq_iff_eq.mp isKind] at known
  rw [Bool.eq_iff_iff, decide_eq_true_eq]
  exact (reached.completes ticks there (quiet_of_host known)).1

theorem Engine.Shows.scene {e : Engine} (shows : e.Shows t r) (reached : Reached g script t r turns)
    (step : e.tick = .ok e') (shows' : e'.Shows t' r') (ticks : r.Ticks t ps ws t' r') :
    Scene.Faithful g ⟨⟨r, r'⟩, e.host, e.hands⟩ ∧
      e'.effects.toList = e.effects.toList ++ e.hands.filter e.host.keeps := by
  obtain ⟨last, sent, passes, hands, entries⟩ :=
    Engine.pass_hands (show e.host.listening.log = true from rfl) t reached.indexed
  have handed : e.hands = sent := by
    simp only [Engine.hands, shows.run, shows.stages, passes]
  have passed := shows'.run
  simp only [Engine.tick, shows.isOpen, shows.run, shows.stages, Bool.false_eq_true, if_false,
    Engine.pass_listening e.host, passes, Except.ok.injEq] at step
  subst step
  cases passed
  refine ⟨⟨?_, ?_⟩, ?_⟩
  · change e.hands = (g.hostOrder.filter (Turn.completes ⟨r, last.endTick⟩)).flatMap
      (g.handsAt e.host last.endTick.tick last.board)
    rw [handed, hands, Graph.hostOrder, List.filter_flatMap, List.flatMap_assoc, reached.graph,
      ticks.tick]
    refine List.flatMap_congr fun kind known => ?_
    rw [reached.running ticks known]
    rfl
  · intro i a there isSpawn completes
    have here : r.plan.action? i = some a := by rw [Plan.action?, reached.graph, there]
    have runs : i ∈ r.arrived.running Spawn.kind := by
      rw [reached.running ticks (by decide)]
      refine List.mem_filter.mpr ⟨Graph.mem_positionsOf.mpr ⟨a, there, ?_⟩, completes⟩
      simpa using isSpawn
    have entry := entries i runs a here
    rwa [Spawn.entryKey, Plan.actionId_eq here] at entry
  · simp [Engine.record, handed]

theorem Engine.obey_effects {e : Engine} (quiet : s ≠ .tick) (step : e.obey s = .ok e') :
    e'.effects = e.effects := by
  cases s with
  | tick => exact (quiet rfl).elim
  | host | enableHistory | disableHistory => cases step; rfl
  | raise | setTag | clearTag | cancel | board =>
    obtain ⟨r, _, rfl⟩ := onRun_parts step
    rfl

namespace Chronicle

theorem play_scenes (opens : Opens g e) (played : (⟨e, []⟩ : Chronicle).play script = .ok c) :
    ((⟨e, []⟩ : Chronicle).scenes script).map Scene.toTurn = c.turns ∧
    c.engine.effects.toList = e.effects.toList ++ ((⟨e, []⟩ : Chronicle).scenes script).flatMap
      (fun scene => scene.handed.filter scene.host.keeps) ∧
    ∀ scene ∈ (⟨e, []⟩ : Chronicle).scenes script, scene.Faithful g := by
  refine play_induct (motive := fun script c =>
    ((⟨e, []⟩ : Chronicle).scenes script).map Scene.toTurn = c.turns ∧
    c.engine.effects.toList = e.effects.toList ++ ((⟨e, []⟩ : Chronicle).scenes script).flatMap
      (fun scene => scene.handed.filter scene.host.keeps) ∧
    ∀ scene ∈ (⟨e, []⟩ : Chronicle).scenes script, scene.Faithful g) opens ?_ ?_ ?_ played
  · simp [scenes]
  · intro script c t r s e' plays shows quiet step shows' before
    rw [scenes_heeded plays quiet step, Engine.obey_effects quiet step]
    exact before
  · intro script c t r ps ws t' r' e' plays shows reached step shows' ticks before
    obtain ⟨turns, effects, faithful⟩ := before
    obtain ⟨here, recorded⟩ := shows.scene reached step shows' ticks
    rw [scenes_ticked plays shows step shows']
    refine ⟨by rw [List.map_append, turns]; rfl, ?_, ?_⟩
    · rw [recorded, effects, List.flatMap_append, List.append_assoc]
      simp
    · intro scene member
      rcases List.mem_append.mp member with early | last
      · exact faithful scene early
      · rw [List.mem_singleton.mp last]
        exact here

end Chronicle

def heardOf (scenes : List Scene) (id : String) : Nat :=
  (scenes.flatMap Scene.handed).countP fun sent => sent.action? = some id

theorem countP_flatMap_single {is : List Nat} {f : Nat → List β} {q : β → Bool} (once : is.Nodup)
    (others : ∀ j ∈ is, j ≠ i → (f j).countP q = 0) :
    (is.flatMap f).countP q = if i ∈ is then (f i).countP q else 0 := by
  induction is with
  | nil => rfl
  | cons j rest ih =>
    obtain ⟨fresh, once⟩ := List.nodup_cons.mp once
    have later := ih once fun k member => others k (List.mem_cons_of_mem _ member)
    rw [List.flatMap_cons, List.countP_append, later]
    by_cases same : i = j
    · subst same
      simp [fresh]
    · simp [others j List.mem_cons_self (Ne.symm same), same]

namespace Graph
variable {g : Graph}

theorem mem_hostOrder : i ∈ g.hostOrder ↔ ∃ a, g.actions[i]? = some a ∧ a.kind ∈ hostKinds := by
  simp only [hostOrder, List.mem_flatMap, mem_positionsOf, beq_iff_eq]
  constructor
  · rintro ⟨kind, known, a, there, rfl⟩
    exact ⟨a, there, known⟩
  · rintro ⟨a, there, known⟩
    exact ⟨a.kind, known, a, there, rfl⟩

theorem hostOrder_nodup (g : Graph) : g.hostOrder.Nodup := by
  refine List.nodup_flatMap.mpr ⟨fun kind _ => positionsOf_nodup _ _, ?_⟩
  have distinct : hostKinds.Pairwise (· ≠ ·) := by decide
  refine distinct.imp fun differ i inFirst inSecond => ?_
  obtain ⟨a, there, first⟩ := mem_positionsOf.mp inFirst
  obtain ⟨b, again, second⟩ := mem_positionsOf.mp inSecond
  cases there.symm.trans again
  exact differ ((beq_iff_eq.mp first).symm.trans (beq_iff_eq.mp second))

end Graph

namespace Scene.Faithful
variable {g : Graph} {p : Plan} {i : Nat} {a : Action} (planned : Plan.ofGraph g = .ok p)
  (there : g.actions[i]? = some a)
include planned there

theorem heard (faithful : Faithful g scene) (known : a.kind ∈ hostKinds) :
    scene.handed.countP (fun sent => sent.action? = some a.id) =
      if scene.completes i && a.heardBy scene.host then 1 else 0 := by
  obtain ⟨_, _, graph, _⟩ := Plan.ofGraph_parts planned
  have once := g.hostOrder_nodup.filter scene.completes
  have others : ∀ j ∈ g.hostOrder.filter scene.completes, j ≠ i →
      (g.handsAt scene.host scene.after.tick scene.after.board j).countP
        (fun sent => sent.action? = some a.id) = 0 := by
    intro j member differ
    obtain ⟨b, here, _⟩ := Graph.mem_hostOrder.mp (List.mem_filter.mp member).1
    refine List.countP_eq_zero.mpr fun sent inside => ?_
    rw [Graph.handsAt_eq here] at inside
    rw [Action.hands_action inside, decide_eq_true_eq, Option.some.injEq]
    intro same
    apply differ
    apply Plan.same_position (Plan.ofGraph_indexed planned) (a := b) (b := a) _ _ same
    · rw [Plan.action?, graph, here]
    · rw [Plan.action?, graph, there]
  have own : (g.handsAt scene.host scene.after.tick scene.after.board i).countP
      (fun sent => sent.action? = some a.id) = if a.heardBy scene.host then 1 else 0 := by
    rw [Graph.handsAt_eq there, Action.hands]
    split <;> simp [Action.report_action]
  have inside : i ∈ g.hostOrder := Graph.mem_hostOrder.mpr ⟨a, there, known⟩
  rw [faithful.handed, countP_flatMap_single once others, own]
  cases completes : scene.completes i <;> simp [List.mem_filter, inside, completes]

theorem heardOf_eq (faithful : ∀ scene ∈ scenes, Faithful g scene) (known : a.kind ∈ hostKinds) :
    heardOf scenes a.id = scenes.countP fun scene => scene.completes i && a.heardBy scene.host := by
  induction scenes with
  | nil => rfl
  | cons scene rest ih =>
    have here := (faithful scene List.mem_cons_self).heard planned there known
    have later := ih fun scene member => faithful scene (List.mem_cons_of_mem _ member)
    rw [heardOf] at later ⊢
    rw [List.flatMap_cons, List.countP_append, here, later, List.countP_cons, Nat.add_comm]

theorem heardOf_once (faithful : ∀ scene ∈ scenes, Faithful g scene) (known : a.kind ∈ hostKinds)
    (once : scenes.countP (fun scene => scene.completes i) ≤ 1) : heardOf scenes a.id ≤ 1 ∧
      (heardOf scenes a.id = 1 ↔
        ∃ scene ∈ scenes, scene.completes i = true ∧ a.heardBy scene.host = true) := by
  have heard := heardOf_eq planned there faithful known
  have fewer : scenes.countP (fun scene => scene.completes i && a.heardBy scene.host) ≤
      scenes.countP fun scene => scene.completes i :=
    List.countP_mono_left fun scene _ both => (Bool.and_eq_true_iff.mp both).1
  have atMost : heardOf scenes a.id ≤ 1 := by omega
  refine ⟨atMost, ?_⟩
  have some : heardOf scenes a.id = 1 ↔ 0 < heardOf scenes a.id := by omega
  rw [some, heard, List.countP_pos_iff]
  simp only [Bool.and_eq_true]

end Scene.Faithful

theorem Action.heardBy_log {a : Action} (isLog : a.kind = Log.kind) (h : Host) : a.heardBy h = true := by
  rw [heardBy, isLog, if_neg (by decide), if_neg (by decide)]

theorem Action.heardBy_warning {a : Action} (isWarning : a.kind = Warning.kind) (h : Host) :
    a.heardBy h = h.warning := by
  rw [heardBy, isWarning, if_neg (by decide), if_pos rfl]

theorem Action.heardBy_spawn {a : Action} (isSpawn : a.kind = Spawn.kind) (h : Host) :
    a.heardBy h = true ↔ h.spawn = true ∧ ∃ prefab,
      (a.properties.get? "prefab").bind Value.text? = some prefab ∧ prefab ≠ "" := by
  rw [heardBy, if_pos isSpawn, reading]
  cases (a.properties.get? "prefab").bind Value.text? <;> simp

namespace Chronicle

-- Every scene hands over in order what the actions that it completes have to say: spawn requests
-- before warnings before lines, and earlier actions first. What an action of these kinds is
-- completed by is the tick that delivers to it for the first time, so the host hears of it once at
-- most, and does so if it takes what that action has to say in that tick.
theorem hands_over_once (opens : Opens g e) (script : List Signal) : ∃ c r scenes,
    (⟨e, []⟩ : Chronicle).play script = .ok c ∧ c.engine.run = some r ∧
    (⟨e, []⟩ : Chronicle).scenes script = scenes ∧ scenes.map Scene.toTurn = c.turns ∧
    c.engine.effects.toList = e.effects.toList ++
      scenes.flatMap (fun scene => scene.handed.filter scene.host.keeps) ∧
    (∀ scene ∈ scenes, scene.handed = (g.hostOrder.filter scene.completes).flatMap
      (g.handsAt scene.host scene.after.tick scene.after.board)) ∧
    ∀ (i : Nat) a, g.actions[i]? = some a → a.kind ∈ hostKinds →
      (∀ earlier scene later, scenes = earlier ++ scene :: later →
        (scene.completes i = true ↔ arrivedIn (earlier.map Scene.toTurn) i = 0 ∧
          0 < (scene.after.deliveredTo i).length)) ∧
      (r.phase i = .completed ↔ ∃ scene ∈ scenes, scene.completes i = true) ∧
      heardOf scenes a.id ≤ 1 ∧
      (a.kind = Log.kind → (heardOf scenes a.id = 1 ↔ r.phase i = .completed)) ∧
      (a.kind = Warning.kind → (heardOf scenes a.id = 1 ↔
        ∃ scene ∈ scenes, scene.completes i = true ∧ scene.host.warning = true)) ∧
      (a.kind = Spawn.kind → (heardOf scenes a.id = 1 ↔
          ∃ scene ∈ scenes, scene.completes i = true ∧ scene.host.spawn = true ∧ ∃ prefab,
            (a.properties.get? "prefab").bind Value.text? = some prefab ∧ prefab ≠ "") ∧
        ∀ scene ∈ scenes, scene.completes i = true →
          scene.after.board.get? (Blackboard.scopedKey a.id "spawned") =
            some (.int (Int64.ofNat (a.accepts scene.host)))) := by
  obtain ⟨c, t, r, played, shows, reached⟩ := play_reached opens script
  obtain ⟨turns, effects, faithful⟩ := play_scenes opens played
  generalize (⟨e, []⟩ : Chronicle).scenes script = scenes at turns effects faithful
  refine ⟨c, r, scenes, played, shows.run, rfl, turns, effects,
    fun scene member => (faithful scene member).handed, ?_⟩
  intro i a there known
  have completed : r.phase i = .completed ↔ ∃ scene ∈ scenes, scene.completes i = true := by
    rw [reached.completed_iff, ← turns]
    simp only [List.mem_map, exists_exists_and_eq_and]
  have once : scenes.countP (fun scene => scene.completes i) ≤ 1 := by
    have completes := reached.completes_once i
    rwa [← turns, List.countP_map] at completes
  obtain ⟨atMost, exactly⟩ := Scene.Faithful.heardOf_once reached.planned there faithful known once
  refine ⟨?_, completed, atMost, ?_, ?_, ?_⟩
  · intro earlier scene later split
    rw [split, List.map_append, List.map_cons] at turns
    obtain ⟨_, _, _, _, _, prior, ticks⟩ := (turns ▸ reached).turn
    exact (prior.completes ticks there (quiet_of_host known)).2
  · intro isLog
    rw [exactly, completed]
    simp only [Action.heardBy_log isLog, and_true]
  · intro isWarning
    rw [exactly]
    simp only [Action.heardBy_warning isWarning]
  · intro isSpawn
    rw [exactly]
    simp only [Action.heardBy_spawn isSpawn, true_and]
    exact fun scene member => (faithful scene member).entries i a there isSpawn

theorem dispatch_hands_over_once : ∃ c r scenes,
    (⟨(dispatchEngine.load dispatch).1, []⟩ : Chronicle).play
      [.tick, .host {}, .tick, .host .all, .tick, .tick] = .ok c ∧ c.engine.run = some r ∧
    (⟨(dispatchEngine.load dispatch).1, []⟩ : Chronicle).scenes
      [.tick, .host {}, .tick, .host .all, .tick, .tick] = scenes ∧
    scenes.map Scene.toTurn = c.turns ∧
    c.engine.effects.toList = (dispatchEngine.load dispatch).1.effects.toList ++
      scenes.flatMap (fun scene => scene.handed.filter scene.host.keeps) ∧
    (∀ scene ∈ scenes, scene.handed = (dispatch.hostOrder.filter scene.completes).flatMap
      (dispatch.handsAt scene.host scene.after.tick scene.after.board)) ∧
    ∀ (i : Nat) a, dispatch.actions[i]? = some a → a.kind ∈ hostKinds →
      (∀ earlier scene later, scenes = earlier ++ scene :: later →
        (scene.completes i = true ↔ arrivedIn (earlier.map Scene.toTurn) i = 0 ∧
          0 < (scene.after.deliveredTo i).length)) ∧
      (r.phase i = .completed ↔ ∃ scene ∈ scenes, scene.completes i = true) ∧
      heardOf scenes a.id ≤ 1 ∧
      (a.kind = Log.kind → (heardOf scenes a.id = 1 ↔ r.phase i = .completed)) ∧
      (a.kind = Warning.kind → (heardOf scenes a.id = 1 ↔
        ∃ scene ∈ scenes, scene.completes i = true ∧ scene.host.warning = true)) ∧
      (a.kind = Spawn.kind → (heardOf scenes a.id = 1 ↔
          ∃ scene ∈ scenes, scene.completes i = true ∧ scene.host.spawn = true ∧ ∃ prefab,
            (a.properties.get? "prefab").bind Value.text? = some prefab ∧ prefab ≠ "") ∧
        ∀ scene ∈ scenes, scene.completes i = true →
          scene.after.board.get? (Blackboard.scopedKey a.id "spawned") =
            some (.int (Int64.ofNat (a.accepts scene.host)))) :=
  hands_over_once dispatch_opens _

example : ((⟨(dispatchEngine.load dispatch).1, []⟩ : Chronicle).scenes
      [.tick, .tick, .tick, .tick]).map (fun scene => scene.handed.map Effect.action?) =
    [[], [some "crate", some "alert"], [], [some "note"]] := by
  decide +kernel

end Chronicle
end ActionGraph
