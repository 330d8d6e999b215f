import ActionGraph.Proofs.Boundary
-- What one tick hands over to the host: first the spawn requests, then the warnings, then the log
-- lines, and among those of a kind the ones of earlier actions first. Each stands for an action that
-- the tick completes.
namespace ActionGraph

def Effect.action? : Effect → Option String
  | .log _ action _ => some action
  | .spawn request => some request.action
  | .warning request => some request.action
  | .loaded .. | .updated .. | .stopped .. => none

def Effect.isLine : Effect → Bool
  | .log .. => true
  | _ => false

def Host.listening (h : Host) : Host := { h with log := true }

def Host.keeps (h : Host) (sent : Effect) : Bool := h.log || !sent.isLine

def hostKinds : List String := [Spawn.kind, Warning.kind, Log.kind]

theorem quiet_of_host (reaches : kind ∈ hostKinds) : kind ∈ quietKinds := by
  revert kind; decide

def Action.reading (a : Action) (read? : Value → Option α) (key : String) (fallback : α) : α :=
  ((a.properties.get? key).bind read?).getD fallback

theorem Plan.reading_eq {p : Plan} (there : p.action? i = some a) (read? : Value → Option α)
    (key : String) (fallback : α) : p.reading read? i key fallback = a.reading read? key fallback := by
  rw [reading, property?, there]
  rfl

theorem Plan.actionId_eq {p : Plan} (there : p.action? i = some a) : p.actionId i = a.id := by
  rw [actionId, there]
  rfl

namespace Action

-- Whether a host takes what the action has to say when it completes. A spawn action without a prefab
-- has nothing to say.
def heardBy (a : Action) (h : Host) : Bool :=
  if a.kind = Spawn.kind then h.spawn && !(a.reading Value.text? "prefab" "").isEmpty
  else if a.kind = Warning.kind then h.warning
  else true

def report (a : Action) (tick : Nat) (board : Blackboard) : Effect :=
  if a.kind = Spawn.kind then
    .spawn ⟨a.id, a.reading Value.text? "prefab" "", a.reading Value.u32? "count" 1,
      a.bindings.get? "anchor", tick⟩
  else if a.kind = Warning.kind then
    .warning ⟨a.id, a.reading Value.text? "message" "",
      a.reading Value.u64? "duration_ticks" Warning.defaultTicks, tick⟩
  else
    .log ((Level.read? (a.reading Value.text? "level" "info")).getD .info) a.id
      (Template.fill board (a.reading Value.text? "message" ""))

def hands (a : Action) (h : Host) (tick : Nat) (board : Blackboard) : List Effect :=
  if a.heardBy h then [a.report tick board] else []

def accepts (a : Action) (h : Host) : Nat := if a.heardBy h then a.reading Value.u32? "count" 1 else 0

theorem report_action (a : Action) (tick : Nat) (board : Blackboard) :
    (a.report tick board).action? = some a.id := by
  unfold report
  split
  · rfl
  · split <;> rfl

theorem hands_action {a : Action} (member : sent ∈ a.hands h tick board) :
    sent.action? = some a.id := by
  unfold hands at member
  split at member
  · rw [List.mem_singleton.mp member, report_action]
  · cases member

end Action

def Graph.handsAt (g : Graph) (h : Host) (tick : Nat) (board : Blackboard) (i : Nat) : List Effect :=
  (g.actions[i]?).elim [] fun a => a.hands h tick board

theorem Graph.handsAt_eq {g : Graph} (there : g.actions[i]? = some a) (h : Host) (tick : Nat)
    (board : Blackboard) : g.handsAt h tick board i = a.hands h tick board := by
  rw [handsAt, there]
  rfl

theorem foldl_view {P : σ → Prop} {f : σ → α → σ} {g : τ → α → τ} (view : σ → τ) {l : List α}
    (step : ∀ s a, P s → a ∈ l → P (f s a) ∧ view (f s a) = g (view s) a) {s : σ} (start : P s) :
    P (l.foldl f s) ∧ view (l.foldl f s) = l.foldl g (view s) := by
  induction l generalizing s with
  | nil => exact ⟨start, rfl⟩
  | cons a rest ih =>
    obtain ⟨next, here⟩ := step s a start List.mem_cons_self
    rw [List.foldl_cons, List.foldl_cons, ← here]
    exact ih (fun s b now later => step s b now (List.mem_cons_of_mem _ later)) next

theorem foldl_sends {P : σ → Prop} {f : σ → α → σ} {g : α → List Effect} (view : σ → List Effect)
    {l : List α} (step : ∀ s a, P s → a ∈ l → P (f s a) ∧ view (f s a) = view s ++ g a) {s : σ}
    (start : P s) (silent : view s = []) :
    P (l.foldl f s) ∧ view (l.foldl f s) = l.flatMap g := by
  obtain ⟨kept, sent⟩ := foldl_view (g := fun out a => out ++ g a) view step start
  rw [silent, List.foldl_append_eq_append, List.nil_append, ← List.flatMap_def] at sent
  exact ⟨kept, sent⟩

theorem Keyed.get?_inserts {table : Keyed β} {key : α → String} {value : α → β} {as : List α}
    (member : a ∈ as) (agree : ∀ b ∈ as, key b = key a → value b = value a) :
    (as.foldl (fun t b => t.insert (key b) (value b)) table).get? (key a) = some (value a) := by
  induction as using List.reverseRecOn with
  | nil => cases member
  | append_singleton as b ih =>
    rw [List.foldl_append, List.foldl_cons, List.foldl_nil, get?_insert]
    split
    · next same => rw [agree b (by simp) same]
    · next differ =>
      have early : a ∈ as := by
        rcases List.mem_append.mp member with early | last
        · exact early
        · rw [List.mem_singleton.mp last] at differ
          exact (differ rfl).elim
      exact ih early fun c inside => agree c (List.mem_append_left _ inside)

namespace Run

theorem running_action {r : Run} (indexed : r.plan.Indexed) (member : i ∈ r.running kind) :
    ∃ a, r.plan.action? i = some a ∧ a.kind = kind := by
  have isKind := (Plan.mem_ofKind indexed).mp (List.mem_filter.mp member).1
  exact Option.map_eq_some_iff.mp isKind

theorem Round.acts_running (round : Round [kind] r ws r') (indexed : r.plan.Indexed)
    (other : kind ≠ Trigger.kind) : i ∈ ws.map Work.action ↔ i ∈ r.running kind := by
  rw [round.acts, running, List.mem_filter, Plan.mem_ofKind indexed, decide_eq_true_eq]
  simp [Driven, other]

theorem setPhase_board (r : Run) (i : Nat) (next : Phase) :
    ((r.setPhase i next).1.plan, (r.setPhase i next).1.tick, (r.setPhase i next).1.board) =
      (r.plan, r.tick, r.board) := by
  rcases r.setPhase_parts i next with ⟨log, same⟩ | ⟨s, there, left, same⟩
  · rw [same]
    rfl
  · rw [same]
    rfl

end Run

namespace Spawn

def entryKey (p : Plan) (i : Nat) : String := Blackboard.scopedKey (p.actionId i) "spawned"

theorem request_eq {r : Run} (there : r.plan.action? i = some a) : ∃ log,
    request r i = (r.withLog log, if (a.reading Value.text? "prefab" "").isEmpty then none else
      some ⟨a.id, a.reading Value.text? "prefab" "", a.reading Value.u32? "count" 1,
        a.bindings.get? "anchor", r.tick⟩) := by
  obtain ⟨log, prefab⟩ := r.requireProperty_parts Value.text? i "prefab" ""
  obtain ⟨log', count⟩ := (r.withLog log).propertyOr_parts Value.u32? i "count" 1
  have same : (r.withLog log).plan = r.plan := rfl
  rw [Plan.reading_eq there] at prefab
  rw [same, Plan.reading_eq there] at count
  have anchor : r.plan.binding? i "anchor" = a.bindings.get? "anchor" := by
    rw [Plan.binding?, there, Option.bind_some]
  have upon : ((r.withLog log).withLog log').plan = r.plan := rfl
  simp only [request, prefab, count]
  split
  · exact ⟨log, rfl⟩
  · rw [upon, anchor]
    split
    · exact ⟨_, by rw [← Plan.actionId_eq there]; rfl⟩
    · exact ⟨log', by rw [← Plan.actionId_eq there]; rfl⟩

theorem accepted_eq (host : Host) {a : Action} (isSpawn : a.kind = kind) (tick : Nat)
    (board : Blackboard) :
    accepted host (if (a.reading Value.text? "prefab" "").isEmpty then none else
      some ⟨a.id, a.reading Value.text? "prefab" "", a.reading Value.u32? "count" 1,
        a.bindings.get? "anchor", tick⟩) = (a.accepts host, a.hands host tick board) := by
  have same : a.kind = Spawn.kind := isSpawn
  simp only [Action.accepts, Action.hands, Action.heardBy, Action.report, same, if_true]
  cases (a.reading Value.text? "prefab" "").isEmpty with
  | true => simp [accepted]
  | false => cases here : host.spawn <;> simp [accepted, Host.onSpawn, here]

theorem updateOne_hands (host : Host) {s : Tally × Run × List Effect}
    (there : s.2.1.plan.action? i = some a) (isSpawn : a.kind = kind) (board : Blackboard) :
    (updateOne host s i).2.1.plan = s.2.1.plan ∧ (updateOne host s i).2.1.tick = s.2.1.tick ∧
      (updateOne host s i).2.1.board = s.2.1.board.insert (entryKey s.2.1.plan i)
        (.int (Int64.ofNat (a.accepts host))) ∧
      (updateOne host s i).2.2 = s.2.2 ++ a.hands host s.2.1.tick board := by
  obtain ⟨spawned, r, effects⟩ := s
  obtain ⟨log, asked⟩ := request_eq (r := (r.takeFresh i).1) there
  have taken := accepted_eq host isSpawn r.tick board
  have tick : (r.takeFresh i).1.tick = r.tick := rfl
  have kept := fun (r : Run) => r.setPhase_board i .completed
  simp only [Prod.mk.injEq] at kept
  simp only [updateOne, asked, tick, taken, Run.complete]
  exact ⟨(kept _).1, (kept _).2.1, (kept _).2.2, trivial⟩

theorem update_hands (host : Host) (spawned : Tally) {r : Run} (indexed : r.plan.Indexed)
    (board : Blackboard) :
    ((update host spawned r).2.1.plan = r.plan ∧ (update host spawned r).2.1.tick = r.tick) ∧
      (update host spawned r).2.2 =
        (r.running kind).flatMap (r.plan.graph.handsAt host r.tick board) ∧
      ∀ i ∈ r.running kind, ∀ a, r.plan.action? i = some a →
        (update host spawned r).2.1.board.get? (entryKey r.plan i) =
          some (.int (Int64.ofNat (a.accepts host))) := by
  have step : ∀ (s : Tally × Run × List Effect) i, s.2.1.plan = r.plan ∧ s.2.1.tick = r.tick →
      i ∈ r.running kind → (updateOne host s i).2.1.plan = r.plan ∧
        (updateOne host s i).2.1.tick = r.tick ∧
        (updateOne host s i).2.1.board = s.2.1.board.insert (entryKey r.plan i)
          (.int (Int64.ofNat ((r.plan.action? i).elim 0 (·.accepts host)))) ∧
        (updateOne host s i).2.2 = s.2.2 ++ r.plan.graph.handsAt host r.tick board i := by
    intro s i same member
    obtain ⟨a, there, isSpawn⟩ := Run.running_action indexed member
    obtain ⟨plan, tick, entry, sent⟩ := updateOne_hands host (same.1.symm ▸ there) isSpawn board
    rw [plan, tick, entry, sent, same.1, same.2, there, Graph.handsAt_eq there]
    exact ⟨rfl, rfl, rfl, rfl⟩
  obtain ⟨kept, sent⟩ := foldl_sends (fun s => s.2.2)
    (g := r.plan.graph.handsAt host r.tick board) (s := (spawned, r, []))
    (fun s i same member => have ⟨plan, tick, _, sent⟩ := step s i same member
      ⟨⟨plan, tick⟩, sent⟩) ⟨rfl, rfl⟩ rfl
  obtain ⟨_, entries⟩ := foldl_view (fun s => s.2.1.board)
    (g := fun t i => t.insert (entryKey r.plan i)
      (.int (Int64.ofNat ((r.plan.action? i).elim 0 (·.accepts host))))) (s := (spawned, r, []))
    (fun s i same member => have ⟨plan, tick, entry, _⟩ := step s i same member
      ⟨⟨plan, tick⟩, entry⟩) ⟨rfl, rfl⟩
  refine ⟨kept, sent, fun i member a there => ?_⟩
  rw [update, entries, Keyed.get?_inserts member]
  · rw [there, Option.elim]
  · intro j inside same
    obtain ⟨b, here, _⟩ := Run.running_action indexed inside
    rw [entryKey, entryKey, Plan.actionId_eq here, Plan.actionId_eq there] at same
    rw [Plan.same_position indexed here there (by simpa [Blackboard.scopedKey] using same)]

end Spawn

namespace Warning

theorem request_eq {r : Run} (there : r.plan.action? i = some a) : ∃ log,
    request r i = (r.withLog log, ⟨a.id, a.reading Value.text? "message" "",
      a.reading Value.u64? "duration_ticks" defaultTicks, r.tick⟩) := by
  obtain ⟨log, message⟩ := r.requireProperty_parts Value.text? i "message" ""
  obtain ⟨log', duration⟩ :=
    (r.withLog log).propertyOr_parts Value.u64? i "duration_ticks" defaultTicks
  have same : (r.withLog log).plan = r.plan := rfl
  rw [Plan.reading_eq there] at message
  rw [same, Plan.reading_eq there] at duration
  refine ⟨log', ?_⟩
  rw [← Plan.actionId_eq there]
  simp only [request, message, duration]
  rfl

theorem updateOne_hands (host : Host) {s : Nat × Run × List Effect}
    (there : s.2.1.plan.action? i = some a) (isWarning : a.kind = kind) (board : Blackboard) :
    (updateOne host s i).2.1.plan = s.2.1.plan ∧ (updateOne host s i).2.1.tick = s.2.1.tick ∧
      (updateOne host s i).2.1.board = s.2.1.board ∧
      (updateOne host s i).2.2 = s.2.2 ++ a.hands host s.2.1.tick board := by
  obtain ⟨shown, r, effects⟩ := s
  obtain ⟨log, asked⟩ := request_eq (r := (r.takeFresh i).1) there
  have same : a.kind = Warning.kind := isWarning
  have kept := fun (r : Run) => r.setPhase_board i .completed
  simp only [Prod.mk.injEq] at kept
  simp only [updateOne, asked, Run.complete]
  refine ⟨(kept _).1, (kept _).2.1, (kept _).2.2, ?_⟩
  simp only [Action.hands, Action.heardBy, Action.report, same, if_true]
  rfl

theorem update_hands (host : Host) (shown : Nat) {r : Run} (indexed : r.plan.Indexed)
    (board : Blackboard) :
    ((update host shown r).2.1.plan = r.plan ∧ (update host shown r).2.1.tick = r.tick ∧
      (update host shown r).2.1.board = r.board) ∧
      (update host shown r).2.2 =
        (r.running kind).flatMap (r.plan.graph.handsAt host r.tick board) := by
  refine foldl_sends (fun s => s.2.2) (f := updateOne host)
    (g := r.plan.graph.handsAt host r.tick board) (s := (shown, r, []))
    (P := fun s => s.2.1.plan = r.plan ∧ s.2.1.tick = r.tick ∧ s.2.1.board = r.board)
    (l := r.running kind) (fun s i same member => by
      obtain ⟨a, there, isWarning⟩ := Run.running_action indexed member
      obtain ⟨plan, tick, entry, sent⟩ := updateOne_hands host (same.1.symm ▸ there) isWarning board
      rw [plan, tick, entry, sent, same.2.1, Graph.handsAt_eq there]
      exact ⟨⟨same.1, rfl, same.2.2⟩, rfl⟩) ⟨rfl, rfl, rfl⟩ rfl

end Warning

namespace Log

theorem level_eq {r : Run} (there : r.plan.action? i = some a) : ∃ log, level r i =
    (r.withLog log, (Level.read? (a.reading Value.text? "level" "info")).getD .info) := by
  obtain ⟨log, read⟩ := r.propertyOr_parts Value.text? i "level" "info"
  rw [Plan.reading_eq there] at read
  simp only [level, read]
  split
  · next found => exact ⟨log, by rw [found]; rfl⟩
  · next unknown => exact ⟨_, by rw [unknown]; rfl⟩

theorem updateOne_hands {host : Host} (sink : host.log = true) {s : Run × List Effect}
    (there : s.1.plan.action? i = some a) (isLog : a.kind = kind) (tick : Nat) :
    (updateOne host s i).1.plan = s.1.plan ∧ (updateOne host s i).1.board = s.1.board ∧
      (updateOne host s i).2 = s.2 ++ a.hands host tick s.1.board := by
  obtain ⟨r, effects⟩ := s
  obtain ⟨log, found⟩ := level_eq (r := (r.takeFresh i).1) there
  obtain ⟨log', message⟩ :=
    ((r.takeFresh i).1.withLog log).requireProperty_parts Value.text? i "message" ""
  have plan : ((r.takeFresh i).1.withLog log).plan = r.plan := rfl
  have id : (((r.takeFresh i).1.withLog log).withLog log').plan.actionId i = a.id :=
    Plan.actionId_eq there
  have board : (((r.takeFresh i).1.withLog log).withLog log').board = r.board := rfl
  rw [plan, Plan.reading_eq there] at message
  have noSpawn : a.kind ≠ Spawn.kind := by rw [isLog]; decide
  have noWarning : a.kind ≠ Warning.kind := by rw [isLog]; decide
  have kept := fun (r : Run) => r.setPhase_board i .completed
  simp only [Prod.mk.injEq] at kept
  simp only [updateOne, found, message, Run.complete]
  refine ⟨(kept _).1, (kept _).2.2, ?_⟩
  rw [id, board]
  simp only [Action.hands, Action.heardBy, Action.report, noSpawn, noWarning, if_true, if_false,
    Host.onLog, sink]

theorem update_hands {host : Host} (sink : host.log = true) {r : Run} (indexed : r.plan.Indexed)
    (tick : Nat) :
    (update host r).1.board = r.board ∧
      (update host r).2 = (r.running kind).flatMap (r.plan.graph.handsAt host tick r.board) := by
  obtain ⟨kept, sent⟩ := foldl_sends (fun s => s.2) (f := updateOne host)
    (g := r.plan.graph.handsAt host tick r.board)
    (P := fun s => s.1.plan = r.plan ∧ s.1.board = r.board) (s := (r, []))
    (l := r.running kind) (fun s i same member => by
      obtain ⟨a, there, isLog⟩ := Run.running_action indexed member
      obtain ⟨plan, board, sent⟩ := updateOne_hands sink (same.1.symm ▸ there) isLog tick
      rw [plan, board, sent, same.2, Graph.handsAt_eq there]
      exact ⟨⟨same.1, rfl⟩, rfl⟩) ⟨rfl, rfl⟩ rfl
  exact ⟨kept.2, sent⟩

end Log

section Listening
variable (host : Host)

theorem keeps_silent {sent : List Effect} (silent : ∀ e ∈ sent, e.isLine = false) :
    sent.filter host.keeps = sent :=
  List.filter_eq_self.mpr fun e member => by rw [Host.keeps, silent e member, Bool.not_false, Bool.or_true]

theorem foldl_silent {f : σ → Nat → σ} (out : σ → List Effect)
    (adds : ∀ s i, ∃ sent, out (f s i) = out s ++ sent ∧ ∀ e ∈ sent, e.isLine = false) (is : List Nat)
    {s : σ} (start : out s = []) : ∀ e ∈ out (is.foldl f s), e.isLine = false := by
  induction is using List.reverseRecOn with
  | nil => intro e member; rw [List.foldl_nil, start] at member; cases member
  | append_singleton is i ih =>
    intro e member
    obtain ⟨sent, same, silent⟩ := adds (is.foldl f s) i
    rw [List.foldl_append, List.foldl_cons, List.foldl_nil, same] at member
    exact (List.mem_append.mp member).elim (ih e) (silent e)

theorem Spawn.accepted_silent (asked : Option SpawnRequest) :
    ∀ e ∈ (Spawn.accepted host asked).2, e.isLine = false := by
  intro e member
  cases asked with
  | none => cases member
  | some request =>
    simp only [Spawn.accepted, Host.onSpawn] at member
    split at member
    · rw [List.mem_singleton.mp member]; rfl
    · cases member

theorem Spawn.update_silent (spawned : Tally) (r : Run) :
    ∀ e ∈ (Spawn.update host spawned r).2.2, e.isLine = false :=
  foldl_silent (fun s : Tally × Run × List Effect => s.2.2)
    (fun _ _ => ⟨_, rfl, Spawn.accepted_silent host _⟩) _ rfl

theorem Warning.update_silent (shown : Nat) (r : Run) :
    ∀ e ∈ (Warning.update host shown r).2.2, e.isLine = false := by
  refine foldl_silent (fun s : Nat × Run × List Effect => s.2.2)
    (fun _ _ => ⟨_, rfl, fun e member => ?_⟩) _ rfl
  unfold Host.onWarning at member
  split at member
  · rw [List.mem_singleton.mp member]; rfl
  · cases member

theorem Log.update_listening (r : Run) : Log.update host r =
    ((Log.update host.listening r).1, (Log.update host.listening r).2.filter host.keeps) := by
  have step : ∀ (s : Run × List Effect) i,
      ((Log.updateOne host.listening s i).1, (Log.updateOne host.listening s i).2.filter host.keeps) =
        Log.updateOne host (s.1, s.2.filter host.keeps) i := by
    intro s i
    simp only [Log.updateOne, List.filter_append, Host.onLog, Host.listening]
    cases here : host.log <;> simp [Host.keeps, Effect.isLine, here]
  have same := foldl_view (P := fun _ => True) (f := Log.updateOne host.listening)
    (g := Log.updateOne host) (l := r.running Log.kind)
    (fun s : Run × List Effect => (s.1, s.2.filter host.keeps)) (s := (r, []))
    (fun s i _ _ => ⟨trivial, step s i⟩) trivial
  exact same.2.symm

theorem Stage.update_listening (s : Stage) (r : Run) : s.update host r =
    ((s.update host.listening r).1, (s.update host.listening r).2.1,
      (s.update host.listening r).2.2.filter host.keeps) := by
  cases s with
  | spawn t =>
    have silent := keeps_silent host (Spawn.update_silent host t r)
    rw [update_spawn, update_spawn]
    exact congrArg _ (congrArg _ silent.symm)
  | warning n =>
    have silent := keeps_silent host (Warning.update_silent host n r)
    rw [update_warning, update_warning]
    exact congrArg _ (congrArg _ silent.symm)
  | log => rw [update_log, update_log, Log.update_listening host]
  | script s =>
    have silent : ∀ e ∈ (s.update r).2, e.isLine = false := fun e member => by
      rw [List.mem_singleton.mp member]; rfl
    exact congrArg _ (congrArg _ (keeps_silent host silent).symm)
  | _ => rfl

theorem Engine.pass_listening (stages : List Stage) (r : Run) : Engine.pass host stages r =
    ((Engine.pass host.listening stages r).1, (Engine.pass host.listening stages r).2.1,
      (Engine.pass host.listening stages r).2.2.filter host.keeps) := by
  induction stages generalizing r with
  | nil => rfl
  | cons s rest ih =>
    rw [pass_cons, pass_cons, Stage.update_listening host s, ih]
    simp only [List.filter_append]

end Listening

namespace Run

-- A stretch of a tick that has nothing to do with the given kinds.
structure Spares (kinds : List String) (r r' : Run) : Prop where
  plan : r'.plan = r.plan
  tick : r'.tick = r.tick
  phase : ∀ kind ∈ kinds, ∀ i, r.plan.kind? i = some kind → r'.phase i = r.phase i

theorem Spares.trans {a b c : Run} (ab : Spares kinds a b) (bc : Spares kinds b c) :
    Spares kinds a c where
  plan := bc.plan.trans ab.plan
  tick := bc.tick.trans ab.tick
  phase := by
    intro kind known i isKind
    rw [bc.phase kind known i (ab.plan ▸ isKind), ab.phase kind known i isKind]

theorem Spares.only {r r' : Run} (spares : Spares kinds r r') (known : kind ∈ kinds) :
    Spares [kind] r r' :=
  ⟨spares.plan, spares.tick, fun _ only => spares.phase _ (List.mem_singleton.mp only ▸ known)⟩

theorem Round.spares (round : Round ks r ws r') (apart : ∀ kind ∈ kinds, kind ∉ ks) :
    Spares kinds r r' where
  plan := round.works.keeps.plan
  tick := round.works.keeps.tick
  phase := by
    intro kind known i isKind
    rw [phase, round.foreign isKind (apart kind known), phase]

theorem Sweep.spares (sweep : Sweep r ps r') : Spares kinds r r' :=
  ⟨sweep.works.keeps.plan, sweep.works.keeps.tick, fun _ _ i _ => sweep.phase i⟩

theorem Spares.running (spares : Spares kinds r r') (indexed : r.plan.Indexed) (known : kind ∈ kinds) :
    r'.running kind = r.running kind := by
  rw [Run.running, Run.running, spares.plan]
  refine List.filter_congr fun i member => ?_
  rw [spares.phase kind known i ((Plan.mem_ofKind indexed).mp member)]

end Run

def Tables.flowed (t : Tables) (r : Run) : Run :=
  (Flow.update t.arrivals (t.moved.update r.beginTick).2).2

theorem Tables.flowed_spares (t : Tables) {r : Run} (indexed : r.plan.Indexed)
    (apart : ∀ kind ∈ kinds, kind ∉ [Action.startKind, Action.fanoutKind, Action.joinKind,
      Action.endKind]) : r.arrived.Spares kinds (t.flowed r) := by
  obtain ⟨moved, moves⟩ := Delivery.update_run t.moved r
  obtain ⟨ps, sweep⟩ := Delivery.propagateAll_sweep moved r.arrived.releaseDeferred
  rw [← moves] at sweep
  have indexed : (t.moved.update r.beginTick).2.plan.Indexed := by
    rw [sweep.works.keeps.plan]
    exact r.arrived_plan ▸ indexed
  obtain ⟨_, flow⟩ := flow_passes t indexed
  have released : r.arrived.Spares kinds r.arrived.releaseDeferred := ⟨rfl, rfl, fun _ _ _ _ => rfl⟩
  exact (released.trans sweep.spares).trans (flow.toRound.spares apart)

theorem Tables.flowed_indexed (t : Tables) {r : Run} (indexed : r.plan.Indexed) :
    (t.flowed r).plan.Indexed := by
  have spares : r.arrived.Spares [] (t.flowed r) := t.flowed_spares indexed (List.forall_mem_nil _)
  rw [spares.plan]
  exact r.arrived_plan ▸ indexed

theorem Tables.written_spares (t : Tables) {r : Run} (indexed : r.plan.Indexed)
    (apart : ∀ kind ∈ kinds, kind ∉ [Action.startKind, Action.fanoutKind, Action.joinKind,
      Action.endKind, Delay.kind, Assign.kind]) : r.arrived.Spares kinds (t.written r) := by
  have flowed : r.arrived.Spares kinds (t.flowed r) := t.flowed_spares indexed fun kind known flows =>
    apart kind known (List.mem_append_left [Delay.kind, Assign.kind] flows)
  have indexed := t.flowed_indexed indexed
  obtain ⟨_, delay, _⟩ := Delay.update_round t.delays indexed
  have indexed := delay.works.indexed indexed
  obtain ⟨_, assign⟩ := Assign.update_round t.writes indexed
  have rounds := delay.append assign (by decide)
  exact flowed.trans (rounds.spares fun kind known writes => apart kind known
    (List.mem_append_right [Action.startKind, Action.fanoutKind, Action.joinKind, Action.endKind] writes))

def Tables.atHost (t : Tables) (r : Run) : Run :=
  let r := (t.moved.update r.beginTick).2
  let r := (Flow.update t.arrivals r).2
  let r := (Delay.update t.delays r).2
  let r := (Assign.update t.writes r).2
  let r := (Filter.update t.outcomes r).2
  (Trigger.update t.fires r).2

theorem Tables.atHost_spares (t : Tables) {r : Run} (indexed : r.plan.Indexed) :
    r.arrived.Spares hostKinds (t.atHost r) := by
  have written : r.arrived.Spares hostKinds (t.written r) := t.written_spares indexed (by decide)
  have indexed : (t.written r).plan.Indexed := by
    rw [written.plan]
    exact r.arrived_plan ▸ indexed
  obtain ⟨_, filter, _⟩ := Filter.update_round t.outcomes indexed
  have indexed := filter.works.indexed indexed
  obtain ⟨_, trigger, _⟩ := Trigger.update_round t.fires indexed
  exact (written.trans (filter.spares (by decide))).trans (trigger.spares (by decide))

theorem Tables.atHost_indexed (t : Tables) {r : Run} (indexed : r.plan.Indexed) :
    (t.atHost r).plan.Indexed := by
  rw [(t.atHost_spares indexed).plan]
  exact r.arrived_plan ▸ indexed

theorem Engine.pass_host {host : Host} (sink : host.log = true) (spawned : Tally) (shown : Nat)
    {r : Run} (indexed : r.plan.Indexed) : ∃ stages r' sent,
    Engine.pass host [.spawn spawned, .warning shown, .log] r = (stages, r', sent) ∧
    sent = (hostKinds.flatMap fun kind =>
      (r.running kind).flatMap (r.plan.graph.handsAt host r.tick r'.board)) ∧
    ∀ i ∈ r.running Spawn.kind, ∀ a, r.plan.action? i = some a →
      r'.board.get? (Spawn.entryKey r.plan i) = some (.int (Int64.ofNat (a.accepts host))) := by
  simp only [Engine.pass, update_spawn, update_warning, update_log]
  obtain ⟨_, spawn⟩ := Spawn.update_round host spawned indexed
  have spare : r.Spares [Warning.kind, Log.kind] _ := spawn.spares (by decide)
  have hands := Spawn.update_hands host spawned indexed
  generalize Spawn.update host spawned r = out at spawn spare hands
  obtain ⟨spawned', crated, first⟩ := out
  have indexed' := spawn.works.indexed indexed
  obtain ⟨_, warning⟩ := Warning.update_round host shown indexed'
  have spare' : crated.Spares [Log.kind] _ := warning.spares (by decide)
  have hands' := Warning.update_hands host shown indexed'
  dsimp only at spare indexed' ⊢
  generalize Warning.update host shown crated = out' at warning spare' hands' ⊢
  obtain ⟨shown', warned, second⟩ := out'
  have hands'' := Log.update_hands sink (warning.works.indexed indexed') r.tick
  generalize Log.update host warned = out'' at hands'' ⊢
  obtain ⟨logged, third⟩ := out''
  dsimp only at hands spare' hands' hands'' ⊢
  obtain ⟨⟨plan', _, board'⟩, _⟩ := hands' r.board
  obtain ⟨board'', lines⟩ := hands''
  refine ⟨_, logged, _, rfl, ?_, ?_⟩
  · have requests := (hands logged.board).2.1
    have warnings := (hands' logged.board).2
    rw [spare.plan, spare.tick, spare.running indexed (by simp)] at warnings
    rw [plan', spare.plan, spare'.running indexed' (by simp), spare.running indexed (by simp),
      ← board''] at lines
    simp [hostKinds, requests, warnings, lines]
  · rw [board'', board']
    exact (hands r.board).2.2

theorem Engine.pass_atHost (host : Host) (t : Tables) (r : Run) :
    (Engine.pass host t.stages r.beginTick).2 =
      (Engine.pass host [.spawn t.spawned, .warning t.shown, .log] (t.atHost r)).2 := by
  simp only [Tables.stages, pass_cons, update_delivery, update_flow, update_delay, update_assign,
    update_filter, update_trigger, List.nil_append, Tables.atHost]

theorem Engine.pass_hands {host : Host} (sink : host.log = true) (t : Tables) {r : Run}
    (indexed : r.plan.Indexed) : ∃ r' sent,
    (Engine.pass host t.stages r.beginTick).2 = (r', sent) ∧
    sent = (hostKinds.flatMap fun kind =>
      (r.arrived.running kind).flatMap (r.plan.graph.handsAt host (r.tick + 1) r'.board)) ∧
    ∀ i ∈ r.arrived.running Spawn.kind, ∀ a, r.plan.action? i = some a →
      r'.board.get? (Spawn.entryKey r.plan i) = some (.int (Int64.ofNat (a.accepts host))) := by
  have here : r.arrived.plan.Indexed := r.arrived_plan ▸ indexed
  have spares := t.atHost_spares indexed
  obtain ⟨stages, r', sent, passes, hands, entries⟩ :=
    pass_host sink t.spawned t.shown (t.atHost_indexed indexed)
  have plan : (t.atHost r).plan = r.plan := spares.plan.trans r.arrived_plan
  have tick : (t.atHost r).tick = r.tick + 1 := spares.tick.trans r.arrived_tick
  have running : ∀ kind ∈ hostKinds, (t.atHost r).running kind = r.arrived.running kind :=
    fun kind known => spares.running here known
  rw [plan, running _ (by decide)] at entries
  refine ⟨r', sent, ?_, ?_, entries⟩
  · rw [pass_atHost, passes]
  · rw [hands, plan, tick]
    exact List.flatMap_congr fun kind known => by rw [running kind known]

end ActionGraph
