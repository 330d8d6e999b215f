import ActionGraph.Proofs.Handover
import ActionGraph.Proofs.Safety
import ActionGraph.Proofs.Throughout
-- Who activated an action. Deliveries record their source under a key that is reserved for it, but
-- the blackboard has one space of keys: a value that an action leaves when it completes can land on
-- the reserved entry. The entry names the source of the last delivery as long as none did since.
namespace ActionGraph

def Action.writes? (a : Action) : Option String :=
  if a.kind = Spawn.kind then some (Blackboard.scopedKey a.id "spawned")
  else if a.kind = Assign.kind then
    let name := a.reading Value.text? "key" ""
    if name.isEmpty || (a.properties.get? "value").isNone then none
    else some (if a.reading Value.bool? "global" false then name else Blackboard.scopedKey a.id name)
  else none

def Turn.Writes (turn : Turn) (g : Graph) (key : String) : Prop :=
  ∃ i a, g.actions[i]? = some a ∧ a.writes? = some key ∧ turn.completes i = true

theorem Turn.not_writes {g : Graph} {key : String} (none : ∀ a ∈ g.actions, a.writes? ≠ some key)
    (turn : Turn) : ¬turn.Writes g key := by
  rintro ⟨i, a, there, writes, _⟩
  exact none a (List.mem_of_getElem? there) writes

def deliveredIn (turns : List Turn) (i : Nat) : List Pulse :=
  turns.flatMap fun turn => turn.after.deliveredTo i

theorem deliveredIn_append (turns later : List Turn) (i : Nat) :
    deliveredIn (turns ++ later) i = deliveredIn turns i ++ deliveredIn later i :=
  List.flatMap_append

theorem Blackboard.activationKey_inj {a b : String} : activationKey a = activationKey b ↔ a = b := by
  simp [activationKey, String.ext_iff]

theorem foldl_entry (run : σ → Run) {f : σ → Nat → σ} {l : List Nat} {key : String}
    (step : ∀ s i, (run s).plan = p → i ∈ l → (run (f s i)).plan = p ∧
      (run (f s i)).board.get? key = (run s).board.get? key) {s : σ} (start : (run s).plan = p) :
    (run (l.foldl f s)).board.get? key = (run s).board.get? key := by
  obtain ⟨_, same⟩ := foldl_view (g := fun entry _ => entry) (fun s => (run s).board.get? key) step start
  rw [same, List.foldl_fixed]

namespace Assign

theorem write_entry (n : Nat) {r : Run} (there : r.plan.action? i = some a) (isAssign : a.kind = kind)
    (other : a.writes? ≠ some key) :
    (write (n, r) i (a.reading Value.text? "key" "") (a.reading Value.bool? "global" false)).2.board.get?
      key = r.board.get? key := by
  have noSpawn : a.kind ≠ Spawn.kind := by rw [isAssign]; decide
  have value : r.plan.property? i "value" = a.properties.get? "value" := by
    rw [Plan.property?, there, Option.bind_some]
  rw [Action.writes?, if_neg noSpawn, if_pos isAssign] at other
  simp only [write, value]
  split
  · rfl
  · next named =>
    split
    · rfl
    · next v found =>
      simp only [found, Option.isNone_some, Bool.or_false, if_neg named, ne_eq, Option.some.injEq] at other
      simp only [Run.onBoard, Keyed.get?_insert, Plan.actionId_eq there]
      exact if_neg other

theorem updateOne_board {s : Nat × Run} (there : s.2.plan.action? i = some a) :
    ∃ r : Run, r.plan = s.2.plan ∧ r.board = s.2.board ∧ (updateOne s i).2.board =
      (write (s.1, r) i (a.reading Value.text? "key" "")
        (a.reading Value.bool? "global" false)).2.board := by
  obtain ⟨n, r⟩ := s
  obtain ⟨log, named⟩ := (r.takeFresh i).1.requireProperty_parts Value.text? i "key" ""
  obtain ⟨log', plain⟩ := ((r.takeFresh i).1.withLog log).propertyOr_parts Value.bool? i "global" false
  have plan : (r.takeFresh i).1.plan = r.plan := rfl
  have upon : ((r.takeFresh i).1.withLog log).plan = r.plan := rfl
  rw [plan, Plan.reading_eq there] at named
  rw [upon, Plan.reading_eq there] at plain
  refine ⟨((r.takeFresh i).1.withLog log).withLog log', rfl, rfl, ?_⟩
  have kept := fun (r : Run) => r.setPhase_board i .completed
  simp only [Prod.mk.injEq] at kept
  simp only [updateOne, named, plain, Run.complete, (kept _).2.2]

theorem updateOne_entry {s : Nat × Run} (there : s.2.plan.action? i = some a) (isAssign : a.kind = kind)
    (other : a.writes? ≠ some key) : (updateOne s i).2.plan = s.2.plan ∧
      (updateOne s i).2.board.get? key = s.2.board.get? key := by
  obtain ⟨r, plan, board, wrote⟩ := updateOne_board there
  refine ⟨(updateOne_steps s i).plan, ?_⟩
  rw [wrote, write_entry s.1 (plan ▸ there) isAssign other, board]

theorem update_entry (writes : Nat) {r : Run} (indexed : r.plan.Indexed)
    (others : ∀ i ∈ r.running kind, ∀ a, r.plan.action? i = some a → a.writes? ≠ some key) :
    (update writes r).2.board.get? key = r.board.get? key := by
  refine foldl_entry Prod.snd (s := (writes, r)) (fun s i same member => ?_) rfl
  obtain ⟨a, there, isAssign⟩ := Run.running_action indexed member
  obtain ⟨plan, entry⟩ := updateOne_entry (same ▸ there) isAssign (others i member a there)
  exact ⟨plan.trans same, entry⟩

end Assign

namespace Spawn

theorem update_entry (host : Host) (spawned : Tally) {r : Run} (indexed : r.plan.Indexed)
    (others : ∀ i ∈ r.running kind, ∀ a, r.plan.action? i = some a → a.writes? ≠ some key) :
    (update host spawned r).2.1.board.get? key = r.board.get? key := by
  refine foldl_entry (fun s : Tally × Run × List Effect => s.2.1) (s := (spawned, r, []))
    (fun s i same member => ?_) rfl
  obtain ⟨a, there, isSpawn⟩ := Run.running_action indexed member
  obtain ⟨plan, _, entry, _⟩ := updateOne_hands host (same ▸ there) isSpawn s.2.1.board
  have other := others i member a there
  rw [Action.writes?, if_pos isSpawn, ne_eq, Option.some.injEq] at other
  rw [entry, Keyed.get?_insert, entryKey, same, Plan.actionId_eq there, if_neg other]
  exact ⟨plan.trans same, rfl⟩

end Spawn

namespace Run

theorem Works.board_calm (works : Works r ws r') (calm : ∀ w ∈ ws, w.deed ≠ .finish) :
    r'.board = r.board := by
  induction works with
  | nil => rfl
  | cons _ _ done _ ih =>
    rw [ih fun w member => calm w (List.mem_cons_of_mem _ member)]
    exact done.board (calm _ List.mem_cons_self)

theorem Round.board_calm (round : Round kinds r ws r') (loud : ∀ kind ∈ kinds, kind ∉ quietKinds) :
    r'.board = r.board := by
  refine round.works.board_calm fun w member finishes => ?_
  obtain ⟨kind, known, isKind, _⟩ := (round.acts w.action).mp (List.mem_map_of_mem member)
  have suits := round.suits w member kind isKind
  rw [finishes] at suits
  exact loud kind known suits

theorem Round.completes (round : Round [kind] r ws r') (known : kind ∈ quietKinds)
    (indexed : r.plan.Indexed) (member : i ∈ r.running kind) : r'.phase i = .completed := by
  obtain ⟨isOne, running⟩ := List.mem_filter.mp member
  have isKind := (Plan.mem_ofKind indexed).mp isOne
  obtain ⟨w, inside, rfl⟩ := List.mem_map.mp
    ((round.acts i).mpr ⟨kind, List.mem_singleton_self _, isKind, .inl (of_decide_eq_true running)⟩)
  obtain ⟨s, _, _, _, after⟩ := round.works.single round.once inside
  rw [phase_of after, (round.suits w inside kind isKind).finish known, Deed.settle, Status.enter_phase]

def Unwritten (key : String) (r r' : Run) : Prop :=
  ∀ i a, r.plan.action? i = some a → a.writes? = some key → r'.phase i = .completed →
    r.phase i = .completed

theorem Unwritten.others (unwritten : Unwritten key r r') (round : Round [kind] r ws r')
    (known : kind ∈ quietKinds) (indexed : r.plan.Indexed) :
    ∀ i ∈ r.running kind, ∀ a, r.plan.action? i = some a → a.writes? ≠ some key := by
  intro i member a there writes
  have running : r.phase i = .running := of_decide_eq_true (List.mem_filter.mp member).2
  rw [unwritten i a there writes (round.completes known indexed member)] at running
  cases running

theorem Unwritten.split (unwritten : Unwritten key a c) (ab : a.Steps b) (bc : b.Steps c) :
    Unwritten key a b ∧ Unwritten key b c := by
  constructor
  · intro i action there writes completed
    exact unwritten i action there writes (by rw [bc.final (by rw [completed]; rfl), completed])
  · intro i action there writes completed
    have before := unwritten i action (ab.plan ▸ there) writes completed
    rw [ab.final (by rw [before]; rfl), before]

end Run

theorem Stage.update_entry (host : Host) {s : Stage} {r : Run} (indexed : r.plan.Indexed)
    (own : s.isScript = false) (drives : s.isDelivery = false)
    (unwritten : r.Unwritten key (s.update host r).2.1) :
    (s.update host r).2.1.board.get? key = r.board.get? key := by
  cases s with
  | delivery => cases drives
  | script => cases own
  | flow t =>
    obtain ⟨_, passes⟩ := flow_passes { arrivals := t } indexed
    exact congrArg (·.get? key) (passes.toRound.board_calm (by decide))
  | delay n =>
    obtain ⟨_, round, _⟩ := Delay.update_round n indexed
    exact congrArg (·.get? key) (round.board_calm (by decide))
  | filter t =>
    obtain ⟨_, round, _⟩ := Filter.update_round t indexed
    exact congrArg (·.get? key) (round.board_calm (by decide))
  | trigger t =>
    obtain ⟨_, round, _⟩ := Trigger.update_round t indexed
    exact congrArg (·.get? key) (round.board_calm (by decide))
  | assign n =>
    obtain ⟨_, round⟩ := Assign.update_round n indexed
    exact Assign.update_entry n indexed (unwritten.others round (by decide) indexed)
  | spawn t =>
    obtain ⟨_, round⟩ := Spawn.update_round host t indexed
    exact Spawn.update_entry host t indexed (unwritten.others round (by decide) indexed)
  | warning n =>
    obtain ⟨⟨_, _, board⟩, _⟩ := Warning.update_hands host n indexed r.board
    exact congrArg (·.get? key) board
  | log =>
    have sink : host.listening.log = true := rfl
    obtain ⟨board, _⟩ := Log.update_hands sink indexed r.tick
    rw [update_log, Log.update_listening, board]

theorem Engine.pass_entry (host : Host) {stages : List Stage} {r : Run} (indexed : r.plan.Indexed)
    (driven : ∀ s ∈ stages, s.isScript = false ∧ s.isDelivery = false)
    (unwritten : r.Unwritten key (pass host stages r).2.1) :
    (pass host stages r).2.1.board.get? key = r.board.get? key := by
  induction stages generalizing r with
  | nil => rfl
  | cons s rest ih =>
    have plain : ∀ s' ∈ s :: rest, s'.Plain := fun s' member => by
      cases s' with
      | script => cases (driven _ member).1
      | _ => trivial
    obtain ⟨own, drives⟩ := driven s List.mem_cons_self
    have first := Stage.update_steps host r (plain s List.mem_cons_self)
    have later := pass_steps host (s.update host r).2.1 fun s' member =>
      plain s' (List.mem_cons_of_mem _ member)
    rw [pass_cons] at unwritten ⊢
    obtain ⟨early, late⟩ := unwritten.split first later
    rw [ih (first.plan ▸ indexed) (fun s' member => driven s' (List.mem_cons_of_mem _ member)) late,
      Stage.update_entry host indexed own drives early]

-- What the deliveries of some pulses to one action leave on its entry: each overwrites the one before.
def Plan.credit (p : Plan) (pulses : List Pulse) : Option Value :=
  pulses.getLast?.map fun q => .text (p.actionId q.source)

theorem Plan.credit_append (p : Plan) (early late : List Pulse) :
    p.credit (early ++ late) = (p.credit late).or (p.credit early) := by
  rw [credit, List.getLast?_append, Option.map_or]
  rfl

section Deliveries
variable {r : Run} (indexed : r.plan.Indexed)
  (sound : ∀ q, r.accepts q = true → (r.plan.action? q.target).isSome)
  (there : r.plan.action? i = some a)
include indexed sound there

theorem Run.deliver_entry (q : Pulse) : (r.deliver q).1.board.get? (Blackboard.activationKey a.id) =
    (r.plan.credit ([q].filter fun q => q.target = i && r.accepts q)).or
      (r.board.get? (Blackboard.activationKey a.id)) := by
  cases taken : r.accepts q with
  | false =>
    have same : (r.deliver q).1 = r := by
      cases found : r.statuses[q.target]? with
      | none => simp only [deliver, found]
      | some s =>
        have final : s.phase.isTerminal = true := by simpa [accepts, found] using taken
        simp only [deliver, found, final, if_true]
    simp [same, taken, Plan.credit]
  | true =>
    obtain ⟨b, target⟩ := Option.isSome_iff_exists.mp (sound q taken)
    obtain ⟨s, found, left⟩ := (Option.any_eq_true ..).mp taken
    have here : a.id = b.id ↔ q.target = i :=
      ⟨fun same => Plan.same_position indexed target there same.symm, by
        rintro rfl
        rw [there, Option.some.injEq] at target
        rw [target]⟩
    simp only [Bool.not_eq_true'] at left
    simp only [deliver, found, left, Bool.false_eq_true, if_false, Blackboard.recordActivation,
      Keyed.get?_insert, Blackboard.activationKey_inj, Plan.actionId_eq target, eq_comm (a := b.id), here]
    split
    · next same => simp [same, taken, Plan.credit]
    · next differ => simp [differ, Plan.credit]

theorem Run.deliver_entries (ps : List Pulse) :
    (ps.foldl (fun r q => (r.deliver q).1) r).board.get? (Blackboard.activationKey a.id) =
      (r.plan.credit (ps.filter fun q => q.target = i && r.accepts q)).or
        (r.board.get? (Blackboard.activationKey a.id)) := by
  induction ps generalizing r with
  | nil => rfl
  | cons q rest ih =>
    have first := r.deliver_delivers q
    have entry := deliver_entry indexed sound there q
    rw [List.foldl_cons, ih (first.plan ▸ indexed) (by rw [first.plan, first.accepts]; exact sound)
      (first.plan ▸ there), entry, first.plan, first.accepts, ← Option.or_assoc, ← Plan.credit_append,
      ← List.filter_append]
    rfl

theorem Run.arrived_entry : r.arrived.board.get? (Blackboard.activationKey a.id) =
    (r.plan.credit (r.arrived.deliveredTo i)).or
      (r.board.get? (Blackboard.activationKey a.id)) := by
  rw [deliveredTo, arrived_delivered, List.filter_filter, arrived, Delivery.deliverAll_run]
  exact deliver_entries (r := { r.beginTick with pending := [], delivered := [] }) indexed sound there _

end Deliveries

namespace Reached

theorem sound (reached : Reached g script t r turns) (q : Pulse) (taken : r.accepts q = true) :
    (r.plan.action? q.target).isSome := by
  obtain ⟨s, found, _⟩ := (Option.any_eq_true ..).mp taken
  have inside := (List.getElem?_eq_some_iff.mp found).1
  rw [reached.size] at inside
  simp [Plan.action?, reached.graph, inside]

theorem sender (reached : Reached g script t r turns) (member : q ∈ r.pending) :
    ∃ b, g.actions[q.source]? = some b := by
  induction reached using Reached.induct with
  | opened => cases member
  | heeded _ _ r _ s _ _ ih => exact ih ((r.heed_heeds s).pending ▸ member)
  | ticked _ _ _ _ _ _ _ _ prior ticks =>
    have account := (prior.ticked ticks).account q
    have some := List.count_pos_iff.mpr member
    rw [sentIn_append] at account
    have edges : 0 < g.multiplicity q := by
      apply Nat.pos_of_ne_zero
      intro none
      rw [none, Nat.mul_zero] at account
      dsimp only at account
      omega
    obtain ⟨e, _, joins⟩ := List.countP_pos_iff.mp edges
    simp only [decide_eq_true_eq, Option.map_eq_some_iff] at joins
    obtain ⟨⟨b, there, _⟩, _⟩ := joins
    exact ⟨b, there⟩

theorem deliverer (reached : Reached g script t r turns) (member : q ∈ deliveredIn turns i) :
    ∃ b, g.actions[q.source]? = some b := by
  induction reached using Reached.induct with
  | opened => cases member
  | heeded _ _ _ _ _ _ _ ih => exact ih member
  | ticked _ _ _ _ _ _ _ _ prior ticks ih =>
    rw [deliveredIn_append] at member
    rcases List.mem_append.mp member with early | last
    · exact ih early
    · obtain ⟨turn, one, here⟩ := List.mem_flatMap.mp last
      cases List.mem_singleton.mp one
      have arrived := (List.mem_filter.mp here).1
      rw [ticks.delivered] at arrived
      exact prior.sender (List.mem_filter.mp arrived).1

end Reached

theorem Run.endTick_board (r : Run) : r.endTick.board = r.board := rfl

def Tables.driven (t : Tables) : List Stage :=
  [.flow t.arrivals, .delay t.delays, .assign t.writes, .filter t.outcomes, .trigger t.fires,
    .spawn t.spawned, .warning t.shown, .log]

theorem Tables.stages_eq (t : Tables) : t.stages = .delivery t.moved :: t.driven := rfl

theorem Delivery.update_board (t : Delivery) (r : Run) :
    (t.update r.beginTick).2.board = r.arrived.board := by
  obtain ⟨moved, moves⟩ := update_run t r
  obtain ⟨_, sweep⟩ := propagateAll_sweep moved r.arrived.releaseDeferred
  rw [moves]
  refine sweep.works.board_calm fun w member finishes => ?_
  rw [sweep.deeds w member] at finishes
  cases finishes

theorem Reached.unwritten (reached : Reached g script t r turns)
    (none : ¬(⟨r, r'⟩ : Turn).Writes g key) : r.Unwritten key r' := by
  intro i a there writes completed
  apply Classical.byContradiction
  intro fresh
  rw [Plan.action?, reached.graph] at there
  exact none ⟨i, a, there, writes, by simp [Turn.completes, fresh, completed]⟩

theorem Engine.Shows.tick_unwritten {e : Engine} (shows : e.Shows t r) (indexed : r.plan.Indexed)
    (step : e.tick = .ok e') (shows' : e'.Shows t' r') (unwritten : r.Unwritten key r') :
    r'.board.get? key = r.arrived.board.get? key := by
  have board := t.moved.update_board r
  have early : r.beginTick.Steps (t.moved.update r.beginTick).2 :=
    Stage.update_steps e.host r.beginTick (s := .delivery t.moved) trivial
  have passes : (pass e.host e.stages r.beginTick).2.1 =
      (pass e.host t.driven (t.moved.update r.beginTick).2).2.1 := by
    rw [shows.stages, t.stages_eq, pass_cons, update_delivery]
  obtain ⟨_, _, loaded, rfl⟩ := tick_parts step
  cases shows.run.symm.trans loaded
  have last : r' = (pass e.host e.stages r.beginTick).2.1.endTick := (Option.some.inj shows'.run).symm
  rw [passes] at last
  generalize (t.moved.update r.beginTick).2 = mid at board early last
  have driven : ∀ s ∈ t.driven, s.isScript = false ∧ s.isDelivery = false := by
    simp [Tables.driven, Stage.isScript, Stage.isDelivery]
  have plain : ∀ s ∈ t.driven, s.Plain := by simp [Tables.driven, Stage.Plain]
  have within : r.beginTick.Unwritten key (pass e.host t.driven mid).2.1 := by
    intro j b found writes completed
    refine unwritten j b found writes ?_
    rw [last, Run.endTick_phase, completed]
  have entry := pass_entry e.host (early.plan ▸ indexed) driven
    (within.split early (pass_steps e.host mid plain)).2
  rw [← board, ← entry, last, Run.endTick_board]

theorem Engine.Shows.tick_entry {e : Engine} (shows : e.Shows t r) (reached : Reached g script t r turns)
    (there : g.actions[i]? = some a) (step : e.tick = .ok e') (shows' : e'.Shows t' r')
    (ticks : r.Ticks t ps ws t' r')
    (none : ¬(⟨r, r'⟩ : Turn).Writes g (Blackboard.activationKey a.id)) :
    r'.board.get? (Blackboard.activationKey a.id) =
      (r.plan.credit (r'.deliveredTo i)).or (r.board.get? (Blackboard.activationKey a.id)) := by
  have here : r.plan.action? i = some a := by rw [Plan.action?, reached.graph, there]
  rw [← ticks.arrived_deliveredTo, ← Run.arrived_entry reached.indexed reached.sound here]
  exact shows.tick_unwritten reached.indexed step shows' (reached.unwritten none)

theorem Run.heed_entry {r : Run} {s : Signal} (alone : ∀ request, s = .board request →
    (r.board.access request).1.get? key = r.board.get? key) :
    (r.heed s).board.get? key = r.board.get? key := by
  cases s with
  | board request => exact alone request rfl
  | cancel id =>
    cases found : r.plan.indexOf? id with
    | none => simp only [heed, found]
    | some i =>
      have kept := r.setPhase_board i .cancelled
      simp only [Prod.mk.injEq] at kept
      simp only [heed, found, cancel]
      split
      · rfl
      · rw [kept.2.2]
  | _ => rfl

-- What an entry says of the turns so far, as long as no write to it came in between.
structure Credits (g : Graph) (key : String) (i : Nat) (turns : List Turn) (r : Run) : Prop where
  untouched : deliveredIn turns i = [] → (∀ turn ∈ turns, ¬turn.Writes g key) →
    r.board.get? key = g.board.get? key
  credited : ∀ earlier turn later q, turns = earlier ++ turn :: later → deliveredIn later i = [] →
    (turn.after.deliveredTo i).getLast? = some q → (∀ late ∈ turn :: later, ¬late.Writes g key) →
    r.board.get? key = some (.text (r.plan.actionId q.source))

namespace Credits

theorem kept (credits : Credits g key i turns r) (plan : r'.plan = r.plan)
    (entry : r'.board.get? key = r.board.get? key) : Credits g key i turns r' where
  untouched := by rw [entry]; exact credits.untouched
  credited := by rw [entry, plan]; exact credits.credited

theorem ticked (credits : Credits g key i turns r) (plan : r'.plan = r.plan)
    (entry : ¬(⟨r, r'⟩ : Turn).Writes g key → r'.board.get? key =
      (r.plan.credit (r'.deliveredTo i)).or (r.board.get? key)) :
    Credits g key i (turns ++ [⟨r, r'⟩]) r' where
  untouched := by
    intro none calm
    rw [deliveredIn_append, List.append_eq_nil_iff] at none
    have idle : r'.deliveredTo i = [] := by simpa [deliveredIn] using none.2
    rw [entry (calm _ (by simp)), idle]
    exact credits.untouched none.1 fun turn member => calm turn (List.mem_append_left _ member)
  credited := by
    intro earlier turn later q all none found calm
    rcases List.eq_nil_or_concat later with rfl | ⟨rest, last, rfl⟩
    · obtain ⟨rfl, same⟩ := List.append_inj' all rfl
      cases same
      rw [entry (calm _ (by simp)), Plan.credit, found, plan]
      rfl
    · rw [List.concat_eq_append] at all none calm
      rw [← List.cons_append, ← List.append_assoc] at all
      obtain ⟨before, same⟩ := List.append_inj' all rfl
      cases same
      rw [deliveredIn_append, List.append_eq_nil_iff] at none
      have idle : r'.deliveredTo i = [] := by simpa [deliveredIn] using none.2
      rw [entry (calm _ (by simp)), idle, plan]
      exact credits.credited earlier turn rest q before none.1 found fun late member =>
        calm late (by simpa using Or.imp_right .inl (List.mem_cons.mp member))

end Credits

def scribing (key : String) : Graph where
  actions := [⟨"start", Action.startKind, ∅, ∅⟩, ⟨"scribe", Assign.kind,
    (((∅ : Keyed Value).insert "key" (.text key)).insert "value" (.text "nobody")).insert "global"
      (.bool true), ∅⟩, ⟨"end", Action.endKind, ∅, ∅⟩]
  edges := [⟨"start", "scribe", "out", "in", none⟩, ⟨"scribe", "end", "out", "in", none⟩]

namespace Chronicle

-- The host's requests leave the entry under the key as they find it.
def LeavesAlone (c : Chronicle) (key : String) (script : List Signal) : Prop :=
  ∀ before request after mid r, script = before ++ .board request :: after →
    c.play before = .ok mid → mid.engine.run = some r →
    (r.board.access request).1.get? key = r.board.get? key

theorem LeavesAlone.of_requests {script : List Signal} {key : String} (c : Chronicle)
    (each : ∀ request, .board request ∈ script → ∀ board : Blackboard,
      (board.access request).1.get? key = board.get? key) : c.LeavesAlone key script := by
  rintro before request after _ r rfl _ _
  exact each request (by simp) r.board

theorem LeavesAlone.early {c : Chronicle} (alone : c.LeavesAlone key (script ++ [s])) :
    c.LeavesAlone key script :=
  fun before request after mid r all => alone before request (after ++ [s]) mid r (by rw [all]; simp)

theorem play_credits (opens : Opens g e) (there : g.actions[i]? = some a)
    (played : (⟨e, []⟩ : Chronicle).play script = .ok c)
    (alone : (⟨e, []⟩ : Chronicle).LeavesAlone (Blackboard.activationKey a.id) script) :
    ∀ r, c.engine.run = some r → Credits g (Blackboard.activationKey a.id) i c.turns r := by
  refine play_induct (motive := fun script c =>
    (⟨e, []⟩ : Chronicle).LeavesAlone (Blackboard.activationKey a.id) script → ∀ r,
      c.engine.run = some r → Credits g (Blackboard.activationKey a.id) i c.turns r)
    opens ?_ ?_ ?_ played alone
  · intro _ r loaded
    obtain ⟨p, log, planned, _, opened, _⟩ := opens.parts
    obtain ⟨_, _, graph, _⟩ := Plan.ofGraph_parts planned
    cases loaded.symm.trans opened
    refine ⟨fun _ _ => ?_, fun earlier turn later q all => ?_⟩
    · rw [← graph]; rfl
    · simp at all
  · intro script c t r s e' plays shows quiet step shows' before alone r' loaded
    cases shows'.run.symm.trans loaded
    refine (before alone.early r shows.run).kept (r.heed_heeds s).plan (Run.heed_entry ?_)
    rintro request rfl
    exact alone script request [] c r rfl plays shows.run
  · intro script c t r ps ws t' r' e' plays shows reached step shows' ticks before alone r'' loaded
    cases shows'.run.symm.trans loaded
    exact (before alone.early r shows.run).ticked ticks.plan
      (shows.tick_entry reached there step shows' ticks)

-- Where an action is the target of no pulse its entry is not there, and else it names the source of
-- the last one, as long as the host leaves the entry alone and no tick since that delivery completed
-- an action that writes there.
theorem activation_recorded (opens : Opens g e) (script : List Signal) (i : Nat) (a : Action)
    (there : g.actions[i]? = some a)
    (blank : g.board.get? (Blackboard.activationKey a.id) = none)
    (alone : (⟨e, []⟩ : Chronicle).LeavesAlone (Blackboard.activationKey a.id) script) :
    ∃ c r, (⟨e, []⟩ : Chronicle).play script = .ok c ∧ c.engine.run = some r ∧
      (deliveredIn c.turns i = [] →
        (∀ turn ∈ c.turns, ¬turn.Writes g (Blackboard.activationKey a.id)) →
        r.board.activatedBy? a.id = none) ∧
      ∀ earlier turn later q, c.turns = earlier ++ turn :: later → deliveredIn later i = [] →
        (turn.after.deliveredTo i).getLast? = some q →
        (∀ late ∈ turn :: later, ¬late.Writes g (Blackboard.activationKey a.id)) →
        ∃ source, g.actions[q.source]? = some source ∧
          r.board.activatedBy? a.id = some source.id := by
  obtain ⟨c, t, r, played, shows, reached⟩ := play_reached opens script
  obtain ⟨untouched, credited⟩ := play_credits opens there played alone r shows.run
  refine ⟨c, r, played, shows.run, fun none calm => ?_, fun earlier turn later q all none found calm => ?_⟩
  · rw [Blackboard.activatedBy?, untouched none calm, blank]
    rfl
  · have delivered : q ∈ deliveredIn c.turns i :=
      List.mem_flatMap.mpr ⟨turn, by simp [all], List.mem_of_getLast? found⟩
    obtain ⟨source, sends⟩ := reached.deliverer delivered
    have here : r.plan.action? q.source = some source := by rw [Plan.action?, reached.graph, sends]
    refine ⟨source, sends, ?_⟩
    rw [Blackboard.activatedBy?, credited earlier turn later q all none found calm,
      Plan.actionId_eq here]
    rfl

theorem scribing_activation_recorded : ∃ c r,
    (⟨(relayEngine.load (scribing "mood")).1, []⟩ : Chronicle).play
      [.tick, .tick, .board (.set "seen" (.bool true)), .tick, .tick] = .ok c ∧
    c.engine.run = some r ∧ r.board.activatedBy? "end" = some "scribe" := by
  obtain ⟨c, r, played, loaded, _, credited⟩ := activation_recorded (g := scribing "mood")
    (e := (relayEngine.load (scribing "mood")).1) (.load relayEngine rfl rfl)
    [.tick, .tick, .board (.set "seen" (.bool true)), .tick, .tick] 2 ⟨"end", Action.endKind, ∅, ∅⟩
    rfl rfl (.of_requests _ fun request member board => by
      simp only [List.mem_cons, reduceCtorEq, false_or, Signal.board.injEq, List.not_mem_nil,
        or_false] at member
      rw [member]
      exact (Keyed.get?_insert ..).trans (if_neg (by decide)))
  obtain ⟨c', plays, earlier, turn, all, found⟩ : ∃ c', (⟨(relayEngine.load (scribing "mood")).1, []⟩ :
      Chronicle).play [.tick, .tick, .board (.set "seen" (.bool true)), .tick, .tick] = .ok c' ∧
      ∃ earlier turn, c'.turns = earlier ++ [turn] ∧
        (turn.after.deliveredTo 2).getLast? = some ⟨1, "out", 2, "in"⟩ :=
    ⟨_, rfl, [_, _, _], _, rfl, rfl⟩
  cases plays.symm.trans played
  obtain ⟨source, sends, entry⟩ := credited earlier turn [] _ all rfl found fun late _ =>
    late.not_writes (by decide)
  cases sends
  exact ⟨_, r, played, loaded, entry⟩

theorem scribing_activation_forged :
    Opens (scribing "_activatedBy.end") (relayEngine.load (scribing "_activatedBy.end")).1 ∧
    ∃ c r, (⟨(relayEngine.load (scribing "_activatedBy.end")).1, []⟩ : Chronicle).play
      [.tick, .tick] = .ok c ∧ c.engine.run = some r ∧ deliveredIn c.turns 2 = [] ∧
      r.board.activatedBy? "end" = some "nobody" :=
  ⟨.load relayEngine rfl rfl, _, _, rfl, rfl, rfl, rfl⟩

end Chronicle
end ActionGraph
