import ActionGraph.Proofs.Course
-- The history of a run is a window over its ticks: the newest of them, as many as there is room for,
-- each with the run as that tick left it and with what the tick changed, even where the snapshot of
-- the tick before is gone.
namespace ActionGraph

def Run.phases (r : Run) : List Phase := r.statuses.map (·.phase)

theorem Run.phases_getD (r : Run) (i : Nat) : r.phases[i]?.getD .idle = r.phase i := by
  rw [phases, List.getElem?_map, phase]

def shots : Run → List Run → List Snapshot
  | _, [] => []
  | before, after :: rest => Snapshot.capture before.phases after :: shots after rest

namespace Snapshot

theorem mem_changesFrom {previous : List Phase} {statuses : List Status} {c : PhaseChange} :
    c ∈ changesFrom previous statuses ↔ ∃ s, statuses[c.index]? = some s ∧
      c.old = previous[c.index]?.getD .idle ∧ c.new = s.phase ∧ c.old ≠ c.new := by
  rw [changesFrom, List.mem_filterMap]
  constructor
  · rintro ⟨⟨s, i⟩, member, found⟩
    dsimp only at found
    split at found
    · cases found
    · next differ =>
      cases found
      exact ⟨s, List.mem_zipIdx_iff_getElem?.mp member, rfl, rfl, differ⟩
  · rintro ⟨s, there, old, new, differ⟩
    refine ⟨(s, c.index), List.mem_zipIdx_iff_getElem?.mpr there, ?_⟩
    rw [old, new] at differ
    dsimp only
    rw [if_neg differ, ← old, ← new]

theorem changesFrom_ascending (previous : List Phase) (statuses : List Status) :
    (changesFrom previous statuses).Pairwise fun c d => c.index < d.index := by
  have sorted : (statuses.zipIdx.map (·.2)).Pairwise (· < ·) := by
    rw [List.zipIdx_map_snd]
    exact List.pairwise_lt_range'
  rw [changesFrom, List.pairwise_filterMap]
  refine (List.pairwise_map.mp sorted).imp ?_
  intro x y before c first d second
  dsimp only at first second
  split at first
  · cases first
  · split at second
    · cases second
    · cases first
      cases second
      exact before

def replay (phases : List Phase) (s : Snapshot) : List Phase :=
  s.changes.foldl (fun phases c => phases.set c.index c.new) phases

theorem replay_getElem {changes : List PhaseChange} {phases : List Phase} {i : Nat} {p : Phase}
    (agree : ∀ c ∈ changes, c.index = i → c.new = p)
    (hit : phases[i]? = some p ∨ i < phases.length ∧ ∃ c ∈ changes, c.index = i) :
    (changes.foldl (fun phases c => phases.set c.index c.new) phases)[i]? = some p := by
  induction changes generalizing phases with
  | nil =>
    rcases hit with there | ⟨_, c, member, _⟩
    · exact there
    · cases member
  | cons c rest ih =>
    rw [List.foldl_cons]
    apply ih fun d member => agree d (List.mem_cons_of_mem _ member)
    by_cases here : c.index = i
    · have inside : i < phases.length := by
        rcases hit with there | ⟨inside, _⟩
        · exact (List.getElem?_eq_some_iff.mp there).1
        · exact inside
      left
      rw [here, List.getElem?_set_self inside, agree c List.mem_cons_self here]
    · rw [List.getElem?_set_ne here, List.length_set]
      rcases hit with there | ⟨inside, d, member, same⟩
      · exact .inl there
      · rcases List.mem_cons.mp member with rfl | later
        · exact (here same).elim
        · exact .inr ⟨inside, d, later, same⟩

theorem replay_length (phases : List Phase) (s : Snapshot) : (s.replay phases).length = phases.length := by
  unfold replay
  induction s.changes generalizing phases with
  | nil => rfl
  | cons c rest ih => rw [List.foldl_cons, ih, List.length_set]

theorem capture_replay {before after : Run} (size : before.statuses.length = after.statuses.length) :
    (capture before.phases after).replay before.phases = after.phases := by
  refine List.ext_getElem? fun i => ?_
  by_cases inside : i < after.statuses.length
  · have there := List.getElem?_eq_getElem inside
    have earlier : i < before.phases.length := by
      rw [Run.phases, List.length_map, size]; exact inside
    have was := List.getElem?_eq_getElem earlier
    have now : after.phases[i]? = some after.statuses[i].phase := by
      rw [Run.phases, List.getElem?_map, there, Option.map_some]
    rw [now]
    apply replay_getElem
    · intro c member same
      obtain ⟨s, found, _, new, _⟩ := mem_changesFrom.mp member
      rw [same, there] at found
      cases found
      exact new
    · by_cases still : before.phases[i] = after.statuses[i].phase
      · exact .inl (by rw [was, still])
      · refine .inr ⟨earlier, ⟨i, before.phases[i], after.statuses[i].phase⟩, ?_, rfl⟩
        exact mem_changesFrom.mpr ⟨_, there, by rw [was]; rfl, rfl, still⟩
  · have length : ((capture before.phases after).replay before.phases).length =
        after.statuses.length := by rw [replay_length, Run.phases, List.length_map, size]
    rw [List.getElem?_eq_none (by omega), List.getElem?_eq_none]
    rw [Run.phases, List.length_map]
    omega

end Snapshot

def lastOf (base : Run) (ends : List Run) : Run := ends.getLast?.getD base

theorem lastOf_cons (base e : Run) (rest : List Run) : lastOf base (e :: rest) = lastOf e rest := by
  cases rest <;> simp [lastOf, List.getLast?_cons]

theorem lastOf_append (base : Run) (ends : List Run) (r : Run) : lastOf base (ends ++ [r]) = r := by
  rw [lastOf, List.getLast?_concat, Option.getD_some]

theorem shots_append (base : Run) (ends : List Run) (r : Run) :
    shots base (ends ++ [r]) = shots base ends ++ [Snapshot.capture (lastOf base ends).phases r] := by
  induction ends generalizing base with
  | nil => rfl
  | cons e rest ih =>
    rw [List.cons_append, shots, shots, ih, lastOf_cons, List.cons_append]

theorem shots_length (base : Run) (ends : List Run) : (shots base ends).length = ends.length := by
  induction ends generalizing base with
  | nil => rfl
  | cons e rest ih => rw [shots, List.length_cons, ih, List.length_cons]

theorem shots_drop (base : Run) (ends : List Run) (n : Nat) (inside : n ≤ ends.length) :
    ∃ first rest, (first :: rest) <:+ (base :: ends) ∧ rest = ends.drop n ∧
      (shots base ends).drop n = shots first rest := by
  induction n generalizing base ends with
  | zero => exact ⟨base, ends, List.suffix_refl _, rfl, rfl⟩
  | succ n ih =>
    cases ends with
    | nil => cases inside
    | cons e ends =>
      obtain ⟨first, rest, suffix, same, dropped⟩ := ih e ends (Nat.le_of_succ_le_succ inside)
      exact ⟨first, rest, suffix.trans (List.suffix_cons base _), same, dropped⟩

namespace History

-- The history has the newest of the ticks since `base`.
structure Covers (h : History) (base : Run) (ends : List Run) : Prop where
  ring : h.ring = (shots base ends).drop (ends.length - h.capacity)
  previous : h.previous = (lastOf base ends).phases

theorem Covers.reset (h : History) (r : Run) : (h.reset r).Covers r [] := ⟨List.drop_nil.symm, rfl⟩

theorem Covers.length {h : History} (covers : h.Covers base ends) :
    h.ring.length = min ends.length h.capacity := by
  rw [covers.ring, List.length_drop, shots_length]
  omega

theorem makeRoom_ring (h : History) : h.makeRoom.previous = h.previous ∧ h.makeRoom.ring =
    if h.ring.length = h.capacity then h.ring.drop 1 else h.ring := by
  unfold makeRoom
  split
  · split
    · next empty => exact ⟨rfl, by rw [empty]; rfl⟩
    · next full => exact ⟨rfl, by rw [full]; rfl⟩
  · exact ⟨rfl, rfl⟩

theorem Covers.record {h : History} (covers : h.Covers base ends) (room : 1 ≤ h.capacity) (r : Run) :
    (h.record r).Covers base (ends ++ [r]) := by
  obtain ⟨previous, ring⟩ := h.makeRoom_ring
  have length := covers.length
  have size := shots_length base ends
  refine ⟨?_, by rw [lastOf_append]; rfl⟩
  change h.makeRoom.ring ++ [Snapshot.capture h.makeRoom.previous r] =
    (shots base (ends ++ [r])).drop ((ends ++ [r]).length - h.makeRoom.capacity)
  rw [previous, covers.previous, ring, h.makeRoom_capacity, shots_append, List.length_append,
    List.length_singleton, List.drop_append_of_le_length (by omega)]
  congr 1
  split
  · next full =>
    rw [covers.ring, List.drop_drop]
    congr 1
    omega
  · next free =>
    rw [covers.ring]
    congr 1
    omega

end History

-- Runs of one graph at the ends of ticks in a row, up to a run in the tick of the last.
structure Spans (base : Run) (ends : List Run) (r : Run) : Prop where
  now : r.tick = base.tick + ends.length
  ticks : ∀ (j : Nat) e, (base :: ends)[j]? = some e → e.tick = base.tick + j
  size : ∀ e ∈ base :: ends, e.statuses.length = r.statuses.length

namespace Spans

theorem start (r : Run) : Spans r [] r where
  now := rfl
  ticks := by
    intro j e there
    cases j with
    | zero => cases there; rfl
    | succ j => cases there
  size := by
    intro e member
    rw [List.mem_singleton.mp member]

theorem frames (spans : Spans base ends r) (frames : r.Frames r') : Spans base ends r' where
  now := frames.tick.trans spans.now
  ticks := spans.ticks
  size := fun e member => (spans.size e member).trans frames.size.symm

theorem next (spans : Spans base ends r) (tick : r'.tick = r.tick + 1)
    (size : r'.statuses.length = r.statuses.length) : Spans base (ends ++ [r']) r' where
  now := by rw [tick, spans.now, List.length_append, List.length_singleton, Nat.add_assoc]
  ticks := by
    intro j e there
    rw [← List.cons_append] at there
    by_cases inside : j < (base :: ends).length
    · rw [List.getElem?_append_left inside] at there
      exact spans.ticks j e there
    · rw [List.getElem?_append_right (by omega)] at there
      have only := (List.getElem?_eq_some_iff.mp there).1
      rw [List.length_singleton] at only
      have last : j = ends.length + 1 := by
        rw [List.length_cons] at inside only
        omega
      subst last
      rw [List.length_cons, Nat.sub_self] at there
      cases there
      rw [tick, spans.now, Nat.add_assoc]
  size := by
    intro e member
    rw [← List.cons_append] at member
    rcases List.mem_append.mp member with early | last
    · rw [spans.size e early, size]
    · rw [List.mem_singleton.mp last]

theorem suffix (spans : Spans base ends r) (shorter : (first :: rest) <:+ (base :: ends)) :
    Spans first rest r := by
  obtain ⟨before, same⟩ := shorter
  have total := congrArg List.length same
  simp only [List.length_append, List.length_cons] at total
  have shifted : ∀ j : Nat, (first :: rest)[j]? = (base :: ends)[before.length + j]? := by
    intro j
    rw [← same, List.getElem?_append_right (by omega), Nat.add_sub_cancel_left]
  have here := spans.ticks before.length first (by rw [← Nat.add_zero before.length, ← shifted]; rfl)
  refine ⟨?_, ?_, ?_⟩
  · rw [spans.now, here]
    omega
  · intro j e there
    rw [spans.ticks _ e (shifted j ▸ there), here, Nat.add_assoc]
  · intro e member
    exact spans.size e (same ▸ List.mem_append_right _ member)

end Spans

theorem Engine.tick_frames {e e' : Engine} (ticks : e.tick = .ok e') : ∃ r r', e.run = some r ∧
    e'.run = some r' ∧ e'.history = e.history.map (·.record r') ∧ r'.tick = r.tick + 1 ∧
    r'.statuses.length = r.statuses.length := by
  obtain ⟨_, r, loaded, rfl⟩ := tick_parts ticks
  have frames := pass_frames e.host r.beginTick e.stages
  refine ⟨r, _, loaded, rfl, rfl, frames.tick, ?_⟩
  rw [Run.endTick, List.length_map]
  exact frames.size

theorem Engine.load_history (e : Engine) (g : Graph) :
    (∃ refusal, (e.load g).2 = .error refusal ∧ (e.load g).1.history = e.history ∧
      ((e.load g).1.run = none ∨ (e.load g).1.run = e.run)) ∨
    (e.load g).2 = .ok () ∧ ∃ r, (e.load g).1.run = some r ∧
      (e.load g).1.history = e.history.map (·.reset r) := by
  unfold load
  cases e.closed with
  | true => exact .inl ⟨_, rfl, rfl, .inr rfl⟩
  | false =>
    cases Run.load g with
    | error fault => exact .inl ⟨_, rfl, rfl, .inl rfl⟩
    | ok r => exact .inr ⟨rfl, _, rfl, rfl⟩

theorem Engine.obey_history {e e' : Engine} {s : Signal} (done : e.obey s = .ok e')
    (other : s ≠ .tick ∧ (∀ capacity, s ≠ .enableHistory capacity) ∧ s ≠ .disableHistory) :
    e'.history = e.history := by
  cases s with
  | tick => exact (other.1 rfl).elim
  | enableHistory capacity => exact (other.2.1 capacity rfl).elim
  | disableHistory => exact (other.2.2 rfl).elim
  | host => cases done; rfl
  | raise | setTag | clearTag | cancel | board =>
    obtain ⟨r, _, rfl⟩ := onRun_parts done
    rfl

-- An engine together with what its history is meant to know.
structure Diary where
  engine : Engine
  -- The capacity that a history is asked for with, while one is.
  asked : Option Nat
  -- The run at the last load or the last enabling, whichever came later, and what the ticks since
  -- then ended with.
  base : Option Run := none
  ends : List Run := []

namespace Diary

def ofConfig (host : Host) (config : Config) : Diary :=
  { engine := .ofConfig host config, asked := config.historyCapacity }

def tick (d : Diary) : Diary :=
  match d.engine.tick with
  | .error _ => d
  | .ok e => { d with engine := e, ends := d.ends ++ e.run.toList }

def tickFor (d : Diary) : Nat → Diary
  | 0 => d
  | budget + 1 => if d.engine.isComplete then d else d.tick.tickFor budget

def runFor (d : Diary) (budget : Nat) : Diary :=
  match d.engine.runUntilComplete budget with
  | .error _ => d
  | .ok _ => d.tickFor budget

def load (d : Diary) (g : Graph) : Diary :=
  match d.engine.load g with
  | (e, .error _) => { d with engine := e }
  | (e, .ok ()) => { d with engine := e, base := e.run, ends := [] }

def serve (d : Diary) : Request → Diary
  | .load g => d.load g
  | .signal .tick => d.tick
  | .signal (.enableHistory capacity) =>
    { engine := d.engine.enableHistory capacity, asked := some capacity, base := d.engine.run }
  | .signal .disableHistory => { d with engine := d.engine.disableHistory, asked := none }
  | .runFor budget => d.runFor budget
  | .runToEnd => d.runFor d.engine.config.defaultMaxTicks
  | q => { d with engine := d.engine.serve q }

theorem tick_engine (d : Diary) : d.tick.engine = d.engine.orKeep d.engine.tick := by
  unfold tick
  split
  · next refused => rw [refused]; rfl
  · next done => rw [done]; rfl

theorem tickFor_engine {d : Diary} (done : d.engine.runFrom consumed budget = .ok (e, n)) :
    (d.tickFor budget).engine = e := by
  induction budget generalizing d consumed with
  | zero => cases done; rfl
  | succ budget ih =>
    unfold Engine.runFrom at done
    unfold tickFor
    split at done
    · next complete => rw [if_pos complete]; cases done; rfl
    · next goesOn =>
      rw [if_neg goesOn]
      have next := d.tick_engine
      cases step : d.engine.tick with
      | error refusal => simp [step] at done
      | ok e₁ =>
        simp only [step, Engine.orKeep] at done next
        rw [← next] at done
        exact ih done

theorem runFor_engine (d : Diary) (budget : Nat) : (d.runFor budget).engine =
    d.engine.orKeep ((d.engine.runUntilComplete budget).map Prod.fst) := by
  unfold runFor
  split
  · next refused => rw [refused]; rfl
  · next result done =>
    rw [done]
    unfold Engine.runUntilComplete at done
    split at done
    · cases done
    · exact tickFor_engine done

theorem load_engine (d : Diary) (g : Graph) : (d.load g).engine = (d.engine.load g).1 := by
  unfold load
  split
  · next loads => rw [loads]
  · next loads => rw [loads]

theorem serve_engine (d : Diary) (q : Request) : (d.serve q).engine = d.engine.serve q := by
  cases q with
  | load g => exact d.load_engine g
  | signal s =>
    cases s with
    | tick => exact d.tick_engine
    | _ => rfl
  | runFor budget => exact d.runFor_engine budget
  | runToEnd => exact d.runFor_engine _
  | _ => rfl

theorem serveAll_engine (d : Diary) (qs : List Request) :
    (qs.foldl Diary.serve d).engine = qs.foldl Engine.serve d.engine := by
  induction qs generalizing d with
  | nil => rfl
  | cons q rest ih => rw [List.foldl_cons, List.foldl_cons, ih, d.serve_engine]

structure Kept (d : Diary) : Prop where
  off : d.asked = none → d.engine.history = none
  room : ∀ capacity, d.asked = some capacity → ∃ h, d.engine.history = some h ∧
    h.capacity = max capacity 1
  covers : ∀ r h, d.engine.run = some r → d.engine.history = some h → ∃ base, d.base = some base ∧
    h.Covers base d.ends ∧ Spans base d.ends r

namespace Kept
variable {d : Diary} (kept : d.Kept)
include kept

theorem roomy (found : d.engine.history = some h) : 1 ≤ h.capacity := by
  cases asks : d.asked with
  | none =>
    rw [kept.off asks] at found
    cases found
  | some capacity =>
    obtain ⟨h', found', same⟩ := kept.room capacity asks
    cases found'.symm.trans found
    rw [same]
    exact Nat.le_max_right ..

theorem edited {e : Engine} (history : e.history = d.engine.history)
    (run : ∀ r', e.run = some r' → ∃ r, d.engine.run = some r ∧ r.Frames r') :
    Kept { d with engine := e } where
  off := fun asks => history.trans (kept.off asks)
  room := by
    intro capacity asks
    rw [history]
    exact kept.room capacity asks
  covers := by
    intro r' h loaded found
    obtain ⟨r, there, frames⟩ := run r' loaded
    obtain ⟨base, same, covers, spans⟩ := kept.covers r h there (history ▸ found)
    exact ⟨base, same, covers, spans.frames frames⟩

theorem tick : d.tick.Kept := by
  unfold Diary.tick
  split
  · exact kept
  · next e done =>
    obtain ⟨r, r', loaded, loaded', history, tick, size⟩ := Engine.tick_frames done
    refine ⟨fun asks => ?_, fun capacity asks => ?_, ?_⟩
    · rw [history, kept.off asks]
      rfl
    · obtain ⟨h, found, same⟩ := kept.room capacity asks
      refine ⟨h.record r', by rw [history, found]; rfl, ?_⟩
      rw [← same]
      exact h.makeRoom_capacity
    · intro now h' again found
      cases loaded'.symm.trans again
      rw [history] at found
      obtain ⟨h, there, rfl⟩ := Option.map_eq_some_iff.mp found
      obtain ⟨base, same, covers, spans⟩ := kept.covers r h loaded there
      rw [loaded', Option.toList_some]
      exact ⟨base, same, covers.record (kept.roomy there) r', spans.next tick size⟩

omit kept in
theorem tickFor {d : Diary} (kept : d.Kept) (budget : Nat) : (d.tickFor budget).Kept := by
  induction budget generalizing d with
  | zero => exact kept
  | succ budget ih =>
    unfold Diary.tickFor
    split
    · exact kept
    · exact ih kept.tick

theorem runFor (budget : Nat) : (d.runFor budget).Kept := by
  unfold Diary.runFor
  split
  · exact kept
  · exact kept.tickFor budget

theorem load (g : Graph) : (d.load g).Kept := by
  have parts := d.engine.load_history g
  unfold Diary.load
  generalize d.engine.load g = out at parts ⊢
  obtain ⟨e, result⟩ := out
  rcases parts with ⟨refusal, failed, history, run⟩ | ⟨done, r, loaded, history⟩
  · cases failed
    apply kept.edited history
    intro r' there
    rcases run with none | same
    · rw [none] at there
      cases there
    · exact ⟨r', same ▸ there, .refl r'⟩
  · cases done
    refine ⟨fun asks => ?_, fun capacity asks => ?_, ?_⟩
    · rw [history, kept.off asks]
      rfl
    · obtain ⟨h, found, same⟩ := kept.room capacity asks
      exact ⟨h.reset r, by rw [history, found]; rfl, same⟩
    · intro now h' again found
      cases loaded.symm.trans again
      rw [history] at found
      obtain ⟨h, there, rfl⟩ := Option.map_eq_some_iff.mp found
      exact ⟨r, loaded, .reset h r, .start r⟩

omit kept in
theorem enableHistory (d : Diary) (capacity : Nat) :
    (d.serve (.signal (.enableHistory capacity))).Kept := by
  refine ⟨fun asks => (by cases asks), fun capacity' asks => ?_, ?_⟩
  · cases asks
    refine ⟨_, rfl, ?_⟩
    split <;> rfl
  · intro r h loaded found
    change d.engine.run = some r at loaded
    simp only [Diary.serve, Engine.enableHistory, loaded, Option.some.injEq] at found
    subst found
    exact ⟨r, loaded, .reset _ r, .start r⟩

omit kept in
theorem disableHistory (d : Diary) : (d.serve (.signal .disableHistory)).Kept := by
  refine ⟨fun _ => rfl, fun capacity asks => (by cases asks), ?_⟩
  intro r h _ found
  cases found

theorem onRun {f : Run → Run × α} (done : (d.engine.onRun f).map Prod.fst = .ok e)
    (frames : ∀ r : Run, r.Frames (f r).1) : Kept { d with engine := e } := by
  obtain ⟨r, loaded, rfl⟩ := Engine.onRun_parts done
  refine kept.edited (e := { d.engine with run := some (f r).1 }) rfl ?_
  intro r' same
  cases same
  exact ⟨r, loaded, frames r⟩

theorem obey {s : Signal} (done : d.engine.obey s = .ok e)
    (other : s ≠ .tick ∧ (∀ capacity, s ≠ .enableHistory capacity) ∧ s ≠ .disableHistory) :
    Kept { d with engine := e } := by
  apply kept.edited (Engine.obey_history done other)
  intro r' there
  rw [(Engine.obey_parts other.1 done).2] at there
  obtain ⟨r, loaded, rfl⟩ := Option.map_eq_some_iff.mp there
  exact ⟨r, loaded, (r.heed_steps s).toFrames⟩

theorem register {stages : List Stage} (done : d.engine.register stages = .ok e) :
    Kept { d with engine := e } := by
  obtain ⟨history, run, _⟩ := Engine.register_run done
  apply kept.edited history
  intro r' there
  obtain ⟨r, log, loaded, rfl⟩ := run r' there
  exact ⟨r, loaded, rfl, rfl, rfl⟩

theorem shutdown : Kept { d with engine := d.engine.shutdown } := by
  unfold Engine.shutdown
  split
  · exact kept
  · exact kept.edited rfl fun r there => ⟨r, there, .refl r⟩

theorem orKeep {done : Except Refusal Engine}
    (keeps : ∀ e, done = .ok e → Kept { d with engine := e }) :
    Kept { d with engine := d.engine.orKeep done } := by
  cases done with
  | error refusal => exact kept
  | ok e => exact keeps e rfl

theorem serve (q : Request) : (d.serve q).Kept := by
  cases q with
  | load g => exact kept.load g
  | register stages => exact kept.orKeep fun _ => kept.register
  | perform op => exact kept.orKeep fun _ done => kept.onRun done fun r => r.perform_frames op
  | runFor budget => exact kept.runFor budget
  | runToEnd => exact kept.runFor _
  | shutdown => exact kept.shutdown
  | signal s =>
    cases s with
    | tick => exact kept.tick
    | enableHistory capacity => exact enableHistory d capacity
    | disableHistory => exact disableHistory d
    | host h => exact kept.orKeep fun _ done => kept.obey (s := .host h) done (by simp)
    | raise | setTag | clearTag | cancel | board =>
      exact kept.orKeep fun _ done => kept.obey done (by simp)

omit kept in
theorem serveAll {d : Diary} (kept : d.Kept) (qs : List Request) : (qs.foldl Diary.serve d).Kept := by
  induction qs generalizing d with
  | nil => exact kept
  | cons q rest ih => exact ih (kept.serve q)

end Kept

theorem ofConfig_kept (host : Host) (config : Config) : (ofConfig host config).Kept := by
  refine ⟨fun asks => ?_, fun capacity asks => ?_, fun r h loaded => (by cases loaded)⟩
  · change config.historyCapacity = none at asks
    simp only [ofConfig, Engine.ofConfig, asks, Option.map_none]
  · change config.historyCapacity = some capacity at asks
    refine ⟨.ofCapacity capacity, ?_, rfl⟩
    simp only [ofConfig, Engine.ofConfig, asks, Option.map_some]

end Diary

theorem shots_getElem {base before after : Run} {ends : List Run} {j : Nat}
    (early : (base :: ends)[j]? = some before) (late : ends[j]? = some after) :
    (shots base ends)[j]? = some (.capture before.phases after) := by
  induction j generalizing base ends with
  | zero =>
    cases ends with
    | nil => cases late
    | cons e rest =>
      cases early
      cases late
      rfl
  | succ j ih =>
    cases ends with
    | nil => cases late
    | cons e rest => exact ih early late

theorem shots_ticks (base : Run) (ends : List Run) :
    (shots base ends).map (·.tick) = ends.map (·.tick) := by
  induction ends generalizing base with
  | nil => rfl
  | cons e rest ih => rw [shots, List.map_cons, List.map_cons, ih]; rfl

theorem find?_consecutive {key : α → Nat} {l : List α} {start : Nat}
    (row : l.map key = List.range' start l.length) (t : Nat) :
    l.find? (fun x => key x = t) = if start ≤ t then l[t - start]? else none := by
  induction l generalizing start with
  | nil => simp
  | cons x rest ih =>
    rw [List.map_cons, List.length_cons, List.range'_succ] at row
    obtain ⟨here, row⟩ := List.cons.inj row
    rw [List.find?_cons, here, ih row]
    by_cases same : start = t
    · subst same
      simp
    · rw [decide_eq_false same]
      by_cases later : start + 1 ≤ t
      · have position : t - start = t - (start + 1) + 1 := by omega
        rw [if_pos later, if_pos (by omega), position]
        rfl
      · rw [if_neg later, if_neg (by omega)]

theorem shots_replay {base r : Run} {ends : List Run} (spans : Spans base ends r) :
    (shots base ends).foldl Snapshot.replay base.phases = (lastOf base ends).phases := by
  induction ends generalizing base with
  | nil => rfl
  | cons e rest ih =>
    have size := (spans.size base (by simp)).trans (spans.size e (by simp)).symm
    rw [shots, List.foldl_cons, Snapshot.capture_replay size, lastOf_cons]
    exact ih (spans.suffix (List.suffix_cons base _))

structure History.Shows (h : History) (first : Run) (rest : List Run) : Prop where
  ticks : h.ring.map (·.tick) = List.range' (first.tick + 1) rest.length
  outside : ∀ t, t ≤ first.tick ∨ first.tick + rest.length < t → h.get? t = none
  inside : ∀ (j : Nat) before after, (first :: rest)[j]? = some before → rest[j]? = some after →
    ∃ s, h.get? after.tick = some s ∧ s.tick = after.tick ∧ s.statuses = after.statuses ∧
      s.pending = after.pending ∧ s.changes.Pairwise (fun c d => c.index < d.index) ∧
      ∀ c, c ∈ s.changes ↔ c.index < after.statuses.length ∧ c.old = before.phase c.index ∧
        c.new = after.phase c.index ∧ c.old ≠ c.new
  replays : h.ring.foldl Snapshot.replay first.phases = (lastOf first rest).phases

theorem Snapshot.mem_capture {before after : Run} {c : PhaseChange} :
    c ∈ (capture before.phases after).changes ↔ c.index < after.statuses.length ∧
      c.old = before.phase c.index ∧ c.new = after.phase c.index ∧ c.old ≠ c.new := by
  rw [capture, mem_changesFrom, Run.phases_getD]
  constructor
  · rintro ⟨s, there, old, new, differ⟩
    exact ⟨(List.getElem?_eq_some_iff.mp there).1, old, by rw [new, Run.phase_of there], differ⟩
  · rintro ⟨inside, old, new, differ⟩
    have there := List.getElem?_eq_getElem inside
    exact ⟨_, there, old, by rw [new, Run.phase_of there], differ⟩

theorem Spans.shows {h : History} (spans : Spans first rest r) (ring : h.ring = shots first rest) :
    h.Shows first rest := by
  have row : h.ring.map (·.tick) = List.range' (first.tick + 1) rest.length := by
    rw [ring, shots_ticks]
    refine List.ext_getElem? fun j => ?_
    rw [List.getElem?_map]
    by_cases inside : j < rest.length
    · have there := List.getElem?_eq_getElem inside
      have ticks := spans.ticks (j + 1) rest[j] there
      rw [there, Option.map_some, List.getElem?_range' inside, ticks]
      congr 1
      omega
    · rw [List.getElem?_eq_none (by omega), List.getElem?_eq_none]
      · rfl
      · rw [List.length_range']
        omega
  have length : h.ring.length = rest.length := by rw [ring, shots_length]
  have finds := fun t => find?_consecutive (length ▸ row : h.ring.map (·.tick) =
    List.range' (first.tick + 1) h.ring.length) t
  refine ⟨row, ?_, ?_, ?_⟩
  · intro t beyond
    rw [History.get?, finds]
    split
    · exact List.getElem?_eq_none (by omega)
    · rfl
  · intro j before after early late
    have ticks := spans.ticks (j + 1) after late
    have position : after.tick - (first.tick + 1) = j := by omega
    refine ⟨.capture before.phases after, ?_, rfl, rfl, rfl, Snapshot.changesFrom_ascending .., ?_⟩
    · rw [History.get?, finds, if_pos (by omega), position, ring]
      exact shots_getElem early late
    · exact fun _ => Snapshot.mem_capture
  · rw [ring]
    exact shots_replay spans

-- Whatever an engine has served, as long as a run is loaded and a history is on: it shows the newest
-- ticks since the last load or enabling, as many as there is room for, and leads from the phases
-- before them to the phases after them.
theorem history_is_window (host : Host) (config : Config) (qs : List Request) :
    ∃ d, qs.foldl Diary.serve (.ofConfig host config) = d ∧
    d.engine = qs.foldl Engine.serve (.ofConfig host config) ∧
    (d.asked = none → d.engine.history = none) ∧
    ∀ r capacity, d.engine.run = some r → d.asked = some capacity → ∃ base h first rest,
      d.base = some base ∧ d.engine.history = some h ∧ (first :: rest) <:+ (base :: d.ends) ∧
      rest.length = min d.ends.length (max capacity 1) ∧ Spans first rest r ∧
      h.Shows first rest := by
  have kept := (Diary.ofConfig_kept host config).serveAll qs
  refine ⟨_, rfl, Diary.serveAll_engine _ qs, kept.off, fun r capacity loaded asks => ?_⟩
  obtain ⟨h, found, room⟩ := kept.room capacity asks
  obtain ⟨base, same, covers, spans⟩ := kept.covers r h loaded found
  generalize qs.foldl Diary.serve (.ofConfig host config) = d at *
  obtain ⟨first, rest, suffix, newest, dropped⟩ :=
    shots_drop base d.ends (d.ends.length - h.capacity) (by omega)
  have window := spans.suffix suffix
  refine ⟨base, h, first, rest, same, found, suffix, ?_, window,
    window.shows (covers.ring.trans dropped)⟩
  rw [newest, List.length_drop, room]
  omega

example : (([.load relay, .signal .tick, .signal .tick, .signal .tick] : List Request).foldl
      Engine.serve (.ofConfig {} { historyCapacity := some 2 })).history.map
      (fun h => h.ring.map (·.tick)) = some [2, 3] := by
  decide +kernel

end ActionGraph
