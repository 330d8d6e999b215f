import ActionGraph.Proofs.Boundary
import ActionGraph.Proofs.Timing
-- How long delays wait. A delay keeps no count of its own: what it compares with its number is the age
-- of its status, which every delivery resets. So the last delivery decides when it completes, whatever
-- the host does, and a chain of delays takes their numbers together.
namespace ActionGraph

def Woken (turns : List Turn) (i at_ : Nat) : Prop :=
  ∃ turn, turns[at_]? = some turn ∧ turn.after.deliveredTo i ≠ []

structure Since (turns : List Turn) (i from_ : Nat) : Prop where
  woken : Woken turns i from_
  calm : ∀ later, from_ < later → ¬Woken turns i later

theorem Woken.inside (woken : Woken turns i n) : n < turns.length := by
  obtain ⟨_, there, _⟩ := woken
  exact (List.getElem?_eq_some_iff.mp there).1

theorem woken_concat : Woken (earlier ++ [turn]) i n ↔
    Woken earlier i n ∨ n = earlier.length ∧ turn.after.deliveredTo i ≠ [] := by
  rcases Nat.lt_trichotomy n earlier.length with before | rfl | after
  · rw [Woken, Woken, List.getElem?_append_left before]
    simp [Nat.ne_of_lt before]
  · simp [Woken]
  · have outside : (earlier ++ [turn]).length ≤ n := by simpa using after
    simp [Woken, List.getElem?_eq_none outside, List.getElem?_eq_none (Nat.le_of_lt after),
      Nat.ne_of_gt after]

theorem since_concat : Since (earlier ++ [turn]) i n ↔
    (n = earlier.length ∧ turn.after.deliveredTo i ≠ []) ∨
      (turn.after.deliveredTo i = [] ∧ Since earlier i n) := by
  constructor
  · intro since
    cases woken_concat.mp since.woken with
    | inr now => exact .inl now
    | inl early =>
      refine .inr ⟨?_, early, fun later after woken => since.calm later after (woken_concat.mpr (.inl woken))⟩
      apply Classical.byContradiction
      intro woken
      exact since.calm earlier.length early.inside (woken_concat.mpr (.inr ⟨rfl, woken⟩))
  · intro either
    cases either with
    | inl now =>
      refine ⟨woken_concat.mpr (.inr now), fun later after woken => ?_⟩
      cases woken_concat.mp woken with
      | inl early =>
        have inside := early.inside
        omega
      | inr again => omega
    | inr before =>
      obtain ⟨quiet, since⟩ := before
      refine ⟨woken_concat.mpr (.inl since.woken), fun later after woken => ?_⟩
      cases woken_concat.mp woken with
      | inl early => exact since.calm later after early
      | inr again => exact again.2 quiet

namespace Since

theorem unique (a : Since turns i m) (b : Since turns i n) : m = n := by
  rcases Nat.lt_trichotomy m n with before | same | after
  · exact (a.calm n before b.woken).elim
  · exact same
  · exact (b.calm m after a.woken).elim

end Since

theorem Delay.patience_reading {p : Plan} (there : p.action? i = some a) :
    a.patience = max 1 (p.reading Value.u64? i "ticks" defaultTicks) := by
  rw [Plan.reading, Plan.property?, there, Option.bind_some, a.patience_eq]

theorem Delay.deed_eq {r : Run} (there : r.statuses[i]? = some s) (isAction : r.plan.action? i = some a)
    (young : s.age < a.patience) :
    deed r i = if a.patience ≤ s.age + 1 then .finishOn "out" else .rest := by
  have short := a.patience_lt
  have counts : waited r i = s.age + 1 := by
    have small : s.age + 1 < UInt64.size := by omega
    rw [waited, there]
    exact Nat.mod_eq_of_lt small
  have reads : r.plan.reading Value.u64? i "ticks" defaultTicks ≤ s.age + 1 ↔ a.patience ≤ s.age + 1 := by
    rw [patience_reading isAction]
    omega
  rw [deed, counts]
  simp only [reads]

namespace Run.Ticks
variable {t t' : Tables} {r r' : Run} {ps ws : List Work} (ticks : Ticks t r ps ws t' r')
include ticks

theorem wakes (there : r.statuses[i]? = some s) :
    (r'.deliveredTo i ≠ [] ∧ s.phase.isTerminal = false ∧
      r.met i s = { phase := .running, fresh := true }) ∨ (r'.deliveredTo i = [] ∧ r.met i s = s) := by
  by_cases addressed : i ∈ r.pending.map Pulse.target
  · cases final : s.phase.isTerminal with
    | true =>
      refine .inr ⟨?_, ?_⟩
      · rw [ticks.deliveredTo there, if_pos final]
      · rw [met, if_pos addressed, Status.address_of_terminal final]
    | false =>
      refine .inl ⟨List.length_pos_iff.mp (ticks.delivered_some there final addressed), rfl, ?_⟩
      rw [met, if_pos addressed, Status.address_of_left final]
  · refine .inr ⟨?_, met_unaddressed addressed s⟩
    rw [ticks.deliveredTo there]
    split
    · rfl
    · refine List.filter_eq_nil_iff.mpr fun p member target => addressed ?_
      exact List.mem_map.mpr ⟨p, member, of_decide_eq_true target⟩

theorem rests (there : r.statuses[i]? = some s) (same : r.met i s = s)
    (inactive : s.phase.isActive = false) : ∃ s', r'.statuses[i]? = some s' ∧ s'.phase = s.phase := by
  obtain ⟨s', after, fares⟩ := ticks.fares there
  rw [same] at fares
  cases fares with
  | propagated => exact ⟨_, after, rfl⟩
  | did _ _ _ _ driven => rw [driven.isActive] at inactive; cases inactive
  | left => exact ⟨_, after, rfl⟩

theorem delays_on (there : r.statuses[i]? = some s) (isAction : r.plan.action? i = some a)
    (isDelay : a.kind = Delay.kind) (runs : (r.met i s).phase = .running)
    (young : (r.met i s).age < a.patience) : ∃ s', r'.statuses[i]? = some s' ∧
      if a.patience ≤ (r.met i s).age + 1 then s'.phase = .completed
      else s'.phase = .running ∧ s'.age = (r.met i s).age + 1 := by
  have isKind : r.plan.kind? i = some Delay.kind := by
    rw [Plan.kind?, Graph.kind?, show r.plan.graph.actions[i]? = some a from isAction, ← isDelay]
    rfl
  obtain ⟨s', after, fares⟩ := ticks.fares there
  refine ⟨s', after, ?_⟩
  cases fares with
  | propagated due => simp [Status.isDue, runs] at due
  | @did w _ member acts unswept =>
    subst acts
    rw [ticks.delays member unswept isKind, Delay.deed_eq (arrived_met there) (r.arrived_plan ▸ isAction) young]
    split
    · simp [Deed.settle]
    · refine ⟨runs, Deed.rest_age ?_⟩
      have short := a.patience_lt
      omega
  | left _ _ _ undriven => exact (undriven _ (by decide) isKind (.inl runs)).elim

end Run.Ticks

-- A delay after some turns. Its age is the number of turns since the last delivery, that turn counted
-- in, as long as it runs.
inductive Delayed (wait : Nat) (turns : List Turn) (i : Nat) (s : Status) : Prop where
  | idle (never : ∀ n, ¬Woken turns i n) (phase : s.phase = .idle)
  | running (since : Since turns i n) (age : n + s.age = turns.length) (young : s.age < wait)
    (phase : s.phase = .running)
  | completed (since : Since turns i n) (enough : n + wait ≤ turns.length) (phase : s.phase = .completed)
  | cancelled (phase : s.phase = .cancelled)

namespace Delayed
variable (delayed : Delayed wait turns i s)
include delayed

theorem phase_of (since : Since turns i n) (left : s.phase ≠ .cancelled) :
    s.phase = if turns.length < n + wait then .running else .completed := by
  cases delayed with
  | idle never => exact (never n since.woken).elim
  | running since' age young phase =>
    cases since.unique since'
    rw [if_pos (by omega), phase]
  | completed since' enough phase =>
    cases since.unique since'
    rw [if_neg (by omega), phase]
  | cancelled phase => exact (left phase).elim

theorem of_completed (done : s.phase = .completed) : ∃ n, Since turns i n ∧ n + wait ≤ turns.length := by
  cases delayed with
  | completed since enough => exact ⟨_, since, enough⟩
  | idle _ phase | running _ _ _ phase | cancelled phase => cases phase.symm.trans done

end Delayed

theorem Run.Ticks.delayed {turns : List Turn} (ticks : Ticks t r ps ws t' r')
    (there : r.statuses[i]? = some s) (isAction : r.plan.action? i = some a)
    (isDelay : a.kind = Delay.kind) (before : Delayed a.patience turns i s) :
    ∃ s', r'.statuses[i]? = some s' ∧ Delayed a.patience (turns ++ [⟨r, r'⟩]) i s' := by
  have length : (turns ++ [(⟨r, r'⟩ : Turn)]).length = turns.length + 1 := List.length_append
  -- Running, with the turn of the last delivery known.
  have step : ∀ n, Since (turns ++ [⟨r, r'⟩]) i n → (r.met i s).phase = .running →
      n + (r.met i s).age = turns.length → (r.met i s).age < a.patience →
      ∃ s', r'.statuses[i]? = some s' ∧ Delayed a.patience (turns ++ [⟨r, r'⟩]) i s' := by
    intro n since runs age young
    obtain ⟨s', after, fares⟩ := ticks.delays_on there isAction isDelay runs young
    refine ⟨s', after, ?_⟩
    split at fares
    · exact .completed since (by omega) fares
    · exact .running since (by omega) (by omega) fares.1
  rcases ticks.wakes there with ⟨woken, _, met⟩ | ⟨quiet, met⟩
  · have positive : 0 < a.patience := Nat.le_max_left ..
    apply step turns.length (since_concat.mpr (.inl ⟨rfl, woken⟩))
    all_goals rw [met]
    exacts [rfl, positive]
  · have later : ∀ n, Since turns i n → Since (turns ++ [⟨r, r'⟩]) i n :=
      fun n since => since_concat.mpr (.inr ⟨quiet, since⟩)
    cases before with
    | running since age young phase =>
      rw [met] at step
      exact step _ (later _ since) phase age young
    | idle never phase =>
      obtain ⟨s', after, same⟩ := ticks.rests there met (by rw [phase]; rfl)
      refine ⟨s', after, .idle (fun n woken => ?_) (same.trans phase)⟩
      cases woken_concat.mp woken with
      | inl early => exact never n early
      | inr now => exact now.2 quiet
    | completed since enough phase =>
      obtain ⟨s', after, same⟩ := ticks.rests there met (by rw [phase]; rfl)
      exact ⟨s', after, .completed (later _ since) (by omega) (same.trans phase)⟩
    | cancelled phase =>
      obtain ⟨s', after, same⟩ := ticks.rests there met (by rw [phase]; rfl)
      exact ⟨s', after, .cancelled (same.trans phase)⟩

namespace Reached

theorem delayed {g : Graph} {i : Nat} {a : Action} (reached : Reached g script t r turns)
    (there : g.actions[i]? = some a) (isDelay : a.kind = Delay.kind) :
    ∃ s, r.statuses[i]? = some s ∧ Delayed a.patience turns i s := by
  induction reached using induct with
  | opened p log planned =>
    obtain ⟨s, found⟩ := (opened planned log).found there
    have idle := Run.opened_idle planned there (by rw [isDelay]; decide) log
    rw [Run.phase_of found] at idle
    exact ⟨s, found, .idle (fun n woken => by cases woken.inside) idle⟩
  | heeded _ _ r _ s _ _ ih =>
    obtain ⟨st, found, before⟩ := ih
    rcases (r.heed_heeds s).statuses i with same | ⟨_, _, _, _, _, _, after⟩
    · exact ⟨st, same.trans found, before⟩
    · exact ⟨_, after, .cancelled (Status.enter_phase ..)⟩
  | ticked _ _ _ _ _ _ _ _ prior ticks ih =>
    obtain ⟨s, found, before⟩ := ih
    exact ticks.delayed found (by rw [Plan.action?, prior.graph, there]) isDelay before

theorem delay_turn {g : Graph} {i : Nat} {a : Action} {turn : Turn}
    (reached : Reached g script t r (earlier ++ turn :: later)) (there : g.actions[i]? = some a)
    (isDelay : a.kind = Delay.kind) :
    (∀ n, Since (earlier ++ [turn]) i n → turn.after.phase i ≠ .cancelled →
      earlier.length + 1 < n + a.patience → turn.after.phase i = .running) ∧
    (turn.completes i = true ↔ turn.after.phase i ≠ .cancelled ∧
      ∃ n, Since (earlier ++ [turn]) i n ∧ n + a.patience = earlier.length + 1) := by
  obtain ⟨_, _, _, _, _, prior, ticks⟩ := reached.turn
  obtain ⟨s, found, before⟩ := prior.delayed there isDelay
  obtain ⟨s', found', (after : Delayed a.patience (earlier ++ [turn]) i s')⟩ :=
    (prior.ticked ticks).delayed there isDelay
  have positive : 1 ≤ a.patience := Nat.le_max_left ..
  have length : (earlier ++ [turn]).length = earlier.length + 1 := List.length_append
  have completes : turn.completes i = true ↔ s.phase ≠ .completed ∧ s'.phase = .completed := by
    simp [Turn.completes, Run.phase_of found, Run.phase_of found']
  rw [completes, Run.phase_of found']
  refine ⟨fun n since left early => ?_, ?_, ?_⟩
  · rw [after.phase_of since left, if_pos (by omega)]
  · intro now
    obtain ⟨unfinished, done⟩ := now
    obtain ⟨n, since, enough⟩ := after.of_completed done
    refine ⟨by rw [done]; decide, n, since, ?_⟩
    cases since_concat.mp since with
    | inl woken => omega
    | inr calm =>
      have left : s.phase ≠ .cancelled := by
        intro cancelled
        have stays := ticks.final (i := i) (by rw [Run.phase_of found, cancelled]; rfl)
        rw [Run.phase_of found, Run.phase_of found', done, cancelled] at stays
        cases stays
      have phase := before.phase_of calm.2 left
      split at phase
      · omega
      · exact (unfinished phase).elim
  · intro due
    obtain ⟨left, n, since, exactly⟩ := due
    refine ⟨fun done => ?_, ?_⟩
    · obtain ⟨n', since', enough⟩ := before.of_completed done
      cases since_concat.mp since with
      | inl woken =>
        rcases ticks.wakes found with ⟨_, open', _⟩ | ⟨quiet, _⟩
        · rw [done] at open'
          cases open'
        · exact woken.2 quiet
      | inr calm =>
        cases calm.2.unique since'
        omega
    · rw [after.phase_of since left, if_neg (by omega)]

end Reached
end ActionGraph
