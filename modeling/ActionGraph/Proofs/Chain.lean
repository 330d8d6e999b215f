import ActionGraph.Proofs.Waiting
import Mathlib.Algebra.Order.BigOperators.Group.List
-- Chains of delays. Each delay of a chain is reached once and by its predecessor alone, so it completes
-- after all that the ones before it take, and the end one tick after the last.
namespace ActionGraph

def Graph.links (row : List Action) : List Edge :=
  row.zipWith (fun a b => { source := a.id, target := b.id }) row.tail

-- The graph is the chain of these actions, in whatever order they are written down.
structure Graph.Chain (g : Graph) (start : Action) (steps : List Action) (finish : Action) : Prop where
  first : start.kind = Action.startKind
  delays : ∀ a ∈ steps, a.kind = Delay.kind
  last : finish.kind = Action.endKind
  actions : g.actions.Perm (start :: steps ++ [finish])
  edges : g.edges.Perm (links (start :: steps ++ [finish]))

def Action.lag (a : Action) : Nat := if a.kind = Delay.kind then a.patience else 1

theorem Graph.mem_links {row : List Action} {e : Edge} : e ∈ links row ↔ ∃ (k : Nat) (a b : Action),
    row[k]? = some a ∧ row[k + 1]? = some b ∧ e = { source := a.id, target := b.id } := by
  rw [links, List.mem_iff_getElem?]
  refine exists_congr fun k => ?_
  rw [List.getElem?_zipWith, List.getElem?_tail]
  cases row[k]? <;> cases row[k + 1]? <;> simp [eq_comm]

theorem Opens.formed (opens : Opens g e) : g.Wellformed := by
  obtain ⟨p, _, planned, _⟩ := opens.parts
  exact (Plan.ofGraph_ok_iff g).mp ⟨p, planned⟩

namespace Graph.Chain
variable {g : Graph} {start : Action} {steps : List Action} {finish : Action}
  (chain : g.Chain start steps finish)
include chain

theorem mem_actions : a ∈ g.actions ↔ a = start ∨ a ∈ steps ∨ a = finish := by
  rw [chain.actions.mem_iff]
  simp

theorem behind {k : Nat} (there : (start :: steps ++ [finish])[k + 1]? = some a) :
    a.kind = Delay.kind ∨ a.kind = Action.endKind := by
  rw [List.cons_append, List.getElem?_cons_succ] at there
  rcases List.mem_append.mp (List.mem_of_getElem? there) with inside | last
  · exact .inl (chain.delays a inside)
  · cases List.mem_singleton.mp last
    exact .inr chain.last

theorem clockwork (formed : g.Wellformed) : g.Clockwork where
  formed := formed
  kinds a member := by
    rcases chain.mem_actions.mp member with rfl | inside | rfl
    · rw [chain.first]; decide
    · rw [chain.delays a inside]; decide
    · rw [chain.last]; decide
  edges e member := by
    obtain ⟨_, _, _, _, _, rfl⟩ := mem_links.mp (chain.edges.mem_iff.mp member)
    exact ⟨rfl, rfl⟩

theorem fed (formed : g.Wellformed) {k : Nat} (here : (start :: steps ++ [finish])[k]? = some a)
    (next : (start :: steps ++ [finish])[k + 1]? = some b) : g.FedBy b.id a.id := by
  have ids := (chain.actions.map (·.id)).nodup_iff.mp formed.ids
  refine ⟨?_, fun e member target => ?_⟩
  · have linked := chain.edges.mem_iff.mpr (mem_links.mpr ⟨k, a, b, here, next, rfl⟩)
    exact List.countP_pos_iff.mpr ⟨_, linked, by simp⟩
  · obtain ⟨k', a', b', here', next', rfl⟩ := mem_links.mp (chain.edges.mem_iff.mp member)
    have named : ((start :: steps ++ [finish]).map (·.id))[k + 1]? =
        ((start :: steps ++ [finish]).map (·.id))[k' + 1]? := by
      rw [List.getElem?_map, List.getElem?_map, next, next']
      exact congrArg some target.symm
    have inside : k + 1 < ((start :: steps ++ [finish]).map (·.id)).length := by
      rw [List.length_map]
      exact (List.getElem?_eq_some_iff.mp next).1
    cases Nat.succ.inj ((List.getElem?_inj inside ids).mp named)
    cases here.symm.trans here'
    rfl

theorem done_at (formed : g.Wellformed) {k : Nat} {a : Action}
    (there : (start :: steps ++ [finish])[k]? = some a) :
    g.DoneAt a.id (((start :: steps ++ [finish]).take (k + 1)).map Action.lag).sum := by
  have clock := chain.clockwork formed
  induction k generalizing a with
  | zero =>
    cases there
    have lag : start.lag = 1 := by rw [Action.lag, chain.first]; rfl
    simpa [lag] using clock.started (chain.mem_actions.mpr (.inl rfl)) chain.first
  | succ k ih =>
    have inside := (List.getElem?_eq_some_iff.mp there).1
    have before := List.getElem?_eq_getElem (Nat.lt_of_succ_lt inside)
    have member := chain.actions.mem_iff.mpr (List.mem_of_getElem? there)
    have fed := chain.fed formed before there
    have total : (((start :: steps ++ [finish]).take (k + 1 + 1)).map Action.lag).sum =
        (((start :: steps ++ [finish]).take (k + 1)).map Action.lag).sum + a.lag := by
      rw [List.take_add_one, there, List.map_append, List.sum_append]
      rfl
    rw [total]
    rcases chain.behind there with isDelay | isEnd
    · rw [Action.lag, if_pos isDelay]
      exact clock.delays_at member isDelay fed (ih before)
    · rw [Action.lag, if_neg (by rw [isEnd]; decide)]
      exact clock.passes_at member (.inr isEnd) fed (ih before)

theorem total : ((start :: steps ++ [finish]).map Action.lag).sum = 2 + (steps.map Action.patience).sum := by
  have first : start.lag = 1 := by rw [Action.lag, chain.first]; rfl
  have last : finish.lag = 1 := by rw [Action.lag, chain.last]; rfl
  have between : steps.map Action.lag = steps.map Action.patience :=
    List.map_congr_left fun a member => if_pos (chain.delays a member)
  simp [first, last, between]
  omega

theorem done_iff (formed : g.Wellformed) (n : Nat) :
    (∀ a ∈ g.actions, g.Done a.id n) ↔ 2 + (steps.map Action.patience).sum ≤ n := by
  rw [← chain.total]
  constructor
  · intro done
    have there : (start :: steps ++ [finish])[steps.length + 1]? = some finish := by simp
    have whole : (start :: steps ++ [finish]).take (steps.length + 1 + 1) = start :: steps ++ [finish] := by
      simp
    have last := chain.done_at formed there n
    rw [whole] at last
    exact last.mp (done finish (chain.mem_actions.mpr (.inr (.inr rfl))))
  · intro late a member
    obtain ⟨k, there⟩ := List.mem_iff_getElem?.mp (chain.actions.mem_iff.mp member)
    refine (chain.done_at formed there n).mpr (Nat.le_trans ?_ late)
    exact ((List.take_sublist ..).map Action.lag).sum_le_sum fun _ _ => Nat.zero_le _

end Graph.Chain

namespace Chronicle

-- A delay runs from the turn that reached it last until its ticks are over, that turn counted in, and
-- completes then and at no other time. A chain of delays takes their ticks and two more.
theorem delays_wait (opens : Opens g e) :
    (∀ script, ∃ c, (⟨e, []⟩ : Chronicle).play script = .ok c ∧
      ∀ (i : Nat) a, g.actions[i]? = some a → a.kind = Delay.kind →
      ∀ (m : Nat) turn, c.turns[m]? = some turn →
        (∀ n, Since (c.turns.take (m + 1)) i n → turn.after.phase i ≠ .cancelled →
          m + 1 < n + a.patience → turn.after.phase i = .running) ∧
        (turn.completes i = true ↔ turn.after.phase i ≠ .cancelled ∧
          ∃ n, Since (c.turns.take (m + 1)) i n ∧ n + a.patience = m + 1)) ∧
    ∀ start steps finish, g.Chain start steps finish → ∀ budget, ∃ e',
      e.runUntilComplete budget = .ok (e', min budget (2 + (steps.map Action.patience).sum)) := by
  constructor
  · intro script
    obtain ⟨c, t, r, played, _, reached⟩ := play_reached opens script
    refine ⟨c, played, fun i a there isDelay m turn here => ?_⟩
    obtain ⟨inside, same⟩ := List.getElem?_eq_some_iff.mp here
    have until_ : c.turns.take (m + 1) = c.turns.take m ++ [turn] := by rw [List.take_add_one, here]; rfl
    have whole : c.turns = c.turns.take m ++ turn :: c.turns.drop (m + 1) := by
      rw [← same, List.getElem_cons_drop, List.take_append_drop]
    have length : (c.turns.take m).length = m := List.length_take_of_le (Nat.le_of_lt inside)
    rw [whole] at reached
    rw [until_]
    have law := reached.delay_turn there isDelay
    rwa [length] at law
  · intro start steps finish chain budget
    have clock := chain.clockwork opens.formed
    obtain ⟨e', runs, _⟩ := runs_over opens clock (chain.done_iff opens.formed) budget
    exact ⟨e', runs⟩

def chained : Graph where
  actions := [{ id := "start", kind := Action.startKind }, Graph.delayAction "b" 2,
    Graph.delayAction "c" (-1), { id := "end", kind := Action.endKind }]
  edges := [{ source := "start", target := "b" }, { source := "b", target := "c" },
    { source := "c", target := "end" }]

-- A delay of three ticks that a fork reaches again one tick after the start did.
def restarted : Graph where
  actions := [{ id := "start", kind := Action.startKind }, Graph.delayAction "wait" 3,
    { id := "fork", kind := Action.fanoutKind }]
  edges := [{ source := "start", target := "wait" }, { source := "start", target := "fork" },
    { source := "fork", target := "wait" }]

theorem chained_waits : (∀ budget, ∃ e',
      (relayEngine.load chained).1.runUntilComplete budget = .ok (e', min budget 5)) ∧
    ∃ c turn, (⟨(relayEngine.load restarted).1, []⟩ : Chronicle).play (List.replicate 5 .tick) = .ok c ∧
      c.turns[4]? = some turn ∧ turn.completes 1 = true ∧ Since (c.turns.take 5) 1 2 := by
  constructor
  · intro budget
    obtain ⟨_, chain⟩ := delays_wait (g := chained) (.load relayEngine rfl rfl)
    have waits : 2 + ([Graph.delayAction "b" 2, Graph.delayAction "c" (-1)].map Action.patience).sum = 5 := by
      decide
    rw [← waits]
    exact chain _ _ _ ⟨rfl, by simp [Graph.delayAction, Delay.kind], rfl, .refl _, .refl _⟩ budget
  · obtain ⟨play, _⟩ := delays_wait (g := restarted) (.load relayEngine rfl rfl)
    obtain ⟨c, played, law⟩ := play (List.replicate 5 .tick)
    have last : ((⟨(relayEngine.load restarted).1, []⟩ : Chronicle).play (List.replicate 5 .tick)).map
        (fun c => (c.turns[4]?).map (·.completes 1)) = .ok (some true) := by decide +kernel
    rw [played] at last
    obtain ⟨turn, here, completes⟩ := Option.map_eq_some_iff.mp (Except.ok.inj last)
    obtain ⟨_, n, since, exactly⟩ := ((law 1 _ rfl rfl 4 turn here).2).mp completes
    have wait : (Graph.delayAction "wait" 3).patience = 3 := by decide
    rw [wait] at exactly
    cases Nat.add_right_cancel exactly
    exact ⟨c, turn, played, here, completes, since⟩

end Chronicle
end ActionGraph
