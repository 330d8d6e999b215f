import ActionGraph.Proofs.Mirrors
-- Watching changes nothing. How many reports and snapshots are kept, and when the history is turned
-- on or off, has no say in what a run does; and a smaller log is the beginning of a larger one.
namespace ActionGraph

def Request.watches : Request → Bool
  | .signal (.enableHistory _) | .signal .disableHistory => true
  | _ => false

namespace Diagnostics

theorem keeping_whole {limit : Nat} {all : List Diagnostic} (whole : (keeping limit all).dropped = 0)
    (limit' : Nat) :
    (keeping limit' all).entries = (keeping limit all).entries.take limit' ∧
      (keeping limit' all).dropped =
        (keeping limit all).entries.length - (keeping limit' all).entries.length := by
  change all.length - limit = 0 at whole
  simp only [keeping, List.take_of_length_le (Nat.le_of_sub_eq_zero whole), List.length_take]
  exact ⟨trivial, by omega⟩

end Diagnostics

namespace Engine

theorem serve_watches {q : Request} (watches : q.watches = true) (e : Engine) :
    ∃ history, e.serve q = { e with history := history } := by
  cases q with
  | signal s =>
    cases s with
    | enableHistory | disableHistory => exact ⟨_, rfl⟩
    | _ => cases watches
  | _ => cases watches

namespace Twin
variable {limits : Option (Nat × Nat)} {a b : Engine} (twin : Twin limits a b)
include twin

theorem watch {q : Request} (watches : q.watches = true) : Twin limits (a.serve q) b := by
  obtain ⟨_, same⟩ := serve_watches watches a
  rw [same]
  exact { twin with }

theorem watched {asks : List Request} (watches : ∀ q ∈ asks, q.watches = true) :
    Twin limits a (asks.foldl Engine.serve b) := by
  induction asks generalizing b with
  | nil => exact twin
  | cons q rest ih =>
    obtain ⟨_, same⟩ := serve_watches (watches q List.mem_cons_self) b
    refine ih (b := b.serve q) ?_ fun q member => watches q (List.mem_cons_of_mem _ member)
    rw [same]
    exact { twin with }

-- By induction on what the first is asked: the other is asked the same next, but for requests that
-- only watch, which may stand before it.
theorem interleaved {asks asks' : List Request} (unscripted : ∀ q ∈ asks, q.Unscripted)
    (same : asks'.filter (!·.watches) = asks.filter (!·.watches)) :
    Twin limits (asks.foldl Engine.serve a) (asks'.foldl Engine.serve b) := by
  induction asks generalizing a b asks' with
  | nil => exact twin.watched fun q member => by simpa using List.filter_eq_nil_iff.mp same q member
  | cons q rest ih =>
    have later : ∀ q ∈ rest, q.Unscripted := fun q member => unscripted q (List.mem_cons_of_mem _ member)
    cases watches : q.watches with
    | true =>
      rw [List.filter_cons_of_neg (by simp [watches])] at same
      exact ih (twin.watch watches) later same
    | false =>
      rw [List.filter_cons_of_pos (by simp [watches])] at same
      obtain ⟨first, last, rfl, idle, _, same⟩ := List.filter_eq_cons_iff.mp same
      rw [List.foldl_append, List.foldl_cons, List.foldl_cons]
      have reached : Twin limits a (first.foldl Engine.serve b) :=
        twin.watched fun q member => by simpa using idle q member
      exact ih (reached.serve (unscripted q List.mem_cons_self)) later same

end Twin

theorem ofConfig_twin (host : Host) {config config' : Config}
    (budget : config'.defaultMaxTicks = config.defaultMaxTicks) :
    Twin (some (config.maxDiagnostics, config'.maxDiagnostics)) (.ofConfig host config)
      (.ofConfig host config') where
  run := .none
  given := by
    rintro m n ⟨⟩
    exact ⟨rfl, rfl⟩
  stages := rfl
  unscripted := fun _ member => (by cases member)
  locked := rfl
  closed := rfl
  host := rfl
  effects := rfl
  budget := budget

-- Two new engines that keep reports and snapshots differently are asked the same, with history turned
-- on and off in between as anybody likes: at every moment they are in the same state and have done the
-- same to their hosts. What the one log holds, as long as it is whole, says what the other has kept
-- and how much it has dropped.
theorem watching_changes_nothing (host : Host) (config config' : Config)
    (budget : config'.defaultMaxTicks = config.defaultMaxTicks) (asks asks' : List Request)
    (unscripted : ∀ q ∈ asks, q.Unscripted)
    (same : asks'.filter (!·.watches) = asks.filter (!·.watches)) :
    let a := asks.foldl serve (.ofConfig host config)
    let b := asks'.foldl serve (.ofConfig host config')
    Mirrors a b ∧ ∀ r r', a.run = some r → b.run = some r' → r'.log.dropped = 0 →
      r.log.entries = r'.log.entries.take config.maxDiagnostics ∧
      r.log.dropped = r'.log.entries.length - r.log.entries.length := by
  intro a b
  have twin := (ofConfig_twin host budget).interleaved unscripted same
  refine ⟨twin.mirrors, fun r r' loaded loaded' whole => ?_⟩
  have runs := twin.run
  change Option.Rel _ a.run b.run at runs
  rw [loaded, loaded'] at runs
  cases runs with
  | some started =>
    cases started with
    | intro _ logs =>
      obtain ⟨_, all, here, rfl⟩ := logs _ _ rfl
      rw [here]
      exact Diagnostics.keeping_whole whole _

-- A warning without a message, and a kind that no stage drives: two reports, of which one engine
-- keeps the first.
def muddled : Graph where
  actions := [{ id := "start", kind := Action.startKind }, { id := "hint", kind := Warning.kind },
    { id := "odd", kind := "riddle" }]
  edges := [{ source := "start", target := "hint" }]

theorem muddled_watched :
    let a := [.register Stage.standard, .load muddled, .signal .tick, .runFor 3].foldl serve
      (.ofConfig .all { maxDiagnostics := 1 })
    let b := [.register Stage.standard, .signal (.enableHistory 2), .load muddled, .signal .tick,
      .signal .disableHistory, .signal (.enableHistory 1), .runFor 3].foldl serve (.ofConfig .all {})
    Mirrors a b ∧ ∃ r r', a.run = some r ∧ b.run = some r' ∧ r'.log.entries.length = 2 ∧
      r.log.entries = r'.log.entries.take 1 ∧
      r.log.dropped = r'.log.entries.length - r.log.entries.length := by
  intro a b
  obtain ⟨mirrors, logs⟩ := watching_changes_nothing .all { maxDiagnostics := 1 } {} rfl
    [.register Stage.standard, .load muddled, .signal .tick, .runFor 3]
    [.register Stage.standard, .signal (.enableHistory 2), .load muddled, .signal .tick,
      .signal .disableHistory, .signal (.enableHistory 1), .runFor 3]
    (by simp [Request.Unscripted, Stage.standard, Stage.core, Stage.domain, Stage.isScript]) rfl
  have reports : (b.run.map fun r => (r.log.entries.length, r.log.dropped)) = some (2, 0) := by
    change (List.foldl serve _ _).run.map _ = _
    rw [List.foldl_cons, serve_register rfl rfl rfl (by decide)]
    decide +kernel
  obtain ⟨r', loaded', both⟩ := Option.map_eq_some_iff.mp reports
  obtain ⟨r, loaded⟩ : ∃ r, a.run = some r := by
    change ∃ r, (List.foldl serve _ _).run = some r
    rw [List.foldl_cons, serve_register rfl rfl rfl (by decide)]
    exact Option.isSome_iff_exists.mp (by decide +kernel)
  obtain ⟨kept, dropped⟩ := Prod.mk.inj both
  obtain ⟨first, rest⟩ := logs r r' loaded loaded' dropped
  exact ⟨mirrors, r, r', loaded, loaded', kept, first, rest⟩

end Engine
end ActionGraph
