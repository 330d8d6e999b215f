import ActionGraph.Proofs.Latency
-- The sequence in which stages are registered. Only stages of equal order keep the sequence they are
-- given in, so lists that agree in that make the same pipeline, and the same of all that follows.
namespace ActionGraph

namespace Stage

def SameTies (given given' : List Stage) : Prop :=
  ∀ k : Int, given.filter (·.order = k) = given'.filter (·.order = k)

namespace SameTies

theorem symm (ties : SameTies given given') : SameTies given' given := fun k => (ties k).symm

theorem trans (first : SameTies given mid) (second : SameTies mid given') : SameTies given given' :=
  fun k => (first k).trans (second k)

theorem mem (ties : SameTies given given') (inside : s ∈ given) : s ∈ given' := by
  have here : s ∈ given.filter (·.order = s.order) := List.mem_filter.mpr ⟨inside, by simp⟩
  rw [ties] at here
  exact (List.mem_filter.mp here).1

theorem tail (ties : SameTies (s :: rest) (s :: rest')) : SameTies rest rest' := by
  intro k
  have whole := ties k
  rw [List.filter_cons, List.filter_cons] at whole
  split at whole
  · exact (List.cons.inj whole).2
  · exact whole

-- In ascending order there is only one such list. Both heads are of the least order, and among the
-- stages of that order they come first.
theorem unique (ties : SameTies given given') (ascends : given.Pairwise (·.order ≤ ·.order))
    (ascends' : given'.Pairwise (·.order ≤ ·.order)) : given = given' := by
  induction given generalizing given' with
  | nil =>
    cases given' with
    | nil => rfl
    | cons s' rest' => cases ties.symm.mem List.mem_cons_self
  | cons s rest ih =>
    cases given' with
    | nil => cases ties.mem List.mem_cons_self
    | cons s' rest' =>
      obtain ⟨least, rises⟩ := List.pairwise_cons.mp ascends
      obtain ⟨least', rises'⟩ := List.pairwise_cons.mp ascends'
      have up : s.order ≤ s'.order := by
        rcases List.mem_cons.mp (ties.symm.mem List.mem_cons_self) with rfl | later
        · exact Int.le_refl _
        · exact least s' later
      have down : s'.order ≤ s.order := by
        rcases List.mem_cons.mp (ties.mem List.mem_cons_self) with rfl | later
        · exact Int.le_refl _
        · exact least' s later
      have equal : s'.order = s.order := Int.le_antisymm down up
      have first := ties s.order
      rw [List.filter_cons_of_pos (by simp), List.filter_cons_of_pos (by simpa using equal)] at first
      obtain ⟨rfl, _⟩ := List.cons.inj first
      rw [ih ties.tail rises rises']

end SameTies

theorem mergeSort_ascends (given : List Stage) :
    (given.mergeSort sooner).Pairwise (·.order ≤ ·.order) :=
  (List.pairwise_mergeSort sooner_trans sooner_total given).imp fun ahead => of_decide_eq_true ahead

theorem mergeSort_sameTies (given : List Stage) : SameTies (given.mergeSort sooner) given := by
  intro k
  have level : (given.filter (·.order = k)).Pairwise (sooner · ·) := by
    refine List.pairwise_of_forall_mem_list fun a inside b inside' => ?_
    have here := (List.mem_filter.mp inside).2
    have there := (List.mem_filter.mp inside').2
    simp only [decide_eq_true_eq] at here there
    simp only [sooner, here, there, Int.le_refl, decide_true]
  have kept := (List.sublist_mergeSort sooner_trans sooner_total level List.filter_sublist).filter
    (·.order = k)
  rw [List.filter_filter] at kept
  simp only [Bool.and_self] at kept
  have length := ((List.mergeSort_perm given sooner).filter (·.order = k)).length_eq
  exact (kept.eq_of_length length.symm).symm

theorem SameTies.mergeSort (ties : SameTies given given') :
    given.mergeSort sooner = given'.mergeSort sooner :=
  unique ((mergeSort_sameTies given).trans (ties.trans (mergeSort_sameTies given').symm))
    (mergeSort_ascends given) (mergeSort_ascends given')

theorem SameTies.of_perm (perm : given.Perm given') (distinct : (given'.map order).Nodup) :
    SameTies given given' := by
  have same : given.mergeSort sooner = given'.mergeSort sooner := by
    refine List.Perm.eq_of_pairwise (fun a b inside inside' up down => ?_)
      (mergeSort_ascends given) (mergeSort_ascends given')
      ((List.mergeSort_perm given sooner).trans
        (perm.trans (List.mergeSort_perm given' sooner).symm))
    exact List.inj_on_of_nodup_map distinct (perm.subset (List.mem_mergeSort.mp inside))
      (List.mem_mergeSort.mp inside') (Int.le_antisymm up down)
  exact (mergeSort_sameTies given).symm.trans (same ▸ mergeSort_sameTies given')

@[simp] theorem onLoad_name (s : Stage) : s.onLoad.name = s.name := by cases s <;> rfl

end Stage

namespace Engine

theorem register_sameTies (ties : Stage.SameTies given given') (e : Engine) :
    e.register given = e.register given' := by
  have same : (given.mergeSort fun a b => a.order ≤ b.order) =
      given'.mergeSort fun a b => a.order ≤ b.order := ties.mergeSort
  rw [register, register, same]

theorem pass_run (host : Host) (stages : List Stage) (r : Run) :
    (pass host stages r).2.1 = stages.foldl (fun r s => (s.update host r).2.1) r := by
  induction stages generalizing r with
  | nil => rfl
  | cons s rest ih => rw [pass_cons, ih, List.foldl_cons]

end Engine

-- Requests that differ at most in the sequence in which stages of different orders are registered.
inductive Request.SameTies : Request → Request → Prop where
  | same (q : Request) : SameTies q q
  | register (ties : Stage.SameTies given given') : SameTies (.register given) (.register given')

namespace Engine

theorem serve_sameTies (ties : Request.SameTies q q') (e : Engine) : e.serve q = e.serve q' := by
  cases ties with
  | same => rfl
  | register ties => rw [serve, serve, register_sameTies ties]

theorem serveAll_sameTies (ties : List.Forall₂ Request.SameTies qs qs') (e : Engine) :
    qs.foldl serve e = qs'.foldl serve e := by
  induction ties generalizing e with
  | nil => rfl
  | cons first _ ih => rw [List.foldl_cons, List.foldl_cons, serve_sameTies first, ih]

theorem register_opens {e : Engine} (isOpen : e.closed = false) (free : e.locked = false)
    (given : List Stage) : ∃ e', e.register given = .ok e' := by
  simp only [register, isOpen, free, Bool.false_eq_true, if_false]
  cases e.run with
  | none => exact ⟨_, rfl⟩
  | some r => exact ⟨_, rfl⟩

def Executes (e : Engine) (pipeline : List Stage) : Prop :=
  ∀ (since : List Request) (now : Engine), since.foldl serve e = now → now.closed = false →
    now.stages.map Stage.onLoad = pipeline.map Stage.onLoad ∧
    ∀ r, now.run = some r → ∃ next, now.tick = .ok next ∧ next.run =
      some (now.stages.foldl (fun r s => (s.update now.host r).2.1) r.beginTick).endTick

theorem register_executes (done : register e given = .ok e') :
    e'.Executes (given.mergeSort Stage.sooner) := by
  obtain ⟨locked, registered⟩ := register_stages done
  rintro since now rfl isOpen
  refine ⟨((Carries.serveAll e' since).stages isOpen locked).trans registered, fun r loaded => ?_⟩
  simp only [tick, isOpen, loaded, Bool.false_eq_true, if_false]
  refine ⟨_, rfl, ?_⟩
  rw [← pass_run]

-- A pipeline is settled by the orders of its stages and, between stages of equal order, by the
-- sequence in which they are given: it is what was given, in ascending order. Whoever registers the
-- same stages in another sequence, but for such ties, has the same engine from then on, whatever is
-- asked of it. Among the stages of the standard pipeline there are no ties.
theorem order_settles_pipeline :
    (∀ (e : Engine) (given : List Stage), e.closed = false → e.locked = false →
      ∃ e' pipeline, e.register given = .ok e' ∧ e'.Executes pipeline ∧ pipeline.Perm given ∧
        pipeline.Pairwise (·.order ≤ ·.order) ∧ Stage.SameTies pipeline given) ∧
    (∀ (e : Engine) (given given' : List Stage), Stage.SameTies given given' →
      e.register given = e.register given') ∧
    (∀ (e : Engine) (qs qs' : List Request), List.Forall₂ Request.SameTies qs qs' →
      qs.foldl serve e = qs'.foldl serve e) ∧
    ∀ (e : Engine) (given : List Stage) (since : List Request), given.Perm Stage.standard →
      since.foldl serve (e.serve (.register given)) =
        since.foldl serve (e.serve (.register Stage.standard)) := by
  refine ⟨fun e given isOpen free => ?_, fun e _ _ ties => register_sameTies ties e,
    fun e _ _ ties => serveAll_sameTies ties e, fun e given since perm => ?_⟩
  · obtain ⟨e', done⟩ := register_opens isOpen free given
    exact ⟨e', _, done, register_executes done, List.mergeSort_perm .., Stage.mergeSort_ascends given,
      Stage.mergeSort_sameTies given⟩
  · have ties : Stage.SameTies given Stage.standard := .of_perm perm (by decide)
    rw [serve_sameTies (.register ties)]

-- Stages of the host's that do nothing, the middle two of one order.
def idlers : List Stage := [("early", 5), ("first", 100), ("second", 100), ("late", 200)].map
  fun (name, order) => .script ⟨name, order, [], fun _ => []⟩

def scattered : List Stage := [("late", 200), ("first", 100), ("second", 100), ("early", 5)].map
  fun (name, order) => .script ⟨name, order, [], fun _ => []⟩

theorem scattered_sameTies : Stage.SameTies scattered idlers := by
  intro k
  by_cases early : 5 = k
  · rw [← early]
    rfl
  · by_cases middle : 100 = k
    · rw [← middle]
      rfl
    · simp only [scattered, idlers, List.map_cons, List.map_nil, List.filter_cons, Stage.order, early,
        middle, decide_false, Bool.false_eq_true, if_false]

theorem scattered_settled :
    (∃ e', (ofConfig {} {}).register scattered = .ok e' ∧
      e'.stages.map Stage.name = ["early", "first", "second", "late"]) ∧
    [.register scattered, .load relay, .signal .tick].foldl serve (ofConfig {} {}) =
      [.register idlers, .load relay, .signal .tick].foldl serve (ofConfig {} {}) ∧
    [.load relay, .signal .tick].foldl serve
        ((ofConfig {} {}).serve (.register Stage.standard.reverse)) =
      [.load relay, .signal .tick].foldl serve
        ((ofConfig {} {}).serve (.register Stage.standard)) := by
  obtain ⟨settles, registers, serves, standard⟩ := order_settles_pipeline
  refine ⟨?_, serves _ _ _ (.cons (.register scattered_sameTies) (.cons (.same _) (.cons (.same _) .nil))),
    standard _ _ _ (List.reverse_perm _)⟩
  obtain ⟨e', pipeline, done, executes, _, ascends, ties⟩ := settles (ofConfig {} {}) scattered rfl rfl
  have sorted : idlers.Pairwise (·.order ≤ ·.order) := by decide
  have only := (ties.trans scattered_sameTies).unique ascends sorted
  obtain ⟨same, _⟩ := executes [] e' rfl (by cases done; rfl)
  rw [only] at same
  have names : e'.stages.map Stage.name = idlers.map Stage.name := by
    simpa [Function.comp_def] using congrArg (List.map Stage.name) same
  exact ⟨e', done, names⟩

end Engine
end ActionGraph
