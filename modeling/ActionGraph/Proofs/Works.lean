import ActionGraph.Proofs.Deed
-- Deeds one after the other. What a stretch of them leaves alone, what it adds to the queues, and
-- that an action which acts once in it ends as its own deed settles it.
namespace ActionGraph

structure Work where
  run : Run
  action : Nat
  deed : Deed

namespace Work

def routes (w : Work) : List (Nat × Route) :=
  match w.deed.port? with
  | none => []
  | some port => w.run.routesOn w.action port

def sent (w : Work) : List Pulse :=
  (w.routes.filter fun t => w.run.open? 0 t.2).map fun t => t.2.pulse

def armed (w : Work) : List Deferred :=
  (w.routes.filter fun t => !w.run.open? 0 t.2).map fun t => ⟨t.1, w.run.tick⟩

end Work

namespace Run

theorem emitting_queues (r : Run) (i : Nat) (d : Deed) :
    (r.emitting i d).pending = r.pending ++ (⟨r, i, d⟩ : Work).sent ∧
      (r.emitting i d).deferred = r.deferred ++ (⟨r, i, d⟩ : Work).armed := by
  unfold emitting Work.sent Work.armed Work.routes
  cases d.port? with
  | none => simp
  | some port => exact ⟨rfl, rfl⟩

structure Keeps (r r' : Run) : Prop where
  plan : r'.plan = r.plan
  size : r'.statuses.length = r.statuses.length
  delivered : r'.delivered = r.delivered
  raised : r'.raised = r.raised
  tags : r'.tags = r.tags
  tick : r'.tick = r.tick

theorem Keeps.refl (r : Run) : r.Keeps r := ⟨rfl, rfl, rfl, rfl, rfl, rfl⟩

theorem Keeps.trans {a b c : Run} (ab : a.Keeps b) (bc : b.Keeps c) : a.Keeps c :=
  ⟨bc.plan.trans ab.plan, bc.size.trans ab.size, bc.delivered.trans ab.delivered,
    bc.raised.trans ab.raised, bc.tags.trans ab.tags, bc.tick.trans ab.tick⟩

theorem Does.keeps {r r' : Run} (done : r.Does i d r') : r.Keeps r' :=
  ⟨done.plan, by rw [done.statuses, List.length_modify], done.delivered, done.raised, done.tags,
    done.tick⟩

theorem Does.settled {r r' : Run} (done : r.Does i d r') (there : r.statuses[i]? = some s) :
    r'.statuses[i]? = some (d.settle s) := by
  rw [done.statuses, List.getElem?_modify_eq, there]; rfl

theorem Does.other {r r' : Run} (done : r.Does i d r') (differ : i ≠ j) :
    r'.statuses[j]? = r.statuses[j]? := by
  rw [done.statuses, List.getElem?_modify_ne _ _ differ]

inductive Works : Run → List Work → Run → Prop where
  | nil : Works r [] r
  | cons {i : Nat} (there : r.statuses[i]? = some s) (fits : d.Fits s) (done : r.Does i d next)
      (rest : Works next works r') : Works r (⟨r, i, d⟩ :: works) r'

namespace Works

theorem append (first : Works r a next) (second : Works next b r') : Works r (a ++ b) r' := by
  induction first with
  | nil => exact second
  | cons there fits done _ ih => exact .cons there fits done (ih second)

theorem keeps (works : Works r ws r') : r.Keeps r' := by
  induction works with
  | nil => exact .refl _
  | cons _ _ done _ ih => exact done.keeps.trans ih

theorem keeps_at (works : Works r ws r') (member : w ∈ ws) : r.Keeps w.run := by
  induction works with
  | nil => cases member
  | cons _ _ done _ ih =>
    rcases List.mem_cons.mp member with rfl | later
    · exact .refl _
    · exact done.keeps.trans (ih later)

theorem indexed (works : Works r ws r') (indexed : r.plan.Indexed) : r'.plan.Indexed :=
  works.keeps.plan ▸ indexed

theorem pending (works : Works r ws r') : r'.pending = r.pending ++ ws.flatMap Work.sent := by
  induction works with
  | nil => simp
  | cons _ _ done _ ih =>
    rw [ih, done.pending, (emitting_queues _ _ _).1, List.flatMap_cons, List.append_assoc]

theorem deferred (works : Works r ws r') : r'.deferred = r.deferred ++ ws.flatMap Work.armed := by
  induction works with
  | nil => simp
  | cons _ _ done _ ih =>
    rw [ih, done.deferred, (emitting_queues _ _ _).2, List.flatMap_cons, List.append_assoc]

theorem there (works : Works r ws r') (member : w ∈ ws) : w.action < r.statuses.length := by
  induction works with
  | nil => cases member
  | cons there _ done _ ih =>
    rcases List.mem_cons.mp member with rfl | later
    · exact (List.getElem?_eq_some_iff.mp there).1
    · exact done.keeps.size ▸ ih later

theorem other (works : Works r ws r') (idle : i ∉ ws.map Work.action) :
    r'.statuses[i]? = r.statuses[i]? := by
  induction works with
  | nil => rfl
  | cons _ _ done _ ih =>
    simp only [List.map_cons, List.mem_cons, not_or] at idle
    rw [ih idle.2, done.other (Ne.symm idle.1)]

theorem phase_other (works : Works r ws r') (idle : i ∉ ws.map Work.action) :
    r'.phase i = r.phase i := by
  rw [phase, works.other idle, phase]

theorem board (works : Works r (before ++ w :: after) r') (calm : ∀ v ∈ before, v.deed ≠ .finish) :
    w.run.board = r.board := by
  induction before generalizing r with
  | nil => cases works; rfl
  | cons _ rest ih =>
    cases works with
    | cons _ _ done works =>
      rw [ih works fun v member => calm v (List.mem_cons_of_mem _ member)]
      exact done.board (calm _ List.mem_cons_self)

theorem single (works : Works r ws r') (once : (ws.map Work.action).Nodup) (member : w ∈ ws) :
    ∃ s, r.statuses[w.action]? = some s ∧ w.run.statuses[w.action]? = some s ∧ w.deed.Fits s ∧
      r'.statuses[w.action]? = some (w.deed.settle s) := by
  induction works with
  | nil => cases member
  | @cons _ _ _ _ _ _ i there fits done rest ih =>
    obtain ⟨fresh, once⟩ := List.nodup_cons.mp once
    rcases List.mem_cons.mp member with rfl | later
    · exact ⟨_, there, there, fits, by rw [rest.other fresh, done.settled there]⟩
    · obtain ⟨s, before, found, fits, after⟩ := ih once later
      have again : w.action ∈ _ := List.mem_map_of_mem later
      have differ : i ≠ w.action := by rintro rfl; exact fresh again
      exact ⟨s, by rw [← done.other differ, before], found, fits, after⟩

end Works
end Run

def emissions (ws : List Work) (i : Nat) (port : String) : Nat :=
  ws.countP fun w => w.action = i ∧ w.deed.port? = some port

theorem emissions_append (a b : List Work) (i : Nat) (port : String) :
    emissions (a ++ b) i port = emissions a i port + emissions b i port := List.countP_append

theorem emissions_idle {ws : List Work} (idle : i ∉ ws.map Work.action) (port : String) :
    emissions ws i port = 0 := by
  refine List.countP_eq_zero.mpr fun w member => ?_
  simp only [decide_eq_true_eq, not_and]
  rintro rfl
  exact (idle (List.mem_map_of_mem member)).elim

theorem emissions_single {ws : List Work} (once : (ws.map Work.action).Nodup) (member : w ∈ ws)
    (port : String) :
    emissions ws w.action port = if w.deed.port? = some port then 1 else 0 := by
  induction ws with
  | nil => cases member
  | cons first rest ih =>
    obtain ⟨fresh, once⟩ := List.nodup_cons.mp once
    rcases List.mem_cons.mp member with rfl | later
    · rw [show w :: rest = [w] ++ rest from rfl, emissions_append, emissions_idle fresh]
      simp [emissions, List.countP_singleton]
    · have differ : first.action ≠ w.action := fun same => fresh (same ▸ List.mem_map_of_mem later)
      rw [show first :: rest = [first] ++ rest from rfl, emissions_append, ih once later,
        emissions_idle (by simpa using Ne.symm differ), Nat.zero_add]

def visits (f : σ → α → σ) : σ → List α → List (σ × α)
  | _, [] => []
  | s, a :: rest => (s, a) :: visits f (f s a) rest

@[simp] theorem visits_elements (f : σ → α → σ) (s : σ) (as : List α) :
    (visits f s as).map (·.2) = as := by
  induction as generalizing s with
  | nil => rfl
  | cons a rest ih => simp [visits, ih]

theorem foldl_count {f : σ → α → σ} (count : σ → Nat) (q : α → Bool) {as : List α} {s : σ}
    (step : ∀ v ∈ visits f s as, count (f v.1 v.2) = count v.1 + if q v.2 then 1 else 0) :
    count (as.foldl f s) = count s + as.countP q := by
  induction as generalizing s with
  | nil => rfl
  | cons a rest ih =>
    have here := step (s, a) List.mem_cons_self
    dsimp only at here
    rw [List.foldl_cons, ih fun v met => step v (List.mem_cons_of_mem _ met), here, List.countP_cons]
    omega

section View
variable {f : σ → α → σ} (view : σ → α → β)
  (steady : ∀ s a b, a ≠ b → view (f s a) b = view s b)
include steady

theorem view_other {as : List α} (absent : b ∉ as) : view (as.foldl f s) b = view s b := by
  induction as generalizing s with
  | nil => rfl
  | cons a rest ih =>
    simp only [List.mem_cons, not_or] at absent
    rw [List.foldl_cons, ih absent.2, steady _ _ _ (Ne.symm absent.1)]

theorem view_visit {as : List α} (once : as.Nodup) (met : v ∈ visits f s as) :
    view v.1 v.2 = view s v.2 ∧ view (as.foldl f s) v.2 = view (f v.1 v.2) v.2 := by
  induction as generalizing s with
  | nil => cases met
  | cons a rest ih =>
    obtain ⟨fresh, once⟩ := List.nodup_cons.mp once
    rcases List.mem_cons.mp met with rfl | later
    · exact ⟨rfl, view_other view steady fresh⟩
    · obtain ⟨before, after⟩ := ih once later
      have differ : a ≠ v.2 := by
        rintro rfl
        have member := List.mem_map_of_mem (f := Prod.snd) later
        rw [visits_elements] at member
        exact fresh member
      exact ⟨by rw [before, steady _ _ _ differ], after⟩

end View

theorem foldl_filter {f : σ → α → σ} (isOpen : σ → α → Bool)
    (skips : ∀ s a, isOpen s a = false → f s a = s)
    (steady : ∀ s a b, a ≠ b → isOpen (f s a) b = isOpen s b)
    {as : List α} (once : as.Nodup) (s : σ) :
    as.foldl f s = (as.filter (isOpen s)).foldl f s := by
  induction as generalizing s with
  | nil => rfl
  | cons a rest ih =>
    obtain ⟨fresh, once⟩ := List.nodup_cons.mp once
    have later : rest.filter (isOpen (f s a)) = rest.filter (isOpen s) :=
      List.filter_congr fun b member => steady s a b fun same => fresh (same ▸ member)
    rw [List.foldl_cons, ih once, later]
    cases here : isOpen s a with
    | true => rw [List.filter_cons_of_pos here, List.foldl_cons]
    | false => rw [List.filter_cons_of_neg (by simp [here]), skips s a here]

section Fold
variable (run : σ → Run) (f : σ → Nat → σ) (deed : σ → Nat → Deed) (isOpen : Status → Bool)
  (does : ∀ s i st, (run s).statuses[i]? = some st → isOpen st = true →
    (deed s i).Fits st ∧ (run s).Does i (deed s i) (run (f s i)))
include does

theorem fold_works {ps : List Nat} (once : ps.Nodup)
    (ready : ∀ i ∈ ps, (run s).statuses[i]?.any isOpen = true) :
    (run s).Works ((visits f s ps).map fun v => ⟨run v.1, v.2, deed v.1 v.2⟩)
        (run (ps.foldl f s)) ∧
      ∀ v ∈ visits f s ps, (run v.1).statuses[v.2]?.any isOpen = true := by
  induction ps generalizing s with
  | nil => exact ⟨.nil, by simp [visits]⟩
  | cons i rest ih =>
    obtain ⟨fresh, once⟩ := List.nodup_cons.mp once
    have here := ready i List.mem_cons_self
    obtain ⟨st, there, opens⟩ := (Option.any_eq_true ..).mp here
    obtain ⟨fits, done⟩ := does s i st there opens
    obtain ⟨works, later⟩ := ih (s := f s i) once fun j member => by
      have differ : i ≠ j := by rintro rfl; exact fresh member
      rw [done.other differ]
      exact ready j (List.mem_cons_of_mem _ member)
    refine ⟨.cons there fits done works, fun v met => ?_⟩
    rcases List.mem_cons.mp met with rfl | met
    · exact here
    · exact later v met

theorem fold_checked (skips : ∀ s i, (run s).statuses[i]?.any isOpen = false → f s i = s)
    {ps : List Nat} (once : ps.Nodup) (s : σ) :
    ps.foldl f s = (ps.filter fun i => (run s).statuses[i]?.any isOpen).foldl f s := by
  refine foldl_filter (fun s i => (run s).statuses[i]?.any isOpen) skips ?_ once s
  intro s i j differ
  cases here : (run s).statuses[i]?.any isOpen with
  | false => rw [skips s i here]
  | true =>
    obtain ⟨st, there, opens⟩ := (Option.any_eq_true ..).mp here
    rw [(does s i st there opens).2.other differ]

end Fold

end ActionGraph
