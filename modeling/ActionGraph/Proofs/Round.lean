import ActionGraph.Stage
import ActionGraph.Proofs.Works
-- Rounds: a stage takes every action of its kinds that is to be driven, and each of them once, with
-- a deed that suits the kind.
namespace ActionGraph

-- The kinds that complete without sending, and the ones that send on the default port.
def quietKinds : List String := [Assign.kind, Spawn.kind, Warning.kind, Log.kind]
def outKinds : List String :=
  [Action.startKind, Action.fanoutKind, Action.joinKind, Action.endKind, Delay.kind, Trigger.kind]

def Deed.Suits (kind : String) : Deed → Prop
  | rest => kind = Delay.kind
  | listen => kind = Action.joinKind ∨ kind = Trigger.kind
  | finish => kind ∈ quietKinds
  | finishOn port =>
    (kind = Filter.kind ∧ ∃ o : Outcome, port = o.port) ∨ (kind ∈ outKinds ∧ port = "out")
  | pulse => kind = Trigger.kind
  | propagate => False

theorem Deed.Suits.fits {d : Deed} (suits : d.Suits kind) {st : Status}
    (active : st.phase.isActive = true) : d.Fits st := by
  cases d with
  | propagate => exact suits.elim
  | _ => exact active

-- Actions are driven while they run; a trigger also while it listens.
def Driven (kind : String) (phase : Phase) : Prop :=
  phase = .running ∨ kind = Trigger.kind ∧ phase = .listening

structure Run.Round (kinds : List String) (r : Run) (ws : List Work) (r' : Run) : Prop where
  works : r.Works ws r'
  once : (ws.map Work.action).Nodup
  acts : ∀ i, i ∈ ws.map Work.action ↔
    ∃ kind ∈ kinds, r.plan.kind? i = some kind ∧ Driven kind (r.phase i)
  suits : ∀ w ∈ ws, ∀ kind, r.plan.kind? w.action = some kind → w.deed.Suits kind

namespace Run.Round

theorem not_acts (round : Round kinds r ws r') (isKind : r.plan.kind? i = some kind)
    (foreign : kind ∉ kinds) : i ∉ ws.map Work.action := by
  rw [round.acts]
  rintro ⟨k, known, isK, _⟩
  rw [isKind, Option.some.injEq] at isK
  exact foreign (isK ▸ known)

theorem not_member (round : Round [kind] r ws r') (other : r.plan.kind? i ≠ some kind) :
    i ∉ ws.map Work.action := by
  rw [round.acts]
  rintro ⟨k, known, isK, _⟩
  exact other (List.mem_singleton.mp known ▸ isK)

theorem foreign (round : Round kinds r ws r') (isKind : r.plan.kind? i = some kind)
    (foreign : kind ∉ kinds) : r'.statuses[i]? = r.statuses[i]? :=
  round.works.other (round.not_acts isKind foreign)

theorem append (first : Round ks r a next) (second : Round ls next b r') (apart : ∀ kind ∈ ks, kind ∉ ls) :
    Round (ks ++ ls) r (a ++ b) r' := by
  have plan := first.works.keeps.plan
  have met : ∀ i, i ∈ b.map Work.action ↔
      ∃ kind ∈ ls, r.plan.kind? i = some kind ∧ Driven kind (r.phase i) := by
    intro i
    rw [second.acts, plan]
    refine exists_congr fun kind => and_congr_right fun known => and_congr_right fun isKind => ?_
    have before := first.foreign isKind fun early => apart kind early known
    rw [phase, phase, before]
  refine ⟨first.works.append second.works, ?_, ?_, ?_⟩
  · rw [List.map_append]
    refine List.nodup_append.mpr ⟨first.once, second.once, ?_⟩
    rintro i early _ late rfl
    obtain ⟨k, inK, isK, _⟩ := (first.acts i).mp early
    obtain ⟨l, inL, isL, _⟩ := (met i).mp late
    rw [isK, Option.some.injEq] at isL
    exact apart k inK (isL ▸ inL)
  · intro i
    rw [List.map_append, List.mem_append, first.acts, met]
    simp only [List.mem_append, or_and_right, exists_or]
  · intro w member kind isKind
    rcases List.mem_append.mp member with early | late
    · exact first.suits w early kind isKind
    · exact second.suits w late kind (plan ▸ isKind)

end Run.Round

def openOnes (isOpen : Phase → Bool) (kind : String) (r : Run) : List Nat :=
  (r.plan.ofKind kind).filter fun i => isOpen (r.phase i)

theorem openOnes_nodup (isOpen : Phase → Bool) (kind : String) {r : Run} (indexed : r.plan.Indexed) :
    (openOnes isOpen kind r).Nodup := (Plan.ofKind_nodup indexed kind).filter _

theorem open_phase {isOpen : Phase → Bool} (active : ∀ p, isOpen p = true → p.isActive = true)
    (r : Run) (i : Nat) : isOpen (r.phase i) = r.statuses[i]?.any fun st => isOpen st.phase := by
  cases there : r.statuses[i]? with
  | none =>
    rw [Run.phase, there]
    exact Bool.eq_false_iff.mpr fun idle => absurd (active _ idle) (by decide)
  | some st => rw [Run.phase_of there]; rfl

section Loop
variable (run : σ → Run) (f : σ → Nat → σ) (deed : σ → Nat → Deed) {isOpen : Phase → Bool}
  {kind : String} (active : ∀ p, isOpen p = true → p.isActive = true)
  (does : ∀ s i st, (run s).statuses[i]? = some st → isOpen st.phase = true →
    (deed s i).Suits kind ∧ (run s).Does i (deed s i) (run (f s i)))
include active does

theorem loop_works (indexed : (run s).plan.Indexed) :
    (run s).Works ((visits f s (openOnes isOpen kind (run s))).map fun v =>
        ⟨run v.1, v.2, deed v.1 v.2⟩) (run ((openOnes isOpen kind (run s)).foldl f s)) ∧
      ∀ v ∈ visits f s (openOnes isOpen kind (run s)),
        ∃ st, (run v.1).statuses[v.2]? = some st ∧ isOpen st.phase = true := by
  obtain ⟨works, met⟩ := fold_works run f deed (fun st => isOpen st.phase)
    (fun s i st there opens => ⟨(does s i st there opens).1.fits (active _ opens),
      (does s i st there opens).2⟩) (openOnes_nodup isOpen kind indexed) (s := s) fun i member => by
        rw [← open_phase active]; exact (List.mem_filter.mp member).2
  exact ⟨works, fun v visited => (Option.any_eq_true ..).mp (met v visited)⟩

theorem loop_round (driven : ∀ p, Driven kind p ↔ isOpen p = true) (indexed : (run s).plan.Indexed) :
    (run s).Round [kind]
      ((visits f s (openOnes isOpen kind (run s))).map fun v => ⟨run v.1, v.2, deed v.1 v.2⟩)
      (run ((openOnes isOpen kind (run s)).foldl f s)) := by
  obtain ⟨works, ready⟩ := loop_works run f deed active does indexed
  have actions : ((visits f s (openOnes isOpen kind (run s))).map fun v =>
      (⟨run v.1, v.2, deed v.1 v.2⟩ : Work)).map Work.action = openOnes isOpen kind (run s) := by
    rw [List.map_map]; exact visits_elements ..
  refine ⟨works, by rw [actions]; exact openOnes_nodup isOpen kind indexed, ?_, ?_⟩
  · intro i
    rw [actions, openOnes, List.mem_filter, Plan.mem_ofKind indexed, ← driven]
    simp
  · intro w member k isKind
    have acts : w.action ∈ openOnes isOpen kind (run s) := actions ▸ List.mem_map_of_mem member
    have same := (Plan.mem_ofKind indexed).mp (List.mem_filter.mp acts).1
    obtain ⟨v, met, rfl⟩ := List.mem_map.mp member
    obtain ⟨st, there, here⟩ := ready v met
    rw [isKind, Option.some.injEq] at same
    exact same ▸ (does v.1 v.2 st there here).1

theorem loop_checked (skips : ∀ s i, isOpen ((run s).phase i) = false → f s i = s)
    (indexed : (run s).plan.Indexed) :
    ((run s).plan.ofKind kind).foldl f s = (openOnes isOpen kind (run s)).foldl f s := by
  rw [fold_checked run f deed (fun st => isOpen st.phase)
    (fun s i st there opens => ⟨(does s i st there opens).1.fits (active _ opens),
      (does s i st there opens).2⟩)
    (fun s i closed => skips s i (by rw [open_phase active]; exact closed))
    (Plan.ofKind_nodup indexed kind)]
  exact congrArg _ (List.filter_congr fun i _ => (open_phase active _ _).symm)

end Loop
end ActionGraph
