-- Tables keyed by text. Entries stand in ascending order of their keys, so two tables with the
-- same content are the same table, and walking one has a fixed order.
namespace ActionGraph

structure Keyed (α : Type) where
  entries : List (String × α)
  ascending : entries.Pairwise fun a b => a.1 < b.1

namespace Keyed

def find (key : String) : List (String × α) → Option α
  | [] => none
  | (k, v) :: rest => if k = key then some v else find key rest

def place (key : String) (value : α) : List (String × α) → List (String × α)
  | [] => [(key, value)]
  | (k, v) :: rest =>
    if key < k then (key, value) :: (k, v) :: rest
    else if k = key then (key, value) :: rest
    else (k, v) :: place key value rest

theorem mem_place {key : String} {value : α} {entry : String × α} :
    {entries : List (String × α)} → entry ∈ place key value entries → entry.1 = key ∨ entry ∈ entries
  | [], h => by simp only [place, List.mem_singleton] at h; exact .inl (by rw [h])
  | (k, v) :: rest, h => by
    unfold place at h
    split at h
    · rcases List.mem_cons.mp h with rfl | h
      · exact .inl rfl
      · exact .inr h
    · split at h
      · rcases List.mem_cons.mp h with rfl | h
        · exact .inl rfl
        · exact .inr (List.mem_cons_of_mem _ h)
      · rcases List.mem_cons.mp h with rfl | h
        · exact .inr List.mem_cons_self
        · exact (mem_place h).imp id (List.mem_cons_of_mem _)

theorem place_ascending (key : String) (value : α) :
    {entries : List (String × α)} → entries.Pairwise (fun a b => a.1 < b.1) →
      (place key value entries).Pairwise fun a b => a.1 < b.1
  | [], _ => List.pairwise_singleton ..
  | (k, v) :: rest, h => by
    obtain ⟨first, later⟩ := List.pairwise_cons.mp h
    unfold place
    split
    · next lt =>
      refine List.pairwise_cons.mpr ⟨fun e he => ?_, h⟩
      rcases List.mem_cons.mp he with rfl | he
      · exact lt
      · exact String.lt_trans lt (first e he)
    · next notLt =>
      split
      · next same => exact List.pairwise_cons.mpr ⟨fun e he => same ▸ first e he, later⟩
      · next differ =>
        refine List.pairwise_cons.mpr ⟨fun e he => ?_, place_ascending key value later⟩
        rcases mem_place he with same | he
        · show k < e.1
          rw [same]
          exact String.not_le.mp fun le => differ (String.le_antisymm (String.not_lt.mp notLt) le)
        · exact first e he

def empty : Keyed α := ⟨[], .nil⟩

instance : Inhabited (Keyed α) := ⟨empty⟩
instance : EmptyCollection (Keyed α) := ⟨empty⟩

def get? (table : Keyed α) (key : String) : Option α := find key table.entries
def contains (table : Keyed α) (key : String) : Bool := (table.get? key).isSome
def insert (table : Keyed α) (key : String) (value : α) : Keyed α :=
  ⟨place key value table.entries, place_ascending key value table.ascending⟩
def erase (table : Keyed α) (key : String) : Keyed α :=
  ⟨table.entries.filter (·.1 ≠ key), table.ascending.filter _⟩
def map (f : α → β) (table : Keyed α) : Keyed β :=
  ⟨table.entries.map fun e => (e.1, f e.2), List.pairwise_map.mpr table.ascending⟩
def size (table : Keyed α) : Nat := table.entries.length
def isEmpty (table : Keyed α) : Bool := table.entries.isEmpty

def ofList (pairs : List (String × α)) : Keyed α :=
  pairs.foldl (fun table pair => table.insert pair.1 pair.2) empty

theorem ext {a b : Keyed α} (same : a.entries = b.entries) : a = b := by
  cases a; cases b; cases same; rfl

instance [DecidableEq α] : DecidableEq (Keyed α) := fun a b =>
  if same : a.entries = b.entries then .isTrue (ext same)
  else .isFalse fun equal => same (equal ▸ rfl)

theorem find_place (key other : String) (value : α) :
    (entries : List (String × α)) →
      find other (place key value entries) = if key = other then some value else find other entries
  | [] => rfl
  | (k, v) :: rest => by
    unfold place
    split
    · rfl
    · split
      · next same => subst same; simp only [find]; split <;> rfl
      · next differ =>
        simp only [find, find_place key other value rest]
        split
        · next hit => subst hit; rw [if_neg fun h => differ h.symm]
        · rfl

theorem find_erase (key other : String) :
    (entries : List (String × α)) →
      find other (entries.filter (·.1 ≠ key)) = if key = other then none else find other entries
  | [] => by simp [find]
  | (k, v) :: rest => by
    have later := find_erase key other rest
    by_cases same : k = key
    · subst same
      by_cases hit : k = other <;> simp_all [find]
    · by_cases hit : k = other
      · subst hit
        simp_all [find, Ne.symm]
      · simp_all [find]

@[simp] theorem get?_empty (key : String) : (empty : Keyed α).get? key = none := rfl

theorem get?_insert (table : Keyed α) (key other : String) (value : α) :
    (table.insert key value).get? other = if key = other then some value else table.get? other :=
  find_place key other value table.entries

theorem get?_erase (table : Keyed α) (key other : String) :
    (table.erase key).get? other = if key = other then none else table.get? other :=
  find_erase key other table.entries

end Keyed
end ActionGraph
