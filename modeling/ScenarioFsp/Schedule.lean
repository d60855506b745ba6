/-!
# Jobs that are done at the same time

Workers take jobs from a list, and nobody knows in which order they get done. Every result
is put into the slot of its job, and the slots are read in their order when all is done. So
the results do not depend on the schedule (`collect_eq_map`).
-/

namespace ScenarioFsp

/-- The order in which jobs get done, for any number of them: each of them does, and once. -/
structure Schedule where
  order : Nat → List Nat
  perm : ∀ jobs, (order jobs).Perm (List.range jobs)

namespace Schedule

/-- One worker takes the jobs in turn. -/
def inTurn : Schedule := ⟨List.range, fun _ => .refl _⟩

/-- The job that is taken up last gets done first. -/
def lastFirst : Schedule := ⟨fun jobs => (List.range jobs).reverse, fun _ => List.reverse_perm _⟩

variable {α β : Type}

/-- The slots after some jobs have got done. -/
def fill (job : α → β) (as : List α) (slots : List (Option β)) (done : List Nat) :
    List (Option β) :=
  done.foldl (fun slots i => slots.set i (as[i]?.map job)) slots

/-- Does a job on each of the elements, and collects the results in their order. -/
def collect (s : Schedule) (job : α → β) (as : List α) : List β :=
  (fill job as (List.replicate as.length none) (s.order as.length)).filterMap id

/-- A job that has got done has its result in its slot. -/
theorem getElem?_fill (job : α → β) (as : List α) {slots : List (Option β)} (done : List Nat)
    {i : Nat} (hi : i < slots.length) : (fill job as slots done)[i]? =
      if i ∈ done then some (as[i]?.map job) else slots[i]? := by
  unfold fill
  induction done generalizing slots with
  | nil => simp
  | cons first done ih =>
      rw [List.foldl_cons, ih (by rwa [List.length_set])]
      by_cases hdone : i ∈ done
      · simp [hdone]
      · by_cases hfirst : i = first
        · subst hfirst
          simp [hdone, hi]
        · simp [hdone, hfirst, List.getElem?_set_ne (Ne.symm hfirst)]

theorem length_fill (job : α → β) (as : List α) (slots : List (Option β)) (done : List Nat) :
    (fill job as slots done).length = slots.length := by
  unfold fill
  induction done generalizing slots with
  | nil => rfl
  | cons first done ih => rw [List.foldl_cons, ih, List.length_set]

/-- **In whatever order the jobs get done, their results are in the order of the jobs.** -/
theorem collect_eq_map (s : Schedule) (job : α → β) (as : List α) :
    s.collect job as = as.map job := by
  have hslots : fill job as (List.replicate as.length none) (s.order as.length) =
      as.map fun a => some (job a) := by
    refine List.ext_getElem (by rw [length_fill, List.length_replicate, List.length_map])
      fun i hfill hi => ?_
    rw [List.length_map] at hi
    have hdone : i ∈ s.order as.length := (s.perm as.length).mem_iff.mpr (List.mem_range.mpr hi)
    have hslot := getElem?_fill job as (s.order as.length)
      (show i < (List.replicate as.length (none : Option β)).length by rwa [List.length_replicate])
    rw [if_pos hdone, List.getElem?_eq_getElem hfill, List.getElem?_eq_getElem hi] at hslot
    rw [Option.some.inj hslot, List.getElem_map]
    rfl
  unfold collect
  rw [hslots, List.filterMap_map]
  exact congrFun List.filterMap_eq_map' as

end Schedule

end ScenarioFsp
