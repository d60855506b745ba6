import ScenarioFsp.Proofs.Closure
import ScenarioFsp.Proofs.Search

/-!
# Paths through the pairs that were added

A relation comes about by adding pairs, in any order and with any repeats. Its closure
relates the two ends of every path through these pairs and nothing else, so it is the
least transitive relation that holds them all, and to close it once more adds nothing.

The closure is found by one search for each symbol, which starts from the symbols that
it is related to and not from the symbol itself. In whatever order a search puts symbols
onto its stack, it ends and has then found the ends of all paths from there
(`finds_closure`).
-/

namespace ScenarioFsp

namespace Relation

/-- The relation that is made by adding pairs one after the other. -/
def ofAdds (adds : List (Symbol × Symbol)) : Relation :=
  adds.foldl (fun r p => r.add p.1 p.2) .empty

/-- A path from `a` to `b` of one or more steps, each of them a pair that was added. -/
def Path (adds : List (Symbol × Symbol)) : Symbol → Symbol → Prop :=
  Relation.TransGen fun a b => (a, b) ∈ adds

variable {r : Relation} {adds : List (Symbol × Symbol)} {a b : Symbol}

theorem contains_iff : r.contains a b = true ↔ r.Relates a b := decide_eq_true_iff

theorem relates_ofAdds_iff : (ofAdds adds).Relates a b ↔ (a, b) ∈ adds := by
  have hpairs : adds.foldl (fun pairs p => pairs.insert p) .empty = (ofAdds adds).pairs :=
    List.foldl_hom Relation.pairs fun _ _ => rfl
  unfold Relates
  rw [← hpairs, OrderedSet.mem_foldl_insert]
  exact or_iff_left List.not_mem_nil

theorem path_iff : Path adds a b ↔ Relation.TransGen (ofAdds adds).Relates a b := by
  unfold Path
  simp only [← relates_ofAdds_iff]

/-! ## The closure of a closure -/

theorem ext_relates {s : Relation} (h : ∀ a b, r.Relates a b ↔ s.Relates a b) : r = s :=
  Relation.ext (OrderedSet.ext_mem fun p => h p.1 p.2)

theorem closure_closure : r.closure.closure = r.closure := by
  refine ext_relates fun a b => ?_
  rw [relates_closure_iff]
  refine ⟨fun h => ?_, .single⟩
  -- every step in the closure is itself a chain of steps
  induction h with
  | single h => exact h
  | tail _ h ih => exact relates_closure_iff.mpr ((relates_closure_iff.mp ih).trans
      (relates_closure_iff.mp h))

/-! ## The searches -/

/-- What a search finds that starts from the symbols to which `a` is related. -/
theorem reached_image_iff {todo : List Symbol} (htodo : todo.Perm (r.image a)) :
    Search.Reached (fun _ => True) r.image todo b ↔ r.closure.Relates a b := by
  rw [relates_closure_iff, Relation.TransGen.head'_iff]
  simp only [Search.Reached, htodo.mem_iff, mem_image_iff, and_true, true_and]

/-- **Every search ends, and finds what the closure relates its symbol to.** -/
theorem finds_closure {todo : List Symbol} (htodo : todo.Perm (r.image a)) :
    Search.Finds (fun _ => True) r.image todo fun b => r.closure.contains a b = true := by
  have hnodes : ∀ {x y}, y ∈ r.image x → y ∈ r.targets.toList.toFinset := fun hy =>
    List.mem_toFinset.mpr (mem_targets (mem_image_iff.mp hy))
  have hfinds : Search.Finds (fun _ => True) r.image todo
      (Search.Reached (fun _ => True) r.image todo) :=
    Search.finds (fun _ _ _ hy _ => hnodes hy) fun _ hy _ => hnodes (htodo.mem_iff.mp hy)
  refine ⟨hfinds.ends, fun s hrounds hstuck => ?_⟩
  obtain ⟨hend, hfound⟩ := hfinds.found_iff s hrounds hstuck
  refine ⟨hend, fun b => ?_⟩
  rw [hfound, reached_image_iff htodo, contains_iff]

/--
**The closure relates exactly the ends of paths.** Whatever pairs were added, the closure
of their relation relates two symbols if and only if a path of added pairs leads from the
first to the second. So it is transitive, holds the relation, and lies within every
transitive relation that does; a symbol is related to itself only if it lies on a cycle,
and the closure is its own closure. The search for each symbol ends, in whatever order it
goes, and what it has found then are the symbols that the closure relates the symbol to.
-/
theorem closure_relates_paths (adds : List (Symbol × Symbol)) :
    (∀ a b, (ofAdds adds).closure.contains a b = true ↔ Path adds a b) ∧
      (∀ a b c, (ofAdds adds).closure.contains a b = true →
        (ofAdds adds).closure.contains b c = true → (ofAdds adds).closure.contains a c = true) ∧
      (∀ a b, (ofAdds adds).contains a b = true → (ofAdds adds).closure.contains a b = true) ∧
      (∀ R : Symbol → Symbol → Prop, (∀ a b c, R a b → R b c → R a c) →
        (∀ a b, (ofAdds adds).contains a b = true → R a b) →
        ∀ a b, (ofAdds adds).closure.contains a b = true → R a b) ∧
      (∀ a, (ofAdds adds).closure.contains a a = true →
        ∃ b, (a, b) ∈ adds ∧ (b = a ∨ Path adds b a)) ∧
      (ofAdds adds).closure.closure = (ofAdds adds).closure ∧
      ∀ a todo, todo.Perm ((ofAdds adds).image a) →
        Search.Finds (fun _ => True) (ofAdds adds).image todo fun b =>
          (ofAdds adds).closure.contains a b = true := by
  have hpath : ∀ {a b}, (ofAdds adds).closure.contains a b = true ↔ Path adds a b := by
    intro a b
    rw [contains_iff, relates_closure_iff, path_iff]
  refine ⟨fun _ _ => hpath, fun a b c hab hbc => ?_, fun a b hab => ?_,
    fun R htrans hholds a b hab => ?_, fun a ha => ?_, closure_closure,
    fun _ _ htodo => finds_closure htodo⟩
  · exact hpath.mpr ((hpath.mp hab).trans (hpath.mp hbc))
  · exact hpath.mpr (.single (relates_ofAdds_iff.mp (contains_iff.mp hab)))
  · -- a relation that is transitive leads along every path
    have hstep : ∀ {x y}, (x, y) ∈ adds → R x y := fun h =>
      hholds _ _ (contains_iff.mpr (relates_ofAdds_iff.mpr h))
    induction hpath.mp hab with
    | single h => exact hstep h
    | tail hax hxy ih => exact htrans _ _ _ (ih (hpath.mpr hax)) (hstep hxy)
  · obtain ⟨b, hab, hba⟩ := Relation.TransGen.head'_iff.mp (hpath.mp ha)
    refine ⟨b, hab, ?_⟩
    rcases Relation.reflTransGen_iff_eq_or_transGen.mp hba with heq | hba
    · exact Or.inl heq.symm
    · exact Or.inr hba

/-- On a cycle everything is related to itself; what lies behind the cycle is not. -/
theorem closure_relates_paths_cycle :
    (ofAdds [("x", "y"), ("y", "x"), ("y", "z")]).closure.contains "x" "x" = true ∧
      (ofAdds [("x", "y"), ("y", "x"), ("y", "z")]).closure.contains "z" "z" = false ∧
      (∃ b, ("x", b) ∈ [("x", "y"), ("y", "x"), ("y", "z")] ∧
        (b = "x" ∨ Path [("x", "y"), ("y", "x"), ("y", "z")] b "x")) ∧
      Search.Finds (fun _ => True) (ofAdds [("x", "y"), ("y", "x"), ("y", "z")]).image ["z", "x"]
        fun b => (ofAdds [("x", "y"), ("y", "x"), ("y", "z")]).closure.contains "y" b = true := by
  obtain ⟨hpath, -, -, -, hcycle, -, hfinds⟩ :=
    closure_relates_paths [("x", "y"), ("y", "x"), ("y", "z")]
  have hx : (ofAdds [("x", "y"), ("y", "x"), ("y", "z")]).closure.contains "x" "x" = true :=
    (hpath "x" "x").mpr (.tail (.single (by decide)) (by decide : ("y", "x") ∈ _))
  refine ⟨hx, ?_, hcycle "x" hx, hfinds "y" ["z", "x"] (by decide)⟩
  refine Bool.eq_false_iff.mpr fun hz => ?_
  -- no step leads away from the last symbol
  obtain ⟨b, hb, -⟩ := hcycle "z" hz
  simp at hb

end Relation

end ScenarioFsp
