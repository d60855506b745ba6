import ScenarioFsp.Grammar.Basic
import ScenarioFsp.Proofs.Production

/-!
# Sound grammars

`check` accepts exactly the grammars in which a rule is stored under its own
symbol and its alternatives start with it (`check_eq_ok_iff`). From there on
nothing has to be known about how the rules are stored: a sound grammar is read
through `alternativesOf`, and every reduction is described by what it does to the
alternatives of each symbol.
-/

namespace ScenarioFsp

namespace Rule

theorem check_eq_ok_iff {r : Rule} :
    r.check = .ok () ↔ ∀ p ∈ r.alternatives, p.first? = some r.symbol := by
  unfold check
  refine ⟨fun h => ?_, fun h => ?_⟩
  · split at h
    · rename_i hnone
      intro p hp
      simpa using List.find?_eq_none.mp hnone p hp
    · split at h
      · exact absurd h (by simp)
      · exact absurd h (by simp)
  · have hnone : r.alternatives.find? (fun p => decide (p.first? ≠ some r.symbol)) = .none := by
      rw [List.find?_eq_none]
      intro p hp
      simpa using h p hp
    rw [hnone]

end Rule

namespace Grammar

/-- Rules are stored under their own symbol, and their alternatives start with it. -/
structure Sound (g : Grammar) : Prop where
  /-- A rule is found under its own symbol only. -/
  keyed : ∀ key r, g.rule? key = some r → r.symbol = key
  /-- The alternatives found under a symbol start with it. -/
  placed : ∀ key r p, g.rule? key = some r → p ∈ r.alternatives → p.first? = some key

/-! ## Looking rules up -/

theorem mem_entries_iff {g : Grammar} {key : Symbol} {r : Rule} :
    (key, r) ∈ g.rules.entries ↔ g.rule? key = some r :=
  OrderedMap.get?_eq_some_iff.symm

theorem hasRule_iff {g : Grammar} {s : Symbol} :
    g.hasRule s = true ↔ ∃ r, g.rule? s = some r :=
  Option.isSome_iff_exists

/-- Without a rule in `g`, `s` has none in a grammar whose rules are among those of `g`. -/
theorem hasRule_eq_false {g g' : Grammar} {s : Symbol}
    (h : g'.hasRule s = true → g.hasRule s = true) (hs : g.hasRule s = false) :
    g'.hasRule s = false := by
  rw [Bool.eq_false_iff] at hs ⊢
  exact fun hs' => hs (h hs')

theorem mem_symbols_iff {g : Grammar} {s : Symbol} : s ∈ g.symbols ↔ g.hasRule s = true :=
  OrderedMap.mem_keys_iff

theorem mem_alternativesOf_iff {g : Grammar} {s : Symbol} {p : Production} :
    p ∈ g.alternativesOf s ↔ ∃ r, g.rule? s = some r ∧ p ∈ r.alternatives := by
  unfold alternativesOf
  cases g.rule? s with
  | none => simp
  | some r => simp

theorem alternativesOf_eq {g : Grammar} {s : Symbol} {r : Rule} (h : g.rule? s = some r) :
    g.alternativesOf s = r.alternatives := by
  simp [alternativesOf, h]

theorem hasRule_of_mem {g : Grammar} {s : Symbol} {p : Production}
    (h : p ∈ g.alternativesOf s) : g.hasRule s = true := by
  obtain ⟨r, hr, _⟩ := mem_alternativesOf_iff.mp h
  exact hasRule_iff.mpr ⟨r, hr⟩

theorem mem_ruleList_iff {g : Grammar} {r : Rule} :
    r ∈ g.ruleList ↔ ∃ key, g.rule? key = some r := by
  simp only [ruleList, OrderedMap.values, List.mem_map]
  refine ⟨fun h => ?_, fun h => ?_⟩
  · obtain ⟨⟨key, r'⟩, h, rfl⟩ := h
    exact ⟨key, mem_entries_iff.mp h⟩
  · obtain ⟨key, h⟩ := h
    exact ⟨(key, r), mem_entries_iff.mpr h, rfl⟩

theorem mem_alternatives_iff {g : Grammar} {p : Production} :
    p ∈ g.alternatives ↔ ∃ s, p ∈ g.alternativesOf s := by
  simp only [alternatives, List.mem_flatMap, mem_ruleList_iff, mem_alternativesOf_iff]
  refine ⟨fun h => ?_, fun h => ?_⟩
  · obtain ⟨r, ⟨key, hr⟩, hp⟩ := h
    exact ⟨key, r, hr, hp⟩
  · obtain ⟨key, r, hr, hp⟩ := h
    exact ⟨r, ⟨key, hr⟩, hp⟩

/-! ## What the check says -/

theorem forM_eq_ok_iff {ε α : Type} {f : α → Except ε Unit} {l : List α} :
    forM l f = .ok () ↔ ∀ a ∈ l, f a = .ok () := by
  induction l with
  | nil => simp [pure, Except.pure]
  | cons a as ih =>
    rw [List.forM_cons]
    cases ha : f a with
    | error e => simp [bind, Except.bind, ha]
    | ok _ => simp [bind, Except.bind, ha, ih]

/-- The check accepts exactly the sound grammars. -/
theorem check_eq_ok_iff {g : Grammar} : g.check = .ok () ↔ g.Sound := by
  unfold check
  rw [List.forM_eq_forM, forM_eq_ok_iff]
  refine ⟨fun h => ?_, fun h => ?_⟩
  · have hentry : ∀ key r, g.rule? key = some r → key = r.symbol ∧ r.check = .ok () := by
      intro key r hr
      have := h (key, r) (mem_entries_iff.mpr hr)
      dsimp only at this
      split at this
      · rename_i hkey
        exact ⟨hkey, this⟩
      · exact absurd this (by simp)
    refine ⟨fun key r hr => (hentry key r hr).1.symm, fun key r p hr hp => ?_⟩
    obtain ⟨hkey, hcheck⟩ := hentry key r hr
    rw [hkey]
    exact Rule.check_eq_ok_iff.mp hcheck p hp
  · intro entry hmem
    obtain ⟨key, r⟩ := entry
    have hr := mem_entries_iff.mp hmem
    have hkey := h.keyed key r hr
    dsimp only
    rw [if_pos hkey.symm, Rule.check_eq_ok_iff, hkey]
    exact fun p hp => h.placed key r p hr hp

namespace Sound

variable {g : Grammar}

theorem first? (hg : g.Sound) {s : Symbol} {p : Production} (hp : p ∈ g.alternativesOf s) :
    p.first? = some s := by
  obtain ⟨r, hr, hpr⟩ := mem_alternativesOf_iff.mp hp
  exact hg.placed s r p hr hpr

/-- Every alternative ends somewhere. -/
theorem exists_last? (hg : g.Sound) {s : Symbol} {p : Production}
    (hp : p ∈ g.alternativesOf s) : ∃ e, p.last? = some e :=
  ⟨_, Production.last?_eq (hg.first? hp)⟩

theorem mem_ruleList_iff (hg : g.Sound) {r : Rule} :
    r ∈ g.ruleList ↔ g.rule? r.symbol = some r := by
  rw [Grammar.mem_ruleList_iff]
  refine ⟨fun h => ?_, fun hr => ⟨_, hr⟩⟩
  obtain ⟨key, hr⟩ := h
  rw [hg.keyed key r hr]
  exact hr

theorem hasRule_symbol (hg : g.Sound) {r : Rule} (hr : r ∈ g.ruleList) :
    g.hasRule r.symbol = true :=
  hasRule_iff.mpr ⟨r, hg.mem_ruleList_iff.mp hr⟩

/-- No alternative lacks symbols, so none of the readings of an alternative fails. -/
theorem needSymbols_eq_ok (hg : g.Sound) {fault : Fault} {ps : List Production}
    (h : ∀ p ∈ ps, ∃ s, p ∈ g.alternativesOf s) :
    Production.needSymbols fault ps = .ok () := by
  refine Production.needSymbols_eq_ok fun p hp => ?_
  obtain ⟨s, hs⟩ := h p hp
  exact ⟨s, hg.first? hs⟩

theorem needSymbols_alternatives (hg : g.Sound) (fault : Fault) :
    Production.needSymbols fault g.alternatives = .ok () :=
  hg.needSymbols_eq_ok fun _ hp => mem_alternatives_iff.mp hp

end Sound

/-! ## Storing a rule -/

theorem rule?_store (g : Grammar) (key : Symbol) (r : Rule) (s : Symbol) :
    (g.store key r).rule? s = if s = key then some r else g.rule? s :=
  OrderedMap.get?_insert _ _ _ _

/-! ## Keeping some rules -/

theorem rule?_keepRules (keep : Symbol → Bool) (g : Grammar) (s : Symbol) :
    (g.keepRules keep).rule? s = (g.rule? s).filter fun _ => keep s :=
  OrderedMap.get?_filter _ _ _

theorem hasRule_keepRules (keep : Symbol → Bool) (g : Grammar) (s : Symbol) :
    (g.keepRules keep).hasRule s = (g.hasRule s && keep s) := by
  show ((g.keepRules keep).rule? s).isSome = ((g.rule? s).isSome && keep s)
  rw [rule?_keepRules]
  cases g.rule? s with
  | none => rfl
  | some r => cases keep s <;> rfl

theorem alternativesOf_keepRules (keep : Symbol → Bool) (g : Grammar) (s : Symbol) :
    (g.keepRules keep).alternativesOf s = if keep s then g.alternativesOf s else [] := by
  unfold alternativesOf
  rw [rule?_keepRules]
  cases g.rule? s with
  | none => simp
  | some r => cases keep s <;> rfl

theorem Sound.keepRules {g : Grammar} (hg : g.Sound) (keep : Symbol → Bool) :
    (g.keepRules keep).Sound := by
  have hkept : ∀ key r, (g.keepRules keep).rule? key = some r → g.rule? key = some r := by
    intro key r hr
    rw [rule?_keepRules, Option.filter_eq_some_iff] at hr
    exact hr.1
  exact ⟨fun key r hr => hg.keyed key r (hkept key r hr),
    fun key r p hr hp => hg.placed key r p (hkept key r hr) hp⟩

/-! ## Changing every rule -/

theorem rule?_mapRules (f : Symbol → Rule → Rule) (g : Grammar) (s : Symbol) :
    (g.mapRules f).rule? s = (g.rule? s).map (f s) :=
  OrderedMap.get?_mapValues _ _ _

theorem hasRule_mapRules (f : Symbol → Rule → Rule) (g : Grammar) (s : Symbol) :
    (g.mapRules f).hasRule s = g.hasRule s := by
  show ((g.mapRules f).rule? s).isSome = (g.rule? s).isSome
  rw [rule?_mapRules, Option.isSome_map]

theorem hasRule_mapAlternatives (f : List Production → List Production) (g : Grammar)
    (s : Symbol) : (g.mapAlternatives f).hasRule s = g.hasRule s :=
  hasRule_mapRules _ _ _

theorem alternativesOf_mapAlternatives {f : List Production → List Production} (hf : f [] = [])
    (g : Grammar) (s : Symbol) :
    (g.mapAlternatives f).alternativesOf s = f (g.alternativesOf s) := by
  unfold alternativesOf mapAlternatives
  rw [rule?_mapRules]
  cases g.rule? s with
  | none => exact hf.symm
  | some r => rfl

/-- A change that keeps the symbols of the rules and the starts of the alternatives is sound. -/
theorem Sound.mapRules {g : Grammar} (hg : g.Sound) {f : Symbol → Rule → Rule}
    (hf : ∀ key r, g.rule? key = some r →
      (f key r).symbol = r.symbol ∧ ∀ p ∈ (f key r).alternatives, p.first? = some key) :
    (g.mapRules f).Sound := by
  have hmapped : ∀ key r, (g.mapRules f).rule? key = some r →
      ∃ r', g.rule? key = some r' ∧ f key r' = r := by
    intro key r hr
    rw [rule?_mapRules, Option.map_eq_some_iff] at hr
    exact hr
  refine ⟨?_, ?_⟩
  · intro key r hr
    obtain ⟨r', hr', rfl⟩ := hmapped key r hr
    rw [(hf key r' hr').1]
    exact hg.keyed key r' hr'
  · intro key r p hr hp
    obtain ⟨r', hr', rfl⟩ := hmapped key r hr
    exact (hf key r' hr').2 p hp

theorem Sound.mapAlternatives {g : Grammar} (hg : g.Sound)
    {f : List Production → List Production}
    (hf : ∀ s, ∀ p ∈ f (g.alternativesOf s), p.first? = some s) :
    (g.mapAlternatives f).Sound := by
  refine hg.mapRules fun key r hr => ⟨rfl, fun p hp => hf key p ?_⟩
  rw [alternativesOf_eq hr]
  exact hp

/-! ## Changing nothing -/

theorem eq_of_rule? {g g' : Grammar} (h : ∀ s, g'.rule? s = g.rule? s) : g' = g :=
  Grammar.ext (OrderedMap.ext_get? h)

theorem keepRules_eq_self {g : Grammar} {keep : Symbol → Bool}
    (h : ∀ s, g.hasRule s = true → keep s = true) : g.keepRules keep = g := by
  refine eq_of_rule? fun s => ?_
  rw [rule?_keepRules]
  cases hs : g.rule? s with
  | none => rfl
  | some r => rw [Option.filter_some, h s (hasRule_iff.mpr ⟨r, hs⟩), if_pos rfl]

theorem mapRules_eq_self {g : Grammar} {f : Symbol → Rule → Rule}
    (h : ∀ s r, g.rule? s = some r → f s r = r) : g.mapRules f = g := by
  refine eq_of_rule? fun s => ?_
  rw [rule?_mapRules]
  cases hs : g.rule? s with
  | none => rfl
  | some r => rw [Option.map_some, h s r hs]

theorem mapAlternatives_eq_self {g : Grammar} {f : List Production → List Production}
    (h : ∀ r ∈ g.ruleList, f r.alternatives = r.alternatives) : g.mapAlternatives f = g := by
  refine mapRules_eq_self fun s r hr => ?_
  rw [h r (mem_ruleList_iff.mpr ⟨s, hr⟩)]

end Grammar

end ScenarioFsp
