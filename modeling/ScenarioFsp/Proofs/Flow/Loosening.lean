import ScenarioFsp.Proofs.Flow.Derivation
import ScenarioFsp.Proofs.Grammar.Traces
import ScenarioFsp.Proofs.History

/-!
# More orderings, more behaviour

One more edge, or one more initial mark, lets scenarios come in an order in which they could
not come before. Every component can then still do what it could do before.

This is not plain from the way in which its grammar is derived. A production that is linked to
nothing stays where it stands, and as soon as it is linked to something it is copied there and
leaves its place. But edges and marks add links only at the beginnings of scenarios, and these
have been linked to themselves all along (`LoosensTo.exists_links`). So a start that leads
nowhere still leads nowhere, and all other starts lead at least as far as before.
-/

namespace ScenarioFsp

open ScenarioFsp.Symbol (beginOf endOf)

namespace Specification

variable {spec spec' spec'' : Specification} {c : Component} {history : List Call}

/-! ## Calls that allow more -/

/-- The call allows more orderings of declared scenarios: it adds an edge or an initial mark. -/
def Call.Loosens (spec : Specification) : Call → Prop
  | edge source target => spec.declares source = true ∧ spec.declares target = true
  | initial id => spec.declares id = true
  | _ => False

/-- The same scenarios, components and final marks; the edges and the initial marks are still
there, and any new ones are about declared scenarios. -/
structure LoosensTo (spec spec' : Specification) : Prop where
  scenarios : spec'.scenarios = spec.scenarios
  components : spec'.components = spec.components
  finals : spec'.finals = spec.finals
  edges : ∀ e ∈ spec.edges, e ∈ spec'.edges
  initial : ∀ id ∈ spec.initial, id ∈ spec'.initial
  new_edges : ∀ e ∈ spec'.edges, e ∈ spec.edges ∨
    (spec.declares e.source = true ∧ spec.declares e.target = true)
  new_initial : ∀ id ∈ spec'.initial, id ∈ spec.initial ∨ spec.declares id = true

theorem LoosensTo.declares (h : spec.LoosensTo spec') (id : ScenarioId) :
    spec'.declares id = spec.declares id := by
  unfold Specification.declares
  rw [h.scenarios]

theorem LoosensTo.nameOf (h : spec.LoosensTo spec') (id : ScenarioId) :
    spec'.nameOf id = spec.nameOf id := by
  unfold Specification.nameOf Specification.scenario?
  rw [h.scenarios]

theorem loosensTo_refl (spec : Specification) : spec.LoosensTo spec :=
  ⟨rfl, rfl, rfl, fun _ he => he, fun _ hid => hid, fun _ he => Or.inl he, fun _ hid => Or.inl hid⟩

theorem LoosensTo.trans (h : spec.LoosensTo spec') (h' : spec'.LoosensTo spec'') :
    spec.LoosensTo spec'' where
  scenarios := h'.scenarios.trans h.scenarios
  components := h'.components.trans h.components
  finals := h'.finals.trans h.finals
  edges e he := h'.edges e (h.edges e he)
  initial id hid := h'.initial id (h.initial id hid)
  new_edges e he := by
    rcases h'.new_edges e he with hold | hnew
    · exact h.new_edges e hold
    · rw [h.declares, h.declares] at hnew
      exact Or.inr hnew
  new_initial id hid := by
    rcases h'.new_initial id hid with hold | hnew
    · exact h.new_initial id hold
    · rw [h.declares] at hnew
      exact Or.inr hnew

/-- **One call** that allows more is granted. -/
theorem call_loosens {call : Call} (h : call.Loosens spec) :
    ∃ spec', spec.call call = .ok (none, spec') ∧ spec.LoosensTo spec' := by
  cases call with
  | edge s t =>
      refine ⟨_, rfl, scenarios_addEdge, components_addEdge, finals_addEdge,
        fun e he => mem_edges_addEdge.mpr (Or.inr he), ?_, fun e he => ?_, ?_⟩
      · rw [initial_addEdge]
        exact fun id hid => hid
      · rcases mem_edges_addEdge.mp he with rfl | hold
        · exact Or.inr h
        · exact Or.inl hold
      · rw [initial_addEdge]
        exact fun id hid => Or.inl hid
  | initial id =>
      refine ⟨_, rfl, rfl, rfl, rfl, fun e he => he, fun i hi => mem_addOnce.mpr (Or.inr hi),
        fun e he => Or.inl he, fun i hi => ?_⟩
      rcases mem_addOnce.mp hi with rfl | hold
      · exact Or.inr h
      · exact Or.inl hold
  | scenario name => exact absurd h id
  | component name => exact absurd h id
  | lifeline component scenario events => exact absurd h id
  | final id => exact absurd h (fun hf => hf)

/-- **Any number of such calls** are granted. -/
theorem after_loosens (h : ∀ call ∈ history, call.Loosens spec) :
    ∃ spec', spec.after history = .ok spec' ∧ spec.LoosensTo spec' := by
  induction history using List.reverseRecOn with
  | nil => exact ⟨spec, rfl, loosensTo_refl spec⟩
  | append_singleton history call ih =>
      obtain ⟨before, hbefore, hloosens⟩ := ih fun call hcall => h call (List.mem_append_left _ hcall)
      have hlast : call.Loosens before := by
        have hspec := h call (List.mem_append_right _ List.mem_cons_self)
        unfold Call.Loosens at hspec ⊢
        simpa only [hloosens.declares] using hspec
      obtain ⟨spec', hcall, hstep⟩ := call_loosens hlast
      exact ⟨spec', after_concat_eq_ok_iff.mpr ⟨before, none, hbefore, hcall⟩, hloosens.trans hstep⟩

theorem LoosensTo.resolves (h : spec.LoosensTo spec') (hres : spec.Resolves c) :
    spec'.Resolves c where
  sources e he := by
    rw [h.declares]
    rcases h.new_edges e he with hold | hnew
    · exact hres.sources e hold
    · exact hnew.1
  targets e he := by
    rw [h.declares]
    rcases h.new_edges e he with hold | hnew
    · exact hres.targets e hold
    · exact hnew.2
  initial id hid := by
    rw [h.declares]
    rcases h.new_initial id hid with hold | hnew
    · exact hres.initial id hold
    · exact hnew
  finals id hid := by
    rw [h.declares]
    rw [h.finals] at hid
    exact hres.finals id hid
  lifelines id hid := by
    rw [h.declares]
    exact hres.lifelines id hid

/-! ## More links -/

theorem LoosensTo.links (h : spec.LoosensTo spec') {a b : Symbol} (hlink : spec.Links c a b) :
    spec'.Links c a b := by
  cases hlink with
  | atBegin hid =>
      rw [← h.declares] at hid
      rw [← h.nameOf]
      exact .atBegin hid
  | atEnd hid =>
      rw [← h.declares] at hid
      rw [← h.nameOf]
      exact .atEnd hid
  | edge he =>
      rw [← h.nameOf, ← h.nameOf]
      exact .edge (h.edges _ he)
  | initial hid =>
      rw [← h.nameOf]
      exact .initial (h.initial _ hid)
  | final hid =>
      rw [← h.nameOf]
      exact .final (h.finals ▸ hid)
  | atInit => exact .atInit
  | shared hid hab =>
      rw [← h.declares] at hid
      rw [← h.nameOf] at hab
      exact .shared hid hab

/-- **No point is linked for the first time**: what is new starts at the beginning of a scenario. -/
theorem LoosensTo.exists_links (h : spec.LoosensTo spec') (hres : spec.Resolves c) {a b : Symbol}
    (hlink : spec'.Links c a b) : ∃ z, spec.Links c a z := by
  have hres' := h.resolves hres
  cases hlink with
  | atBegin hid =>
      rw [h.declares] at hid
      rw [h.nameOf]
      exact ⟨_, .atBegin hid⟩
  | atEnd hid =>
      rw [h.declares] at hid
      rw [h.nameOf]
      exact ⟨_, .atEnd hid⟩
  | edge he =>
      have hid := hres'.targets _ he
      rw [h.declares] at hid
      rw [h.nameOf]
      exact ⟨_, .atBegin hid⟩
  | initial hid =>
      have hdecl := hres'.initial _ hid
      rw [h.declares] at hdecl
      rw [h.nameOf]
      exact ⟨_, .atBegin hdecl⟩
  | final hid => exact ⟨_, .final (h.finals ▸ hid)⟩
  | atInit => exact ⟨_, .atInit⟩
  | shared hid hab =>
      rw [h.declares] at hid
      rw [h.nameOf] at hab
      exact ⟨_, .shared hid hab⟩

theorem LoosensTo.leadsTo (h : spec.LoosensTo spec') (hres : spec.Resolves c) {a b : Symbol}
    (hleads : spec.LeadsTo c a b) : spec'.LeadsTo c a b := by
  rcases hleads with hlinks | ⟨hnone, rfl⟩
  · exact Or.inl (Relation.TransGen.mono (fun _ _ => h.links) _ _ hlinks)
  · refine Or.inr ⟨fun z hz => ?_, rfl⟩
    obtain ⟨z', hz'⟩ := h.exists_links hres hz
    exact hnone z' hz'

/-! ## More behaviour -/

variable {g g' : Grammar}

theorem LoosensTo.alternatives (h : spec.LoosensTo spec') (hres : spec.Resolves c)
    (hg : spec.Offers c g) (hg' : spec'.Offers c g') {s : Symbol} {p : Production}
    (hp : p ∈ g.alternativesOf s) : p ∈ g'.alternativesOf s := by
  obtain ⟨id, q, x, hid, hq, hx, hleads, rfl⟩ := (hg s p).mp hp
  rw [← h.declares] at hid
  rw [← h.nameOf] at hq
  exact (hg' s _).mpr ⟨id, q, x, hid, hq, hx, h.leadsTo hres hleads, rfl⟩

/--
**Allowing more orderings takes no behaviour away.** Let all references resolve, and let any
edges between declared scenarios and any initial marks on declared scenarios be added. Then
these calls are granted, the grammar of every component is derived before and after, and every
trace of the grammar before is a trace of the grammar after.
-/
theorem observableTraces_loosened {spec : Specification} {c : Component} {id : ComponentId}
    {history : List Call} (hc : spec.component? id = some c) (hres : spec.Resolves c)
    (hloosens : ∀ call ∈ history, call.Loosens spec) :
    ∃ spec' common common' d d', spec.after history = .ok spec' ∧
      spec.commonRelation = .ok common ∧ spec'.commonRelation = .ok common' ∧
      spec.deriveComponent common id = .ok d ∧ spec'.deriveComponent common' id = .ok d' ∧
      ∀ n, ∃ ts ts', d.grammar.observableTraces n = .ok ts ∧
        d'.grammar.observableTraces n = .ok ts' ∧ ∀ t ∈ ts, t ∈ ts' := by
  obtain ⟨spec', hafter, h⟩ := after_loosens hloosens
  have hc' : spec'.component? id = some c := by
    unfold component?
    rw [h.components]
    exact hc
  have hres' := h.resolves hres
  obtain ⟨d, hd, hsound, hoffers⟩ := exists_derivation hc hres
  obtain ⟨d', hd', hsound', hoffers'⟩ := exists_derivation hc' hres'
  refine ⟨spec', _, _, d, d', hafter, commonRelation_eq_ok hres, commonRelation_eq_ok hres', hd,
    hd', fun n => ⟨_, _, hsound.observableTraces_eq_ok n, hsound'.observableTraces_eq_ok n, ?_⟩⟩
  intro t ht
  obtain ⟨hn, hobs⟩ := hsound.mem_traces_iff.mp ht
  refine hsound'.mem_traces_iff.mpr ⟨hn, hobs.of_runs fun w e hrun => ⟨w, e, ?_, List.prefix_rfl⟩⟩
  exact hrun.mono fun _ _ => h.alternatives hres hoffers hoffers'

/-- The session may begin with work and go on for as long as it likes. -/
def looserCalls : List Call :=
  [.edge ⟨2⟩ ⟨0⟩, .initial ⟨2⟩, .edge ⟨0⟩ ⟨1⟩, .edge ⟨2⟩ ⟨2⟩, .initial ⟨2⟩]

theorem observableTraces_loosened_session :
    session.component? ⟨0⟩ = some user ∧ session.Resolves user ∧
      (∀ call ∈ looserCalls, call.Loosens session) ∧
      ∃ spec' common common' d d' ts ts', session.after looserCalls = .ok spec' ∧
        session.commonRelation = .ok common ∧ spec'.commonRelation = .ok common' ∧
        session.deriveComponent common ⟨0⟩ = .ok d ∧ spec'.deriveComponent common' ⟨0⟩ = .ok d' ∧
        d.grammar.observableTraces 3 = .ok ts ∧ d'.grammar.observableTraces 3 = .ok ts' ∧
        ∀ t ∈ ts, t ∈ ts' := by
  have hc : session.component? ⟨0⟩ = some user := rfl
  have hres : session.Resolves user :=
    ⟨by decide, by decide, by decide, by decide, by decide⟩
  have hloosens : ∀ call ∈ looserCalls, call.Loosens session := by
    simp [looserCalls, Call.Loosens, declares, session]
  obtain ⟨spec', common, common', d, d', hafter, hcommon, hcommon', hd, hd', hall⟩ :=
    observableTraces_loosened hc hres hloosens
  obtain ⟨ts, ts', hts, hts', hsub⟩ := hall 3
  exact ⟨hc, hres, hloosens, spec', common, common', d, d', ts, ts', hafter, hcommon, hcommon', hd,
    hd', hts, hts', hsub⟩

end Specification

end ScenarioFsp
