import ScenarioFsp.Command.Options

/-!
# Arguments that decide nothing

Four things about a run are asked for by its arguments: which file is read, where the result
goes, whether the processes are deterministic, and whether the cross-check is added. All
other arguments are about how components are synthesised and what is told on the way.

The settings of an argument do not depend on those of the others (`readFrom?_append`), and
settings that stand together do so with fewer of them (`Compatible.sublist`). So arguments
about these other matters may be left out wherever they stand: the others are accepted
without them, and the same is asked for (`exists_parse?_without`).
-/

namespace ScenarioFsp

namespace Command

open Setting (readFrom? readAll? readLetters? read? input? output? color?)

/-! ## Settings that decide -/

/-- Whether the outcome of a run depends on a setting. -/
def Setting.decisive : Setting → Bool
  | input _ | output _ | deterministic | check => true
  | parallel | verbose | quiet | color _ => false

namespace Options

variable {o o' : Options} {settings settings' : List Setting} {path : String}

/-- What decides the outcome of a run: the input, the output, the option and the cross-check. -/
def asked (o : Options) : String × Option String × Bool × Bool :=
  (o.input, o.output, o.deterministic, o.check)

theorem asked_eq_iff : o.asked = o'.asked ↔
    o.input = o'.input ∧ o.output = o'.output ∧ o.deterministic = o'.deterministic ∧
      o.check = o'.check := by
  unfold asked
  simp only [Prod.mk.injEq]

theorem filterMap_decisive {α : Type} {f : Setting → Option α}
    (hf : ∀ s, s.decisive = false → f s = none) (settings : List Setting) :
    (settings.filter Setting.decisive).filterMap f = settings.filterMap f := by
  rw [List.filterMap_filter]
  refine congrArg (fun g => settings.filterMap g) (funext fun s => ?_)
  cases hs : s.decisive with
  | true => rfl
  | false => exact (hf s hs).symm

theorem filterMap_input? (settings : List Setting) :
    (settings.filter Setting.decisive).filterMap input? = settings.filterMap input? :=
  filterMap_decisive (fun s => by cases s <;> simp [Setting.decisive, input?]) _

theorem filterMap_output? (settings : List Setting) :
    (settings.filter Setting.decisive).filterMap output? = settings.filterMap output? :=
  filterMap_decisive (fun s => by cases s <;> simp [Setting.decisive, output?]) _

/-- Whether a deciding setting is there is decided by the deciding ones. -/
theorem mem_decisive {s : Setting} (hs : s.decisive = true) :
    s ∈ settings.filter Setting.decisive ↔ s ∈ settings :=
  List.mem_filter.trans (and_iff_left hs)

theorem asked_ofInput (h : settings.filter Setting.decisive = settings'.filter Setting.decisive)
    (path : String) : (ofInput path settings).asked = (ofInput path settings').asked := by
  refine asked_eq_iff.mpr ⟨rfl, ?_, ?_, ?_⟩
  · unfold ofInput
    rw [← filterMap_output? settings, h, filterMap_output? settings']
  · exact decide_eq_decide.mpr (by rw [← mem_decisive rfl, h, mem_decisive rfl])
  · exact decide_eq_decide.mpr (by rw [← mem_decisive rfl, h, mem_decisive rfl])

/-! ## Fewer settings -/

/-- Of settings that can stand together some may be left out. -/
theorem Compatible.sublist (h : Compatible settings) (hsub : settings'.Sublist settings) :
    Compatible settings' where
  output := Nat.le_trans (hsub.filterMap output?).length_le h.output
  color := Nat.le_trans (hsub.filterMap color?).length_le h.color
  deterministic := Nat.le_trans (hsub.count_le _) h.deterministic
  check := Nat.le_trans (hsub.count_le _) h.check
  parallel := Nat.le_trans (hsub.count_le _) h.parallel
  level hverbose hquiet := h.level (hsub.subset hverbose) (hsub.subset hquiet)

theorem ofSettings?_eq_some_iff : ofSettings? settings = some o ↔
    ∃ path, settings.filterMap input? = [path] ∧ Compatible settings ∧
      o = ofInput path settings := by
  unfold ofSettings?
  split
  · rename_i path hpath
    rw [Option.ite_none_right_eq_some, hpath]
    simp [eq_comm]
  · rename_i hnone
    exact ⟨fun h => (nomatch h), fun ⟨path, hpath, _⟩ => absurd hpath (hnone path)⟩

/-- **Settings that decide nothing may be left out.** -/
theorem exists_ofSettings?_of_sublist (h : ofSettings? settings = some o)
    (hsub : settings'.Sublist settings)
    (hdecisive : settings'.filter Setting.decisive = settings.filter Setting.decisive) :
    ∃ o', ofSettings? settings' = some o' ∧ o'.asked = o.asked := by
  obtain ⟨path, hpath, hcompatible, rfl⟩ := ofSettings?_eq_some_iff.mp h
  refine ⟨ofInput path settings', ofSettings?_eq_some_iff.mpr
    ⟨path, ?_, hcompatible.sublist hsub, rfl⟩, asked_ofInput hdecisive path⟩
  rw [← filterMap_input? settings', hdecisive, filterMap_input?, hpath]

end Options

/-! ## Arguments one after the other -/

theorem readFrom?_append (next : Expecting) (before after : List String) :
    readFrom? next (before ++ after) = (readFrom? next before).bind fun here =>
      (readFrom? here.2 after).map fun later => (here.1 ++ later.1, later.2) := by
  induction before generalizing next with
  | nil =>
      rw [List.nil_append]
      exact Option.map_id'.symm
  | cons arg before ih =>
      rw [List.cons_append, readFrom?, readFrom?]
      cases read? next arg with
      | none => rfl
      | some here =>
          rw [Option.bind_some, Option.bind_some, ih]
          cases readFrom? here.2 before with
          | none => rfl
          | some later =>
              rw [Option.bind_some, Option.map_some, Option.bind_some]
              cases readFrom? later.2 after with
              | none => rfl
              | some last => exact congrArg (fun s => some (s, last.2)) (List.append_assoc ..).symm

theorem readAll?_eq_some_iff {args : List String} {settings : List Setting} :
    readAll? args = some settings ↔
      ∃ next, readFrom? .anything args = some (settings, next) ∧ next.isDone = true := by
  unfold readAll?
  rw [Option.bind_eq_some_iff]
  refine ⟨fun ⟨result, hread, hends⟩ => ?_, fun ⟨next, hread, hdone⟩ => ⟨_, hread, ?_⟩⟩
  · obtain ⟨hdone, hsettings⟩ := Option.ite_none_right_eq_some.mp hends
    obtain rfl := Option.some.inj hsettings
    exact ⟨result.2, hread, hdone⟩
  · exact if_pos hdone

/--
Arguments that are about how components are synthesised and what is told: joined letters,
a long option, or a choice of colours, which may stand in an argument of its own.
-/
inductive Incidental : List String → Prop where
  | letters {letters : List Char} (hne : letters ≠ [])
      (h : ∀ c ∈ letters, c = 'j' ∨ c = 'v' ∨ c = 'q') :
      Incidental [String.ofList ('-' :: letters)]
  | parallel : Incidental ["--parallel"]
  | verbose : Incidental ["--verbose"]
  | quiet : Incidental ["--quiet"]
  | color {name : String} (h : (ColorChoice.ofName? name).isSome) : Incidental ["--color", name]
  | joinedColor {name : String} (h : (ColorChoice.ofName? name).isSome) :
      Incidental ["--color=" ++ name]

/-- Nothing that is asked for decides the outcome, and an option may follow. -/
def IsIncidental (read : Option (List Setting × Expecting)) : Prop :=
  ∃ settings, read = some (settings, .anything) ∧ settings.filter Setting.decisive = []

theorem isIncidental_readLetters? {letters : List Char}
    (h : ∀ c ∈ letters, c = 'j' ∨ c = 'v' ∨ c = 'q') : IsIncidental (readLetters? letters) := by
  induction letters with
  | nil => exact ⟨[], rfl, rfl⟩
  | cons letter letters ih =>
      obtain ⟨hletter, hletters⟩ := List.forall_mem_cons.mp h
      obtain ⟨settings, hread, hnone⟩ := ih hletters
      obtain rfl | rfl | rfl := hletter
      · exact ⟨.parallel :: settings, by simp [readLetters?, Setting.ofLetter?, hread], hnone⟩
      · exact ⟨.verbose :: settings, by simp [readLetters?, Setting.ofLetter?, hread], hnone⟩
      · exact ⟨.quiet :: settings, by simp [readLetters?, Setting.ofLetter?, hread], hnone⟩

theorem Incidental.isIncidental {extra : List String} (h : Incidental extra) :
    IsIncidental (readFrom? .anything extra) := by
  cases h with
  | @letters letters hne h =>
      obtain ⟨settings, hread, hnone⟩ := isIncidental_readLetters? h
      refine ⟨settings, ?_, hnone⟩
      cases letters with
      | nil => exact absurd rfl hne
      | cons letter letters =>
          have hletter : letter ≠ '-' := by
            obtain rfl | rfl | rfl := (List.forall_mem_cons.mp h).1 <;> decide
          simp [readFrom?, read?, hletter, hread]
  | parallel => exact ⟨[.parallel], rfl, rfl⟩
  | verbose => exact ⟨[.verbose], rfl, rfl⟩
  | quiet => exact ⟨[.quiet], rfl, rfl⟩
  | @color name h =>
      obtain ⟨choice, hchoice⟩ := Option.isSome_iff_exists.mp h
      have hname : read? .anything "--color" = some ([], .color) := rfl
      have hvalue : read? .color name = some ([.color choice], .anything) := by
        unfold read?
        rw [hchoice]
        rfl
      exact ⟨[.color choice], by simp [readFrom?, hname, hvalue], rfl⟩
  | @joinedColor name h =>
      obtain ⟨choice, hchoice⟩ := Option.isSome_iff_exists.mp h
      have hread : read? .anything ("--color=" ++ name) = some ([.color choice], .anything) := by
        simp [read?, Setting.splitLong, Setting.readLong?, hchoice]
      exact ⟨[.color choice], by simp [readFrom?, hread], rfl⟩

namespace Options

/--
**Arguments about other matters may be left out**, wherever an option may stand: the others are
accepted without them, and the same is asked for.
-/
theorem exists_parse?_without {before extra after : List String} {o : Options}
    {settings : List Setting} (h : parse? (before ++ extra ++ after) = some o)
    (hbefore : readFrom? .anything before = some (settings, .anything))
    (hextra : Incidental extra) :
    ∃ o', parse? (before ++ after) = some o' ∧ o'.asked = o.asked := by
  obtain ⟨incidental, hread, hnone⟩ := hextra.isIncidental
  obtain ⟨all, hall, ho⟩ := Option.bind_eq_some_iff.mp h
  obtain ⟨next, hfrom, hdone⟩ := readAll?_eq_some_iff.mp hall
  rw [List.append_assoc, readFrom?_append, hbefore, Option.bind_some, readFrom?_append, hread,
    Option.bind_some] at hfrom
  cases hafter : readFrom? .anything after with
  | none =>
      rw [hafter] at hfrom
      exact absurd hfrom (by simp)
  | some later =>
      obtain ⟨last, next'⟩ := later
      rw [hafter] at hfrom
      obtain ⟨rfl, rfl⟩ := Prod.mk.inj (Option.some.inj hfrom)
      have hshort : readAll? (before ++ after) = some (settings ++ last) := by
        refine readAll?_eq_some_iff.mpr ⟨next', ?_, hdone⟩
        rw [readFrom?_append, hbefore, Option.bind_some, hafter]
        rfl
      have hsub : (settings ++ last).Sublist (settings ++ (incidental ++ last)) :=
        (List.Sublist.refl settings).append (List.sublist_append_right incidental last)
      obtain ⟨o', ho', hasked⟩ := exists_ofSettings?_of_sublist ho hsub (by
        simp only [List.filter_append, hnone, List.nil_append])
      exact ⟨o', Option.bind_eq_some_iff.mpr ⟨_, hshort, ho'⟩, hasked⟩

end Options

end Command

end ScenarioFsp
