import ShiftReduce.CommandLine.Arguments

/-! # Which argument lists are accepted

Reading goes from argument to argument, and only a last part behind the mark `--` is read differently. So
what one argument does to the scan is told once, and the rest is induction over the list. Two results are
about all lists: which requests can be made at all, and what it means to add the option that reports
conflicts somewhere in a list. -/

namespace ShiftReduce.CommandLine

/-- The arguments, with conflicts reported. -/
def Arguments.reporting (a : Arguments) : Arguments := { a with reportConflicts := true }

/-- The arguments, with the output on the standard output. -/
def Arguments.unredirected (a : Arguments) : Arguments := { a with output := none }

namespace Scan

variable {s s' : Scan} {w : Word} {a : Arguments} {r : Request} {arg value : String}
  {args before rest : List String}

/-! ## One argument -/

/-- The scan behind an argument, if the arguments behind it are read in the same way. -/
def read? (s : Scan) (w : Word) : Option Scan :=
  match s.pending, w with
  | some option, .value value => s.setOption? option value
  | none, .value value => s.setInput? value
  | none, .option option (some value) => s.setOption? option value
  | none, .option option none => some { s with pending := some option }
  | none, .reportConflicts => if s.reportConflicts then none else some { s with reportConflicts := true }
  | _, _ => none

/-- The input is taken once, and it is not empty. -/
theorem setInput?_eq_some : s.setInput? value = some s' ↔
    s.input = none ∧ value ≠ "" ∧ s' = { s with input := some value } := by
  unfold setInput?
  rw [Option.ite_none_left_eq_some, not_or, Option.not_isSome_iff_eq_none, Option.some_inj, and_assoc]
  exact and_congr_right fun _ => and_congr_right fun _ => eq_comm

/-- A value sets the form of the output, or the file for it. -/
theorem setOption?_cases {option : ValueOption} (h : s.setOption? option value = some s') :
    (∃ format, s' = { s with format := some format, pending := none }) ∨
      ∃ path, path ≠ "" ∧ s' = { s with output := some path, pending := none } := by
  unfold setOption? at h
  grind

/-- An argument that is read passes the rest on. -/
theorem arguments?_cons_of_read? (h : s.read? (.ofArgument arg) = some s') :
    s.arguments? (arg :: rest) = s'.arguments? rest := by
  unfold read? at h
  rw [arguments?]
  split at h <;> simp_all

/-- Behind the mark, all arguments are positional. -/
theorem arguments?_cons_of_endOfOptions (hs : s.pending = none)
    (h : Word.ofArgument arg = .endOfOptions) : s.arguments? (arg :: rest) = s.positionals? rest := by
  rw [arguments?]
  simp only [hs, h]

/-- If tables are asked for in the end, an argument is read or is the mark. -/
theorem arguments?_cons_eq_tables (h : s.arguments? (arg :: rest) = some (.tables a)) :
    (∃ s', s.read? (.ofArgument arg) = some s' ∧ s'.arguments? rest = some (.tables a)) ∨
      s.pending = none ∧ Word.ofArgument arg = .endOfOptions ∧
        s.positionals? rest = some (.tables a) := by
  rw [arguments?] at h
  unfold read?
  split at h <;> simp_all [Option.bind_eq_some_iff]

/-- What the scan asks for in the end. -/
theorem finish?_eq_tables : s.finish? = some (.tables a) ↔
    s.pending = none ∧ s.input = some a.input ∧ a.format = s.format.getD .json ∧ a.output = s.output ∧
      a.reportConflicts = s.reportConflicts := by
  obtain ⟨format, output, report, input⟩ := a
  unfold finish?
  split
  · next hpending hinput =>
    simp only [hpending, hinput, Option.some.injEq, Request.tables.injEq, Arguments.mk.injEq]
    grind
  · next hnone => grind

/-- What reading keeps, positional arguments keep: nothing is pending then, so that they are read like
values before the mark. -/
theorem exists_finish?_of_positionals? {P : Scan → Prop}
    (hread : ∀ {s s' : Scan} {w : Word}, s.read? w = some s' → P s → P s') (hs : P s)
    (hpending : s.pending = none) (h : s.positionals? args = some (.tables a)) :
    ∃ s', P s' ∧ s'.finish? = some (.tables a) := by
  induction args generalizing s with
  | nil => exact ⟨s, hs, h⟩
  | cons arg rest ih =>
    obtain ⟨s', hs', hrest⟩ := Option.bind_eq_some_iff.mp h
    have hread' : s.read? (.value arg) = some s' := by
      simpa only [read?, hpending] using hs'
    obtain ⟨-, -, rfl⟩ := setInput?_eq_some.mp hs'
    exact ih (hread hread' hs) hpending hrest

/-- What reading keeps holds of the scan from which tables are asked for. -/
theorem exists_finish?_of_arguments? {P : Scan → Prop}
    (hread : ∀ {s s' : Scan} {w : Word}, s.read? w = some s' → P s → P s') (hs : P s)
    (h : s.arguments? args = some (.tables a)) : ∃ s', P s' ∧ s'.finish? = some (.tables a) := by
  induction args generalizing s with
  | nil => exact ⟨s, hs, h⟩
  | cons arg rest ih =>
    obtain ⟨s', hs', hrest⟩ | ⟨hpending, -, hrest⟩ := arguments?_cons_eq_tables h
    · exact ih (hread hs' hs) hrest
    · exact exists_finish?_of_positionals? hread hs hpending hrest

/-! ## What a request can say -/

/-- What an argument can do to the scan. -/
theorem read?_cases (h : s.read? w = some s') :
    (∃ format, s' = { s with format := some format, pending := none }) ∨
    (∃ path, path ≠ "" ∧ s' = { s with output := some path, pending := none }) ∨
    (∃ path, path ≠ "" ∧ s' = { s with input := some path }) ∨
    (∃ option, s' = { s with pending := some option }) ∨
    w = .reportConflicts ∧ s.reportConflicts = false ∧ s' = { s with reportConflicts := true } := by
  unfold read? at h
  split at h
  case h_1 | h_3 =>
    obtain hformat | houtput := setOption?_cases h
    · exact .inl hformat
    · exact .inr (.inl houtput)
  case h_2 path _ =>
    obtain ⟨-, hpath, rfl⟩ := setInput?_eq_some.mp h
    exact .inr (.inr (.inl ⟨path, hpath, rfl⟩))
  case h_4 option _ =>
    cases h
    exact .inr (.inr (.inr (.inl ⟨option, rfl⟩)))
  case h_5 =>
    split at h
    · cases h
    · next hs =>
      cases h
      exact .inr (.inr (.inr (.inr ⟨rfl, Bool.eq_false_iff.mpr hs, rfl⟩)))
  case h_6 => cases h

/-- Neither the input nor the output is ever set to the empty text. -/
theorem nonempty_of_read? (h : s.read? w = some s') (hs : s.input ≠ some "" ∧ s.output ≠ some "") :
    s'.input ≠ some "" ∧ s'.output ≠ some "" := by
  obtain ⟨_, rfl⟩ | ⟨path, hpath, rfl⟩ | ⟨path, hpath, rfl⟩ | ⟨_, rfl⟩ | ⟨-, -, rfl⟩ := read?_cases h
  · exact hs
  · exact ⟨hs.1, fun h => hpath (Option.some.inj h)⟩
  · exact ⟨fun h => hpath (Option.some.inj h), hs.2⟩
  · exact hs
  · exact hs

/-! ## The report -/

/-- The scan, with conflicts reported. -/
def reporting (s : Scan) : Scan := { s with reportConflicts := true }

/-- The option that reports conflicts stands by itself, and only once. -/
theorem read?_reportConflicts : s.read? .reportConflicts = some s' ↔
    s.pending = none ∧ s.reportConflicts = false ∧ s' = s.reporting := by
  unfold read? reporting
  grind

/-- No other argument changes whether conflicts are reported. -/
theorem reportConflicts_of_read? (hw : w ≠ .reportConflicts) (h : s.read? w = some s') :
    s'.reportConflicts = s.reportConflicts := by
  obtain ⟨_, rfl⟩ | ⟨_, -, rfl⟩ | ⟨_, -, rfl⟩ | ⟨_, rfl⟩ | ⟨rfl, -⟩ := read?_cases h
  · rfl
  · rfl
  · rfl
  · rfl
  · exact absurd rfl hw

/-- Once conflicts are to be reported, this stays so. -/
theorem reportConflicts_of_arguments? (hs : s.reportConflicts = true)
    (h : s.arguments? args = some (.tables a)) : a.reportConflicts = true := by
  have hread : ∀ {s s' : Scan} {w : Word}, s.read? w = some s' → s.reportConflicts = true →
      s'.reportConflicts = true := by
    intro s s' w h hs
    refine (reportConflicts_of_read? ?_ h).trans hs
    rintro rfl
    rw [(read?_reportConflicts.mp h).2.1] at hs
    cases hs
  obtain ⟨s', hs', hfinish⟩ :=
    exists_finish?_of_arguments? (P := fun s => s.reportConflicts = true) hread hs h
  exact (finish?_eq_tables.mp hfinish).2.2.2.2.trans hs'

/-- An option has its effect whether or not conflicts are reported. -/
theorem setOption?_reporting (s : Scan) (option : ValueOption) (value : String) :
    s.reporting.setOption? option value = (s.setOption? option value).map reporting := by
  unfold setOption? reporting
  cases option <;> grind

/-- The input is taken whether or not conflicts are reported. -/
theorem setInput?_reporting (s : Scan) (value : String) :
    s.reporting.setInput? value = (s.setInput? value).map reporting := by
  unfold setInput? reporting
  grind

/-- Other arguments are read in the same way, whether or not conflicts are to be reported. -/
theorem read?_reporting (hw : w ≠ .reportConflicts) :
    s.reporting.read? w = (s.read? w).map reporting := by
  have hpending : s.reporting.pending = s.pending := rfl
  unfold read?
  rw [hpending]
  split
  · exact setOption?_reporting s _ _
  · exact setInput?_reporting s _
  · exact setOption?_reporting s _ _
  · rfl
  · exact absurd rfl hw
  · rfl

/-- Positional arguments do not bear on the report. -/
theorem positionals?_reporting (h : s.positionals? args = some (.tables a)) :
    a.reportConflicts = s.reportConflicts ∧
      s.reporting.positionals? args = some (.tables a.reporting) := by
  induction args generalizing s with
  | nil =>
    obtain ⟨hpending, hinput, hformat, houtput, hreport⟩ := finish?_eq_tables.mp h
    exact ⟨hreport, finish?_eq_tables.mpr ⟨hpending, hinput, hformat, houtput, rfl⟩⟩
  | cons arg rest ih =>
    obtain ⟨s', hs', hrest⟩ := Option.bind_eq_some_iff.mp h
    obtain ⟨hreport, htables⟩ := ih hrest
    refine ⟨?_, ?_⟩
    · obtain ⟨-, -, rfl⟩ := setInput?_eq_some.mp hs'
      exact hreport
    · rw [positionals?, setInput?_reporting, hs']
      exact htables

/-- An option that reports conflicts and is accepted is the first. -/
theorem of_arguments?_cons_reportConflicts (harg : Word.ofArgument arg = .reportConflicts)
    (h : s.arguments? (arg :: rest) = some r) :
    s.pending = none ∧ s.reportConflicts = false ∧ s.reporting.arguments? rest = some r := by
  rw [arguments?, harg] at h
  unfold reporting
  grind

/-- With conflicts reported from the start, a list that asks for the report is refused, and any other one
asks for the same tables. -/
theorem arguments?_reporting (hs : s.reportConflicts = false) (h : s.arguments? args = some (.tables a)) :
    s.reporting.arguments? args = if a.reportConflicts then none else some (.tables a.reporting) := by
  induction args generalizing s with
  | nil =>
    obtain ⟨hreport, htables⟩ := positionals?_reporting (show s.positionals? [] = some (.tables a) from h)
    rw [hreport, hs]
    exact htables
  | cons arg rest ih =>
    obtain ⟨s', hs', hrest⟩ | ⟨hpending, harg, hrest⟩ := arguments?_cons_eq_tables h
    · by_cases hw : Word.ofArgument arg = .reportConflicts
      · rw [hw] at hs'
        obtain ⟨-, -, rfl⟩ := read?_reportConflicts.mp hs'
        rw [if_pos (reportConflicts_of_arguments? rfl hrest), Option.eq_none_iff_forall_ne_some]
        intro r hr
        cases (of_arguments?_cons_reportConflicts hw hr).2.1
      · have hs'' : s.reporting.read? (.ofArgument arg) = some s'.reporting := by
          rw [read?_reporting hw, hs', Option.map_some]
        rw [arguments?_cons_of_read? hs'']
        exact ih ((reportConflicts_of_read? hw hs').trans hs) hrest
    · obtain ⟨hreport, htables⟩ := positionals?_reporting hrest
      rw [hreport, hs, arguments?_cons_of_endOfOptions (s := s.reporting) hpending harg]
      exact htables

/-- There is one positional argument in all. -/
theorem length_of_positionals? (h : s.positionals? args = some r) :
    args.length = if s.input.isSome then 0 else 1 := by
  induction args generalizing s with
  | nil =>
    unfold positionals? finish? at h
    grind
  | cons arg rest ih =>
    obtain ⟨s', hs', hrest⟩ := Option.bind_eq_some_iff.mp h
    obtain ⟨hinput, -, rfl⟩ := setInput?_eq_some.mp hs'
    rw [List.length_cons, ih hrest, hinput]
    rfl

/-- **One more option.** A list that asks for tables is accepted with the option that reports conflicts
put in somewhere only if it had not asked for the report, and then it asks for the same tables. -/
theorem arguments?_insert {after : List String} (h : s.arguments? (before ++ after) = some (.tables a))
    (h' : s.arguments? (before ++ "--report-conflicts" :: after) = some r) :
    a.reportConflicts = false ∧ r = .tables a.reporting := by
  induction before generalizing s with
  | nil =>
    rw [List.nil_append] at h h'
    obtain ⟨-, hs, hafter⟩ := of_arguments?_cons_reportConflicts (by decide) h'
    rw [arguments?_reporting hs h] at hafter
    split at hafter
    · cases hafter
    · next hreport => exact ⟨by simpa using hreport, (Option.some.inj hafter).symm⟩
  | cons arg before ih =>
    rw [List.cons_append] at h h'
    obtain ⟨s', hs', hrest⟩ | ⟨hpending, harg, hrest⟩ := arguments?_cons_eq_tables h
    · rw [arguments?_cons_of_read? hs'] at h'
      exact ih hrest h'
    · -- behind the mark the option would be a second positional argument
      rw [arguments?_cons_of_endOfOptions hpending harg] at h'
      have hlength := (length_of_positionals? h').trans (length_of_positionals? hrest).symm
      simp at hlength

end Scan

namespace Request

variable {a : Arguments} {args : List String}

/-- The report can be asked for in front of all other arguments. -/
theorem ofArguments?_cons_reportConflicts (h : ofArguments? args = some (.tables a))
    (ha : a.reportConflicts = false) :
    ofArguments? ("--report-conflicts" :: args) = some (.tables a.reporting) := by
  have hread : Scan.read? {} (.ofArgument "--report-conflicts") = some (Scan.reporting {}) := by rfl
  unfold ofArguments?
  rw [Scan.arguments?_cons_of_read? hread, Scan.arguments?_reporting rfl h, ha]
  rfl

/-- The option that sets a form of the output. -/
def formatWord : Format → String
  | .json => "--format=json"
  | .text => "--format=text"

/-- Arguments that ask for tables. -/
def words (a : Arguments) : List String :=
  formatWord a.format :: (a.output.toList.map ("-o=" ++ ·) ++
    ((if a.reportConflicts then ["--report-conflicts"] else []) ++ ["--", a.input]))

/-- An output path behind the short option is read as it stands. -/
theorem ofArgument_output (path : String) :
    Word.ofArgument ("-o=" ++ path) = .option .output (some path) := by
  unfold Word.ofArgument
  rw [String.toList_append]
  simp [Word.ofShort]

/-- **Every request for tables is one that some arguments make.** -/
theorem ofArguments?_words (hinput : a.input ≠ "") (houtput : a.output ≠ some "") :
    ofArguments? (words a) = some (.tables a) := by
  obtain ⟨format, output, report, input⟩ := a
  have hformat : Scan.read? {} (.ofArgument (formatWord format)) = some { format := some format } := by
    cases format <;> rfl
  have hoption : ∀ rest, Scan.arguments? { format := some format }
      (output.toList.map ("-o=" ++ ·) ++ rest) =
        Scan.arguments? { format := some format, output := output } rest := by
    intro rest
    cases output with
    | none => rfl
    | some path =>
      refine Scan.arguments?_cons_of_read? ?_
      rw [ofArgument_output]
      exact if_neg (by simpa using houtput)
  have hreport : ∀ rest, Scan.arguments? { format := some format, output := output }
      ((if report then ["--report-conflicts"] else []) ++ rest) =
        Scan.arguments? { format := some format, output := output, reportConflicts := report } rest := by
    intro rest
    cases report with
    | false => rfl
    | true => rfl
  unfold ofArguments? words
  rw [Scan.arguments?_cons_of_read? hformat, hoption, hreport]
  rw [Scan.arguments?_cons_of_endOfOptions rfl (by decide)]
  simp [Scan.positionals?, Scan.setInput?, Scan.finish?, hinput]

/-- **The requests for tables**: every request is made by some arguments, as long as neither path is
empty. -/
theorem exists_ofArguments?_iff :
    (∃ args, ofArguments? args = some (.tables a)) ↔ a.input ≠ "" ∧ a.output ≠ some "" := by
  constructor
  · rintro ⟨args, h⟩
    have hs : ({} : Scan).input ≠ some "" ∧ ({} : Scan).output ≠ some "" := ⟨nofun, nofun⟩
    obtain ⟨s, hs, hfinish⟩ := Scan.exists_finish?_of_arguments?
      (P := fun s => s.input ≠ some "" ∧ s.output ≠ some "") Scan.nonempty_of_read? hs h
    obtain ⟨-, hinput, -, houtput, -⟩ := Scan.finish?_eq_tables.mp hfinish
    exact ⟨fun h => hs.1 (hinput.trans (congrArg some h)), fun h => hs.2 (houtput.symm.trans h)⟩
  · rintro ⟨hinput, houtput⟩
    exact ⟨words a, ofArguments?_words hinput houtput⟩

end Request

end ShiftReduce.CommandLine
