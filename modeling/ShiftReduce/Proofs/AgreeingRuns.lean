import ShiftReduce.CommandLine.Run
import ShiftReduce.Proofs.ArgumentLists
import ShiftReduce.Proofs.Runs
import ShiftReduce.Proofs.Augmentation

/-! # Runs that agree

A run either finds a fault in its input, and then all it does is to tell so, or it gives out a rendering
that is a function of the input's text and of the format. The other arguments only decide where the
rendering goes and what is said on the side: the same bytes go to the standard output or to a file, and a
report of the conflicts changes the standard error alone. This holds however paths lead to files. -/

namespace ShiftReduce.CommandLine

variable {ν α : Type} [DecidableEq ν] [Content α] [FileSystem ν α]

/-! ## Paths -/

namespace FileSystem

variable {files written : Files ν α} {path text : String} {file : ν} {content : α}

/-- A path at which a file can be written. -/
def IsWritable (files : Files ν α) (path : String) : Prop :=
  ∃ file, toWrite files path = .ok file

omit [Content α] in
/-- A path is read when it leads to a file that is there. -/
theorem read_eq_ok_iff : read files path = .ok content ↔
    ∃ file, toRead files path = .ok file ∧ files.get? file = some content := by
  unfold read
  grind

/-- A path is written when it leads to a file. -/
theorem write_eq_ok_iff : write files path text = .ok written ↔
    ∃ file, toWrite files path = .ok file ∧ written = files.insert file (Content.ofText text) := by
  unfold write
  grind

/-- Where no file can be written, the reason does not depend on the text. -/
theorem exists_write_eq_error (h : ¬IsWritable files path) :
    ∃ cause, ∀ text, write files path text = .error cause := by
  cases hfile : toWrite files path with
  | error cause => exact ⟨cause, fun text => by simp only [write, hfile]⟩
  | ok file => exact absurd ⟨file, hfile⟩ h

omit [Content α] in
/-- **What is read at a path is what was written there last.** -/
theorem eq_of_read_insert {content' : α} (h : toWrite files path = .ok file)
    (hread : read (files.insert file content) path = .ok content') : content' = content := by
  obtain ⟨file', hfile', hget⟩ := read_eq_ok_iff.mp hread
  obtain rfl := toWrite_eq hfile' (toWrite_insert h content)
  rw [OrderedMap.get?_insert, if_pos rfl] at hget
  exact (Option.some.inj hget).symm

end FileSystem

namespace Directory

omit [Content α] in
/-- In a directory, a name that is no more than a name leads to itself. -/
theorem toWrite_self (files : Directory α) {name : String} (hslash : '/' ∉ name.toList)
    (hname : name ≠ "" ∧ name ≠ "." ∧ name ≠ "..") (hsize : name.utf8ByteSize ≤ nameLimit) :
    FileSystem.toWrite files name = .ok name := by
  have hparts : pathParts name = [name] := by
    unfold pathParts
    rw [List.splitOn_eq_singleton hslash, List.map_singleton, String.ofList_toList]
  have hinside : name.toList.head? ≠ some '/' := fun h => hslash (List.mem_of_mem_head? h)
  have hshort : ¬pathLimit < name.utf8ByteSize := by
    unfold nameLimit at hsize
    unfold pathLimit
    omega
  refine toWrite_eq_ok.mpr ⟨?_, hsize⟩
  rw [resolve, if_neg hshort, hparts, decide_eq_true hinside, follow,
    if_neg (not_or.mpr ⟨hname.1, hname.2.1⟩), if_neg hname.2.2]
  rfl

end Directory

/-! ## The input -/

section Input

variable {files : Files ν α} {stdin : ByteArray} {input source : String} {a : Arguments} {t : Tables}
  {format : Format}

/-- The text that the input holds. -/
def HoldsText (files : Files ν α) (stdin : ByteArray) (input source : String) : Prop :=
  if isStandardInput input then stdin = source.toUTF8
  else ∃ file, FileSystem.toRead files input = .ok file ∧ files.get? file = some (Content.ofText source)

/-- A content is read as a text when it is what the text is written as. -/
theorem decodeText_eq_ok_iff {content : α} :
    decodeText content = .ok source ↔ content = Content.ofText source := by
  rw [← Content.text?_eq_some_iff]
  unfold decodeText
  grind

/-- A text is read when it stands where the arguments say. -/
theorem readInput_eq_ok_iff :
    readInput files stdin input = .ok source ↔ HoldsText files stdin input source := by
  unfold readInput HoldsText
  split
  · exact decodeText_eq_ok_iff
  · constructor
    · intro h
      split at h
      · cases h
      · next content hread =>
        obtain ⟨file, hpath, hfile⟩ := FileSystem.read_eq_ok_iff.mp hread
        exact ⟨file, hpath, by rw [hfile, decodeText_eq_ok_iff.mp h]⟩
    · rintro ⟨file, hpath, hfile⟩
      rw [FileSystem.read_eq_ok_iff.mpr ⟨file, hpath, hfile⟩]
      exact decodeText_eq_ok_iff.mpr rfl

/-- A text is a rule list, and its rules have these tables. -/
def Yields (source : String) (t : Tables) : Prop :=
  ∃ defs, readRuleList? source = some defs ∧ Tables.ofRules defs = .ok t

/-- A text has tables when it is a list of rules that the grammar accepts. -/
theorem tablesOf_eq_ok_iff : tablesOf input source = .ok t ↔ Yields source t := by
  unfold tablesOf Yields
  grind

/-- The rendering of a rule list, without the line feed that closes it. -/
def rendered? (format : Format) (source : String) : Option String :=
  (readRuleList? source).bind fun defs => (Tables.ofRules defs).toOption.map (rendering format)

/-- What is rendered for a text is the rendering of its tables. -/
theorem rendered?_of_yields (h : Yields source t) :
    rendered? format source = some (rendering format t) := by
  obtain ⟨defs, hdefs, ht⟩ := h
  unfold rendered?
  rw [hdefs, Option.bind_some, ht]
  rfl

/-- An input for which there are no tables. -/
inductive IsFaulty (files : Files ν α) (stdin : ByteArray) (input : String) : Prop
  /-- it holds no text -/
  | unreadable (h : ∀ source, ¬HoldsText files stdin input source)
  /-- its text is not a rule list -/
  | notRuleList {source : String} (h : HoldsText files stdin input source)
      (hdefs : readRuleList? source = none)
  /-- its rules are not a grammar -/
  | invalidGrammar {source : String} {defs : List RuleDef} {e : GrammarError}
      (h : HoldsText files stdin input source) (hdefs : readRuleList? source = some defs)
      (ht : Tables.ofRules defs = .error e)

/-- An input is at fault or has tables. -/
theorem exists_yields_of_not_isFaulty (h : ¬IsFaulty files stdin input) :
    ∃ source t, HoldsText files stdin input source ∧ Yields source t := by
  obtain ⟨source, hsource⟩ : ∃ source, HoldsText files stdin input source :=
    Classical.byContradiction fun hnone => h (.unreadable (not_exists.mp hnone))
  cases hdefs : readRuleList? source with
  | none => exact absurd (.notRuleList hsource hdefs) h
  | some defs =>
    cases ht : Tables.ofRules defs with
    | error e => exact absurd (.invalidGrammar hsource hdefs ht) h
    | ok t => exact ⟨source, t, hsource, defs, hdefs, ht⟩

/-- A fault of the input ends the run with the same error, whatever is to be done with the tables. -/
theorem exists_prepare_eq_error (h : IsFaulty files stdin input) :
    ∃ e, ∀ a : Arguments, a.input = input → prepare a (readInput files stdin input) = .error e := by
  cases h with
  | unreadable h =>
    cases hread : readInput files stdin input with
    | error cause => exact ⟨.unreadable input cause, fun a ha => by rw [prepare, ha]⟩
    | ok source => exact absurd (readInput_eq_ok_iff.mp hread) (h source)
  | notRuleList h hdefs =>
    refine ⟨.notRuleList input, fun a ha => ?_⟩
    rw [readInput_eq_ok_iff.mpr h, prepare, ha, tablesOf, hdefs]
  | @invalidGrammar source defs e h hdefs ht =>
    refine ⟨.invalidGrammar e, fun a ha => ?_⟩
    rw [readInput_eq_ok_iff.mpr h, prepare, ha, tablesOf, hdefs]
    simp only [ht]

/-- A run with an input that has tables delivers their rendering with a final newline. -/
theorem prepare_of_yields (hsource : HoldsText files stdin a.input source) (h : Yields source t) :
    prepare a (readInput files stdin a.input) = .ok ⟨warnings a t, rendering a.format t ++ "\n"⟩ := by
  rw [readInput_eq_ok_iff.mpr hsource, prepare, tablesOf_eq_ok_iff.mpr h]

/-- An input holds one text at most. -/
theorem HoldsText.unique {source' : String} (h : HoldsText files stdin input source)
    (h' : HoldsText files stdin input source') : source = source' :=
  Except.ok.inj ((readInput_eq_ok_iff.mpr h).symm.trans (readInput_eq_ok_iff.mpr h'))

/-- A text has one set of tables at most. -/
theorem Yields.unique {t' : Tables} (h : Yields source t) (h' : Yields source t') : t = t' := by
  obtain ⟨defs, hdefs, ht⟩ := h
  obtain ⟨defs', hdefs', ht'⟩ := h'
  obtain rfl := Option.some.inj (hdefs.symm.trans hdefs')
  exact Except.ok.inj (ht.symm.trans ht')

/-- An input with tables is not at fault. -/
theorem not_isFaulty (hsource : HoldsText files stdin a.input source) (ht : Yields source t) :
    ¬IsFaulty files stdin a.input := by
  intro h
  obtain ⟨e, he⟩ := exists_prepare_eq_error h
  cases (he a rfl).symm.trans (prepare_of_yields hsource ht)

end Input

/-! ## The output -/

section Output

variable {files : Files ν α} {stdin : ByteArray} {args : List String} {a : Arguments} {e : RunError}
  {d : Delivery} {output : Option String} {path rendered : String} {file : ν}

/-- A run that fails before its delivery says why and writes nothing. -/
theorem run_of_error (h : Request.ofArguments? args = some (.tables a))
    (he : prepare a (readInput files stdin a.input) = .error e) :
    run files stdin args = ⟨1, "", e.message, files⟩ := by
  simp only [run, h, runTables, he]

/-- A run that prepares a delivery is that delivery. -/
theorem run_of_ok (h : Request.ofArguments? args = some (.tables a))
    (hd : prepare a (readInput files stdin a.input) = .ok d) :
    run files stdin args = d.outcome files a.output := by
  simp only [run, h, runTables, hd]

/-- A delivery to a path that can be written succeeds, and its file is all that changes. -/
theorem outcome_of_toWrite (h : FileSystem.toWrite files path = .ok file) : d.outcome files (some path) =
    ⟨0, "", d.warnings, files.insert file (Content.ofText d.content)⟩ := by
  have hwrite : FileSystem.write files path d.content =
      .ok (files.insert file (Content.ofText d.content)) :=
    FileSystem.write_eq_ok_iff.mpr ⟨file, h, rfl⟩
  simp only [Delivery.outcome, hwrite]

/-- A delivery to a path that cannot be written fails and leaves the files as they are. -/
theorem outcome_of_write_eq_error {cause : FileError}
    (h : ∀ text, FileSystem.write files path text = .error cause) :
    d.outcome files (some path) =
      ⟨1, "", d.warnings ++ (RunError.unwritable path cause).message, files⟩ := by
  simp only [Delivery.outcome, h]

/-- Where a rendering goes. -/
structure Delivers (files : Files ν α) (output : Option String) (rendered : String)
    (o : Outcome ν α) : Prop where
  /-- without a path, it goes to the standard output -/
  toStandardOutput : output = none → o.code = 0 ∧ o.stdout = rendered ++ "\n" ∧ o.files = files
  /-- a path to a file makes it what the file holds, and no other file changes -/
  toFile : ∀ path file, output = some path → FileSystem.toWrite files path = .ok file →
    o.code = 0 ∧ o.stdout = "" ∧ ∀ other, o.files.get? other =
      if other = file then some (Content.ofText (rendered ++ "\n")) else files.get? other
  /-- the path still leads to this file, and what is read there, if anything, is the rendering -/
  readBack : ∀ path file, output = some path → FileSystem.toWrite files path = .ok file →
    FileSystem.toWrite o.files path = .ok file ∧
      ∀ content, FileSystem.read o.files path = .ok content → content = Content.ofText (rendered ++ "\n")
  /-- from any other path it does not get anywhere -/
  toNothing : ∀ path, output = some path → ¬FileSystem.IsWritable files path →
    o.code = 1 ∧ o.stdout = "" ∧ o.files = files

/-- **A rendering goes to one place**: standard output, or the file of the given path. -/
theorem delivers_outcome {warnings : String} : Delivers files output rendered
    (Delivery.outcome ⟨warnings, rendered ++ "\n"⟩ files output) where
  toStandardOutput := by
    rintro rfl
    exact ⟨rfl, rfl, rfl⟩
  toFile := by
    rintro path file rfl h
    rw [outcome_of_toWrite h]
    exact ⟨rfl, rfl, fun other => OrderedMap.get?_insert ..⟩
  readBack := by
    rintro path file rfl h
    rw [outcome_of_toWrite h]
    exact ⟨FileSystem.toWrite_insert h _, fun content hread => FileSystem.eq_of_read_insert h hread⟩
  toNothing := by
    rintro path rfl h
    obtain ⟨cause, hcause⟩ := FileSystem.exists_write_eq_error h
    rw [outcome_of_write_eq_error hcause]
    exact ⟨rfl, rfl, rfl⟩

/-- What is said behind all warnings: that the output cannot be written, if it cannot. -/
inductive IsRefusal (files : Files ν α) : Option String → String → Prop
  /-- to the standard output -/
  | toStandardOutput : IsRefusal files none ""
  /-- to a file -/
  | toFile {path : String} (h : FileSystem.IsWritable files path) : IsRefusal files (some path) ""
  /-- along a path at which no file can be written -/
  | toNothing {path : String} {cause : FileError}
      (h : ∀ text, FileSystem.write files path text = .error cause) :
    IsRefusal files (some path) (RunError.unwritable path cause).message

/-- The warnings come first, and they bear on nothing else. -/
theorem exists_outcome_eq (files : Files ν α) (output : Option String) (content : String) :
    ∃ o : Outcome ν α, IsRefusal files output o.stderr ∧ ∀ warnings,
      Delivery.outcome ⟨warnings, content⟩ files output =
        { o with stderr := warnings ++ o.stderr } := by
  cases output with
  | none =>
    refine ⟨⟨0, content, "", files⟩, .toStandardOutput, fun warnings => ?_⟩
    simp only [Delivery.outcome, String.append_empty]
  | some path =>
    by_cases h : FileSystem.IsWritable files path
    · obtain ⟨file, hfile⟩ := h
      refine ⟨⟨0, "", "", files.insert file (Content.ofText content)⟩, .toFile ⟨file, hfile⟩,
        fun warnings => ?_⟩
      rw [outcome_of_toWrite hfile, String.append_empty]
    · obtain ⟨cause, hcause⟩ := FileSystem.exists_write_eq_error h
      exact ⟨⟨1, "", (RunError.unwritable path cause).message, files⟩, .toNothing hcause,
        fun _ => outcome_of_write_eq_error hcause⟩

end Output

/-! ## The report -/

/-- The report of some conflicts: nothing if there are none, and else one line for them all and one
indented entry for each, in their order. -/
structure IsReport (t : Tables) (text : String) : Prop where
  /-- nothing is reported if there is nothing -/
  nothing : t.table.conflicts = [] → text = ""
  /-- the line for all conflicts and the entries for each -/
  entries : t.table.conflicts ≠ [] → ∃ heading : String, '\n' ∉ heading.toList ∧
    text = heading ++ "\n" ++
      String.join (t.table.conflicts.map fun c => "  " ++ c.text t.grammar ++ "\n")

/-- The heading is one line. -/
theorem lineFeed_not_mem_conflictHeading (count : Nat) : '\n' ∉ (conflictHeading count).toList := by
  have hcount : '\n' ∉ (toString count).toList := by
    rw [Nat.toString_eq_repr, Nat.toList_repr]
    intro hmem
    cases Nat.isDigit_of_mem_toDigits (by decide) (by decide) hmem
  have hplural : '\n' ∉ (if count = 1 then "" else "s").toList := by
    split <;> decide
  unfold conflictHeading
  simp only [String.toList_append, List.mem_append, not_or]
  exact ⟨⟨⟨⟨by decide, hcount⟩, by decide⟩, hplural⟩, by decide⟩

/-- **The warning about conflicts is their report**: absent when there are none. -/
theorem isReport_conflictWarning (t : Tables) : IsReport t (conflictWarning t) where
  nothing h := by
    unfold conflictWarning
    rw [h]
    rfl
  entries h := by
    refine ⟨conflictHeading t.table.conflicts.length, lineFeed_not_mem_conflictHeading _, ?_⟩
    unfold conflictWarning
    rw [if_neg (by simpa using h), lines, List.map_cons, List.map_map, String.join_cons]
    rfl

/-! ## Runs -/

section Runs

variable {files : Files ν α} {stdin : ByteArray} {args : List String} {a : Arguments}

/-- What asking for a report changes, from one outcome to another. -/
structure ReportsMore (files : Files ν α) (stdin : ByteArray) (a : Arguments) (o o' : Outcome ν α) :
    Prop where
  /-- the exit code is the same -/
  sameCode : o'.code = o.code
  /-- the standard output is the same -/
  sameStdout : o'.stdout = o.stdout
  /-- the files are the same -/
  sameFiles : o'.files = o.files
  /-- without tables there is nothing to report -/
  faulty : IsFaulty files stdin a.input → o'.stderr = o.stderr
  /-- the report stands behind the warning about nonterminals and before what is said about the output -/
  inserted : ∀ source t, HoldsText files stdin a.input source → Yields source t →
    ∃ report refusal, IsReport t report ∧ IsRefusal files a.output refusal ∧
      o.stderr = unresolvedWarning t ++ refusal ∧ o'.stderr = unresolvedWarning t ++ report ++ refusal

/-- How the run of a request agrees with other runs on the same files and the same standard input. -/
structure Agrees (files : Files ν α) (stdin : ByteArray) (args : List String) (a : Arguments) :
    Prop where
  /-- a fault of the input is all that a run tells -/
  fails : IsFaulty files stdin a.input → (run files stdin args).code = 1 ∧
    (run files stdin args).stdout = "" ∧ (run files stdin args).files = files
  /-- otherwise the text and the format tell what is given out, and it goes where it should -/
  delivers : ¬IsFaulty files stdin a.input → ∃ source rendered,
    HoldsText files stdin a.input source ∧ rendered? a.format source = some rendered ∧
      Delivers files a.output rendered (run files stdin args)
  /-- what is given out tells of the tables: as JSON their sheet, indented, and as text their report -/
  renders : ∀ source t, Yields source t → rendered? a.format source =
    some (match a.format with
      | .json => (Sheet.ofTables t).toJson.indented
      | .text => t.text)
  /-- the same can be asked for without an output file -/
  unredirected : ∃ args', Request.ofArguments? args' = some (.tables a.unredirected)
  /-- an output file holds what would have gone to the standard output -/
  redirects : ∀ path file args', ¬IsFaulty files stdin a.input → a.output = some path →
    FileSystem.toWrite files path = .ok file → Request.ofArguments? args' = some (.tables a.unredirected) →
    (run files stdin args).files.get? file = some (Content.ofText (run files stdin args').stdout)
  /-- a report can be asked for if it was not -/
  reporting : a.reportConflicts = false →
    Request.ofArguments? ("--report-conflicts" :: args) = some (.tables a.reporting)
  /-- the option for it does the same at each place where it is accepted -/
  reports : ∀ before after r, args = before ++ after →
    Request.ofArguments? (before ++ "--report-conflicts" :: after) = some r →
    ReportsMore files stdin a (run files stdin args)
      (run files stdin (before ++ "--report-conflicts" :: after))

/-- **An input without tables fails every run in the same way**, whatever the other arguments ask
for. -/
theorem exists_run_eq_of_isFaulty (h : IsFaulty files stdin a.input) :
    ∃ e : RunError, ∀ args' a', Request.ofArguments? args' = some (.tables a') → a'.input = a.input →
      run files stdin args' = ⟨1, "", e.message, files⟩ := by
  obtain ⟨e, he⟩ := exists_prepare_eq_error h
  refine ⟨e, fun args' a' hargs' hinput => run_of_error hargs' ?_⟩
  rw [hinput]
  exact he a' hinput

/-- **An input with tables has their rendering delivered**, after the warnings. -/
theorem run_of_yields {source : String} {t : Tables}
    (hargs : Request.ofArguments? args = some (.tables a))
    (hsource : HoldsText files stdin a.input source) (ht : Yields source t) :
    run files stdin args = Delivery.outcome ⟨warnings a t, rendering a.format t ++ "\n"⟩ files a.output :=
  run_of_ok hargs (prepare_of_yields hsource ht)

/-- Asking for a report adds it, and no more. -/
theorem reportsMore {args' : List String} (hargs : Request.ofArguments? args = some (.tables a))
    (ha : a.reportConflicts = false) (hargs' : Request.ofArguments? args' = some (.tables a.reporting)) :
    ReportsMore files stdin a (run files stdin args) (run files stdin args') := by
  by_cases h : IsFaulty files stdin a.input
  · obtain ⟨e, he⟩ := exists_run_eq_of_isFaulty h
    rw [he args a hargs rfl, he args' a.reporting hargs' rfl]
    exact ⟨rfl, rfl, rfl, fun _ => rfl, fun source t hsource ht => absurd h (not_isFaulty hsource ht)⟩
  · obtain ⟨source, t, hsource, ht⟩ := exists_yields_of_not_isFaulty h
    -- both runs give out the same rendering in the same place, and only their warnings differ
    obtain ⟨o, ho, hwarnings⟩ := exists_outcome_eq files a.output (rendering a.format t ++ "\n")
    have hrun : run files stdin args = { o with stderr := unresolvedWarning t ++ o.stderr } := by
      rw [run_of_yields hargs hsource ht, hwarnings, warnings, ha, if_neg (by decide),
        String.append_empty]
    have hrun' : run files stdin args' =
        { o with stderr := unresolvedWarning t ++ conflictWarning t ++ o.stderr } := by
      rw [run_of_yields (a := a.reporting) hargs' hsource ht]
      exact hwarnings _
    rw [hrun, hrun']
    refine ⟨rfl, rfl, rfl, fun hfault => absurd hfault h, fun source' t' hsource' ht' => ?_⟩
    obtain rfl := hsource.unique hsource'
    obtain rfl := ht.unique ht'
    exact ⟨conflictWarning t, o.stderr, isReport_conflictWarning t, ho, rfl, rfl⟩

/-- **Runs agree,** however paths lead to files. A fault of the input leaves everything alone. Otherwise the
rendering depends on the text of the input and on the format only, an output file gets what the standard
output would get, and the report of the conflicts is added to the standard error without any other
change. -/
theorem agrees (h : Request.ofArguments? args = some (.tables a)) : Agrees files stdin args a where
  fails hfault := by
    obtain ⟨e, he⟩ := exists_run_eq_of_isFaulty hfault
    rw [he args a h rfl]
    exact ⟨rfl, rfl, rfl⟩
  delivers hfine := by
    obtain ⟨source, t, hsource, ht⟩ := exists_yields_of_not_isFaulty hfine
    refine ⟨source, rendering a.format t, hsource, rendered?_of_yields ht, ?_⟩
    rw [run_of_yields h hsource ht]
    exact delivers_outcome
  renders source t ht := by
    rw [rendered?_of_yields ht]
    rfl
  unredirected :=
    Request.exists_ofArguments?_iff.mpr ⟨(Request.exists_ofArguments?_iff.mp ⟨args, h⟩).1, nofun⟩
  redirects path file args' hfine houtput hfile h' := by
    obtain ⟨source, t, hsource, ht⟩ := exists_yields_of_not_isFaulty hfine
    rw [run_of_yields h hsource ht, run_of_yields (a := a.unredirected) h' hsource ht, houtput,
      outcome_of_toWrite hfile]
    exact (OrderedMap.get?_insert ..).trans (if_pos rfl)
  reporting ha := Request.ofArguments?_cons_reportConflicts h ha
  reports before after r hsplit h' := by
    -- wherever the option is accepted, the request is the same but for the report
    rw [hsplit] at h
    obtain ⟨ha, rfl⟩ := Scan.arguments?_insert h h'
    rw [hsplit]
    exact reportsMore h ha h'

/-- A rule list with conflicts and a nonterminal without rules. -/
def crossedRules : String := "[[\"S\", [\"S\", \"S\"]], [\"S\", [\"x\", \"N\"]]]"

/-- A file with the rule list, and one that holds no text. -/
def crossedFiles : Directory ByteArray := ⟨[("rules", crossedRules.toUTF8), ("picture", ⟨#[255, 216]⟩)]⟩

/-- The output takes the place of the input. -/
theorem agrees_crossedFiles :
    Request.ofArguments? ["-o", "rules", "./rules"] =
        some (.tables ⟨.json, some "rules", false, "./rules"⟩) ∧
      ¬IsFaulty crossedFiles .empty "./rules" ∧
      FileSystem.toWrite crossedFiles "rules" = .ok "rules" ∧
      Agrees crossedFiles .empty ["-o", "rules", "./rules"]
        ⟨.json, some "rules", false, "./rules"⟩ := by
  have hargs : Request.ofArguments? ["-o", "rules", "./rules"] =
      some (.tables ⟨.json, some "rules", false, "./rules"⟩) := by decide
  have hsource : HoldsText crossedFiles .empty "./rules" crossedRules := by
    unfold HoldsText
    rw [if_neg (by decide)]
    exact ⟨"rules", by rfl, by rfl⟩
  have hdefs : readRuleList? crossedRules = some [⟨"S", ["S", "S"]⟩, ⟨"S", ["x", "N"]⟩] := by rfl
  obtain ⟨g, hg⟩ : ∃ g, Grammar.augment [⟨"S", ["S", "S"]⟩, ⟨"S", ["x", "N"]⟩] = .ok g :=
    Grammar.exists_augment (by decide) (by unfold RuleDef.IsValid; decide) (by decide) (by decide)
  have ht : Yields crossedRules (.ofGrammar g) := ⟨_, hdefs, Tables.ofRules_eq_ok.mpr ⟨g, hg, rfl⟩⟩
  have hfine : ¬IsFaulty crossedFiles .empty "./rules" :=
    not_isFaulty (a := ⟨.json, none, false, "./rules"⟩) hsource ht
  exact ⟨hargs, hfine, Directory.toWrite_self _ (by decide) (by decide) (by decide), agrees hargs⟩

end Runs

end ShiftReduce.CommandLine
