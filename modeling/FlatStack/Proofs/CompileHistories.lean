import FlatStack.Proofs.CompiledFiles

/-!
# Histories of compilations

A compilation removes the error files that stand beside its output before it
does anything else there, and a stage that fails leaves its message in one of
them. So these files tell how the last compilation has ended, whatever was there
when the first one began. All that keeps a compilation from getting so far are
settings that cannot be loaded: then nothing changes.
-/

set_option autoImplicit false

namespace FlatStack

namespace Action

/-! ## Error files and others -/

section Places

variable {D : List String} {stage stage' out : String}

theorem errorPlace_inj : errorPlace D stage = errorPlace D stage' ↔ stage = stage' := by
  unfold errorPlace
  rw [List.append_cancel_left_eq, List.singleton_inj, ← String.toList_inj, ← String.toList_inj,
    String.toList_append, String.toList_append, List.append_cancel_right_eq]

theorem mem_errorPlaces (known : stage ∈ compileStages) : errorPlace D stage ∈ errorPlaces D :=
  List.mem_map_of_mem known

/-- No listing goes where an error file may stand. -/
theorem listings_apart {s : Settings} {source : String} {c : Compilation} :
    ∀ f ∈ listings s out source c,
      Path.parts f.1 ∉ errorPlaces (Path.parts (directoryOf out)) := by
  intro f listed
  unfold listings at listed
  split at listed
  · obtain ⟨l, member, rfl⟩ := List.mem_map.mp listed
    have named : l.1 ∈ ["tokens.txt", "ast.txt", "symbols.txt"] := by
      simpa [artifacts] using List.mem_map_of_mem (f := (·.1)) member
    have plain : ∀ n ∈ ["tokens.txt", "ast.txt", "symbols.txt"], Path.Plain n ∧
        ∀ stage ∈ compileStages, stage ++ "_errors.txt" ≠ n := by
      unfold Path.Plain
      decide +kernel
    rw [Path.parts_join (plain _ named).1 directoryOf_full]
    intro stale
    obtain ⟨stage, known, same⟩ := List.mem_map.mp stale
    exact (plain _ named).2 stage known (by simpa [errorPlace] using same)
  · cases listed

end Places

/-! ## Operations on files that succeed -/

section Trouble

variable {α β : Type} {w : Workspace} {purpose message text : String}
  {x : Attempt (StateM Workspace) α} {f : α → Attempt (StateM Workspace) β}

/-- How messages about operations on files begin, but for those that only read. -/
def filePurposes : List String :=
  ["failed to create output directory ", "failed to remove ", "failed to write "]

/-- What a message says when an operation on a file has failed. -/
def Trouble (message : String) : Prop :=
  ∃ purpose ∈ filePurposes, purpose.toList <+: message.toList

/-- No operation on a file fails. -/
def Calm (x : Attempt (StateM Workspace) α) (w : Workspace) : Prop :=
  ∀ message v, outcome x w = (.error message, v) → ¬ Trouble message

/-- An attempt that fails only where an operation on a file does. -/
def Sure (x : Attempt (StateM Workspace) α) : Prop :=
  ∀ w message v, outcome x w = (.error message, v) → Trouble message

theorem trouble_of_purpose (h : purpose ∈ filePurposes) : Trouble (purpose ++ text) :=
  ⟨purpose, h, by rw [String.toList_append]; exact List.prefix_append _ _⟩

theorem Trouble.append (h : Trouble message) : Trouble (message ++ text) := by
  obtain ⟨purpose, known, front⟩ := h
  refine ⟨purpose, known, front.trans ?_⟩
  rw [String.toList_append]
  exact List.prefix_append _ _

/-- Where nothing fails but operations on files, and none of them does, all goes on. -/
theorem Sure.next (sure : Sure x) (calm : Calm (x >>= f) w) :
    ∃ a v, Yields x w a v ∧ outcome (x >>= f) w = outcome (f a) v ∧ Calm (f a) v := by
  unfold Calm at calm ⊢
  rw [outcome_bind] at calm ⊢
  rcases ended : outcome x w with ⟨e | a, v⟩
  · rw [ended] at calm
    exact absurd (sure w e v ended) (calm e v rfl)
  · rw [ended] at calm
    exact ⟨a, v, ended, rfl, calm⟩

theorem Sure.yields (sure : Sure x) (calm : Calm x w) : ∃ a v, Yields x w a v := by
  rcases ended : outcome x w with ⟨e | a, v⟩
  · exact absurd (sure w e v ended) (calm e v ended)
  · exact ⟨a, v, ended⟩

theorem Sure.bind (first : Sure x) (further : ∀ a, Sure (f a)) : Sure (x >>= f) := by
  intro w message v failed
  rw [outcome_bind] at failed
  rcases ended : outcome x w with ⟨e | a, u⟩
  · rw [ended] at failed
    cases failed
    exact first w _ _ ended
  · rw [ended] at failed
    exact further a u message v failed

theorem sure_forM {xs : List α} {f : α → Attempt (StateM Workspace) PUnit}
    (each : ∀ a ∈ xs, Sure (f a)) : Sure (xs.forM f) := by
  induction xs with
  | nil => exact fun _ _ _ failed => nomatch failed
  | cons a xs ih =>
    obtain ⟨first, others⟩ := List.forall_mem_cons.mp each
    exact first.bind fun _ => ih others

theorem sure_attempt {request : StateM Workspace (Except FileError α)} (h : Trouble purpose) :
    Sure (attempt purpose request) := by
  intro w message v failed
  rw [outcome_attempt] at failed
  rcases ran : (request.run w).run with ⟨e | a, u⟩
  all_goals rw [ran] at failed
  · cases failed
    exact h.append.append
  · cases failed

theorem sure_print : Sure (liftM (Host.print text : StateM Workspace Unit)) :=
  fun _ _ _ failed => nomatch failed

theorem sure_createDirectories {directory : String} :
    Sure (attempt ("failed to create output directory " ++ directory)
      (Host.createDirectories directory : StateM Workspace _)) :=
  sure_attempt (trouble_of_purpose (by decide))

theorem sure_writeFile {path : String} : Sure (writeFile path text) :=
  sure_attempt (trouble_of_purpose (by decide))

theorem sure_writeCode {path : String} :
    Sure (attempt ("failed to write bytecode to " ++ path)
      (Host.writeFile path text : StateM Workspace _)) := by
  have longer : "failed to write bytecode to " = "failed to write " ++ "bytecode to " := by decide
  rw [longer]
  exact sure_attempt (trouble_of_purpose (by decide)).append

theorem sure_removeStale {directory stage : String} : Sure (removeStale directory stage) := by
  intro w message v failed
  rw [outcome_removeStale] at failed
  split at failed
  · cases failed
  · cases failed
  · cases failed
    exact (trouble_of_purpose (by decide)).append.append

end Trouble

/-! ## Where a compilation begins -/

/-- A disk from which the error files of a directory have gone. -/
structure Cleared (D : List String) (d d' : Disk) : Prop where
  rooted : d'.Rooted
  lookup : ∀ q, d'.files.lookup q = if q ∈ errorPlaces D then none else d.files.lookup q

/-- What was not removed is read as before. -/
theorem Cleared.read_iff {D : List String} {d d' : Disk} (h : Cleared D d d') (rooted : d.Rooted)
    {path text : String} :
    d'.read path = .ok text ↔ Path.parts path ∉ errorPlaces D ∧ d.read path = .ok text := by
  rw [h.rooted.read_iff, rooted.read_iff, h.lookup]
  by_cases stale : Path.parts path ∈ errorPlaces D <;> simp [stale]

/-- A failing stage leaves its message. -/
def leaveMessage (out : String) (e : Error) : Attempt (StateM Workspace) Unit := do
  writeFile (errorFile (directoryOf out) e.stage) (e.message ++ "\n")
  throw e.report

def writeCompiled (settings : Settings) (out source : String) (c : Compilation) :
    Attempt (StateM Workspace) Unit := do
  attempt ("failed to write bytecode to " ++ out) (Host.writeFile out c.bytecode.text)
  if settings.artifacts then
    (artifacts source c).forM fun l => writeFile (Path.join (directoryOf out) l.1) l.2
  (Host.print (Style.bold (Style.green "Compiled") ++ " " ++ toString c.bytecode.size
    ++ " instructions to " ++ Style.cyan out ++ "\n") : StateM Workspace Unit)

/-- What comes behind the removal of the error files. -/
def compileSource (settings : Settings) (sourcePath out : String) :
    Attempt (StateM Workspace) Unit := do
  let source ← readFile "source file" sourcePath
  match Compilation.ofSource source with
  | .error e => leaveMessage out e
  | .ok c => writeCompiled settings out source c

section Begins

variable {s : Settings} {source out : String} {output : Option String} {w : Workspace}

/-- A compilation that is not disturbed comes to its source with the error files gone. -/
theorem outcome_compileFile (calm : Calm (compileFile s source output) w)
    (rooted : w.disk.Rooted) :
    ∃ disk, Cleared (Path.parts (directoryOf (output.getD s.bytecodePath))) w.disk disk ∧
      Calm (compileSource s source (output.getD s.bytecodePath)) { w with disk } ∧
        outcome (compileFile s source output) w
          = outcome (compileSource s source (output.getD s.bytecodePath)) { w with disk } := by
  obtain ⟨_, _, created, same, calm⟩ := sure_createDirectories.next calm
  obtain ⟨d, made, rfl⟩ := yields_createDirectories.mp created
  obtain ⟨_, _, removed, same', calm⟩ := (sure_forM fun _ _ => sure_removeStale).next calm
  obtain ⟨disk, rfl, rooted', -, lookup⟩ :=
    removeAll_clears (fun _ => id) removed (rooted.createDirectories made)
  refine ⟨disk, ⟨rooted', fun q => ?_⟩, calm, same.trans same'⟩
  rw [lookup, (Disk.createDirectories_ok made).1]
  rfl

theorem outcome_compileSource {text : String} (found : w.disk.read source = .ok text) :
    outcome (compileSource s source out) w = match Compilation.ofSource text with
      | .error e => outcome (leaveMessage out e) w
      | .ok c => outcome (writeCompiled s out text c) w := by
  unfold compileSource
  rw [outcome_bind, outcome_readFile, found]
  dsimp only
  cases Compilation.ofSource text <;> rfl

/-- A stage that fails leaves its message and changes nothing else. -/
theorem outcome_failed {e : Error} {text : String}
    (calm : Calm (compileSource s source out) w) (found : w.disk.read source = .ok text)
    (failed : Compilation.ofSource text = .error e) :
    ∃ disk, w.disk.write (errorFile (directoryOf out) e.stage) (e.message ++ "\n") = .ok disk ∧
      outcome (compileSource s source out) w = (.error e.report, { w with disk }) := by
  have read : outcome (compileSource s source out) w = outcome (leaveMessage out e) w := by
    rw [outcome_compileSource found, failed]
  rw [Calm, read] at calm
  obtain ⟨_, _, written, same, -⟩ := sure_writeFile.next calm
  obtain ⟨disk, put, rfl⟩ := yields_writeFile.mp written
  exact ⟨disk, put, (read.trans same).trans outcome_throw⟩

/-- A compilation that succeeds writes its code and its listings. -/
theorem outcome_compiled {c : Compilation} {text : String}
    (calm : Calm (compileSource s source out) w) (rooted : w.disk.Rooted)
    (found : w.disk.read source = .ok text) (compiled : Compilation.ofSource text = .ok c) :
    ∃ disk console, outcome (compileSource s source out) w = (.ok (), { w with disk, console }) ∧
      disk.Rooted ∧ ∀ q, disk.files.lookup q = (lastText? (listings s out text c) q).or
        (if q = Path.parts out then some c.bytecode.text else w.disk.files.lookup q) := by
  have read : outcome (compileSource s source out) w = outcome (writeCompiled s out text c) w := by
    rw [outcome_compileSource found, compiled]
  rw [Calm, read] at calm
  obtain ⟨_, _, written, same, calm⟩ := sure_writeCode.next calm
  obtain ⟨d, put, rfl⟩ := yields_writeFile.mp written
  obtain ⟨_, _, ended⟩ := Sure.yields (by
    split
    · exact (sure_forM fun _ _ => sure_writeFile).bind fun _ => sure_print
    · exact sure_print) calm
  obtain ⟨disk, console, rfl, rooted', -, lookup⟩ := listings_yields ended (rooted.write put)
  refine ⟨disk, console, (read.trans same).trans ended, rooted', fun q => ?_⟩
  obtain ⟨_, _, _, _, rfl⟩ := Disk.write_ok put
  rw [lookup, Disk.lookup_put]

end Begins

end Action

open FlatStack.Action

/-! ## How a compile command ends -/

/-- A compilation fails at a stage that may leave an error file. -/
theorem Compilation.stage_of_error {text : String} {e : Error} (h : ofSource text = .error e) :
    e.stage ∈ compileStages := by
  unfold ofSource at h
  rw [Error.stage_failed] at h
  obtain ⟨u, -, rfl⟩ | ⟨tokens, -, h⟩ := h
  · simp [Error.stage, compileStages]
  rw [Error.stage_failed] at h
  obtain ⟨cause, -, rfl⟩ | ⟨program, -, h⟩ := h
  · cases cause <;> simp [Error.ofParse, Error.stage, compileStages]
  rw [Error.stage_failed] at h
  obtain ⟨errors, -, rfl⟩ | ⟨analysis, -, h⟩ := h
  · simp [Error.stage, compileStages]
  obtain ⟨cause, -, rfl⟩ | ⟨b, -, h⟩ := Error.stage_failed.mp h
  · simp [Error.stage, compileStages]
  · cases h

/-- A command to compile a file. -/
structure CompileCommand where
  config : Option String
  source : String
  output : Option String
  deriving DecidableEq, Repr

namespace CompileCommand

/-- What becomes of a command. -/
inductive Ending where
  /-- The settings could not be loaded. -/
  | refused (message : String)
  /-- The source could not be read. -/
  | unreadable (reason : FileError)
  /-- A stage has failed. -/
  | failed (error : Error)
  | compiled (result : Compilation)

/-- What is reported of a source. -/
def Ending.result (source : String) : Ending → Except String Unit
  | .refused message => .error message
  | .unreadable reason => .error ("failed to read source file " ++ source ++ ": " ++ reason.message)
  | .failed e => .error e.report
  | .compiled _ => .ok ()

/-- The error file of a stage after the command, if `old` was there before it. -/
def Ending.leaves (stage : String) (old : Option String) : Ending → Option String
  | .refused _ => old
  | .failed e => if e.stage = stage then some (e.message ++ "\n") else none
  | .unreadable _ | .compiled _ => none

section Commands

variable (lines : Nat) (D : List String)

def attempt (c : CompileCommand) : Attempt (StateM Workspace) Unit := do
  let s ← loadSettings c.config
  compileFile s c.source c.output

/-- The exit code of a command and the workspace afterwards. -/
def run (c : CompileCommand) (w : Workspace) : UInt32 × Workspace :=
  (Invocation.action c.config (.compile c.source c.output)).ends lines w

/-- A command writes to a directory, to a file that is no error file, and no operation on a file
fails. -/
structure Fits (c : CompileCommand) (w : Workspace) : Prop where
  within : ∀ s, Yields (loadSettings c.config) w s w →
    Path.parts (directoryOf (c.output.getD s.bytecodePath)) = D
  apart : ∀ s, Yields (loadSettings c.config) w s w →
    Path.parts (c.output.getD s.bytecodePath) ∉ errorPlaces D
  calm : Calm c.attempt w

/-- Why a command ends as it does. -/
inductive Reason (c : CompileCommand) (w : Workspace) : Ending → Prop
  | refused {message : String} :
      outcome (loadSettings c.config) w = (.error message, w) → Reason c w (.refused message)
  /-- A source that was there before was an error file itself. -/
  | unreadable {s : Settings} {reason : FileError} : Yields (loadSettings c.config) w s w →
      (∀ text, w.disk.read c.source = .ok text → Path.parts c.source ∈ errorPlaces D) →
        Reason c w (.unreadable reason)
  | failed {s : Settings} {text : String} {e : Error} : Yields (loadSettings c.config) w s w →
      w.disk.read c.source = .ok text → Compilation.ofSource text = .error e →
        Reason c w (.failed e)
  | compiled {s : Settings} {text : String} {result : Compilation} :
      Yields (loadSettings c.config) w s w → w.disk.read c.source = .ok text →
        Compilation.ofSource text = .ok result → Reason c w (.compiled result)

/-- What a command reports and what it leaves. -/
structure Leaves (c : CompileCommand) (w : Workspace) (ending : Ending) : Prop where
  reason : Reason D c w ending
  told : ∃ v : Workspace, v.errors = w.errors ∧
    c.run lines w = Invocation.conclude (ending.result c.source, v)
  errorFiles : ∀ stage ∈ compileStages,
    (c.run lines w).2.disk.files.lookup (errorPlace D stage)
      = ending.leaves stage (w.disk.files.lookup (errorPlace D stage))
  /-- There are not two error files. -/
  single : (∀ message, ending ≠ .refused message) → ∀ stage ∈ compileStages,
    ∀ stage' ∈ compileStages,
      (c.run lines w).2.disk.files.lookup (errorPlace D stage) ≠ none →
      (c.run lines w).2.disk.files.lookup (errorPlace D stage') ≠ none → stage = stage'
  others : (∀ result, ending ≠ .compiled result) → ∀ q, q ∉ errorPlaces D →
    (c.run lines w).2.disk.files.lookup q = w.disk.files.lookup q
  rooted : (c.run lines w).2.disk.Rooted

end Commands

section Endings

variable {lines : Nat} {D : List String} {c : CompileCommand} {w v : Workspace} {ending : Ending}
  {s : Settings}

theorem run_eq : c.run lines w = Invocation.conclude (outcome c.attempt w) := Invocation.ends_action

theorem disk_conclude {r : Except String Unit} : (Invocation.conclude (r, v)).2.disk = v.disk := by
  cases r <;> rfl

theorem leaves_single {stage stage' : String} {old old' : Option String}
    (settled : ∀ message, ending ≠ .refused message) (h : ending.leaves stage old ≠ none)
    (h' : ending.leaves stage' old' ≠ none) : stage = stage' := by
  cases ending with
  | refused message => exact absurd rfl (settled message)
  | unreadable | compiled => exact absurd rfl h
  | failed e =>
    have here : e.stage = stage := by
      by_contra other
      exact h (if_neg other)
    have here' : e.stage = stage' := by
      by_contra other
      exact h' (if_neg other)
    exact here.symm.trans here'

/-- What a command leaves, from what it comes to. -/
theorem leaves_of_outcome (reason : Reason D c w ending)
    (ended : outcome c.attempt w = (ending.result c.source, v)) (told : v.errors = w.errors)
    (files : ∀ stage ∈ compileStages, v.disk.files.lookup (errorPlace D stage)
      = ending.leaves stage (w.disk.files.lookup (errorPlace D stage)))
    (others : (∀ result, ending ≠ .compiled result) → ∀ q, q ∉ errorPlaces D →
      v.disk.files.lookup q = w.disk.files.lookup q)
    (rooted : v.disk.Rooted) : Leaves lines D c w ending := by
  have same : (c.run lines w).2.disk = v.disk := by rw [run_eq, ended, disk_conclude]
  refine ⟨reason, ⟨v, told, by rw [run_eq, ended]⟩, ?_, ?_, ?_, ?_⟩
  all_goals rw [same]
  · exact files
  · intro settled stage known stage' known' h h'
    rw [files stage known] at h
    rw [files stage' known'] at h'
    exact leaves_single settled h h'
  · exact others
  · exact rooted

theorem leaves_refused {message : String} (rooted : w.disk.Rooted)
    (refused : outcome (loadSettings c.config) w = (.error message, w)) :
    Leaves lines D c w (.refused message) := by
  apply leaves_of_outcome (.refused refused) (v := w) _ rfl
  · exact fun _ _ => rfl
  · exact fun _ _ _ => rfl
  · exact rooted
  · unfold attempt
    rw [outcome_bind, refused]
    rfl

end Endings

/-- A command has loaded its settings and removed the error files. -/
structure Prepared (D : List String) (c : CompileCommand) (w : Workspace) (s : Settings)
    (d : Disk) : Prop where
  loaded : Yields (loadSettings c.config) w s w
  rooted : w.disk.Rooted
  within : Path.parts (directoryOf (c.output.getD s.bytecodePath)) = D
  apart : Path.parts (c.output.getD s.bytecodePath) ∉ errorPlaces D
  cleared : Cleared D w.disk d
  calm : Calm (compileSource s c.source (c.output.getD s.bytecodePath)) { w with disk := d }
  ended : outcome c.attempt w
    = outcome (compileSource s c.source (c.output.getD s.bytecodePath)) { w with disk := d }

theorem Fits.prepared {D : List String} {c : CompileCommand} {w : Workspace} {s : Settings}
    (fit : c.Fits D w) (rooted : w.disk.Rooted) (loaded : Yields (loadSettings c.config) w s w) :
    ∃ d, Prepared D c w s d := by
  have within := fit.within s loaded
  have attempted : outcome c.attempt w = outcome (compileFile s c.source c.output) w := by
    unfold attempt
    rw [outcome_bind, loaded]
  have calm := fit.calm
  rw [Calm, attempted] at calm
  obtain ⟨d, cleared, calm, ended⟩ := outcome_compileFile calm rooted
  rw [within] at cleared
  exact ⟨d, loaded, rooted, within, fit.apart s loaded, cleared, calm, attempted.trans ended⟩

namespace Prepared

variable {lines : Nat} {D : List String} {c : CompileCommand} {w : Workspace} {s : Settings}
  {d : Disk}

theorem leaves_unreadable (h : Prepared D c w s d) {reason : FileError}
    (failed : d.read c.source = .error reason) : Leaves lines D c w (.unreadable reason) := by
  have cause : Reason D c w (.unreadable reason) := by
    apply Reason.unreadable h.loaded
    intro text found
    by_contra kept
    rw [(h.cleared.read_iff h.rooted).mpr ⟨kept, found⟩] at failed
    cases failed
  apply leaves_of_outcome cause (v := { w with disk := d }) _ rfl
  · intro stage known
    rw [h.cleared.lookup, if_pos (mem_errorPlaces known)]
    rfl
  · intro _ q other
    rw [h.cleared.lookup, if_neg other]
  · exact h.cleared.rooted
  · rw [h.ended, compileSource, outcome_bind, outcome_readFile]
    dsimp only
    rw [failed]
    rfl

theorem leaves_failed (h : Prepared D c w s d) {text : String} {e : Error}
    (found : d.read c.source = .ok text) (failed : Compilation.ofSource text = .error e) :
    Leaves lines D c w (.failed e) := by
  have cause : Reason D c w (.failed e) :=
    .failed h.loaded ((h.cleared.read_iff h.rooted).mp found).2 failed
  have known := Compilation.stage_of_error failed
  obtain ⟨disk, written, ended⟩ := outcome_failed h.calm found failed
  obtain ⟨-, -, -, -, put⟩ := Disk.write_ok written
  rw [parts_errorFile known, h.within] at put
  have lookup : ∀ q, disk.files.lookup q = if q = errorPlace D e.stage
      then some (e.message ++ "\n") else d.files.lookup q := by
    intro q
    rw [put, Disk.lookup_put]
  apply leaves_of_outcome cause (h.ended.trans ended) rfl
  · intro stage other
    show disk.files.lookup _ = if e.stage = stage then _ else _
    rw [lookup, h.cleared.lookup, if_pos (mem_errorPlaces other)]
    simp only [errorPlace_inj, eq_comm]
  · intro _ q away
    have elsewhere : q ≠ errorPlace D e.stage := by
      rintro rfl
      exact away (mem_errorPlaces known)
    show disk.files.lookup q = _
    rw [lookup, if_neg elsewhere, h.cleared.lookup, if_neg away]
  · exact h.cleared.rooted.write written

theorem leaves_compiled (h : Prepared D c w s d) {text : String} {result : Compilation}
    (found : d.read c.source = .ok text) (compiled : Compilation.ofSource text = .ok result) :
    Leaves lines D c w (.compiled result) := by
  have cause : Reason D c w (.compiled result) :=
    .compiled h.loaded ((h.cleared.read_iff h.rooted).mp found).2 compiled
  obtain ⟨disk, console, ended, rooted, lookup⟩ :=
    outcome_compiled h.calm h.cleared.rooted found compiled
  apply leaves_of_outcome cause (h.ended.trans ended) rfl
  · intro stage known
    have place := mem_errorPlaces (D := D) known
    have unlisted : lastText? (listings s (c.output.getD s.bytecodePath) text result)
        (errorPlace D stage) = none := by
      apply lastText?_none
      intro f listed same
      apply listings_apart f listed
      rwa [same, h.within]
    have other : errorPlace D stage ≠ Path.parts (c.output.getD s.bytecodePath) := by
      intro same
      exact h.apart (same ▸ place)
    show disk.files.lookup _ = none
    rw [lookup, unlisted, Option.none_or, if_neg other, h.cleared.lookup, if_pos place]
  · intro settled
    exact absurd rfl (settled result)
  · exact rooted

end Prepared

/-- One command ends in one of four ways. -/
theorem Fits.leaves {lines : Nat} {D : List String} {c : CompileCommand} {w : Workspace}
    (fit : c.Fits D w) (rooted : w.disk.Rooted) : ∃ ending, Leaves lines D c w ending := by
  rcases loading : outcome (loadSettings c.config) w with ⟨message | s, v⟩
  all_goals
    obtain rfl : w = v := by
      rw [outcome_loadSettings] at loading
      exact (Prod.mk.inj loading).2
  · exact ⟨_, leaves_refused rooted loading⟩
  · obtain ⟨d, prepared⟩ := fit.prepared rooted loading
    cases found : d.read c.source with
    | error reason => exact ⟨_, prepared.leaves_unreadable found⟩
    | ok text =>
      cases compiled : Compilation.ofSource text with
      | error e => exact ⟨_, prepared.leaves_failed found compiled⟩
      | ok result => exact ⟨_, prepared.leaves_compiled found compiled⟩

end CompileCommand

open CompileCommand

end FlatStack
