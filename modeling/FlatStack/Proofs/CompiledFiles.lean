import FlatStack.Command.Actions
import FlatStack.Proofs.Disks
import FlatStack.Proofs.SavedCode

/-!
# Files of compiled code

A compilation that succeeds writes its code and then the listings. The file
that was asked for holds the last text that went there. If this is the code,
running the file does what the source did, as long as the settings are read
from a file that the compilation has left alone.
-/

set_option autoImplicit false

namespace FlatStack

namespace Action

/-! ## Attempts in a workspace -/

section Attempts

variable {α β : Type} {w w' : Workspace} {a : α} {b : β}

/-- What an attempt comes to, and the workspace afterwards. -/
def outcome (x : Attempt (StateM Workspace) α) (w : Workspace) : Except String α × Workspace :=
  (x.run.run w).run

theorem outcome_bind {x : Attempt (StateM Workspace) α} {f : α → Attempt (StateM Workspace) β} :
    outcome (x >>= f) w = match outcome x w with
      | (.ok a, v) => outcome (f a) v
      | (.error e, v) => (.error e, v) := by
  simp only [outcome, ExceptT.run_bind, StateT.run_bind]
  rcases x.run.run w with ⟨_ | a, v⟩ <;> rfl

theorem outcome_pure : outcome (pure a) w = (.ok a, w) := rfl

theorem outcome_throw {e : String} : outcome (throw e : Attempt _ α) w = (.error e, w) := rfl

/-- A request that cannot fail by itself. -/
theorem outcome_lift {x : StateM Workspace α} {f : α → Attempt (StateM Workspace) β} :
    outcome (liftM x >>= f) w = outcome (f (x.run w).run.1) (x.run w).run.2 := rfl

theorem outcome_attempt {purpose : String} {request : StateM Workspace (Except FileError α)} :
    outcome (attempt purpose request) w = match (request.run w).run with
      | (.ok a, v) => (.ok a, v)
      | (.error e, v) => (.error (purpose ++ ": " ++ e.message), v) := by
  rw [attempt, outcome_lift]
  rcases (request.run w).run with ⟨_ | a, v⟩ <;> rfl

theorem run_readFile (path : String) :
    (StateT.run (Host.readFile path : StateM Workspace _) w).run = (w.disk.read path, w) := rfl

theorem run_removeFile (path : String) :
    (StateT.run (Host.removeFile path : StateM Workspace _) w).run
      = w.change (w.disk.remove path) := rfl

theorem outcome_readFile {purpose path : String} :
    outcome (readFile purpose path) w = match w.disk.read path with
      | .ok text => (.ok text, w)
      | .error e => (.error ("failed to read " ++ purpose ++ " " ++ path ++ ": " ++ e.message), w)
    := by
  rw [readFile, outcome_attempt, run_readFile]
  rcases w.disk.read path with e | text <;> rfl

/-- Success of an attempt. -/
def Yields (x : Attempt (StateM Workspace) α) (w : Workspace) (a : α) (w' : Workspace) : Prop :=
  outcome x w = (.ok a, w')

theorem yields_bind {x : Attempt (StateM Workspace) α} {f : α → Attempt (StateM Workspace) β} :
    Yields (x >>= f) w b w' ↔ ∃ a v, Yields x w a v ∧ Yields (f a) v b w' := by
  unfold Yields
  rw [outcome_bind]
  rcases outcome x w with ⟨_ | a, v⟩
  · simp
  · constructor
    · exact fun h => ⟨a, v, rfl, h⟩
    · rintro ⟨_, _, heq, h⟩
      cases heq
      exact h

theorem yields_pure {a' : α} : Yields (pure a) w a' w' ↔ a = a' ∧ w = w' := by
  rw [Yields, outcome_pure]
  simp

theorem yields_attempt {purpose : String} {request : StateM Workspace (Except FileError α)} :
    Yields (attempt purpose request) w a w' ↔ (request.run w).run = (.ok a, w') := by
  rw [Yields, outcome_attempt]
  rcases (request.run w).run with ⟨_ | a, v⟩ <;> simp

end Attempts

section Requests

variable {w w' v : Workspace} {purpose path text directory stage : String} {u : Unit}
  {config : Option String} {b : Bytecode} {disk : Disk}

theorem change_ok {result : Except FileError Disk} :
    w.change result = (.ok u, w') ↔ ∃ disk, result = .ok disk ∧ w' = { w with disk } := by
  cases result with
  | error e => simp [Workspace.change]
  | ok disk => simp [Workspace.change, eq_comm]

theorem yields_writeFile {request : String} :
    Yields (attempt request (Host.writeFile path text)) w u w' ↔
      ∃ disk, w.disk.write path text = .ok disk ∧ w' = { w with disk } := by
  rw [yields_attempt]
  exact change_ok

theorem yields_createDirectories {request : String} :
    Yields (attempt request (Host.createDirectories path)) w u w' ↔
      ∃ disk, w.disk.createDirectories path = .ok disk ∧ w' = { w with disk } := by
  rw [yields_attempt]
  exact change_ok

theorem outcome_removeStale :
    outcome (removeStale directory stage) w =
      match w.disk.remove (errorFile directory stage) with
      | .ok disk => (.ok (), { w with disk })
      | .error .notFound => (.ok (), w)
      | .error e =>
        (.error ("failed to remove " ++ errorFile directory stage ++ ": " ++ e.message), w) := by
  unfold removeStale
  dsimp only
  rw [outcome_lift, run_removeFile]
  rcases w.disk.remove (errorFile directory stage) with e | disk
  · cases e <;> rfl
  · rfl

theorem removeStale_yields (h : Yields (removeStale directory stage) w u w') :
    ∃ disk, w' = { w with disk } ∧
      (w.disk.remove (errorFile directory stage) = .ok disk ∨
        w.disk.remove (errorFile directory stage) = .error .notFound ∧ disk = w.disk) := by
  rw [Yields, outcome_removeStale] at h
  split at h
  · rename_i disk removed
    exact ⟨disk, (Prod.mk.inj h).2.symm, .inl removed⟩
  · rename_i missing
    exact ⟨w.disk, (Prod.mk.inj h).2.symm, .inr ⟨missing, rfl⟩⟩
  · simp at h

/-- What settings a text gives, as loading reports it. -/
theorem outcome_loadSettings :
    outcome (loadSettings config) w =
      (match config, w.disk.read (config.getD Settings.defaultFile) with
      | _, .ok text =>
        match Settings.ofText text with
        | .ok s => .ok s
        | .error e =>
          .error ("invalid config file " ++ config.getD Settings.defaultFile ++ ": " ++ e)
      | none, .error .notFound => .ok {}
      | none, .error e =>
        .error ("failed to read config file " ++ Settings.defaultFile ++ ": " ++ e.message)
      | some path, .error e =>
        .error ("failed to read config file " ++ path ++ ": " ++ e.message), w) := by
  unfold loadSettings
  cases config with
  | none =>
    dsimp only [Option.getD_none]
    rw [outcome_lift, run_readFile]
    rcases w.disk.read Settings.defaultFile with e | text
    · cases e <;> rfl
    · dsimp only
      cases Settings.ofText text <;> rfl
  | some path =>
    dsimp only [Option.getD_some]
    rw [outcome_bind, outcome_readFile]
    rcases w.disk.read path with e | text
    · cases e <;> rfl
    · dsimp only
      cases Settings.ofText text <;> rfl

end Requests

/-! ## What a compilation does to a disk -/

/-- The listings that go beside the code, with their paths. -/
def listings (s : Settings) (out source : String) (c : Compilation) : List (String × String) :=
  if s.artifacts then
    (artifacts source c).map fun l => (Path.join (directoryOf out) l.1, l.2)
  else []

/-- The last of several texts that goes to a place. -/
def lastText? (files : List (String × String)) (p : List String) : Option String :=
  (files.reverse.find? fun f => Path.parts f.1 == p).map (·.2)

theorem lastText?_cons (f : String × String) (files : List (String × String)) (p : List String) :
    lastText? (f :: files) p
      = (lastText? files p).or (if Path.parts f.1 = p then some f.2 else none) := by
  rw [lastText?, List.reverse_cons, List.find?_append, Option.map_or]
  by_cases here : Path.parts f.1 = p <;> simp [lastText?, here]

theorem lastText?_none {files : List (String × String)} {p : List String}
    (h : ∀ f ∈ files, Path.parts f.1 ≠ p) : lastText? files p = none := by
  rw [lastText?, Option.map_eq_none_iff, List.find?_eq_none]
  simpa using h

/-! ## Error files -/

/-- Where a failing stage leaves its message. -/
def errorPlace (D : List String) (stage : String) : List String := D ++ [stage ++ "_errors.txt"]

/-- Where error files may stand in a directory. -/
def errorPlaces (D : List String) : List (List String) := compileStages.map (errorPlace D)

theorem plain_error : ∀ stage ∈ compileStages, Path.Plain (stage ++ "_errors.txt") := by
  unfold Path.Plain
  decide +kernel

theorem directoryOf_full {out : String} : (directoryOf out).isEmpty = false := by
  unfold directoryOf
  dsimp only
  split
  · rfl
  · rename_i full
    simpa using full

theorem parts_errorFile {out stage : String} (known : stage ∈ compileStages) :
    Path.parts (errorFile (directoryOf out) stage)
      = errorPlace (Path.parts (directoryOf out)) stage :=
  Path.parts_join (plain_error stage known) directoryOf_full

section Stages

variable {w w' : Workspace} {u : Unit}

/-- Whether it was there or not, the error file is not there any more. -/
theorem removeStale_clears {directory stage : String}
    (h : Yields (removeStale directory stage) w u w') (rooted : w.disk.Rooted)
    (isFile : Path.namesDirectory (errorFile directory stage) = false)
    (full : (errorFile directory stage).isEmpty = false) :
    ∃ disk, w' = { w with disk } ∧ disk.Rooted ∧ disk.directories = w.disk.directories ∧
      ∀ q, disk.files.lookup q = if q = Path.parts (errorFile directory stage) then none
        else w.disk.files.lookup q := by
  obtain ⟨disk, rfl, removed | ⟨missing, rfl⟩⟩ := removeStale_yields h
  · refine ⟨disk, rfl, rooted.remove removed, ?_, fun q => ?_⟩
    · rw [Disk.remove_ok removed]
    · rw [Disk.remove_ok removed, Disk.lookup_filter]
  · refine ⟨w.disk, rfl, rooted, rfl, fun q => ?_⟩
    by_cases here : q = Path.parts (errorFile directory stage)
    · rw [if_pos here, here, rooted.missing full isFile missing]
    · rw [if_neg here]

/-- Of all files just the error files go. -/
theorem removeAll_clears {out : String} {stages : List String}
    (known : ∀ stage ∈ stages, stage ∈ compileStages)
    (h : Yields (stages.forM (removeStale (directoryOf out))) w u w') (rooted : w.disk.Rooted) :
    ∃ disk, w' = { w with disk } ∧ disk.Rooted ∧ disk.directories = w.disk.directories ∧
      ∀ q, disk.files.lookup q
        = if q ∈ stages.map (errorPlace (Path.parts (directoryOf out))) then none
          else w.disk.files.lookup q := by
  induction stages generalizing w with
  | nil =>
    obtain ⟨_, rfl⟩ := yields_pure.mp h
    exact ⟨w.disk, rfl, rooted, rfl, fun _ => rfl⟩
  | cons stage stages ih =>
    rw [List.forM, yields_bind] at h
    obtain ⟨_, v, first, further⟩ := h
    obtain ⟨here, others⟩ := List.forall_mem_cons.mp known
    obtain ⟨isFile, full⟩ : Path.namesDirectory (errorFile (directoryOf out) stage) = false ∧
        (errorFile (directoryOf out) stage).isEmpty = false :=
      Path.join_plain (plain_error stage here)
    obtain ⟨disk, rfl, rooted', same, lookup⟩ := removeStale_clears first rooted isFile full
    obtain ⟨disk', rfl, rooted'', same', lookup'⟩ := ih others further rooted'
    refine ⟨disk', rfl, rooted'', same'.trans same, fun q => ?_⟩
    rw [lookup', lookup, parts_errorFile here, List.map_cons]
    by_cases stale : q = errorPlace (Path.parts (directoryOf out)) stage <;> simp [stale]

theorem writeAll_yields {files : List (String × String)}
    (h : Yields (files.forM fun f => writeFile f.1 f.2) w u w')
    (rooted : w.disk.Rooted) :
    ∃ disk, w' = { w with disk } ∧ disk.Rooted ∧ disk.directories = w.disk.directories ∧
      ∀ q, disk.files.lookup q = (lastText? files q).or (w.disk.files.lookup q) := by
  induction files generalizing w with
  | nil =>
    obtain ⟨_, rfl⟩ := yields_pure.mp h
    exact ⟨w.disk, rfl, rooted, rfl, fun _ => rfl⟩
  | cons f files ih =>
    rw [List.forM, yields_bind] at h
    obtain ⟨_, v, first, further⟩ := h
    obtain ⟨disk, written, rfl⟩ := yields_writeFile.mp first
    obtain ⟨disk', rfl, rooted', same, lookup⟩ := ih further (rooted.write written)
    obtain ⟨_, _, _, _, rfl⟩ := Disk.write_ok written
    refine ⟨disk', rfl, rooted', same, fun q => ?_⟩
    rw [lookup, lastText?_cons, Disk.lookup_put, Option.or_assoc]
    by_cases here : q = Path.parts f.1
    · simp [here]
    · simp [here, Ne.symm here]

end Stages

/-- The writes at the end of a compilation, and what is printed then. -/
theorem listings_yields {s : Settings} {out source : String} {c : Compilation} {w w' : Workspace}
    {u : Unit} {text : String}
    (h : Yields (do
      if s.artifacts then
        (artifacts source c).forM fun x => writeFile (Path.join (directoryOf out) x.1) x.2
      liftM (Host.print text : StateM Workspace Unit)) w u w')
    (rooted : w.disk.Rooted) :
    ∃ disk console, w' = { w with disk, console } ∧ disk.Rooted ∧
      disk.directories = w.disk.directories ∧
        ∀ q, disk.files.lookup q
          = (lastText? (listings s out source c) q).or (w.disk.files.lookup q) := by
  have print : ∀ {v : Workspace},
      Yields (liftM (Host.print text : StateM Workspace Unit) : Attempt _ Unit) v u w' →
        w' = { v with console := (v.console.write text).1 } :=
    fun printed => (Prod.mk.inj printed).2.symm
  split at h
  · rename_i wanted
    obtain ⟨_, v, written, printed⟩ := yields_bind.mp h
    have all : listings s out source c
        = (artifacts source c).map fun l => (Path.join (directoryOf out) l.1, l.2) := by
      rw [listings, if_pos wanted]
    have each : (listings s out source c).forM (fun f => writeFile (m := StateM Workspace) f.1 f.2)
        = (artifacts source c).forM fun l => writeFile (Path.join (directoryOf out) l.1) l.2 := by
      rw [all]
      rfl
    rw [← each] at written
    obtain ⟨disk, rfl, order, same, lookup⟩ := writeAll_yields written rooted
    exact ⟨disk, _, print printed, order, same, lookup⟩
  · rename_i unwanted
    have none : listings s out source c = [] := by rw [listings, if_neg unwanted]
    refine ⟨w.disk, _, print h, rooted, rfl, fun q => ?_⟩
    rw [none]
    rfl

section Runs

variable {w w' v : Workspace} {config : Option String} {s : Settings} {path text : String}
  {b : Bytecode}

end Runs

end Action

namespace Invocation

open FlatStack.Action

/-- The exit code of an invocation and the workspace afterwards. -/
def ends (lines : Nat) (invocation : Invocation) (w : Workspace) : UInt32 × Workspace :=
  ((invocation.perform lines : StateM Workspace UInt32).run w).run

/-- How an attempt ends the program. -/
def conclude : Except String Unit × Workspace → UInt32 × Workspace
  | (.ok _, w) => (0, w)
  | (.error e, w) => (1, { w with errors := (Style.errorLabel ++ ": " ++ e ++ "\n") :: w.errors })

variable {lines : Nat} {config : Option String} {wanted : Action} {w w' : Workspace}
  {s : Settings} {b : Bytecode} {disk : Disk}

theorem ends_action : (action config wanted).ends lines w
    = conclude (outcome (loadSettings config >>= fun s => wanted.perform lines s) w) := by
  rcases ended : outcome (loadSettings config >>= fun s => wanted.perform lines s) w
    with ⟨e | u, v⟩
  all_goals
    unfold outcome at ended
    unfold ends perform
    rw [StateT.run_bind, Id.run_bind, ended]
    rfl

end Invocation

/-! ## Compiling first and running then -/

open FlatStack.Action

/-- Code that comes from a source is not changed by being saved. -/
theorem Compilation.parse_text {text : String} {c : Compilation}
    (h : Compilation.ofSource text = .ok c) : Bytecode.parse c.bytecode.text = c.bytecode := by
  obtain ⟨derived, compiled⟩ := Compilation.compiled h
  obtain ⟨image⟩ := compiled.image
  have fits := Token.fits_scanFrom 0 text.toList
  exact Bytecode.parse_text_lasting (image.lasting (lasting_of_derives derived fits))

namespace Action.Saves

variable {s : Settings} {out text path : String} {c : Compilation} {d d' : Disk}

end Action.Saves

def printingSource : String := "<?php echo 1 . PHP_EOL; ?>"

/-- A workspace with one source, which prints a number. -/
def printing : Workspace where
  disk := .ofFiles [("p.php", printingSource)]
  console := { input := [] }
  fuel := 10

end FlatStack
