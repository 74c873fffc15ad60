import FlatStack.Proofs.CallSimulation
import FlatStack.Proofs.Effects

/-!
# Code does what its program means

The run of the code of a program and the evaluation of the program write the
same output, read the same input and end the same way. Of a run without end
every part is matched by an evaluation, and the other way round.
-/

set_option autoImplicit false

namespace FlatStack

open Machine Evaluation Generator

variable {p : Program} {b : Bytecode} {n : Nat} {console : Console}

/-! ## Outcomes of runs -/

theorem runFrom_more {steps k j : Nat} {m m' : Machine} {o : Outcome}
    (h : runFrom b steps k m = (o, m')) (ended : o ≠ .unfinished) (hj : k ≤ j) :
    runFrom b steps j m = (o, m') := by
  induction k generalizing steps m j with
  | zero =>
    simp only [runFrom, Prod.mk.injEq] at h
    exact absurd h.1.symm ended
  | succ k ih =>
    obtain ⟨j, rfl⟩ : ∃ i, j = i + 1 := Nat.exists_eq_add_one.mpr (by omega)
    rcases next_cases b m with halted | ⟨live, past⟩ | ⟨f, next, faults⟩ | ⟨next, advances⟩
    · rwa [runFrom_halted halted] at h ⊢
    · rwa [runFrom_past live past] at h ⊢
    · rwa [runFrom_faults faults] at h ⊢
    · rw [runFrom_advances advances] at h ⊢
      exact ih h (by omega)

theorem run_unique {k j : Nat} {m m' : Machine} {o o' : Outcome} (h : run b k console = (o, m))
    (h' : run b j console = (o', m')) (ended : o ≠ .unfinished) (ended' : o' ≠ .unfinished) :
    o = o' ∧ m = m' := by
  have same : (o, m) = (o', m') := by
    rcases Nat.le_total k j with le | le
    · exact (runFrom_more h ended le).symm.trans h'
    · exact h.symm.trans (runFrom_more h' ended' le)
  exact Prod.mk.inj same

theorem run_unfinished_lt {k j : Nat} {m m' : Machine} {o : Outcome}
    (h : run b k console = (o, m)) (ended : o ≠ .unfinished)
    (h' : run b j console = (.unfinished, m')) : j < k := by
  by_contra le
  have more := runFrom_more h ended (by omega : k ≤ j)
  exact ended (Prod.mk.inj (more.symm.trans h')).1

/-- A longer run has written and read at least as much. -/
theorem extends_run {k j : Nat} {m m' : Machine} {o : Outcome}
    (h : run b k console = (.unfinished, m)) (h' : run b j console = (o, m')) (hj : k ≤ j) :
    m.console.Extends m'.console := by
  obtain ⟨i, rfl⟩ := Nat.exists_eq_add_of_le hj
  have further := runFrom_runs (run_unfinished.mp h) 0 i
  have whole : run b (k + i) console = runFrom b (0 + k) i m := further
  rw [whole] at h'
  have extended : m.console.Extends (runFrom b (0 + k) i m).2.console := extends_runFrom
  rwa [h'] at extended

/-! ## Evaluation and run side by side -/

open Program (Verdict)

/-- What an outcome says about the program; nothing if the code was left. -/
def Machine.Outcome.verdict? : Outcome → Option Verdict
  | .finished .halted _ => some .halted
  | .finished .endOfProgram _ => none
  | .faulted f => some (.faulted f.kind)
  | .unfinished => some .unfinished

/-- What a run of at most `k` steps comes to, and the console that it leaves. -/
def Bytecode.observed (b : Bytecode) (k : Nat) (console : Console) : Option (Verdict × Console) :=
  (run b k console).1.verdict?.map fun v => (v, (run b k console).2.console)

theorem observed_of_run {k : Nat} {o : Outcome} {m : Machine} {v : Verdict}
    (h : run b k console = (o, m)) (hv : o.verdict? = some v) :
    b.observed k console = some (v, m.console) := by
  simp [Bytecode.observed, h, hv]

theorem observed_unfinished {k : Nat} {c : Console} :
    b.observed k console = some (.unfinished, c) ↔
      ∃ m, run b k console = (.unfinished, m) ∧ m.console = c := by
  constructor
  · intro h
    unfold Bytecode.observed at h
    match ran : run b k console with
    | (.unfinished, m) => exact ⟨m, rfl, by simpa [ran, Outcome.verdict?] using h⟩
    | (.finished .halted _, m) | (.finished .endOfProgram _, m) | (.faulted _, m) =>
      simp [ran, Outcome.verdict?] at h
  · rintro ⟨m, h, rfl⟩
    exact observed_of_run h rfl

/-- The code of a program and its meaning agree on a console. -/
structure Program.Agrees (p : Program) (b : Bytecode) (console : Console) : Prop where
  /-- They end the same way, by the same output and input. -/
  ends : ∀ v, v.1 ≠ .unfinished →
    ((∃ n, p.evaluate n console = v) ↔ ∃ k, b.observed k console = some v)
  goesOn : (∀ n, (p.evaluate n console).1 = .unfinished) ↔
    ∀ k, (run b k console).1 = .unfinished
  /-- The code is never left at its end. -/
  within : ∀ k, (b.observed k console).isSome
  /-- The run gets as far as any evaluation. -/
  ahead : ∀ n c, p.evaluate n console = (.unfinished, c) →
    ∃ k ≥ n, b.observed k console = some (.unfinished, c)
  /-- Some evaluation gets as far as the run. -/
  behind : ∀ k c, b.observed k console = some (.unfinished, c) →
    ∃ n, c.Extends (p.evaluate n console).2

/-- A run comes to what an evaluation with `n` rounds does. It is long enough
if that is nothing yet. -/
def Matches (b : Bytecode) (console : Console) (n : Nat) (v : Verdict × Console) : Prop :=
  ∃ k, b.observed k console = some v ∧ (v.1 = .unfinished → n ≤ k)

/-- What a run ended with is what the evaluation with as many rounds comes to. -/
theorem Matches.of_ended {k : Nat} {o : Outcome} {m : Machine} {v : Verdict × Console}
    (h : Matches b console k v) (ran : run b k console = (o, m)) (ended : o ≠ .unfinished) :
    o.verdict? = some v.1 ∧ m.console = v.2 := by
  obtain ⟨j, seen, long⟩ := h
  by_cases going : (run b j console).1 = .unfinished
  · have seen' := observed_of_run (m := (run b j console).2) (Prod.ext going rfl) rfl
    obtain rfl : (Verdict.unfinished, (run b j console).2.console) = v :=
      Option.some.inj (seen'.symm.trans seen)
    have low := run_unfinished_lt ran ended
      (show run b j console = (.unfinished, (run b j console).2) from Prod.ext going rfl)
    exact absurd (long rfl) (by omega)
  · obtain ⟨rfl, rfl⟩ := run_unique ran (Prod.mk.eta).symm ended going
    unfold Bytecode.observed at seen
    obtain ⟨v', hv', rfl⟩ := Option.map_eq_some_iff.mp seen
    exact ⟨hv', rfl⟩

theorem Program.Agrees.of_matches
    (matched : ∀ n, Matches b console n (p.evaluate n console)) : p.Agrees b console where
  ends v live := by
    constructor
    · rintro ⟨n, rfl⟩
      obtain ⟨k, seen, _⟩ := matched n
      exact ⟨k, seen⟩
    · rintro ⟨k, seen⟩
      refine ⟨k, ?_⟩
      unfold Bytecode.observed at seen
      obtain ⟨v', hv', rfl⟩ := Option.map_eq_some_iff.mp seen
      have ended : (run b k console).1 ≠ .unfinished := by
        intro h
        rw [h] at hv'
        exact live (Option.some.inj hv').symm
      obtain ⟨same, hc⟩ := (matched k).of_ended (Prod.mk.eta).symm ended
      rw [same] at hv'
      exact Prod.ext (Option.some.inj hv') hc.symm
  goesOn := by
    constructor
    · intro h k
      by_contra ended
      obtain ⟨same, _⟩ := (matched k).of_ended (Prod.mk.eta).symm ended
      rw [h k] at same
      match ho : (run b k console).1 with
      | .unfinished => exact ended ho
      | .finished .halted _ | .finished .endOfProgram _ | .faulted _ =>
        simp [ho, Outcome.verdict?] at same
    · intro h n
      obtain ⟨k, seen, _⟩ := matched n
      have seen' := observed_of_run (m := (run b k console).2) (Prod.ext (h k) rfl) rfl
      exact congrArg Prod.fst (Option.some.inj (seen.symm.trans seen'))
  within k := by
    unfold Bytecode.observed
    rw [Option.isSome_map]
    by_cases ended : (run b k console).1 = .unfinished
    · rw [ended]
      rfl
    · rw [((matched k).of_ended (Prod.mk.eta).symm ended).1]
      rfl
  ahead n c h := by
    obtain ⟨k, seen, long⟩ := matched n
    rw [h] at seen long
    exact ⟨k, long rfl, seen⟩
  behind k c h := by
    obtain ⟨m, ran, rfl⟩ := observed_unfinished.mp h
    obtain ⟨j, seen, long⟩ := matched k
    refine ⟨k, ?_⟩
    have le : k ≤ j := by
      by_cases unfinished : (p.evaluate k console).1 = .unfinished
      · exact long unfinished
      · by_contra lt
        have ended : (run b j console).1 ≠ .unfinished := by
          intro h
          have seen' := observed_of_run (m := (run b j console).2) (Prod.ext h rfl) rfl
          exact unfinished (congrArg Prod.fst (Option.some.inj (seen.symm.trans seen')))
        have := run_unfinished_lt (Prod.mk.eta).symm ended ran
        omega
    unfold Bytecode.observed at seen
    obtain ⟨v', _, hv⟩ := Option.map_eq_some_iff.mp seen
    rw [← hv]
    exact extends_run ran (Prod.mk.eta).symm le

/-! ## The top level -/

/-- A function sees the variables before it only, so an initializer that calls
it leaves those behind itself alone. -/
theorem Accepted.apart {a : Analysis} (h : Accepted p a) (plain : p.Plain) (bound depth : Nat) :
    p.vars.Apart [] (p.call bound depth) := by
  intro earlier x e later hvars u hu y hy values
  obtain ⟨pre, post, hp, rfl, rfl⟩ := Declaration.vars_split hvars
  obtain ⟨r, hr, hname, _⟩ := h.initializer hp u hu
  obtain ⟨pre', ps, inner, ss, post', rfl, hsame⟩ := Declaration.routine_split hr
  have hp' : p.declarations = pre' ++ .function r.name ps inner ss
      :: (post' ++ .variable x (some e) :: post) := by
    rw [hp, List.append_assoc, List.cons_append]
  have hmem : r ∈ p.routines := by
    rw [Body.routines, hp, Declaration.routines_append]
    exact List.mem_append_left _ hr
  have found : p.routine? u.1 = some r := by
    rw [← hname]
    exact h.routine?_eq hmem
  have behind : y ∉ (Declaration.vars pre').names := by
    have distinct := h.names_nodup
    rw [hvars, Variables.names_append, Declaration.vars_append, Variables.names_append] at distinct
    intro early
    exact List.disjoint_of_nodup_append distinct (List.mem_append_left _ early)
      (List.mem_cons_of_mem x hy)
  have assigned : ∀ z ∈ Statement.assignedAll r.statements, z ∈ r.names ∨ z ≠ y := by
    intro z hz
    have hz' : z ∈ Statement.assignedAll ss := by rwa [hsame] at hz
    rcases (h.function hp').2.2.2 z hz' with own | early
    · left
      rw [hsame]
      exact own
    · right
      exact fun same => behind (same ▸ early)
  have kept := Program.keeps_call found (plain.silent r hmem) assigned bound depth values
  intro s a s' called
  simpa [Situation.read] using kept s a s' called

namespace Image

/-- The slots of the top level are made, and the functions are jumped over. -/
theorem runs_opening (im : Image p b) (plain : p.Plain) (small : b.size < 2 ^ 53) :
    ∃ k, Runs b k (Machine.start console)
      (p.setting.machine im.start (.initial console) []) := by
  obtain ⟨first, allocs, functions, _, last⟩ := image_holds im
  let g : Setting := ⟨[], [], []⟩
  have started : Advances b (Machine.start console) (g.machine 1 (.initial console) []) :=
    ⟨rfl, _, first, rfl⟩
  have top := plain.top
  have grown : Runs b p.vars.length (g.machine 1 (.initial console) [])
      (g.machine (1 + p.vars.length) (.initial console)
        ([] ++ List.replicate p.vars.length 0)) := by
    apply Setting.runs_allocations allocs
    simpa [g] using top
  have complete : g.machine (1 + p.vars.length) (.initial console)
        ([] ++ List.replicate p.vars.length 0)
      = p.setting.machine (1 + p.vars.length) (.initial console) [] := by
    simp [Setting.machine, Setting.frame, g, Program.setting, Situation.initial]
  rw [complete] at grown
  have opened := Runs.step started grown
  cases hq : im.pieces with
  | nil =>
    have here : im.start = 1 + p.vars.length := by
      rw [im.start_eq, hq]
      rfl
    rw [here]
    exact ⟨_, opened⟩
  | cons q qs =>
    rw [hq, List.map_cons, linked, List.flatMap_cons, List.cons_append] at functions
    have bound := im.size_eq
    have skips : Advances b
        (p.setting.machine (1 + p.vars.length) (.initial console) [])
        (p.setting.machine im.start (.initial console) []) :=
      Setting.advances_jump functions.fetch (.inl rfl) (address_ofNat im.start (by omega))
    exact ⟨_, opened.trans (.single skips)⟩

theorem simulates_program (im : Image p b) (plain : p.Plain) (small : b.size < 2 ^ 53) :
    Simulates b n (p.setting.machine im.start (.initial console) [])
      (fun _ s' => p.setting.machine (im.start + im.actions.length) s' [])
      (p.actions n (.initial console)) := by
  obtain ⟨_, _, _, holds, _⟩ := image_holds im
  exact simulates_actions (fits_top im plain) small im.emitted holds plain.initializers
    plain.statements (fun u hu => im.serves_top plain small hu) im.accepted.names_nodup
    (im.accepted.apart plain n n) fun _ _ => rfl

theorem matches_evaluate (im : Image p b) (plain : p.Plain) (small : b.size < 2 ^ 53) :
    Matches b console n (p.evaluate n console) := by
  obtain ⟨k, opened⟩ : ∃ k, Runs b k (Machine.start console)
      (p.setting.machine im.start (.initial console) []) := im.runs_opening plain small
  have simulated := Simulates.after opened (im.simulates_program (n := n) plain small)
  obtain ⟨_, _, _, _, halting⟩ := image_holds im
  unfold Program.evaluate
  match p.actions n (.initial console), simulated with
  | .ok _ s, ⟨j, runs⟩ =>
    have halts : Advances b (p.setting.machine (im.start + im.actions.length) s [])
        { p.setting.machine (im.start + im.actions.length) s [] with halted := true } :=
      ⟨rfl, _, halting, rfl⟩
    have whole := runs.trans (.single halts)
    refine ⟨j + 1 + 1, ?_, by simp⟩
    exact observed_of_run ((runFrom_runs whole 0 1).trans (runFrom_halted rfl _ 0)) rfl
  | .error (.fault kind) s, ⟨j, m', f, m'', runs, faults, hkind, hc⟩ =>
    refine ⟨j + 1, ?_, by simp⟩
    have seen := observed_of_run ((runFrom_runs runs 0 1).trans (runFrom_faults faults _ 0))
      (v := .faulted f.kind) rfl
    rw [seen, hkind, hc]
  | .error .unfinished s, ⟨j, m', long, runs, hc⟩ =>
    refine ⟨j, ?_, fun _ => by omega⟩
    have seen := observed_of_run (run_unfinished.mpr runs) rfl
    rw [seen, hc]

end Image

/-- The code of a program whose calls cannot disturb each other does what the
program means. Its addresses are exact, as those below `2 ^ 53` are. -/
theorem compilation_correct (compiled : Compiled p b) (plain : p.Plain)
    (small : b.size < 2 ^ 53) (console : Console) : p.Agrees b console := by
  obtain ⟨im⟩ := compiled.image
  exact .of_matches fun _ => im.matches_evaluate plain small

/-! ## A program with a function and a loop -/

def doubling : Program :=
  ⟨[.variable "x" (some (.number 3)),
    .function "show" ["a"] [.variable "b" (some (.binary .mul (.var "a") (.number 2)))]
      [.echo (.var "b"), .assign "x" (.binary .sub (.var "x") (.number 1))]],
    [.loop (.binary (.compare .gt) (.var "x") (.number 0)) [.call "show" [.var "x"]]]⟩

def doublingCode : Bytecode := doubling.code?.getD .empty

theorem compilation_correct_doubling :
    Compiled doubling doublingCode ∧ doubling.Plain ∧ doublingCode.size < 2 ^ 53 ∧
      doubling.Agrees doublingCode ⟨[], [], none⟩ := by
  have compiled : Compiled doubling doublingCode := compiled_iff.mpr (by decide +kernel)
  have size : doublingCode.size = 27 := by decide +kernel
  have small : doublingCode.size < 2 ^ 53 := by
    rw [size]
    norm_num
  have plain : doubling.Plain := by
    refine ⟨?_, ?_, ?_, ?_, ?_, ?_⟩
    · decide
    · intro x e mem
      simp only [doubling, Body.vars, Declaration.vars, List.mem_singleton, Prod.mk.injEq,
        Option.some.injEq] at mem
      obtain ⟨_, rfl⟩ := mem
      exact trivial
    · exact ⟨⟨⟨trivial, rfl⟩, trivial, trivial⟩, trivial⟩
    · decide
    · decide
    · decide
  exact ⟨compiled, plain, small, compilation_correct compiled plain small _⟩

end FlatStack
