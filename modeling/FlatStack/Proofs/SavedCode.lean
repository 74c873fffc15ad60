import FlatStack.Pipeline
import FlatStack.Proofs.CodeText
import FlatStack.Proofs.Drawn
import FlatStack.Proofs.Image
import FlatStack.Proofs.ParserExactness
import FlatStack.Proofs.PlainNumbers

/-!
# Saved code

All that is put into an instruction comes back from its text: addresses and
counts, numerals of any length, and the names that comment jumps and readings.
So compiled code that was saved is the same code, and its runs are the same.
-/

set_option autoImplicit false

namespace FlatStack

/-! ## Names and numbers of a source text -/

/-- A name, which holds no blank. -/
structure Named (name : String) : Prop where
  full : name ≠ ""
  solid : Text.Solid name.toList

namespace Token

def Kind.Fits : Kind → Prop
  | .number x => Decimal.Plain x
  | .variable name | .identifier name => Named name
  | _ => True

variable {c : Char} {cs : List Char}

/-- A name goes on for as long as the characters belong to names. -/
theorem named_word (h : Text.isBlank c = false) (cs : List Char) :
    Named (String.ofList (c :: cs.takeWhile isNamePart)) := by
  constructor
  · rw [ne_eq, ← String.toList_eq_nil_iff, String.toList_ofList]
    exact List.cons_ne_nil _ _
  · rw [String.toList_ofList]
    intro d hd
    rcases List.mem_cons.mp hd with rfl | later
    · exact h
    · exact namePart_not_blank (List.mem_takeWhile_imp later)

theorem fits_wordKind {word : String} (h : Named word) : (wordKind word).Fits := by
  unfold wordKind
  split
  · trivial
  · exact h

theorem fits_numeral (h : c.isDigit) (cs : List Char) :
    Decimal.Plain ((Decimal.read? (numeral c cs)).getD 0) := by
  have reads : Decimal.read? (numeral c cs) = Decimal.readDigits? (numeral c cs) :=
    Decimal.read_digits h
  rw [reads]
  cases found : Decimal.readDigits? (numeral c cs) with
  | none => exact Decimal.plain_zero
  | some x => exact Decimal.plain_readDigits found

/-- Only names and numbers carry anything with them. -/
theorem fits_lexeme (c : Char) (cs : List Char) : (lexeme c cs).1.Fits := by
  unfold lexeme orEqual pair
  split <;> (try split) <;> (try split) <;> (try trivial)
  · exact named_word rfl _
  · rename_i digit
    exact fits_numeral digit cs
  · rename_i start
    exact fits_wordKind (named_word (namePart_not_blank (nameStart_part start)) cs)

theorem fits_scanFrom (offset : Nat) (cs : List Char) :
    Grammar.AllKinds Kind.Fits (scanFrom offset cs) :=
  Grammar.allKinds_scanFrom trivial fits_lexeme offset cs

end Token

/-! ## Programs of such tokens -/

/-- The numbers are plain. Arguments have none in code. -/
def Expr.Lasting : Expr → Prop
  | .number n => Decimal.Plain n
  | .var _ | .read | .call .. => True
  | .unary _ e => e.Lasting
  | .binary _ l r => l.Lasting ∧ r.Lasting

mutual

def Statement.Lasting : Statement → Prop
  | .echo e => e.Lasting
  | .assign x e => Named x ∧ e.Lasting
  | .ifThen e body | .loop e body => e.Lasting ∧ Statement.LastingAll body
  | .ifElse e body otherwise =>
    e.Lasting ∧ Statement.LastingAll body ∧ Statement.LastingAll otherwise
  | .call .. => True

def Statement.LastingAll : List Statement → Prop
  | [] => True
  | s :: ss => s.Lasting ∧ Statement.LastingAll ss

end

theorem Statement.lastingAll_of {ss : List Statement} (h : ∀ s ∈ ss, s.Lasting) :
    LastingAll ss := by
  induction ss with
  | nil => trivial
  | cons s ss ih =>
    rw [List.forall_mem_cons] at h
    exact ⟨h.1, ih h.2⟩

def Variables.Lasting (vars : Variables) : Prop :=
  ∀ v ∈ vars, Named v.1 ∧ ∀ e ∈ v.2, e.Lasting

/-- A program whose code lasts. -/
structure Body.Lasting (p : Program) : Prop where
  vars : p.vars.Lasting
  statements : Statement.LastingAll p.statements
  routines : ∀ r ∈ p.routines, Named r.name ∧ r.vars.Lasting ∧ Statement.LastingAll r.statements

theorem closed_lasting :
    Grammar.Closed Token.Kind.Fits Expr.Lasting Expr.Lasting Statement.Lasting where
  var _ := trivial
  number h := h
  call _ _ := trivial
  read := trivial
  neg h := h
  product _ hl hr := ⟨hl, hr⟩
  sum _ hl hr := ⟨hl, hr⟩
  plain h := h
  compare hl hr := ⟨hl, hr⟩
  not h := h
  both hl hr := ⟨hl, hr⟩
  either hl hr := ⟨hl, hr⟩
  groupProduct _ hl hr := ⟨hl, hr⟩
  groupSum _ hl hr := ⟨hl, hr⟩
  echo h := h
  assign hx he := ⟨hx, he⟩
  ifThen hc hs := ⟨hc, Statement.lastingAll_of hs⟩
  ifElse hc hs ho := ⟨hc, Statement.lastingAll_of hs, Statement.lastingAll_of ho⟩
  loop hc hs := ⟨hc, Statement.lastingAll_of hs⟩
  routine _ _ := trivial
  sigil _ _ := trivial

section Declarations

variable {ds : List Declaration}

theorem lasting_vars
    (h : ∀ d ∈ ds, Grammar.Drawn Token.Kind.Fits Expr.Lasting Statement.Lasting d) :
    (Declaration.vars ds).Lasting := by
  induction ds with
  | nil => simp [Variables.Lasting, Declaration.vars]
  | cons d ds ih =>
    obtain ⟨first, others⟩ := List.forall_mem_cons.mp h
    cases d with
    | «variable» x e => exact List.forall_mem_cons.mpr ⟨first, ih others⟩
    | function => exact ih others

theorem lasting_routines
    (h : ∀ d ∈ ds, Grammar.Drawn Token.Kind.Fits Expr.Lasting Statement.Lasting d) :
    ∀ r ∈ Declaration.routines ds,
      Named r.name ∧ r.vars.Lasting ∧ Statement.LastingAll r.statements := by
  induction ds with
  | nil => simp [Declaration.routines]
  | cons d ds ih =>
    obtain ⟨first, others⟩ := List.forall_mem_cons.mp h
    cases d with
    | «variable» x e => exact ih others
    | function f ps inner ss =>
      obtain ⟨named, -, declarations, statements⟩ := first
      have vars : (Declaration.vars inner).Lasting := by
        refine lasting_vars fun d hd => ?_
        have drawn := declarations d hd
        cases d with
        | «variable» => exact drawn
        | function => exact drawn.elim
      exact List.forall_mem_cons.mpr
        ⟨⟨named, vars, Statement.lastingAll_of statements⟩, ih others⟩

end Declarations

/-- The names and numbers of a program are those of its tokens. -/
theorem lasting_of_derives {ts : List Token} {p : Program} (h : Grammar.Derives ts p)
    (fits : Grammar.AllKinds Token.Kind.Fits ts) : p.Lasting := by
  obtain ⟨declarations, statements⟩ := Grammar.derives_draws closed_lasting h fits
  exact ⟨lasting_vars declarations, Statement.lastingAll_of statements,
    lasting_routines declarations⟩

/-! ## Their code -/

namespace Instruction

/-- An instruction that comes back from its text as it was. -/
def Lasting (i : Instruction) : Prop := i.Writable ∧ ∀ x ∈ i.operand, Decimal.Plain x

theorem Lasting.unsigned_eq {i : Instruction} (h : i.Lasting) : i.unsigned = i := by
  obtain ⟨o, x, c⟩ := i
  cases x with
  | none => rfl
  | some x => simp [unsigned, (h.2 x rfl).2]

theorem lasting {i : Instruction} (known : i.opcode.isUnknown = false)
    (operand : ∀ x ∈ i.operand, Decimal.Plain x)
    (comment : ∀ c ∈ i.comment, c ≠ "" ∧ Text.trim c.toList = c.toList ∧ '\n' ∉ c.toList) :
    i.Lasting := by
  have words : Opcode.known.all
      (fun o => o.mnemonic.toList.all (fun c => !Text.isBlank c) && o.mnemonic != "") := by
    decide
  have word := List.all_eq_true.mp words _ (Opcode.mem_known known)
  rw [Bool.and_eq_true, List.all_eq_true] at word
  refine ⟨⟨fun c hc => by simpa using word.1 c hc, by simpa using word.2, ?_, comment⟩, operand⟩
  intro m unknown
  rw [unknown] at known
  cases known

theorem lasting_bare {o : Opcode} (h : o.isUnknown = false) : (bare o).Lasting :=
  lasting h (by simp [bare]) (by simp [bare])

theorem lasting_withNat {o : Opcode} (h : o.isUnknown = false) (n : Nat) :
    (withNat o n).Lasting :=
  lasting h (by simpa [withNat, withNumber] using Decimal.plain_ofNat n)
    (by simp [withNat, withNumber])

/-- Words with a single blank between them make a comment. -/
theorem lasting_commented {i : Instruction} {text : String} (h : i.Lasting)
    (known : i.opcode.isUnknown = false) (full : text ≠ "") (trimmed : Text.Trimmed text.toList)
    (free : '\n' ∉ text.toList) : (i.commented text).Lasting :=
  lasting known h.2 (by simpa [commented] using ⟨full, trimmed.eq, free⟩)

end Instruction

namespace Context

variable {c : Context} {base : Nat} {code : List Instruction}

theorem lasting_call {f : String} {es : List Expr} (h : c.callCode base f es = .ok code) :
    ∀ i ∈ code, i.Lasting := by
  obtain ⟨parameters, hp, rfl⟩ := callCode_ok.mp h
  obtain ⟨names, slots, -, -, rfl⟩ := parameterCode_ok.mp hp
  simp only [List.forall_mem_append, List.forall_mem_cons, List.forall_mem_map]
  refine ⟨⟨Instruction.lasting_withNat rfl _, fun n _ => Instruction.lasting_withNat rfl n⟩,
    Instruction.lasting_withNat rfl _, by simp⟩

theorem lasting_expr : ∀ (e : Expr) {base : Nat} {code : List Instruction},
    e.Lasting → c.exprCode base e = .ok code → ∀ i ∈ code, i.Lasting
  | .number n, base, code, plain, h => by
    obtain rfl := (Emission.pure_ok _ _).mp h
    have number : Decimal.Plain n := plain
    exact List.forall_mem_singleton.mpr (Instruction.lasting rfl
      (by simpa [Instruction.withNumber] using number) (by simp [Instruction.withNumber]))
  | .read, base, code, plain, h => by
    obtain rfl := (Emission.pure_ok _ _).mp h
    exact List.forall_mem_singleton.mpr (Instruction.lasting_bare rfl)
  | .var x, base, code, plain, h => by
    obtain ⟨slot, _, rfl⟩ := exprCode_var.mp h
    exact List.forall_mem_singleton.mpr (Instruction.lasting_withNat rfl slot)
  | .unary op e, base, code, plain, h => by
    obtain ⟨operand, ho, rfl⟩ := exprCode_unary.mp h
    rw [List.forall_mem_append, List.forall_mem_singleton]
    exact ⟨lasting_expr e plain ho, Instruction.lasting_bare rfl⟩
  | .binary op l r, base, code, plain, h => by
    obtain ⟨left, hl, right, hr, rfl⟩ := exprCode_binary.mp h
    rw [List.forall_mem_append, List.forall_mem_append, List.forall_mem_singleton]
    exact ⟨⟨lasting_expr l plain.1 hl, lasting_expr r plain.2 hr⟩, Instruction.lasting_bare rfl⟩
  | .call f es, base, code, _, h => by
    obtain ⟨call, hc, rfl⟩ := exprCode_call.mp h
    rw [List.forall_mem_append, List.forall_mem_singleton]
    exact ⟨lasting_call hc, Instruction.lasting_withNat rfl 0⟩

/-- A reading instruction is commented with the variable's name. -/
theorem lasting_assignment {x : String} {e : Expr} (named : Named x) (plain : e.Lasting)
    (h : c.assignmentCode base x e = .ok code) : ∀ i ∈ code, i.Lasting := by
  obtain ⟨value, hv, slot, _, rfl⟩ := assignmentCode_ok.mp h
  rw [List.forall_mem_append, List.forall_mem_singleton]
  refine ⟨?_, Instruction.lasting_withNat rfl slot⟩
  by_cases hr : e = .read
  · subst hr
    rw [valueCode_read, Except.ok.injEq] at hv
    rw [← hv, List.forall_mem_singleton]
    exact Instruction.lasting_commented (Instruction.lasting_bare rfl) rfl named.full
      named.solid.trimmed named.solid.free
  · rw [valueCode_other hr] at hv
    exact lasting_expr e plain hv

mutual

theorem lasting_statement : ∀ (t : Statement) {base : Nat} {code : List Instruction},
    t.Lasting → c.statementCode base t = .ok code → ∀ i ∈ code, i.Lasting
  | .echo e, base, code, plain, h => by
    obtain ⟨value, hv, rfl⟩ := statementCode_echo.mp h
    rw [List.forall_mem_append, List.forall_mem_singleton]
    exact ⟨lasting_expr e plain hv, Instruction.lasting_bare rfl⟩
  | .assign x e, base, code, plain, h => by
    rw [statementCode] at h
    exact lasting_assignment plain.1 plain.2 h
  | .ifThen e body, base, code, plain, h => by
    obtain ⟨condition, hc, inner, hi, rfl⟩ := statementCode_ifThen.mp h
    rw [List.forall_mem_append, List.forall_mem_cons]
    exact ⟨lasting_expr e plain.1 hc, Instruction.lasting_withNat rfl _,
      lasting_statements body plain.2 hi⟩
  | .ifElse e body otherwise, base, code, plain, h => by
    obtain ⟨condition, hc, inner, hi, other, ho, rfl⟩ := statementCode_ifElse.mp h
    rw [List.forall_mem_append, List.forall_mem_append, List.forall_mem_cons, List.forall_mem_cons]
    exact ⟨⟨lasting_expr e plain.1 hc, Instruction.lasting_withNat rfl _,
      lasting_statements body plain.2.1 hi⟩, Instruction.lasting_withNat rfl _,
      lasting_statements otherwise plain.2.2 ho⟩
  | .loop e body, base, code, plain, h => by
    obtain ⟨condition, hc, inner, hi, rfl⟩ := statementCode_loop.mp h
    rw [List.forall_mem_append, List.forall_mem_append, List.forall_mem_cons,
      List.forall_mem_singleton]
    exact ⟨⟨lasting_expr e plain.1 hc, Instruction.lasting_withNat rfl _,
      lasting_statements body plain.2 hi⟩, Instruction.lasting_withNat rfl _⟩
  | .call f es, base, code, _, h => by
    rw [statementCode] at h
    exact lasting_call h

theorem lasting_statements : ∀ (ts : List Statement) {base : Nat} {code : List Instruction},
    Statement.LastingAll ts → c.statementsCode base ts = .ok code → ∀ i ∈ code, i.Lasting
  | [], base, code, _, h => by
    obtain rfl := (Emission.pure_ok _ _).mp h
    simp
  | t :: ts, base, code, plain, h => by
    obtain ⟨first, hf, others, ho, rfl⟩ := statementsCode_cons.mp h
    rw [List.forall_mem_append]
    exact ⟨lasting_statement t plain.1 hf, lasting_statements ts plain.2 ho⟩

end

theorem lasting_initializers {vars : Variables} (plain : vars.Lasting)
    (h : c.initializersCode base vars = .ok code) : ∀ i ∈ code, i.Lasting := by
  induction vars generalizing base code with
  | nil =>
    obtain rfl := (Emission.pure_ok _ _).mp h
    simp
  | cons v vars ih =>
    obtain ⟨x, e⟩ := v
    obtain ⟨first, others⟩ := List.forall_mem_cons.mp plain
    cases e with
    | none =>
      rw [initializersCode_none] at h
      exact ih others h
    | some e =>
      by_cases zero : isZero e
      · rw [initializersCode_zero zero] at h
        exact ih others h
      · obtain ⟨code, hf, later, ho, rfl⟩ := (initializersCode_some zero).mp h
        rw [List.forall_mem_append]
        exact ⟨lasting_assignment first.1 (first.2 e rfl) hf, ih others ho⟩

theorem lasting_actions {vars : Variables} {ss : List Statement} (plain : vars.Lasting)
    (plain' : Statement.LastingAll ss) (h : c.actionCode base vars ss = .ok code) :
    ∀ i ∈ code, i.Lasting := by
  obtain ⟨first, hf, others, ho, rfl⟩ := actionCode_ok.mp h
  rw [List.forall_mem_append]
  exact ⟨lasting_initializers plain hf, lasting_statements ss plain' ho⟩

end Context

/-! ## Whole programs -/

section Images

open Generator

variable {p : Program} {b : Bytecode}

theorem lasting_allocations (vars : Variables) : ∀ i ∈ allocations vars, i.Lasting := by
  rw [allocations, List.forall_mem_map]
  exact fun _ _ => Instruction.lasting_withNat rfl 1

theorem lasting_skip (target : Nat) {name : String} (named : Named name) :
    (skip target name).Lasting := by
  have full : name.toList ≠ [] := fun none => named.full (String.toList_eq_nil_iff.mp none)
  have chars : ("funcao " ++ name).toList = "funcao ".toList ++ name.toList :=
    String.toList_append
  refine Instruction.lasting_commented (Instruction.lasting_withNat rfl target) rfl ?_ ?_ ?_
  · rw [ne_eq, ← String.toList_eq_nil_iff, chars]
    simp
  · rw [chars]
    constructor
    · intro c hc
      cases hc
      rfl
    · rw [List.getLast?_append_of_ne_nil _ full]
      exact named.solid.trimmed.last
  · rw [chars, List.mem_append]
    exact fun newline => newline.elim (by decide) named.solid.free

theorem lasting_epilogue (slots : Nat) : ∀ i ∈ Plan.epilogue slots, i.Lasting := by
  rw [Plan.epilogue, List.forall_mem_append, List.forall_mem_singleton]
  refine ⟨?_, Instruction.lasting_bare rfl⟩
  split
  · simp
  · exact List.forall_mem_singleton.mpr (Instruction.lasting_withNat rfl slots)

theorem Image.lasting (im : Image p b) (plain : p.Lasting) : ∀ i ∈ b.instructions, i.Lasting := by
  have functions : ∀ i ∈ linked im.start (im.pieces.map Piece.block), i.Lasting := by
    intro i hi
    obtain ⟨k, hk, hi⟩ := List.mem_flatMap.mp hi
    obtain ⟨q, hq, rfl⟩ := List.mem_map.mp hk
    obtain ⟨named, vars, statements⟩ := plain.routines _ (im.routine_mem hq)
    have body := Context.lasting_actions vars statements (im.laid.emitted hq)
    rcases List.mem_cons.mp hi with rfl | hi
    · exact lasting_skip _ named
    · rw [Piece.block, Piece.code, List.mem_append, List.mem_append] at hi
      rcases hi with (allocation | action) | last
      · exact lasting_allocations _ i allocation
      · exact body i action
      · exact lasting_epilogue _ i last
  have actions := Context.lasting_actions plain.vars plain.statements im.emitted
  have whole : ∀ i ∈ Instruction.bare .start :: (allocations p.vars
      ++ linked im.start (im.pieces.map Piece.block) ++ im.actions) ++ [Instruction.bare .halt],
      i.Lasting := by
    simp only [List.forall_mem_append, List.forall_mem_cons]
    exact ⟨⟨Instruction.lasting_bare rfl, ⟨lasting_allocations _, functions⟩, actions⟩,
      Instruction.lasting_bare rfl, by simp⟩
  intro i hi
  rw [im.code, Bytecode.ofList, List.mem_toArray] at hi
  exact whole i hi

end Images

/-! ## Saving -/

/-- A stage that succeeds hands its result on. -/
theorem Error.stage_ok {α β ε : Type} {x : Except ε α} {f : ε → Error} {g : α → Except Error β}
    {b : β} : x.mapError f >>= g = .ok b ↔ ∃ a, x = .ok a ∧ g a = .ok b := by
  rw [Emission.bind_ok]
  cases x <;> simp [Except.mapError]

/-- A failure is that of the stage, or it comes later. -/
theorem Error.stage_failed {α β ε : Type} {x : Except ε α} {f : ε → Error}
    {g : α → Except Error β} {e : Error} : x.mapError f >>= g = .error e ↔
      (∃ cause, x = .error cause ∧ f cause = e) ∨ ∃ a, x = .ok a ∧ g a = .error e := by
  cases x with
  | error cause =>
    show Except.error (f cause) = Except.error e ↔ _
    simp
  | ok a =>
    show g a = Except.error e ↔ _
    simp

/-- What a compilation has compiled, and from which tokens. -/
theorem Compilation.compiled {source : String} {c : Compilation} (h : ofSource source = .ok c) :
    Grammar.Derives (Token.scan source) c.program ∧ Compiled c.program c.bytecode := by
  obtain ⟨tokens, scanned, h⟩ := Error.stage_ok.mp h
  obtain ⟨program, parsed, h⟩ := Error.stage_ok.mp h
  obtain ⟨analysis, analyzed, h⟩ := Error.stage_ok.mp h
  obtain ⟨bytecode, generated, h⟩ := Error.stage_ok.mp h
  cases h
  refine ⟨?_, analysis, analyzed, generated⟩
  have all : tokens = Token.scan source := by
    unfold Token.scanAll at scanned
    dsimp only at scanned
    split at scanned
    · cases scanned
    · exact (Except.ok.inj scanned).symm
  unfold Program.ofTokens at parsed
  split at parsed
  · rename_i found
    rw [← Except.ok.inj parsed]
    exact Parser.program_sound (Token.ended_scan source) (all ▸ found)
  · cases parsed

theorem Bytecode.parse_text_lasting {b : Bytecode} (h : ∀ i ∈ b.instructions, i.Lasting) :
    parse b.text = b := by
  rw [parse_text fun i hi => (h i hi).1]
  have same (i : Instruction) (hi : i ∈ b.instructions.toList) : i.unsigned = i :=
    (h i (Array.mem_toList_iff.mp hi)).unsigned_eq
  rw [List.map_congr_left same, List.map_id']
  rfl

/-- Saved code is the same code again, and so it runs the same. -/
theorem saved_code_unchanged {source : String} {c : Compilation}
    (h : Compilation.ofSource source = .ok c) :
    Bytecode.parse c.bytecode.text = c.bytecode
      ∧ (Bytecode.parse c.bytecode.text).agrees c.bytecode = true
      ∧ ∀ fuel console, Machine.run (Bytecode.parse c.bytecode.text) fuel console
        = Machine.run c.bytecode fuel console := by
  obtain ⟨derived, compiled⟩ := Compilation.compiled h
  obtain ⟨image⟩ := compiled.image
  have lasting := image.lasting (lasting_of_derives derived (Token.fits_scanFrom 0 source.toList))
  have agrees : (Bytecode.parse c.bytecode.text).agrees c.bytecode = true := by
    rw [Bytecode.parse_text fun i hi => (lasting i hi).1]
    exact Bytecode.agrees_unsigned fun i hi x hx => ((lasting i hi).2 x hx).1
  have same := Bytecode.parse_text_lasting lasting
  exact ⟨same, agrees, fun _ _ => by rw [same]⟩

def sumSource : String :=
  "<?php $p = floatval(readline()); $q = 2.5;
   function soma($a, $b) \x7b $r = $a + $b; echo $r . PHP_EOL; \x7d
   soma($p, $q); ?>"

theorem saved_code_unchanged_sum :
    ∃ c, Compilation.ofSource sumSource = .ok c ∧ Bytecode.parse c.bytecode.text = c.bytecode
      ∧ (Bytecode.parse c.bytecode.text).agrees c.bytecode = true
      ∧ ∀ fuel console, Machine.run (Bytecode.parse c.bytecode.text) fuel console
        = Machine.run c.bytecode fuel console := by
  have accepted : (Compilation.ofSource sumSource).toOption.isSome = true := by decide +kernel
  cases h : Compilation.ofSource sumSource with
  | error e =>
    rw [h] at accepted
    cases accepted
  | ok c => exact ⟨c, rfl, saved_code_unchanged h⟩

end FlatStack
