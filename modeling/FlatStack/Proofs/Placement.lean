import FlatStack.Proofs.StackDiscipline

/-!
# Where names lie

Only loads, stores and passed parameters name a slot. The code of a routine has
one such instruction for each use of a variable, in the order of the uses. In
most functions the own names lie above the top level, one slot for each. But a
scope is told to be the outermost one by its name: a function of that name has
its own names at the bottom, on top of the variables there.
-/

set_option autoImplicit false

namespace FlatStack

open Generator

/-! ## Accesses -/

/-- A use of a slot: the opcode that makes it, and whose slot it is. -/
structure Access where
  opcode : Opcode
  name : String

namespace Instruction

/-- The operand is a slot. -/
def isAccess (i : Instruction) : Bool :=
  match i.opcode with
  | .store | .load | .pushParameter => true
  | _ => false

end Instruction

namespace Expr

/-- The variables among arguments. -/
def passed : List Expr → List Access
  | [] => []
  | .var x :: es => ⟨.pushParameter, x⟩ :: passed es
  | _ :: es => passed es

def accesses : Expr → List Access
  | .number _ | .read => []
  | .var x => [⟨.load, x⟩]
  | .unary _ e => e.accesses
  | .binary _ l r => l.accesses ++ r.accesses
  | .call _ arguments => passed arguments

end Expr

namespace Statement

mutual

def accesses : Statement → List Access
  | .echo e => e.accesses
  | .assign x e => e.accesses ++ [⟨.store, x⟩]
  | .ifThen c body | .loop c body => c.accesses ++ accessesAll body
  | .ifElse c body otherwise => c.accesses ++ accessesAll body ++ accessesAll otherwise
  | .call _ arguments => Expr.passed arguments

def accessesAll : List Statement → List Access
  | [] => []
  | s :: ss => s.accesses ++ accessesAll ss

end

end Statement

/-- Initializers that leave the slot as it is do not use it. -/
def Variables.accesses : Variables → List Access
  | [] => []
  | (_, none) :: vs => Variables.accesses vs
  | (x, some e) :: vs =>
    (if Context.isZero e then [] else e.accesses ++ [⟨.store, x⟩]) ++ Variables.accesses vs

def Routine.accesses (q : Routine) : List Access :=
  q.vars.accesses ++ Statement.accessesAll q.statements

/-- The accesses outside functions. -/
def Body.accesses (p : Body) : List Access :=
  p.vars.accesses ++ Statement.accessesAll p.statements

/-! ## Accesses in code -/

/-- The instructions with slots are these accesses. -/
def Visits (slot? : String → Option Nat) (code : List Instruction) (as : List Access) : Prop :=
  List.Forall₂ (fun i a => ∃ n, slot? a.name = some n ∧ i = .withNat a.opcode n)
    (code.filter Instruction.isAccess) as

section Visits

variable {slot? : String → Option Nat} {code code' : List Instruction} {as as' : List Access}
  {i : Instruction}

theorem visits_nil : Visits slot? [] [] := .nil

theorem Visits.append (h : Visits slot? code as) (h' : Visits slot? code' as') :
    Visits slot? (code ++ code') (as ++ as') := by
  unfold Visits
  rw [List.filter_append]
  exact List.rel_append h h'

theorem Visits.cons_other (h : Visits slot? code as) (hi : i.isAccess = false) :
    Visits slot? (i :: code) as := by
  unfold Visits
  rw [List.filter_cons_of_neg (by simp [hi])]
  exact h

theorem Visits.snoc_other (h : Visits slot? code as) (hi : i.isAccess = false) :
    Visits slot? (code ++ [i]) as := by
  rw [← List.append_nil as]
  exact h.append (visits_nil.cons_other hi)

theorem visits_one {n : Nat} {a : Access} (h : slot? a.name = some n)
    (ha : (Instruction.withNat a.opcode n).isAccess = true) :
    Visits slot? [.withNat a.opcode n] [a] := by
  unfold Visits
  rw [List.filter_cons_of_pos ha]
  exact .cons ⟨n, h, rfl⟩ .nil

/-- Every accessed name has a slot, and the slots are the operands. -/
theorem Visits.operands (h : Visits slot? code as) : (∀ a ∈ as, ∃ n, slot? a.name = some n) ∧
    code.filter Instruction.isAccess
      = as.map fun a => .withNat a.opcode ((slot? a.name).getD 0) := by
  unfold Visits at h
  generalize code.filter Instruction.isAccess = is at h
  induction h with
  | nil => simp
  | cons first _ ih =>
    obtain ⟨n, hn, rfl⟩ := first
    refine ⟨List.forall_mem_cons.mpr ⟨⟨n, hn⟩, ih.1⟩, ?_⟩
    rw [List.map_cons, ← ih.2, hn, Option.getD_some]

end Visits

namespace Context

variable {c : Context} {base : Nat} {code : List Instruction}

/-- The slots that a context finds for names. -/
def place? (c : Context) (x : String) : Option Nat := c.scope.slot? c.globals x

theorem visits_parameters {callee : String} {arguments : List Expr}
    (h : c.parameterCode callee arguments = .ok code) :
    Visits c.place? code (Expr.passed arguments) := by
  obtain ⟨names, slots, rfl, hns, rfl⟩ := parameterCode_ok.mp h
  clear h
  induction hns with
  | nil => exact visits_nil
  | cons hs _ ih => exact (visits_one (a := ⟨.pushParameter, _⟩) hs rfl).append ih

theorem visits_call {callee : String} {arguments : List Expr}
    (h : c.callCode base callee arguments = .ok code) :
    Visits c.place? code (Expr.passed arguments) := by
  obtain ⟨parameters, hp, rfl⟩ := callCode_ok.mp h
  exact ((visits_parameters hp).cons_other rfl).snoc_other rfl

theorem visits_expr : ∀ (e : Expr) {base : Nat} {code : List Instruction},
    c.exprCode base e = .ok code → Visits c.place? code e.accesses
  | .number n, base, code, h => by
    rw [exprCode, Emission.pure_ok] at h
    rw [← h]
    exact visits_nil.cons_other rfl
  | .var x, base, code, h => by
    obtain ⟨slot, hs, rfl⟩ := exprCode_var.mp h
    exact visits_one (a := ⟨.load, x⟩) hs rfl
  | .read, base, code, h => by
    rw [exprCode, Emission.pure_ok] at h
    rw [← h]
    exact visits_nil.cons_other rfl
  | .unary op e, base, code, h => by
    obtain ⟨operand, ho, rfl⟩ := exprCode_unary.mp h
    exact (visits_expr e ho).snoc_other rfl
  | .binary op l r, base, code, h => by
    obtain ⟨left, hl, right, hr, rfl⟩ := exprCode_binary.mp h
    exact ((visits_expr l hl).append (visits_expr r hr)).snoc_other rfl
  | .call callee arguments, base, code, h => by
    obtain ⟨call, hc, rfl⟩ := exprCode_call.mp h
    exact (visits_call hc).snoc_other rfl

theorem visits_assignment {x : String} {e : Expr} (h : c.assignmentCode base x e = .ok code) :
    Visits c.place? code (e.accesses ++ [⟨.store, x⟩]) := by
  obtain ⟨value, hv, slot, hs, rfl⟩ := assignmentCode_ok.mp h
  have value_visits : Visits c.place? value e.accesses := by
    by_cases hr : e = .read
    · subst hr
      rw [valueCode_read, Except.ok.injEq] at hv
      rw [← hv]
      exact visits_nil.cons_other rfl
    · rw [valueCode_other hr] at hv
      exact visits_expr e hv
  exact value_visits.append (visits_one (a := ⟨.store, x⟩) hs rfl)

mutual

theorem visits_statement : ∀ (t : Statement) {base : Nat} {code : List Instruction},
    c.statementCode base t = .ok code → Visits c.place? code t.accesses
  | .echo e, base, code, h => by
    obtain ⟨value, hv, rfl⟩ := statementCode_echo.mp h
    exact (visits_expr e hv).snoc_other rfl
  | .assign x e, base, code, h => by
    rw [statementCode] at h
    exact visits_assignment h
  | .ifThen e body, base, code, h => by
    obtain ⟨condition, hc, inner, hi, rfl⟩ := statementCode_ifThen.mp h
    exact (visits_expr e hc).append ((visits_statements body hi).cons_other rfl)
  | .ifElse e body otherwise, base, code, h => by
    obtain ⟨condition, hc, inner, hi, other, ho, rfl⟩ := statementCode_ifElse.mp h
    exact ((visits_expr e hc).append ((visits_statements body hi).cons_other rfl)).append
      ((visits_statements otherwise ho).cons_other rfl)
  | .loop e body, base, code, h => by
    obtain ⟨condition, hc, inner, hi, rfl⟩ := statementCode_loop.mp h
    exact ((visits_expr e hc).append ((visits_statements body hi).cons_other rfl)).snoc_other rfl
  | .call callee arguments, base, code, h => by
    rw [statementCode] at h
    exact visits_call h

theorem visits_statements : ∀ (ts : List Statement) {base : Nat} {code : List Instruction},
    c.statementsCode base ts = .ok code → Visits c.place? code (Statement.accessesAll ts)
  | [], base, code, h => by
    rw [statementsCode, Emission.pure_ok] at h
    rw [← h]
    exact visits_nil
  | t :: ts, base, code, h => by
    obtain ⟨first, hf, others, ho, rfl⟩ := statementsCode_cons.mp h
    exact (visits_statement t hf).append (visits_statements ts ho)

end

theorem visits_initializers {vs : Variables} (h : c.initializersCode base vs = .ok code) :
    Visits c.place? code vs.accesses := by
  induction vs generalizing base code with
  | nil =>
    rw [initializersCode, Emission.pure_ok] at h
    rw [← h]
    exact visits_nil
  | cons v vs ih =>
    obtain ⟨x, _ | e⟩ := v
    · rw [initializersCode_none] at h
      exact ih h
    · rw [Variables.accesses]
      by_cases hz : isZero e = true
      · rw [initializersCode_zero hz] at h
        rw [if_pos hz, List.nil_append]
        exact ih h
      · obtain ⟨first, hf, others, ho, rfl⟩ := (initializersCode_some hz).mp h
        rw [if_neg hz]
        exact (visits_assignment hf).append (ih ho)

theorem visits_actions {vs : Variables} {ss : List Statement}
    (h : c.actionCode base vs ss = .ok code) :
    Visits c.place? code (vs.accesses ++ Statement.accessesAll ss) := by
  obtain ⟨first, hf, others, ho, rfl⟩ := actionCode_ok.mp h
  exact (visits_initializers hf).append (visits_statements ss ho)

end Context

/-! ## Code of regions -/

/-- The instructions whose sites lie in a region. -/
def regional (r : Region) (code : List Instruction) (ss : List Site) : List Instruction :=
  ((code.zip ss).filter fun c => c.2.region = r).map (·.1)

/-- The code that is emitted for a region. -/
def Program.codeOf (p : Program) (b : Bytecode) (r : Region) : List Instruction :=
  regional r b.instructions.toList p.sites

section Regional

variable {r r' : Region} {code code' : List Instruction} {ss ss' : List Site}

theorem regional_append (h : code.length = ss.length) :
    regional r (code ++ code') (ss ++ ss') = regional r code ss ++ regional r code' ss' := by
  simp only [regional, List.zip_append h, List.filter_append, List.map_append]

theorem regional_same (h : code.length = ss.length) (hs : ∀ s ∈ ss, s.region = r) :
    regional r code ss = code := by
  unfold regional
  rw [List.filter_eq_self.mpr, List.map_fst_zip (by omega)]
  intro c hc
  simpa using hs _ (List.of_mem_zip hc).2

theorem regional_other (hs : ∀ s ∈ ss, s.region ≠ r) : regional r code ss = [] := by
  unfold regional
  rw [List.filter_eq_nil_iff.mpr, List.map_nil]
  intro c hc
  simpa using hs _ (List.of_mem_zip hc).2

end Regional

theorem region_linkedSites {d : Nat} {qs : List Routine} {s : Site} (h : s ∈ linkedSites d qs) :
    s.region = .top ∨ ∃ q ∈ qs, s.region = .function q.name := by
  obtain ⟨q, hq, hs⟩ := List.mem_flatMap.mp h
  rcases List.mem_cons.mp hs with rfl | hs
  · exact .inl rfl
  · exact .inr ⟨q, hq, (q.belongs s hs).1⟩

section Images

variable {p : Program} {b : Bytecode} (im : Image p b)

theorem linked_append {target : Nat} {ks ks' : List Block} :
    linked target (ks ++ ks') = linked target ks ++ linked target ks' := List.flatMap_append

theorem linkedSites_append {d : Nat} {qs qs' : List Routine} :
    linkedSites d (qs ++ qs') = linkedSites d qs ++ linkedSites d qs' := List.flatMap_append

/-- Of functions in a row, only the jumps over them belong to the top level. -/
theorem regional_linked_top {target d : Nat} {qs : List Piece} (h : ∀ q ∈ qs, q ∈ im.pieces) :
    regional .top (linked target (qs.map Piece.block)) (linkedSites d (qs.map Piece.routine))
      = qs.map fun q => skip target q.routine.name := by
  induction qs with
  | nil => rfl
  | cons q qs ih =>
    have hq := length_piece im (h q List.mem_cons_self)
    have inside : regional .top q.code q.routine.sites = [] := by
      refine regional_other fun s hs => ?_
      rw [(q.routine.belongs s hs).1]
      simp
    have first : regional .top [skip target q.routine.name] [⟨.top, d, none, false⟩]
        = [skip target q.routine.name] := rfl
    have cons : linked target ((q :: qs).map Piece.block)
        = [skip target q.routine.name] ++ (q.code ++ linked target (qs.map Piece.block)) := rfl
    have conss : linkedSites d ((q :: qs).map Piece.routine)
        = [⟨.top, d, none, false⟩] ++ (q.routine.sites ++ linkedSites d (qs.map Piece.routine)) :=
      rfl
    rw [cons, conss, regional_append rfl, regional_append hq, first, inside,
      ih fun q' hq' => h q' (List.mem_cons_of_mem q hq')]
    rfl

/-- Each part of the code is found with its own sites. -/
theorem codeOf_eq (r : Region) : p.codeOf b r =
    regional r [.bare .start] [⟨.top, 0, none, false⟩] ++
      (regional r (allocations p.vars) (allocationSites .top 0 p.globals) ++
        (regional r (linked im.start (im.pieces.map Piece.block)) (linkedSites p.globals p.routines)
          ++ (regional r im.actions
              (p.vars.sites .top p.globals ++ Statement.sitesAll .top p.globals p.statements)
            ++ regional r [.bare .halt] [⟨.top, p.globals, none, false⟩]))) := by
  have hlinked := length_routineSites im p.globals
  have hactions := length_actionCode (r := .top) (d := p.globals) im.emitted
  have code : b.instructions.toList = [Instruction.bare .start] ++ (allocations p.vars
      ++ (linked im.start (im.pieces.map Piece.block) ++ (im.actions ++ [.bare .halt]))) := by
    conv_lhs => rw [im.code]
    simp [Bytecode.ofList]
  have sites : p.sites = [⟨.top, 0, none, false⟩] ++ (allocationSites .top 0 p.globals
      ++ (linkedSites p.globals p.routines
        ++ ((p.vars.sites .top p.globals ++ Statement.sitesAll .top p.globals p.statements)
          ++ [⟨.top, p.globals, none, false⟩]))) := by
    simp [Program.sites]
  rw [Program.codeOf, code, sites, regional_append rfl, regional_append, regional_append,
    regional_append hactions]
  · rw [Image.length_linked, hlinked]
  · rw [Image.length_allocations, length_allocationSites]
    rfl

theorem region_actions : ∀ s ∈ p.vars.sites .top p.globals
    ++ Statement.sitesAll .top p.globals p.statements, s.region = .top := by
  intro s hs
  rcases List.mem_append.mp hs with hs | hs
  · exact (Variables.belongs p.vars s hs).1
  · exact (Statement.belongsAll p.statements s hs).1

theorem region_allocations : ∀ s ∈ allocationSites .top 0 p.globals, s.region = .top :=
  fun s hs => (belongs_allocations (d := 0) s hs).1

theorem codeOf_top : p.codeOf b .top = .bare .start :: (allocations p.vars
    ++ (im.pieces.map (fun q => skip im.start q.routine.name)
      ++ (im.actions ++ [.bare .halt]))) := by
  have hactions := length_actionCode (r := .top) (d := p.globals) im.emitted
  have hallocs : (allocations p.vars).length = (allocationSites .top 0 p.globals).length := by
    rw [Image.length_allocations, length_allocationSites]
    rfl
  rw [codeOf_eq im, regional_same hallocs region_allocations, regional_same hactions region_actions,
    im.routines_eq, regional_linked_top im fun _ hq => hq]
  rfl

/-- Functions of other names have nothing in the region of a function. -/
theorem regional_linked_other {target d : Nat} {qs : List Piece} {f : String}
    (h : ∀ q ∈ qs, q.routine.name ≠ f) :
    regional (.function f) (linked target (qs.map Piece.block))
      (linkedSites d (qs.map Piece.routine)) = [] := by
  refine regional_other fun s hs => ?_
  rcases region_linkedSites hs with top | ⟨r, hr, inside⟩
  · rw [top]
    simp
  · obtain ⟨q, hq, rfl⟩ := List.mem_map.mp hr
    rw [inside]
    simpa using h q hq

theorem regional_outside {code : List Instruction} {ss : List Site} {f : String}
    (top : ∀ s ∈ ss, s.region = .top) : regional (.function f) code ss = [] := by
  refine regional_other fun s hs => ?_
  rw [top s hs]
  simp

variable {im} {q : Piece} {qs qs' : List Piece}

/-- No two functions have the same name. -/
theorem others_named (hpieces : im.pieces = qs ++ q :: qs') :
    (∀ q' ∈ qs, q'.routine.name ≠ q.routine.name) ∧
      ∀ q' ∈ qs', q'.routine.name ≠ q.routine.name := by
  have distinct := im.accepted.routines_nodup
  rw [im.routines_eq, hpieces, List.map_append, List.map_append, List.map_cons, List.map_cons,
    List.nodup_middle, List.nodup_cons, List.mem_append, not_or] at distinct
  exact ⟨fun q' hq' same => distinct.1.1 (same ▸ List.mem_map_of_mem (List.mem_map_of_mem hq')),
    fun q' hq' same => distinct.1.2 (same ▸ List.mem_map_of_mem (List.mem_map_of_mem hq'))⟩

theorem regional_linked_own (hpieces : im.pieces = qs ++ q :: qs') :
    regional (.function q.routine.name) (linked im.start (im.pieces.map Piece.block))
      (linkedSites p.globals p.routines) = q.code := by
  have hq := length_piece im (q := q) (by simp [hpieces])
  have hqs : (linkedSites p.globals (qs.map Piece.routine)).length
      = Generator.sizeOf (qs.map Piece.block) :=
    length_linkedSites im (fun q' hq' => by simp [hpieces, hq']) p.globals
  have own : regional (.function q.routine.name) q.code q.routine.sites = q.code :=
    regional_same hq fun s hs => (q.routine.belongs s hs).1
  have code : linked im.start (im.pieces.map Piece.block) = linked im.start (qs.map Piece.block)
      ++ ([skip im.start q.routine.name] ++ (q.code ++ linked im.start (qs'.map Piece.block))) := by
    rw [hpieces, List.map_append, linked_append]
    rfl
  have sites : linkedSites p.globals p.routines = linkedSites p.globals (qs.map Piece.routine)
      ++ ([⟨.top, p.globals, none, false⟩]
        ++ (q.routine.sites ++ linkedSites p.globals (qs'.map Piece.routine))) := by
    rw [im.routines_eq, hpieces, List.map_append, linkedSites_append]
    rfl
  obtain ⟨before, after⟩ := others_named hpieces
  rw [code, sites, regional_append, regional_append rfl, regional_append hq, own,
    regional_linked_other before, regional_linked_other after, regional_outside (by simp)]
  · simp
  · rw [Image.length_linked, hqs]

theorem codeOf_function (hq : q ∈ im.pieces) :
    p.codeOf b (.function q.routine.name) = q.code := by
  obtain ⟨qs, qs', hpieces⟩ := List.append_of_mem hq
  rw [codeOf_eq im, regional_linked_own hpieces, regional_outside region_allocations,
    regional_outside region_actions, regional_outside (by simp), regional_outside (by simp)]
  simp

end Images

/-! ## Slots of routines -/

section SlotIn

variable {tops names : List String} {f x y : String} {n : Nat}

theorem mem_of_slotIn (h : slotIn tops f names x = some n) : x ∈ names ∨ x ∈ tops := by
  by_contra absent
  rw [not_or] at absent
  simp [slotIn, List.idxOf?_eq_none_iff.mpr absent.1, List.idxOf?_eq_none_iff.mpr absent.2] at h

theorem slotIn_own (tops : List String) (f : String) (h : x ∈ names) :
    ∃ i, ∃ bound : i < names.length, names[i] = x ∧
      slotIn tops f names x = some (localSlot tops.length f i) := by
  obtain ⟨i, hi⟩ := Option.isSome_iff_exists.mp (List.isSome_idxOf?.mpr h)
  obtain ⟨bound, found, _⟩ := List.idxOf?_eq_some_iff.mp hi
  exact ⟨i, bound, by simpa using found, by simp [slotIn, hi]⟩

theorem slotIn_top (h : x ∈ tops) (fresh : x ∉ names) :
    ∃ n, slotIn tops f names x = some n ∧ tops[n]? = some x := by
  obtain ⟨n, hn⟩ := Option.isSome_iff_exists.mp (List.isSome_idxOf?.mpr h)
  obtain ⟨bound, found, _⟩ := List.idxOf?_eq_some_iff.mp hn
  refine ⟨n, by simp [slotIn, List.idxOf?_eq_none_iff.mpr fresh, hn], ?_⟩
  rw [List.getElem?_eq_getElem bound]
  simpa using found

end SlotIn

/-- The code of the top level goes to the slots of its variables, which lie at the bottom. -/
structure PlacedTop (p : Program) (b : Bytecode) (slot : String → Nat) : Prop where
  accesses : (p.codeOf b .top).filter Instruction.isAccess
    = p.accesses.map fun a => .withNat a.opcode (slot a.name)
  tops : ∀ a ∈ p.accesses, p.vars.names[slot a.name]? = some a.name

/-- The code of a function goes to the slots of its own names, which lie from `bottom` on, and to
those of the top level. -/
structure Placed (p : Program) (b : Bytecode) (r : Routine) (bottom : Nat) (slot : String → Nat) :
    Prop where
  accesses : (p.codeOf b (.function r.name)).filter Instruction.isAccess
    = r.accesses.map fun a => .withNat a.opcode (slot a.name)
  named : ∀ a ∈ r.accesses, a.name ∈ r.names ∨ a.name ∈ p.vars.names
  own : ∀ x ∈ r.names, bottom ≤ slot x ∧ slot x < bottom + r.slots
  distinct : ∀ x ∈ r.names, ∀ y ∈ r.names, slot x = slot y → x = y
  tops : ∀ x ∈ p.vars.names, x ∉ r.names → p.vars.names[slot x]? = some x

section Placed

variable {p : Program} {b : Bytecode}

theorem accesses_allocations (vs : Variables) :
    (allocations vs).filter Instruction.isAccess = [] := by
  simp [allocations, Instruction.isAccess, Instruction.withNat, Instruction.withNumber]

theorem placedTop_image (im : Image p b) :
    PlacedTop p b fun x => (p.vars.names.idxOf? x).getD 0 := by
  have same : im.context.place? = fun x => p.vars.names.idxOf? x :=
    funext fun x => im.accepted.slot_top x
  have visits := Context.visits_actions im.emitted
  change Visits im.context.place? _ _ at visits
  rw [same] at visits
  obtain ⟨slots, operands⟩ := visits.operands
  have skips : (im.pieces.map fun q => skip im.start q.routine.name).filter Instruction.isAccess
      = [] := by
    simp [skip, Instruction.isAccess, Instruction.withNat, Instruction.withNumber,
      Instruction.commented]
  constructor
  · rw [codeOf_top im, List.filter_cons_of_neg (by simp [Instruction.isAccess, Instruction.bare]),
      List.filter_append, List.filter_append, List.filter_append, accesses_allocations, skips,
      operands]
    simp [Instruction.isAccess, Instruction.bare, Body.accesses]
  · intro a ha
    obtain ⟨n, hn⟩ := slots a ha
    obtain ⟨bound, found, _⟩ := List.idxOf?_eq_some_iff.mp hn
    rw [hn, Option.getD_some, List.getElem?_eq_getElem bound]
    simpa using found

theorem localSlot_eq (globals : Nat) (f : String) (i : Nat) :
    localSlot globals f i = (if f = globalScope then 0 else globals) + i := by
  unfold localSlot
  split <;> omega

theorem placed_image {im : Image p b} {q : Piece} (hq : q ∈ im.pieces) :
    Placed p b q.routine (if q.routine.name = globalScope then 0 else p.globals)
      fun x => (slotIn p.vars.names q.routine.name q.routine.names x).getD 0 := by
  have same : (im.contextOf q).place?
      = fun x => slotIn p.vars.names q.routine.name q.routine.names x :=
    funext fun x => im.accepted.slot_function (Image.routine_mem hq) x
  have visits := Context.visits_actions (im.laid.emitted hq)
  change Visits (im.contextOf q).place? _ _ at visits
  rw [same] at visits
  obtain ⟨slots, operands⟩ := visits.operands
  have globals : p.vars.names.length = p.globals := Variables.length_names
  have returns : (Plan.epilogue q.routine.slots).filter Instruction.isAccess = [] := by
    unfold Plan.epilogue
    split <;> rfl
  constructor
  · rw [codeOf_function hq, Piece.code, List.filter_append, List.filter_append,
      accesses_allocations, returns, operands]
    simp [Routine.accesses]
  · intro a ha
    obtain ⟨n, hn⟩ := slots a ha
    exact mem_of_slotIn hn
  · intro x hx
    obtain ⟨i, bound, _, hs⟩ := slotIn_own p.vars.names q.routine.name hx
    rw [Routine.length_names] at bound
    rw [hs, Option.getD_some, localSlot_eq, globals]
    omega
  · intro x hx y hy heq
    obtain ⟨i, hi, rfl, hs⟩ := slotIn_own p.vars.names q.routine.name hx
    obtain ⟨j, hj, rfl, ht⟩ := slotIn_own p.vars.names q.routine.name hy
    rw [hs, ht, Option.getD_some, Option.getD_some, localSlot_eq, localSlot_eq,
      Nat.add_left_cancel_iff] at heq
    subst heq
    rfl
  · intro x hx fresh
    obtain ⟨n, hn, found⟩ := slotIn_top (f := q.routine.name) hx fresh
    rw [hn, Option.getD_some]
    exact found

end Placed

/-- The own names of a function lie right above the top level, unless it is named like the
outermost scope: then they share the slots of the top level. -/
theorem slots_placed {p : Program} {b : Bytecode} (h : Compiled p b) :
    (∃ slot, PlacedTop p b slot) ∧ ∀ r ∈ p.routines,
      ∃ slot, Placed p b r (if r.name = globalScope then 0 else p.globals) slot := by
  obtain ⟨im⟩ := h.image
  refine ⟨⟨_, placedTop_image im⟩, fun r hr => ?_⟩
  rw [im.routines_eq] at hr
  obtain ⟨q, hq, rfl⟩ := List.mem_map.mp hr
  exact ⟨_, placed_image hq⟩

theorem slots_placed_countdown : Compiled countdown countdownCode ∧
    (∃ slot, PlacedTop countdown countdownCode slot) ∧
      ∀ r ∈ countdown.routines, ∃ slot, Placed countdown countdownCode r 1 slot := by
  obtain ⟨top, functions⟩ := slots_placed countdown_compiled
  refine ⟨countdown_compiled, top, fun r hr => ?_⟩
  have placed := functions r hr
  obtain rfl := List.mem_singleton.mp hr
  simpa [globalScope, Program.globals, countdown, Body.vars, Declaration.vars] using placed

/-- A function named like the outermost scope that stores into its variable. -/
def overlap : Program :=
  ⟨[.variable "$x" (some (.number 7)),
    .function "global" [] [.variable "$b" (some (.number 5))] []],
    [.call "global" [], .echo (.var "$x")]⟩

theorem overlap_not_placed : Compiled overlap (overlap.code?.getD .empty) ∧
    ¬ ∀ r ∈ overlap.routines,
      ∃ slot, Placed overlap (overlap.code?.getD .empty) r overlap.globals slot := by
  refine ⟨compiled_iff.mpr (by decide +kernel), fun placed => ?_⟩
  obtain ⟨slot, h⟩ := placed _ List.mem_cons_self
  have stored : [Instruction.withNat .store 0] = [Instruction.withNat .store (slot "$b")] := by
    have code := h.accesses
    have evaluated : (overlap.codeOf (overlap.code?.getD .empty) (.function "global")).filter
        Instruction.isAccess = [Instruction.withNat .store 0] := by decide +kernel
    exact evaluated.symm.trans code
  have own := h.own "$b" List.mem_cons_self
  obtain one : slot "$b" = 1 := by
    change 1 ≤ slot "$b" ∧ slot "$b" < 1 + 1 at own
    omega
  rw [one] at stored
  exact absurd stored (by decide +kernel)

end FlatStack
