import FlatStack.Code.Text
import FlatStack.Proofs.WrittenNumbers

/-!
# Code survives its text

Every line that an instruction is written as is read as this instruction
again, and everything that is read can be written. A negative zero comes back
without its sign, which no comparison of numbers sees.
-/

set_option autoImplicit false

namespace FlatStack

/-! ## One instruction -/

namespace Instruction

variable {i : Instruction}

/-- What the reader of an operand makes of it. -/
def unsigned (i : Instruction) : Instruction :=
  { i with operand := i.operand.map Decimal.unsignedZero }

/-- An instruction that its text tells: the mnemonic is a word and not that of another opcode,
and the comment is not empty, trimmed and on one line. -/
structure Writable (i : Instruction) : Prop where
  solid : Text.Solid i.opcode.mnemonic.toList
  full : i.opcode.mnemonic ≠ ""
  named : ∀ m, i.opcode = .unknown m → ∀ o ∈ Opcode.known, o.mnemonic ≠ m
  comment : ∀ c ∈ i.comment, c ≠ "" ∧ Text.trim c.toList = c.toList ∧ '\n' ∉ c.toList

def operandText (i : Instruction) : List Char :=
  match i.operand with
  | some x => ' ' :: (Decimal.operand x).toList
  | none => []

def commentText (i : Instruction) : List Char :=
  match i.comment with
  | some c => '#' :: c.toList
  | none => []

/-- The blank in front of the comment. -/
def gap (i : Instruction) : List Char := if i.comment.isSome then [' '] else []

theorem text_toList (i : Instruction) : i.text.toList
    = i.opcode.mnemonic.toList ++ (i.operandText ++ i.gap ++ i.commentText) := by
  obtain ⟨o, x, c⟩ := i
  cases x
  all_goals
    cases c
    all_goals simp [text, operandText, gap, commentText]

theorem blank_gap (i : Instruction) : ∀ c ∈ i.gap, Text.isBlank c = true := by
  unfold gap
  split <;> simp [Text.isBlank]

theorem firstWord_operandText (i : Instruction) :
    (Text.firstWord? (i.operandText ++ i.gap)).bind Decimal.read?
      = i.operand.map Decimal.unsignedZero := by
  have blank := blank_gap i
  cases hx : i.operand with
  | none =>
    rw [operandText, hx, List.nil_append, Text.firstWord_blank blank]
    rfl
  | some x =>
    have word : Text.firstWord? ([' '] ++ ((Decimal.operand x).toList ++ i.gap))
        = some (Decimal.operand x).toList :=
      Text.firstWord_append (by simp [Text.isBlank]) (Decimal.figures_operand x).not_blank
        (Decimal.operand_ne_nil x) fun c hc => blank c (List.mem_of_mem_head? hc)
    rw [operandText, hx]
    exact (congrArg (Option.bind · Decimal.read?) word).trans (Decimal.read_operand x)

theorem no_hash (i : Instruction) : '#' ∉ i.operandText ++ i.gap := by
  rw [List.mem_append]
  rintro (operand | gap)
  · unfold operandText at operand
    split at operand
    · rcases List.mem_cons.mp operand with blank | operand
      · cases blank
      · exact (Decimal.figures_operand _).no_hash operand
    · cases operand
  · exact absurd (blank_gap i '#' gap) (by decide)

theorem readComment_commentText (h : i.Writable) : readComment? i.commentText = i.comment := by
  cases hc : i.comment with
  | none =>
    rw [commentText, hc]
    rfl
  | some c =>
    obtain ⟨full, trimmed, -⟩ := h.comment c hc
    rw [commentText, hc]
    simp only [readComment?, trimmed]
    split
    · rename_i none
      exact absurd (String.toList_eq_nil_iff.mp none) full
    · rename_i chars
      rw [← chars, String.ofList_toList]

theorem ofMnemonic_mnemonic (h : i.Writable) : Opcode.ofMnemonic i.opcode.mnemonic = i.opcode := by
  obtain ⟨opcode, operand, comment⟩ := i
  cases opcode with
  | unknown m =>
    have other : Opcode.known.find? (fun o => o.mnemonic == m) = none := by
      rw [List.find?_eq_none]
      intro o ho
      simpa using h.named m rfl o ho
    change (Opcode.known.find? fun o => o.mnemonic == m).getD (.unknown m) = _
    rw [other]
    rfl
  | unary op => cases op <;> rfl
  | binary op =>
    cases op with
    | compare relation => cases relation <;> rfl
    | _ => rfl
  | _ => rfl

theorem mnemonic_ne_nil (h : i.Writable) : i.opcode.mnemonic.toList ≠ [] :=
  fun none => h.full (String.toList_eq_nil_iff.mp none)

/-- The last character is that of the comment, the operand or the mnemonic. -/
theorem trimmed_text (h : i.Writable) : Text.Trimmed i.text.toList := by
  have full := mnemonic_ne_nil h
  rw [text_toList]
  constructor
  · intro c hc
    rw [List.head?_append_of_ne_nil _ full] at hc
    exact h.solid c (List.mem_of_mem_head? hc)
  intro c hc
  unfold operandText gap commentText at hc
  cases hcomment : i.comment with
  | some text =>
    obtain ⟨nonempty, trimmed, -⟩ := h.comment text hcomment
    have nonempty : text.toList ≠ [] := fun none => nonempty (String.toList_eq_nil_iff.mp none)
    simp only [hcomment] at hc
    rw [← List.append_assoc, List.getLast?_append_of_ne_nil _ (by simp), ← List.singleton_append,
      List.getLast?_append_of_ne_nil _ nonempty] at hc
    exact (Text.trimmed_iff.mpr trimmed).last c hc
  | none =>
    cases hoperand : i.operand with
    | some x =>
      have nonempty := Decimal.operand_ne_nil x
      simp only [hcomment, hoperand, Option.isSome_none, Bool.false_eq_true, if_false,
        List.append_nil] at hc
      rw [List.getLast?_append_of_ne_nil _ (by simp), ← List.singleton_append,
        List.getLast?_append_of_ne_nil _ nonempty] at hc
      exact (Decimal.figures_operand x).not_blank c (List.mem_of_mem_getLast? hc)
    | none =>
      simp only [hcomment, hoperand, Option.isSome_none, Bool.false_eq_true, if_false,
        List.append_nil] at hc
      exact h.solid c (List.mem_of_mem_getLast? hc)

theorem apart_tail (i : Instruction) : Text.Apart (i.operandText ++ i.gap ++ i.commentText) := by
  intro c hc
  unfold operandText gap commentText at hc
  cases hoperand : i.operand with
  | some x =>
    simp only [hoperand] at hc
    cases hc
    rfl
  | none =>
    cases hcomment : i.comment with
    | some text =>
      simp only [hoperand, hcomment] at hc
      cases hc
      rfl
    | none => simp [hoperand, hcomment] at hc

theorem ofLine_text (h : i.Writable) : ofLine i.text.toList = i.unsigned := by
  have parts : Text.splitWord i.text.toList
      = (i.opcode.mnemonic.toList, i.operandText ++ i.gap ++ i.commentText) := by
    rw [text_toList]
    exact Text.splitWord_append h.solid (apart_tail i)
  have comment : (i.operandText ++ i.gap ++ i.commentText).span (· != '#')
      = (i.operandText ++ i.gap, i.commentText) := by
    refine Text.span_stop ?_ ?_
    · intro c hc
      have : c ≠ '#' := fun same => no_hash i (same ▸ hc)
      simpa using this
    · unfold commentText
      split <;> simp
  unfold ofLine
  simp only [(trimmed_text h).eq, parts, comment, firstWord_operandText, readComment_commentText h,
    String.ofList_toList, ofMnemonic_mnemonic h]
  rfl

theorem free_text (h : i.Writable) : '\n' ∉ i.text.toList := by
  have blank : Text.isBlank '\n' = true := rfl
  intro newline
  rw [text_toList, List.mem_append, List.mem_append, List.mem_append] at newline
  rcases newline with mnemonic | (operand | gap) | comment
  · exact absurd blank (by simp [h.solid _ mnemonic])
  · unfold operandText at operand
    split at operand
    · rcases List.mem_cons.mp operand with space | operand
      · cases space
      · exact absurd blank (by simp [(Decimal.figures_operand _).not_blank _ operand])
    · cases operand
  · unfold Instruction.gap at gap
    split at gap
    · simp at gap
    · cases gap
  · unfold commentText at comment
    split at comment
    · rename_i text found
      rcases List.mem_cons.mp comment with hash | comment
      · cases hash
      · exact (h.comment text found).2.2 comment
    · cases comment

theorem not_blank_text (h : i.Writable) : i.text.toList.all Text.isBlank = false := by
  obtain ⟨c, cs, chars⟩ := List.exists_cons_of_ne_nil (mnemonic_ne_nil h)
  have first := h.solid c (by simp [chars])
  rw [text_toList, chars, List.cons_append, List.all_cons, first, Bool.false_and]

end Instruction

theorem Opcode.ofMnemonic_cases (w : String) :
    (∃ o ∈ known, o.mnemonic = w ∧ ofMnemonic w = o)
      ∨ (∀ o ∈ known, o.mnemonic ≠ w) ∧ ofMnemonic w = .unknown w := by
  unfold ofMnemonic
  cases found : known.find? fun o => o.mnemonic == w with
  | some o =>
    have same := List.find?_some found
    exact .inl ⟨o, List.mem_of_find?_eq_some found, by simpa using same, rfl⟩
  | none => exact .inr ⟨by simpa using List.find?_eq_none.mp found, rfl⟩

theorem Opcode.mnemonic_ofMnemonic (w : String) : (ofMnemonic w).mnemonic = w := by
  rcases ofMnemonic_cases w with ⟨o, -, same, found⟩ | ⟨-, found⟩
  · rw [found, same]
  · rw [found]
    rfl

theorem Opcode.mem_known {o : Opcode} (h : o.isUnknown = false) : o ∈ known := by
  cases o with
  | unknown m => cases h
  | unary op => cases op <;> decide
  | binary op =>
    cases op with
    | compare relation => cases relation <;> decide
    | _ => decide
  | _ => decide

theorem Opcode.known_not_unknown (w : String) : .unknown w ∉ known := by
  simp [known]

theorem Opcode.unknown_ofMnemonic {w m : String} (h : ofMnemonic w = .unknown m) :
    ∀ o ∈ known, o.mnemonic ≠ m := by
  rcases ofMnemonic_cases w with ⟨o, known, -, found⟩ | ⟨other, found⟩
  · rw [found] at h
    exact absurd (h ▸ known) (known_not_unknown m)
  · rw [found] at h
    cases h
    exact other

/-! ## Programs -/

namespace Bytecode

variable {b : Bytecode} {t : String} {i : Instruction}

theorem text_toList (b : Bytecode) : b.text.toList
    = (b.instructions.toList.map fun i => i.text.toList).flatMap fun line => line ++ ['\n'] := by
  simp [text, String.toList_join, List.flatMap_map]

/-- The text of a program is read as the program, but for the signs of zeros. -/
theorem parse_text (h : ∀ i ∈ b.instructions, i.Writable) :
    parse b.text = ofList (b.instructions.toList.map Instruction.unsigned) := by
  have writable (i : Instruction) (hi : i ∈ b.instructions.toList) : i.Writable :=
    h i (Array.mem_toList_iff.mp hi)
  have lines : Text.lines b.text.toList = b.instructions.toList.map fun i => i.text.toList := by
    rw [text_toList]
    apply Text.lines_flatMap
    · intro line hline
      obtain ⟨i, hi, rfl⟩ := List.mem_map.mp hline
      exact Instruction.free_text (writable i hi)
    · intro line hline ending
      obtain ⟨i, hi, rfl⟩ := List.mem_map.mp hline
      exact absurd ((Instruction.trimmed_text (writable i hi)).last _ ending) (by decide)
  have kept : (b.instructions.toList.map fun i => i.text.toList).filter
      (fun line => !line.all Text.isBlank) = b.instructions.toList.map fun i => i.text.toList := by
    rw [List.filter_eq_self]
    intro line hline
    obtain ⟨i, hi, rfl⟩ := List.mem_map.mp hline
    rw [Instruction.not_blank_text (writable i hi)]
    rfl
  change ofList (((Text.lines b.text.toList).filter fun line => !line.all Text.isBlank).map
    Instruction.ofLine) = _
  rw [lines, kept, List.map_map]
  exact congrArg ofList
    (List.map_congr_left fun i hi => Instruction.ofLine_text (writable i hi))

/-- What is read as a comment is trimmed, and it stands in the text. -/
theorem readComment_trimmed {cs : List Char} {c : String}
    (h : Instruction.readComment? cs = some c) :
    c ≠ "" ∧ Text.trim c.toList = c.toList ∧ ∀ d ∈ c.toList, d ∈ cs := by
  unfold Instruction.readComment? at h
  split at h
  · rename_i cs
    split at h
    · cases h
    · rename_i d ds chars
      cases h
      rw [String.toList_ofList, ← chars]
      refine ⟨?_, (Text.trimmed_trim cs).eq, fun e he => ?_⟩
      · rw [ne_eq, ← String.toList_eq_nil_iff, String.toList_ofList, chars]
        exact List.cons_ne_nil d ds
      · exact List.mem_cons_of_mem _ ((Text.trim_infix cs).subset he)
  · cases h

theorem writable_ofLine {line : List Char} (free : '\n' ∉ line)
    (some : ∃ c ∈ line, Text.isBlank c = false) : (Instruction.ofLine line).Writable := by
  have trimmed := Text.trimmed_trim line
  obtain ⟨first, others, chars⟩ := List.exists_cons_of_ne_nil (Text.trim_ne_nil some)
  obtain ⟨word, rest, parts⟩ : ∃ word rest, Text.splitWord (Text.trim line) = (word, rest) :=
    ⟨_, _, rfl⟩
  have runs := parts
  rw [Text.splitWord, List.span_eq_takeWhile_dropWhile, Prod.mk.injEq] at runs
  have solid : Text.Solid word := by
    intro c hc
    rw [← runs.1] at hc
    simpa using List.mem_takeWhile_imp hc
  have full : word ≠ [] := by
    have head := trimmed.head first (by rw [chars]; rfl)
    rw [← runs.1, chars, List.takeWhile_cons_of_pos (by simp [head])]
    exact List.cons_ne_nil _ _
  have inside : ∀ c ∈ rest, c ∈ line := by
    intro c hc
    rw [← runs.2] at hc
    exact (Text.trim_infix line).subset ((List.dropWhile_suffix _).subset hc)
  have reads : Instruction.ofLine line =
      { opcode := .ofMnemonic (String.ofList word)
        operand := (Text.firstWord? (rest.span (· != '#')).1).bind Decimal.read?
        comment := Instruction.readComment? (rest.span (· != '#')).2 } := by
    unfold Instruction.ofLine
    rw [parts]
  have mnemonic := Opcode.mnemonic_ofMnemonic (String.ofList word)
  rw [reads]
  refine ⟨?_, ?_, fun m => Opcode.unknown_ofMnemonic, ?_⟩
  · rwa [mnemonic, String.toList_ofList]
  · rwa [mnemonic, ne_eq, ← String.toList_eq_nil_iff, String.toList_ofList]
  · intro c hc
    obtain ⟨nonempty, trim, chars⟩ := readComment_trimmed hc
    refine ⟨nonempty, trim, fun newline => free (inside _ ?_)⟩
    have behind := chars _ newline
    rw [List.span_eq_takeWhile_dropWhile] at behind
    exact (List.dropWhile_suffix _).subset behind

theorem writable_parse (h : i ∈ (parse t).instructions) : i.Writable := by
  rw [parse, ofList, ← Array.mem_toList_iff] at h
  obtain ⟨line, hline, rfl⟩ := List.mem_map.mp h
  obtain ⟨member, kept⟩ := List.mem_filter.mp hline
  exact writable_ofLine (Text.free_of_mem_lines member) (by simpa using kept)

end Bytecode

/-! ## The round trip -/

/-- The same opcode, the same comment and operands equal as numbers. -/
structure Instruction.Matches (a b : Instruction) : Prop where
  opcode : a.opcode = b.opcode
  comment : a.comment = b.comment
  operand : Option.Rel Decimal.SameNumber a.operand b.operand

theorem Instruction.unsigned_matches (i : Instruction) : i.unsigned.Matches i := by
  refine ⟨rfl, rfl, ?_⟩
  cases h : i.operand with
  | none => simp [unsigned, h]
  | some x => simpa [unsigned, h] using Option.Rel.some (Decimal.unsignedZero_same x)

theorem Instruction.unsigned_agrees {i : Instruction} (h : ∀ x ∈ i.operand, x.isNaN = false) :
    i.unsigned.agrees i = true := by
  cases hx : i.operand with
  | none => simp [agrees, unsigned, hx]
  | some x => simp [agrees, unsigned, hx, Decimal.unsignedZero_beq (h x hx)]

theorem Bytecode.agrees_unsigned {b : Bytecode}
    (h : ∀ i ∈ b.instructions, ∀ x ∈ i.operand, x.isNaN = false) :
    (ofList (b.instructions.toList.map Instruction.unsigned)).agrees b = true := by
  have size : (ofList (b.instructions.toList.map Instruction.unsigned)).size = b.size := by
    simp [ofList, Bytecode.size]
  have pairs : (b.instructions.toList.map Instruction.unsigned).zip b.instructions.toList
      = b.instructions.toList.map fun i => (i.unsigned, i) := by
    have both : (b.instructions.toList.map Instruction.unsigned).zip
      (b.instructions.toList.map id) = _ := List.zip_map'
    simpa using both
  rw [agrees, size, beq_self_eq_true, Bool.true_and, List.all_eq_true]
  intro pair member
  obtain ⟨i, hi, rfl⟩ := List.mem_map.mp (pairs ▸ member)
  exact Instruction.unsigned_agrees (h i (Array.mem_toList_iff.mp hi))

/-- Whatever text is read as a program, the text of this program is read as one that matches it
instruction by instruction. And every program of writable instructions whose operands are numbers
agrees with what its text is read as. -/
theorem text_round_trip :
    (∀ t : String, List.Forall₂ Instruction.Matches
      (Bytecode.parse (Bytecode.parse t).text).instructions.toList
      (Bytecode.parse t).instructions.toList)
    ∧ ∀ b : Bytecode, (∀ i ∈ b.instructions, i.Writable) →
      (∀ i ∈ b.instructions, ∀ x ∈ i.operand, x.isNaN = false) →
      (Bytecode.parse b.text).agrees b = true := by
  constructor
  · intro t
    rw [Bytecode.parse_text fun i hi => Bytecode.writable_parse hi]
    change List.Forall₂ _ (List.map Instruction.unsigned _) _
    rw [List.forall₂_map_left_iff, List.forall₂_same]
    exact fun i _ => i.unsigned_matches
  · intro b writable numbers
    rw [Bytecode.parse_text writable]
    exact Bytecode.agrees_unsigned numbers

/-- An unknown mnemonic and a comment with the mark of comments inside, and a negative zero. -/
def oddity : Instruction := ⟨.unknown "SO#MA", some (-0), some "a # b"⟩

theorem oddity_writable : oddity.Writable := by
  refine ⟨?_, by decide, ?_, ?_⟩
  · simp [Text.Solid, oddity, Opcode.mnemonic, Text.isBlank]
  · rintro m same
    cases same
    decide
  · rintro c same
    cases same
    exact ⟨by decide, by decide, by decide⟩

theorem text_round_trip_oddity :
    (Bytecode.parse (Bytecode.ofList [oddity]).text).agrees (Bytecode.ofList [oddity]) = true := by
  have all (i : Instruction) (h : i ∈ (Bytecode.ofList [oddity]).instructions) : i = oddity := by
    simpa [Bytecode.ofList] using h
  refine text_round_trip.2 _ (fun i h => all i h ▸ oddity_writable) fun i h x hx => ?_
  rw [all i h] at hx
  cases hx
  decide +kernel

end FlatStack
