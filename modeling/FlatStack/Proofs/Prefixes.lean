import FlatStack.Proofs.ParserCompleteness

/-!
# Passed tokens

Two things are known of a parser wherever it stops. The tokens that it has
passed are a part of the kind that it reads, or can be completed to one. And it
has seen nothing behind the token where it stops, so it stops there whatever
follows. Both carry over to the parsers that are put together from others.
-/

set_option autoImplicit false

namespace FlatStack

namespace Grammar

/-- From where to where a part extends. -/
abbrev Extent := List Token → List Token → Prop

/-- A part, whatever it is. -/
def Any {α : Type} (D : Reading α) : Extent := fun ts rest => ∃ a, D a ts rest

/-- Two parts, one behind the other. -/
def Then (E F : Extent) : Extent := fun ts rest => ∃ us, E ts us ∧ F us rest

def Either (E F : Extent) : Extent := fun ts rest => E ts rest ∨ F ts rest

/-- Operators and operands behind any first operand. -/
def Chained (operator? : Token.Kind → Option BinaryOp) (Operand : Reading Expr) : Extent :=
  fun ts rest => ∀ left, ∃ e, Chain operator? Operand left e ts rest

/-- Tokens that are a whole part, whatever follows them. -/
def Whole (E : Extent) (passed : List Token) : Prop := ∀ rest, E (passed ++ rest) rest

/-- Some tokens are a whole part. -/
class Possible (E : Extent) : Prop where
  whole : ∃ passed, Whole E passed

section Extents

variable {α : Type} {E F : Extent} {D : Reading α} {ts us passed further : List Token}

theorem Whole.mono (h : Whole E passed) (into : ∀ ts rest, E ts rest → F ts rest) :
    Whole F passed := fun _ => into _ _ (h _)

theorem Whole.append (h : Whole E passed) (h' : Whole F further) :
    Whole (Then E F) (passed ++ further) := by
  intro rest
  rw [List.append_assoc]
  exact ⟨further ++ rest, h _, h' rest⟩

theorem Possible.mono [Possible E] (into : ∀ ts rest, E ts rest → F ts rest) : Possible F := by
  obtain ⟨passed, h⟩ := Possible.whole (E := E)
  exact ⟨passed, h.mono into⟩

/-- A token that stands nowhere in a source text. -/
def tokenOf (k : Token.Kind) : Token := ⟨k, ⟨0, 0⟩⟩

instance possible_spells (ks : List Token.Kind) : Possible (Spells ks) where
  whole := by
    refine ⟨ks.map tokenOf, fun rest => ?_⟩
    induction ks with
    | nil => rfl
    | cons k ks ih => exact ⟨tokenOf k, _, rfl, rfl, ih⟩

instance possible_then [Possible E] [Possible F] : Possible (Then E F) where
  whole := by
    obtain ⟨passed, h⟩ := Possible.whole (E := E)
    obtain ⟨further, h'⟩ := Possible.whole (E := F)
    exact ⟨passed ++ further, h.append h'⟩

instance possible_either [Possible E] : Possible (Either E F) :=
  Possible.mono (E := E) fun _ _ => .inl

instance possible_eq : Possible Eq := ⟨[], fun _ => rfl⟩

instance possible_repeated : Possible (Any (Repeated D)) := ⟨[], fun _ => ⟨[], .none⟩⟩

instance possible_chained {operator? : Token.Kind → Option BinaryOp} {D : Reading Expr} :
    Possible (Chained operator? D) := ⟨[], fun _ left => ⟨left, .last⟩⟩

end Extents

end Grammar

namespace Parser

open Grammar Stateful

/-- The result of a parser that stops in front of `rest`. -/
def stopped {α : Type} (v : Except Expectation α) (rest : List Token) :
    EStateM.Result Expectation (List Token) α :=
  match v with
  | .ok a => .ok a rest
  | .error e => .error e rest

/-- What the parser passes is a whole part if it succeeds, and otherwise the beginning of one. -/
structure Viable {α : Type} (x : Parser α) (E : Extent) (ts : List Token) : Prop where
  ok : ∀ a rest, x ts = .ok a rest → ∃ passed, ts = passed ++ rest ∧ Whole E passed
  error : ∀ e rest, x ts = .error e rest →
    ∃ passed more, ts = passed ++ rest ∧ Whole E (passed ++ more)

/-- In addition, within the first `n` tokens the other parser stops where this one does, whatever
stands behind the token there. -/
structure Follows {α : Type} (n : Nat) (x y : Parser α) (E : Extent) (ts : List Token) : Prop
    extends Viable x E ts where
  agrees : ∀ {passed : List Token} {t : Token} {after : List Token} {v : Except Expectation α},
    passed.length < n → ts = passed ++ t :: after → x ts = stopped v (t :: after) →
      ∀ after', y (passed ++ t :: after') = stopped v (t :: after')

variable {α β : Type} {n m : Nat} {x y : Parser α} {f g : α → Parser β} {E F : Extent}
  {D : Reading α} {ts us rest : List Token} {k : Token.Kind} {v : Except Expectation α}

namespace Viable

theorem passes (h : Viable x E ts) (ran : x ts = stopped v rest) :
    ∃ passed, ts = passed ++ rest := by
  cases v with
  | ok a =>
    obtain ⟨passed, whole, -⟩ := h.ok a rest ran
    exact ⟨passed, whole⟩
  | error e =>
    obtain ⟨passed, -, whole, -⟩ := h.error e rest ran
    exact ⟨passed, whole⟩

theorem mono (h : Viable x E ts) (into : ∀ ts rest, E ts rest → F ts rest) : Viable x F ts where
  ok a rest ran := by
    obtain ⟨passed, whole, part⟩ := h.ok a rest ran
    exact ⟨passed, whole, part.mono into⟩
  error e rest ran := by
    obtain ⟨passed, more, whole, part⟩ := h.error e rest ran
    exact ⟨passed, more, whole, part.mono into⟩

theorem bind [Possible F] (h : Viable x E ts)
    (next : ∀ a rest, x ts = .ok a rest → Viable (f a) F rest) :
    Viable (x >>= f) (Then E F) ts where
  ok b rest ran := by
    obtain ⟨a, us, first, second⟩ := bind_ok.mp ran
    obtain ⟨passed, whole, part⟩ := h.ok a us first
    obtain ⟨further, rfl, part'⟩ := (next a us first).ok b rest second
    exact ⟨passed ++ further, by simpa using whole, part.append part'⟩
  error e rest ran := by
    rw [bind_apply] at ran
    cases first : x ts with
    | ok a us =>
      rw [first] at ran
      obtain ⟨passed, whole, part⟩ := h.ok a us first
      obtain ⟨further, more, rfl, part'⟩ := (next a us first).error e rest ran
      refine ⟨passed ++ further, more, by simpa using whole, ?_⟩
      rw [List.append_assoc]
      exact part.append part'
    | error e' us =>
      rw [first] at ran
      cases ran
      obtain ⟨passed, more, whole, part⟩ := h.error e rest first
      obtain ⟨others, part'⟩ := Possible.whole (E := F)
      refine ⟨passed, more ++ others, whole, ?_⟩
      rw [← List.append_assoc]
      exact part.append part'

theorem pure {a : α} : Viable (pure a) Eq ts where
  ok b rest ran := by
    obtain ⟨-, rfl⟩ := pure_ok.mp ran
    exact ⟨[], rfl, fun _ => rfl⟩
  error e rest ran := by cases ran

theorem throw [Possible E] {e : Expectation} : Viable (throw e : Parser α) E ts where
  ok a rest ran := absurd ran throw_ok
  error e' rest ran := by
    cases ran
    obtain ⟨more, part⟩ := Possible.whole (E := E)
    exact ⟨[], more, rfl, part⟩

/-- Nothing is said of the other parser. -/
theorem follows (h : Viable x E ts) : Follows 0 x y E ts :=
  ⟨h, fun less => absurd less (Nat.not_lt_zero _)⟩

end Viable

theorem ok_of_stopped {a : α} (h : EStateM.Result.ok a us = stopped v rest) :
    v = .ok a ∧ us = rest := by
  cases v with
  | ok b =>
    cases h
    exact ⟨rfl, rfl⟩
  | error e => cases h

namespace Follows

theorem weaken (h : Follows n x y E ts) (le : m ≤ n) : Follows m x y E ts :=
  ⟨h.toViable, fun less => h.agrees (less.trans_le le)⟩

theorem mono (h : Follows n x y E ts) (into : ∀ ts rest, E ts rest → F ts rest) :
    Follows n x y F ts :=
  ⟨h.toViable.mono into, h.agrees⟩

/-- The second parser has as many tokens less as the first one passes. -/
theorem bind_within [Possible F] (h : Follows n x y E ts)
    (next : ∀ a rest, x ts = .ok a rest →
      Follows (n + rest.length - ts.length) (f a) (g a) F rest) :
    Follows n (x >>= f) (y >>= g) (Then E F) ts where
  toViable := h.toViable.bind fun a rest ran => (next a rest ran).toViable
  agrees {passed t after v} less whole ran after' := by
    rw [bind_apply] at ran ⊢
    cases first : x ts with
    | error e rest =>
      rw [first] at ran
      cases v with
      | ok b => cases ran
      | error e' =>
        cases ran
        rw [h.agrees (v := .error e) less whole first after']
        rfl
    | ok a us =>
      rw [first] at ran
      obtain ⟨before, split⟩ := h.passes (v := .ok a) first
      obtain ⟨between, rfl⟩ := (next a us first).passes ran
      obtain rfl : passed = before ++ between := by
        rw [split, ← List.append_assoc] at whole
        exact (List.append_cancel_right whole).symm
      -- The first parser stops at the same token or at one before it.
      have other : y (before ++ between ++ t :: after') = .ok a (between ++ t :: after') := by
        rw [List.append_assoc]
        cases between with
        | nil => exact h.agrees (v := .ok a) (by simpa using less) split first after'
        | cons u between =>
          refine h.agrees (v := .ok a) ?_ split first (between ++ t :: after')
          simp only [List.length_append, List.length_cons] at less
          omega
      rw [other]
      refine (next a _ first).agrees ?_ rfl ran after'
      simp only [split, List.length_append, List.length_cons] at less ⊢
      omega

theorem bind [Possible F] (h : Follows n x y E ts)
    (next : ∀ a rest, x ts = .ok a rest → Follows n (f a) (g a) F rest) :
    Follows n (x >>= f) (y >>= g) (Then E F) ts := by
  refine h.bind_within fun a rest ran => (next a rest ran).weaken ?_
  obtain ⟨passed, rfl⟩ := h.passes (v := .ok a) ran
  simp only [List.length_append]
  omega

theorem pure {a : α} : Follows n (pure a) (pure a) Eq ts where
  toViable := .pure
  agrees {passed t after v} _ whole ran after' := by
    obtain ⟨rfl, rest⟩ := ok_of_stopped ran
    obtain rfl : passed = [] := by simpa [rest] using whole
    rfl

/-- What a parser yields makes no difference. -/
theorem bind_pure {h : α → β} (hx : Follows n x y E ts) :
    Follows n (x >>= fun a => Pure.pure (h a)) (y >>= fun a => Pure.pure (h a)) E ts :=
  (hx.bind fun _ _ _ => pure).mono fun _ _ ⟨_, first, same⟩ => same ▸ first

theorem map {h : α → β} (hx : Follows n x y E ts) : Follows n (h <$> x) (h <$> y) E ts :=
  hx.bind_pure

theorem throw [Possible E] {e : Expectation} :
    Follows n (throw e : Parser α) (throw e) E ts where
  toViable := .throw
  agrees {passed t after v} _ whole ran after' := by
    cases v with
    | ok a => cases ran
    | error e' =>
      cases ran
      obtain rfl : passed = [] := by simpa using whole
      rfl

section Look

variable {f g : Token.Kind → Parser α} {t : Token}

theorem look (h : Follows n (f (headKind ts)) (g (headKind ts)) E ts) :
    Follows n (current >>= f) (current >>= g) E ts where
  ok := h.ok
  error := h.error
  agrees {passed t after v} less whole ran after' := by
    have same : headKind (passed ++ t :: after') = headKind ts := by
      rw [whole]
      cases passed <;> rfl
    change g (headKind _) _ = _
    rw [same]
    exact h.agrees less whole ran after'

/-- A parser may look behind the first token if it goes past it. It does so if it does not see
which token of its kind the first one is. -/
theorem lookAhead (h : Follows n (f (headKind us)) (g (headKind us)) E (t :: us))
    (viable : ∀ u : Token, u.kind = t.kind → Viable (f (headKind us)) E (u :: us))
    (forgets : ∀ u : Token, u.kind = t.kind →
      f (headKind us) (u :: us) = f (headKind us) (t :: us)) :
    Follows n (following >>= f) (following >>= g) E (t :: us) where
  ok := h.ok
  error := h.error
  agrees {passed t' after v} less whole ran after' := by
    change f (headKind us) (t :: us) = stopped v (t' :: after) at ran
    cases passed with
    | nil =>
      obtain ⟨rfl, rfl⟩ := List.cons.inj whole
      let u : Token := ⟨t.kind, ⟨t.span.start + 1, t.span.stop⟩⟩
      obtain ⟨passed, stays⟩ := (viable u rfl).passes ((forgets u rfl).trans ran)
      obtain rfl : passed = [] := by simpa using congrArg List.length stays
      have start := congrArg (fun t => t.span.start) (List.cons.inj stays).1
      simp [u] at start
    | cons u passed =>
      obtain ⟨rfl, rfl⟩ := List.cons.inj whole
      have same : headKind (passed ++ t' :: after') = headKind (passed ++ t' :: after) := by
        cases passed <;> rfl
      change g (headKind (passed ++ t' :: after')) _ = _
      rw [same]
      exact h.agrees less rfl ran after'

theorem advance (some : headKind ts ≠ .endOfSource) :
    Follows n Parser.advance Parser.advance (Spells [headKind ts]) ts where
  ok u rest ran := by
    cases ts with
    | nil => exact absurd rfl some
    | cons t ts =>
      obtain rfl := advance_ok.mp ran
      exact ⟨[t], rfl, fun rest => ⟨t, rest, rfl, rfl, rfl⟩⟩
  error e rest ran := by cases ran
  agrees {passed t after v} less whole ran after' := by
    obtain ⟨rfl, rest⟩ := ok_of_stopped ran
    obtain ⟨u, rfl⟩ : ∃ u, passed = [u] := by
      have lengths := congrArg List.length rest
      rw [whole] at lengths
      simp only [List.length_tail, List.length_append, List.length_cons] at lengths
      exact List.length_eq_one_iff.mp (by omega)
    rfl

/-- Behind a token whose kind has been seen there is one token less. -/
theorem skip {f g : Unit → Parser α} (seen : headKind ts = k) (some : k ≠ .endOfSource)
    [Possible E] (h : Follows (n - 1) (f ()) (g ()) E ts.tail) :
    Follows n (Parser.advance >>= f) (Parser.advance >>= g) (Then (Spells [k]) E) ts := by
  subst seen
  refine (advance some).bind_within fun _ rest ran => ?_
  obtain rfl := advance_ok.mp ran
  refine h.weaken ?_
  cases ts with
  | nil => exact absurd rfl some
  | cons t ts =>
    simp only [List.tail_cons, List.length_cons]
    omega

end Look

end Follows

/-! ## Parsers from parsers -/

/-- Parsers that go on up to a depth or a number of rounds, which the number of tokens allows. Only
behind a token they need the next depth. -/
theorem follows_upTo {ι : Type} {f g : ι → Nat → Parser α} {E : ι → Extent}
    (zero : ∀ i ts, Viable (f i 0) (E i) ts)
    (succ : ∀ m N M, m ≤ n → (∀ i ts, Follows (m - 1) (f i N) (g i M) (E i) ts) →
      ∀ i ts, Follows m (f i (N + 1)) (g i (M + 1)) (E i) ts) {N M : Nat} (hm : m ≤ n)
    (hN : m ≤ N) (hM : m ≤ M) (i : ι) (ts : List Token) : Follows m (f i N) (g i M) (E i) ts := by
  have viable : ∀ N i ts, Viable (f i N) (E i) ts := by
    intro N
    induction N with
    | zero => exact zero
    | succ N ih => exact fun i ts => (succ 0 N 0 (Nat.zero_le _) (fun i ts => (ih i ts).follows) i
        ts).toViable
  induction m generalizing N M i ts with
  | zero => exact (viable N i ts).follows
  | succ m ih =>
    obtain ⟨N, rfl⟩ := Nat.exists_eq_add_one_of_ne_zero (show N ≠ 0 by omega)
    obtain ⟨M, rfl⟩ := Nat.exists_eq_add_one_of_ne_zero (show M ≠ 0 by omega)
    exact succ (m + 1) N M hm (fun i ts => ih (by omega) (by omega) (by omega) i ts) i ts

/-- The number of tokens is what matters of those that are left. -/
theorem follows_measured {f g : Nat → Parser α}
    (h : ∀ m N M, m ≤ n → m ≤ N → m ≤ M → Follows m (f N) (g M) E ts) :
    Follows n (fun us => f us.length us) (fun us => g us.length us) E ts where
  ok := (h 0 ts.length 0 (Nat.zero_le _) (Nat.zero_le _) (Nat.zero_le _)).ok
  error := (h 0 ts.length 0 (Nat.zero_le _) (Nat.zero_le _) (Nat.zero_le _)).error
  agrees {passed t after v} less whole ran after' := by
    have enough : passed.length + 1 ≤ ts.length := by
      rw [whole, List.length_append, List.length_cons]
      omega
    refine (h (passed.length + 1) ts.length (passed ++ t :: after').length less enough ?_).agrees
      (Nat.lt_succ_self _) whole ran after'
    rw [List.length_append, List.length_cons]
    omega

theorem follows_nested {step : Parser α → Parser α} [Possible (Any D)]
    (sound : ∀ x, Sound x D → Sound (step x) D)
    (h : ∀ n x y, Sound x D → (∀ ts, Follows n x y (Any D) ts) →
      ∀ ts, Follows (n + 1) (step x) (step y) (Any D) ts) :
    Follows n (nested step) (nested step) (Any D) ts := by
  refine follows_measured (f := fun N => Parser.unfold step (N + 1))
    (g := fun N => Parser.unfold step (N + 1)) fun m N M hm hN hM => ?_
  refine follows_upTo (ι := Unit) (f := fun _ => Parser.unfold step)
    (g := fun _ => Parser.unfold step) (E := fun _ => Any D) (n := n) (fun _ _ => .throw) ?_ hm
    (by omega) (by omega) () ts
  intro m N M hm deeper _ ts
  exact (h (m - 1) _ _ (unfold_sound sound N) (deeper ()) ts).weaken (by omega)

theorem follows_chain {operator? : Token.Kind → Option BinaryOp} {x y : Parser Expr}
    {D : Reading Expr} [Possible (Any D)] (hend : operator? .endOfSource = none)
    (h : ∀ ts, Follows n x y (Any D) ts) {left : Expr} :
    Follows n (chain operator? x left) (chain operator? y left) (Chained operator? D) ts := by
  refine follows_measured (f := fun N => chainUpTo operator? x N left)
    (g := fun N => chainUpTo operator? y N left) fun m N M hm hN hM => ?_
  refine follows_upTo (n := n) (E := fun _ => Chained operator? D)
    (f := fun left N => chainUpTo operator? x N left)
    (g := fun left N => chainUpTo operator? y N left) (fun left ts => ?_) ?_ hm hN hM left ts
  · exact Viable.pure.mono fun us rest same left => ⟨left, same ▸ .last⟩
  · intro m N M hm further left ts
    refine .look ?_
    cases found : operator? (headKind ts) with
    | none => exact Follows.pure.mono fun us rest same left => ⟨left, same ▸ .last⟩
    | some op =>
      refine (Follows.skip rfl (operator_ne_end hend found) (((h _).weaken (by omega)).bind
        fun right _ _ => further (.binary op left right) _)).mono ?_
      rintro us rest ⟨vs, ⟨t, _, rfl, kind, rfl⟩, ws, ⟨right, operand⟩, others⟩ left
      obtain ⟨e, chained⟩ := others (.binary op left right)
      exact ⟨e, .more (kind ▸ found) operand chained⟩

theorem follows_many {starts : Token.Kind → Bool} (short : Shortens x)
    (h : ∀ ts, starts (headKind ts) = true → Follows n x y (Any D) ts) :
    Follows n (many starts x) (many starts y) (Any (Repeated D)) ts := by
  refine follows_measured fun m N M hm hN hM => ?_
  refine follows_upTo (ι := Unit) (n := n) (E := fun _ => Any (Repeated D))
    (f := fun _ => manyUpTo starts x) (g := fun _ => manyUpTo starts y) (fun _ ts => ?_) ?_ hm hN
    hM () ts
  · exact Viable.pure.mono fun us rest same => ⟨[], same ▸ .none⟩
  · intro m N M hm further _ ts
    refine .look ?_
    split
    · rename_i first
      refine (((h ts first).weaken hm).bind_within fun a rest ran =>
        ((further () rest).weaken ?_).bind_pure).mono ?_
      · have less := short _ _ _ ran
        omega
      · rintro us rest ⟨vs, ⟨a, item⟩, as, others⟩
        exact ⟨a :: as, .more item others⟩
    · exact Follows.pure.mono fun us rest same => ⟨[], same ▸ .none⟩

theorem separated_of_repeated {a : α} {as : List α} (first : D a ts us)
    (others : Repeated (Further D) as us rest) : Separated D (a :: as) ts rest := by
  induction others generalizing a ts with
  | none => exact .one first
  | more second _ ih =>
    obtain ⟨vs, comma, second⟩ := second
    exact .more first comma (ih second)

theorem follows_commaSeparated [Possible (Any D)] (short : Shortens x)
    (h : ∀ ts, Follows n x y (Any D) ts) :
    Follows n (commaSeparated x) (commaSeparated y) (Any (Separated D)) ts := by
  refine ((h ts).bind fun a rest _ => Follows.bind_pure
    (follows_many (D := Further D) short.behind fun us comma => ?_)).mono ?_
  · refine (Follows.skip (beq_iff_eq.mp comma) (by simp) ((h _).weaken (Nat.sub_le _ _))).mono ?_
    rintro vs rest ⟨ws, spelled, a, item⟩
    exact ⟨a, ws, spelled, item⟩
  · rintro us rest ⟨vs, ⟨a, first⟩, as, others⟩
    exact ⟨a :: as, separated_of_repeated first others⟩

/-! ## Tokens -/

theorem follows_expect (some : k ≠ .endOfSource) :
    Follows n (expect k) (expect k) (Spells [k]) ts := by
  refine .look ?_
  split
  · rename_i seen
    subst seen
    exact .advance some
  · exact .throw

theorem follows_expectAll {ks : List Token.Kind} (some : ∀ k ∈ ks, k ≠ .endOfSource) :
    Follows n (expectAll ks) (expectAll ks) (Spells ks) ts := by
  induction ks generalizing ts with
  | nil => exact Follows.pure.mono fun _ _ same => same
  | cons k ks ih =>
    obtain ⟨first, others⟩ := List.forall_mem_cons.mp some
    refine ((follows_expect first).bind fun _ _ _ => ih others).mono ?_
    rintro us rest ⟨vs, first, others⟩
    exact Spells.cons first others

end Parser

end FlatStack
