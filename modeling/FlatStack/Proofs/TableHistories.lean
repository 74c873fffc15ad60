import FlatStack.Proofs.Tables

/-!
# What tables remember

A table is what has been asked of it made of the empty one. No address is
handed out that was taken before, the first symbol under a name stays there,
and what is set later is found at it. A scope is a chain of such tables, each
with a history of its own.
-/

set_option autoImplicit false

namespace FlatStack

/-! ## Requests to a table -/

namespace Table

/-- What changes a table. -/
inductive Request where
  | allocate
  | reserveThrough (address : Nat)
  | register (symbol : Symbol)
  | setEntry (name : String) (entry : Nat)
  | setSlotCount (name : String) (slotCount : Nat)
  deriving DecidableEq, Repr

def perform (t : Table) : Request → Table
  | .allocate => t.allocate.2
  | .reserveThrough address => t.reserveThrough address
  | .register symbol => t.register symbol
  | .setEntry name entry => t.setEntry name entry
  | .setSlotCount name slotCount => t.setSlotCount name slotCount

def performAll (t : Table) (rs : List Request) : Table := rs.foldl perform t

namespace Request

/-- The address that a request hands out or reserves. -/
def takes? (t : Table) : Request → Option Nat
  | .allocate => some t.allocate.1
  | .reserveThrough address => some address
  | _ => none

/-- The symbol that a request offers for a name. -/
def offers? (name : String) : Request → Option Symbol
  | .register symbol => if symbol.name = name then some symbol else none
  | _ => none

/-- What a request makes of a symbol that is there already. -/
def amend : Request → Symbol → Symbol
  | .setEntry name entry, s => if s.name = name then { s with entry := some entry } else s
  | .setSlotCount name slotCount, s => if s.name = name then { s with slotCount } else s
  | _, s => s

def amendAll (rs : List Request) (s : Symbol) : Symbol := rs.foldl (fun s r => r.amend s) s

end Request

open Request

/-- The addresses that have been handed out or reserved. -/
def taken : Table → List Request → List Nat
  | _, [] => []
  | t, r :: rs => (r.takes? t).toList ++ taken (t.perform r) rs

/-- The symbol that was first registered under a name, with all that was set later. -/
def recorded? (name : String) : List Request → Option Symbol
  | [] => none
  | r :: rs => ((r.offers? name).map (amendAll rs)).or (recorded? name rs)

variable {t : Table} {r : Request} {rs : List Request} {s : Symbol} {name other : String} {a : Nat}

/-! ## Addresses -/

theorem nextAddress_register : (t.register s).nextAddress = t.nextAddress := by
  unfold register register?
  split <;> rfl

theorem nextAddress_perform (t : Table) (r : Request) :
    t.nextAddress ≤ (t.perform r).nextAddress := by
  cases r with
  | allocate => exact Nat.le_succ _
  | reserveThrough address => exact Nat.le_max_left _ _
  | register s => exact nextAddress_register.ge
  | setEntry name entry => exact Nat.le_refl _
  | setSlotCount name slotCount => exact Nat.le_refl _

theorem takes?_lt (h : r.takes? t = some a) : a < (t.perform r).nextAddress := by
  cases r with
  | allocate =>
    obtain rfl := Option.some.inj h
    exact Nat.lt_succ_self _
  | reserveThrough address =>
    obtain rfl := Option.some.inj h
    exact Nat.le_max_right _ _
  | register s => cases h
  | setEntry name entry => cases h
  | setSlotCount name slotCount => cases h

theorem nextAddress_performAll (t : Table) (rs : List Request) :
    t.nextAddress ≤ (t.performAll rs).nextAddress := by
  induction rs generalizing t with
  | nil => exact Nat.le_refl _
  | cons r rs ih => exact (nextAddress_perform t r).trans (ih _)

/-- The next address lies above all that have been taken. -/
theorem taken_lt (h : a ∈ taken t rs) : a < (t.performAll rs).nextAddress := by
  induction rs generalizing t with
  | nil => cases h
  | cons r rs ih =>
    rcases List.mem_append.mp h with now | later
    · exact (takes?_lt (Option.mem_toList.mp now)).trans_le (nextAddress_performAll _ rs)
    · exact ih later

/-! ## Symbols -/

theorem name_amend (r : Request) (s : Symbol) : (r.amend s).name = s.name := by
  unfold amend
  split
  · split <;> rfl
  · split <;> rfl
  · rfl

theorem has_eq_false : t.has name = false ↔ t.find? name = none := by
  rw [has, Option.isSome_eq_false_iff, Option.isNone_iff_eq_none]

theorem register_of_taken (h : t.has s.name = true) :
    t.register? s = none ∧ t.register s = t := by
  have refused : t.register? s = none := if_pos h
  exact ⟨refused, by rw [register, refused]; rfl⟩

theorem register?_of_free (h : t.has s.name = false) :
    t.register? s = some { t with symbols := t.symbols ++ [s] } := by
  rw [register?, h]
  rfl

/-- Only the name of the symbol is found otherwise than before. -/
theorem find?_register (t : Table) (s : Symbol) (name : String) :
    (t.register s).find? name
      = (t.find? name).or (if s.name = name then some s else none) := by
  by_cases present : t.has s.name = true
  · rw [(register_of_taken present).2]
    by_cases same : s.name = name
    · obtain ⟨known, found⟩ := Option.isSome_iff_exists.mp (same ▸ present)
      rw [found]
      rfl
    · rw [if_neg same, Option.or_none]
  · rw [register, register?_of_free (by simpa using present), Option.getD_some, find?, find?,
      List.find?_append]
    by_cases same : s.name = name <;> simp [same]

/-- A request that offers nothing and amends nothing leaves all symbols as they are. -/
theorem find?_idle (same : (t.perform r).symbols = t.symbols) (none : r.offers? name = none)
    (idle : r.amend = id) :
    (t.perform r).find? name = ((t.find? name).map r.amend).or (r.offers? name) := by
  rw [none, idle, Option.map_id, Option.or_none, find?, same]
  rfl

theorem find?_perform (t : Table) (r : Request) (name : String) :
    (t.perform r).find? name = ((t.find? name).map r.amend).or (r.offers? name) := by
  cases r with
  | allocate => exact find?_idle rfl rfl rfl
  | reserveThrough address => exact find?_idle rfl rfl rfl
  | register s =>
    have idle : Request.amend (.register s) = id := rfl
    rw [idle, Option.map_id]
    exact find?_register t s name
  | setEntry other entry =>
    have none : (Request.setEntry other entry).offers? name = none := rfl
    rw [none, Option.or_none]
    exact find?_modify fun _ => rfl
  | setSlotCount other slotCount =>
    have none : (Request.setSlotCount other slotCount).offers? name = none := rfl
    rw [none, Option.or_none]
    exact find?_modify fun _ => rfl

/-- A symbol that is there is amended, and otherwise the first one that is registered. -/
theorem find?_performAll (t : Table) (rs : List Request) (name : String) :
    (t.performAll rs).find? name = ((t.find? name).map (amendAll rs)).or (recorded? name rs) := by
  induction rs generalizing t with
  | nil =>
    have idle : amendAll [] = id := rfl
    rw [idle, Option.map_id, recorded?, Option.or_none]
    rfl
  | cons r rs ih =>
    change ((t.perform r).performAll rs).find? name = _
    rw [ih, find?_perform, recorded?]
    cases t.find? name <;> cases r.offers? name <;> rfl

/-! ## Names in order -/

/-- No name has two symbols. -/
def Distinct (t : Table) : Prop := (t.symbols.map (·.name)).Nodup

namespace Distinct

theorem register (h : t.Distinct) (s : Symbol) : (t.register s).Distinct := by
  by_cases present : t.has s.name = true
  · rwa [(register_of_taken present).2]
  · rw [Table.register, register?_of_free (by simpa using present), Option.getD_some, Distinct,
      List.map_append, List.map_singleton]
    refine List.Nodup.append h (List.nodup_singleton _) ?_
    rw [List.disjoint_singleton]
    simpa [has, find?] using present

theorem modify (h : t.Distinct) {change : Symbol → Symbol}
    (keeps : ∀ s, (change s).name = s.name) : (t.modify name change).Distinct := by
  have names : (t.modify name change).symbols.map (·.name) = t.symbols.map (·.name) := by
    rw [Table.modify, List.map_map]
    refine List.map_congr_left fun s _ => ?_
    by_cases here : s.name = name <;> simp [here, keeps]
  rw [Distinct, names]
  exact h

theorem perform (h : t.Distinct) (r : Request) : (t.perform r).Distinct := by
  cases r with
  | allocate => exact h
  | reserveThrough address => exact h
  | register s => exact h.register s
  | setEntry name entry => exact h.modify fun _ => rfl
  | setSlotCount name slotCount => exact h.modify fun _ => rfl

theorem performAll (h : t.Distinct) (rs : List Request) : (t.performAll rs).Distinct := by
  induction rs generalizing t with
  | nil => exact h
  | cons r rs ih => exact ih (h.perform r)

theorem mem_iff (h : t.Distinct) : s ∈ t.symbols ↔ t.find? s.name = some s :=
  ⟨find?_named Symbol.name h, List.mem_of_find?_eq_some⟩

theorem sorted (h : t.Distinct) : t.sorted.Pairwise fun s u => s.name < u.name := by
  have ordered : t.sorted.Pairwise fun s u => decide (s.name ≤ u.name) = true :=
    List.pairwise_mergeSort
      (fun s u v first second =>
        decide_eq_true ((of_decide_eq_true first).trans (of_decide_eq_true second)))
      (fun s u => by simpa using le_total s.name u.name) t.symbols
  have apart : (t.sorted.map (·.name)).Nodup :=
    ((List.mergeSort_perm t.symbols _).map _).nodup_iff.mpr h
  refine (ordered.and (List.pairwise_map.mp apart)).imp fun ⟨le, ne⟩ => ?_
  exact lt_of_le_of_ne (by simpa using le) ne

end Distinct

theorem mem_sorted : s ∈ t.sorted ↔ s ∈ t.symbols := List.mem_mergeSort

end Table

/-! ## Requests to a scope -/

namespace Scope

/-- What is asked of a scope: something of its own table, or another scope in its place. -/
inductive Request where
  | own (request : Table.Request)
  /-- An empty scope inside. -/
  | child (name : String)
  /-- The scope around, if there is one. -/
  | leave
  /-- The own table without those around. -/
  | detach
  deriving DecidableEq, Repr

def perform (s : Scope) : Request → Scope
  | .own r => { s with table := s.table.perform r }
  | .child name => s.inside name
  | .leave =>
    match s.outer with
    | [] => s
    | t :: ts => ⟨t, ts⟩
  | .detach => ofTable s.table

/-- The scope after some requests to an outermost one. -/
def history (root : String) (rs : List Request) : Scope :=
  rs.foldl perform (ofTable (.empty root))

/-- All that has been asked of one table. -/
structure Past where
  name : String
  requests : List Table.Request
  deriving DecidableEq, Repr

def Past.table (p : Past) : Table := (Table.empty p.name).performAll p.requests

/-- The pasts of the tables of a scope. -/
structure Pasts where
  own : Past
  around : List Past
  deriving DecidableEq, Repr

namespace Pasts

def perform (p : Pasts) : Request → Pasts
  | .own r => { p with own := ⟨p.own.name, p.own.requests ++ [r]⟩ }
  | .child name => ⟨⟨name, []⟩, p.own :: p.around⟩
  | .leave =>
    match p.around with
    | [] => p
    | q :: qs => ⟨q, qs⟩
  | .detach => ⟨p.own, []⟩

def after (root : String) (rs : List Request) : Pasts := rs.foldl perform ⟨⟨root, []⟩, []⟩

def scope (p : Pasts) : Scope := ⟨p.own.table, p.around.map Past.table⟩

theorem scope_perform (p : Pasts) (r : Request) : (p.perform r).scope = p.scope.perform r := by
  cases r with
  | own r =>
    have last : Past.table ⟨p.own.name, p.own.requests ++ [r]⟩ = p.own.table.perform r := by
      rw [Past.table, Table.performAll, List.foldl_append]
      rfl
    rw [perform, scope, last]
    rfl
  | child name => rfl
  | leave =>
    obtain ⟨own, _ | ⟨q, qs⟩⟩ := p
    · rfl
    · rfl
  | detach => rfl

/-- Each table of a scope is what has been asked of it made of the empty one. -/
theorem scope_after (root : String) (rs : List Request) :
    (after root rs).scope = history root rs := by
  have replay : ∀ p : Pasts, (rs.foldl perform p).scope = rs.foldl Scope.perform p.scope := by
    induction rs with
    | nil => exact fun _ => rfl
    | cons r rs ih =>
      intro p
      rw [List.foldl_cons, List.foldl_cons, ih, scope_perform]
  exact replay ⟨⟨root, []⟩, []⟩

end Pasts

theorem Past.distinct (p : Past) : p.table.Distinct :=
  Table.Distinct.performAll (t := .empty p.name) List.nodup_nil p.requests

theorem Past.find?_table (p : Past) (name : String) :
    p.table.find? name = Table.recorded? name p.requests := by
  rw [Past.table, Table.find?_performAll]
  rfl

/-- What a scope keeps of what has been asked of its tables. -/
structure Remembers (s : Scope) (p : Pasts) : Prop where
  /-- The next address lies above all that were handed out or reserved in the own table. -/
  fresh : ∀ a ∈ Table.taken (.empty p.own.name) p.own.requests, a < s.table.allocate.1
  held : ∀ name, s.table.find? name = Table.recorded? name p.own.requests
  /-- Of the tables that have a name the nearest counts, and there the first symbol does. -/
  nearest : ∀ name, s.lookup? name
    = (p.own :: p.around).findSome? fun q => Table.recorded? name q.requests
  refused : ∀ symbol, s.table.has symbol.name = true →
    s.table.register? symbol = none ∧ s.perform (.own (.register symbol)) = s
  registered : ∀ symbol, s.table.has symbol.name = false → ∃ t,
    s.table.register? symbol = some t ∧ s.perform (.own (.register symbol)) = ⟨t, s.outer⟩ ∧
      t.name = s.table.name ∧ t.nextAddress = s.table.nextAddress ∧
      (⟨t, s.outer⟩ : Scope).lookup? symbol.name = some symbol ∧
      ∀ name, name ≠ symbol.name → (⟨t, s.outer⟩ : Scope).lookup? name = s.lookup? name
  /-- A table that is detached has its own symbols, no others, and goes on with its addresses. -/
  detached : (∀ name, (s.perform .detach).lookup? name = s.table.find? name) ∧
    (s.perform .detach).table = s.table
  sorted : s.table.sorted.Pairwise fun symbol later => symbol.name < later.name
  listed : ∀ symbol, symbol ∈ s.table.sorted ↔ s.table.find? symbol.name = some symbol

variable {s : Scope} {p : Pasts} {symbol : Symbol} {name : String}

theorem lookup?_eq (s : Scope) (name : String) : s.lookup? name
    = (s.table.find? name).or (s.outer.findSome? fun t => t.find? name) := by
  rw [lookup?, List.findSome?_cons]
  cases s.table.find? name <;> rfl

theorem lookup?_detach (s : Scope) (name : String) :
    (s.perform .detach).lookup? name = s.table.find? name := by
  rw [lookup?_eq]
  exact Option.or_none

theorem Pasts.lookup?_scope (p : Pasts) (name : String) : p.scope.lookup? name
    = (p.own :: p.around).findSome? fun q => Table.recorded? name q.requests := by
  have tables : p.scope.table :: p.scope.outer = (p.own :: p.around).map Past.table := rfl
  rw [lookup?, tables, List.findSome?_map]
  exact congrArg (fun f => List.findSome? f _) (funext fun q => q.find?_table name)

/-- Where a name is free, registering it concerns no other name. -/
theorem register_free (free : s.table.has symbol.name = false) : ∃ t,
    s.table.register? symbol = some t ∧ s.perform (.own (.register symbol)) = ⟨t, s.outer⟩ ∧
      t.name = s.table.name ∧ t.nextAddress = s.table.nextAddress ∧
      (⟨t, s.outer⟩ : Scope).lookup? symbol.name = some symbol ∧
      ∀ name, name ≠ symbol.name → (⟨t, s.outer⟩ : Scope).lookup? name = s.lookup? name := by
  have added := Table.register?_of_free free
  have table : s.table.register symbol
      = { s.table with symbols := s.table.symbols ++ [symbol] } := by
    rw [Table.register, added]
    rfl
  refine ⟨_, added, congrArg (fun t => Scope.mk t s.outer) table, rfl, rfl, ?_, fun name ne => ?_⟩
  · rw [lookup?_eq, ← table, Table.find?_register, Table.has_eq_false.mp free, if_pos rfl]
    rfl
  · rw [lookup?_eq, ← table, Table.find?_register, if_neg (Ne.symm ne), Option.or_none, lookup?_eq]

theorem Pasts.remembers (p : Pasts) : p.scope.Remembers p where
  fresh _ := Table.taken_lt
  held := p.own.find?_table
  nearest := p.lookup?_scope
  refused _ present :=
    ⟨(Table.register_of_taken present).1,
      congrArg (fun t => Scope.mk t p.scope.outer) (Table.register_of_taken present).2⟩
  registered _ := register_free
  detached := ⟨lookup?_detach p.scope, rfl⟩
  sorted := p.own.distinct.sorted
  listed _ := Table.mem_sorted.trans p.own.distinct.mem_iff

end Scope

/-- Whatever is asked of a scope and of scopes inside it, the scope remembers it. -/
theorem scopes_remember (root : String) (rs : List Scope.Request) :
    (Scope.history root rs).Remembers (Scope.Pasts.after root rs) :=
  Scope.Pasts.scope_after root rs ▸ Scope.Pasts.remembers (Scope.Pasts.after root rs)

end FlatStack
