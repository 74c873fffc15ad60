import FlatStack.Command.Disk
import Mathlib

/-!
# Disks in order

On a disk in order the working directory is there, and every file stands in a
directory that can be reached. Operations keep disks in order, and there all
of them can be told by the texts under the parts of paths.
-/

set_option autoImplicit false

namespace FlatStack

/-! ## Names in directories -/

namespace Path

variable {dir name : String} {cs ds part : List Char}

/-- A name that is one part of a path. -/
def Plain (name : String) : Prop := '/' ∉ name.toList ∧ name ∉ ["", ".", ".."]

theorem piecesFrom_slash :
    piecesFrom part (cs ++ '/' :: ds) = piecesFrom part cs ++ piecesFrom [] ds := by
  induction cs generalizing part with
  | nil => rfl
  | cons c cs ih =>
    by_cases slash : c = '/'
    · subst slash
      rw [List.cons_append, piecesFrom, piecesFrom, ih, List.cons_append]
    · rw [List.cons_append, piecesFrom, piecesFrom, ih] <;> simpa using slash

theorem piecesFrom_plain (h : '/' ∉ cs) :
    piecesFrom part cs = [String.ofList (part.reverse ++ cs)] := by
  induction cs generalizing part with
  | nil => rw [piecesFrom, List.append_nil]
  | cons c cs ih =>
    obtain ⟨slash, others⟩ := not_or.mp (mt List.mem_cons.mpr h)
    rw [piecesFrom, ih others, List.reverse_cons, List.append_assoc, List.singleton_append]
    simpa using Ne.symm slash

theorem follow_plain (h : Plain name) (parts : List String) : follow parts name = parts ++ [name] := by
  obtain ⟨-, idle⟩ := h
  simp only [List.mem_cons, List.not_mem_nil, or_false, not_or] at idle
  simp [follow, idle]

/-- The pieces of a path, and then a plain name behind a slash. -/
theorem parts_behind (h : Plain name) :
    parts (String.ofList (cs ++ '/' :: name.toList))
      = (piecesFrom [] cs).foldl follow [] ++ [name] := by
  unfold parts
  rw [String.toList_ofList, piecesFrom_slash, piecesFrom_plain h.1, List.foldl_append]
  show follow _ (String.ofList name.toList) = _
  rw [String.ofList_toList, follow_plain h]

theorem relative_plain (h : Plain name) : isAbsolute name = false := by
  unfold isAbsolute
  split
  · rename_i cs whole
    have slash : '/' ∈ name.toList := by simp [whole]
    exact absurd slash h.1
  · rfl

theorem parts_join (h : Plain name) (full : dir.isEmpty = false) :
    parts (join dir name) = parts dir ++ [name] := by
  unfold join
  rw [relative_plain h, full, Bool.or_self, if_neg Bool.false_ne_true]
  by_cases ended : dir.toList.getLast? = some '/'
  · -- The last piece of such a directory is empty.
    obtain ⟨cs, whole⟩ := List.getLast?_eq_some_iff.mp ended
    have joined : dir ++ name = String.ofList (cs ++ '/' :: name.toList) := by
      rw [← String.toList_inj, String.toList_append, whole, String.toList_ofList]
      simp
    have alone : parts dir = (piecesFrom [] cs).foldl follow [] := by
      unfold parts
      rw [whole, piecesFrom_slash, List.foldl_append]
      rfl
    rw [if_pos (by simpa using ended), joined, parts_behind h, alone]
  · have joined : dir ++ "/" ++ name = String.ofList (dir.toList ++ '/' :: name.toList) := by
      rw [← String.toList_inj, String.toList_append, String.toList_append, String.toList_ofList]
      simp
    rw [if_neg (by simpa using ended), joined, parts_behind h]
    rfl

/-- A plain name stands at the end of what it is joined to. -/
theorem join_plain (h : Plain name) :
    namesDirectory (join dir name) = false ∧ (join dir name).isEmpty = false := by
  have full : name.toList ≠ [] := by
    intro empty
    apply h.2
    rw [String.toList_eq_nil_iff.mp empty]
    exact List.mem_cons_self
  obtain ⟨cs, ends⟩ : ∃ cs, (join dir name).toList = cs ++ name.toList := by
    unfold join
    split
    · exact ⟨[], rfl⟩
    · split
      · exact ⟨dir.toList, String.toList_append⟩
      · exact ⟨dir.toList ++ ['/'], by rw [String.toList_append, String.toList_append]; rfl⟩
  constructor
  · unfold namesDirectory
    rw [ends, List.getLast?_append_of_ne_nil _ full, beq_eq_false_iff_ne]
    intro last
    exact h.1 (List.mem_of_getLast? last)
  · rw [Bool.eq_false_iff, ne_eq, String.isEmpty_iff]
    intro empty
    rw [empty] at ends
    exact full (List.append_eq_nil_iff.mp ends.symm).2

end Path

namespace Disk

variable {d d' : Disk} {path : String} {text : String} {parts p q : List String}

/-! ## Nodes and obstacles -/

theorem node?_file : d.node? p = some (.file text) ↔ d.files.lookup p = some text := by
  unfold node?
  split
  · rename_i found
    simp [found]
  · rename_i none
    split <;> simp [none]

theorem node?_directory :
    d.node? p = some .directory ↔ d.files.lookup p = none ∧ (p = [] ∨ p ∈ d.directories) := by
  unfold node?
  split
  · rename_i found
    simp [found]
  · rename_i none
    simp [none, or_iff_not_imp_left]

theorem obstacle?_eq_none :
    d.obstacle? p = none ↔ ∀ a ∈ ancestors p, d.node? a = some .directory := by
  rw [obstacle?, List.findSome?_eq_none_iff]
  refine forall₂_congr fun a _ => ?_
  split <;> simp_all

/-- What following a path comes to, in the order in which it can fail. -/
theorem find_eq (d : Disk) (path : String) : d.find path =
    if path.isEmpty then .error .notFound
    else match d.obstacle? (Path.parts path), d.node? (Path.parts path) with
      | some e, _ => .error e
      | none, none => .error .notFound
      | none, some .directory => .ok .directory
      | none, some (.file text) =>
        if Path.namesDirectory path then .error .notDirectory else .ok (.file text) := by
  unfold find
  by_cases empty : path.isEmpty = true
  · simp only [empty, if_true]
    rfl
  · simp only [empty, Bool.false_eq_true, if_false]
    cases d.obstacle? (Path.parts path) with
    | some e => rfl
    | none =>
      rcases d.node? (Path.parts path) with _ | text | _
      · rfl
      · by_cases names : Path.namesDirectory path = true
        · simp only [names, if_true]
          rfl
        · simp only [names, Bool.false_eq_true, if_false]
          rfl
      · rfl

/-- A file is found under a path if nothing is in the way and the path may name a file. -/
theorem find_file : d.find path = .ok (.file text) ↔ path.isEmpty = false ∧
    d.obstacle? (Path.parts path) = none ∧ d.files.lookup (Path.parts path) = some text ∧
      Path.namesDirectory path = false := by
  rw [← node?_file, find_eq]
  by_cases empty : path.isEmpty = true
  · simp [empty]
  · cases d.obstacle? (Path.parts path) with
    | some e => simp [empty]
    | none =>
      rcases d.node? (Path.parts path) with _ | text | _
      · simp [empty]
      · by_cases names : Path.namesDirectory path = true <;> simp [empty, names]
      · simp [empty]

/-! ## Operations -/

theorem lookup_filter (files : List (List String × String)) :
    (files.filter fun f => f.1 != p).lookup q = if q = p then none else files.lookup q := by
  induction files with
  | nil => simp
  | cons f files ih =>
    by_cases removed : f.1 = p
    · have skip : (f.1 != p) = false := by simpa using removed
      rw [List.filter_cons, skip, if_neg Bool.false_ne_true, ih, List.lookup_cons, removed]
      by_cases same : q = p
      · simp [same]
      · have other : (q == p) = false := by simpa using same
        simp [same, other]
    · have keep : (f.1 != p) = true := by simpa using removed
      rw [List.filter_cons, if_pos keep, List.lookup_cons, List.lookup_cons, ih]
      by_cases same : q = p
      · subst same
        have other : (q == f.1) = false := by simpa using fun h : q = f.1 => removed h.symm
        simp [other]
      · simp only [same, if_false]

@[simp] theorem lookup_put :
    (d.put p text).files.lookup q = if q = p then some text else d.files.lookup q := by
  by_cases same : q = p
  · simp [put, same]
  · have other : (q == p) = false := by simpa using same
    simp [put, List.lookup_cons, other, lookup_filter, same]

theorem read_ok : d.read path = .ok text ↔ d.find path = .ok (.file text) := by
  unfold read
  rcases d.find path with e | text' | _
  · exact iff_of_false (by rintro ⟨⟩) (by simp)
  · change Except.ok text' = _ ↔ _
    simp
  · exact iff_of_false (by rintro ⟨⟩) (by simp)

/-- What a write that succeeds has met. -/
theorem write_ok (h : d.write path text = .ok d') : path.isEmpty = false ∧
    Path.namesDirectory path = false ∧ d.obstacle? (Path.parts path) = none ∧
      d.node? (Path.parts path) ≠ some .directory ∧ d' = d.put (Path.parts path) text := by
  unfold write at h
  split at h
  · cases h
  · rename_i old found
    obtain ⟨full, clear, node, names⟩ := find_file.mp found
    exact ⟨full, names, clear, by simp [node?_file.mpr node], (Except.ok.inj h).symm⟩
  · rename_i missing
    split at h
    · cases h
    · rename_i reachable
      split at h
      · cases h
      · rename_i names
        obtain ⟨full, clear⟩ : path.isEmpty = false ∧ d.obstacle? (Path.parts path) = none := by
          simpa using reachable
        refine ⟨full, by simpa using names, clear, fun directory => ?_, (Except.ok.inj h).symm⟩
        rw [find_eq] at missing
        simp [full, clear, directory] at missing
  · cases h

theorem remove_ok (h : d.remove path = .ok d') :
    d' = { d with files := d.files.filter fun f => f.1 != Path.parts path } := by
  unfold remove at h
  rcases found : d.find path with e | old | _
  · rw [found] at h
    cases h
  · rw [found] at h
    exact (Except.ok.inj h).symm
  · rw [found] at h
    cases h

theorem makeDirectories_ok {paths : List (List String)} (h : d.makeDirectories paths = .ok d') :
    d'.files = d.files ∧ d.directories ⊆ d'.directories ∧
      ∀ p ∈ d'.directories, p ∈ d.directories ∨ p ∈ paths := by
  induction paths generalizing d with
  | nil =>
    obtain rfl := Except.ok.inj h
    exact ⟨rfl, fun _ => id, fun p => .inl⟩
  | cons path paths ih =>
    rw [makeDirectories] at h
    split at h
    · obtain ⟨files, more, new⟩ := ih h
      exact ⟨files, more, fun p hp => (new p hp).imp_right (List.mem_cons_of_mem _)⟩
    · cases h
    · obtain ⟨files, more, new⟩ := ih h
      refine ⟨files, fun p hp => more (List.mem_cons_of_mem _ hp), fun p hp => ?_⟩
      rcases new p hp with old | added
      · rcases List.mem_cons.mp old with rfl | old
        · exact .inr List.mem_cons_self
        · exact .inl old
      · exact .inr (List.mem_cons_of_mem _ added)

/-- New directories lie on the way to the path. -/
theorem createDirectories_ok (h : d.createDirectories path = .ok d') :
    d'.files = d.files ∧ d.directories ⊆ d'.directories ∧
      ∀ p ∈ d'.directories, p ∈ d.directories ∨ p <+: Path.parts path := by
  obtain ⟨files, more, new⟩ := makeDirectories_ok h
  refine ⟨files, more, fun p hp => (new p hp).imp_right fun added => ?_⟩
  rcases List.mem_append.mp added with ancestor | last
  · obtain ⟨n, _, rfl⟩ := List.mem_map.mp ancestor
    exact List.take_prefix n _
  · rw [List.mem_singleton.mp last]

/-! ## Order -/

/-- The working directory is no file, and on the way to each file there are directories only. -/
structure Rooted (d : Disk) : Prop where
  root : d.files.lookup [] = none
  placed : ∀ {p : List String} {text : String}, d.files.lookup p = some text →
    d.obstacle? p = none

namespace Rooted

theorem read_iff (h : d.Rooted) : d.read path = .ok text ↔ path.isEmpty = false ∧
    Path.namesDirectory path = false ∧ d.files.lookup (Path.parts path) = some text := by
  rw [read_ok, find_file]
  constructor
  · rintro ⟨full, _, found, names⟩
    exact ⟨full, names, found⟩
  · rintro ⟨full, names, found⟩
    exact ⟨full, h.placed found, found, names⟩

/-- What cannot be removed because it is missing is not there. -/
theorem missing (h : d.Rooted) (full : path.isEmpty = false)
    (isFile : Path.namesDirectory path = false) (missing : d.remove path = .error .notFound) :
    d.files.lookup (Path.parts path) = none := by
  by_contra there
  obtain ⟨text, found⟩ := Option.ne_none_iff_exists'.mp there
  have seen := find_file.mpr ⟨full, h.placed found, found, isFile⟩
  unfold Disk.remove at missing
  rw [seen] at missing
  cases missing

theorem root_directory (h : d.Rooted) : d.node? [] = some .directory :=
  node?_directory.mpr ⟨h.root, .inl rfl⟩

/-- Directories that stay directories keep the way to a file free. -/
theorem of_directories (root : d'.files.lookup [] = none)
    (placed : ∀ {p text}, d'.files.lookup p = some text → d.obstacle? p = none)
    (kept : ∀ a, d.node? a = some .directory → d'.node? a = some .directory) : d'.Rooted := by
  refine ⟨root, fun {p text} found => ?_⟩
  rw [obstacle?_eq_none]
  intro a ha
  exact kept a (obstacle?_eq_none.mp (placed found) a ha)

theorem put (h : d.Rooted) (clear : d.obstacle? p = none) (free : d.node? p ≠ some .directory) :
    (d.put p text).Rooted := by
  have inside : p ≠ [] := by
    rintro rfl
    exact free h.root_directory
  refine of_directories (d := d) ?_ ?_ ?_
  · rw [lookup_put, if_neg (Ne.symm inside), h.root]
  · intro q text found
    by_cases same : q = p
    · rw [same, clear]
    · rw [lookup_put, if_neg same] at found
      exact h.placed found
  · intro a directory
    have other : a ≠ p := by
      rintro rfl
      exact free directory
    rw [node?_directory] at directory ⊢
    rw [lookup_put, if_neg other]
    exact directory

theorem write (h : d.Rooted) (written : d.write path text = .ok d') : d'.Rooted := by
  obtain ⟨_, _, clear, free, rfl⟩ := write_ok written
  exact h.put clear free

theorem remove (h : d.Rooted) (removed : d.remove path = .ok d') : d'.Rooted := by
  rw [remove_ok removed]
  refine of_directories (d := d) ?_ ?_ ?_
  · rw [lookup_filter]
    split
    · rfl
    · exact h.root
  · intro q text found
    rw [lookup_filter] at found
    split at found
    · cases found
    · exact h.placed found
  · intro a directory
    rw [node?_directory] at directory ⊢
    rw [lookup_filter, directory.1]
    exact ⟨ite_self none, directory.2⟩

theorem createDirectories (h : d.Rooted) (created : d.createDirectories path = .ok d') :
    d'.Rooted := by
  obtain ⟨files, more, _⟩ := createDirectories_ok created
  refine of_directories (d := d) ?_ ?_ ?_
  · rw [files, h.root]
  · intro q text found
    rw [files] at found
    exact h.placed found
  · intro a directory
    rw [node?_directory] at directory ⊢
    rw [files]
    exact ⟨directory.1, directory.2.imp_right (more ·)⟩

end Rooted

end Disk

end FlatStack
