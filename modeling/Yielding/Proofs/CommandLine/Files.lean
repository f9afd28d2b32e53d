import Mathlib.Data.List.Basic
import Mathlib.Data.List.Induction
import Yielding.CommandLine.Run

/-!
# Proofs/CommandLine/Files — putting modules into a directory

Writing a file changes one spot of a tree, and that spot was no directory: so every path that led
somewhere leads there still (`follow_insert`).  Hence modules that are put into one directory are
put there one by one (`take_intoDirectory`), and of the modules of one name the last stays
(`entry?_putAll`).
-/

namespace Yielding

open List

/-! ## Trees -/

namespace FileTree

variable {t : FileTree} {s : Spot} {dir : Path}
variable {parts : List String} {x : Spot}

theorem entry?_insert (t : FileTree) {s : Spot} (hs : s.isTop = false) (e : Entry) (x : Spot) :
    FileTree.entry? (t.insert s e) x = if x = s then some e else t.entry? x := by
  have hlookup : ∀ entries : List (Spot × Entry),
      (entries.filter (·.1 ≠ s) ++ [(s, e)]).lookup x =
        if x = s then some e else entries.lookup x := by
    intro entries
    induction entries with
    | nil =>
      by_cases hx : x = s
      · simp [hx]
      · simp [lookup_cons, beq_false_of_ne hx, hx]
    | cons d entries ih =>
      by_cases hd : d.1 = s
      · rw [filter_cons_of_neg (by simpa using hd), ih]
        by_cases hx : x = s
        · rw [if_pos hx, if_pos hx]
        · rw [if_neg hx, if_neg hx, lookup_cons, beq_false_of_ne (hd ▸ hx)]
      · rw [filter_cons_of_pos (by simpa using hd), cons_append, lookup_cons, ih, lookup_cons]
        by_cases hx : x = s
        · simp [hx, beq_false_of_ne (Ne.symm hd)]
        · simp [hx]
  rw [insert, entry?, entry?, hlookup]
  by_cases hx : x = s
  · simp [hx, hs]
  · rw [if_neg hx, if_neg hx]

theorem isTop_of_ne (hs : t.entry? s ≠ some .directory) : s.isTop = false := by
  by_contra htop
  exact hs (by simp [htop, entry?])

/-- A file put where there was no directory leads every path that led somewhere to where it led. -/
theorem follow_insert (hs : t.entry? s ≠ some .directory) (bytes : List UInt8) {x y : Spot}
    (h : t.follow x parts = .ok y) : (t.insert s (.file bytes)).follow x parts = .ok y := by
  have htop := isTop_of_ne hs
  induction parts generalizing x with
  | nil => exact h
  | cons part parts ih =>
    rw [follow] at h ⊢
    rw [entry?_insert t htop, entry?_insert t htop]
    split at h
    · cases h
    · cases h
    · next hx =>
      rw [if_neg (by rintro rfl; exact hs hx), hx]
      split at h
      · next hup => exact (if_pos hup).trans (ih h)
      · next hup =>
        dsimp only
        rw [if_neg hup]
        split at h
        · cases h
        · next hpart =>
          rw [hpart]
          by_cases hnew : x ++ [part] = s
          · rw [if_pos hnew]
            exact ih h
          · rw [if_neg hnew]
            exact ih h

theorem follow_append {parts rest : List String} :
    t.follow x (parts ++ rest) = t.follow x parts >>= fun y => t.follow y rest := by
  induction parts generalizing x with
  | nil => rfl
  | cons part parts ih =>
    rw [cons_append, follow, follow]
    split
    · rfl
    · rfl
    · split
      · exact ih
      · split
        · rfl
        · exact ih

/-- The path leads to a directory, at the given spot. -/
def Holds (t : FileTree) (dir : Path) (s : Spot) : Prop :=
  t.locate dir = .ok s ∧ t.entry? s = some .directory

theorem Holds.insert (h : t.Holds dir s) (hx : t.entry? x ≠ some .directory)
    (bytes : List UInt8) : (t.insert x (.file bytes)).Holds dir s := by
  refine ⟨follow_insert hx bytes h.1, ?_⟩
  rw [entry?_insert t (isTop_of_ne hx), if_neg (by rintro rfl; exact hx h.2), h.2]

variable {name : String}

theorem follow_concat (hname : name ≠ "..") {x y : Spot} :
    t.follow x (parts ++ [name]) = .ok y ↔ ∃ s, t.follow x parts = .ok s ∧
      t.entry? s = some .directory ∧ (t.entry? (s ++ [name])).isSome ∧ y = s ++ [name] := by
  rw [follow_append]
  cases t.follow x parts with
  | error => simp [bind, Except.bind]
  | ok s =>
    simp only [bind, Except.bind, follow, if_neg hname, Except.ok.injEq, exists_eq_left']
    cases t.entry? s with
    | none => simp
    | some e =>
      cases e with
      | file => simp
      | directory => cases t.entry? (s ++ [name]) <;> simp [eq_comm]

theorem target_concat (hname : name ≠ "..") {root : String} :
    t.target ⟨root, parts ++ [name]⟩ = .ok x ↔ ∃ s, t.Holds ⟨root, parts⟩ s ∧ x = s ++ [name] := by
  have hlast : (parts ++ [name]).getLast? = some name := getLast?_concat
  have hlocate : t.locate ⟨root, parts⟩ =
      t.follow (Path.start ⟨root, parts ++ [name]⟩) (parts ++ [name]).dropLast := by
    rw [dropLast_concat]
    rfl
  simp only [target, hlast, Holds, hlocate]
  cases t.follow (Path.start ⟨root, parts ++ [name]⟩) (parts ++ [name]).dropLast with
  | error => simp [bind, Except.bind]
  | ok s =>
    simp only [bind, Except.bind, Except.ok.injEq, and_assoc, exists_eq_left']
    cases t.entry? s with
    | none => simp
    | some e => cases e <;> simp [eq_comm, pure, Except.pure]

theorem target_of_holds (h : t.Holds dir s) : t.target dir = .ok s := by
  obtain ⟨root, parts⟩ := dir
  obtain rfl | ⟨init, name, rfl⟩ := parts.eq_nil_or_concat'
  · exact h.1
  · by_cases hname : name = ".."
    · subst hname
      rw [target]
      simpa using h.1
    · obtain ⟨x, hx, hdirectory, -, rfl⟩ := (follow_concat hname).1 h.1
      exact (target_concat hname).2 ⟨x, ⟨hx, hdirectory⟩, rfl⟩

theorem read_child (h : t.Holds dir s) (hname : name ≠ "..") {bytes : List UInt8}
    (hentry : t.entry? (s ++ [name]) = some (.file bytes)) :
    t.read (dir.child name) = .ok bytes := by
  have hlocate : t.locate (dir.child name) = .ok (s ++ [name]) :=
    (follow_concat hname).2 ⟨s, h.1, h.2, by rw [hentry]; rfl, rfl⟩
  rw [read, hlocate]
  simp only [bind, Except.bind, hentry]
  rfl

/-- A file can be written at the path. -/
def Takes (t : FileTree) (p : Path) : Prop :=
  ∃ x, t.target p = .ok x ∧ t.entry? x ≠ some .directory

theorem write_of_target {p : Path} (h : t.target p = .ok x)
    (hx : t.entry? x ≠ some .directory) (bytes : List UInt8) :
    t.write p bytes = .ok (t.insert x (.file bytes)) := by
  simp only [write, h, bind, Except.bind]
  rfl

theorem takes_child (hname : name ≠ "..") :
    t.Takes (dir.child name) ↔ ∃ s, t.Holds dir s ∧ t.entry? (s ++ [name]) ≠ some .directory := by
  constructor
  · rintro ⟨x, hx, hentry⟩
    obtain ⟨s, hs, rfl⟩ := (target_concat hname).1 hx
    exact ⟨s, hs, hentry⟩
  · rintro ⟨s, hs, hentry⟩
    exact ⟨s ++ [name], (target_concat hname).2 ⟨s, hs, rfl⟩, hentry⟩

/-- A directory that is there is not made again. -/
theorem makeDirectories_of_holds (h : t.Holds dir s) : t.makeDirectories dir = .ok t := by
  have hensure : t.ensureDirectory dir = .ok t := by
    have hmake : t.makeDirectory dir = .error .occupied := by
      simp only [makeDirectory, target_of_holds h, bind, Except.bind, h.2]
      rfl
    have hthere : t.isDirectory dir = true := by simp [isDirectory, h.1, h.2]
    simp only [ensureDirectory, hmake, hthere, if_true]
  obtain ⟨root, parts⟩ := dir
  rw [makeDirectories]
  cases hparts : parts.reverse with
  | nil =>
    obtain rfl : parts = [] := by simpa using hparts
    exact hensure
  | cons part rest =>
    rw [ensureDirectories, ← hparts, reverse_reverse]
    simp only [hensure]

end FileTree

/-! ## Modules -/

namespace CommandLine

open FileTree

theorem moduleName_ne {p : Path} {name : String} (h : name.length < 3) : moduleName p ≠ name := by
  rintro rfl
  rw [moduleName, String.length_append] at h
  have hend : ".py".length = 3 := rfl
  omega

/-- A module, by the path of its source and its text. -/
abbrev Module := Path × String

/-- The steps that put modules into a directory. -/
def intoDirectory (dir : Path) (modules : List Module) : List Step :=
  modules.flatMap fun m => [.makeDirectories dir, .write (dir.child (moduleName m.1)) m.2]

/-- The tree with modules put at a spot, one after the other, each by its name. -/
def putAll (s : Spot) (t : FileTree) (modules : List Module) : FileTree :=
  modules.foldl (fun t m => t.insert (s ++ [moduleName m.1]) (.file (Text.toBytes m.2))) t

/-- No directory has the name of one of the modules. -/
def Vacant (t : FileTree) (s : Spot) (modules : List Module) : Prop :=
  ∀ m ∈ modules, t.entry? (s ++ [moduleName m.1]) ≠ some .directory

variable {t : FileTree} {s : Spot} {dir : Path} {modules : List Module}

theorem isTop_moduleName (s : Spot) (p : Path) : Spot.isTop (s ++ [moduleName p]) = false := by
  have hup : moduleName p ≠ ".." := moduleName_ne (by decide)
  have hslash : s ++ [moduleName p] ≠ ["/"] := by
    intro h
    obtain ⟨-, h⟩ := append_inj' (h.trans (nil_append _).symm) rfl
    exact moduleName_ne (by decide) (singleton_inj.1 h)
  simp [Spot.isTop, hup, hslash]

theorem vacant_insert {p : Path} (hp : t.entry? (s ++ [moduleName p]) ≠ some .directory)
    (bytes : List UInt8) :
    Vacant (t.insert (s ++ [moduleName p]) (.file bytes)) s modules ↔ Vacant t s modules := by
  refine forall₂_congr fun m _ => not_congr ?_
  rw [entry?_insert t (isTop_moduleName s p)]
  split
  · next h => simp [h, hp]
  · rfl

theorem intoDirectory_cons (dir : Path) (m : Module) (modules : List Module) :
    intoDirectory dir (m :: modules) =
      .makeDirectories dir :: .write (dir.child (moduleName m.1)) m.2 ::
        intoDirectory dir modules :=
  rfl

/-- **Modules are put into a directory one by one**, where no directory has the name of one of
them. -/
theorem take_intoDirectory (h : t.Holds dir s) (hvacant : Vacant t s modules) (printed : String) :
    take t printed (intoDirectory dir modules) = (putAll s t modules, printed, none) := by
  induction modules generalizing t with
  | nil => rfl
  | cons m modules ih =>
    obtain ⟨hm, hrest⟩ := forall_mem_cons.1 hvacant
    have htarget : t.target (dir.child (moduleName m.1)) = .ok (s ++ [moduleName m.1]) :=
      (target_concat (moduleName_ne (by decide))).2 ⟨s, h, rfl⟩
    rw [intoDirectory_cons, take, makeDirectories_of_holds h]
    dsimp only
    rw [take, write_of_target htarget hm]
    exact ih (h.insert hm _) ((vacant_insert hm _).2 hrest)

/-- The directory is made before the first module is put into it. -/
theorem take_intoDirectory_cons {files : FileTree} {m : Module}
    (ht : files.makeDirectories dir = .ok t) (hs : t.Holds dir s)
    (hvacant : Vacant t s (m :: modules))
    (printed : String) :
    take files printed (intoDirectory dir (m :: modules)) =
      (putAll s t (m :: modules), printed, none) := by
  rw [← take_intoDirectory hs hvacant, intoDirectory_cons, take, take, ht,
    makeDirectories_of_holds hs]

/-- Of the modules of one name, the last stays. -/
theorem entry?_putAll (t : FileTree) (s : Spot) (p : Path) (modules : List Module) :
    FileTree.entry? (putAll s t modules) (s ++ [moduleName p]) =
      match modules.reverse.find? (moduleName ·.1 = moduleName p) with
      | some m => some (.file (Text.toBytes m.2))
      | none => t.entry? (s ++ [moduleName p]) := by
  induction modules using reverseRecOn with
  | nil => rfl
  | append_singleton modules m ih =>
    have hput : putAll s t (modules ++ [m]) = (putAll s t modules).insert (s ++ [moduleName m.1])
        (.file (Text.toBytes m.2)) := by
      simp [putAll, foldl_append]
    rw [hput, entry?_insert _ (isTop_moduleName s m.1), reverse_append, reverse_singleton,
      singleton_append, find?_cons, ih]
    by_cases hm : moduleName p = moduleName m.1
    · simp [hm]
    · simp [hm, Ne.symm hm]

theorem holds_putAll (h : t.Holds dir s) (hvacant : Vacant t s modules) :
    (putAll s t modules).Holds dir s := by
  induction modules generalizing t with
  | nil => exact h
  | cons m modules ih =>
    obtain ⟨hm, hrest⟩ := forall_mem_cons.1 hvacant
    exact ih (h.insert hm _) ((vacant_insert hm _).2 hrest)

end CommandLine

end Yielding
