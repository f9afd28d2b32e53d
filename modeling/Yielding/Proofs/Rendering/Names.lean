import Yielding.Proofs.Scoping.Emission

/-!
# Proofs/Rendering/Names — no binding takes a keyword

While code is written, no frame binds a name to a keyword (`Names.Sound`), and the functions of a
block stand in its frame from its beginning, so that the name of a function is found where its code
is written. `Soundly` carries both through a run.
-/

namespace Yielding.Script

open List Scoping

/-! ## Words that are no keywords -/

theorem notMem_keywords_of_notReserved {x : String} (h : isReserved x = false) : x ∉ keywords := by
  intro hx
  rw [isReserved, Bool.or_eq_false_iff, contains_eq_mem, decide_eq_false_iff_not] at h
  exact h.1 hx

theorem avoidKeyword_notMem (x : String) : avoidKeyword x ∉ keywords := by
  rw [avoidKeyword]
  split
  · exact notMem_keywords_of_notReserved (legal_of_tip (tip_append_underscore x)).notReserved
  · next h => simpa using h

theorem bind_notMem (ns : Names) (x : String) (isFn : Bool) : (ns.bind x isFn).1 ∉ keywords := by
  refine notMem_keywords_of_notReserved ?_
  obtain h | ⟨k, h⟩ := firstUnused_cases ns.used (if isReserved x then x ++ "_" else x) "_"
  · rw [Names.bind, h]
    split
    · exact (legal_of_tip (tip_append_underscore x)).notReserved
    · next hx => simpa using hx
  · rw [Names.bind, h]
    exact (legal_of_tip (by rw [tip_append_toString, tip_append_underscore])).notReserved

/-- The word by which a known method is called, if it is called by one. -/
def MethodForm.word? : MethodForm → Option String
  | function x | support x | attr x => some x
  | _ => none

theorem knownMethod_mem {method : String} {arity : Nat} {form : MethodForm}
    (h : knownMethod? method arity = some form) : (method, arity, form) ∈ knownMethods := by
  rw [knownMethod?] at h
  split at h
  · next n form' hlookup =>
    split at h
    · next hn =>
      obtain rfl := Option.some.inj h
      obtain ⟨l, l', hl, -⟩ := lookup_eq_some_iff.1 hlookup
      rw [← hn, hl]
      simp
    · cases h
  · cases h

theorem knownMethod_spec {method : String} {arity : Nat} {form : MethodForm}
    (h : knownMethod? method arity = some form) :
    (∀ x ∈ form.word?, x ∉ keywords) ∧ (form = .isEmpty → arity = 0) ∧
      (form = .member ∨ form = .power → arity = 1) := by
  have hall : ∀ e ∈ knownMethods, (∀ x ∈ e.2.2.word?, x ∉ keywords) ∧
      (e.2.2 = .isEmpty → e.2.1 = 0) ∧ (e.2.2 = .member ∨ e.2.2 = .power → e.2.1 = 1) := by
    decide
  exact hall _ (knownMethod_mem h)

theorem wrapper_notMem (taken : List String) (x : String) :
    firstUnused taken (wrapperName x) "" ∉ keywords := by
  have hall : ∀ y ∈ keywords, y.toList.head? ≠ some '_' := by decide
  have hhead : (wrapperName x).toList.head? = some '_' := by
    rw [wrapperName, String.append_assoc, String.toList_append]
    rfl
  intro hmem
  refine hall _ hmem ?_
  obtain h | ⟨k, h⟩ := firstUnused_cases taken (wrapperName x) ""
  · rw [h, hhead]
  · rw [h, String.append_empty, String.toList_append, head?_append, hhead, Option.some_or]

theorem knownFunction_extremum {func : Expr} {x : String}
    (h : knownFunction? func = some (.extremum x)) : x = "max" ∨ x = "min" := by
  cases func with
  | path r segments =>
    obtain ⟨l, l', hl, -⟩ := lookup_eq_some_iff.1 h
    have hmem : ("::".intercalate segments, .extremum x) ∈ knownFunctions := by simp [hl]
    simp only [knownFunctions, mem_cons, Prod.mk.injEq, FunctionForm.extremum.injEq, reduceCtorEq,
      and_false, not_mem_nil, or_false, false_or] at hmem
    tauto
  | _ => cases h

/-! ## Names that are sound -/

namespace Names

def Holds (ns : Names) (x : String) : Prop :=
  ∃ f fs, ns.frames = f :: fs ∧ (f.entries.lookup x).isSome

/-- There is a frame, and no frame binds a name to a keyword. -/
structure Sound (ns : Names) : Prop where
  framed : ns.frames ≠ []
  targets : ∀ f ∈ ns.frames, ∀ e ∈ f.entries, e.2.target ∉ keywords

/-- Only the innermost frame changes, and it loses no name. -/
structure Widens (ns ns' : Names) : Prop where
  tail : ns'.frames.tail = ns.frames.tail
  keeps : ∀ x, ns.Holds x → ns'.Holds x

variable {ns ns' ns'' : Names}

theorem Widens.of_frames (h : ns'.frames = ns.frames) : ns.Widens ns' where
  tail := by rw [h]
  keeps := fun x ⟨f, fs, hf, hx⟩ => ⟨f, fs, h.trans hf, hx⟩

theorem Widens.trans (h : ns.Widens ns') (h' : ns'.Widens ns'') : ns.Widens ns'' where
  tail := h'.tail.trans h.tail
  keeps x hx := h'.keeps x (h.keeps x hx)

theorem Sound.of_frames (h : ns.Sound) (hf : ns'.frames = ns.frames) : ns'.Sound where
  framed := hf ▸ h.framed
  targets := hf ▸ h.targets

theorem mem_put {f : Frame} {x : String} {b : Binding} {e : String × Binding}
    (h : e ∈ (f.put x b).entries) : e ∈ f.entries ∨ e = (x, b) := by
  rw [Frame.put] at h
  split at h
  · obtain ⟨e', he', rfl⟩ := mem_map.1 h
    split
    · exact .inr rfl
    · exact .inl he'
  · obtain h | h := mem_append.1 h
    · exact .inl h
    · exact .inr (mem_singleton.1 h)

theorem bind_frames {f : Frame} {fs : List Frame} (hf : ns.frames = f :: fs) (x : String)
    (isFn : Bool) : (ns.bind x isFn).2.frames = f.put x ⟨(ns.bind x isFn).1, isFn⟩ :: fs := by
  rw [Names.bind, hf]

/-- **A binding keeps names sound**, and is found afterwards. -/
theorem Sound.bind (h : ns.Sound) (x : String) (isFn : Bool) :
    (ns.bind x isFn).2.Sound ∧ ns.Widens (ns.bind x isFn).2 ∧ (ns.bind x isFn).2.Holds x := by
  obtain ⟨f, fs, hf⟩ := exists_cons_of_ne_nil h.framed
  have hframes := bind_frames hf x isFn
  refine ⟨⟨by simp [hframes], ?_⟩, ⟨by rw [hframes, hf]; rfl, ?_⟩, ⟨_, fs, hframes, ?_⟩⟩
  · rw [hframes]
    refine forall_mem_cons.2 ⟨fun e he => ?_, fun g hg => h.targets g (by simp [hf, hg])⟩
    obtain he | rfl := mem_put he
    · exact h.targets f (by simp [hf]) e he
    · exact bind_notMem ns x isFn
  · rintro y ⟨g, gs, hg, hy⟩
    obtain ⟨rfl, rfl⟩ := List.cons.inj (hf.symm.trans hg)
    refine ⟨_, fs, hframes, ?_⟩
    rw [lookup_put]
    split
    · rfl
    · exact hy
  · rw [lookup_put, if_pos rfl]
    rfl

theorem Sound.push (h : ns.Sound) (isBarrier : Bool) : (ns.push isBarrier).Sound where
  framed := cons_ne_nil _ _
  targets := forall_mem_cons.2 ⟨nofun, h.targets⟩

theorem Widens.pop {isBarrier : Bool} (h : (ns.push isBarrier).Widens ns') :
    ns'.pop.frames = ns.frames :=
  h.tail

theorem resolveIn_forall {P : String → Prop} {x target : String} {crossed : Bool} {fs : List Frame}
    (hfs : ∀ f ∈ fs, ∀ e ∈ f.entries, P e.2.target) (h : resolveIn crossed fs x = some target) :
    P target := by
  induction fs generalizing crossed with
  | nil => cases h
  | cons f fs ih =>
    have hfs := forall_mem_cons.1 hfs
    rw [resolveIn] at h
    split at h
    · next b hb =>
      split at h
      · obtain rfl := Option.some.inj h
        exact hfs.1 (x, b) (mem_of_lookup hb)
      · exact ih hfs.2 h
    · exact ih hfs.2 h

theorem Sound.resolve {x target : String} (h : ns.Sound) (hx : ns.resolve x = some target) :
    target ∉ keywords :=
  resolveIn_forall (P := (· ∉ keywords)) h.targets hx

theorem Sound.fnTarget {x : String} (h : ns.Sound) (hx : ns.Holds x) :
    byScope.fnTarget x ns ∉ keywords := by
  obtain ⟨f, fs, hf, hx⟩ := hx
  obtain ⟨b, hb⟩ := Option.isSome_iff_exists.1 hx
  have hresolve : ns.resolve x = some b.target := by
    rw [Names.resolve, hf, resolveIn, hb]
    rfl
  have htarget : byScope.fnTarget x ns = b.target := by
    show (ns.resolve x).getD x = b.target
    rw [hresolve, Option.getD_some]
  exact htarget ▸ h.resolve hresolve

theorem Sound.inputs (h : ns.Sound) : ∀ x ∈ ns.inputs, x ∉ keywords := by
  rw [Names.inputs]
  split
  · nofun
  · next f hf =>
    intro x hx
    obtain ⟨e, he, rfl⟩ := mem_map.1 hx
    exact h.targets f (mem_of_getLast? hf) e (mem_of_mem_filter he)

end Names

/-! ## Runs from sound names -/

section Runs

variable {α β : Type} {k : List String} {P : α → Prop} {Q : β → Prop}

/-- From sound names whose innermost frame binds those in `k`, the generation of code, if it
succeeds, gives a result with the property `P`; the names stay sound. -/
def Soundly (k : List String) (act : Emit Names α) (P : α → Prop) : Prop :=
  ∀ ns a ns', ns.Sound → (∀ x ∈ k, ns.Holds x) → Emits act ns a ns' →
    P a ∧ ns'.Sound ∧ ns.Widens ns'

theorem soundly_pure {a : α} (h : P a) : Soundly k (pure a) P := by
  intro ns b ns' hns _ hrun
  obtain ⟨rfl, rfl⟩ := emits_pure.1 hrun
  exact ⟨h, hns, .of_frames rfl⟩

/-- **Properties of the parts give properties of the whole.** -/
theorem Soundly.bind {act : Emit Names α} {f : α → Emit Names β} (h : Soundly k act P)
    (hf : ∀ a, P a → Soundly k (f a) Q) : Soundly k (act >>= f) Q := by
  intro ns b ns' hns hk hrun
  obtain ⟨a, t, ha, hb⟩ := emits_bind.1 hrun
  obtain ⟨hP, ht, hw⟩ := h _ _ _ hns hk ha
  obtain ⟨hQ, hns', hw'⟩ := hf a hP _ _ _ ht (fun x hx => hw.keeps x (hk x hx)) hb
  exact ⟨hQ, hns', hw.trans hw'⟩

theorem Soundly.mono {act : Emit Names α} {P' : α → Prop} (h : Soundly k act P)
    (hP : ∀ a, P a → P' a) : Soundly k act P' := by
  intro ns a ns' hns hk hrun
  exact (h _ _ _ hns hk hrun).imp_left (hP a)

theorem Soundly.and {act : Emit Names α} {P' : α → Prop} (h : Soundly k act P)
    (h' : Soundly k act P') : Soundly k act fun a => P a ∧ P' a := by
  intro ns a ns' hns hk hrun
  obtain ⟨hP, hrest⟩ := h _ _ _ hns hk hrun
  exact ⟨⟨hP, (h' _ _ _ hns hk hrun).1⟩, hrest⟩

theorem Soundly.within {act : Emit Names α} {isBarrier : Bool} (h : Soundly [] act P) :
    Soundly k (within byScope isBarrier act) P := by
  intro ns a ns' hns _ hrun
  obtain ⟨t, ha, rfl⟩ := emits_within.1 hrun
  obtain ⟨hP, -, hw⟩ := h _ _ _ (hns.push isBarrier) nofun ha
  exact ⟨hP, hns.of_frames hw.pop, .of_frames hw.pop⟩

theorem Soundly.of_nil {act : Emit Names α} (h : Soundly [] act P) : Soundly k act P :=
  fun _ _ _ hns _ hrun => h _ _ _ hns nofun hrun

theorem bindName_soundly (x : String) : Soundly k (bindName byScope x) (· ∉ keywords) := by
  intro ns a ns' hns _ hrun
  obtain ⟨rfl, rfl⟩ := Prod.mk.inj (emits_modifyGet.1 hrun)
  exact ⟨bind_notMem ns x false, (hns.bind x false).1, (hns.bind x false).2.1⟩

theorem freshSubject_soundly : Soundly k (freshSubject byScope) (· ∉ keywords) := by
  intro ns a ns' hns _ hrun
  obtain ⟨rfl, rfl⟩ := Prod.mk.inj (emits_modifyGet.1 hrun)
  exact ⟨notMem_keywords_of_notReserved (subjectName_notReserved _), hns.of_frames rfl,
    .of_frames rfl⟩

theorem get_soundly {f : Names → Emit Names β}
    (h : ∀ ns, ns.Sound → (∀ x ∈ k, ns.Holds x) → Soundly k (f ns) Q) :
    Soundly k (get >>= f) Q := by
  intro ns b ns' hns hk hrun
  obtain ⟨_, _, hget, hb⟩ := emits_bind.1 hrun
  obtain ⟨rfl, rfl⟩ := emits_get.1 hget
  exact h ns hns hk _ _ _ hns hk hb

theorem bindFns_soundly {f : Unit → Emit Names β} (h : ∀ u, Soundly k (f u) Q) :
    Soundly [] (bindFns byScope k >>= f) Q := by
  suffices hbind : ∀ names : List String, ∀ {ns u ns'}, ns.Sound →
      Emits (bindFns byScope names) ns u ns' →
      ns'.Sound ∧ ns.Widens ns' ∧ ∀ x ∈ names, ns'.Holds x by
    intro ns b ns' hns _ hrun
    obtain ⟨u, t, hu, hb⟩ := emits_bind.1 hrun
    obtain ⟨ht, hw, hk⟩ := hbind k hns hu
    obtain ⟨hQ, hns', hw'⟩ := h u _ _ _ ht hk hb
    exact ⟨hQ, hns', hw.trans hw'⟩
  intro names
  induction names with
  | nil =>
    intro ns u ns' hns hrun
    obtain ⟨-, rfl⟩ := emits_pure.1 hrun
    exact ⟨hns, .of_frames rfl, nofun⟩
  | cons x names ih =>
    intro ns u ns' hns hrun
    obtain ⟨target, t, hx, hrest⟩ := emits_bind.1 hrun
    obtain ⟨-, rfl⟩ := Prod.mk.inj (emits_modifyGet.1 hx)
    obtain ⟨hsound, hw, hholds⟩ := hns.bind x true
    obtain ⟨hns', hw', hnames⟩ := ih hsound hrest
    exact ⟨hns', hw.trans hw', forall_mem_cons.2 ⟨hw'.keeps x hholds, hnames⟩⟩

end Runs

end Yielding.Script
