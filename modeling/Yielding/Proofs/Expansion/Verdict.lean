import Yielding.Proofs.Borrow.Indices
import Yielding.Proofs.Flow.Items
import Yielding.Proofs.Parsing.Language
import Yielding.Proofs.Scoping.Emission

/-!
# Proofs/Expansion/Verdict — expansion returns, and its errors decide

Each phase of an expansion has inputs that it does not expect: phrases whose parts do not fit their
rule, statements that only lowering makes, suspensions in what is lowered, types that lack what they
are written around, bindings and loops that a trace does not hold.  No source text leads to one of
them (`Definition.Handled`), so expansion returns, with code unless it reports an error, or breaks
off at a number that is too long to be read (`ofSource_verdict`).
-/

namespace Yielding

open Yielding.Flow Script

/-- The law of items that make no text from nothing. -/
def Flow.converting : Law where
  stmt _ _ _ := True
  expr _ e := ∀ x ∈ e.walk, ¬IsEmptyConversion x
  guard _ e := ∀ x ∈ e.walk, ¬IsEmptyConversion x

theorem Flow.source_joins_converting : source.Joins converting (written False) :=
  ⟨fun hs _ => hs.1, fun _ he => he, fun _ he => he⟩

/-! ## Texts of types -/

namespace Typing

/-- The diagnostic says that what the body shows does not agree with an expected type; both types
have a text. -/
def IsMismatch (file : Option String) (d : Definition) (x : Diagnostic) : Prop :=
  ∃ expected fixedAt o, x = mismatch file d expected fixedAt o ∧
    expected.format?.isSome ∧ o.type.format?.isSome

theorem isMismatch_of_mem_mismatches {file : Option String} {d : Definition}
    {os : List Observation} :
    ∀ {current : Ty} {fixedAt : Option Region}, current.Whole → (∀ o ∈ os, o.type.Whole) →
      ∀ x ∈ mismatches file d current fixedAt os, IsMismatch file d x := by
  induction os with
  | nil => exact nofun
  | cons o os ih =>
    intro current fixedAt hcurrent hos x hx
    rw [List.forall_mem_cons] at hos
    rw [mismatches] at hx
    split at hx
    · exact ih hcurrent hos.2 x hx
    · split at hx
      · rcases List.mem_cons.1 hx with rfl | hx
        · exact ⟨current, fixedAt, o, rfl, Ty.isSome_format hcurrent, Ty.isSome_format hos.1⟩
        · exact ih hcurrent hos.2 x hx
      · next hmerged => exact ih (hcurrent.unify hos.1 hmerged) hos.2 x hx

/-- The diagnostic says that the body ends in a value; its type has a text. -/
def IsValueAtEnd (file : Option String) (x : Diagnostic) : Prop :=
  ∃ tail t, x = valueAtEnd file tail t ∧ t.format?.isSome

theorem isValueAtEnd_of_mem_checkTail {file : Option String} {d : Definition} (h : d.IsSource) :
    ∀ x ∈ checkTail file d, IsValueAtEnd file x := by
  intro x hx
  unfold checkTail at hx
  split at hx
  · cases hx
  · next tail htail =>
    have htypes := h.everyType
    have hbody : everyStmt (Stmt.Declares Ty.Whole) (Expr.EveryType Ty.Whole) d.body.stmts ∧
        tail.EveryType Ty.Whole := by
      have hblock := htypes.body
      generalize d.body = body at htail hblock ⊢
      cases body
      exact ⟨hblock.1, hblock.2 tail htail⟩
    have hfns := Ty.inferable_whole.fnTypes htypes
    have hscope := Ty.inferable_whole.bindLets hfns hbody.1 (Ty.inferable_whole.scope htypes)
    dsimp only at hx
    split_ifs at hx with hunit hunknown
    · cases hx
    · cases hx
    · exact ⟨tail, _, List.mem_singleton.1 hx,
        Ty.isSome_format (Ty.inferable_whole.type hfns hscope tail hbody.2)⟩

end Typing

/-! ## What the phases meet -/

/-- Every phase of an expansion knows what to do with the item: its parts can be written, the texts
of its types exist wherever a check shows one or a hint is generated, its trace refers to its own
bindings and loops, and if it passes the checks then nothing in what it is lowered to keeps code
from being written. -/
structure Definition.Handled (file : Option String) (d : Definition) : Prop where
  source : d.IsSource
  yields : ∀ x ∈ Typing.checkYields file d, Typing.IsMismatch file d x
  tail : ∀ x ∈ Typing.checkTail file d, Typing.IsValueAtEnd file x
  trace : (Borrow.trace file d).Indexed file
  itemHint : ∀ generics, (d.yielded.hint? generics).isSome
  paramHints : ∀ p ∈ d.params, ∀ t ∈ p.type?, ∀ generics, (t.hint? generics).isSome
  lowered : hasErrors (d.validate file) = false →
    d.lower.Under (Flow.lowered (fun _ => False) d.lower.isAsync)

theorem Definition.IsSource.handled {d : Definition} (h : d.IsSource) (hc : d.Under converting)
    (file : Option String) : d.Handled file where
  source := h
  yields := Typing.isMismatch_of_mem_mismatches h.yielded
    (Ty.inferable_whole.observations h.everyType)
  tail := Typing.isValueAtEnd_of_mem_checkTail h
  trace := Borrow.indexed_trace file d
  itemHint generics := Ty.isSome_hint generics h.yielded
  paramHints p hp t ht generics := Ty.isSome_hint generics (h.params p hp t ht)
  lowered hv := definition_lowered id (h.under.zip source_joins_converting hc) hv

theorem Definition.Handled.itemCode {file : Option String} {d : Definition} (h : d.Handled file)
    (hv : hasErrors (d.validate file) = false) (className : String) :
    ∃ code, Script.itemCode d.lower className = .ok code := by
  obtain ⟨_, _, hok, -⟩ | ⟨_, -, hfalse⟩ :=
    itemCode_ends (emitFunction_fits byScope_plain (h.lowered hv) className)
  · exact ⟨_, hok⟩
  · exact hfalse.elim

theorem Script.itemsCode_ok {ds : List Definition}
    (h : ∀ d ∈ ds, ∀ className, ∃ code, itemCode d className = .ok code) :
    ∀ taken, ∃ code, itemsCode taken ds = .ok code := by
  induction ds with
  | nil => exact fun _ => ⟨[], rfl⟩
  | cons d ds ih =>
    rw [List.forall_mem_cons] at h
    intro taken
    obtain ⟨code, hcode⟩ := h.1 (firstUnused taken (wrapperName d.name) "")
    obtain ⟨rest, hrest⟩ := ih h.2 (firstUnused taken (wrapperName d.name) "" :: taken)
    exact ⟨_, by rw [itemsCode, hcode]; simp only [bind, Except.bind, hrest]; rfl⟩

theorem Expansion.generate_ok {ds : List Definition} {file : String}
    (h : ∀ d ∈ ds, d.Handled (some file))
    (hv : hasErrors (ds.flatMap (Definition.validate (some file))) = false)
    (o : Script.Options) : ∃ code, generate o file ds = .ok code := by
  rw [hasErrors_flatMap, List.any_eq_false] at hv
  have hitems : ∀ d ∈ ds.map Definition.lower, ∀ className, ∃ code,
      itemCode d className = .ok code :=
    List.forall_mem_map.2 fun d hd => (h d hd).itemCode (Bool.eq_false_iff.2 (hv d hd))
  obtain ⟨code, hcode⟩ := itemsCode_ok hitems []
  exact ⟨_, by simp only [generate, moduleText, moduleCode, bind, Except.bind, hcode]; rfl⟩

/-- The items of a text are handled by every phase, as long as they make no text from nothing. -/
theorem handled_of_mem_definitions {source : String} {d : Definition}
    (hd : d ∈ (parseItems source).definitions) (hc : d.Under converting) (file : Option String) :
    d.Handled file :=
  (isSource_of_mem_definitions hd).handled hc file

/-! ## The verdict -/

/-- What the expansion of a text reports, whether or not a module can be written. -/
def Expansion.findings (file source : String) : List Diagnostic :=
  let (definitions, parsing) := parseReport (some file) source
  if hasErrors parsing then parsing
  else parsing ++ definitions.flatMap (Definition.validate (some file))

theorem Expansion.of_ofSource {o : Script.Options} {file source : String} {e : Expansion}
    (h : ofSource o file source = .ok e) :
    e.diagnostics = findings file source ∧ (e.code.isSome ↔ hasErrors e.diagnostics = false) := by
  simp only [ofSource, findings] at h ⊢
  split at h
  · cases h
  split at h
  · next herrors =>
    obtain rfl := Except.ok.inj h
    simp [herrors]
  · next hparsed =>
    rw [if_neg hparsed]
    split at h
    · next herrors =>
      obtain rfl := Except.ok.inj h
      simp [herrors]
    · next hclean =>
      obtain ⟨code, -, h⟩ := Scoping.bind_eq_ok.1 h
      obtain rfl := Except.ok.inj h
      simp [Bool.eq_false_iff.2 hclean]

theorem Expansion.ofSource_ok {file source : String} (o : Script.Options)
    (hread : (parseItems source).breaksOff = false)
    (h : ∀ d ∈ (parseItems source).definitions, d.Handled (some file)) :
    ∃ e, ofSource o file source = .ok e := by
  simp only [ofSource, hread, if_neg Bool.false_ne_true]
  split
  · exact ⟨_, rfl⟩
  · split
    · exact ⟨_, rfl⟩
    · next hclean =>
      rw [hasErrors_append, Bool.or_eq_true, not_or] at hclean
      obtain ⟨code, hcode⟩ := generate_ok h (Bool.eq_false_iff.2 hclean.2) o
      exact ⟨⟨some code, _, _⟩, congrArg (· >>= _) hcode⟩

/-- **Expansion returns, and its errors decide.**  For a text whose items make no text from nothing,
an expansion returns, and has code if and only if nothing that it reports is an error, unless a
number of the text is too long to be read; the phrases of the text all fit their rules; and every
phase knows what to do with the items. -/
theorem Expansion.ofSource_verdict (o : Script.Options) (file source : String)
    (hc : ∀ d ∈ (parseItems source).definitions, d.Under converting) :
    ((parseItems source).breaksOff = true → ofSource o file source = .error .oversized) ∧
    ((parseItems source).breaksOff = false →
      ∃ e, ofSource o file source = .ok e ∧ (e.code.isSome ↔ hasErrors e.diagnostics = false)) ∧
    (∀ p ∈ (parseItems source).problems, p.cause ≠ .incoherent) ∧
    ∀ d ∈ (parseItems source).definitions, d.Handled (some file) := by
  have hhandled : ∀ d ∈ (parseItems source).definitions, d.Handled (some file) :=
    fun d hd => handled_of_mem_definitions hd (hc d hd) _
  refine ⟨fun hbroken => ?_, fun hread => ?_, fun p hp => cause_of_mem_problems hp, hhandled⟩
  · rw [ofSource, if_pos hbroken]
    rfl
  · obtain ⟨e, he⟩ := ofSource_ok o hread hhandled
    exact ⟨e, he, (of_ofSource he).2⟩

theorem Expansion.single_verdict :
    (∀ d ∈ (parseItems Single.text).definitions, d.Under converting) ∧
    ∃ e, ofSource default anonymous Single.text = .ok e ∧ e.code.isSome ∧
      Single.definition.Handled anonymous := by
  have hunder : Single.definition.Under converting :=
    ⟨trivial, ⟨⟨⟨trivial, by simp [converting, Expr.walk, IsEmptyConversion]⟩, trivial⟩, nofun⟩,
      nofun⟩
  have hdefinitions : ∀ d ∈ (parseItems Single.text).definitions, d.Under converting := by
    rw [Single.parseItems_eq]
    simpa using hunder
  have hread : (parseItems Single.text).breaksOff = false := by
    simp [Single.parseItems_eq, Parsed.breaksOff]
  obtain ⟨-, hreturns, -, hhandled⟩ :=
    ofSource_verdict default anonymous Single.text hdefinitions
  obtain ⟨e, he, hcode⟩ := hreturns hread
  have hvalid : hasErrors (Single.definition.validate (some anonymous)) = false := by decide
  have hreport : parseReport (some anonymous) Single.text = ([Single.definition], []) := by
    rw [parseReport, Single.parseItems_eq]
    rfl
  have herrors : hasErrors e.diagnostics = false := by
    rw [ofSource, hread, hreport] at he
    dsimp only at he
    rw [if_neg Bool.false_ne_true, if_neg (by decide), if_neg (by simpa using hvalid)] at he
    cases hgenerate : generate default anonymous [Single.definition] with
    | error f =>
      rw [hgenerate] at he
      cases he
    | ok code =>
      rw [hgenerate] at he
      cases he
      simpa using hvalid
  exact ⟨hdefinitions, e, he, hcode.2 herrors, hhandled _ (by simp [Single.parseItems_eq])⟩

/-- A word of too many digits is no number. -/
theorem ones_oversized {n : ℕ} (h : Value.maxDigits < n) (r : Region) :
    Value.literalOf r ⟨.int, String.ofList (List.replicate n '1'), r, 0⟩ =
      .error ⟨.body, .oversized, r.site⟩ := by
  have hdigits : (Value.splitSuffix (String.ofList (List.replicate n '1'))).1 =
      List.replicate n '1' := by
    simp [Value.splitSuffix]
  simp [Value.literalOf, hdigits, Value.numberOf, h.not_ge, bind, Except.bind]

theorem long_number_oversized :
    Value.literalOf default ⟨.int, String.ofList (List.replicate 4301 '1'), default, 0⟩ =
      .error ⟨.body, .oversized, (default : Region).site⟩ :=
  ones_oversized (Nat.lt_succ_self 4300) default

end Yielding
