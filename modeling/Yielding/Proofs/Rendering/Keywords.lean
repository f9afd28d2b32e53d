import Mathlib.Algebra.Order.Group.Multiset
import Yielding.Proofs.Flow.Items
import Yielding.Proofs.Rendering.Statements

/-!
# Proofs/Rendering/Keywords — keywords that stand as identifiers

A name that is a keyword of the generated language gets an underscore where it is bound, used, or
taken as an attribute.  The segments of a path get none: they are the keywords that stand in the
code of an item as identifiers, together with `None` (`itemCode_keywords`,
`keyword_in_path_is_written`).
-/

namespace Yielding

open Script

/-- The keywords that an expression brings into code as they are. -/
def Expr.bareKeywords : Expr → List String
  | .name _ x => if x = "None" then [x] else []
  | .path _ segments => segments.filter fun x => keywords.contains x
  | _ => []

namespace Script

open Scoping Yielding.Flow

def keywordsAmong (words : List String) : Multiset String :=
    words.filter fun x => keywords.contains x

/-- Weighs code by the keywords that stand in it as identifiers: as names, attributes and segments
of paths. -/
def byKeywords : Weights (Multiset String) where
  name x := keywordsAmong [x]
  attr x := keywordsAmong [x]
  path := keywordsAmong
  base _ := 0
  store _ := 0

/-- The keywords that stand as names in code. -/
def identifierKeywords (code : List Code) : Multiset String := Code.weighRow byKeywords code

theorem keywordsAmong_singleton {x : String} (h : x ∉ keywords) : keywordsAmong [x] = 0 := by
  simp [keywordsAmong, h]

theorem byKeywords_light : byKeywords.Light where
  name := keywordsAmong_singleton
  payload v := keywordsAmong_singleton (by cases v <;> decide)
  support := by
    intro x hx
    have hrt : supportName ∉ keywords := by decide
    simp [byKeywords, keywordsAmong, hx, hrt]
  empty := rfl

theorem held_byKeywords (e : Expr) : byKeywords.held e = 0 := by
  rw [Weights.held]
  cases e.literal? <;> rfl

theorem node_byKeywords (e : Expr) : byKeywords.node e = e.bareKeywords := by
  cases e with
  | name r x =>
    rw [Weights.node, Expr.bareKeywords]
    split
    · next hx =>
      subst hx
      decide
    · rfl
  | path r segments => rfl
  | field r value attr =>
    have hattr : byKeywords.attr (avoidKeyword attr) = 0 :=
      keywordsAmong_singleton (avoidKeyword_notMem attr)
    rw [Weights.node, held_byKeywords, hattr]
    rfl
  | methodCall r receiver method args =>
    rw [Weights.node]
    cases h : Weights.methodAttr? method args.length with
    | none => rfl
    | some x =>
      have hattr : byKeywords.attr x = 0 := keywordsAmong_singleton (methodAttr_notMem h)
      rw [Option.elim_some, held_byKeywords, hattr]
      rfl
  | _ => rfl

theorem total_byKeywords (es : List Expr) :
    byKeywords.total es = (es.flatMap Expr.bareKeywords : List String) := by
  induction es with
  | nil => rfl
  | cons e es ih =>
    rw [Weights.total_cons, node_byKeywords, ih, List.flatMap_cons, ← Multiset.coe_add]

theorem itemCode_byKeywords {d : Definition} {taken : List String} {code : List Code}
    (h : itemCode d (firstUnused taken (wrapperName d.name) "") = .ok code) : ∃ params result body,
      code = [wrapper d (firstUnused taken (wrapperName d.name) "") (valueHint d), .line .blank,
        .line .blank, .block (.fn false d.name params (some result)) body] ∧
      List.Forall₂ (fun p text => ∃ x ∉ keywords,
        text = paramText (d.generics.map GenericParam.name) p.kind x) d.params params ∧
      identifierKeywords body = (d.shown.flatMap Expr.bareKeywords : List String) := by
  have hT : byKeywords.Stores fun _ => 0 := fun e =>
    (emitExpr_weigh byKeywords_light e).mono fun _ _ => rfl
  obtain ⟨params, result, body, rfl, hparams, hbody⟩ := itemCode_weigh byKeywords_light hT h
  refine ⟨params, result, body, rfl, hparams, ?_⟩
  have hclass : byKeywords.name (firstUnused taken (wrapperName d.name) "") = 0 :=
    keywordsAmong_singleton (wrapper_notMem taken d.name)
  rw [identifierKeywords, hbody, hclass, Weights.load_eq, total_byKeywords]
  simp [Definition.shown]

/-- **The keywords in the code of an item that passes the checks are segments of paths, and
`None`.** Every parameter is written under a name that is no keyword.  In the body of the function,
the keywords that stand as identifiers (as names, where they are bound and where they are used, as
attributes and methods, and in paths) are those of the paths that are shown, as often as they are
shown, and `None` for the name `None`; no code is written only if a text is to be made from
nothing. -/
theorem itemCode_keywords (file : Option String) (d : Definition) (taken : List String)
    (hw : d.Under (written True)) (hv : hasErrors (d.validate file) = false) :
    (∃ params result body,
      itemCode d.lower (firstUnused taken (wrapperName d.name) "") =
        .ok [wrapper d.lower (firstUnused taken (wrapperName d.name) "") (valueHint d),
          .line .blank,
          .line .blank, .block (.fn false d.name params (some result)) body] ∧
      List.Forall₂ (fun p text => ∃ x ∉ keywords,
        text = paramText (d.generics.map GenericParam.name) p.kind x) d.params params ∧
      identifierKeywords body = (d.lower.shown.flatMap Expr.bareKeywords : List String)) ∨
    itemCode d.lower (firstUnused taken (wrapperName d.name) "") = .error .emptyConversion := by
  obtain ⟨itemHint, function, hcode, -⟩ | hf :=
    itemCode_checked (firstUnused taken (wrapperName d.name) "") hw hv
  · obtain ⟨params, result, body, hfunction, hbody⟩ := itemCode_byKeywords hcode
    exact .inl ⟨params, result, body, hfunction ▸ hcode, hbody⟩
  · exact .inr hf

/-- `fn def(is: i32) { is } let class = def(lambda); yield class.from.raise(a::pass, import, None);`
under a parameter `lambda`. -/
def wordy : Definition :=
  numbers [number "lambda"] [
    .fn default "def" [number "is"] none (.mk [] default (some (.name default "is"))),
    .letIn default (.bind default "class" false) none
      (.call default (.name default "def") [.name default "lambda"]) none,
    .expr default (.yield default (some (.methodCall default
      (.field default (.name default "class") "from") "raise"
      [.path default ["a", "pass"], .name default "import", .name default "None"])))]

theorem wordy_keywords :
    wordy.Under (written True) ∧ hasErrors (wordy.validate none) = false ∧
    ∃ params result body,
      itemCode wordy.lower (firstUnused [] (wrapperName "f") "") =
        .ok [wrapper wordy.lower (firstUnused [] (wrapperName "f") "") (valueHint wordy),
          .line .blank,
          .line .blank, .block (.fn false "f" params (some result)) body] ∧
      identifierKeywords body = {"pass", "None"} := by
  have hw : wordy.Under (written True) :=
    ⟨trivial, ⟨⟨⟨trivial, trivial, fun _ _ _ _ _ => trivial⟩, ⟨trivial, fun _ _ _ => trivial⟩,
      ⟨trivial, fun _ _ _ => trivial⟩, trivial⟩, nofun⟩, nofun⟩
  have hv : hasErrors (wordy.validate none) = false := by decide
  refine ⟨hw, hv, ?_⟩
  have hok : (itemCode wordy.lower (firstUnused [] (wrapperName "f") "")).toBool = true := by
    decide +kernel
  have hshown : wordy.lower.shown.flatMap Expr.bareKeywords = ["pass", "None"] := by decide
  obtain ⟨params, result, body, hcode, -, hbody⟩ | hf := itemCode_keywords none wordy [] hw hv
  · exact ⟨params, result, body, hcode, hbody.trans (by rw [hshown]; rfl)⟩
  · rw [show itemCode wordy.lower (firstUnused [] (wrapperName "f") "") = _ from hf] at hok
    cases hok

/-- `yield a::class;` -/
def keywordPath : Definition :=
  numbers [] [.expr default (.yield default (some (.path default ["a", "class"])))]

/-- **A segment of a path is written as it is**, even where it is a keyword. -/
theorem keyword_in_path_is_written :
    keywordPath.Under (written True) ∧ hasErrors (keywordPath.validate none) = false ∧
    ∃ params result body,
      itemCode keywordPath.lower (firstUnused [] (wrapperName "f") "") =
        .ok [wrapper keywordPath.lower (firstUnused [] (wrapperName "f") "")
          (valueHint keywordPath),
          .line .blank, .line .blank, .block (.fn false "f" params (some result)) body] ∧
      "class" ∈ identifierKeywords body := by
  refine ⟨⟨trivial, ⟨⟨⟨trivial, fun _ _ _ => trivial⟩, trivial⟩, nofun⟩, nofun⟩, by decide,
    ?_⟩
  have hok : (itemCode keywordPath.lower (firstUnused [] (wrapperName "f") "")).toBool = true := by
    decide
  have hshown : keywordPath.lower.shown.flatMap Expr.bareKeywords = ["class"] := by decide
  cases hcode : itemCode keywordPath.lower (firstUnused [] (wrapperName "f") "") with
  | error f =>
    rw [hcode] at hok
    cases hok
  | ok code =>
    obtain ⟨params, result, body, rfl, -, hbody⟩ := itemCode_byKeywords hcode
    refine ⟨params, result, body, rfl, ?_⟩
    rw [hbody, hshown]
    decide

end Script

end Yielding
