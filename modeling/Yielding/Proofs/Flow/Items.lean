import Yielding.Expansion.Basic
import Yielding.Proofs.Flow.Emitted

/-!
# Proofs/Flow/Items — items that pass the checks have legal code

The checks follow the body by flags for loops, nested functions and the prelude; lowering turns `?`,
`return` and `while` into other statements, and the code puts nested functions first.  Still the
code of an item that passes the checks is legal (`itemCode_legal`).
-/

namespace Yielding.Script

open Yielding.Flow

variable {F : Failure → Prop} {σ : Type} {N : Naming σ} {d : Definition}

/-! ## Functions -/

theorem emitParams_ends (generics : List String) (params : List Param) :
    Ends F (emitParams N generics params) fun _ => True := by
  induction params with
  | nil => exact ends_pure trivial
  | cons x params ih =>
    exact ends_any.bind fun _ _ => ih.bind fun _ _ => ends_pure trivial

theorem emitSizeHint_awaits (hN : N.Plain) (h : d.Under (lowered F d.isAsync)) :
    Ends F (emitSizeHint N d) (·.AwaitsOnlyIf (MayAwait d.isAsync .opening)) := by
  unfold emitSizeHint
  split
  · next e he =>
    exact (emitExpr_ends hN e (h.bounds e he)).bind fun t ht => ends_pure ⟨trivial, ht, trivial⟩
  · exact ends_pure ⟨trivial, trivial, trivial⟩

theorem emitGenerator_fits (hN : N.Plain) (h : d.Under (lowered F d.isAsync))
    (inputs : List String) :
    Ends F (emitGenerator N d inputs) fun code => ∃ body,
      code = .block (.fn d.isAsync "__body" inputs none) body ∧ Fits d.isAsync .generator false
        (blockShowsSuspension d.body || !blockSuspends d.body) body := by
  refine (emitContents_fits hN false d.body (by simp) h.body).within.bind fun code hcode =>
    ends_pure ⟨_, rfl, hcode.append ?_⟩
  cases blockSuspends d.body with
  | true => exact fits_nil
  | false => exact ⟨⟨⟨by simp, fun _ => rfl, trivial⟩, ⟨rfl, trivial⟩, trivial⟩, rfl⟩

/-- The function of an item with legal control flow: an opening without `yield`, `await` and
`return`, the generator, the bounds, and the final `return`. -/
def LegalFunction (d : Definition) (code : Code) : Prop :=
  ∃ params result opening inputs body bounds made,
    code = .block (.fn false d.name params (some result))
      (opening ++ [.block (.fn d.isAsync "__body" inputs none) body,
        .line (.assign (.name "__size_hint") bounds), .line (.ret (some made))]) ∧
    rowLegal d.isAsync .opening false opening ∧ rowLegal d.isAsync .generator false body ∧
    rowAwaitsOnlyIf (MayAwait d.isAsync .opening) [bounds, made]

/-- The function of an item has the generator with the given code. -/
def HasGenerator (d : Definition) (function : Code) (body : List Code) : Prop :=
  ∃ params result opening inputs bounds made,
    function = .block (.fn false d.name params (some result))
      (opening ++ [.block (.fn d.isAsync "__body" inputs none) body,
        .line (.assign (.name "__size_hint") bounds), .line (.ret (some made))])

/-- **The function of a lowered item has legal control flow**, and its generator yields unless all
suspensions of the body are lost. -/
theorem emitFunction_fits (hN : N.Plain) (h : d.Under (lowered F d.isAsync))
    (className itemHint : String) :
    Ends F (emitFunction N d className itemHint) fun function => LegalFunction d function ∧
      ∃ body, HasGenerator d function body ∧
        rowYields body = (blockShowsSuspension d.body || !blockSuspends d.body) := by
  have hprelude : Ends F (emitContents N false (.mk d.prelude d.region none))
      (Fits d.isAsync .opening false _) :=
    emitContents_fits hN false _ (by simp) ⟨h.prelude, by simp⟩
  refine ends_modify.bind fun _ _ => (emitParams_ends _ _).bind fun params _ =>
    hprelude.bind fun prelude hprelude => ends_get.bind fun s _ =>
    (emitGenerator_fits hN h (N.inputs s)).bind fun generator hgenerator =>
    (emitSizeHint_awaits hN h).bind fun bounds hbounds => ends_pure ?_
  obtain ⟨body, rfl, hbody⟩ := hgenerator
  refine ⟨⟨_, _, _, _, body, bounds, _, rfl, rowLegal_append.2 ⟨?_, hprelude.legal⟩, hbody.legal,
    hbounds, ?_⟩, body, ⟨_, _, _, _, _, _, rfl⟩, hbody.yields⟩
  · split
    · trivial
    · exact ⟨trivial, trivial⟩
  · -- the inputs of the generator are names
    have hinputs : rowAwaitsOnlyIf (MayAwait d.isAsync .opening) ((N.inputs s).map Term.name) :=
      rowAwaitsOnlyIf_iff.2 (List.forall_mem_map.2 fun _ _ => trivial)
    exact ⟨⟨trivial, ⟨trivial, trivial, hinputs⟩, trivial, trivial⟩, trivial⟩

theorem itemCode_ends {className : String} {P : Code → Prop}
    (h : ∀ itemHint, Ends F (emitFunction byScope d className itemHint) P) :
    (∃ itemHint function, itemCode d className =
      .ok [wrapper d className itemHint, .line .blank, .line .blank, function] ∧ P function) ∨
    ∃ f, itemCode d className = .error f ∧ F f := by
  have hfunction := h (d.yielded.hint (d.generics.map GenericParam.name))
  simp only [itemCode, bind, Except.bind]
  obtain ⟨_, found, hrun, -⟩ | ⟨f, hrun, hf⟩ := hfunction (.start [])
  · rw [hrun]
    obtain ⟨function, ns, hrun', hP⟩ | ⟨f, hrun', hf⟩ := hfunction (.start found.free)
    · exact .inl ⟨_, function, by simp only [hrun']; rfl, hP⟩
    · exact .inr ⟨f, by simp only [hrun'], hf⟩
  · exact .inr ⟨f, by rw [hrun], hf⟩

end Yielding.Script

namespace Yielding.Flow

open Script

/-! ## Checked items -/

theorem definition_lowered {F : Failure → Prop} {E : Prop} {file : Option String} {d : Definition}
    (hE : E → F .emptyConversion) (hw : d.Under (written E))
    (hv : hasErrors (d.validate file) = false) : d.lower.Under (lowered F d.lower.isAsync) := by
  simp only [Definition.validate, hasErrors_append, Bool.or_eq_false_iff] at hv
  exact lower_under (definition_checked hE hw hv.1.1.1)

/-- **The code of an item that passes the checks**; none is written only if a text is to be made
from nothing. -/
theorem itemCode_checked {file : Option String} {d : Definition} (className : String)
    (hw : d.Under (written True)) (hv : hasErrors (d.validate file) = false) :
    (∃ itemHint function, itemCode d.lower className =
      .ok [wrapper d.lower className itemHint, .line .blank, .line .blank, function] ∧
        LegalFunction d function ∧ ∃ body, HasGenerator d function body ∧
          rowYields body = (blockShowsSuspension d.lower.body || !blockSuspends d.lower.body)) ∨
    itemCode d.lower className = .error .emptyConversion := by
  have hlowered := definition_lowered (F := (· = .emptyConversion)) (fun _ => rfl) hw hv
  obtain hcode | ⟨f, hf, rfl⟩ := itemCode_ends (emitFunction_fits byScope_plain hlowered className)
  · exact .inl hcode
  · exact .inr hf

/-- **An item that passes the checks has legal code.**  The item is as it can be written, without
the statements that only lowering makes.  Its code is the class that wraps it and its function; no
code is written only if a text is to be made from nothing.  In that function every `break` and
`continue` stands in a loop of its own function, every `yield` in the generator, every `await` in
the generator of an asynchronous item, every `return` of the generator is without a value, and
nothing before the final `return` of the item's function yields, awaits or returns. -/
theorem itemCode_legal (file : Option String) (d : Definition) (className : String)
    (hw : d.Under (written True)) (hv : hasErrors (d.validate file) = false) :
    (∃ itemHint function, itemCode d.lower className =
      .ok [wrapper d.lower className itemHint, .line .blank, .line .blank, function] ∧
        LegalFunction d function) ∨
    itemCode d.lower className = .error .emptyConversion := by
  obtain ⟨itemHint, function, hok, hlegal, -⟩ | hf := itemCode_checked className hw hv
  · exact .inl ⟨itemHint, function, hok, hlegal⟩
  · exact .inr hf

/-- An asynchronous item: the prelude `loop { break; } fn g() { return Some(h()?); }` and the body
`while g()? { if x.await { continue; } yield 1; } return;`. -/
def watchful : Definition :=
  { (default : Definition) with
    name := "f", yielded := .ofName "i32", form := .block, isAsync := true
    prelude := [
      .loop default (.mk [.breakLoop default] default none),
      .fn default "g" [] none
        (.mk [.ret default (some (.call default (.name default "Some")
          [.attempt default (.call default (.name default "h") [])]))] default none)]
    body := .mk [
      .whileDo default (.test (.attempt default (.call default (.name default "g") [])))
        (.mk [
          .ifElse default (.test (.await default (.name default "x")))
            (.mk [.continueLoop default] default none) none,
          yieldOne] default none),
      .ret default none] default none }

theorem watchful_legal :
    watchful.Under (written True) ∧ hasErrors (watchful.validate none) = false ∧
    ∃ itemHint function, itemCode watchful.lower "_FIteratorItem" =
      .ok [wrapper watchful.lower "_FIteratorItem" itemHint, .line .blank, .line .blank, function] ∧
        LegalFunction watchful function := by
  have hw : watchful.Under (written True) :=
    ⟨⟨⟨trivial, ⟨trivial, trivial⟩, nofun⟩,
        ⟨trivial, ⟨⟨trivial, fun _ _ _ _ _ => trivial⟩, trivial⟩, nofun⟩, trivial⟩,
      ⟨⟨⟨trivial, fun _ _ _ => trivial, ⟨⟨trivial, fun _ _ _ => trivial, ⟨trivial, trivial⟩, nofun⟩,
        ⟨trivial, fun _ _ _ => trivial⟩, trivial⟩, nofun⟩, ⟨trivial, nofun⟩, trivial⟩, nofun⟩,
      nofun⟩
  have hv : hasErrors (watchful.validate none) = false := by decide
  refine ⟨hw, hv, ?_⟩
  have hok : (itemCode watchful.lower "_FIteratorItem").toBool = true := by decide +kernel
  obtain hlegal | hf := itemCode_legal none watchful "_FIteratorItem" hw hv
  · exact hlegal
  · rw [hf] at hok
    cases hok

end Yielding.Flow

namespace Yielding.Flow

/-!
## When the body of an item is a generator

What makes the function `__body` a generator is a `yield` of its own.  One is put at its end where
the lowered body suspends nowhere.  Yet a body may suspend where no code is written, in the arms of
a match below one that always applies; if it suspends nowhere else, `__body` is no generator
(`itemCode_yields_iff`, `unreached_yield_is_lost`).
-/

open Script

/-- **The body of an item that passes the checks is a generator unless all its suspensions stand in
arms that no code is written for.**  The item is as it can be written; no code is written at all
only if a text is to be made from nothing. -/
theorem itemCode_yields_iff (file : Option String) (d : Definition) (className : String)
    (hw : d.Under (written True)) (hv : hasErrors (d.validate file) = false) :
    (∃ itemHint function body, itemCode d.lower className =
      .ok [wrapper d.lower className itemHint, .line .blank, .line .blank, function] ∧
        HasGenerator d function body ∧ (rowYields body = true ↔
          (blockSuspends d.lower.body = true → blockShowsSuspension d.lower.body = true))) ∨
    itemCode d.lower className = .error .emptyConversion := by
  obtain ⟨itemHint, function, hok, -, body, hbody, hyields⟩ | hf := itemCode_checked className hw hv
  · refine .inl ⟨itemHint, function, body, hok, hbody, ?_⟩
    rw [hyields]
    cases blockSuspends d.lower.body <;> simp
  · exact .inr hf

def matching (arms : List Arm) : Definition :=
  numbers [] [.matchOn default (.call default (.name default "g") []) arms]

def yieldingArm (pattern : Pattern) : Arm :=
  .mk default pattern none (.mk [yieldOne] default none)

theorem yieldingArm_under : rowUnder (written True) .generator false [yieldOne] :=
  ⟨⟨trivial, fun _ _ _ => trivial⟩, trivial⟩

def idleArm : Arm := .mk default (.wildcard default) none (.mk [] default none)

/-- `match g() { 1 => { yield 1; } _ => {} 2 => { yield 1; } }`. -/
def partlyReached : Definition :=
  matching [yieldingArm (.literal default (.int 1 none)), idleArm,
    yieldingArm (.literal default (.int 2 none))]

theorem partlyReached_yields :
    partlyReached.Under (written True) ∧ hasErrors (partlyReached.validate none) = false ∧
    ∃ itemHint function body, itemCode partlyReached.lower "_FIteratorItem" =
      .ok [wrapper partlyReached.lower "_FIteratorItem" itemHint, .line .blank, .line .blank,
        function] ∧ HasGenerator partlyReached function body ∧ rowYields body = true := by
  have hw : partlyReached.Under (written True) :=
    ⟨trivial, ⟨⟨⟨trivial, fun _ _ _ => trivial, nofun, ⟨yieldingArm_under, nofun⟩, nofun,
      ⟨trivial, nofun⟩, nofun, ⟨yieldingArm_under, nofun⟩, trivial⟩, trivial⟩, nofun⟩, nofun⟩
  have hv : hasErrors (partlyReached.validate none) = false := by decide
  refine ⟨hw, hv, ?_⟩
  have hok : (itemCode partlyReached.lower "_FIteratorItem").toBool = true := by decide
  obtain ⟨itemHint, function, body, hcode, hbody, hyields⟩ | hf :=
    itemCode_yields_iff none partlyReached "_FIteratorItem" hw hv
  · exact ⟨itemHint, function, body, hcode, hbody, hyields.2 fun _ => by decide⟩
  · rw [hf] at hok
    cases hok

/-- `match g() { _ => {} 1 => { yield 1; } }`. -/
def unreached : Definition := matching [idleArm, yieldingArm (.literal default (.int 1 none))]

/-- **A `yield` below an arm that always applies is lost**, and with it the generator. -/
theorem unreached_yield_is_lost :
    unreached.Under (written True) ∧ hasErrors (unreached.validate none) = false ∧
    ∃ itemHint function body, itemCode unreached.lower "_FIteratorItem" =
      .ok [wrapper unreached.lower "_FIteratorItem" itemHint, .line .blank, .line .blank,
        function] ∧ HasGenerator unreached function body ∧ rowYields body = false := by
  have hw : unreached.Under (written True) :=
    ⟨trivial, ⟨⟨⟨trivial, fun _ _ _ => trivial, nofun, ⟨trivial, nofun⟩, nofun,
      ⟨yieldingArm_under, nofun⟩, trivial⟩, trivial⟩, nofun⟩, nofun⟩
  have hv : hasErrors (unreached.validate none) = false := by decide
  refine ⟨hw, hv, ?_⟩
  have hok : (itemCode unreached.lower "_FIteratorItem").toBool = true := by decide
  obtain ⟨itemHint, function, hcode, -, body, hbody, hyields⟩ | hf :=
    itemCode_checked "_FIteratorItem" hw hv
  · exact ⟨itemHint, function, body, hcode, hbody, hyields.trans (by decide)⟩
  · rw [hf] at hok
    cases hok

end Yielding.Flow
