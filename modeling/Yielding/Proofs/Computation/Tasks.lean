import Mathlib.Data.List.Perm.Basic
import Yielding.Proofs.Computation.Protocol

/-!
# Proofs/Computation/Tasks — tasks that share a computation

Tasks resume one awaited computation whose body pauses; at a pause any task may take the next turn.
Whatever the order of the turns, at most one resumption is in progress, the **contended** ones,
begun while it was, fail and change nothing, and the others are given what a plain computation gives
when the body without pauses is resumed one after the other.  There is one exception: the sign of an
awaited end, which a body lets escape, is an error like any other to a plain generator
(`run_sequential`).
-/

namespace Yielding

open List

variable {ι σ α ε : Type}

/-! ## Pauses -/

/-- The segment without its pauses. -/
def Segment.direct : Segment σ α ε → Segment σ α ε
  | .done e => .done e
  | .note text next => .note text next.direct
  | .reenter next => .reenter fun reply => (next reply).direct
  | .close next => .close next.direct
  | .pause next => next.direct

/-- The body without its pauses. -/
def Body.direct (body : Body σ α ε) : Body σ α ε := fun s => (body s).direct

/-- What an awaited generator makes of the reply of a plain one. -/
def Reply.awaited : Reply α ε → Reply α ε
  | .failed .asyncStop => .failed .misuse
  | reply => reply

theorem reply_awaited (e : Ending σ α ε) :
    Generator.awaited.reply e = (Generator.plain.reply e).awaited := by
  cases e with
  | yields | finishes => rfl
  | fails reason => cases reason <;> rfl

theorem awaited_eq_iff (r : Reply α ε) : r.awaited = r ↔ r ≠ .failed .asyncStop := by
  cases r with
  | yielded | completed => simp [Reply.awaited]
  | failed reason => cases reason <;> simp [Reply.awaited]

theorem map_awaited_eq : ∀ rs : List (Reply α ε),
    rs.map Reply.awaited = rs ↔ .failed .asyncStop ∉ rs
  | [] => by simp
  | r :: rs => by
    rw [map_cons, cons.injEq, awaited_eq_iff, map_awaited_eq rs, mem_cons, not_or, ne_comm]

namespace Computation

variable {g : Generator} {body : Body σ α ε} {c : Computation σ α}

theorem complete_direct : ∀ (s : Segment σ α ε) (c : Computation σ α),
    complete s.direct c = complete s c
  | .done _, _ => rfl
  | .note _ next, _ | .close next, _ | .pause next, _ => complete_direct next _
  | .reenter next, c => complete_direct (next (c.refuse?.getD (.failed .concurrent))) c

theorem segment_direct (body : Body σ α ε) (c : Computation σ α) (signal : Signal α) :
    segment body.direct c signal = (segment body c signal).direct := by
  cases hp : c.place <;> simp [segment, hp, Body.direct, Segment.direct]

theorem refuse_awaited {r : Reply α ε} (hr : c.refuse? = some r) : r.awaited = r := by
  unfold refuse? at hr
  split at hr
  · cases hr
    rfl
  · split at hr <;> cases hr
    rfl

/-- **A resumption that is waited for**: pauses make no difference, and the kind of the generator
makes one only to the reply. -/
theorem resume_awaited (body : Body σ α ε) (c : Computation σ α) (v : α) :
    c.resume .awaited body v =
      ((c.resume .plain body.direct v).1.awaited, (c.resume .plain body.direct v).2) := by
  rw [resume, resume, segment_direct]
  cases hr : c.refuse? with
  | some reply => simp only [refuse_awaited hr]
  | none => simp only [conclude, complete_direct, reply_awaited]

theorem replies_awaited (body : Body σ α ε) : ∀ (vs : List α) (c : Computation σ α),
    c.replies .awaited body (vs.map .resume) =
      (c.replies .plain body.direct (vs.map .resume)).map Reply.awaited
  | [], _ => rfl
  | v :: vs, c => by
    simp only [map_cons, replies, resume_awaited body c v, replies_awaited body vs]

/-- What a resumption has come to leads to the given result: it is the result, or the computation is
still running and the rest of the segment leads there. -/
def Leads (g : Generator) (result : Reply α ε × Computation σ α) :
    Progress σ α ε × Computation σ α → Prop
  | (.settled reply, c) => result = (reply, c)
  | (.pending rest, c) =>
    rest.NeverCloses ∧ c.running = true ∧ c.finished = false ∧ result = conclude g rest c

/-- **Running a segment up to its next pause leads to where it ends.** -/
theorem leads_advance : ∀ (s : Segment σ α ε) {c : Computation σ α}, s.NeverCloses →
    c.running = true → c.finished = false → Leads g (conclude g s c) (advance g s c)
  | .done _, _, _, _, _ => rfl
  | .note text next, c, hs, hr, hf =>
    leads_advance next (c := { c with notes := c.notes ++ [text] }) hs hr hf
  | .reenter next, c, hs, hr, hf => by
    rw [advance, conclude, complete, refuse_running hr hf]
    exact leads_advance (next (.failed .concurrent)) (hs _) hr hf
  | .pause next, _, hs, hr, hf => ⟨hs, hr, hf, rfl⟩

theorem Idle.leads_begin (h : c.Idle) (hbody : body.NeverCloses) (v : α) :
    Leads g (c.resume g body v) (c.begin g body v) := by
  cases ht : c.next? v with
  | none =>
    have hf : c.finished = true := by rw [h.finished_eq v, ht]; rfl
    rw [resume_of_finished hf, begin_of_finished hf]
    rfl
  | some t =>
    rw [h.resume_eq ht, h.begin_of_next ht]
    exact leads_advance (body t) (hbody t) rfl (h.not_finished ht)

/-! ## One more resumption -/

theorem after_concat (g : Generator) (body : Body σ α ε) :
    ∀ (c : Computation σ α) (calls : List (Call α)) (v : α),
      c.after g body (calls ++ [.resume v]) = ((c.after g body calls).resume g body v).2
  | _, [], _ => rfl
  | c, .resume w :: calls, v => after_concat g body (c.resume g body w).2 calls v
  | c, .close :: calls, v => after_concat g body (c.close g body).2 calls v

theorem replies_concat (g : Generator) (body : Body σ α ε) :
    ∀ (c : Computation σ α) (calls : List (Call α)) (v : α),
      c.replies g body (calls ++ [.resume v]) =
        c.replies g body calls ++ [((c.after g body calls).resume g body v).1]
  | _, [], _ => rfl
  | c, .resume w :: calls, v =>
    congrArg (_ :: ·) (replies_concat g body (c.resume g body w).2 calls v)
  | c, .close :: calls, v => replies_concat g body (c.close g body).2 calls v

end Computation

/-! ## Pools -/

/-- A resumption that a task asks for.  It is **contended** if another one is in progress then. -/
structure Request (ι α : Type) where
  number : Nat
  task : ι
  value : α
  contended : Bool

/-- A computation and the tasks that resume it. -/
structure Pool (ι σ α ε : Type) where
  computation : Computation σ α
  /-- How many resumptions have been asked for. -/
  requests : Nat
  /-- The resumptions that wait at a pause of the body, with the rest of the segment. -/
  inProgress : List (Request ι α × Segment σ α ε)
  /-- The replies that have been handed out, in order. -/
  answered : List (Request ι α × Reply α ε)

/-- Who goes on. -/
inductive Turn (ι α : Type)
  /-- A task begins a resumption. -/
  | ask (task : ι) (value : α)
  /-- The task of one of the resumptions in progress goes on from the pause. -/
  | proceed (index : Nat)

/-- What is asked for in a turn: who asks, and with which value. -/
def Turn.asked? : Turn ι α → Option (ι × α)
  | ask task value => some (task, value)
  | proceed _ => none

namespace Pool

open Yielding.Computation

variable {body : Body σ α ε} {s : σ} {p : Pool ι σ α ε}

/-- A pool of a body that has not started. -/
def create (s : σ) : Pool ι σ α ε := ⟨.create s, 0, [], []⟩

/-- How far the resumption `r` has come, with the others in progress. -/
def record (p : Pool ι σ α ε) (r : Request ι α) (others : List (Request ι α × Segment σ α ε)) :
    Progress σ α ε × Computation σ α → Pool ι σ α ε
  | (.settled reply, c) =>
    { p with computation := c, inProgress := others, answered := p.answered ++ [(r, reply)] }
  | (.pending rest, c) => { p with computation := c, inProgress := (r, rest) :: others }

/-- A turn. -/
def step (body : Body σ α ε) (p : Pool ι σ α ε) : Turn ι α → Pool ι σ α ε
  | .ask task value =>
    { p with requests := p.requests + 1 }.record ⟨p.requests, task, value, !p.inProgress.isEmpty⟩
      p.inProgress (p.computation.begin .awaited body value)
  | .proceed i =>
    match p.inProgress[i]? with
    | none => p
    | some (r, rest) =>
      p.record r (p.inProgress.eraseIdx i) (advance .awaited rest p.computation)

/-- Turns one after the other. -/
def run (body : Body σ α ε) (p : Pool ι σ α ε) (turns : List (Turn ι α)) : Pool ι σ α ε :=
  turns.foldl (step body) p

/-- The resumptions that were answered and not contended. -/
def granted (p : Pool ι σ α ε) : List (Request ι α × Reply α ε) :=
  p.answered.filter fun a => !a.1.contended

/-- The granted resumptions as calls. -/
def calls (p : Pool ι σ α ε) : List (Call α) := (p.granted.map (·.1.value)).map .resume

/-- What the resumptions that are answered or in progress ask for, with their numbers. -/
def asks (p : Pool ι σ α ε) : List ((ι × α) × Nat) :=
  (p.answered.map (·.1) ++ p.inProgress.map (·.1)).map fun r => ((r.task, r.value), r.number)

/-! ## Every resumption is answered once -/

theorem asks_record (p : Pool ι σ α ε) (r : Request ι α)
    (others : List (Request ι α × Segment σ α ε)) (x : Progress σ α ε × Computation σ α) :
    (p.record r others x).asks.Perm ((r :: (p.answered.map (·.1) ++ others.map (·.1))).map
      fun r => ((r.task, r.value), r.number)) := by
  obtain ⟨progress, c⟩ := x
  refine Perm.map _ ?_
  cases progress with
  | settled reply =>
    simp only [record, map_append, map_cons, map_nil, append_assoc, singleton_append]
    exact perm_middle
  | pending rest => exact perm_middle

theorem step_asks (body : Body σ α ε) {asked : List (ι × α)} (turn : Turn ι α)
    (h : p.asks.Perm asked.zipIdx ∧ p.requests = asked.length) :
    (p.step body turn).asks.Perm (asked ++ turn.asked?.toList).zipIdx ∧
      (p.step body turn).requests = (asked ++ turn.asked?.toList).length := by
  have hrequests : ∀ (q : Pool ι σ α ε) (r : Request ι α) (others) (x),
      (q.record r others x).requests = q.requests := by
    rintro q r others ⟨progress, c⟩
    cases progress <;> rfl
  obtain ⟨hasks, hlength⟩ := h
  cases turn with
  | ask task value =>
    rw [step, hrequests, hlength, Turn.asked?, Option.toList, zipIdx_append]
    refine ⟨(asks_record _ _ _ _).trans ?_, by simp⟩
    simp only [map_cons, zipIdx_cons, zipIdx_nil, Nat.zero_add]
    exact (hasks.cons _).trans (perm_append_singleton _ _).symm
  | proceed i =>
    rw [step, Turn.asked?, Option.toList, append_nil]
    split
    · exact ⟨hasks, hlength⟩
    · next r rest hi =>
      rw [hrequests]
      refine ⟨((asks_record _ _ _ _).trans (perm_middle.symm.map _)).trans (.trans ?_ hasks),
        hlength⟩
      obtain ⟨hlt, hget⟩ := List.getElem?_eq_some_iff.1 hi
      have hperm := (getElem_cons_eraseIdx_perm hlt).map (·.1)
      rw [hget] at hperm
      exact (hperm.append_left _).map _

theorem run_asks (turns : List (Turn ι α)) : ∀ {p : Pool ι σ α ε} (asked : List (ι × α)),
    p.asks.Perm asked.zipIdx ∧ p.requests = asked.length →
    (p.run body turns).asks.Perm (asked ++ turns.filterMap Turn.asked?).zipIdx := by
  induction turns with
  | nil => exact fun _ h => by simpa [run] using h.1
  | cons turn turns ih =>
    intro p asked h
    have hrest := ih _ (step_asks body turn h)
    rw [append_assoc] at hrest
    cases turn <;> exact hrest

/-! ## The turns come to resumptions one after the other -/

/-- The computation that was resumed once for each granted resumption, one after the other. -/
def resumed (body : Body σ α ε) (s : σ) (p : Pool ι σ α ε) : Computation σ α :=
  (Computation.create s).after .awaited body p.calls

/-- The resumption `r` is in progress and no other, and what is left of it leads to what resuming
`c` with its value leads to. -/
structure Busy (body : Body σ α ε) (p : Pool ι σ α ε) (c : Computation σ α) (r : Request ι α)
    (rest : Segment σ α ε) : Prop where
  inProgress : p.inProgress = [(r, rest)]
  granted : r.contended = false
  leads : Leads .awaited (c.resume .awaited body r.value) (.pending rest, p.computation)

/-- What holds of a pool after any turns: beside the computation that was resumed for each granted
resumption, none is in progress and the computations are the same, or one is. -/
structure Orderly (body : Body σ α ε) (s : σ) (p : Pool ι σ α ε) : Prop where
  beside : (p.inProgress = [] ∧ p.computation = p.resumed body s) ∨
    ∃ r rest, p.Busy body (p.resumed body s) r rest
  granted : p.granted.map (·.2) = (Computation.create s).replies .awaited body p.calls
  contended : ∀ a ∈ p.answered, a.1.contended = true → a.2 = .failed .concurrent

theorem orderly_create (s : σ) : (create s : Pool ι σ α ε).Orderly body s :=
  ⟨.inl ⟨rfl, rfl⟩, rfl, nofun⟩

variable {r : Request ι α} {rest : Segment σ α ε}

theorem Busy.step_ask {c : Computation σ α} (h : p.Busy body c r rest) (task : ι) (value : α) :
    p.step body (.ask task value) =
      { p with
        requests := p.requests + 1
        answered := p.answered ++ [(⟨p.requests, task, value, true⟩, .failed .concurrent)] } := by
  obtain ⟨-, hrunning, hfinished, -⟩ := h.leads
  rw [step, begin, refuse_running hrunning hfinished, h.inProgress]
  rfl

theorem orderly_record (h : p.Orderly body s) (hr : r.contended = false)
    {x : Progress σ α ε × Computation σ α} {n : Nat}
    (hx : Leads .awaited ((p.resumed body s).resume .awaited body r.value) x) :
    ({ p with requests := n }.record r [] x).Orderly body s := by
  obtain ⟨progress, c⟩ := x
  cases progress with
  | settled reply =>
    have hgranted : ({ p with requests := n }.record r [] (.settled reply, c)).granted =
        p.granted ++ [(r, reply)] := by
      simp [Pool.granted, record, filter_append, hr]
    have hcalls : ({ p with requests := n }.record r [] (.settled reply, c)).calls =
        p.calls ++ [.resume r.value] := by
      simp [calls, hgranted]
    have hresume : (p.resumed body s).resume .awaited body r.value = (reply, c) := hx
    refine ⟨.inl ⟨rfl, ?_⟩, ?_, forall_mem_append.2 ⟨h.contended, ?_⟩⟩
    · rw [resumed, hcalls, after_concat, ← resumed, hresume]
      rfl
    · rw [hcalls, replies_concat, hgranted, map_append, h.granted, ← resumed, hresume]
      rfl
    · simp [hr]
  | pending rest => exact ⟨.inr ⟨r, rest, rfl, hr, hx⟩, h.granted, h.contended⟩

theorem Busy.orderly_ask (hbusy : p.Busy body (p.resumed body s) r rest) (h : p.Orderly body s)
    (task : ι) (value : α) : (p.step body (.ask task value)).Orderly body s := by
  rw [hbusy.step_ask]
  have hgranted : ({ p with
      requests := p.requests + 1
      answered := p.answered ++ [(⟨p.requests, task, value, true⟩, .failed .concurrent)] } :
      Pool ι σ α ε).granted = p.granted := by
    simp [Pool.granted, filter_append]
  refine ⟨.inr ⟨r, rest, hbusy.inProgress, hbusy.granted, ?_⟩, ?_,
    forall_mem_append.2 ⟨h.contended, by simp⟩⟩
  · rw [resumed, calls, hgranted]
    exact hbusy.leads
  · rw [calls, hgranted]
    exact h.granted

/-- **Every turn leaves a pool orderly.** -/
theorem Orderly.step (hbody : body.NeverCloses) (h : p.Orderly body s) (turn : Turn ι α) :
    (p.step body turn).Orderly body s := by
  have hidle := (idle_create s).after (g := .awaited) hbody p.calls
  rcases h.beside with ⟨hp, hc⟩ | ⟨r, rest, hbusy⟩
  · cases turn with
    | ask task value =>
      rw [Pool.step, hp, hc]
      exact orderly_record h rfl (hidle.leads_begin hbody value)
    | proceed i =>
      rw [Pool.step, hp]
      exact h
  · cases turn with
    | ask task value => exact hbusy.orderly_ask h task value
    | proceed i =>
      rw [Pool.step, hbusy.inProgress]
      cases i with
      | succ i => exact h
      | zero =>
        obtain ⟨hrest, hrunning, hfinished, heq⟩ := hbusy.leads
        refine orderly_record h (n := p.requests) hbusy.granted ?_
        rw [heq]
        exact leads_advance _ hrest hrunning hfinished

theorem Orderly.run (hbody : body.NeverCloses) (turns : List (Turn ι α)) :
    ∀ {p : Pool ι σ α ε}, p.Orderly body s → (p.run body turns).Orderly body s := by
  induction turns with
  | nil => exact fun h => h
  | cons turn turns ih => exact fun h => ih (h.step hbody turn)

/-- **Tasks that share a computation neither lose nor repeat nor reorder its replies.**  Whatever
turns they take, at most one resumption is in progress; one that is asked for meanwhile fails and
leaves the computation and the one in progress as they are, and only such ones are contended; the
others are handed out, in order, what a plain computation of the body without pauses gives when it
is resumed with their values one after the other, unless that is the sign of an awaited end; and the
resumptions that are answered, each once, or in progress are those that the turns ask for. -/
theorem run_sequential (body : Body σ α ε) (hbody : body.NeverCloses) (s : σ)
    (turns : List (Turn ι α)) :
    let p := (create s : Pool ι σ α ε).run body turns
    let direct := (Computation.create s).replies .plain body.direct p.calls
    p.inProgress.length ≤ 1 ∧
    (p.inProgress ≠ [] → ∀ task value, p.step body (.ask task value) =
      { p with
        requests := p.requests + 1
        answered := p.answered ++ [(⟨p.requests, task, value, true⟩, .failed .concurrent)] }) ∧
    (∀ a ∈ p.answered, a.1.contended = true → a.2 = .failed .concurrent) ∧
    p.granted.map (·.2) = direct.map Reply.awaited ∧
    (p.granted.map (·.2) = direct ↔ .failed .asyncStop ∉ direct) ∧
    p.asks.Perm (turns.filterMap Turn.asked?).zipIdx := by
  intro p direct
  have h : p.Orderly body s := (orderly_create s).run hbody turns
  have hgranted : p.granted.map (·.2) = direct.map Reply.awaited :=
    h.granted.trans (replies_awaited body _ _)
  refine ⟨?_, ?_, h.contended, hgranted, ?_, run_asks turns [] ⟨.refl _, rfl⟩⟩
  · rcases h.beside with ⟨hp, -⟩ | ⟨r, rest, hbusy⟩
    · simp [hp]
    · simp [hbusy.inProgress]
  · intro hne task value
    rcases h.beside with ⟨hp, -⟩ | ⟨r, rest, hbusy⟩
    · exact absurd hp hne
    · exact hbusy.step_ask task value
  · rw [hgranted]
    exact map_awaited_eq direct

/-- A body that pauses and yields what it has received, and `0` at first. -/
def pausing : Body (Option Nat) Nat Unit := fun received =>
  .pause (.done (.yields (received.getD 0) fun
    | .sent value => value
    | .exit => none))

theorem pausing_run :
    pausing.NeverCloses ∧
    [.yielded 0, .yielded 7] = ((Computation.create none).replies .plain pausing.direct
      [.resume 5, .resume 7]).map Reply.awaited := by
  have hopen : pausing.NeverCloses := fun _ => trivial
  exact ⟨hopen, (run_sequential pausing hopen none [.ask "first" 5, .ask "second" 6, .proceed 0,
    .ask "second" 7, .proceed 0]).2.2.2.1⟩

/-- The sign of an awaited end comes out of the two kinds of generators in different ways. -/
theorem awaited_sign_differs :
    let leaving : Body Unit Unit Unit := fun _ => .done (.fails .asyncStop)
    ((create () : Pool Unit Unit Unit Unit).run leaving [.ask () ()]).granted.map (·.2) =
        [.failed .misuse] ∧
      (Computation.create ()).replies .plain leaving.direct [.resume ()] = [.failed .asyncStop] :=
  ⟨rfl, rfl⟩

end Pool

end Yielding
