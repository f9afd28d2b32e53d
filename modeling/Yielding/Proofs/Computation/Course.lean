import Yielding.Computation.Basic

/-!
# Proofs/Computation/Course — what a resumption and a closing do

A segment of a body, taken by itself, has an **ending**: whatever it asks of its own computation on
the way is refused, in one way while it is resumed and in another while it is closed
(`complete_eq`).  So a resumption of an idle computation gives the reply for that ending and leaves
the body where the ending leaves it (`Idle.resume_of_next`).  A computation is **idle** when nothing
is under way and, as long as it is not finished, its flags tell where its body is; it begins idle
and every call leaves it idle.
-/

namespace Yielding

variable {σ α ε : Type}

/-! ## Endings -/

namespace Segment

/-- How the segment ends when every resumption that it makes of its own computation comes to `r`. -/
def ending (r : Reply α ε) : Segment σ α ε → Ending σ α ε
  | .done e => e
  | .reenter next => (next r).ending r
  | .note _ next | .close next | .pause next => next.ending r

/-- The notes that the segment leaves on the way there. -/
def notes (r : Reply α ε) : Segment σ α ε → List String
  | .done _ => []
  | .note text next => text :: next.notes r
  | .reenter next => (next r).notes r
  | .close next | .pause next => next.notes r

/-- The segment does not close its own computation, whatever it is told. -/
def NeverCloses : Segment σ α ε → Prop
  | .done _ => True
  | .note _ next | .pause next => next.NeverCloses
  | .reenter next => ∀ reply, (next reply).NeverCloses
  | .close _ => False

end Segment

/-- The body leaves the closing of its computation to others. -/
def Body.NeverCloses (body : Body σ α ε) : Prop := ∀ s, (body s).NeverCloses

namespace Computation

variable {g : Generator} {body : Body σ α ε} {c : Computation σ α}

/-- The computation after a resumption that ran the segment. -/
def finish (c : Computation σ α) (s : Segment σ α ε) : Computation σ α where
  place := (s.ending (.failed .concurrent)).place
  started := true
  running := false
  finished := (s.ending (.failed .concurrent)).isLast
  notes := c.notes ++ s.notes (.failed .concurrent)

/-! ## Segments -/

theorem refuse_running (hr : c.running = true) (hf : c.finished = false) :
    c.refuse? = some (.failed .concurrent : Reply α ε) := by
  simp [refuse?, hr, hf]

theorem refuse_finished (hf : c.finished = true) :
    c.refuse? = some (.completed : Reply α ε) := by
  simp [refuse?, hf]

/-- **A resumption that is refused changes nothing.** -/
theorem resume_refused {r : Reply α ε} (hr : c.refuse? = some r) (g : Generator)
    (body : Body σ α ε) (v : α) : c.resume g body v = (r, c) := by
  rw [resume, hr]

/-- **A segment that runs to its end** in a computation that refuses to be resumed. -/
theorem complete_eq {r : Reply α ε} : ∀ (s : Segment σ α ε) {c : Computation σ α}, s.NeverCloses →
    c.refuse? = some r →
    complete s c = (s.ending r, { c with notes := c.notes ++ s.notes r })
  | .done e, c, _, _ => by simp [complete, Segment.ending, Segment.notes]
  | .note text next, c, hs, hr => by
    have hnext := complete_eq next (c := { c with notes := c.notes ++ [text] }) hs hr
    rw [complete, hnext]
    simp [Segment.ending, Segment.notes]
  | .reenter next, c, hs, hr => by
    rw [complete, hr]
    exact complete_eq (next r) (hs r) hr
  | .pause next, c, hs, hr => complete_eq next hs hr

/-- **What a closing does** to a body that waits. -/
theorem close_of_waiting (hbody : body.NeverCloses) {next : Signal α → σ}
    (hp : c.place = .waiting next) (g : Generator) : c.close g body =
      (g.leftover? ((body (next .exit)).ending .completed),
        { c with
          place := ((body (next .exit)).ending .completed).place
          finished := true
          notes := c.notes ++ (body (next .exit)).notes .completed }) := by
  obtain ⟨place, started, running, finished, notes⟩ := c
  obtain rfl : place = .waiting next := hp
  simp only [close, leave, complete_eq (body (next .exit)) (hbody _)
    (refuse_finished (c := ⟨.waiting next, started, running, true, notes⟩) rfl)]

/-- A closing changes neither whether a resumption is under way nor whether there was one. -/
theorem close_flags (hbody : body.NeverCloses) (g : Generator) (c : Computation σ α) :
    (c.close g body).2.finished = true ∧ (c.close g body).2.running = c.running := by
  cases hp : c.place with
  | start | gone => rw [close, hp]; exact ⟨rfl, rfl⟩
  | waiting next => rw [close_of_waiting hbody hp]; exact ⟨rfl, rfl⟩

/-! ## Idle computations -/

/-- Nothing is under way, and up to the end the flags tell where the body is. -/
def Idle (c : Computation σ α) : Prop :=
  c.running = false ∧ (c.finished = false → match c.place with
    | .start _ => c.started = false
    | .waiting _ => c.started = true
    | .gone => False)

/-- Where the body goes on when the computation is resumed with a value. -/
def next? (c : Computation σ α) (v : α) : Option σ :=
  match c.finished, c.place with
  | false, .start state => some state
  | false, .waiting next => some (next (.sent (some v)))
  | _, _ => none

theorem idle_create (s : σ) : (create s : Computation σ α).Idle := ⟨rfl, fun _ => rfl⟩

theorem Idle.close (h : c.Idle) (hbody : body.NeverCloses) : (c.close g body).2.Idle := by
  obtain ⟨hfinished, hrunning⟩ := close_flags hbody g c
  refine ⟨hrunning.trans h.1, fun hf => ?_⟩
  rw [hfinished] at hf
  cases hf

theorem idle_finish (c : Computation σ α) (s : Segment σ α ε) : (c.finish s).Idle := by
  refine ⟨rfl, ?_⟩
  cases hs : s.ending (.failed .concurrent) <;> simp [finish, hs, Ending.place, Ending.isLast]

theorem Idle.finished_eq (h : c.Idle) (v : α) : c.finished = (c.next? v).isNone := by
  obtain ⟨place, started, running, finished, notes⟩ := c
  cases finished with
  | true => rfl
  | false =>
    cases place with
    | start | waiting => rfl
    | gone => exact absurd (h.2 rfl) id

theorem Idle.not_finished (h : c.Idle) {v : α} {t : σ} (ht : c.next? v = some t) :
    c.finished = false := by
  rw [h.finished_eq v, ht]
  rfl

theorem Idle.segment (h : c.Idle) {v : α} {t : σ} (ht : c.next? v = some t) :
    segment body c (.sent (c.sent v)) = body t := by
  have hf := h.not_finished ht
  obtain ⟨place, started, running, finished, notes⟩ := c
  obtain rfl : finished = false := hf
  cases place with
  | start s => cases ht; rfl
  | waiting next =>
    obtain rfl : started = true := h.2 rfl
    cases ht
    rfl
  | gone => cases ht

theorem Idle.begin_of_next (h : c.Idle) {v : α} {t : σ} (ht : c.next? v = some t) :
    c.begin g body v = advance g (body t) { c with running := true } := by
  simp [begin, refuse?, h.not_finished ht, h.1, h.segment ht]

theorem begin_of_finished (hf : c.finished = true) (g : Generator) (body : Body σ α ε) (v : α) :
    c.begin g body v = (.settled .completed, c) := by
  simp [begin, refuse_finished hf]

theorem Idle.resume_eq (h : c.Idle) {v : α} {t : σ} (ht : c.next? v = some t) :
    c.resume g body v = conclude g (body t) { c with running := true } := by
  simp [resume, refuse?, h.not_finished ht, h.1, h.segment ht]

/-- **What a resumption does to an idle computation whose body goes on at `t`.** -/
theorem Idle.resume_of_next (h : c.Idle) (hbody : body.NeverCloses) {v : α} {t : σ}
    (ht : c.next? v = some t) : c.resume g body v =
      (g.reply ((body t).ending (.failed .concurrent)), c.finish (body t)) := by
  have hf := h.not_finished ht
  rw [h.resume_eq ht, conclude,
    complete_eq (body t) (hbody t) (refuse_running (c := { c with running := true }) rfl hf)]
  simp [settle, finish, hf]

/-- **A body at its end is not run again**, whatever it is. -/
theorem resume_of_finished (hf : c.finished = true) (g : Generator) (body : Body σ α ε) (v : α) :
    c.resume g body v = (.completed, c) :=
  resume_refused (refuse_finished hf) g body v

theorem Idle.resume (h : c.Idle) (hbody : body.NeverCloses) (v : α) :
    (c.resume g body v).2.Idle := by
  cases ht : c.next? v with
  | none =>
    rw [resume_of_finished (by rw [h.finished_eq v, ht]; rfl)]
    exact h
  | some t =>
    rw [h.resume_of_next hbody ht]
    exact idle_finish c (body t)

end Computation

end Yielding
