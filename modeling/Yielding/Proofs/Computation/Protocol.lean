import Yielding.Proofs.Computation.Course

/-!
# Proofs/Computation/Protocol — whole runs of a computation

A computation is resumed and closed from outside in any order.  Up to the first close its replies
are the yields of its body, then once what the generator makes of how the body ended, then
completion for ever; after a close there is nothing but completion (`resume_protocol`).  What a body
yields depends on what it receives: the **course** of a body says for which received values it
yields which values.
-/

namespace Yielding

variable {σ α ε : Type}

/-! ## Courses -/

/-- `Course body s received yielded e`: a body that goes on at `s` yields the values `yielded`, for
each of them receives the value in the same place of `received`, and then comes to the ending
`e`. -/
inductive Course (body : Body σ α ε) : σ → List α → List α → Ending σ α ε → Prop
  | last (s : σ) : Course body s [] [] ((body s).ending (.failed .concurrent))
  | next {s : σ} {y : α} {next : Signal α → σ} {v : α} {vs ys : List α} {e : Ending σ α ε}
      (hs : (body s).ending (.failed .concurrent) = .yields y next)
      (rest : Course body (next (.sent (some v))) vs ys e) : Course body s (v :: vs) (y :: ys) e

/-- The replies to resumptions with the given values, one after the other, of a body that begins at
`s`.  The first value is not received by anything; the resumptions with the values `late` come after
the end of the body. -/
inductive Answers (g : Generator) (body : Body σ α ε) (s : σ) : List α → List (Reply α ε) → Prop
  | none : Answers g body s [] []
  | some (first : α) {received late yielded : List α} {e : Ending σ α ε}
      (course : Course body s received yielded e) (last : late ≠ [] → e.isLast = true) :
      Answers g body s (first :: (received ++ late))
        (yielded.map .yielded ++ g.reply e :: List.replicate late.length .completed)

/-! ## Calls -/

/-- What is done with a computation from outside. -/
inductive Call (α : Type)
  | resume (value : α)
  | close

namespace Call

/-- The values of the resumptions before the first close. -/
def opening : List (Call α) → List α
  | .resume v :: calls => v :: opening calls
  | .close :: _ | [] => []

/-- The values of all resumptions. -/
def passed : List (Call α) → List α
  | .resume v :: calls => v :: passed calls
  | .close :: calls => passed calls
  | [] => []

/-- What the body is told when it resumes its own computation during a call. -/
def refusal : Call α → Reply α ε
  | resume _ => .failed .concurrent
  | close => .completed

theorem passed_resume : ∀ vs : List α, passed (vs.map .resume) = vs
  | [] => rfl
  | v :: vs => congrArg (v :: ·) (passed_resume vs)

end Call

namespace Computation

variable {g : Generator} {body : Body σ α ε} {c : Computation σ α}

/-- The computation after calls, one after the other. -/
def after (g : Generator) (body : Body σ α ε) :
    Computation σ α → List (Call α) → Computation σ α
  | c, [] => c
  | c, .resume v :: calls => after g body (c.resume g body v).2 calls
  | c, .close :: calls => after g body (c.close g body).2 calls

/-- The replies of the resumptions among them. -/
def replies (g : Generator) (body : Body σ α ε) :
    Computation σ α → List (Call α) → List (Reply α ε)
  | _, [] => []
  | c, .resume v :: calls => (c.resume g body v).1 :: replies g body (c.resume g body v).2 calls
  | c, .close :: calls => replies g body (c.close g body).2 calls

/-- **Between calls a computation is idle.** -/
theorem Idle.after (hbody : body.NeverCloses) : ∀ {c : Computation σ α}, c.Idle →
    ∀ calls : List (Call α), (c.after g body calls).Idle
  | _, h, [] => h
  | _, h, .resume v :: calls => (h.resume hbody v).after hbody calls
  | _, h, .close :: calls => (h.close hbody).after hbody calls

/-! ## After the end -/

/-- A computation stays finished, though a closing may run its body again. -/
theorem stays_finished (hbody : body.NeverCloses) : ∀ {c : Computation σ α},
    c.finished = true → ∀ calls : List (Call α), (c.after g body calls).finished = true ∧
      c.replies g body calls = List.replicate (Call.passed calls).length .completed
  | _, hf, [] => ⟨hf, rfl⟩
  | c, hf, .resume v :: calls => by
    rw [after, replies, resume_of_finished hf]
    obtain ⟨hafter, hreplies⟩ := stays_finished hbody hf calls
    exact ⟨hafter, by rw [hreplies]; rfl⟩
  | c, _, .close :: calls => stays_finished hbody (close_flags hbody g c).1 calls

theorem Idle.finished_of_reply (h : c.Idle) (hbody : body.NeverCloses) {v : α}
    (hreply : ∀ y, (c.resume g body v).1 ≠ .yielded y) :
    (c.resume g body v).2.finished = true := by
  cases ht : c.next? v with
  | none =>
    have hf : c.finished = true := by rw [h.finished_eq v, ht]; rfl
    rw [resume_of_finished hf]
    exact hf
  | some t =>
    rw [h.resume_of_next hbody ht] at hreply ⊢
    cases hend : (body t).ending (.failed .concurrent) with
    | yields y next =>
      rw [hend] at hreply
      exact absurd rfl (hreply y)
    | finishes | fails => simp [finish, hend, Ending.isLast]

/-- **After a close or the end of the body** a computation is finished. -/
theorem Idle.finished_after (hbody : body.NeverCloses) : ∀ {c : Computation σ α}, c.Idle →
    ∀ {calls : List (Call α)},
      (.close ∈ calls ∨ ∃ r ∈ c.replies g body calls, ∀ y, r ≠ .yielded y) →
      (c.after g body calls).finished = true
  | _, _, [], hend => by simp [replies] at hend
  | c, h, .close :: calls, _ => (stays_finished hbody (close_flags hbody g c).1 calls).1
  | c, h, .resume v :: calls, hend => by
    rw [Computation.after]
    by_cases hreply : ∀ y, (c.resume g body v).1 ≠ .yielded y
    · exact (stays_finished hbody (h.finished_of_reply hbody hreply) calls).1
    · refine (h.resume hbody v).finished_after hbody (hend.imp (fun hmem => ?_) ?_)
      · simpa using hmem
      · rintro ⟨r, hr, hy⟩
        rcases List.mem_cons.1 hr with rfl | hr
        · exact absurd hy hreply
        · exact ⟨r, hr, hy⟩

/-! ## Replies -/

theorem Idle.replies_eq (hbody : body.NeverCloses) : ∀ {c : Computation σ α}, c.Idle →
    ∀ calls : List (Call α), c.replies g body calls =
      c.replies g body ((Call.opening calls).map .resume) ++
        List.replicate ((Call.passed calls).length - (Call.opening calls).length) .completed
  | _, _, [] => rfl
  | c, h, .close :: calls => by
    rw [replies, (stays_finished hbody (close_flags hbody g c).1 calls).2]
    rfl
  | c, h, .resume v :: calls => by
    rw [replies, (h.resume hbody v).replies_eq hbody calls]
    simp [replies, Call.opening, Call.passed]

/-- **The replies of a body that goes on at `t` are those of its course.** -/
theorem Idle.replies_of_next (hbody : body.NeverCloses) : ∀ {c : Computation σ α}, c.Idle →
    ∀ {v : α} {t : σ}, c.next? v = some t → ∀ vs : List α,
      ∃ received late yielded e, vs = received ++ late ∧ Course body t received yielded e ∧
        (late ≠ [] → e.isLast = true) ∧ c.replies g body (.resume v :: vs.map .resume) =
          yielded.map .yielded ++ g.reply e :: List.replicate late.length .completed
  | c, h, v, t, ht, [] => by
    refine ⟨[], [], [], _, rfl, .last t, fun hne => absurd rfl hne, ?_⟩
    simp [replies, h.resume_of_next hbody ht]
  | c, h, v, t, ht, w :: ws => by
    rw [replies, h.resume_of_next hbody ht]
    cases hend : (body t).ending (.failed .concurrent) with
    | yields y next =>
      have hnext : (c.finish (body t)).next? w = some (next (.sent (some w))) := by
        simp [next?, finish, hend, Ending.place, Ending.isLast]
      obtain ⟨received, late, yielded, e, rfl, course, hlast, hreplies⟩ :=
        (idle_finish c (body t)).replies_of_next hbody hnext ws
      refine ⟨w :: received, late, y :: yielded, e, rfl, .next hend course, hlast, ?_⟩
      rw [List.map_cons, hreplies]
      rfl
    | finishes | fails =>
      have hfinished : (c.finish (body t)).finished = true := by
        simp [finish, hend, Ending.isLast]
      refine ⟨[], w :: ws, [], _, rfl, .last t, fun _ => by rw [hend]; rfl, ?_⟩
      rw [(stays_finished hbody hfinished _).2, hend, Call.passed_resume]
      rfl

theorem replies_answers (hbody : body.NeverCloses) (s : σ) (vs : List α) :
    Answers g body s vs ((create s).replies g body (vs.map .resume)) := by
  cases vs with
  | nil => exact .none
  | cons v vs =>
    obtain ⟨received, late, yielded, e, rfl, course, hlast, hreplies⟩ :=
      (idle_create s).replies_of_next (v := v) hbody rfl vs
    rw [List.map_cons, hreplies]
    exact .some v course hlast

/-! ## Resumptions from inside -/

/-- A call begins a segment of the body in the computation `c'`. -/
inductive Begins (body : Body σ α ε) (c : Computation σ α) :
    Call α → Segment σ α ε → Computation σ α → Prop
  | resume (v : α) (h : c.refuse? = (none : Option (Reply α ε))) :
      Begins body c (.resume v) (segment body c (.sent (c.sent v))) { c with running := true }
  | close {next : Signal α → σ} (h : c.place = .waiting next) :
      Begins body c .close (body (next .exit)) { c with finished := true }

/-- A segment that runs in `c` comes to the rest `s'` of it, and the computation is `c'` then.  What
the segment asks of its own computation is a resumption like any other, with any value. -/
inductive Passes (g : Generator) (body : Body σ α ε) : Segment σ α ε → Computation σ α →
    Segment σ α ε → Computation σ α → Prop
  | here (s : Segment σ α ε) (c : Computation σ α) : Passes g body s c s c
  | note {text : String} {next s' : Segment σ α ε} {c c' : Computation σ α}
      (rest : Passes g body next { c with notes := c.notes ++ [text] } s' c') :
      Passes g body (.note text next) c s' c'
  | pause {next s' : Segment σ α ε} {c c' : Computation σ α} (rest : Passes g body next c s' c') :
      Passes g body (.pause next) c s' c'
  | reenter {next : Reply α ε → Segment σ α ε} {s' : Segment σ α ε} {c c' : Computation σ α} (w : α)
      (rest : Passes g body (next (c.resume g body w).1) (c.resume g body w).2 s' c') :
      Passes g body (.reenter next) c s' c'

/-- **A segment that is refused a resumption is refused all of them**, and none changes anything. -/
theorem Passes.refuses {r : Reply α ε} {s s' : Segment σ α ε} {c c' : Computation σ α}
    (h : Passes g body s c s' c') : s.NeverCloses → c.refuse? = some r →
    c'.refuse? = some r ∧ complete s c = complete s' c' := by
  induction h with
  | here s c => exact fun _ hr => ⟨hr, rfl⟩
  | note rest ih => exact fun hs hr => ih hs hr
  | pause rest ih => exact fun hs hr => ih hs hr
  | @reenter next s' c c' w rest ih =>
    intro hs hr
    rw [resume_refused hr] at ih
    obtain ⟨hr', heq⟩ := ih (hs r) hr
    refine ⟨hr', ?_⟩
    rw [complete, hr]
    exact heq

theorem Idle.segment_neverCloses (h : c.Idle) (hbody : body.NeverCloses) {v : α}
    (hr : c.refuse? = (none : Option (Reply α ε))) :
    (Computation.segment body c (.sent (c.sent v))).NeverCloses := by
  cases ht : c.next? v with
  | none =>
    rw [refuse_finished (by rw [h.finished_eq v, ht]; rfl)] at hr
    cases hr
  | some t =>
    rw [h.segment ht]
    exact hbody t

theorem Idle.begins (h : c.Idle) (hbody : body.NeverCloses) {call : Call α}
    {s : Segment σ α ε} {c' : Computation σ α} (hbegin : c.Begins body call s c') :
    s.NeverCloses ∧ c'.refuse? = some (call.refusal : Reply α ε) := by
  cases hbegin with
  | resume v hr =>
    have hf : c.finished = false := Bool.eq_false_iff.2 fun hf => by
      rw [refuse_finished hf] at hr
      cases hr
    exact ⟨h.segment_neverCloses hbody hr, refuse_running rfl hf⟩
  | close hp => exact ⟨hbody _, refuse_finished rfl⟩

/-! ## The protocol -/

/-- **The protocol of a computation**, for any body that leaves the closing to others and any calls.
The replies before the first close are those of the course of the body, with its last error as the
generator lets it out, and all others are completion; nothing is under way between calls; after a
close or the end of the body a resumption changes nothing, whatever the body would do; and a
resumption that the body makes while it runs changes nothing and lets the body go on: it fails
during a resumption, and reports completion while the body leaves. -/
theorem resume_protocol (body : Body σ α ε) (hbody : body.NeverCloses) (s : σ)
    (calls : List (Call α)) :
    let c := (create s).after .plain body calls
    (∃ early, Answers .plain body s (Call.opening calls) early ∧
      (create s).replies .plain body calls = early ++
        List.replicate ((Call.passed calls).length - (Call.opening calls).length) .completed) ∧
    c.running = false ∧
    ((.close ∈ calls ∨ ∃ r ∈ (create s).replies .plain body calls, ∀ y, r ≠ .yielded y) →
      ∀ (other : Body σ α ε) (v : α), c.resume .plain other v = (.completed, c)) ∧
    ∀ (call : Call α) (first : Segment σ α ε) (next : Reply α ε → Segment σ α ε)
      (begun inside : Computation σ α), c.Begins body call first begun →
      Passes .plain body first begun (.reenter next) inside →
      (∀ w, inside.resume .plain body w = (call.refusal, inside)) ∧
      complete first begun = complete (next call.refusal) inside := by
  intro c
  have hidle : c.Idle := (idle_create s).after hbody calls
  refine ⟨⟨_, replies_answers hbody s _, (idle_create s).replies_eq hbody calls⟩, hidle.1, ?_, ?_⟩
  · intro hend other v
    exact resume_of_finished ((idle_create s).finished_after hbody hend) .plain other v
  · intro call first next begun inside hbegin hpass
    obtain ⟨hfirst, hbegun⟩ := hidle.begins hbody hbegin
    obtain ⟨hinside, heq⟩ := hpass.refuses hfirst hbegun
    refine ⟨fun w => resume_refused hinside .plain body w, ?_⟩
    rw [heq, complete, hinside]
    rfl

/-- A body that resumes its own computation and yields `7` when that fails; then it yields what it
receives, up to a `0`, for which it lets the sign of an end escape.  When it is to leave, it resumes
its own computation once more. -/
def echoing : Body (Signal Nat) Nat Unit
  | .sent none => .reenter fun
    | .failed _ => .done (.yields 7 id)
    | _ => .done .finishes
  | .sent (some 0) => .done (.fails .stop)
  | .sent (some (v + 1)) => .done (.yields (v + 1) id)
  | .exit => .reenter fun _ => .done .finishes

theorem echoing_protocol :
    echoing.NeverCloses ∧
    (∃ early, Answers .plain echoing (.sent none) [5, 3, 0, 1] early ∧
      [.yielded 7, .yielded 3, .failed .misuse, .completed, .completed] =
        early ++ [.completed]) ∧
    (⟨.start (.sent none), false, true, false, []⟩ : Computation _ _).resume .plain echoing 5 =
      (.failed .concurrent, ⟨.start (.sent none), false, true, false, []⟩) ∧
    (⟨.waiting id, true, false, true, []⟩ : Computation _ _).resume .plain echoing 2 =
      (.completed, ⟨.waiting id, true, false, true, []⟩) := by
  have hopen : echoing.NeverCloses := by
    rintro ((_ | _ | v) | _)
    · rintro (y | _ | reason) <;> trivial
    · trivial
    · trivial
    · intro reply
      trivial
  have whole := (resume_protocol echoing hopen (.sent none)
    [.resume 5, .resume 3, .resume 0, .resume 1, .close, .resume 2]).1
  have resumed := (resume_protocol echoing hopen (.sent none) []).2.2.2 _ _ _ _ _
    (.resume 5 rfl) (.here _ _)
  have closed := (resume_protocol echoing hopen (.sent none) [.resume 5]).2.2.2 _ _ _ _ _
    (.close rfl) (.here _ _)
  exact ⟨hopen, whole, resumed.1 5, closed.1 2⟩

/-- An error of the body may come out changed, and the body may be told of a completion while it
runs. -/
theorem stop_changed_and_exit_completed :
    let stopping : Body Unit Nat Unit := fun _ => .done (.fails .stop)
    let c := (create (.sent none)).after .plain echoing [.resume 5]
    ((create ()).resume .plain stopping 0).1 = .failed .misuse ∧
      c.close .plain echoing = leave .plain (echoing .exit) { c with finished := true } ∧
      ({ c with finished := true }.resume .plain echoing 0).1 = .completed :=
  ⟨rfl, rfl, rfl⟩

end Computation

end Yielding
