import Yielding.Proofs.Borrow.Flow

/-!
# Proofs/Borrow/Paths — going back in the text

A path goes back in the text only by starting a loop again.  What is declared inside that loop is
then declared anew before it is read: a variable that is read later without having been written
again **outlives** the loop.
-/

namespace Yielding.Borrow

open List

/-! ## Variables in scope -/

def Token.declares : Token → Bool
  | .op (.bind ..) => true
  | _ => false

def declared (ts : List Token) : ℕ := ts.countP Token.declares

@[simp] theorem declared_nil : declared [] = 0 := rfl

@[simp] theorem declared_cons (t : Token) (ts : List Token) :
    declared (t :: ts) = declared ts + if t.declares then 1 else 0 := countP_cons

@[simp] theorem declared_append (ts us : List Token) :
    declared (ts ++ us) = declared ts + declared us := countP_append

/-- A step uses what is in scope, and a declaration takes the next number. -/
def Op.Scoped (vis : Set ℕ) (m : ℕ) : Op → Prop
  | bind v c .. => v = m ∧ ∀ x ∈ c.mentions, x ∈ vis
  | store v c _ => v ∈ vis ∧ ∀ x ∈ c.mentions, x ∈ vis
  | read _ v => v ∈ vis
  | suspend _ => True

def Op.scope (vis : Set ℕ) : Op → Set ℕ
  | bind v .. => insert v vis
  | _ => vis

/-- **Scoping of a flow** that follows `m` declarations, of which `vis` are in scope.  What is
declared in a branch or a loop ends with it. -/
def Flow.Scoped (vis : Set ℕ) (m : ℕ) : Flow → Prop
  | .done => True
  | .op o rest => o.Scoped vis m ∧ rest.Scoped (o.scope vis) (m + declared [.op o])
  | .branch a b rest =>
    a.Scoped vis m ∧ b.Scoped vis (m + declared a.text) ∧
      rest.Scoped vis (m + declared a.text + declared b.text)
  | .loop body rest => body.Scoped vis m ∧ rest.Scoped vis (m + declared body.text)
  | .leave rest => rest.Scoped vis m

variable {vis : Set ℕ} {m : ℕ}

theorem Op.Scoped.mem_of_reads {v : ℕ} {o : Op} (h : o.Scoped vis m) (hv : o.reads = some v) :
    v ∈ vis := by
  cases o with
  | bind => exact h.2 v hv
  | store => exact h.2 v hv
  | read => exact Option.some.inj hv ▸ h
  | suspend => cases hv

/-! ## Declared anew -/

/-- Every read of `v` in a row of steps comes after a write to `v` in the row. -/
def Renewed (v : ℕ) : List Step → Prop
  | [] => True
  | (_, o) :: π => o.reads ≠ some v ∧ (o.target = some v ∨ Renewed v π)

theorem Renewed.append {v : ℕ} {ρ : List Step} (h' : Renewed v ρ) :
    {π : List Step} → Renewed v π → Renewed v (π ++ ρ)
  | [], _ => h'
  | _ :: _, ⟨hread, .inl hwrite⟩ => ⟨hread, .inl hwrite⟩
  | _ :: _, ⟨hread, .inr h⟩ => ⟨hread, .inr (h'.append h)⟩

theorem Renewed.exists_write {v p : ℕ} {o : Op} (hv : o.reads = some v) :
    {π : List Step} → {r : ℕ} → Renewed v π → π[r]? = some (p, o) →
      ∃ q < r, ∃ e ∈ π[q]?, e.2.target = some v
  | _ :: _, 0, h, hr => by
    obtain rfl := Option.some.inj hr
    exact absurd hv h.1
  | e :: _, r + 1, ⟨_, .inl hwrite⟩, _ => ⟨0, r.succ_pos, e, rfl, hwrite⟩
  | _ :: _, r + 1, ⟨_, .inr h⟩, hr => by
    obtain ⟨q, hq, found⟩ := h.exists_write hv hr
    exact ⟨q + 1, Nat.succ_lt_succ hq, found⟩

variable {f : Flow} {n : ℕ} {π : List Step}

/-- **A path reads a variable that is not in scope only once it is declared.** -/
theorem Path.renewed {out : Out} (path : Path f n π out) {v : ℕ} (hf : f.Scoped vis m)
    (hv : v ∉ vis) : Renewed v π := by
  induction path generalizing vis m with
  | halt | done | leave => trivial
  | @op o rest n π out _ ih =>
    refine ⟨fun hread => hv (hf.1.mem_of_reads hread), ?_⟩
    by_cases hwrite : o.target = some v
    · exact .inl hwrite
    · refine .inr (ih hf.2 fun hmem => ?_)
      cases o with
      | bind w =>
        obtain rfl | hmem := Set.mem_insert_iff.1 hmem
        · exact hwrite rfl
        · exact hv hmem
      | store | read | suspend => exact hv hmem
  | first _ _ ih ih' => exact (ih' hf.2.2 hv).append (ih hf.1 hv)
  | firstOut _ _ ih => exact ih hf.1 hv
  | second _ _ ih ih' => exact (ih' hf.2.2 hv).append (ih hf.2.1 hv)
  | secondOut _ _ ih => exact ih hf.2.1 hv
  | again _ _ ih ih' => exact (ih' hf hv).append (ih hf.1 hv)
  | exit _ _ ih ih' => exact (ih' hf.2 hv).append (ih hf.1 hv)
  | within _ ih => exact ih hf.1 hv

/-! ## Places in the text -/

/-- The flow `f` stands at the place `n` of a text, after `m` declarations. -/
def Flow.StandsAt (f : Flow) (ts : List Token) (n m : ℕ) : Prop :=
  ∃ before after, ts = before ++ f.text ++ after ∧ before.length = n ∧ declared before = m

/-- A loop of the text, with the places of its first and last token. -/
def LoopAt (ts : List Token) (first last : ℕ) : Prop :=
  ∃ (before : List Token) (body : Flow) (after : List Token),
    ts = before ++ .enter :: (body.text ++ .exit :: after) ∧
      before.length = first ∧ last = first + body.size + 1

/-- The variable `v` is declared before the place `first`. -/
def DeclaredBefore (ts : List Token) (first v : ℕ) : Prop := v < declared (ts.take first)

namespace Flow.StandsAt

variable {ts : List Token} {n m : ℕ} {a b rest : Flow} {o : Op}

theorem token (h : (Flow.op o rest).StandsAt ts n m) : ts[n]? = some (.op o) := by
  obtain ⟨before, after, rfl, rfl, -⟩ := h
  simp [text]

theorem op (h : (Flow.op o rest).StandsAt ts n m) :
    rest.StandsAt ts (n + 1) (m + declared [.op o]) := by
  obtain ⟨before, after, rfl, rfl, rfl⟩ := h
  exact ⟨before ++ [.op o], after, by simp [text], by simp, by simp⟩

theorem first (h : (branch a b rest).StandsAt ts n m) : a.StandsAt ts n m := by
  obtain ⟨before, after, rfl, rfl, rfl⟩ := h
  exact ⟨before, b.text ++ rest.text ++ after, by simp [text], rfl, rfl⟩

theorem second (h : (branch a b rest).StandsAt ts n m) :
    b.StandsAt ts (n + a.size) (m + declared a.text) := by
  obtain ⟨before, after, rfl, rfl, rfl⟩ := h
  exact ⟨before ++ a.text, rest.text ++ after, by simp [text], by simp, by simp⟩

theorem joined (h : (branch a b rest).StandsAt ts n m) :
    rest.StandsAt ts (n + a.size + b.size) (m + declared a.text + declared b.text) := by
  obtain ⟨before, after, rfl, rfl, rfl⟩ := h
  exact ⟨before ++ a.text ++ b.text, after, by simp [text], by simp; omega, by simp; omega⟩

theorem body (h : (loop a rest).StandsAt ts n m) : a.StandsAt ts (n + 1) m := by
  obtain ⟨before, after, rfl, rfl, rfl⟩ := h
  exact ⟨before ++ [.enter], .exit :: rest.text ++ after, by simp [text], by simp,
    by simp [Token.declares]⟩

theorem left (h : (loop a rest).StandsAt ts n m) :
    rest.StandsAt ts (n + a.size + 2) (m + declared a.text) := by
  obtain ⟨before, after, rfl, rfl, rfl⟩ := h
  refine ⟨before ++ .enter :: a.text ++ [.exit], after, by simp [text], by simp; omega, ?_⟩
  simp [Token.declares]

theorem loopAt (h : (loop a rest).StandsAt ts n m) : LoopAt ts n (n + a.size + 1) := by
  obtain ⟨before, after, rfl, rfl, -⟩ := h
  exact ⟨before, a, rest.text ++ after, by simp [text], rfl, rfl⟩

theorem enter (h : (loop a rest).StandsAt ts n m) : ts[n]? = some .enter := by
  obtain ⟨before, after, rfl, rfl, -⟩ := h
  simp [text]

theorem exit (h : (loop a rest).StandsAt ts n m) : ts[n + a.size + 1]? = some .exit := by
  obtain ⟨before, after, rfl, rfl, -⟩ := h
  have : (before ++ .enter :: a.text).length = before.length + a.size + 1 := by simp; omega
  rw [← this, show before ++ (loop a rest).text ++ after =
    (before ++ .enter :: a.text) ++ (.exit :: rest.text ++ after) by simp [text],
    getElem?_append_right le_rfl, Nat.sub_self]
  rfl

theorem declared_take (h : f.StandsAt ts n m) : declared (ts.take n) = m := by
  obtain ⟨before, after, rfl, rfl, rfl⟩ := h
  simp

end Flow.StandsAt

theorem declared_take_le (ts : List Token) {k : ℕ} (h : n ≤ k) : declared (ts.take n)
    ≤ declared (ts.take k) :=
  (take_prefix_take_left h).sublist.countP_le

theorem Path.bounds {out : Out} (path : Path f n π out) : ∀ e ∈ π, n ≤ e.1 ∧ e.1 < n + f.size := by
  induction path with
  | halt | done | leave => intro e he; cases he
  | op _ ih =>
    rintro e (_ | ⟨_, he⟩)
    · simp
    · have := ih e he
      simp only [Flow.size_op]; omega
  | first _ _ ih ih' | second _ _ ih ih' | again _ _ ih ih' | exit _ _ ih ih' =>
    intro e he
    simp only [Flow.size_branch, Flow.size_loop] at ih ih' ⊢
    rcases mem_append.1 he with he | he
    · have := ih e he; omega
    · have := ih' e he; omega
  | firstOut _ _ ih | secondOut _ _ ih | within _ ih =>
    intro e he
    have := ih e he
    simp only [Flow.size_branch, Flow.size_loop]; omega

variable {ts : List Token}

theorem Path.token {out : Out} (path : Path f n π out) (hts : f.StandsAt ts n m) : ∀ e ∈ π,
    ts[e.1]? = some (.op e.2) := by
  induction path generalizing m with
  | halt | done | leave => intro e he; cases he
  | op _ ih =>
    rintro e (_ | ⟨_, he⟩)
    · exact hts.token
    · exact ih hts.op e he
  | first _ _ ih ih' => exact forall_mem_append.2 ⟨ih hts.first, ih' hts.joined⟩
  | firstOut _ _ ih => exact ih hts.first
  | second _ _ ih ih' => exact forall_mem_append.2 ⟨ih hts.second, ih' hts.joined⟩
  | secondOut _ _ ih => exact ih hts.second
  | again _ _ ih ih' => exact forall_mem_append.2 ⟨ih hts.body, ih' hts⟩
  | exit _ _ ih ih' => exact forall_mem_append.2 ⟨ih hts.body, ih' hts.left⟩
  | within _ ih => exact ih hts.body

/-! ## Loops that start again -/

/-- Between the steps `i` and `j` of a path, at the places `p` and `p'`, a loop that begins at `n`
or later starts again: what is not declared before it is renewed from there on. -/
def Restarts (ts : List Token) (n : ℕ) (π : List Step) (i j p p' : ℕ) : Prop :=
  ∃ first last, n ≤ first ∧ LoopAt ts first last ∧ first < p' ∧ p < last ∧
    ∃ q, i < q ∧ q ≤ j ∧ ∀ v, ¬DeclaredBefore ts first v → Renewed v (π.drop q)

/-- Every step back in the text is a loop that starts again. -/
def Returns (ts : List Token) (n : ℕ) (π : List Step) : Prop :=
  ∀ (i j : ℕ) (e e' : Step), π[i]? = some e → π[j]? = some e' → i < j → e'.1 ≤ e.1 →
    Restarts ts n π i j e.1 e'.1

theorem Returns.mono {k : ℕ} (h : Returns ts k π) (hnk : n ≤ k) : Returns ts n π := by
  intro i j e e' hi hj hij hback
  obtain ⟨first, last, hfirst, found⟩ := h i j e e' hi hj hij hback
  exact ⟨first, last, hnk.trans hfirst, found⟩

theorem Returns.append {ρ : List Step} (hm : declared (ts.take n) = m) (h : Returns ts n π)
    (h' : Returns ts n ρ) (hρ : ∀ v, m ≤ v → Renewed v ρ)
    (across : ∀ e ∈ π, ∀ e' ∈ ρ, e'.1 ≤ e.1 → ∃ last, LoopAt ts n last ∧ n < e'.1 ∧ e.1 < last) :
    Returns ts n (π ++ ρ) := by
  have undeclared {first v : ℕ} (hn : n ≤ first) (hv : ¬DeclaredBefore ts first v) : m ≤ v :=
    hm ▸ (declared_take_le ts hn).trans (Nat.le_of_not_lt hv)
  intro i j e e' hi hj hij hback
  by_cases hj' : j < π.length
  · rw [getElem?_append_left (hij.trans hj')] at hi
    rw [getElem?_append_left hj'] at hj
    obtain ⟨first, last, hn, hloop, hp', hp, q, hiq, hqj, hren⟩ := h i j e e' hi hj hij hback
    refine ⟨first, last, hn, hloop, hp', hp, q, hiq, hqj, fun v hv => ?_⟩
    rw [drop_append_of_le_length (hqj.trans hj'.le)]
    exact (hρ v (undeclared hn hv)).append (hren v hv)
  · have hj' := Nat.le_of_not_lt hj'
    rw [getElem?_append_right hj'] at hj
    by_cases hi' : i < π.length
    · rw [getElem?_append_left hi'] at hi
      obtain ⟨last, hloop, hp', hp⟩ :=
        across e (mem_of_getElem? hi) e' (mem_of_getElem? hj) hback
      refine ⟨n, last, le_rfl, hloop, hp', hp, π.length, hi', hj', fun v hv => ?_⟩
      rw [drop_left]
      exact hρ v (undeclared le_rfl hv)
    · have hi' := Nat.le_of_not_lt hi'
      rw [getElem?_append_right hi'] at hi
      obtain ⟨first, last, hn, hloop, hp', hp, q, hiq, hqj, hren⟩ :=
        h' _ _ e e' hi hj (by omega) hback
      refine ⟨first, last, hn, hloop, hp', hp, π.length + q, by omega, by omega, fun v hv => ?_⟩
      rw [drop_length_add_append]
      exact hren v hv

theorem Op.scope_unseen {o : Op} (ho : o.Scoped vis m) (hvis : ∀ v, m ≤ v → v ∉ vis) (v : ℕ)
    (hv : m + declared [.op o] ≤ v) : v ∉ o.scope vis := by
  cases o with
  | bind w =>
    obtain ⟨rfl, -⟩ := ho
    have hw : w + 1 ≤ v := hv
    rintro (rfl | hmem)
    · omega
    · exact hvis v (by omega) hmem
  | store | read | suspend => exact hvis v hv

theorem Op.Scoped.mono {o : Op} {vis' : Set ℕ} (h : o.Scoped vis m) (hsub : vis ⊆ vis') :
    o.Scoped vis' m := by
  cases o with
  | bind => exact ⟨h.1, fun x hx => hsub (h.2 x hx)⟩
  | store => exact ⟨hsub h.1, fun x hx => hsub (h.2 x hx)⟩
  | read => exact hsub h
  | suspend => trivial

/-- **Variables are numbered in the order of their declarations**, and what a step mentions is
declared before it. -/
theorem Flow.Scoped.numbered (hf : f.Scoped vis m) (hvis : ∀ v, m ≤ v → v ∉ vis)
    (hts : f.StandsAt ts n m) {p : ℕ} {o : Op} (hn : n ≤ p) (hp : p < n + f.size)
    (ho : ts[p]? = some (.op o)) : o.Scoped {v | v < declared (ts.take p)} (declared (ts.take p))
    := by
  induction f generalizing n m vis with
  | done => exact absurd hp (Nat.not_lt_of_le hn)
  | op o' rest ih =>
    rcases Nat.eq_or_lt_of_le hn with rfl | hn
    · cases hts.token.symm.trans ho
      rw [hts.declared_take]
      exact hf.1.mono fun v hv => Nat.lt_of_not_le fun hm => hvis v hm hv
    · rw [Flow.size_op] at hp
      exact ih hf.2 (o'.scope_unseen hf.1 hvis) hts.op hn (by omega)
  | branch a b rest iha ihb ih =>
    rw [Flow.size_branch] at hp
    by_cases ha : p < n + a.size
    · exact iha hf.1 hvis hts.first hn ha
    · by_cases hb : p < n + a.size + b.size
      · exact ihb hf.2.1 (fun v hv => hvis v (by omega)) hts.second (by omega) hb
      · exact ih hf.2.2 (fun v hv => hvis v (by omega)) hts.joined (by omega) (by omega)
  | loop body rest ihb ih =>
    rw [Flow.size_loop] at hp
    rcases Nat.eq_or_lt_of_le hn with rfl | hn
    · cases hts.enter.symm.trans ho
    · by_cases hb : p < n + 1 + body.size
      · exact ihb hf.1 hvis hts.body hn hb
      · by_cases hexit : p = n + body.size + 1
        · cases hts.exit.symm.trans (hexit ▸ ho)
        · exact ih hf.2 (fun v hv => hvis v (by omega)) hts.left (by omega) (by omega)
  | leave rest ih => exact ih hf hvis hts hn hp

/-- **A path goes back in the text only by starting a loop again.** -/
theorem Path.returns {out : Out} (path : Path f n π out) (hf : f.Scoped vis m)
    (hvis : ∀ v, m ≤ v → v ∉ vis) (hts : f.StandsAt ts n m) : Returns ts n π := by
  induction path generalizing vis m with
  | halt | done | leave => intro i j e e' hi; simp at hi
  | @op o rest n π out path ih =>
    intro i j e e' hi hj hij hback
    obtain ⟨j, rfl⟩ := Nat.exists_eq_succ_of_ne_zero (Nat.ne_of_gt (i.zero_le.trans_lt hij))
    cases i with
    | zero =>
      obtain rfl := Option.some.inj hi
      have := (path.bounds e' (mem_of_getElem? hj)).1
      omega
    | succ i =>
      obtain ⟨first, last, hn, hloop, hp', hp, q, hiq, hqj, hren⟩ :=
        ih hf.2 (o.scope_unseen hf.1 hvis) hts.op i j e e' hi hj (by omega) hback
      exact ⟨first, last, by omega, hloop, hp', hp, q + 1, by omega, by omega, hren⟩
  | first path path' ih ih' =>
    refine .append hts.declared_take (ih hf.1 hvis hts.first)
      ((ih' hf.2.2 (fun v hv => hvis v (by omega)) hts.joined).mono (by omega))
      (fun v hv => path'.renewed hf.2.2 (hvis v hv)) ?_
    intro e he e' he' hback
    have := path.bounds e he
    have := path'.bounds e' he'
    omega
  | firstOut _ _ ih => exact ih hf.1 hvis hts.first
  | second path path' ih ih' =>
    refine .append hts.declared_take
      ((ih hf.2.1 (fun v hv => hvis v (by omega)) hts.second).mono (by omega))
      ((ih' hf.2.2 (fun v hv => hvis v (by omega)) hts.joined).mono (by omega))
      (fun v hv => path'.renewed hf.2.2 (hvis v hv)) ?_
    intro e he e' he' hback
    have := path.bounds e he
    have := path'.bounds e' he'
    omega
  | secondOut _ _ ih =>
    exact (ih hf.2.1 (fun v hv => hvis v (by omega)) hts.second).mono (by omega)
  | @again body rest n π π' out path path' ih ih' =>
    refine .append hts.declared_take ((ih hf.1 hvis hts.body).mono (by omega)) (ih' hf hvis hts)
      (fun v hv => path'.renewed hf (hvis v hv)) ?_
    intro e he e' he' _
    refine ⟨n + body.size + 1, hts.loopAt, ?_, by have := path.bounds e he; omega⟩
    -- the place `n` itself is where the loop begins, and no step
    refine lt_of_le_of_ne (path'.bounds e' he').1 fun hn => ?_
    have hop := path'.token hts e' he'
    rw [← hn, hts.enter] at hop
    cases hop
  | exit path path' ih ih' =>
    refine .append hts.declared_take ((ih hf.1 hvis hts.body).mono (by omega))
      ((ih' hf.2 (fun v hv => hvis v (by omega)) hts.left).mono (by omega))
      (fun v hv => path'.renewed hf.2 (hvis v hv)) ?_
    intro e he e' he' hback
    have := path.bounds e he
    have := path'.bounds e' he'
    omega
  | within _ ih => exact (ih hf.1 hvis hts.body).mono (by omega)

end Yielding.Borrow
