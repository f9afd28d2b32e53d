import Yielding.Proofs.CommandLine.Files
import Yielding.Proofs.Expansion.Verdict

/-!
# Proofs/CommandLine/Outputs — what a run leaves and what it reports

A batch has what each source reports and each module, in the order of the sources
(`Batch.of_ofSources`).  Two results about whole runs follow.

* A run that puts modules into a directory names each by its source, so sources whose names agree up
  to their endings and dashes meet at one file: every module is left exactly if such sources have
  the same module (`every_module_left_iff`).
* If any source fails, nothing is written; in any case what was found in every source is reported
  (`run_verdict`).
-/

namespace Yielding

open List

namespace CommandLine

variable {ss : List SourceFile} {s : SourceFile}

/-! ## Sources -/

variable {a : Arguments}

/-- What is reported of a source. -/
def SourceFile.diagnostics (s : SourceFile) : List Diagnostic :=
  match s.text with
  | .error message => [s.unreadable message]
  | .ok text => Expansion.findings s.path.text text

/-- The module generated from a source. -/
def SourceFile.module? (a : Arguments) (s : SourceFile) : Option String :=
  match s.expand a with
  | .ok (_, code) => code
  | .error _ => none

theorem SourceFile.of_expand {ds : List Diagnostic} {code : Option String}
    (h : s.expand a = .ok (ds, code)) :
    ds = s.diagnostics ∧ code = s.module? a ∧ (code.isSome ↔ hasErrors ds = false) := by
  have hcode : code = s.module? a := by rw [module?, h]
  rw [expand] at h
  cases htext : s.text with
  | error message =>
    rw [htext] at h
    obtain ⟨rfl, rfl⟩ := Prod.mk.inj (Except.ok.inj h)
    exact ⟨by rw [diagnostics, htext], hcode, iff_of_false Bool.false_ne_true Bool.true_eq_false.mp⟩
  | ok text =>
    rw [htext] at h
    obtain ⟨e, he, h⟩ := Scoping.bind_eq_ok.1 h
    obtain ⟨rfl, rfl⟩ := Prod.mk.inj (Except.ok.inj h)
    obtain ⟨hfindings, hsome⟩ := Expansion.of_ofSource he
    exact ⟨by rw [diagnostics, htext, hfindings], hcode, hsome⟩

/-- What is reported of sources, in their order. -/
def reported (ss : List SourceFile) : List (Diagnostic × Path) :=
  ss.flatMap fun s => s.diagnostics.map (·, s.path)

/-- **A batch has what every source reports and every module**, and a source has a module unless it
reports an error. -/
theorem Batch.of_ofSources {b : Batch} (h : ofSources a ss = .ok b) :
    b.findings = reported ss ∧
    b.modules = ss.filterMap (fun s => (s.module? a).map (s.path, ·)) ∧
    ∀ s ∈ ss, ((s.module? a).isSome ↔ hasErrors s.diagnostics = false) := by
  induction ss generalizing b with
  | nil =>
    obtain rfl := Except.ok.inj h
    exact ⟨rfl, rfl, by simp⟩
  | cons s ss ih =>
    obtain ⟨⟨ds, code⟩, hs, h⟩ := Scoping.bind_eq_ok.1 h
    obtain ⟨rest, hrest, h⟩ := Scoping.bind_eq_ok.1 h
    obtain rfl := Except.ok.inj h
    obtain ⟨rfl, rfl, hcode⟩ := SourceFile.of_expand hs
    obtain ⟨hfindings, hmodules, hall⟩ := ih hrest
    refine ⟨by rw [hfindings]; rfl, ?_, forall_mem_cons.2 ⟨hcode, hall⟩⟩
    rw [hmodules]
    cases h : s.module? a <;> simp [h]

theorem Batch.failed_eq {b : Batch} (h : ofSources a ss = .ok b) :
    b.failed = ss.any (hasErrors ·.diagnostics) := by
  rw [Batch.failed, diagnostics, (of_ofSources h).1, reported, map_flatMap]
  simp [hasErrors_flatMap, Function.comp_def]

theorem Batch.exists_ofSources (h : ∀ s ∈ ss, ∃ r, s.expand a = .ok r) :
    ∃ b, ofSources a ss = .ok b := by
  induction ss with
  | nil => exact ⟨_, rfl⟩
  | cons s ss ih =>
    obtain ⟨⟨r, hr⟩, hrest⟩ := forall_mem_cons.1 h
    obtain ⟨b, hb⟩ := ih hrest
    exact ⟨_, by rw [ofSources, hr, hb]; rfl⟩

theorem SourceFile.exists_expand (h : (s.module? a).isSome) : ∃ r, s.expand a = .ok r := by
  rw [module?] at h
  split at h
  · exact ⟨_, ‹_›⟩
  · cases h

/-! ## Runs -/

variable {files : FileTree} {b : Batch}

/-- What the options ask for can be written. -/
def Arguments.Writable (a : Arguments) (files : FileTree) : Prop :=
  match a.output, a.outDir with
  | some path, _ => files.Takes path
  | none, some dir =>
    ∃ t, files.makeDirectories dir = .ok t ∧ ∀ p ∈ a.sources, t.Takes (dir.child (moduleName p))
  | none, none => True

theorem Arguments.single_of_verify (h : a.verify = .ok a) (hcheck : a.check = false)
    (hplain : a.output.isSome ∨ a.outDir = none) : ∃ p, a.sources = [p] := by
  rw [← length_eq_one_iff]
  by_contra hlength
  rw [verify] at h
  cases ho : a.output <;> cases hd : a.outDir <;> simp_all

/-- Where no error is found, every source has a module. -/
theorem Batch.modules_path (hb : ofSources a ss = .ok b)
    (hclean : b.failed = false) : b.modules.map Prod.fst = ss.map SourceFile.path := by
  obtain ⟨-, hmodules, hall⟩ := of_ofSources hb
  rw [failed_eq hb, any_eq_false] at hclean
  rw [hmodules, map_filterMap, ← filterMap_eq_map]
  refine filterMap_congr fun s hs => ?_
  obtain ⟨code, hcode⟩ :=
    Option.isSome_iff_exists.1 ((hall s hs).2 (Bool.eq_false_iff.2 (hclean s hs)))
  simp [hcode]

theorem Arguments.path_load (a : Arguments) (files : FileTree) :
    (a.load files).map SourceFile.path = a.sources := by
  simp [load, Function.comp_def]

/-- The modules of a run find place in the directory that was named. -/
theorem Arguments.Writable.vacant (hw : a.Writable files) (ho : a.output = none) {dir : Path}
    (hdir : a.outDir = some dir) {m : Module} {modules : List Module}
    (hsources : (m :: modules).map Prod.fst = a.sources) :
    ∃ t spot, files.makeDirectories dir = .ok t ∧ t.Holds dir spot ∧
      Vacant t spot (m :: modules) := by
  simp only [Writable, ho, hdir] at hw
  obtain ⟨t, ht, htakes⟩ := hw
  have hup : ∀ p, moduleName p ≠ ".." := fun p => moduleName_ne (by decide)
  have hmember : ∀ r ∈ m :: modules, r.1 ∈ a.sources := by
    intro r hr
    rw [← hsources]
    exact mem_map_of_mem hr
  obtain ⟨spot, hspot, -⟩ :=
    (FileTree.takes_child (hup m.1)).1 (htakes m.1 (hmember m mem_cons_self))
  refine ⟨t, spot, ht, hspot, fun r hr => ?_⟩
  obtain ⟨spot', hspot', hentry⟩ := (FileTree.takes_child (hup r.1)).1 (htakes r.1 (hmember r hr))
  obtain rfl : spot = spot' := Except.ok.inj (hspot.1.symm.trans hspot'.1)
  exact hentry

/-- **Where everything can be written, no step fails**, and nothing is printed in front of a
record. -/
theorem Arguments.take_steps (hverify : a.verify = .ok a)
    (hb : Batch.ofSources a (a.load files) = .ok b) (hclean : b.failed = false)
    (hw : a.Writable files) :
    ∃ u printed, take files "" (a.steps b) = (u, printed, none) ∧
      (a.json = true → printed = "") := by
  cases hcheck : a.check with
  | true => exact ⟨files, "", by simp [steps, hcheck, take], fun _ => rfl⟩
  | false =>
    have hsources := (Batch.modules_path hb hclean).trans (a.path_load files)
    have hsteps : a.steps b = b.modules.flatMap fun m => a.putOut m.1 m.2 := by
      simp [steps, hclean, hcheck]
    have hsingle : a.output.isSome ∨ a.outDir = none → ∃ m, b.modules = [m] := by
      intro hplain
      obtain ⟨p, hp⟩ := single_of_verify hverify hcheck hplain
      rw [← length_eq_one_iff, ← length_map Prod.fst, hsources, hp]
      rfl
    rw [hsteps]
    cases ho : a.output with
    | some path =>
      obtain ⟨m, hm⟩ := hsingle (.inl (by simp [ho]))
      simp only [Writable, ho] at hw
      obtain ⟨x, hx, hentry⟩ := hw
      refine ⟨files.insert x (.file (Text.toBytes m.2)), "", ?_, fun _ => rfl⟩
      rw [hm, flatMap_singleton]
      simp only [putOut, ho, take, FileTree.write_of_target hx hentry]
    | none =>
      cases hdir : a.outDir with
      | some dir =>
        have hinto :
            (b.modules.flatMap fun m => a.putOut m.1 m.2) = intoDirectory dir b.modules := by
          simp [putOut, ho, hdir, intoDirectory]
        rw [hinto]
        cases hm : b.modules with
        | nil => exact ⟨files, "", rfl, fun _ => rfl⟩
        | cons m modules =>
          rw [hm] at hsources
          obtain ⟨t, spot, ht, hspot, hvacant⟩ := hw.vacant ho hdir hsources
          exact ⟨_, "", take_intoDirectory_cons ht hspot hvacant "", fun _ => rfl⟩
      | none =>
        obtain ⟨m, hm⟩ := hsingle (.inr hdir)
        rw [hm, flatMap_singleton]
        cases hjson : a.json with
        | true => exact ⟨files, "", by simp [putOut, ho, hdir, hjson, take], fun _ => rfl⟩
        | false => exact ⟨files, m.2, by simp [putOut, ho, hdir, hjson, take], by simp⟩

theorem Arguments.run_of_take {u : FileTree} {printed : String}
    (hb : Batch.ofSources a (a.load files) = .ok b)
    (htaken : take files "" (a.steps b) = (u, printed, none)) :
    a.run files = ⟨.ok b.exitCode, printed ++ a.summary b, a.complaints b, u⟩ := by
  rw [run, hb]
  dsimp only
  rw [htaken]

/-! ## What is left -/

theorem toList_loop (bytes : ByteArray) (i : Nat) (before : List UInt8) :
    ByteArray.toList.loop bytes i before = before.reverse ++ bytes.data.toList.drop i := by
  fun_induction ByteArray.toList.loop bytes i before with
  | case1 i before h ih =>
    have hi : i < bytes.data.toList.length := h
    rw [ih, reverse_cons, append_assoc, singleton_append, drop_eq_getElem_cons hi]
    congr
    exact getElem!_pos bytes.data i h
  | case2 i before h => rw [drop_eq_nil_of_le (Nat.le_of_not_lt h), append_nil]

theorem toBytes_injective : Function.Injective Text.toBytes := by
  intro s t h
  simp only [Text.toBytes, ByteArray.toList, toList_loop, reverse_nil, nil_append, drop_zero] at h
  exact String.toByteArray_inj.1 (ByteArray.ext (Array.toList_inj.1 h))

theorem Arguments.output_of_verify (h : a.verify = .ok a) {dir : Path}
    (hdir : a.outDir = some dir) : a.output = none := by
  rw [verify] at h
  split at h
  · cases h
  · next htargets => simpa [hdir] using htargets

/-- The file of a source holds the module of a source of the same name. -/
theorem Arguments.read_output {dir : Path} (hverify : a.verify = .ok a) (hdir : a.outDir = some dir)
    (hcheck : a.check = false) (hw : a.Writable files)
    (hb : Batch.ofSources a (a.load files) = .ok b) (hclean : b.failed = false)
    (hs : s ∈ a.load files) :
    ∃ r ∈ a.load files, ∃ code, moduleName s.path = moduleName r.path ∧ r.module? a = some code ∧
      (a.run files).files.read (dir.child (moduleName s.path)) = .ok (Text.toBytes code) := by
  have ho := output_of_verify hverify hdir
  have hsources := (Batch.modules_path hb hclean).trans (a.path_load files)
  have hmem : s.path ∈ b.modules.map Prod.fst := by
    rw [Batch.modules_path hb hclean]
    exact mem_map_of_mem hs
  obtain ⟨m, modules, hm⟩ : ∃ m modules, b.modules = m :: modules :=
    exists_cons_of_ne_nil (by rintro h; rw [h] at hmem; cases hmem)
  rw [hm] at hsources hmem
  obtain ⟨t, spot, ht, hspot, hvacant⟩ := hw.vacant ho hdir hsources
  have htaken : take files "" (a.steps b) = (putAll spot t (m :: modules), "", none) := by
    rw [← take_intoDirectory_cons ht hspot hvacant "", ← hm]
    simp [steps, putOut, ho, hdir, hcheck, hclean, intoDirectory]
  rw [run_of_take hb htaken]
  have hentry := entry?_putAll t spot s.path (m :: modules)
  split at hentry
  · next r hr =>
    have hname : moduleName r.1 = moduleName s.path := by simpa using find?_some hr
    have hmodule := mem_reverse.1 (mem_of_find?_eq_some hr)
    rw [← hm, (Batch.of_ofSources hb).2.1, mem_filterMap] at hmodule
    obtain ⟨source, hsource, hmodule⟩ := hmodule
    obtain ⟨code, hcode, rfl⟩ := Option.map_eq_some_iff.1 hmodule
    exact ⟨source, hsource, code, hname.symm, hcode,
      FileTree.read_child (holds_putAll hspot hvacant) (moduleName_ne (by decide)) hentry⟩
  · next hnone =>
    obtain ⟨r, hr, hpath⟩ := mem_map.1 hmem
    simpa [hpath] using find?_eq_none.1 hnone r (mem_reverse.2 hr)

/-- **Every module is left**, in the directory that was named and by the name of its source, exactly
if sources that share a name share a module. -/
theorem every_module_left_iff {dir : Path} (hverify : a.verify = .ok a) (hdir : a.outDir = some dir)
    (hcheck : a.check = false) (hw : a.Writable files)
    (hmodules : ∀ s ∈ a.load files, (s.module? a).isSome) :
    (a.run files).exit = .ok 0 ∧
    ((∀ s ∈ a.load files, ∃ code, s.module? a = some code ∧
      (a.run files).files.read (dir.child (moduleName s.path)) = .ok (Text.toBytes code)) ↔
    ∀ s ∈ a.load files, ∀ r ∈ a.load files, moduleName s.path = moduleName r.path →
      s.module? a = r.module? a) := by
  obtain ⟨b, hb⟩ := Batch.exists_ofSources fun s hs => SourceFile.exists_expand (hmodules s hs)
  have hclean : b.failed = false := by
    rw [Batch.failed_eq hb, any_eq_false]
    intro s hs
    simp [((Batch.of_ofSources hb).2.2 s hs).1 (hmodules s hs)]
  obtain ⟨u, printed, htaken, -⟩ := Arguments.take_steps hverify hb hclean hw
  refine ⟨?_, ?_, ?_⟩
  · rw [Arguments.run_of_take hb htaken]
    simp [Batch.exitCode, hclean]
  · intro h s hs r hr hname
    obtain ⟨code, hcode, hleft⟩ := h s hs
    obtain ⟨code', hcode', hleft'⟩ := h r hr
    rw [hname, hleft'] at hleft
    rw [hcode, hcode', toBytes_injective (Except.ok.inj hleft)]
  · intro h s hs
    obtain ⟨r, hr, code, hname, hcode, hleft⟩ :=
      Arguments.read_output hverify hdir hcheck hw hb hclean hs
    exact ⟨code, (h s hs r hr hname).trans hcode, hleft⟩

/-- The request to expand two sources of empty text into the current directory. -/
def pairing (first second : String) : Arguments where
  sources := [⟨"", [first]⟩, ⟨"", [second]⟩]
  output := none
  outDir := some ⟨"", []⟩
  check := false
  json := false
  supportModule := "rt"
  banner := true

def pair (first second : String) : FileTree :=
  ⟨[([first], .file []), ([second], .file [])]⟩

theorem writable_pairing {first second : String}
    (h : ∀ p ∈ (pairing first second).sources,
      FileTree.entry? (pair first second) [moduleName p] ≠ some .directory) :
    (pairing first second).Writable (pair first second) :=
  ⟨pair first second, rfl, fun p hp =>
    (FileTree.takes_child (moduleName_ne (by decide))).2 ⟨[], ⟨rfl, rfl⟩, h p hp⟩⟩

theorem pairing_leaves_both :
    let a := pairing "a" "b"
    let files := pair "a" "b"
    a.Writable files ∧ (a.run files).exit = .ok 0 ∧ ∀ s ∈ a.load files, ∃ code,
      s.module? a = some code ∧
        (a.run files).files.read ⟨"", [moduleName s.path]⟩ = .ok (Text.toBytes code) := by
  intro a files
  have hw : a.Writable files := writable_pairing (by decide +kernel)
  obtain ⟨hexit, hleft⟩ := every_module_left_iff (a := a) rfl rfl rfl hw (by decide)
  exact ⟨hw, hexit, hleft.2 (by decide +kernel)⟩

/-- Sources whose names differ in a dash meet at one file, and the module of the first is
nowhere. -/
theorem shared_name_loses_module :
    let a := pairing "a-" "a_"
    let files := pair "a-" "a_"
    a.verify = .ok a ∧ a.Writable files ∧ (∀ s ∈ a.load files, (s.module? a).isSome) ∧
    ∃ s ∈ a.load files, ∀ e ∈ (a.run files).files.entries,
      e.2 ≠ .file (Text.toBytes ((s.module? a).getD "")) := by
  intro a files
  have hw : a.Writable files := writable_pairing (by decide +kernel)
  exact ⟨rfl, hw, by decide, by decide +kernel⟩

/-! ## What is reported -/

/-- The source cannot be read, is no text, or is a text that an error is found in. -/
def SourceFile.Fails (s : SourceFile) : Prop :=
  match s.content with
  | .error _ => True
  | .ok bytes =>
    match Text.ofBytes bytes with
    | .error _ => True
    | .ok text =>
      hasErrors (Expansion.findings s.path.text (String.ofList (Text.feedLines text.toList)))

theorem SourceFile.fails_iff (s : SourceFile) : s.Fails ↔ hasErrors s.diagnostics = true := by
  rw [Fails, diagnostics, text]
  cases s.content with
  | error => exact iff_of_true trivial rfl
  | ok bytes =>
    dsimp only
    cases Text.ofBytes bytes with
    | error => exact iff_of_true trivial rfl
    | ok => rfl

/-- The numbers of the source can be read, and no item makes a text from nothing. -/
def SourceFile.IsExpandable (s : SourceFile) : Prop :=
  ∀ text, s.text = .ok text → (parseItems text).breaksOff = false ∧
    ∀ d ∈ (parseItems text).definitions, d.Under Flow.converting

theorem SourceFile.IsExpandable.exists_expand (h : s.IsExpandable) (a : Arguments) :
    ∃ r, s.expand a = .ok r := by
  rw [expand]
  split
  · exact ⟨_, rfl⟩
  · next text htext =>
    have hhandled : ∀ d ∈ (parseItems text).definitions, d.Handled (some s.path.text) :=
      fun d hd => handled_of_mem_definitions hd ((h text htext).2 d hd) _
    obtain ⟨e, he⟩ := Expansion.ofSource_ok (s.options a) (h text htext).1 hhandled
    exact ⟨_, congrArg (· >>= _) he⟩

/-- The run ends with the exit code and reports what was found in each source, in their order. -/
structure Arguments.Reports (a : Arguments) (files : FileTree) (code : Nat) : Prop where
  exit : (a.run files).exit = .ok code
  record : a.json = true → (a.run files).stderr = "" ∧ (a.run files).stdout =
    (Text.Record.object [("exit_code", .number code), ("diagnostics",
      .list ((reported (a.load files)).map fun x => findingRecord x.1 x.2))]).write ++ "\n"
  lines : a.json = false →
    (a.run files).stderr = String.join ((reported (a.load files)).map (·.1.render ++ "\n"))

theorem Arguments.reports_of_take (hb : Batch.ofSources a (a.load files) = .ok b) {u : FileTree}
    {printed : String} (htaken : take files "" (a.steps b) = (u, printed, none))
    (hprinted : a.json = true → printed = "") : a.Reports files b.exitCode := by
  have hrun := run_of_take hb htaken
  have hfindings := (Batch.of_ofSources hb).1
  refine ⟨by rw [hrun], fun hjson => ?_, fun hjson => ?_⟩
  · rw [hrun, ← hfindings]
    simp [hprinted hjson, complaints, summary, Batch.record, hjson]
  · rw [hrun, ← hfindings]
    simp [complaints, Batch.diagnostics, hjson, Function.comp_def]

/-- **A run reports everything, and fails as a whole.**  If any source fails then the exit code is 1
and the files stay as they are; otherwise it is 0, if what the options ask for can be written. -/
theorem run_verdict (files : FileTree) (hverify : a.verify = .ok a)
    (hc : ∀ s ∈ a.load files, s.IsExpandable) :
    ((∃ s ∈ a.load files, s.Fails) → a.Reports files 1 ∧ (a.run files).files = files) ∧
    ((∀ s ∈ a.load files, ¬s.Fails) → a.Writable files → a.Reports files 0) := by
  obtain ⟨b, hb⟩ := Batch.exists_ofSources fun s hs => (hc s hs).exists_expand a
  have hfailed := Batch.failed_eq hb
  constructor
  · rintro ⟨s, hs, hfails⟩
    rw [any_eq_true.2 ⟨s, hs, s.fails_iff.1 hfails⟩] at hfailed
    have htaken : take files "" (a.steps b) = (files, "", none) := by
      simp [Arguments.steps, hfailed, take]
    have hcode : b.exitCode = 1 := by simp [Batch.exitCode, hfailed]
    exact ⟨hcode ▸ Arguments.reports_of_take hb htaken fun _ => rfl,
      by rw [Arguments.run_of_take hb htaken]⟩
  · intro hsound hw
    rw [any_eq_false.2 fun s hs => mt s.fails_iff.2 (hsound s hs)] at hfailed
    obtain ⟨u, printed, htaken, hprinted⟩ := Arguments.take_steps hverify hb hfailed hw
    have hcode : b.exitCode = 0 := by simp [Batch.exitCode, hfailed]
    exact hcode ▸ Arguments.reports_of_take hb htaken hprinted

theorem missing_source_reported :
    let a := pairing "a" "b"
    let files : FileTree := ⟨[(["a"], .file [])]⟩
    (∃ s ∈ a.load files, s.Fails) ∧ a.Reports files 1 ∧ (a.run files).files = files := by
  intro a files
  have hload : a.load files =
      [⟨⟨"", ["a"]⟩, .ok []⟩, ⟨⟨"", ["b"]⟩, .error "No such file or directory"⟩] := rfl
  have hc : ∀ s ∈ a.load files, s.IsExpandable := by
    have hnone : (parseItems "").definitions = [] ∧ (parseItems "").breaksOff = false := by decide
    rw [hload, forall_mem_cons, forall_mem_singleton]
    refine ⟨fun text htext => ?_, fun text htext => by cases htext⟩
    obtain rfl : "" = text := Except.ok.inj htext
    simp [hnone]
  have hfails : ∃ s ∈ a.load files, s.Fails := by
    rw [hload]
    exact ⟨⟨⟨"", ["b"]⟩, .error _⟩, mem_cons_of_mem _ mem_cons_self, trivial⟩
  exact ⟨hfails, (run_verdict files rfl hc).1 hfails⟩

/-- A run breaks off where its output cannot be written, whatever was found. -/
theorem output_without_directory :
    let a := { pairing "a" "b" with
      sources := [⟨"", ["a"]⟩], output := some ⟨"", ["g", "a.py"]⟩, outDir := none }
    let files := pair "a" "b"
    a.verify = .ok a ∧ (∀ s ∈ a.load files, ¬s.Fails) ∧
      (a.run files).exit = .error (.file .missing) := by
  intro a files
  have hclean : ∀ s ∈ a.load files, ¬hasErrors s.diagnostics = true := by decide
  exact ⟨rfl, fun s hs => mt s.fails_iff.1 (hclean s hs), rfl⟩

end CommandLine

end Yielding
