import MbKeeper.Destinations

/-!
# What a hook may raise

A hook command is split into words and started. The lemmas about the splitter
say which commands have no words and where a character without meaning to it
ends up. With these the outcome of `run_hook` is known for every command and
every way its process may end, and so is when it keeps to its contract.
-/
namespace MbKeeper

/-- Reading has begun a word; empty quotes begin one too. -/
def Begun : ShlexState → List Char → Bool → Prop
  | .blank, _, _ => False
  | .word, token, quoted => token ≠ [] ∨ quoted = true
  | .escaped, _, _ => True
  | .single, _, quoted | .double, _, quoted | .escapedInDouble, _, quoted => quoted = true

/-- A word that was begun is among the words. -/
theorem shlexFrom_ne_nil {state : ShlexState} {token : List Char} {quoted : Bool} {cs : List Char}
    (h : Begun state token quoted) : shlexFrom state token quoted cs ≠ .ok [] := by
  fun_induction shlexFrom state token quoted cs with
  | case1 => exact h.elim
  | case2 token quoted =>
    change token ≠ [] ∨ quoted = true at h
    rw [if_pos h]
    simp
  | case3 => simp
  | case4 => simp
  | case5 => simp
  | case6 => simp
  | case7 => exact h.elim
  | case8 => exact h.elim
  | case9 => exact h.elim
  | case10 => exact h.elim
  | case11 => exact h.elim
  | case12 token quoted c cs hc ih =>
    change token ≠ [] ∨ quoted = true at h
    simp only [if_pos h]
    cases shlexFrom .blank [] false cs with
    | error e => exact nofun
    | ok rest => exact nofun
  | case13 token quoted cs hc ih => exact ih rfl
  | case14 token quoted cs hc hs ih => exact ih rfl
  | case15 token quoted cs hc hs hd ih => exact ih trivial
  | case16 token quoted c cs hc hs hd he ih => exact ih (.inl (by simp))
  | case17 token quoted cs ih => exact ih (.inr h)
  | case18 token quoted c cs hc ih => exact ih h
  | case19 token quoted cs ih => exact ih (.inr h)
  | case20 token quoted cs hd ih => exact ih h
  | case21 token quoted c cs hd he ih => exact ih h
  | case22 token quoted c cs ih => exact ih (.inl (by simp))
  | case23 token quoted c cs hc ih => exact ih h
  | case24 token quoted c cs hc ih => exact ih h

/-- A command of white space only. -/
def Blank (command : String) : Prop := ∀ c ∈ command.toList, isShlexSpace c = true

instance (command : String) : Decidable (Blank command) :=
  inferInstanceAs (Decidable (∀ c ∈ command.toList, _))

/-- Only a blank command has no words. -/
theorem shlex_split_nil_iff (command : String) : shlex_split command = .ok [] ↔ Blank command := by
  rw [shlex_split, Blank]
  induction command.toList with
  | nil => simp [shlexFrom]
  | cons c cs ih =>
    rw [shlexFrom, List.forall_mem_cons, ← ih]
    by_cases hc : isShlexSpace c = true
    · simp [hc]
    · rw [if_neg hc]
      refine iff_of_false ?_ (fun h => hc h.1)
      split_ifs
      · exact shlexFrom_ne_nil trivial
      · exact shlexFrom_ne_nil rfl
      · exact shlexFrom_ne_nil rfl
      · exact shlexFrom_ne_nil (.inl (by simp))

/-- A character that stands for itself wherever the splitter is. -/
def Ordinary (c : Char) : Prop := isShlexSpace c = false ∧ c ≠ '\\' ∧ c ≠ '\'' ∧ c ≠ '"'

/-- It is in a word exactly when it is in the word begun or in what is left to read. -/
theorem mem_shlexFrom {a : Char} (ha : Ordinary a) {state : ShlexState} {token : List Char}
    {quoted : Bool} {cs : List Char} {argv : List String}
    (h : shlexFrom state token quoted cs = .ok argv) :
    (∃ w ∈ argv, a ∈ w.toList) ↔ (state ≠ .blank ∧ a ∈ token) ∨ a ∈ cs := by
  obtain ⟨hspace, hback, hsingle, hdouble⟩ := ha
  fun_induction shlexFrom state token quoted cs generalizing argv with
  | case1 =>
    obtain rfl := Except.ok.inj h
    simp
  | case2 token quoted =>
    obtain rfl := Except.ok.inj h
    by_cases ht : token = []
    · subst ht
      split_ifs <;> simp
    · simp [ht]
  | case3 => cases h
  | case4 => cases h
  | case5 => cases h
  | case6 => cases h
  | case7 token quoted c cs hc ih =>
    have hne : a ≠ c := fun he => by simp [he, hc] at hspace
    rw [ih h]
    simp [hne]
  | case12 token quoted c cs hc ih =>
    have hne : a ≠ c := fun he => by simp [he, hc] at hspace
    obtain ⟨rest, hrest, h⟩ := except_bind_ok h
    obtain rfl := Except.ok.inj h
    have hrest := ih hrest
    by_cases ht : token ≠ [] ∨ quoted = true
    · simp only [if_pos ht, List.exists_mem_cons_iff, hrest, String.toList_ofList]
      simp [hne]
    · obtain rfl : token = [] := by
        by_contra hn
        exact ht (.inl hn)
      simp only [if_neg ht, hrest]
      simp [hne]
  | _ =>
    rename_i ih
    rw [ih h]
    simp_all [or_assoc, or_comm, or_left_comm]

theorem ordinary_nul : Ordinary (Char.ofNat 0) :=
  ⟨by decide, by decide, by decide, by decide⟩

theorem hasNul_shlex_split {command : String} {argv : List String}
    (h : shlex_split command = .ok argv) : argv.any hasNul = hasNul command := by
  have hmem := mem_shlexFrom ordinary_nul h
  simp only [ne_eq, not_true_eq_false, false_and, false_or] at hmem
  rw [Bool.eq_iff_iff, List.any_eq_true]
  simpa [hasNul] using hmem

/-- How starting a process and waiting for it may fail. -/
def Usual (w : World) : Prop :=
  match (w.tape 0).fault with
  | none | some (.os _) | some (.subprocess _) | some (.unicode _) => True
  | _ => False

/-- The process ran to its end, whether or not its output is text. -/
def RanToEnd (w : World) : Prop :=
  (w.tape 0).fault = none ∨ ∃ m, (w.tape 0).fault = some (.unicode m)

/-- The command was started, and its process ended with status 0. -/
def HookSucceeded (command : String) (w : World) : Prop :=
  (∃ argv, shlex_split command = .ok argv ∧ argv ≠ [] ∧ argv.any hasNul = false) ∧
    RanToEnd w ∧ (w.tape 0).status = 0

/-- What the callers of `run_hook` take it to do: it returns, unless it is told to fail fast and
its command did not succeed, when it raises a `PreconditionError`. -/
def Contained (command : String) (w : World) : Prop :=
  (exec (run_hook command false) w).1 = .ok () ∧
    ((exec (run_hook command true) w).1 = .ok () ↔ command = "" ∨ HookSucceeded command w) ∧
      ((exec (run_hook command true) w).1 = .ok () ∨
        ∃ m, (exec (run_hook command true) w).1 = .error (.precondition m))

theorem run_hook_unparsed {command : String} {e : Exn} (hne : command ≠ "")
    (h : shlex_split command = .error e) (fail_fast : Bool) (w : World) :
    exec (run_hook command fail_fast) w = exec (hookFailed
      s!"hook command could not be parsed: {reprString command}: {e.str}" fail_fast) w := by
  rw [run_hook, if_neg hne, h]

theorem argvStrings_texts (args : List String) : argvStrings (args.map .str) = .ok args := by
  have hstr : (args.map Toml.str).all Toml.isStr = true := by simp [Toml.isStr]
  have hback : (args.map Toml.str).map Toml.pyStr = args := by simp [Toml.pyStr, Function.comp_def]
  rw [argvStrings, if_pos hstr, hback]

theorem subprocess_run_texts {args : List String} (hne : args ≠ []) :
    subprocess_run (args.map .str) = if args.any hasNul then throw (.value "embedded null byte")
      else ask fun r _ => ⟨r.status, r.stdout, r.stderr⟩ := by
  rw [subprocess_run, argvStrings_texts]
  cases args with
  | nil => exact absurd rfl hne
  | cons a args => rfl

theorem run_hook_parsed {command : String} {argv : List String} (hne : command ≠ "")
    (h : shlex_split command = .ok argv) (fail_fast : Bool) :
    run_hook command fail_fast = (do
      let proc ← hookProcess command fail_fast argv
      match proc with
      | none => pure ()
      | some proc => hookEnded command fail_fast proc) := by
  rw [run_hook, if_neg hne]
  generalize shlex_split command = parsed at h ⊢
  subst h
  rfl

/-- What is not a failed start escapes. -/
theorem run_hook_escapes {command : String} {argv : List String} {e : Exn} {w w' : World}
    (hne : command ≠ "") (h : shlex_split command = .ok argv)
    (hstart : exec (subprocess_run (argv.map .str)) w = (.error e, w'))
    (hos : ∀ m, e ≠ .os m) (hsub : ∀ m, e ≠ .subprocess m) (fail_fast : Bool) :
    (exec (run_hook command fail_fast) w).1 = .error e := by
  rw [run_hook_parsed hne h, exec_bind, hookProcess, exec_tryCatch, exec_bind_error hstart]
  cases e with
  | os m => exact absurd rfl (hos m)
  | subprocess m => exact absurd rfl (hsub m)
  | _ => rfl

/-- A process that could not be run, or did not end, is reported. -/
theorem run_hook_failed {command : String} {argv : List String} {e : Exn} {w w' : World}
    (hne : command ≠ "") (h : shlex_split command = .ok argv)
    (hstart : exec (subprocess_run (argv.map .str)) w = (.error e, w'))
    (he : (∃ m, e = .os m) ∨ ∃ m, e = .subprocess m) (fail_fast : Bool) :
    ∃ message, (exec (run_hook command fail_fast) w).1 =
      if fail_fast then .error (.precondition message) else .ok () := by
  rw [run_hook_parsed hne h, exec_bind, hookProcess, exec_tryCatch, exec_bind_error hstart]
  rcases he with ⟨m, rfl⟩ | ⟨m, rfl⟩
  all_goals
    refine ⟨s!"hook '{command}' failed to execute: {m}", ?_⟩
    cases fail_fast <;> rfl

/-- A process that ended is judged by its status. -/
theorem run_hook_ended {command : String} {argv : List String} {proc : CompletedProcess}
    {w w' : World} (hne : command ≠ "") (h : shlex_split command = .ok argv)
    (hstart : exec (subprocess_run (argv.map .str)) w = (.ok proc, w')) (fail_fast : Bool) :
    ∃ message, (exec (run_hook command fail_fast) w).1 =
      if fail_fast = true ∧ proc.returncode ≠ 0 then .error (.precondition message)
      else .ok () := by
  have hprocess : exec (hookProcess command fail_fast argv) w = (.ok (some proc), w') := by
    rw [hookProcess, exec_tryCatch, exec_bind_ok hstart]
    rfl
  rw [run_hook_parsed hne h, exec_bind_ok hprocess]
  simp only [hookEnded]
  by_cases hcode : proc.returncode = 0
  · refine ⟨"", ?_⟩
    simp [hcode]
  · rw [if_pos hcode, hookFailed]
    cases fail_fast with
    | true => exact ⟨_, (if_pos ⟨rfl, hcode⟩).symm⟩
    | false => exact ⟨"", rfl⟩

/-- A run that returned, or raised a `PreconditionError` when told to fail fast, is contained. -/
theorem contained_of_judged {command : String} {w : World} {g : Prop} [Decidable g]
    (hgood : g ↔ command = "" ∨ HookSucceeded command w)
    (h : ∀ fail_fast, ∃ message, (exec (run_hook command fail_fast) w).1 =
      if fail_fast = true ∧ ¬ g then .error (.precondition message) else .ok ()) :
    Contained command w := by
  obtain ⟨message, hfast⟩ := h true
  obtain ⟨_, hcalm⟩ := h false
  rw [if_neg (by simp)] at hcalm
  refine ⟨hcalm, ?_, ?_⟩
  · rw [← hgood, hfast]
    by_cases hg : g <;> simp [hg]
  · rw [hfast]
    by_cases hg : g
    · exact .inl (by simp [hg])
    · exact .inr ⟨message, by simp [hg]⟩

section

variable {command : String} {argv : List String} {w : World}

/-- A command whose start raises `e` outright breaks the contract. -/
theorem not_contained_of_escape {e : Exn} {w' : World} (hne : command ≠ "")
    (h : shlex_split command = .ok argv)
    (hstart : exec (subprocess_run (argv.map .str)) w = (.error e, w'))
    (hos : ∀ m, e ≠ .os m) (hsub : ∀ m, e ≠ .subprocess m) : ¬ Contained command w := by
  intro hc
  have hraise := run_hook_escapes hne h hstart hos hsub false
  rw [hc.1] at hraise
  cases hraise

theorem hook_not_succeeded {e : Exn} (hne : command ≠ "") (hf : (w.tape 0).fault = some e)
    (he : ∀ m, e ≠ .unicode m) : ¬ (command = "" ∨ HookSucceeded command w) := by
  rintro (h | ⟨-, hran, -⟩)
  · exact hne h
  · rcases hran with hn | ⟨m, hm⟩
    · rw [hf] at hn
      cases hn
    · rw [hf] at hm
      exact he m (Option.some.inj hm)

/-- Of a process that can be started only output that is no text escapes. -/
theorem contained_of_started (hne : command ≠ "") (h : shlex_split command = .ok argv)
    (hargs : argv ≠ []) (hnul : argv.any hasNul = false) (hw : Usual w) :
    Contained command w ↔ ∀ m, (w.tape 0).fault ≠ some (.unicode m) := by
  have hstart : exec (subprocess_run (argv.map .str)) w =
      exec (ask fun r _ => (⟨r.status, r.stdout, r.stderr⟩ : CompletedProcess)) w := by
    rw [subprocess_run_texts hargs, hnul]
    rfl
  rw [exec_ask] at hstart
  cases hf : (w.tape 0).fault with
  | none =>
    rw [hf] at hstart
    refine iff_of_true ?_ (fun m hm => by cases hm)
    refine contained_of_judged (g := (w.tape 0).status = 0) ?_ (run_hook_ended hne h hstart)
    constructor
    · exact fun hs => .inr ⟨⟨argv, h, hargs, hnul⟩, .inl hf, hs⟩
    · exact fun hs => (hs.resolve_left hne).2.2
  | some e =>
    rw [hf] at hstart
    dsimp only at hstart
    have hfailed (he : (∃ m, e = .os m) ∨ ∃ m, e = .subprocess m) (hun : ∀ m, e ≠ .unicode m) :
        Contained command w := by
      have hnot := hook_not_succeeded hne hf hun
      refine contained_of_judged (g := False) (by simpa using hnot) (fun ff => ?_)
      obtain ⟨message, hm⟩ := run_hook_failed hne h hstart he ff
      exact ⟨message, by simpa using hm⟩
    rw [Usual, hf] at hw
    cases e with
    | os m => exact iff_of_true (hfailed (.inl ⟨m, rfl⟩) nofun) (by simp)
    | subprocess m => exact iff_of_true (hfailed (.inr ⟨m, rfl⟩) nofun) (by simp)
    | unicode m =>
      refine iff_of_false ?_ (fun hn => hn m rfl)
      exact not_contained_of_escape hne h hstart nofun nofun
    | _ => exact hw.elim

end

/-- For every command and every end of its process, `run_hook` keeps to its contract exactly when
the command is empty or cannot be split, or is neither blank nor holds a NUL and what its process
printed is text. -/
theorem hook_contained_iff (command : String) {w : World} (hw : Usual w) :
    Contained command w ↔ command = "" ∨ (∃ e, shlex_split command = .error e) ∨
      ¬ Blank command ∧ hasNul command = false ∧ ∀ m, (w.tape 0).fault ≠ some (.unicode m) := by
  by_cases hne : command = ""
  · refine iff_of_true (contained_of_judged (g := True) (by simp [hne]) (fun _ => ⟨"", ?_⟩))
      (.inl hne)
    simp [run_hook, hne]
  cases hsplit : shlex_split command with
  | error e =>
    have hnot : ¬ (command = "" ∨ HookSucceeded command w) := by
      rintro (h | ⟨⟨argv, h, -⟩, -⟩)
      · exact hne h
      · rw [hsplit] at h
        cases h
    refine iff_of_true (contained_of_judged (g := False) (by simpa using hnot) (fun ff => ?_))
      (.inr (.inl ⟨e, rfl⟩))
    rw [run_hook_unparsed hne hsplit, hookFailed]
    cases ff with
    | true => exact ⟨_, (if_pos ⟨rfl, not_false⟩).symm⟩
    | false => exact ⟨"", rfl⟩
  | ok argv =>
    have hblank : argv = [] ↔ Blank command := by
      rw [← shlex_split_nil_iff, hsplit, Except.ok.injEq]
    have hnul := hasNul_shlex_split hsplit
    rw [← hblank, ← hnul]
    by_cases hargs : argv = []
    · subst hargs
      refine iff_of_false (not_contained_of_escape hne hsplit rfl nofun nofun) ?_
      simp [hne]
    cases hany : argv.any hasNul with
    | true =>
      have hstart : exec (subprocess_run (argv.map .str)) w =
          (.error (.value "embedded null byte"), w) := by
        rw [subprocess_run_texts hargs, hany]
        rfl
      refine iff_of_false (not_contained_of_escape hne hsplit hstart nofun nofun) ?_
      simp [hne]
    | false =>
      rw [contained_of_started hne hsplit hargs hany hw]
      simp [hne, hargs]

/-- Every process ends with the code 1. -/
def failingHooks : World :=
  { smallWorld smallTree with
    tape := fun _ => { Reply.good 1700000000000000 with status := 1, stderr := "no route" } }

/-- A notification that fails is contained: it stops what asked for that, and nothing else. -/
theorem hook_contained_iff_failing :
    Usual failingHooks ∧ Contained "notify 'two words'" failingHooks ∧
      (exec (run_hook "notify 'two words'" false) failingHooks).1 = .ok () ∧
      (exec (run_hook "notify 'two words'" true) failingHooks).1 ≠ .ok () := by
  have hw : Usual failingHooks := trivial
  refine ⟨hw, (hook_contained_iff _ hw).mpr (.inr (.inr ?_)), by decide +kernel, by decide +kernel⟩
  exact ⟨by decide, by decide, fun m => by simp [failingHooks, Reply.good]⟩

/-- A blank command of a hook that must not abort the run is accepted, and its `IndexError`
escapes. -/
theorem blank_hook_escapes :
    ∃ config, parse_config (smallTable "/w" "p" "/b" 1 ++
        [("hooks", .table [("post_backup", .str " ")])]) = .ok config ∧
      Usual (smallWorld smallTree) ∧
      (exec (run_hook config.hooks.post_backup false) (smallWorld smallTree)).1 =
        .error (.index "list index out of range") ∧
      ¬ Contained config.hooks.post_backup (smallWorld smallTree) := by
  refine ⟨_, rfl, trivial, rfl, fun h => ?_⟩
  have hindex := h.1
  cases hindex

end MbKeeper
