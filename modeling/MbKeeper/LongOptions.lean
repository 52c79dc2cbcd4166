import Mathlib.Data.List.TakeWhile
import Mathlib.Data.String.Basic
import Mathlib.Tactic.Common

/-!
# Reading long options

An argument vector as a parser of long options reads it. The name of an option
may be cut short where that leaves one choice, and an underscore in it stands
for a dash. A value follows an equals sign, or is the next argument of an option
that requires one. A lone `--` ends the options.
-/

/-- The options a parser knows. -/
structure LongOptions where
  /-- Their names, written with dashes. -/
  names : List String
  /-- Whether the option takes the next argument as its value. -/
  requires : String → Bool

namespace LongOptions

/-- The name as it is written; a lone `--` writes an empty one. -/
def spelled (arg : String) : Option String :=
  match arg.toList with
  | '-' :: '-' :: body => some (String.ofList (body.takeWhile (· ≠ '=')))
  | _ => none

def dashed (s : String) : String :=
  String.ofList (s.toList.map (fun c => if c = '_' then '-' else c))

variable (opts : LongOptions)

/-- The option that a written name selects: the one of that name, or the only one that
begins so. -/
def select (s : String) : Option String :=
  if dashed s ∈ opts.names then some (dashed s)
  else match opts.names.filter (fun name => (dashed s).toList <+: name.toList) with
    | [name] => some name
    | _ => none

/-- The option that an argument sets. -/
def sets (arg : String) : Option String := (spelled arg).bind opts.select

/-- Whether the next argument is the value of this one. -/
def takesNext (arg : String) : Bool := '=' ∉ arg.toList ∧ (opts.sets arg).any opts.requires = true

/-- The arguments that are read as options; the first one is a value when `value` is set. -/
def readFrom : Bool → List String → List String
  | _, [] => []
  | true, _ :: args => readFrom false args
  | false, arg :: args =>
    if arg = "--" then []
    else if (spelled arg).isSome then arg :: readFrom (opts.takesNext arg) args
    else readFrom false args

def read (args : List String) : List String := opts.readFrom false args

/-- The options that are set, one for each argument that sets one. -/
def occurrences (args : List String) : List String := (opts.read args).filterMap opts.sets

/-- `--name`, or `--name=value`. -/
structure Writes (name arg : String) : Prop where
  text : arg = "--" ++ name ∨ ∃ value, arg = "--" ++ name ++ "=" ++ value

variable {opts}

theorem spelled_writes {name arg : String} (h : Writes name arg) (hname : '=' ∉ name.toList) :
    spelled arg = some name := by
  have hall : ∀ c ∈ name.toList, (decide (c ≠ '=')) = true := by
    intro c hc
    exact decide_eq_true (fun he => hname (he ▸ hc))
  rcases h.text with rfl | ⟨value, rfl⟩
  · have hlist : ("--" ++ name).toList = '-' :: '-' :: name.toList := by simp
    simp only [spelled, hlist]
    rw [List.takeWhile_eq_self_iff.mpr hall, String.ofList_toList]
  · have hlist : ("--" ++ name ++ "=" ++ value).toList =
        '-' :: '-' :: (name.toList ++ '=' :: value.toList) := by simp
    simp only [spelled, hlist]
    rw [List.takeWhile_append_of_pos hall, List.takeWhile_cons_of_neg (by simp), List.append_nil,
      String.ofList_toList]

/-- The text in front of the equals sign is the name that is written. -/
theorem writes_of_spelled {name arg : String} (h : spelled arg = some name) : Writes name arg := by
  unfold spelled at h
  split at h
  · next body hbody =>
    have hname : name.toList = body.takeWhile (fun c => decide (c ≠ '=')) := by
      rw [← Option.some.inj h, String.toList_ofList]
    have hsplit := List.takeWhile_append_dropWhile (p := fun c => decide (c ≠ '=')) (l := body)
    rw [← hname] at hsplit
    cases hrest : body.dropWhile (fun c => decide (c ≠ '=')) with
    | nil =>
      refine ⟨.inl (String.toList_inj.mp ?_)⟩
      rw [hrest, List.append_nil] at hsplit
      simp [hbody, hsplit]
    | cons c rest =>
      have hc : c = '=' := by
        have hne : body.dropWhile (fun c => decide (c ≠ '=')) ≠ [] := by
          rw [hrest]
          exact List.cons_ne_nil c rest
        have hhead := List.head_dropWhile_not (fun c => decide (c ≠ '=')) hne
        simp only [hrest, List.head_cons] at hhead
        simpa using hhead
      refine ⟨.inr ⟨String.ofList rest, String.toList_inj.mp ?_⟩⟩
      rw [hrest, hc] at hsplit
      simp [hbody, ← hsplit]
  · cases h

theorem select_of_mem {name : String} (hdash : '_' ∉ name.toList) (h : name ∈ opts.names) :
    opts.select name = some name := by
  have hdashed : dashed name = name := by
    have hmap : name.toList.map (fun c => if c = '_' then '-' else c) = name.toList := by
      conv_rhs => rw [← List.map_id name.toList]
      apply List.map_congr_left
      intro c hc
      have hne : c ≠ '_' := fun he => hdash (he ▸ hc)
      simp [hne]
    rw [dashed, hmap, String.ofList_toList]
  simp [select, hdashed, h]

theorem sets_writes {name arg : String} (h : Writes name arg) (heq : '=' ∉ name.toList)
    (hdash : '_' ∉ name.toList) (hmem : name ∈ opts.names) : opts.sets arg = some name := by
  rw [sets, spelled_writes h heq, Option.bind_some, select_of_mem hdash hmem]

/-- An option that takes nothing more leaves what follows as it is. -/
theorem occurrences_cons {arg name : String} {args : List String} (hlone : arg ≠ "--")
    (h : opts.sets arg = some name) (htakes : opts.takesNext arg = false) :
    opts.occurrences (arg :: args) = name :: opts.occurrences args := by
  have hspelled : (spelled arg).isSome = true := by
    obtain ⟨s, hs, -⟩ := Option.bind_eq_some_iff.mp h
    simp [hs]
  rw [occurrences, read, readFrom, if_neg hlone, if_pos hspelled, htakes,
    List.filterMap_cons_some h]
  rfl

/-- An option written in full, with the value that is attached to it. -/
def write (option : String × Option String) : String :=
  match option.2 with
  | none => "--" ++ option.1
  | some value => "--" ++ option.1 ++ "=" ++ value

theorem writes_write (option : String × Option String) : Writes option.1 (write option) := by
  obtain ⟨name, _ | value⟩ := option
  · exact ⟨.inl rfl⟩
  · exact ⟨.inr ⟨value, rfl⟩⟩

/-- A name that is known, and that stands for no other. -/
structure FullName (opts : LongOptions) (name : String) : Prop where
  nonempty : name ≠ ""
  equals : '=' ∉ name.toList
  underscore : '_' ∉ name.toList
  known : name ∈ opts.names

theorem takesNext_write {option : String × Option String} (hplain : FullName opts option.1)
    (h : option.2 = none → opts.requires option.1 = false) :
    opts.takesNext (write option) = false := by
  have hsets := sets_writes (writes_write option) hplain.equals hplain.underscore hplain.known
  obtain ⟨name, _ | value⟩ := option
  · simp [takesNext, hsets, h rfl]
  · simp [takesNext, write]

theorem write_ne_lone {option : String × Option String} (h : option.1 ≠ "") :
    write option ≠ "--" := by
  intro he
  have hwrites := writes_write option
  rw [he] at hwrites
  rcases hwrites.text with htext | ⟨value, htext⟩
  · have hlist := congrArg String.toList htext
    simp only [String.toList_append, List.self_eq_append_right] at hlist
    exact h (String.toList_inj.mp hlist)
  · have hlist := congrArg (fun s => s.toList.length) htext
    simp at hlist

/-- Options that are written in full set themselves, in front of whatever follows. -/
theorem occurrences_write_append {options : List (String × Option String)}
    (hplain : ∀ option ∈ options, FullName opts option.1)
    (h : ∀ option ∈ options, option.2 = none → opts.requires option.1 = false)
    (args : List String) :
    opts.occurrences (options.map write ++ args) =
      options.map Prod.fst ++ opts.occurrences args := by
  induction options with
  | nil => rfl
  | cons option options ih =>
    rw [List.forall_mem_cons] at hplain h
    have hsets := sets_writes (writes_write option) hplain.1.equals hplain.1.underscore
      hplain.1.known
    rw [List.map_cons, List.cons_append, List.map_cons, List.cons_append,
      occurrences_cons (write_ne_lone hplain.1.nonempty) hsets (takesNext_write hplain.1 h.1),
      ih hplain.2 h.2]

theorem mem_occurrences {name : String} {args : List String} :
    name ∈ opts.occurrences args ↔ ∃ arg ∈ opts.read args, opts.sets arg = some name :=
  List.mem_filterMap

theorem mem_of_mem_readFrom {value : Bool} {args : List String} {arg : String}
    (h : arg ∈ opts.readFrom value args) : arg ∈ args := by
  induction args generalizing value with
  | nil => simp [readFrom] at h
  | cons first args ih =>
    cases value with
    | true =>
      rw [readFrom] at h
      exact List.mem_cons_of_mem _ (ih h)
    | false =>
      rw [readFrom] at h
      split_ifs at h with hlone hoption
      · simp at h
      · rcases List.mem_cons.mp h with rfl | h
        · exact List.mem_cons_self
        · exact List.mem_cons_of_mem _ (ih h)
      · exact List.mem_cons_of_mem _ (ih h)

theorem mem_of_mem_read {args : List String} {arg : String} (h : arg ∈ opts.read args) :
    arg ∈ args := mem_of_mem_readFrom h

end LongOptions
