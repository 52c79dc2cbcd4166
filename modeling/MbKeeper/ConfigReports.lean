import MbKeeper.ConfigErrors

/-!
# Which errors are reported

A message names a key. What is said of a key depends on the value of that key
alone, and for a key of a destination on its type, so two documents with one
value at a key get the same messages about it, unless validation does not come
to that key. It passes by the keys of a destination whose type is not valid, and
a document that is not readable gets no messages at all.
-/
namespace MbKeeper

/-- Where a key of a document stands: at the top, in a section, in a destination. -/
inductive Field where
  | top (key : String)
  | under (name key : String)
  | entry (index : ℕ) (key : String)
  deriving DecidableEq

namespace Field

def key : Field → String
  | .top key | .under _ key | .entry _ key => key

/-- What the messages call the table of the key. -/
def context : Field → String
  | .top _ => "top-level"
  | .under name _ => "[" ++ name ++ "]"
  | .entry index _ => destContext index

end Field

/-- The table of a section. -/
def tableAt (raw : Table) (name : String) : Option Table :=
  match getKey raw name with
  | some (.table t) => some t
  | _ => none

/-- The table of an entry of the destinations. -/
def entryTable (raw : Table) (index : ℕ) : Option Table :=
  match getKey raw "destinations" with
  | some (.array tables) => match tables[index]? with
    | some (.table t) => some t
    | _ => none
  | _ => none

/-- The table the key stands in. -/
def Field.table (raw : Table) : Field → Option Table
  | .top _ => some raw
  | .under name _ => tableAt raw name
  | .entry index _ => entryTable raw index

def Field.get (raw : Table) (f : Field) : Option Toml :=
  (f.table raw).bind (fun t => getKey t f.key)

/-- `table[key] = value` -/
def setKey : Table → String → Toml → Table
  | [], key, v => [(key, v)]
  | (k, u) :: table, key, v =>
    if k = key then (key, v) :: table else (k, u) :: setKey table key v

/-- The document with another value at the key. -/
def Field.put (raw : Table) (v : Toml) : Field → Table
  | .top key => setKey raw key v
  | .under name key => match getKey raw name with
    | some (.table t) => setKey raw name (.table (setKey t key v))
    | _ => raw
  | .entry index key => match getKey raw "destinations" with
    | some (.array tables) => match tables[index]? with
      | some (.table t) =>
        setKey raw "destinations" (.array (tables.set index (.table (setKey t key v))))
      | _ => raw
    | _ => raw

/-- The message is about the key. -/
def Problem.Names (f : Field) : Problem → Prop
  | .unknown key context | .missing key context | .field key context _ =>
    f.key = key ∧ f.context = context
  | .document key _ => f = .top key
  | .other _ => False

/-- One of the messages is about the key. -/
def Mentions (errors : List Problem) (f : Field) : Prop := ∃ m ∈ errors, m.Names f

variable {f : Field} {t t' : Table} {l l' : List Problem} {key context default : String}
  {valid : List String}

/-- A message about that key of that table. -/
def Problem.About (key context : String) : Problem → Prop
  | .unknown k c | .missing k c | .field k c _ => k = key ∧ c = context
  | _ => False

/-- A message about some key of that table. -/
def Problem.Within (context : String) (m : Problem) : Prop := ∃ key, m.About key context

theorem Problem.About.names {m : Problem} (h : m.About key context) :
    m.Names f ↔ f.key = key ∧ f.context = context := by
  cases m with
  | unknown | missing | field =>
    obtain ⟨rfl, rfl⟩ := h
    exact Iff.rfl
  | document | other => exact h.elim

namespace Checks

variable {P : Table → List Problem}

end Checks

section

variable {index : ℕ} {seen seen' : List String}
  {r r' : Option DestinationConfig × List String × List Problem}

end

/-- Both documents have the key, with one value, and in a destination of one type. -/
structure Agree (raw raw' : Table) (f : Field) : Prop where
  value : ∃ v, f.get raw = some v ∧ f.get raw' = some v
  type : ∀ index key, f = .entry index key → ∀ t t', entryTable raw index = some t →
    entryTable raw' index = some t' → parse_type t = parse_type t'

/-- The tables the key stands in. -/
theorem Agree.tables {raw raw' : Table} (h : Agree raw raw' f) :
    ∃ t t', f.table raw = some t ∧ f.table raw' = some t' ∧
      getKey t f.key = getKey t' f.key ∧ (getKey t f.key).isSome = true := by
  obtain ⟨v, hv, hv'⟩ := h.value
  obtain ⟨t, ht, hget⟩ := Option.bind_eq_some_iff.mp hv
  obtain ⟨t', ht', hget'⟩ := Option.bind_eq_some_iff.mp hv'
  exact ⟨t, t', ht, ht', hget.trans hget'.symm, by rw [hget]; rfl⟩

section

variable {raw raw' : Table} {name : String} {part : Option Toml → Except Exn (List Problem)}

end

/-- Validation reports an error about the key. -/
def Complains (doc : Table) (f : Field) : Prop :=
  ∃ config errors, parse_document doc = .ok (config, errors) ∧ Mentions errors f

/-- The error is then part of the text of the exception. -/
theorem Complains.raised {doc : Table} (h : Complains doc f) :
    ∃ (m : Problem) (before after : List Problem), m.Names f ∧ parse_config doc =
      .error (.config ("Invalid configuration:\n" ++
        "\n".intercalate ((before ++ m :: after).map (fun m => "  - " ++ m.text)))) := by
  obtain ⟨config, errors, hd, m, hm, hn⟩ := h
  obtain ⟨before, after, rfl⟩ := List.append_of_mem hm
  refine ⟨m, before, after, hn, ?_⟩
  rw [parse_config, hd]
  cases before <;> rfl

end MbKeeper
