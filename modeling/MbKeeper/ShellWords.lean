import Mathlib.Data.List.Basic
import Mathlib.Tactic.Common

/-!
# Words of a POSIX shell

`lex` splits a command into its tokens, which are pieces of the text, quotes and
all. It stops in front of the first word that holds an expansion or a quote that
is not closed. `unquote` removes the quotes of a word that stands for itself and
fails on any other. The last part says which texts may stand between double
quotes: those that are read back as they are.
-/
namespace ShellWords

def isBlank (c : Char) : Bool := c = ' ' ∨ c = '\t'

/-- A dollar sign or a backquote. -/
def isExpansion (c : Char) : Bool := c = '$' ∨ c.toNat = 96

/-- What a backslash takes the meaning from, between double quotes. -/
def isEscapable (c : Char) : Bool := c = '"' ∨ c = '\\' ∨ c = '\n' ∨ isExpansion c = true

/-- What is more than itself outside quotes: patterns and the tilde. -/
def isPattern (c : Char) : Bool := c = '*' ∨ c = '?' ∨ c = '[' ∨ c = '~'

def OPERATORS : List (List Char) :=
  [['&'], ['|'], [';'], ['<'], ['>'], ['('], [')'], ['\n'], ['&', '&'], ['|', '|'], [';', ';'],
    ['<', '<'], ['>', '>'], ['<', '&'], ['>', '&'], ['<', '>'], ['<', '<', '-'], ['>', '|']]

def isOperator (source : List Char) : Bool := source ∈ OPERATORS

/-- A character that has no meaning of its own, wherever it stands in a word. -/
def isOrdinary (c : Char) : Bool :=
  !isExpansion c && !isBlank c && !isOperator [c] && c ≠ '#' && c ≠ '"' && c ≠ '\'' && c ≠ '\\'

/-- Where the lexer is, with the text of the token it is in. -/
inductive Reading where
  | between
  | comment
  | operator (source : List Char)
  | word (source : List Char)
  | escaped (source : List Char)
  | single (source : List Char)
  | double (source : List Char)
  | doubleEscaped (source : List Char)

/-- How a character that belongs to no token yet is read; an expansion is not. -/
def begin (c : Char) : Option Reading :=
  if isExpansion c then none
  else if isBlank c then some .between
  else if c = '#' then some .comment
  else if isOperator [c] then some (.operator [c])
  else if c = '"' then some (.double [c])
  else if c = '\'' then some (.single [c])
  else if c = '\\' then some (.escaped [c])
  else some (.word [c])

def emit (source : List Char) (r : List (List Char) × List Char) : List (List Char) × List Char :=
  (source :: r.1, r.2)

/-- The tokens, and what is left where the lexer stops. -/
def lex : Reading → List Char → List (List Char) × List Char
  | .between, [] | .comment, [] => ([], [])
  | .operator source, [] | .word source, [] => ([source], [])
  | .escaped source, [] | .single source, [] | .double source, [] | .doubleEscaped source, [] =>
    ([], source)
  | .between, c :: cs =>
    match begin c with
    | none => ([], c :: cs)
    | some reading => lex reading cs
  | .comment, c :: cs => if c = '\n' then lex (.operator [c]) cs else lex .comment cs
  | .operator source, c :: cs =>
    if isOperator (source ++ [c]) then lex (.operator (source ++ [c])) cs
    else match begin c with
      | none => ([source], c :: cs)
      | some reading => emit source (lex reading cs)
  | .word source, c :: cs =>
    if isExpansion c then ([], source ++ c :: cs)
    else if isBlank c then emit source (lex .between cs)
    else if isOperator [c] then emit source (lex (.operator [c]) cs)
    else if c = '"' then lex (.double (source ++ [c])) cs
    else if c = '\'' then lex (.single (source ++ [c])) cs
    else if c = '\\' then lex (.escaped (source ++ [c])) cs
    else lex (.word (source ++ [c])) cs
  | .escaped source, c :: cs =>
    -- a backslash and a line break are nothing at all
    if c = '\n' then
      if source.dropLast = [] then lex .between cs else lex (.word source.dropLast) cs
    else lex (.word (source ++ [c])) cs
  | .single source, c :: cs =>
    if c = '\'' then lex (.word (source ++ [c])) cs else lex (.single (source ++ [c])) cs
  | .double source, c :: cs =>
    if isExpansion c then ([], source ++ c :: cs)
    else if c = '"' then lex (.word (source ++ [c])) cs
    else if c = '\\' then lex (.doubleEscaped (source ++ [c])) cs
    else lex (.double (source ++ [c])) cs
  | .doubleEscaped source, c :: cs => lex (.double (source ++ [c])) cs

def tokens (text : String) : List (List Char) × List Char := lex .between text.toList

example : tokens "a 'b c'\"d\\\"\"; e&&f $x" =
    (["a", "'b c'\"d\\\"\"", ";", "e", "&&", "f"].map String.toList, "$x".toList) := by decide

theorem isOrdinary_iff {c : Char} : isOrdinary c = true ↔ isExpansion c = false ∧
    isBlank c = false ∧ isOperator [c] = false ∧ c ≠ '#' ∧ c ≠ '"' ∧ c ≠ '\'' ∧ c ≠ '\\' := by
  simp [isOrdinary, and_assoc]

theorem lex_word {w : List Char} (h : ∀ c ∈ w, isOrdinary c = true) (source rest : List Char) :
    lex (.word source) (w ++ rest) = lex (.word (source ++ w)) rest := by
  induction w generalizing source with
  | nil => simp
  | cons c w ih =>
    rw [List.forall_mem_cons] at h
    obtain ⟨hexpand, hblank, hoperator, -, hdouble, hsingle, hescape⟩ := isOrdinary_iff.mp h.1
    rw [List.cons_append, lex, if_neg (by simp [hexpand]), if_neg (by simp [hblank]),
      if_neg (by simp [hoperator]), if_neg hdouble, if_neg hsingle, if_neg hescape, ih h.2]
    simp

/-- A word of ordinary characters is a token when a blank follows. -/
theorem lex_ordinary {w : List Char} (hne : w ≠ []) (h : ∀ c ∈ w, isOrdinary c = true)
    (rest : List Char) : lex .between (w ++ ' ' :: rest) = emit w (lex .between rest) := by
  cases w with
  | nil => exact absurd rfl hne
  | cons c w =>
    rw [List.forall_mem_cons] at h
    obtain ⟨hexpand, hblank, hoperator, hcomment, hdouble, hsingle, hescape⟩ :=
      isOrdinary_iff.mp h.1
    have hbegin : begin c = some (.word [c]) := by
      simp [begin, hexpand, hblank, hoperator, hcomment, hdouble, hsingle, hescape]
    rw [List.cons_append, lex, hbegin]
    dsimp only
    rw [lex_word h.2, lex]
    rfl

inductive Quote where
  | plain
  | escaped
  | single
  | double
  | doubleEscaped

/-- The text a word stands for, when that is the word itself without its quotes. -/
def unquote : Quote → List Char → Option (List Char)
  | .plain, [] => some []
  | .escaped, [] | .single, [] | .double, [] | .doubleEscaped, [] => none
  | .plain, c :: cs =>
    if c = '"' then unquote .double cs
    else if c = '\'' then unquote .single cs
    else if c = '\\' then unquote .escaped cs
    else if isExpansion c ∨ isPattern c then none
    else (unquote .plain cs).map (c :: ·)
  | .escaped, c :: cs =>
    if c = '\n' then unquote .plain cs else (unquote .plain cs).map (c :: ·)
  | .single, c :: cs =>
    if c = '\'' then unquote .plain cs else (unquote .single cs).map (c :: ·)
  | .double, c :: cs =>
    if c = '"' then unquote .plain cs
    else if c = '\\' then unquote .doubleEscaped cs
    else if isExpansion c then none
    else (unquote .double cs).map (c :: ·)
  | .doubleEscaped, c :: cs =>
    if c = '\n' then unquote .double cs
    else if isEscapable c then (unquote .double cs).map (c :: ·)
    else (unquote .double cs).map ('\\' :: c :: ·)

def quoted (s : String) : List Char := '"' :: (s.toList ++ ['"'])

/-- The word is the text `s` in double quotes, and stands for it. -/
def StandsFor (word : List Char) (s : String) : Prop := unquote .plain word = some s.toList

/-- No double quote and no expansion, and no backslash at the end or in front of one of these, of
a backslash or of a line break. -/
def inert : List Char → Bool
  | [] => true
  | c :: cs =>
    (if c = '\\' then cs.head?.any (fun d => !isEscapable d) else c ≠ '"' && !isExpansion c) &&
      inert cs

def Inert (s : String) : Prop := inert s.toList = true

instance (s : String) : Decidable (Inert s) := inferInstanceAs (Decidable (_ = true))

/-- The quote that is open will be dropped. -/
def Quote.dropped : Quote → ℕ
  | .plain | .escaped | .doubleEscaped => 0
  | .single | .double => 1

/-- Removing quotes adds nothing. -/
theorem unquote_length {q : Quote} {cs out : List Char} (h : unquote q cs = some out) :
    out.length + q.dropped ≤ cs.length := by
  induction cs generalizing q out with
  | nil =>
    cases q with
    | plain =>
      obtain rfl := Option.some.inj h
      exact Nat.le_refl _
    | _ => cases h
  | cons c cs ih =>
    have hcons (q' : Quote) (kept : List Char)
        (hk : (unquote q' cs).map (kept ++ ·) = some out) :
        out.length + q'.dropped ≤ cs.length + kept.length := by
      obtain ⟨rest, hrest, rfl⟩ := Option.map_eq_some_iff.mp hk
      have hlen := ih hrest
      rw [List.length_append]
      omega
    rw [List.length_cons]
    cases q with
    | plain =>
      rw [unquote] at h
      split_ifs at h
      · have hlen := ih h
        simp only [Quote.dropped] at hlen ⊢
        omega
      · have hlen := ih h
        simp only [Quote.dropped] at hlen ⊢
        omega
      · have hlen := ih h
        simp only [Quote.dropped] at hlen ⊢
        omega
      · exact hcons .plain [c] h
    | escaped =>
      rw [unquote] at h
      split_ifs at h
      · have hlen := ih h
        simp only [Quote.dropped] at hlen ⊢
        omega
      · exact hcons .plain [c] h
    | single =>
      rw [unquote] at h
      split_ifs at h
      · exact Nat.succ_le_succ (ih h)
      · exact hcons .single [c] h
    | double =>
      rw [unquote] at h
      split_ifs at h
      · exact Nat.succ_le_succ (ih h)
      · exact Nat.succ_le_succ (ih h)
      · exact hcons .double [c] h
    | doubleEscaped =>
      rw [unquote] at h
      split_ifs at h
      · have hlen := ih h
        simp only [Quote.dropped] at hlen ⊢
        omega
      · have hlen := hcons .double [c] h
        simp only [Quote.dropped, List.length_singleton] at hlen ⊢
        omega
      · have hlen := hcons .double ['\\', c] h
        simp only [Quote.dropped, List.length_cons, List.length_nil] at hlen ⊢
        omega

/-- Outside quotes a double quote is lost. -/
theorem unquote_plain_length {cs out : List Char} (h : unquote .plain cs = some out)
    (hquote : '"' ∈ cs) : out.length < cs.length := by
  induction cs generalizing out with
  | nil => simp at hquote
  | cons c cs ih =>
    rw [unquote] at h
    rw [List.length_cons]
    split_ifs at h with hdouble hsingle hescape
    · have hlen := unquote_length h
      simp only [Quote.dropped] at hlen
      omega
    · have hlen := unquote_length h
      simp only [Quote.dropped] at hlen
      omega
    · have hlen := unquote_length h
      simp only [Quote.dropped] at hlen
      omega
    · obtain ⟨rest, hrest, rfl⟩ := Option.map_eq_some_iff.mp h
      have hlater : '"' ∈ cs := by
        rcases List.mem_cons.mp hquote with he | hlater
        · exact absurd he.symm hdouble
        · exact hlater
      have hlen := ih hrest hlater
      rw [List.length_cons]
      omega

theorem isEscapable_eq_false {d : Char} (h : isEscapable d = false) :
    d ≠ '"' ∧ d ≠ '\\' ∧ d ≠ '\n' ∧ isExpansion d = false := by
  simpa [isEscapable] using h

theorem unquote_double_cons {c : Char} (hclose : c ≠ '"') (hescape : c ≠ '\\')
    (hexpand : isExpansion c = false) (cs : List Char) :
    unquote .double (c :: cs) = (unquote .double cs).map (c :: ·) := by
  rw [unquote, if_neg hclose, if_neg hescape, if_neg (by simp [hexpand])]

/-- In front of any other character a backslash stays. -/
theorem unquote_doubleEscaped {d : Char} (h : isEscapable d = false) (cs : List Char) :
    unquote .doubleEscaped (d :: cs) = (unquote .double (d :: cs)).map ('\\' :: ·) := by
  obtain ⟨hclose, hescape, hbreak, hexpand⟩ := isEscapable_eq_false h
  rw [unquote_double_cons hclose hescape hexpand, unquote, if_neg hbreak, if_neg (by simp [h]),
    Option.map_map]
  rfl

theorem lex_double_cons {c : Char} (hclose : c ≠ '"') (hescape : c ≠ '\\')
    (hexpand : isExpansion c = false) (source cs : List Char) :
    lex (.double source) (c :: cs) = lex (.double (source ++ [c])) cs := by
  rw [lex, if_neg (by simp [hexpand]), if_neg hclose, if_neg hescape]

theorem lex_doubleEscaped {d : Char} (h : isEscapable d = false) (source cs : List Char) :
    lex (.doubleEscaped source) (d :: cs) = lex (.double source) (d :: cs) := by
  obtain ⟨hclose, hescape, -, hexpand⟩ := isEscapable_eq_false h
  rw [lex_double_cons hclose hescape hexpand, lex]

/-- An inert text goes on with an inert text, and a backslash in it is not the last character. -/
theorem inert_cons {c : Char} {s : List Char} (h : inert (c :: s) = true) :
    inert s = true ∧
      (c = '\\' ∧ (∃ d s', s = d :: s' ∧ isEscapable d = false) ∨
        c ≠ '\\' ∧ c ≠ '"' ∧ isExpansion c = false) := by
  rw [inert, Bool.and_eq_true] at h
  refine ⟨h.2, ?_⟩
  by_cases hescape : c = '\\'
  · refine .inl ⟨hescape, ?_⟩
    rw [if_pos hescape] at h
    cases s with
    | nil => simp at h
    | cons d s => exact ⟨d, s, rfl, by simpa using h.1⟩
  · rw [if_neg hescape] at h
    exact .inr ⟨hescape, by simpa using h.1⟩

/-- What is read back as it stands between double quotes is inert. -/
theorem inert_of_unquote {s : List Char} (h : unquote .double (s ++ ['"']) = some s) :
    inert s = true := by
  induction s with
  | nil => rfl
  | cons c s ih =>
    rw [List.cons_append, unquote] at h
    split_ifs at h with hclose hescape hexpand
    · have hlen := unquote_plain_length h (by simp)
      simp at hlen
    · subst hescape
      cases s with
      | nil => simp [unquote, isEscapable] at h
      | cons d s =>
        rw [List.cons_append] at h
        cases hd : isEscapable d with
        | true =>
          rw [unquote] at h
          split_ifs at h with hbreak
          · have hlen := unquote_length h
            simp only [Quote.dropped, List.length_cons, List.length_append, List.length_nil]
              at hlen
            omega
          · obtain ⟨rest, hrest, hout⟩ := Option.map_eq_some_iff.mp h
            have hlen := unquote_length hrest
            have hsame := congrArg List.length hout
            simp only [Quote.dropped, List.length_cons, List.length_append, List.length_nil]
              at hlen hsame
            omega
        | false =>
          rw [unquote_doubleEscaped hd] at h
          obtain ⟨rest, hrest, hout⟩ := Option.map_eq_some_iff.mp h
          rw [(List.cons.inj hout).2] at hrest
          rw [inert, if_pos rfl, ih hrest]
          simp [hd]
    · obtain ⟨rest, hrest, hout⟩ := Option.map_eq_some_iff.mp h
      rw [(List.cons.inj hout).2] at hrest
      rw [inert, if_neg hescape, ih hrest]
      simp [hclose, hexpand]

/-- An inert text between double quotes stands for itself. -/
theorem unquote_double {s : List Char} (h : inert s = true) :
    unquote .double (s ++ ['"']) = some s := by
  induction s with
  | nil => rfl
  | cons c s ih =>
    obtain ⟨hs, ⟨rfl, d, s', rfl, hd⟩ | ⟨hescape, hclose, hexpand⟩⟩ := inert_cons h
    · have hrest := ih hs
      rw [List.cons_append] at hrest
      rw [List.cons_append, unquote, if_neg (by decide), if_pos rfl, List.cons_append,
        unquote_doubleEscaped hd, hrest]
      rfl
    · rw [List.cons_append, unquote_double_cons hclose hescape hexpand, ih hs]
      rfl

theorem standsFor_quoted (s : String) : StandsFor (quoted s) s ↔ Inert s := by
  have hopen : unquote .plain (quoted s) = unquote .double (s.toList ++ ['"']) := by
    rw [quoted, unquote, if_pos rfl]
  unfold StandsFor Inert
  rw [hopen]
  exact ⟨inert_of_unquote, unquote_double⟩

/-- The lexer finds the end of the quote behind an inert text. -/
theorem lex_double {s : List Char} (h : inert s = true) (source rest : List Char) :
    lex (.double source) (s ++ '"' :: rest) = lex (.word (source ++ s ++ ['"'])) rest := by
  induction s generalizing source with
  | nil => simp [lex, isExpansion]
  | cons c s ih =>
    obtain ⟨hs, ⟨rfl, d, s', rfl, hd⟩ | ⟨hescape, hclose, hexpand⟩⟩ := inert_cons h
    · have hrest := ih hs (source ++ ['\\'])
      rw [List.cons_append] at hrest
      rw [List.cons_append, lex, if_neg (by decide), if_neg (by decide), if_pos rfl,
        List.cons_append, lex_doubleEscaped hd, hrest]
      simp
    · rw [List.cons_append, lex_double_cons hclose hescape hexpand, ih hs]
      simp

theorem inert_append {a b : List Char} (ha : inert a = true) :
    inert (a ++ b) = inert b := by
  induction a with
  | nil => rfl
  | cons c a ih =>
    obtain ⟨hrest, ⟨rfl, d, a', rfl, hd⟩ | ⟨hescape, hclose, hexpand⟩⟩ := inert_cons ha
    · rw [List.cons_append, inert, ih hrest, if_pos rfl]
      simp [hd]
    · rw [List.cons_append, inert, ih hrest, if_neg hescape]
      simp [hclose, hexpand]

theorem Inert.append_iff {a b : String} (ha : Inert a) : Inert (a ++ b) ↔ Inert b := by
  unfold Inert
  rw [String.toList_append, inert_append ha]

end ShellWords
