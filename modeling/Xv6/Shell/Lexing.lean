import Xv6.Shell.Parser
import Mathlib.Data.List.DropRight

/-! The tokens of a line, and what `peek` and `gettoken` see of them. -/

set_option autoImplicit false

namespace Xv6.Shell

inductive Lexeme (T : Type) where
  /-- One of `symbols`, or `+` for `>>`. -/
  | symbol (c : Char)
  | word (t : T)

section
variable {T : Type}

def Lexeme.word? : Lexeme T → Option T
  | symbol _ => none
  | word t => some t

def Lexeme.starts (toks : List Char) : Lexeme T → Bool
  | symbol c => toks.contains (if c = '+' then '>' else c)
  | word _ => false

end

/-! ## Characters -/

theorem skip_nil : skip [] = [] := rfl

theorem skip_skip (s : Ptr) : skip (skip s) = skip s := List.dropWhile_idempotent _ _

theorem skip_length_le (s : Ptr) : (skip s).length ≤ s.length := (List.dropWhile_suffix _).length_le

theorem not_white_of_skip {s rest : Ptr} {c : Char} (found : skip s = c :: rest) : whitespace.contains c = false := by
  have head := List.head?_dropWhile_not (fun c => whitespace.contains c) s
  rw [skip] at found
  rw [found] at head
  simpa using head

theorem plain_iff {c : Char} : plain c = true ↔ whitespace.contains c = false ∧ symbols.contains c = false := by
  simp [plain]

theorem not_white_of_symbol {c : Char} (member : c ∈ symbols) : whitespace.contains c = false := by
  have apart : (symbols.all fun c => !whitespace.contains c) = true := by decide
  simpa using List.all_eq_true.mp apart c member

theorem not_plain_of_symbol {c : Char} (member : c ∈ symbols) : plain c = false := by
  simp [plain, member]

theorem not_plain_of_white {c : Char} (white : whitespace.contains c = true) : plain c = false := by
  simp only [plain, white, Bool.not_true, Bool.false_and]

/-! ## Tokens -/

def Token.text (t : Token) : List Char := t.q.take (t.q.length - t.eq.length)

structure Token.Within (line : Ptr) (t : Token) : Prop where
  suffix : t.q <:+ line
  split : t.q = t.text ++ t.eq
  nonempty : t.text ≠ []
  plain : ∀ c ∈ t.text, plain c = true
  ends : ∀ c ∈ t.eq.head?, Shell.plain c = false

theorem scanToken_symbol (rest : Ptr) {c : Char} (member : c ∈ symbols) :
    ((scanToken (c :: rest)).1 = c ∧ (scanToken (c :: rest)).2 = rest) ∨
      (c = '>' ∧ (scanToken (c :: rest)).1 = '+' ∧ rest = '>' :: (scanToken (c :: rest)).2) := by
  by_cases output : c = '>'
  · subst output
    cases rest with
    | nil => exact .inl ⟨rfl, rfl⟩
    | cons d rest =>
      by_cases again : d = '>'
      · subst again
        exact .inr ⟨rfl, rfl, rfl⟩
      · refine .inl ?_
        simp [scanToken, again]
  · refine .inl ?_
    have known : symbols.erase '>' ⊆ ['|', '(', ')', ';', '&', '<'] := by decide
    have single := known ((List.mem_erase_of_ne output).mpr member)
    simp only [scanToken, if_pos single, and_self]

theorem scanToken_word {c : Char} {rest : Ptr} (isPlain : plain c = true) :
    scanToken (c :: rest) = ('a', (c :: rest).dropWhile plain) := by
  have absent : c ∉ symbols := by
    have := (plain_iff.mp isPlain).2
    simpa using this
  have single : c ∉ ['|', '(', ')', ';', '&', '<'] := by
    intro member
    have known : ['|', '(', ')', ';', '&', '<'] ⊆ symbols := by decide
    exact absent (known member)
  have output : c ≠ '>' := by
    intro same
    exact absent (same ▸ by decide)
  simp only [scanToken, if_neg single, if_neg output]

theorem symbol_or_plain {s rest : Ptr} {c : Char} (found : skip s = c :: rest) :
    c ∈ symbols ∨ plain c = true := by
  by_cases member : c ∈ symbols
  · exact .inl member
  · refine .inr (plain_iff.mpr ⟨not_white_of_skip found, ?_⟩)
    simpa using member

theorem dropWhile_plain_length_lt {c : Char} {rest : Ptr} (isPlain : plain c = true) :
    ((c :: rest).dropWhile plain).length < (c :: rest).length := by
  rw [List.dropWhile_cons_of_pos isPlain, List.length_cons]
  exact Nat.lt_succ_of_le (List.dropWhile_suffix _).length_le

theorem scanToken_length_lt {s rest : Ptr} {c : Char} (found : skip s = c :: rest) :
    (scanToken (c :: rest)).2.length < (c :: rest).length := by
  rcases symbol_or_plain found with member | isPlain
  · rcases scanToken_symbol rest member with ⟨_, ends⟩ | ⟨_, _, more⟩
    · rw [ends, List.length_cons]
      exact Nat.lt_succ_self _
    · have := congrArg List.length more
      simp only [List.length_cons] at this ⊢
      omega
  · rw [scanToken_word isPlain]
    exact dropWhile_plain_length_lt isPlain

def lexemes (s : Ptr) : List (Lexeme Token) :=
  match _found : skip s with
  | [] => []
  | c :: rest =>
    let scanned := scanToken (c :: rest)
    (if scanned.1 = 'a' then .word ⟨c :: rest, scanned.2⟩ else .symbol scanned.1) :: lexemes scanned.2
  termination_by s.length
  decreasing_by
    have shorter := scanToken_length_lt _found
    have bound := skip_length_le s
    rw [_found] at bound
    exact Nat.lt_of_lt_of_le shorter bound

theorem lexemes_of_skip_nil {s : Ptr} (ends : skip s = []) : lexemes s = [] := by
  rw [lexemes]
  split
  · rfl
  · rename_i found
    rw [ends] at found
    cases found

theorem lexemes_of_skip {s rest : Ptr} {c : Char} (found : skip s = c :: rest) :
    lexemes s = (if (scanToken (c :: rest)).1 = 'a' then .word ⟨c :: rest, (scanToken (c :: rest)).2⟩
      else .symbol (scanToken (c :: rest)).1) :: lexemes (scanToken (c :: rest)).2 := by
  rw [lexemes]
  split
  · rename_i ends
    rw [found] at ends
    cases ends
  · rename_i again
    cases found.symm.trans again
    rfl

theorem lexemes_skip (s : Ptr) : lexemes (skip s) = lexemes s := by
  cases found : skip s with
  | nil => rw [lexemes_of_skip_nil found, lexemes_of_skip_nil skip_nil]
  | cons c rest =>
    have same : skip (c :: rest) = c :: rest := by rw [← found, skip_skip]
    rw [lexemes_of_skip found, lexemes_of_skip same]

theorem lexemes_word {s rest : Ptr} {c : Char} (found : skip s = c :: rest) (isPlain : plain c = true) :
    lexemes s = .word ⟨c :: rest, (c :: rest).dropWhile plain⟩ :: lexemes ((c :: rest).dropWhile plain) := by
  rw [lexemes_of_skip found, scanToken_word isPlain]
  rfl

theorem lexemes_symbol {s rest : Ptr} {c : Char} (found : skip s = c :: rest) (member : c ∈ symbols) :
    lexemes s = .symbol (scanToken (c :: rest)).1 :: lexemes (scanToken (c :: rest)).2 := by
  have kind : (scanToken (c :: rest)).1 ≠ 'a' := by
    rcases scanToken_symbol rest member with ⟨same, _⟩ | ⟨_, same, _⟩
    · rw [same]
      intro isA
      subst isA
      revert member
      decide
    · rw [same]
      decide
  rw [lexemes_of_skip found, if_neg kind]

/-! ## The words of a line -/

/-- The longest runs of plain characters, in order. -/
def words (s : List Char) : List (List Char) := (s.splitOnP fun c => !plain c).filter fun w => w ≠ []

theorem words_cons {c : Char} {s : List Char} (ends : plain c = false) : words (c :: s) = words s := by
  have split : (c :: s).splitOnP (fun c => !plain c) = [] :: s.splitOnP (fun c => !plain c) := by
    rw [List.splitOnP_cons_eq_if_modifyHead]
    simp [ends]
  rw [words, split]
  rfl

theorem splitOnP_plain {w r : List Char} (run : ∀ c ∈ w, plain c = true) :
    (w ++ r).splitOnP (fun c => !plain c) = (r.splitOnP fun c => !plain c).modifyHead (w ++ ·) := by
  induction w with
  | nil =>
    rw [List.nil_append]
    cases r.splitOnP (fun c => !plain c) with
    | nil => rfl
    | cons first others => rfl
  | cons c w ih =>
    rw [List.cons_append, List.splitOnP_cons_eq_if_modifyHead, ih (fun d member => run d (.tail c member))]
    have isPlain := run c List.mem_cons_self
    cases r.splitOnP (fun c => !plain c) with
    | nil => simp [isPlain]
    | cons first others => simp [isPlain]

theorem words_append {w r : List Char} (nonempty : w ≠ []) (run : ∀ c ∈ w, plain c = true)
    (ends : ∀ c ∈ r.head?, plain c = false) : words (w ++ r) = w :: words r := by
  rw [words, splitOnP_plain run]
  cases r with
  | nil => simp [nonempty, words]
  | cons d r =>
    have isEnd : plain d = false := ends d rfl
    have split : (d :: r).splitOnP (fun c => !plain c) = [] :: r.splitOnP (fun c => !plain c) := by
      rw [List.splitOnP_cons_eq_if_modifyHead]
      simp [isEnd]
    rw [words_cons isEnd, split]
    simp [nonempty, words]

theorem words_skip (s : Ptr) : words (skip s) = words s := by
  induction s with
  | nil => rfl
  | cons c s ih =>
    by_cases white : whitespace.contains c = true
    · rw [skip, List.dropWhile_cons_of_pos white, words_cons (not_plain_of_white white)]
      exact ih
    · rw [skip, List.dropWhile_cons_of_neg white]

theorem takeWhile_text (s : Ptr) : Token.text ⟨s, s.dropWhile plain⟩ = s.takeWhile plain := by
  have split := List.takeWhile_append_dropWhile (p := plain) (l := s)
  have length := congrArg List.length split
  rw [List.length_append] at length
  rw [Token.text]
  conv_lhs => rw [← split]
  rw [List.take_append_of_le_length (by simp; omega), List.take_of_length_le (by simp; omega)]

theorem within_word {line rest : Ptr} {c : Char} (suffix : c :: rest <:+ line) (isPlain : plain c = true) :
    Token.Within line ⟨c :: rest, (c :: rest).dropWhile plain⟩ where
  suffix := suffix
  split := by rw [takeWhile_text, List.takeWhile_append_dropWhile]
  nonempty := by
    rw [takeWhile_text, List.takeWhile_cons_of_pos isPlain]
    exact List.cons_ne_nil _ _
  plain := by
    rw [takeWhile_text]
    exact fun d member => List.mem_takeWhile_imp member
  ends := by
    intro d head
    have stops := List.head?_dropWhile_not plain (c :: rest)
    rw [Option.mem_def.mp head] at stops
    simpa using stops

theorem skip_suffix (s : Ptr) : skip s <:+ s := List.dropWhile_suffix _

theorem scanToken_suffix {s rest : Ptr} {c : Char} (found : skip s = c :: rest) :
    (scanToken (c :: rest)).2 <:+ c :: rest := by
  rcases symbol_or_plain found with member | isPlain
  · rcases scanToken_symbol rest member with ⟨_, ends⟩ | ⟨_, _, more⟩
    · rw [ends]
      exact List.suffix_cons c rest
    · conv_rhs => rw [more]
      exact (List.suffix_cons _ _).trans (List.suffix_cons _ _)
  · rw [scanToken_word isPlain]
    exact List.dropWhile_suffix _

theorem within_lexemes {line : Ptr} (s : Ptr) (suffix : s <:+ line) :
    ∀ t ∈ (lexemes s).filterMap Lexeme.word?, t.Within line := by
  induction s using lexemes.induct with
  | case1 s ends =>
    rw [lexemes_of_skip_nil ends]
    nofun
  | case2 s c rest found scanned ih =>
    have here : c :: rest <:+ line := found ▸ (skip_suffix s).trans suffix
    have later := ih ((scanToken_suffix found).trans here)
    rcases symbol_or_plain found with member | isPlain
    · rw [lexemes_symbol found member]
      exact later
    · rw [lexemes_word found isPlain]
      have ends : scanned.2 = (c :: rest).dropWhile plain := congrArg Prod.snd (scanToken_word isPlain)
      rw [ends] at later
      intro t member
      rcases List.mem_cons.mp member with same | member
      · rw [same]
        exact within_word here isPlain
      · exact later t member

theorem words_lexemes (s : Ptr) : ((lexemes s).filterMap Lexeme.word?).map Token.text = words s := by
  induction s using lexemes.induct with
  | case1 s ends =>
    rw [lexemes_of_skip_nil ends, ← words_skip, ends]
    rfl
  | case2 s c rest found scanned ih =>
    rw [← words_skip, found]
    rcases symbol_or_plain found with member | isPlain
    · rw [lexemes_symbol found member, words_cons (not_plain_of_symbol member)]
      rcases scanToken_symbol rest member with ⟨_, ends⟩ | ⟨_, _, more⟩
      · rw [ends] at ih ⊢
        exact ih
      · conv_rhs => rw [more, words_cons (by decide)]
        exact ih
    · have ends : scanned.2 = (c :: rest).dropWhile plain := congrArg Prod.snd (scanToken_word isPlain)
      have word := within_word (List.suffix_refl (c :: rest)) isPlain
      have split : c :: rest = _ ++ _ := word.split
      rw [ends] at ih
      rw [lexemes_word found isPlain]
      conv_rhs => rw [split, words_append word.nonempty word.plain word.ends, ← ih]
      rfl

/-! ## What the parser sees -/

def Yields {A : Type} (p : Parse A) (v : A) (scan : Scan) (ts : List (Lexeme Token)) (used : Nat) : Prop :=
  ∃ scan', p scan = .done v scan' ∧ lexemes scan'.ps = ts ∧ scan'.used = used

section
variable {A B : Type} {p : Parse A} {k : A → Parse B} {v : A} {w : B} {scan scan' : Scan}
  {ts us : List (Lexeme Token)} {used used' : Nat}

theorem bind_apply : (p >>= k) scan =
    match p scan with
    | .done value scan => k value scan
    | .stop why => .stop why
    | .unfinished => .unfinished := rfl

theorem bind_of_done (done : p scan = .done v scan') : (p >>= k) scan = k v scan' := by rw [bind_apply, done]

theorem bind_of_stop {why : Stop} (stops : p scan = .stop why) : (p >>= k) scan = .stop why := by
  rw [bind_apply, stops]

theorem bind_eq_done : (p >>= k) scan = .done w scan' ↔ ∃ v mid, p scan = .done v mid ∧ k v mid = .done w scan' := by
  constructor
  · intro done
    cases first : p scan with
    | done v mid => exact ⟨v, mid, rfl, (bind_of_done first).symm.trans done⟩
    | stop why =>
      rw [bind_of_stop first] at done
      cases done
    | unfinished =>
      rw [bind_apply, first] at done
      cases done
  · intro ⟨v, mid, first, second⟩
    exact (bind_of_done first).trans second

theorem bind_ne_unfinished (first : p scan ≠ .unfinished)
    (second : ∀ v mid, p scan = .done v mid → k v mid ≠ .unfinished) : (p >>= k) scan ≠ .unfinished := by
  cases result : p scan with
  | done v mid =>
    rw [bind_of_done result]
    exact second v mid result
  | stop why =>
    rw [bind_of_stop result]
    nofun
  | unfinished => exact absurd result first

theorem Yields.step (yields : Yields p v scan ts used) :
    ∃ mid, (∀ {B : Type} (k : A → Parse B), (p >>= k) scan = k v mid) ∧ lexemes mid.ps = ts ∧ mid.used = used := by
  obtain ⟨mid, done, tokens, memory⟩ := yields
  exact ⟨mid, fun k => bind_of_done done, tokens, memory⟩

theorem Yields.bind (first : Yields p v scan ts used)
    (second : ∀ mid, lexemes mid.ps = ts → mid.used = used → Yields (k v) w mid us used') :
    Yields (p >>= k) w scan us used' := by
  obtain ⟨mid, continues, tokens, memory⟩ := first.step
  rw [Yields, continues]
  exact second mid tokens memory

end

theorem starts_scanToken {toks : List Char} {c : Char} {rest : Ptr} (member : c ∈ symbols) :
    (Lexeme.symbol (T := Token) (scanToken (c :: rest)).1).starts toks = toks.contains c := by
  rcases scanToken_symbol rest member with ⟨same, _⟩ | ⟨output, same, _⟩
  · have single : c ≠ '+' := by
      intro isPlus
      subst isPlus
      revert member
      decide
    rw [same, Lexeme.starts, if_neg single]
  · rw [same, output]
    rfl

theorem peek_yields (toks : List Char) (known : toks ⊆ symbols) (scan : Scan) :
    Yields (peek toks) ((lexemes scan.ps).head?.any fun l => l.starts toks) scan (lexemes scan.ps) scan.used := by
  refine ⟨⟨skip scan.ps, scan.used⟩, ?_, lexemes_skip scan.ps, rfl⟩
  rw [peek]
  congr 1
  cases found : skip scan.ps with
  | nil =>
    rw [lexemes_of_skip_nil found]
    rfl
  | cons c rest =>
    rcases symbol_or_plain found with member | isPlain
    · rw [lexemes_symbol found member]
      exact (starts_scanToken member).symm
    · have absent : toks.contains c = false := by
        rw [← Bool.not_eq_true, List.contains_iff_mem]
        intro member
        have stops := not_plain_of_symbol (known member)
        rw [isPlain] at stops
        cases stops
      rw [lexemes_word found isPlain]
      exact absent

section
variable {scan : Scan} {ts : List (Lexeme Token)}

theorem gettoken_end (tokens : lexemes scan.ps = []) : ∃ t, Yields gettoken (nul, t) scan [] scan.used := by
  cases found : skip scan.ps with
  | nil =>
    refine ⟨⟨[], []⟩, ⟨[], scan.used⟩, ?_, lexemes_of_skip_nil rfl, rfl⟩
    simp only [gettoken, found]
    rfl
  | cons c rest =>
    rw [lexemes_of_skip found] at tokens
    cases tokens

theorem gettoken_word {t : Token} (tokens : lexemes scan.ps = .word t :: ts) :
    Yields gettoken ('a', t) scan ts scan.used := by
  cases found : skip scan.ps with
  | nil =>
    rw [lexemes_of_skip_nil found] at tokens
    cases tokens
  | cons c rest =>
    rcases symbol_or_plain found with member | isPlain
    · rw [lexemes_symbol found member] at tokens
      cases tokens
    · rw [lexemes_word found isPlain] at tokens
      cases tokens
      refine ⟨⟨skip ((c :: rest).dropWhile plain), scan.used⟩, ?_, lexemes_skip _, rfl⟩
      simp only [gettoken, found, scanToken_word isPlain]

theorem gettoken_symbol {c : Char} (tokens : lexemes scan.ps = .symbol c :: ts) :
    (c = '+' ∨ c ∈ symbols) ∧ ∃ t, Yields gettoken (c, t) scan ts scan.used := by
  cases found : skip scan.ps with
  | nil =>
    rw [lexemes_of_skip_nil found] at tokens
    cases tokens
  | cons d rest =>
    rcases symbol_or_plain found with member | isPlain
    · have kind := scanToken_symbol rest member
      rw [lexemes_symbol found member] at tokens
      cases tokens
      constructor
      · rcases kind with ⟨same, _⟩ | ⟨_, same, _⟩
        · rw [same]
          exact .inr member
        · exact .inl same
      · refine ⟨⟨d :: rest, (scanToken (d :: rest)).2⟩, ⟨skip (scanToken (d :: rest)).2, scan.used⟩, ?_,
          lexemes_skip _, rfl⟩
        simp only [gettoken, found]
    · rw [lexemes_word found isPlain] at tokens
      cases tokens

theorem alloc_yields (sz : Nat) (node : Cmd) (room : scan.used + sz ≤ MAXN) :
    Yields (do malloc1 sz; return node) node scan (lexemes scan.ps) (scan.used + sz) := by
  refine ⟨⟨scan.ps, scan.used + sz⟩, ?_, rfl, rfl⟩
  have makes : malloc1 sz scan = .done () ⟨scan.ps, scan.used + sz⟩ := by
    rw [malloc1, if_neg (Nat.not_lt.mpr room)]
  exact bind_of_done makes

theorem alloc_stops (sz : Nat) (node : Cmd) (full : MAXN < scan.used + sz) :
    (do malloc1 sz; return node : Parse Cmd) scan = .stop .usedOut := by
  have stops : malloc1 sz scan = .stop .usedOut := by
    rw [malloc1, if_pos full]
  exact bind_of_stop stops

theorem alloc_cases (sz : Nat) (node : Cmd) (scan : Scan) :
    Yields (do malloc1 sz; return node) node scan (lexemes scan.ps) (scan.used + sz) ∨
      (do malloc1 sz; return node : Parse Cmd) scan = .stop .usedOut := by
  by_cases room : scan.used + sz ≤ MAXN
  · exact .inl (alloc_yields sz node room)
  · exact .inr (alloc_stops sz node (Nat.lt_of_not_le room))

theorem alloc_complete {used : Nat} (sz : Nat) (node : Cmd) (tokens : lexemes scan.ps = ts) (isUsed : scan.used = used)
    (room : used + sz ≤ MAXN) : Yields (do malloc1 sz; return node) node scan ts (used + sz) := by
  subst tokens isUsed
  exact alloc_yields sz node room

theorem alloc_done {sz : Nat} {node cmd : Cmd} {scan' : Scan}
    (made : (do malloc1 sz; return node : Parse Cmd) scan = .done cmd scan') :
    cmd = node ∧ lexemes scan'.ps = lexemes scan.ps := by
  rcases alloc_cases sz node scan with ⟨s, alloc, left, _⟩ | stops
  · cases alloc.symm.trans made
    exact ⟨rfl, left⟩
  · cases stops.symm.trans made

end

end Xv6.Shell
